import Mathlib.Data.Nat.Bitwise
import CreditsNode.Csdb.Transaction

/-!
# Round trip and binding of the transaction encodings

Each part of a transaction is read back as it was written, and the parts compose to the round trip
of the storage encoding. The signed encoding is read back field by field once the types of the user
fields are known, which is what it binds.
-/

namespace CreditsNode

open ByteCodec List UserField

theorem Amount.reads_get (a : Amount) : Reads Amount.get a.put a :=
  (reads_getI32 a.integral).bind ((reads_getU64 a.fraction).bind_pure (Reads.pure _))

theorem AmountCommission.reads_get (c : AmountCommission) : Reads AmountCommission.get c.put c :=
  (reads_getU16 c.bits).map AmountCommission.mk

theorem Transaction.reads_getAddress (a : Address) :
    Reads (getAddress a.isWalletId) (putAddress a) a := by
  cases a with
  | publicKey key => exact (reads_getArray key).map Address.publicKey
  | walletId id => exact (reads_getU32 id).map Address.walletId

def UserField.Fits : UserField → Prop
  | .string value => value.length < 2 ^ 32
  | _ => True

instance : DecidablePred UserField.Fits
  | .integer _ => isTrue trivial
  | .string value => inferInstanceAs (Decidable (value.length < 2 ^ 32))
  | .amount _ => isTrue trivial

theorem reads_getString {value : Bytes} (h : value.length < 2 ^ 32) :
    Reads getString (putString value) value := by
  have hlen : (UInt32.ofNat value.length).toNat = value.length := by
    exact Nat.mod_eq_of_lt h
  refine (reads_getU32 _).bind ?_
  rw [hlen]
  exact reads_getBytes value

theorem UserField.reads_getValue {f : UserField} (h : f.Fits) :
    Reads (getValue f.type) f.putForSig f := by
  cases f with
  | integer value => exact (reads_getU64 value).map integer
  | string value => exact (reads_getString h).map string
  | amount value => exact value.reads_get.map amount

theorem UserField.reads_get {f : UserField} (h : f.Fits) : Reads get f.put f :=
  (reads_getU8 f.type).bind (reads_getValue h)

theorem reads_getUserField {e : UserFieldId × UserField} (h : e.2.Fits) :
    Reads getUserField (putI32 e.1 ++ e.2.put) e :=
  (reads_getI32 e.1).bind ((reads_get h).bind_pure (Reads.pure _))

theorem reads_getUserFields {fields : UserFields} (hsize : fields.size ≤ 255)
    (hfits : ∀ e ∈ fields.entries, e.2.Fits) :
    Reads getUserFields (putUserFields fields) fields := by
  have hcount : (UInt8.ofNat fields.size).toNat = fields.entries.length := by
    exact Nat.mod_eq_of_lt (by simp only [OrdMap.size] at *; omega)
  have hmany := reads_getMany fields.entries fun e he => reads_getUserField (hfits e he)
  rw [← hcount] at hmany
  refine (reads_getU8 _).bind (hmany.bind_pure ?_)
  rw [OrdMap.ofEntries_entries]
  exact Reads.pure fields

theorem ensures_getString : Ensures getString fun value => value.length < 2 ^ 32 := by
  refine (Ensures.trivial getU32).bind fun size _ => ?_
  intro bs value rest h
  rw [ensures_getBytes _ bs value rest h]
  exact size.toNat_lt

theorem UserField.ensures_get : Ensures get UserField.Fits := by
  refine (Ensures.trivial getU8).bind fun type _ => ?_
  unfold getValue
  split_ifs
  · exact (Ensures.trivial _).map fun _ _ => trivial
  · exact ensures_getString.map fun _ h => h
  · exact (Ensures.trivial _).map fun _ _ => trivial
  · exact Ensures.failure

theorem ensures_getUserField : Ensures getUserField fun e => e.2.Fits :=
  (Ensures.trivial getI32).bind fun _ _ => ensures_get.bind fun _ h => Ensures.pure h

theorem ensures_getUserFields :
    Ensures getUserFields fun fields => fields.size ≤ 255 ∧ ∀ e ∈ fields.entries, e.2.Fits := by
  refine (Ensures.trivial getU8).bind fun size _ => ?_
  refine (ensures_getMany ensures_getUserField _).bind fun es hes => Ensures.pure ⟨?_, ?_⟩
  · have := OrdMap.size_ofEntries_le es
    have := size.toNat_lt
    omega
  · exact fun e he => hes.2 e (OrdMap.mem_of_mem_ofEntries he)

def hiWord (x : Nat) (s t : Bool) : UInt32 :=
  UInt32.ofNat (x / 2 ^ 16 + (s.toNat * 2 ^ 31 + t.toNat * 2 ^ 30))

variable {x n : Nat} {t : Transaction}

theorem toNat_hiWord (h : x < 2 ^ 46) (s t : Bool) :
    (hiWord x s t).toNat = x / 2 ^ 16 + (s.toNat * 2 ^ 31 + t.toNat * 2 ^ 30) := by
  have hs := s.toNat_lt
  have ht := t.toNat_lt
  rw [hiWord, UInt32.toNat_ofNat']
  exact Nat.mod_eq_of_lt (by omega)

theorem or_flags : ∀ (q : Fin 64) (s t : Bool),
    UInt8.ofNat q.val ||| ((s.toUInt8 <<< 7) ||| (t.toUInt8 <<< 6)) =
      UInt8.ofNat (q.val + (s.toNat * 128 + t.toNat * 64)) := by
  decide

theorem Transaction.putInnerID_eq (h : t.innerID.toUInt64.toNat < 2 ^ 46) :
    t.putInnerID = putU16 (UInt16.ofNat t.innerID.toUInt64.toNat) ++
      putU32 (hiWord t.innerID.toUInt64.toNat t.source.isWalletId t.target.isWalletId) := by
  unfold putInnerID walletFlags
  generalize t.innerID.toUInt64.toNat = x at h ⊢
  generalize t.source.isWalletId = s
  generalize t.target.isWalletId = u
  have hs : s.toNat < 2 := s.toNat_lt
  have hu : u.toNat < 2 := u.toNat_lt
  have hlast := or_flags ⟨x / 2 ^ 40, by omega⟩ s u
  have hmod : UInt8.ofNat (x / 256 / 256 / 256 / 256 / 256 % 256) = UInt8.ofNat (x / 2 ^ 40) := by
    congr 1
    omega
  simp only [leBytes, putU16, putU32, hiWord, UInt16.toNat_ofNat', UInt32.toNat_ofNat']
  simp only [List.modify, List.modifyTailIdx, List.modifyTailIdx.go, List.modifyHead, hmod, hlast,
    List.cons_append, List.nil_append, List.cons.injEq, and_true]
  refine ⟨?_, ?_, ?_, ?_, ?_, ?_⟩ <;> congr 1 <;> omega

theorem and_ne_zero_eq_testBit {w m : UInt32} {i : Nat} (hm : m.toNat = 2 ^ i) :
    decide (w &&& m ≠ 0) = w.toNat.testBit i := by
  have hand : (w &&& m).toNat = (w.toNat.testBit i).toNat * 2 ^ i := by
    rw [UInt32.toNat_and, hm, Nat.and_two_pow]
  rw [Bool.eq_iff_iff, decide_eq_true_iff, ne_eq, ← UInt32.toNat_inj, hand]
  cases w.toNat.testBit i <;> simp

theorem hiWord_source (h : x < 2 ^ 46) (s t : Bool) :
    decide (hiWord x s t &&& 0x80000000 ≠ 0) = s := by
  have ht := t.toNat_lt
  rw [and_ne_zero_eq_testBit (i := 31) rfl, toNat_hiWord h, Nat.testBit_eq_decide_div_mod_eq]
  cases s <;> simp only [Bool.toNat_true, Bool.toNat_false, decide_eq_true_eq,
    decide_eq_false_iff_not] <;> omega

theorem hiWord_target (h : x < 2 ^ 46) (s t : Bool) :
    decide (hiWord x s t &&& 0x40000000 ≠ 0) = t := by
  rw [and_ne_zero_eq_testBit (i := 30) rfl, toNat_hiWord h, Nat.testBit_eq_decide_div_mod_eq]
  cases t <;> simp only [Bool.toNat_true, Bool.toNat_false, decide_eq_true_eq,
    decide_eq_false_iff_not] <;> omega

theorem hiWord_innerID {x : UInt64} (h : x.toNat < 2 ^ 46) (s t : Bool) :
    (((hiWord x.toNat s t).toUInt64 &&& 0x3fffffff) <<< 16) |||
      (UInt16.ofNat x.toNat).toUInt64 = x := by
  have hlo : (UInt16.ofNat x.toNat).toUInt64.toNat = x.toNat % 2 ^ 16 := by
    rw [UInt16.toNat_toUInt64, UInt16.toNat_ofNat']
  have hhi : ((hiWord x.toNat s t).toUInt64 &&& 0x3fffffff).toNat = x.toNat / 2 ^ 16 := by
    rw [UInt64.toNat_and, UInt32.toNat_toUInt64, toNat_hiWord h,
      show (0x3fffffff : UInt64).toNat = 2 ^ 30 - 1 from rfl, Nat.and_two_pow_sub_one_eq_mod]
    omega
  rw [← UInt64.toNat_inj, UInt64.toNat_or, UInt64.toNat_shiftLeft, hhi, hlo]
  have hshift : (x.toNat / 2 ^ 16) <<< ((16 : UInt64).toNat % 64) % 2 ^ 64 =
      (x.toNat / 2 ^ 16) <<< 16 := by
    rw [show (16 : UInt64).toNat % 64 = 16 from rfl, Nat.shiftLeft_eq]
    exact Nat.mod_eq_of_lt (by omega)
  rw [hshift, ← Nat.shiftLeft_add_eq_or_of_lt (Nat.mod_lt _ (by decide)), Nat.shiftLeft_eq]
  omega

/-- The inner id fits the 46 bits that the flags leave. -/
def Transaction.InnerIDFits (t : Transaction) : Prop :=
  0 ≤ t.innerID.toInt ∧ t.innerID.toInt < 2 ^ 46

instance (t : Transaction) : Decidable t.InnerIDFits := inferInstanceAs (Decidable (_ ∧ _))

theorem Transaction.InnerIDFits.toNat_lt (h : t.InnerIDFits) :
    t.innerID.toUInt64.toNat < 2 ^ 46 := by
  obtain ⟨hlo, hhi⟩ := h
  have := t.innerID.toNat_toUInt64_eq
  omega

theorem innerID_word_lt (hi : UInt32) (lo : UInt16) :
    (((hi.toUInt64 &&& 0x3fffffff) <<< 16) ||| lo.toUInt64).toNat < 2 ^ 46 := by
  have hhi : (hi.toUInt64 &&& 0x3fffffff).toNat < 2 ^ 30 := by
    rw [UInt64.toNat_and, show (0x3fffffff : UInt64).toNat = 2 ^ 30 - 1 from rfl,
      Nat.and_two_pow_sub_one_eq_mod]
    exact Nat.mod_lt _ (by decide)
  rw [UInt64.toNat_or, UInt64.toNat_shiftLeft, UInt16.toNat_toUInt64]
  refine Nat.or_lt_two_pow ?_ (lt_trans lo.toNat_lt (by decide))
  rw [show (16 : UInt64).toNat % 64 = 16 from rfl, Nat.shiftLeft_eq]
  omega

theorem Transaction.innerIDFits_word (hi : UInt32) (lo : UInt16)
    (h : t.innerID = (((hi.toUInt64 &&& 0x3fffffff) <<< 16) ||| lo.toUInt64).toInt64) :
    t.InnerIDFits := by
  have hlt := innerID_word_lt hi lo
  generalize ((hi.toUInt64 &&& 0x3fffffff) <<< 16) ||| lo.toUInt64 = w at h hlt
  have hnat : (w.toNat : Int) = w.toInt64.toInt % (2 ^ 64 : Nat) := w.toInt64.toNat_toUInt64_eq
  have hlo := w.toInt64.le_toInt
  have hhi := w.toInt64.toInt_lt
  rw [InnerIDFits, h]
  omega

def Transaction.header (t : Transaction) : Transaction :=
  { new with
    innerID := t.innerID, source := t.source, target := t.target, amount := t.amount,
    maxFee := t.maxFee, currency := t.currency }

theorem Transaction.reads_getHeader (h : t.InnerIDFits) : Reads getHeader t.putHeader t.header := by
  have hlt := h.toNat_lt
  rw [putHeader, putInnerID_eq hlt, append_assoc]
  refine (reads_getU16 _).bind ((reads_getU32 _).bind ?_)
  simp only [hiWord_source hlt, hiWord_target hlt, hiWord_innerID hlt]
  refine (reads_getAddress t.source).bind ((reads_getAddress t.target).bind ?_)
  refine t.amount.reads_get.bind (t.maxFee.reads_get.bind ((reads_getU8 t.currency).bind_pure ?_))
  simpa [header] using Reads.pure t.header

theorem Transaction.ensures_getHeader : Ensures getHeader Transaction.InnerIDFits := by
  refine (Ensures.trivial getU16).bind fun lo _ => (Ensures.trivial getU32).bind fun hi _ => ?_
  refine (Ensures.trivial _).bind fun _ _ => (Ensures.trivial _).bind fun _ _ => ?_
  refine (Ensures.trivial _).bind fun _ _ => (Ensures.trivial _).bind fun _ _ => ?_
  exact (Ensures.trivial _).bind fun _ _ => Ensures.pure (innerIDFits_word hi lo rfl)

def Transaction.unplaced (t : Transaction) : Transaction := { t with readOnly := false, id := .new }

theorem Transaction.reads_get (hid : t.InnerIDFits)
    (hsize : t.userFields.size ≤ 255) (hfits : ∀ e ∈ t.userFields.entries, e.2.Fits) :
    Reads Transaction.get t.put t.unplaced := by
  refine (reads_getHeader hid).bind ((reads_getUserFields hsize hfits).bind ?_)
  exact (reads_getArray t.signature).bind (t.countedFee.reads_get.bind_pure (Reads.pure _))

/-- A transaction that is read back as it was written. -/
structure Transaction.Fits (t : Transaction) : Prop where
  innerID : t.InnerIDFits
  userFields_size : t.userFields.size ≤ 255
  userFields : ∀ e ∈ t.userFields.entries, e.2.Fits

theorem Transaction.ensures_get : Ensures Transaction.get Transaction.Fits := by
  refine ensures_getHeader.bind fun t ht => ensures_getUserFields.bind fun fields hfields => ?_
  refine (Ensures.trivial _).bind fun _ _ => (Ensures.trivial _).bind fun _ _ => ?_
  exact Ensures.pure ⟨ht, hfields.1, hfields.2⟩

/-- Reading back a written transaction: with an inner id of 46 bits, at most 255 user fields and
strings shorter than `2 ^ 32` bytes, `get` succeeds on what `put` wrote, yields the same fields and
leaves what follows. -/
theorem Transaction.get_put {t : Transaction} (hid : t.InnerIDFits)
    (hsize : t.userFields.size ≤ 255) (hfits : ∀ e ∈ t.userFields.entries, e.2.Fits)
    (rest : Bytes) :
    ∃ u, Transaction.get (t.put ++ rest) = some (u, rest) ∧ u.innerID = t.innerID ∧
      u.source = t.source ∧ u.target = t.target ∧ u.amount = t.amount ∧ u.maxFee = t.maxFee ∧
      u.currency = t.currency ∧ u.userFields = t.userFields ∧ u.signature = t.signature ∧
      u.countedFee = t.countedFee :=
  ⟨t.unplaced, reads_get hid hsize hfits rest, rfl, rfl, rfl, rfl, rfl, rfl, rfl, rfl, rfl⟩

def Transaction.withFields (fields : List (UserFieldId × UserField)) : Transaction :=
  { new with userFields := .ofEntries fields }

theorem Transaction.get_put_numbered :
    let t : Transaction :=
      { withFields [(-1, .string [104, 105]), (0, .integer 7), (1, .amount ⟨-1, 5⟩)] with
        innerID := 70368744177663, source := .walletId 3 }
    t.InnerIDFits ∧ ∃ u, Transaction.get (t.put ++ [1, 2]) = some (u, [1, 2]) ∧
      u.innerID = t.innerID ∧ u.source = t.source ∧ u.target = t.target ∧ u.amount = t.amount ∧
      u.maxFee = t.maxFee ∧ u.currency = t.currency ∧ u.userFields = t.userFields ∧
      u.signature = t.signature ∧ u.countedFee = t.countedFee :=
  ⟨by decide, get_put (by decide) (by decide) (by decide) [1, 2]⟩

def Transaction.zeroString (n : Nat) : Transaction :=
  { new with userFields := ⟨[(0, .string (List.replicate n 0))], List.pairwise_singleton _ _⟩ }

theorem Transaction.putUserFields_zeroString (hn : UInt32.ofNat n = 0) :
    putUserFields (zeroString n).userFields =
      putUserFields (zeroString 0).userFields ++ List.replicate n 0 := by
  simp [zeroString, putUserFields, OrdMap.size, UserField.put, UserField.type,
    UserField.putForSig, putString, hn]

theorem Transaction.put_zeroString (hn : UInt32.ofNat n = 0) :
    (zeroString n).put = (zeroString 0).put ++ List.replicate n 0 := by
  have hfields := putUserFields_zeroString hn
  have hsig : (zeroString n).signature.toList = replicate 64 0 := rfl
  have hfee : (zeroString n).countedFee.put = replicate 2 0 := by
    change AmountCommission.put ⟨0⟩ = _
    decide
  have htail : (zeroString n).signature.toList ++ (zeroString n).countedFee.put =
      replicate 66 0 := by
    rw [hsig, hfee, replicate_append_replicate]
  have hzeros : replicate n (0 : UInt8) ++ replicate 66 0 =
      replicate 66 0 ++ replicate n 0 := by
    rw [replicate_append_replicate, replicate_append_replicate, Nat.add_comm]
  have hheader : (zeroString n).putHeader = (zeroString 0).putHeader := rfl
  rw [put, hfields, htail, append_assoc, hzeros, hheader, put]
  rfl

theorem Transaction.not_get_put_zeroString (hn : UInt32.ofNat n = 0) (hpos : n ≠ 0) :
    ¬ ∃ u, Transaction.get ((zeroString n).put ++ []) = some (u, []) := by
  have hget := reads_get (t := zeroString 0) (by decide) (by decide) (by decide)
    (replicate n 0)
  rintro ⟨u, hu⟩
  rw [append_nil, put_zeroString hn, hget, Option.some.injEq, Prod.mk.injEq] at hu
  exact hpos (by simpa using hu.2)

/-- A string of `2 ^ 32` characters is written with length zero, and its characters are left
unread. -/
theorem Transaction.get_put_long_string :
    ((zeroString (2 ^ 32)).InnerIDFits ∧ (zeroString (2 ^ 32)).userFields.size ≤ 255) ∧
      ¬ ∃ u, Transaction.get ((zeroString (2 ^ 32)).put ++ []) = some (u, []) := by
  refine ⟨⟨?_, ?_⟩, not_get_put_zeroString (by decide) (by decide)⟩
  · exact ⟨show (0 : Int) ≤ (0 : Int64).toInt by decide, show (0 : Int64).toInt < 2 ^ 46 by decide⟩
  · exact show 1 ≤ 255 by decide

theorem Transaction.toByteStreamForSig_eq (t : Transaction) :
    t.toByteStreamForSig = t.putHeader ++ putSmart t.customUserFields := by
  unfold toByteStreamForSig
  split_ifs with h
  · rfl
  · have hnil : t.customUserFields = [] := length_eq_zero_iff.mp (not_not.mp h)
    rw [hnil]
    rfl

theorem flatMap_putForSig_inj {fs gs : List UserField} (htype : fs.map type =
    gs.map type) (hf : ∀ f ∈ fs, f.Fits) (hg : ∀ g ∈ gs, g.Fits)
    (h : fs.flatMap putForSig = gs.flatMap putForSig) : fs = gs := by
  induction fs generalizing gs with
  | nil => exact (map_eq_nil_iff.mp htype.symm).symm
  | cons f fs ih =>
    cases gs with
    | nil => simp at htype
    | cons g gs =>
      obtain ⟨htype₁, htype₂⟩ := cons_eq_cons.mp htype
      have hreads := reads_getValue (hg g mem_cons_self)
      rw [← htype₁] at hreads
      obtain ⟨rfl, hrest⟩ := (reads_getValue (hf f mem_cons_self)).unique hreads h
      grind

/-- What a signature binds: with inner ids of 46 bits, equal signed encodings have equal inner ids,
addresses, amounts, fees and currencies; and the values of the signed user fields are equal in order
when their types are and their strings are shorter than `2 ^ 32` bytes. -/
theorem Transaction.toByteStreamForSig_binds {t u : Transaction} (ht : t.InnerIDFits)
    (hu : u.InnerIDFits) (h : t.toByteStreamForSig = u.toByteStreamForSig) :
    t.innerID = u.innerID ∧ t.source = u.source ∧ t.target = u.target ∧ t.amount = u.amount ∧
      t.maxFee = u.maxFee ∧ t.currency = u.currency ∧
      t.customUserFields.length % 256 = u.customUserFields.length % 256 ∧
      (t.customUserFields.map (fun e => e.2.type) = u.customUserFields.map (fun e => e.2.type) →
        (∀ e ∈ t.customUserFields, e.2.Fits) → (∀ e ∈ u.customUserFields, e.2.Fits) →
        t.customUserFields.map Prod.snd = u.customUserFields.map Prod.snd) := by
  rw [toByteStreamForSig_eq, toByteStreamForSig_eq] at h
  obtain ⟨hheader, hsmart⟩ := (reads_getHeader ht).unique (reads_getHeader hu) h
  obtain ⟨hcount, hvalues⟩ := (reads_getU8 _).unique (reads_getU8 _) hsmart
  have hfield : ∀ {α : Type} (f : Transaction → α), f t.header = f u.header := fun f =>
    congrArg f hheader
  refine ⟨hfield innerID, hfield source, hfield target, hfield amount, hfield maxFee,
    hfield currency, by simpa using congrArg UInt8.toNat hcount, fun htype htfits hufits => ?_⟩
  refine flatMap_putForSig_inj (by simpa [Function.comp_def] using htype) ?_ ?_
    (by simpa [flatMap_map] using hvalues)
  · simpa using fun f k hmem => htfits (k, f) hmem
  · simpa using fun f k hmem => hufits (k, f) hmem

/-- Two transactions that differ in a field with a negative id alone have equal signed encodings,
and agree in everything that is signed. -/
theorem Transaction.toByteStreamForSig_binds_comment :
    let t := withFields [(-1, .string [1]), (0, .integer 7)]
    let u := withFields [(-1, .string [2]), (0, .integer 7)]
    t.toByteStreamForSig = u.toByteStreamForSig ∧
      t.innerID = u.innerID ∧ t.source = u.source ∧ t.target = u.target ∧ t.amount = u.amount ∧
      t.maxFee = u.maxFee ∧ t.currency = u.currency ∧
      t.customUserFields.length % 256 = u.customUserFields.length % 256 ∧
      (t.customUserFields.map (fun e => e.2.type) = u.customUserFields.map (fun e => e.2.type) →
        (∀ e ∈ t.customUserFields, e.2.Fits) → (∀ e ∈ u.customUserFields, e.2.Fits) →
        t.customUserFields.map Prod.snd = u.customUserFields.map Prod.snd) :=
  ⟨by decide, toByteStreamForSig_binds (by decide) (by decide) (by decide)⟩

def Transaction.zeroStrings (m n : Nat) : Transaction :=
  { new with
    userFields := ⟨[(0, .string (List.replicate m 0)), (1, .string (List.replicate n 0))],
      by simp⟩ }

theorem Transaction.customUserFields_zeroStrings (m n : Nat) : (zeroStrings m n).customUserFields =
    [(0, .string (List.replicate m 0)), (1, .string (List.replicate n 0))] := by
  simp [zeroStrings, customUserFields, OrdMap.lowerBound]

theorem Transaction.zeroStrings_swap (hn : UInt32.ofNat n = 0) :
    (zeroStrings n 0).toByteStreamForSig = (zeroStrings 0 n).toByteStreamForSig := by
  have hempty : UInt32.ofNat ([] : Bytes).length = 0 := rfl
  have hzero : putU32 0 = replicate 4 0 := by decide
  have hcomm : replicate n (0 : UInt8) ++ replicate 4 0 =
      replicate 4 0 ++ replicate n 0 := by
    rw [replicate_append_replicate, replicate_append_replicate, Nat.add_comm]
  rw [toByteStreamForSig_eq, toByteStreamForSig_eq, customUserFields_zeroStrings,
    customUserFields_zeroStrings]
  simp only [putSmart, flatMap_cons, flatMap_nil, putForSig, putString,
    length_replicate, hn, append_nil, replicate_zero, hempty]
  rw [hzero, append_assoc, hcomm]
  rfl

theorem Transaction.zeroStrings_ne (hn : n ≠ 0) :
    (zeroStrings n 0).customUserFields ≠ (zeroStrings 0 n).customUserFields := by
  rw [customUserFields_zeroStrings, customUserFields_zeroStrings]
  simp_all

/-- What the signed encoding does not tell apart: the ids of the user fields, an integer from a
string, an inner id of 47 bits from one whose target is a numbered wallet, and two long strings from
each other. -/
theorem Transaction.toByteStreamForSig_collisions :
    ((withFields [(0, .integer 4)]).toByteStreamForSig =
        (withFields [(1, .integer 4)]).toByteStreamForSig ∧
      (withFields [(0, .integer 4)]).customUserFields ≠
        (withFields [(1, .integer 4)]).customUserFields) ∧
    ((withFields [(0, .integer 4)]).toByteStreamForSig =
        (withFields [(0, .string [0, 0, 0, 0])]).toByteStreamForSig ∧
      (withFields [(0, .integer 4)]).customUserFields ≠
        (withFields [(0, .string [0, 0, 0, 0])]).customUserFields) ∧
    ({ new with target := .walletId 1 }.toByteStreamForSig =
        { new with target := .walletId 1, innerID := 2 ^ 46 }.toByteStreamForSig ∧
      { new with target := .walletId 1 }.innerID ≠
        { new with target := .walletId 1, innerID := 2 ^ 46 }.innerID) ∧
    ((zeroStrings (2 ^ 32) 0).toByteStreamForSig = (zeroStrings 0 (2 ^ 32)).toByteStreamForSig ∧
      (zeroStrings (2 ^ 32) 0).customUserFields ≠ (zeroStrings 0 (2 ^ 32)).customUserFields) :=
  ⟨⟨by decide, by decide⟩, ⟨by decide, by decide⟩, ⟨by decide, by decide⟩,
    zeroStrings_swap (by decide), zeroStrings_ne (by decide)⟩

end CreditsNode
