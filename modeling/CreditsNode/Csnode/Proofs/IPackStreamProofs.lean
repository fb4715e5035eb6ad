import CreditsNode.Csnode.IPackStream
import CreditsNode.Csnode.Proofs.DataStreamProofs

/-!
# What is extracted from a message

The pointer of an `IPackStream` never passes the end of the buffer and no byte outside of it is
read. As long as the stream is good, each operator has extracted what it is for; a value that is not
there leaves the stream not good until `init`.
-/

namespace CreditsNode.IPackStream

open ByteCodec Effect

variable {buffer : Buffer} {s t : IPackStream}

def InBounds (buffer : Buffer) (s : IPackStream) : Prop := s.ptr.toNat ≤ buffer.data.length

def left (buffer : Buffer) (s : IPackStream) : Bytes := buffer.data.drop s.ptr.toNat

theorem toNat_remainsBytes (h : InBounds buffer s) :
    (remainsBytes buffer s).toNat = (left buffer s).length := by
  have hsize := DataStream.toNat_dataSize buffer
  have hle : s.ptr ≤ buffer.dataSize := by
    rw [UInt64.le_iff_toNat_le, hsize]
    exact h
  unfold remainsBytes left
  rw [UInt64.toNat_sub_of_le _ _ hle, hsize, List.length_drop]

theorem isBytesAvailable_iff (h : InBounds buffer s) (bytes : UInt64) :
    isBytesAvailable buffer bytes s = true ↔ bytes.toNat ≤ (left buffer s).length := by
  unfold isBytesAvailable
  rw [decide_eq_true_iff, UInt64.le_iff_toNat_le, toNat_remainsBytes h]

theorem le_of_canPeek (h : InBounds buffer s) {size : ObjectSize}
    (hpeek : canPeek buffer size s = true) : size.value.toNat ≤ (left buffer s).length := by
  grind [canPeek, toNat_remainsBytes, UInt64.le_iff_toNat_le, UInt32.toNat_toUInt64,
    UInt64.toNat_toUInt32]

/-- What an operator keeps: the pointer stays in the buffer, and a stream that is not good stays
so. -/
structure Follows (buffer : Buffer) (s t : IPackStream) : Prop where
  inBounds : InBounds buffer t
  good : t.good = true → s.good = true

theorem Follows.refl (h : InBounds buffer s) : Follows buffer s s := ⟨h, id⟩

theorem Follows.trans {u : IPackStream} (h : Follows buffer s t) (h' : Follows buffer t u) :
    Follows buffer s u :=
  ⟨h'.inBounds, fun hgood => h.good (h'.good hgood)⟩

section Parses

variable {α β γ δ : Type}

/-- From a stream in the buffer, `m` reads no byte outside of it. If the stream is good afterwards,
`m` has done what the parser `g` does, and its result stands for that of `g`. -/
def Parses (buffer : Buffer) (m : Extract α) (g : Get β) (f : α → β) (s : IPackStream) : Prop :=
  Wp m (fun e t => e ≠ .undefined ∧ Follows buffer s t)
    (fun a t => Follows buffer s t ∧
      (t.good = true → g (left buffer s) = some (f a, left buffer t))) s

variable {f : α → β}

theorem Parses.pure (a : α) {b : β} (h : InBounds buffer s) (hb : f a = b) :
    Parses buffer (Pure.pure a) (Pure.pure b) f s :=
  ⟨Follows.refl h, fun _ => hb ▸ rfl⟩

variable {g : Get β}

theorem parses_fail (a : α) (h : InBounds buffer s) :
    Parses buffer (fail >>= fun _ => Pure.pure a) g f s :=
  ⟨⟨h, fun hgood => nomatch hgood⟩, fun hgood => nomatch hgood⟩

variable {m : Extract α}

theorem Parses.bind {k : α → Extract γ} {g' : β → Get δ} {f' : γ → δ} (hm : Parses buffer m g f s)
    (hk : ∀ a t, InBounds buffer t → Parses buffer (k a) (g' (f a)) f' t) :
    Parses buffer (m >>= k) (g >>= g') f' s := by
  refine Wp.bind hm ?_
  rintro a t ⟨hst, hg⟩
  refine (hk a t hst.inBounds).imp ?_ ?_
  · rintro e u ⟨he, htu⟩
    exact ⟨he, hst.trans htu⟩
  · rintro c u ⟨htu, hg'⟩
    refine ⟨hst.trans htu, fun hgood => ?_⟩
    show (g (left buffer s)).bind _ = _
    rw [hg (htu.good hgood)]
    exact hg' hgood

theorem Parses.imp {g' : Get γ} {f' : α → γ} (hm : Parses buffer m g f s)
    (h : ∀ a bs cs, g bs = some (f a, cs) → g' bs = some (f' a, cs)) : Parses buffer m g' f' s :=
  hm.mono fun a _ ht => ⟨ht.1, fun hgood => h a _ _ (ht.2 hgood)⟩

theorem Parses.map {φ : α → γ} {f' : γ → β}
    (hm : Parses buffer m g f s) (h : ∀ a bs cs, g bs = some (f a, cs) → f' (φ a) = f a) :
    Parses buffer (m >>= fun a => Pure.pure (φ a)) g f' s := by
  refine Wp.bind hm ?_
  rintro a t ⟨hst, hg⟩
  refine ⟨hst, fun hgood => ?_⟩
  rw [h a _ _ (hg hgood)]
  exact hg hgood

theorem parses_orFail {c : IPackStream → Prop} [DecidablePred c] {a : α} {k : Extract α}
    (h : InBounds buffer s) (hk : ¬ c s → Parses buffer k g f s) :
    Parses buffer (do if c (← get) then fail; return a else k) g f s := by
  show Parses buffer (if c s then _ else k) g f s
  split_ifs with hc
  · exact parses_fail a h
  · exact hk hc

theorem parses_ifGood {a : α} {k : Extract α} (h : InBounds buffer s)
    (hk : Parses buffer k g f s) :
    Parses buffer (do if !(← get).good then return a else k) g f s := by
  show Parses buffer (if !s.good then Pure.pure a else k) g f s
  split_ifs with hgood
  · rw [Bool.not_eq_true'] at hgood
    exact ⟨Follows.refl h, fun hgood' => absurd hgood' (by rw [hgood]; decide)⟩
  · exact hk

end Parses

def moved (s : IPackStream) (size : UInt64) : IPackStream := { s with ptr := s.ptr + size }

section

variable (h : InBounds buffer s)

include h

theorem take_eq {size : UInt64} (hle : size.toNat ≤ (left buffer s).length) :
    take buffer size s = .ok ((left buffer s).take size.toNat) (s.moved size) ∧
      InBounds buffer (s.moved size) ∧
      left buffer (s.moved size) = (left buffer s).drop size.toNat := by
  have hlt := DataStream.length_lt buffer
  unfold InBounds at h
  have hlength : (left buffer s).length = buffer.data.length - s.ptr.toNat := List.length_drop
  have hrange : buffer.range s.ptr size = .ok ((left buffer s).take size.toNat) := by
    unfold Buffer.range
    rw [if_pos (by omega)]
    rfl
  have hptr : (s.ptr + size).toNat = s.ptr.toNat + size.toNat := by
    rw [UInt64.toNat_add]
    omega
  refine ⟨?_, ?_, ?_⟩
  · show (do let bytes ← buffer.range s.ptr size; _ : Extract Bytes) s = _
    rw [hrange]
    rfl
  · show (s.ptr + size).toNat ≤ _
    omega
  · show buffer.data.drop (s.ptr + size).toNat = _
    rw [hptr, ← List.drop_drop]
    rfl

theorem parses_take {size : UInt64} (hle : size.toNat ≤ (left buffer s).length) :
    Parses buffer (take buffer size) (getBytes size.toNat) id s := by
  obtain ⟨hrun, hbounds, hleft⟩ := take_eq h hle
  unfold Parses Wp
  rw [hrun]
  refine ⟨⟨hbounds, id⟩, fun _ => ?_⟩
  unfold getBytes
  rw [if_pos hle, hleft]
  rfl

theorem parses_extractArray (size : UInt64) (default : Bytes) :
    Parses buffer (extractArray buffer size) (getBytes size.toNat) (·.getD default) s := by
  refine parses_orFail h fun havailable => ?_
  rw [Bool.not_eq_true', Bool.not_eq_false, isBytesAvailable_iff h] at havailable
  exact (parses_take h havailable).map fun _ _ _ _ => rfl

theorem parses_extractValue (size : ObjectSize) (default : Bytes) :
    Parses buffer (extractValue buffer size) (getBytes size.value.toNat) (·.getD default) s := by
  refine parses_orFail h fun hpeek => ?_
  rw [Bool.not_eq_true', Bool.not_eq_false] at hpeek
  exact (parses_take h (le_of_canPeek h hpeek)).map fun _ _ _ _ => rfl

theorem parses_number (size : ObjectSize) (hsize : size.value.toNat ≤ 8) :
    Parses buffer (extractValue buffer size) (getLe size.value.toNat)
      (fun bytes => (bytes.elim 0 fun bytes => UInt64.ofNat (leNat bytes)).toNat) s := by
  refine (parses_extractValue h size [0]).imp fun bytes bs cs hbytes => ?_
  have hlength := ensures_getBytes _ bs _ _ hbytes
  show (getBytes size.value.toNat bs).bind _ = _
  rw [hbytes]
  refine congrArg (fun n => some (n, cs)) ?_
  cases bytes with
  | none => rfl
  | some bytes =>
    have hlt := leNat_lt bytes
    have hpow : 256 ^ bytes.length ≤ 256 ^ 8 :=
      Nat.pow_le_pow_right (by decide) (hlength.trans_le hsize)
    exact (UInt64.toNat_ofNat_of_lt' (hlt.trans_le hpow)).symm

theorem parses_extractSize : Parses buffer (extractSize buffer) (getLe 8) UInt64.toNat s :=
  (parses_number h DataStream.sizeofSize le_rfl).map fun _ _ _ _ => rfl

theorem parses_extractBytes (default : Bytes) :
    Parses buffer (extractBytes buffer) Entity.decodeBytes (·.getD default) s :=
  (parses_extractSize h).bind fun size _ ht =>
    parses_ifGood ht (parses_extractArray ht size default)

end

theorem parses_extractEach (n : Nat) : ∀ {s}, InBounds buffer s →
    Parses buffer (extractEach buffer n) (getBytes n) id s := by
  induction n with
  | zero =>
    intro s h
    exact ⟨Follows.refl h, fun _ => if_pos (Nat.zero_le _)⟩
  | succ n ih =>
    intro s h
    rw [getBytes_succ]
    exact (parses_extractValue h sizeofByte [0]).bind fun byte t ht =>
      (ih ht).bind fun rest u hu => Parses.pure _ hu rfl

theorem parses_extractAddress (h : InBounds buffer s) (default : Bool × Bytes) :
    Parses buffer (extractAddress buffer) Entity.decodeAddress (·.getD default) s := by
  refine parses_orFail h fun hpeek => ?_
  rw [Bool.not_eq_true', Bool.not_eq_false] at hpeek
  refine (parses_take h (le_of_canPeek h hpeek)).bind fun flags t ht => ?_
  by_cases hflag : flags.getD 0 0 &&& 1 ≠ 0
  · rw [if_pos hflag, id, if_pos hflag]
    refine parses_orFail ht fun _ => ?_
    exact (parses_extractEach 16 ht).bind fun bytes u hu => Parses.pure _ hu rfl
  · rw [if_neg hflag, id, if_neg hflag]
    exact (parses_extractEach 4 ht).bind fun bytes u hu => Parses.pure _ hu rfl

theorem parses_extractCompressedRegion (h : InBounds buffer s) (default : UInt64 × Bytes) :
    Parses buffer (extractCompressedRegion buffer) Entity.decodeCompressedRegion
      (·.getD default) s := by
  refine (parses_extractSize h).bind fun binarySize t ht => ?_
  refine (parses_number ht sizeofSizeType (by decide)).bind fun size u hu => ?_
  refine parses_orFail hu fun havailable => ?_
  rw [Bool.not_eq_true', Bool.not_eq_false, isBytesAvailable_iff hu] at havailable
  refine (parses_take hu havailable).bind fun region v hv => Parses.pure _ hv ?_
  rw [UInt64.ofNat_toNat]
  rfl

section Containers

variable {α β : Type}

variable {g : Get α}

theorem parses_extractElements {extract : Extract (Option α)} {default : α}
    (hextract : ∀ {s}, InBounds buffer s → Parses buffer extract g (·.getD default) s) (n : Nat) :
    ∀ {s}, InBounds buffer s →
      Parses buffer (extractElements extract default n) (getMany g n) id s := by
  induction n with
  | zero =>
    intro s h
    exact Parses.pure [] h rfl
  | succ n ih =>
    intro s h
    refine (hextract h).bind fun element t ht => ?_
    exact parses_ifGood ht ((ih ht).bind fun rest u hu => Parses.pure _ hu rfl)

theorem parses_extractVector {extract : Extract (Option α)} {default : α}
    (hextract : ∀ {s}, InBounds buffer s → Parses buffer extract g (·.getD default) s)
    (sizeof : Nat) (h : InBounds buffer s) :
    Parses buffer (extractVector buffer sizeof extract default)
      (do let size ← getLe 8; getMany g size) (·.getD []) s := by
  refine (parses_extractSize h).bind fun size t ht => ?_
  by_cases hzero : size = 0
  · rw [if_pos hzero, hzero]
    exact Parses.pure none ht rfl
  rw [if_neg hzero]
  refine parses_orFail ht fun _ => ?_
  split_ifs with hmany
  · exact ⟨by simp, Follows.refl ht⟩
  have hreturn : ∀ elements : List α,
      (if elements.length ≠ size.toNat then return none else return some elements :
        Extract (Option (List α))) =
      return if elements.length ≠ size.toNat then none else some elements := by
    intro elements
    split_ifs <;> rfl
  simp only [hreturn]
  refine (parses_extractElements hextract size.toNat ht).map fun elements bs cs helements => ?_
  have hlength : elements.length = size.toNat :=
    (ensures_getMany (.trivial g) size.toNat bs _ _ helements).1
  rw [if_neg (not_not_intro hlength)]
  rfl

theorem parses_extractPair {extractFirst : Extract (Option α)} {extractSecond : Extract (Option β)}
    {g' : Get β} {first : α} {second : β}
    (hfirst : ∀ {s}, InBounds buffer s → Parses buffer extractFirst g (·.getD first) s)
    (hsecond : ∀ {s}, InBounds buffer s → Parses buffer extractSecond g' (·.getD second) s)
    (default : α × β) (h : InBounds buffer s) :
    Parses buffer (extractPair extractFirst extractSecond first second)
      (do let a ← g; let b ← g'; return (a, b)) (·.getD default) s := by
  refine (hfirst h).bind fun a t ht => parses_ifGood ht ?_
  refine (hsecond ht).bind fun b u hu => parses_ifGood hu ?_
  exact Parses.pure _ hu rfl

end Containers

theorem Entity.parses_extract (entity : Entity) : ∀ {s}, InBounds buffer s →
    Parses buffer (entity.extract buffer) entity.decode (·.getD entity.default) s := by
  induction entity with
  | value size => exact fun h => parses_extractValue h size _
  | fixedString length | byteArray length => exact fun h => parses_extractArray h length _
  | vector sizeof element ih => exact fun h => parses_extractVector ih sizeof h
  | pair first second ihFirst ihSecond => exact fun h => parses_extractPair ihFirst ihSecond _ h
  | string | bytes | bytesView | transactionsPacketHash => exact fun h => parses_extractBytes h _
  | pool | transactionsPacket | poolHash =>
    exact fun h => (parses_extractBytes h []).map fun _ _ _ _ => rfl
  | address => exact fun h => parses_extractAddress h _
  | regionPtr size =>
    intro s h
    have hparses := parses_extractArray h size.toUInt64 (regionPtr size).default
    exact hparses
  | compressedRegion => exact fun h => parses_extractCompressedRegion h _

theorem wp_safeSkip (h : InBounds buffer s) (size : ObjectSize) (num : UInt32) :
    Succeeds (safeSkip buffer size num)
      (fun _ t => Follows buffer s t ∧
        (t.good = true → (size.value * num.toUInt64).toNat ≤ (left buffer s).length)) s := by
  show Wp (if !isBytesAvailable buffer (size.value * num.toUInt64) s then _ else _) _ _ s
  split_ifs with havailable
  · exact ⟨⟨h, fun hgood => nomatch hgood⟩, fun hgood => nomatch hgood⟩
  · rw [Bool.not_eq_true', Bool.not_eq_false, isBytesAvailable_iff h] at havailable
    have hlength : (left buffer s).length = buffer.data.length - s.ptr.toNat := List.length_drop
    unfold InBounds at h
    have hbounds : InBounds buffer { s with ptr := s.ptr + size.value * num.toUInt64 } := by
      show (s.ptr + size.value * num.toUInt64).toNat ≤ _
      rw [UInt64.toNat_add]
      omega
    exact ⟨⟨hbounds, id⟩, fun _ => havailable⟩

namespace Operation

def Fails (session : Session) : Operation → Prop
  | init _ => False
  | extract entity => entity.decode (left session.buffer session.stream) = none
  | safeSkip size num =>
    (left session.buffer session.stream).length < (size.value * num.toUInt64).toNat

def ReadsOutside (op : Operation) (session : Session) : Prop :=
  ∃ t, op.execute session.buffer session.stream = .error .undefined t

/-- The operation ends with an exception, as `reserve` throws for too large a vector. -/
def Throws (op : Operation) (session : Session) : Prop :=
  ∃ e t, op.execute session.buffer session.stream = .error e t

def isInit : Operation → Bool
  | init _ => true
  | _ => false

end Operation

/-- The pointer is in the buffer, or at its end. -/
def Session.InBounds (session : Session) : Prop :=
  IPackStream.InBounds session.buffer session.stream

variable {session : Session}

theorem Operation.wp_execute {op : Operation} (hop : op.isInit = false) (h : session.InBounds) :
    Wp (op.execute session.buffer)
      (fun e t => e ≠ .undefined ∧ Follows session.buffer session.stream t)
      (fun _ t => Follows session.buffer session.stream t ∧ (t.good = true → ¬ op.Fails session))
      session.stream := by
  cases op with
  | init buffer => cases hop
  | extract entity =>
    refine .bind (entity.parses_extract h) ?_
    rintro result t ⟨hfollows, hdecode⟩
    refine ⟨hfollows, fun hgood hfails => ?_⟩
    have hnone : entity.decode (left session.buffer session.stream) = none := hfails
    rw [hdecode hgood] at hnone
    cases hnone
  | safeSkip size num =>
    refine (wp_safeSkip h size num).imp (fun _ _ hfalse => hfalse.elim) ?_
    rintro _ t ⟨hfollows, hle⟩
    exact ⟨hfollows, fun hgood => Nat.not_lt.mpr (hle hgood)⟩

section

variable (op : Operation) (h : session.InBounds)
include op h

theorem Operation.not_readsOutside : ¬ op.ReadsOutside session := by
  rintro ⟨t, hrun⟩
  cases op with
  | init buffer => cases hrun
  | extract entity => exact ((wp_execute rfl h).of_error hrun).1 rfl
  | safeSkip size num => exact ((wp_execute rfl h).of_error hrun).1 rfl

theorem Operation.step_cases :
    (∃ buffer, op = init buffer ∧ op.step session = ⟨buffer, {}⟩) ∨
    (op.isInit = false ∧ ∃ t, op.step session = ⟨session.buffer, t⟩ ∧
      Follows session.buffer session.stream t ∧
      (op.Fails session → ¬ op.Throws session → t.good = false)) := by
  cases hop : op.isInit with
  | true =>
    cases op with
    | init buffer => exact .inl ⟨buffer, rfl, rfl⟩
    | extract entity => cases hop
    | safeSkip size num => cases hop
  | false =>
    have hexecute := wp_execute hop h
    have hbuffer : (op.step session).buffer = session.buffer := by
      cases op with
      | init buffer => cases hop
      | extract entity => rfl
      | safeSkip size num => rfl
    refine .inr ⟨rfl, (op.step session).stream, ?_, ?_⟩
    · rw [← hbuffer]
    · cases hrun : op.execute session.buffer session.stream with
      | ok result t =>
        obtain ⟨hfollows, hfails⟩ := hexecute.of_ok hrun
        have hstream : (op.step session).stream = t := by
          unfold step
          rw [hrun]
        grind
      | error e t =>
        have hstream : (op.step session).stream = t := by
          unfold step
          rw [hrun]
        rw [hstream]
        exact ⟨(hexecute.of_error hrun).2, fun _ hthrows => absurd ⟨e, t, hrun⟩ hthrows⟩

theorem Operation.inBounds_step : (op.step session).InBounds := by
  rcases op.step_cases h with ⟨buffer, -, hstep⟩ | ⟨-, t, hstep, hfollows, -⟩
  · rw [hstep]
    exact Nat.zero_le _
  · rw [hstep]
    exact hfollows.inBounds

end

theorem inBounds_run (ops : List Operation) :
    ∀ {session : Session}, session.InBounds → (run ops session).InBounds := by
  induction ops with
  | nil => exact fun h => h
  | cons op ops ih => exact fun h => ih (op.inBounds_step h)

theorem good_run (ops : List Operation) (hops : ∀ op ∈ ops, op.isInit = false) :
    ∀ {session : Session}, session.InBounds → session.stream.good = false →
      (run ops session).stream.good = false := by
  induction ops with
  | nil => exact fun _ hbad => hbad
  | cons op ops ih =>
    intro session h hbad
    refine ih (fun op' hmem => hops op' (List.mem_cons_of_mem _ hmem)) (op.inBounds_step h) ?_
    have hop := hops op List.mem_cons_self
    rcases op.step_cases h with ⟨buffer, rfl, -⟩ | ⟨-, t, hstep, hfollows, -⟩
    · cases hop
    · have hgood' := hfollows.good
      grind

end CreditsNode.IPackStream
