import CreditsNode.System.Proofs.CommonProofs
import CreditsNode.Csdb.Pool
import CreditsNode.Csdb.Proofs.TransactionProofs
import CreditsNode.Csdb.Proofs.SampleData

/-!
# Round trip of the block encoding

What the encoding leaves out is a relation between the fields of a pool, collected in `Pool.Fits`.
Under it `Pool.get` reads back what `Pool.put` wrote, and composing a pool and reading its binary
representation are inverse to each other.
-/

namespace CreditsNode

open ByteCodec List

theorem PoolHash.reads_get (h : PoolHash) : Reads PoolHash.get h.put h := by
  cases h with
  | none => exact (reads_getU8 0).bind_pure (Reads.pure _)
  | some value =>
    exact (reads_getU8 32).bind ((reads_getArray value).bind_pure (Reads.pure _))

theorem NewWalletInfo.toNat_addressId (w : NewWalletInfo) :
    w.addressId.toNat = w.trxInd.toNat + w.addressType.toBit * 2 ^ 63 := by
  rw [addressId, UInt64.toNat_ofNat']
  cases w.addressType <;> simp only [AddressType.toBit] <;> omega

theorem NewWalletInfo.reads_get (w : NewWalletInfo) : Reads NewWalletInfo.get w.put w := by
  have hid := w.toNat_addressId
  have htrx : BitVec.ofNat 63 w.addressId.toNat = w.trxInd := by
    apply BitVec.eq_of_toNat_eq
    rw [BitVec.toNat_ofNat]
    omega
  have htype : (if w.addressId.toNat / 2 ^ 63 = 0 then AddressType.addressIsSource
      else AddressType.addressIsTarget) = w.addressType := by
    cases h : w.addressType <;> rw [h] at hid <;> simp only [AddressType.toBit] at hid
    · rw [if_pos (by omega)]
    · rw [if_neg (by omega)]
  refine (reads_getU64 w.addressId).bind ((reads_getU32 w.walletId).bind_pure ?_)
  rw [htrx, htype]
  exact Reads.pure w

theorem SmartSignature.reads_getEntry (e : UInt8 × Signature) :
    Reads getEntry (putU8 e.1 ++ e.2.toList) e :=
  (reads_getU8 e.1).bind ((reads_getArray e.2).bind_pure (Reads.pure _))

theorem SmartSignature.reads_get {s : SmartSignature} (h : s.signatures.length ≤ 255) :
    Reads SmartSignature.get s.put s := by
  have hcount : (UInt8.ofNat s.signatures.length).toNat = s.signatures.length := by
    exact Nat.mod_eq_of_lt (by omega)
  have hmany := reads_getMany s.signatures fun e _ => reads_getEntry e
  rw [← hcount] at hmany
  refine (reads_getArray s.smartKey).bind ((reads_getU64 s.smartConsensusPool).bind ?_)
  exact (reads_getU8 _).bind (hmany.bind_pure (Reads.pure _))

theorem Pool.reads_getSignatures {mask : UInt64} {signatures : List Signature}
    (h : signatures.length = popcount mask) :
    Reads (getSignatures mask) (signatures.flatMap List.Vector.toList) signatures := by
  rw [getSignatures, toNat_maskValue, ← h]
  exact reads_getMany signatures fun s _ => reads_getArray s

/-- The lengths that the encoding of a pool does not store agree with the counters and masks, and
those it stores as a byte fit. -/
structure Pool.Coherent (p : Pool) : Prop where
  confidants : p.numberTrusted.toNat = p.confidants.length
  signatures : p.signatures.length = popcount p.realTrusted
  confirmations : p.roundConfirmations.length = popcount p.roundConfirmationMask
  userFields_size : p.userFields.size ≤ 255
  smartSignatures_size : p.smartSignatures.length ≤ 255
  smartSignatures : ∀ s ∈ p.smartSignatures, s.signatures.length ≤ 255
  transactions : ∀ t ∈ p.transactions, t.Fits

/-- What the encoding of a pool relies on: also the lengths that are stored as a `uint32_t` fit. -/
structure Pool.Fits (p : Pool) : Prop extends p.Coherent where
  userFields : ∀ e ∈ p.userFields.entries, e.2.Fits
  transactions_size : p.transactions.length < 2 ^ 32
  newWallets_size : p.newWallets.length < 2 ^ 32

/-- What reading the hashed part relies on: nothing is asked of the signatures. -/
structure Pool.HashedFits (p : Pool) : Prop where
  confidants : p.numberTrusted.toNat = p.confidants.length
  confirmations : p.roundConfirmations.length = popcount p.roundConfirmationMask
  userFields_size : p.userFields.size ≤ 255
  userFields : ∀ e ∈ p.userFields.entries, e.2.Fits
  transactions : ∀ t ∈ p.transactions, t.Fits
  transactions_size : p.transactions.length < 2 ^ 32
  newWallets_size : p.newWallets.length < 2 ^ 32

variable {p : Pool}

theorem Pool.Fits.hashed (h : p.Fits) : p.HashedFits := { h with }

theorem toNat_ofNat_uint32 {n : Nat} (h : n < 2 ^ 32) : (UInt32.ofNat n).toNat = n := by
  exact Nat.mod_eq_of_lt h

def Pool.decoded (p : Pool) : Pool :=
  { p with
    isValid := true
    readOnly := false
    cachedHash := none
    transactions := p.transactions.map Transaction.unplaced
    hashingLength := UInt64.ofNat p.putHashed.length
    binaryRepresentation := [] }

theorem Pool.reads_getMeta (h : p.HashedFits) :
    Reads getMeta p.putMeta
      ({ new with
          version := p.version, previousHash := p.previousHash, sequence := p.sequence,
          userFields := p.userFields, roundCost := p.roundCost, isValid := true },
        p.transactions.length) := by
  refine (reads_getU8 p.version).bind ((PoolHash.reads_get p.previousHash).bind ?_)
  refine (reads_getU64 p.sequence).bind
    ((reads_getUserFields h.userFields_size h.userFields).bind ?_)
  refine p.roundCost.reads_get.bind ((reads_getU32 _).bind_pure ?_)
  rw [toNat_ofNat_uint32 h.transactions_size]
  exact Reads.pure _

theorem Pool.reads_getNewWallets {wallets : List NewWalletInfo} (h : wallets.length < 2 ^ 32) :
    Reads getNewWallets (putU32 (UInt32.ofNat wallets.length) ++ wallets.flatMap NewWalletInfo.put)
      wallets := by
  refine (reads_getU32 _).bind ?_
  rw [toNat_ofNat_uint32 h]
  exact reads_getMany wallets fun w _ => w.reads_get

theorem Pool.reads_getHashedData (h : p.HashedFits) (length : UInt64) :
    Reads getHashedData (p.putHashed ++ putU64 length)
      { p.decoded with signatures := [], smartSignatures := [], hashingLength := length } := by
  have htrx := reads_getMany_map p.transactions fun t ht =>
    Transaction.reads_get (h.transactions t ht).innerID (h.transactions t ht).userFields_size
      (h.transactions t ht).userFields
  have hconf := reads_getMany p.confidants fun k _ => reads_getArray k
  rw [← h.confidants] at hconf
  have key : p.putHashed ++ putU64 length =
      p.putMeta ++ (p.transactions.flatMap Transaction.put ++
        ((putU32 (UInt32.ofNat p.newWallets.length) ++ p.newWallets.flatMap NewWalletInfo.put) ++
          (putU8 p.numberTrusted ++ (putU64 p.realTrusted ++
            (p.confidants.flatMap List.Vector.toList ++ (putU8 p.numberConfirmations ++
              (putU64 p.roundConfirmationMask ++
                (p.roundConfirmations.flatMap List.Vector.toList ++ putU64 length)))))))) := by
    rw [putHashed]
    simp only [append_assoc]
  rw [key]
  refine (reads_getMeta h).bind (htrx.bind ((reads_getNewWallets h.newWallets_size).bind ?_))
  refine (reads_getU8 _).bind ((reads_getU64 _).bind (hconf.bind ?_))
  refine (reads_getU8 _).bind ((reads_getU64 _).bind
    ((reads_getSignatures h.confirmations).bind ?_))
  exact (reads_getU64 _).bind_pure (Reads.pure _)

theorem Pool.reads_getSmartSignatures (h : p.Fits) :
    Reads getSmartSignatures (putU8 (UInt8.ofNat p.smartSignatures.length) ++
      p.smartSignatures.flatMap SmartSignature.put) p.smartSignatures := by
  have hcount : (UInt8.ofNat p.smartSignatures.length).toNat = p.smartSignatures.length := by
    have := h.smartSignatures_size
    exact Nat.mod_eq_of_lt (by omega)
  refine (reads_getU8 _).bind ?_
  rw [hcount]
  exact reads_getMany p.smartSignatures fun s hs =>
    SmartSignature.reads_get (h.smartSignatures s hs)

theorem Pool.reads_get (h : p.Fits) : Reads Pool.get p.put p.decoded := by
  rw [put, putSignatures, ← append_assoc]
  refine (reads_getHashedData h.hashed _).bind ((reads_getSignatures h.signatures).bind ?_)
  exact (reads_getSmartSignatures h).bind_pure (Reads.pure _)

theorem SmartSignature.ensures_get :
    Ensures SmartSignature.get fun s => s.signatures.length ≤ 255 := by
  refine (Ensures.trivial _).bind fun _ _ => (Ensures.trivial _).bind fun _ _ => ?_
  refine (Ensures.trivial _).bind fun count _ => ?_
  refine (ensures_getMany (Ensures.trivial _) _).bind fun entries h => Ensures.pure ?_
  have := count.toNat_lt
  simp only [h.1]
  omega

theorem Pool.ensures_getSignatures (mask : UInt64) :
    Ensures (getSignatures mask) fun signatures => signatures.length = popcount mask := by
  intro bs signatures rest h
  rw [← toNat_maskValue]
  exact (ensures_getMany (.trivial _) _ bs signatures rest h).1

theorem Pool.ensures_getMeta : Ensures getMeta fun m => m.2 < 2 ^ 32 ∧ m.1.userFields.size ≤ 255 ∧
    ∀ e ∈ m.1.userFields.entries, e.2.Fits := by
  refine (Ensures.trivial _).bind fun _ _ => (Ensures.trivial _).bind fun _ _ => ?_
  refine (Ensures.trivial _).bind fun _ _ => ensures_getUserFields.bind fun fields hfields => ?_
  refine (Ensures.trivial _).bind fun _ _ => (Ensures.trivial _).bind fun cnt _ => ?_
  exact Ensures.pure ⟨cnt.toNat_lt, hfields⟩

theorem Pool.ensures_getNewWallets :
    Ensures getNewWallets fun wallets => wallets.length < 2 ^ 32 := by
  refine (Ensures.trivial _).bind fun cnt _ => ?_
  intro bs wallets rest h
  rw [(ensures_getMany (Ensures.trivial NewWalletInfo.get) _ bs wallets rest h).1]
  exact cnt.toNat_lt

theorem Pool.ensures_getSmartSignatures : Ensures getSmartSignatures fun ss =>
    ss.length ≤ 255 ∧ ∀ s ∈ ss, s.signatures.length ≤ 255 := by
  refine (Ensures.trivial _).bind fun cnt _ => ?_
  intro bs ss rest h
  have hss := ensures_getMany SmartSignature.ensures_get _ bs ss rest h
  have := cnt.toNat_lt
  exact ⟨by omega, hss.2⟩

def Pool.unsigned (p : Pool) : Pool :=
  { p with signatures := [], smartSignatures := [], realTrusted := 0 }

theorem Pool.ensures_getHashedData : Ensures getHashedData fun p => p.unsigned.Fits := by
  refine ensures_getMeta.bind fun m hm => ?_
  refine (ensures_getMany Transaction.ensures_get _).bind fun trxs htrxs => ?_
  refine ensures_getNewWallets.bind fun wallets hwallets => ?_
  refine (Ensures.trivial _).bind fun numberTrusted _ => (Ensures.trivial _).bind fun _ _ => ?_
  refine (ensures_getMany (Ensures.trivial _) _).bind fun confidants hconf => ?_
  refine (Ensures.trivial _).bind fun _ _ => (Ensures.trivial _).bind fun mask _ => ?_
  refine (ensures_getSignatures mask).bind fun confirmations hconfirm => ?_
  refine (Ensures.trivial _).bind fun _ _ => Ensures.pure ?_
  exact {
    confidants := hconf.1.symm
    signatures := show 0 = popcount 0 by decide
    confirmations := hconfirm
    userFields_size := hm.2.1
    userFields := hm.2.2
    smartSignatures_size := Nat.zero_le _
    smartSignatures := nofun
    transactions_size := htrxs.1 ▸ hm.1
    transactions := htrxs.2
    newWallets_size := hwallets }

theorem Pool.ensures_get : Ensures Pool.get Pool.Fits := by
  refine ensures_getHashedData.bind fun p hp => ?_
  refine (ensures_getSignatures p.realTrusted).bind fun signatures hsig => ?_
  refine ensures_getSmartSignatures.bind fun smarts hsmarts => .pure ?_
  exact { hp with
    signatures := hsig
    smartSignatures_size := hsmarts.1
    smartSignatures := hsmarts.2 }

section Composition

variable (crypto : Crypto)

def Pool.Composed (p : Pool) : Prop :=
  ∃ q : Pool, q.isValid = true ∧ q.readOnly = false ∧ p = q.compose crypto

variable {q : Pool}

theorem Pool.compose_eq (hvalid : q.isValid = true) (hro : q.readOnly = false) :
    q.compose crypto = q.updateBinaryRepresentation.updateTransactions crypto := by
  simp [compose, hvalid, hro]

theorem Transaction.fits_updateId {t : Transaction} {poolSeq index : Sequence} :
    (t.updateId poolSeq index).Fits ↔ t.Fits :=
  ⟨fun h => ⟨h.innerID, h.userFields_size, h.userFields⟩,
    fun h => ⟨h.innerID, h.userFields_size, h.userFields⟩⟩

theorem Pool.length_updateTransactions (p : Pool) :
    (p.updateTransactions crypto).transactions.length = p.transactions.length := by
  simp [updateTransactions, updateHash]

theorem Pool.forall_updateTransactions (p : Pool) :
    (∀ t ∈ (p.updateTransactions crypto).transactions, t.Fits) ↔ ∀ t ∈ p.transactions, t.Fits := by
  simp only [updateTransactions, updateHash, mem_mapIdx]
  constructor
  · intro h t ht
    obtain ⟨i, hi, rfl⟩ := mem_iff_getElem.mp ht
    exact Transaction.fits_updateId.mp (h _ ⟨i, hi, rfl⟩)
  · rintro h t ⟨i, hi, rfl⟩
    exact Transaction.fits_updateId.mpr (h _ (getElem_mem hi))

theorem Pool.coherent_updateTransactions (p : Pool) :
    (p.updateTransactions crypto).Coherent ↔ p.Coherent := by
  constructor
  · intro h
    exact { h with transactions := (forall_updateTransactions crypto p).mp h.transactions }
  · intro h
    exact { h with transactions := (forall_updateTransactions crypto p).mpr h.transactions }

theorem Pool.fits_updateTransactions (p : Pool) : (p.updateTransactions crypto).Fits ↔ p.Fits := by
  have hlen := length_updateTransactions crypto p
  constructor
  · intro h
    exact { (coherent_updateTransactions crypto p).mp h.toCoherent with
      userFields := h.userFields
      transactions_size := hlen ▸ h.transactions_size
      newWallets_size := h.newWallets_size }
  · intro h
    exact { (coherent_updateTransactions crypto p).mpr h.toCoherent with
      userFields := h.userFields
      transactions_size := hlen.symm ▸ h.transactions_size
      newWallets_size := h.newWallets_size }

theorem Pool.coherent_compose (hvalid : q.isValid = true) (hro : q.readOnly = false) :
    (q.compose crypto).Coherent ↔ q.Coherent := by
  rw [compose_eq crypto hvalid hro, coherent_updateTransactions]
  exact ⟨fun h => { h with }, fun h => { h with }⟩

theorem Pool.fits_compose (hvalid : q.isValid = true) (hro : q.readOnly = false) :
    (q.compose crypto).Fits ↔ q.Fits := by
  rw [compose_eq crypto hvalid hro, fits_updateTransactions]
  exact ⟨fun h => { h with }, fun h => { h with }⟩

theorem Pool.updateTransactions_decoded (q : Pool) (data : Bytes) :
    { q.decoded with binaryRepresentation := data }.updateTransactions crypto =
      { q with
        isValid := true, hashingLength := UInt64.ofNat q.putHashed.length,
        binaryRepresentation := data }.updateTransactions crypto := by
  simp only [updateTransactions, updateHash, decoded, Pool.mk.injEq, true_and, and_true]
  apply ext_getElem
  · simp
  · intro i h₁ h₂
    simp [Transaction.updateId, Transaction.unplaced]

theorem Pool.fromBinary_compose (hvalid : q.isValid = true) (hro : q.readOnly = false)
    (hq : q.Fits) : fromBinary crypto (q.compose crypto).toBinary = q.compose crypto := by
  have hget := reads_get hq []
  rw [append_nil] at hget
  rw [compose_eq crypto hvalid hro]
  change fromBinary crypto q.put = _
  simp only [fromBinary, hget]
  rw [updateTransactions_decoded, ← hvalid]
  rfl

/-- Block round trip: a pool as `compose` left it, whose counters and masks agree with the lengths
of its lists and whose lengths fit, is read back from its binary representation as it is. -/
theorem Pool.fromBinary_toBinary {p : Pool} (hp : p.Composed crypto) (h : p.Fits) :
    (fromBinary crypto p.toBinary).isValid = true ∧ fromBinary crypto p.toBinary = p ∧
      (fromBinary crypto p.toBinary).hash crypto = p.hash crypto := by
  obtain ⟨q, hvalid, hro, rfl⟩ := hp
  have hq : q.Fits := (fits_compose crypto hvalid hro).mp h
  rw [fromBinary_compose crypto hvalid hro hq, compose_eq crypto hvalid hro]
  exact ⟨hvalid, rfl, rfl⟩

theorem Pool.fits_fromBinary {data : Bytes} (h : (fromBinary crypto data).isValid = true) :
    (fromBinary crypto data).Fits := by
  cases hget : get data with
  | none =>
    simp only [fromBinary, hget] at h
    exact absurd h (by decide)
  | some r =>
    simp only [fromBinary, hget]
    rw [fits_updateTransactions]
    exact { ensures_get data r.1 r.2 hget with }

theorem Pool.fromBinary_ne (hvalid : q.isValid = true) (hro : q.readOnly = false)
    (h : ¬ q.Fits) : fromBinary crypto (q.compose crypto).toBinary ≠ q.compose crypto := by
  intro heq
  have hvalid' : (q.compose crypto).isValid = true := by
    rw [compose_eq crypto hvalid hro]; exact hvalid
  have hfits := fits_fromBinary crypto (heq ▸ hvalid')
  rw [heq] at hfits
  exact h ((fits_compose crypto hvalid hro).mp hfits)

end Composition

def Pool.filled (fields : UserFields) (trxs : List Transaction) (wallets : List NewWalletInfo) :
    Pool :=
  { new with isValid := true, userFields := fields, transactions := trxs, newWallets := wallets }

theorem Pool.coherent_filled {fields : UserFields} {trxs : List Transaction}
    {wallets : List NewWalletInfo} (hsize : fields.size ≤ 255) (htrxs : ∀ t ∈ trxs, t.Fits) :
    (filled fields trxs wallets).Coherent where
  confidants := rfl
  signatures := show 0 = popcount 0 by decide
  confirmations := show 0 = popcount 0 by decide
  userFields_size := hsize
  smartSignatures_size := Nat.zero_le _
  smartSignatures := nofun
  transactions := htrxs

theorem Transaction.fits_new : Transaction.new.Fits := ⟨by decide, by decide, by decide⟩

/-- A block with two transactions, two new wallets, a user field, two confidants, the signature of
one of them and the signatures of a contract. -/
def Pool.signedBlock : Pool :=
  { filled (.ofEntries [(1, .string [5, 6])])
      [Transaction.new, { Transaction.new with
        innerID := 9, userFields := .ofEntries [(0, .integer 7), (2, .string [8])] }]
      [⟨0, .addressIsSource, 2⟩, ⟨1, .addressIsTarget, 3⟩] with
    sequence := 4, numberTrusted := 2, confidants := [zeroArray 32, sampleKey 1]
    realTrusted := 2, signatures := [zeroArray 64]
    smartSignatures := [⟨zeroArray 32, 3, [(0, zeroArray 64)]⟩] }

theorem Pool.fits_signedBlock : signedBlock.Fits where
  confidants := rfl
  signatures := show 1 = popcount 2 by decide
  confirmations := show 0 = popcount 0 by decide
  userFields_size := by decide
  smartSignatures_size := by decide
  smartSignatures := by decide
  transactions := by
    intro t ht
    simp only [signedBlock, filled, List.mem_cons, List.not_mem_nil, or_false] at ht
    rcases ht with rfl | rfl
    · exact Transaction.fits_new
    · exact ⟨by decide, by decide, by decide⟩
  userFields := by decide
  transactions_size := by decide
  newWallets_size := by decide

theorem Pool.fromBinary_toBinary_filled :
    let p := signedBlock.compose Crypto.zero
    p.Fits ∧ (fromBinary Crypto.zero p.toBinary).isValid = true ∧
      fromBinary Crypto.zero p.toBinary = p ∧
      (fromBinary Crypto.zero p.toBinary).hash Crypto.zero = p.hash Crypto.zero := by
  have hp := (fits_compose Crypto.zero rfl rfl).mpr fits_signedBlock
  exact ⟨hp, fromBinary_toBinary Crypto.zero ⟨_, rfl, rfl, rfl⟩ hp⟩

def Pool.zeroString (n : Nat) : Pool :=
  filled (Transaction.zeroString n).userFields [] []

def Pool.confirmed : Pool :=
  { new with isValid := true, roundConfirmationMask := 1, roundConfirmations := [zeroArray 64] }

theorem Pool.coherent_confirmed (mask : UInt64) (h : popcount mask = 1) :
    { confirmed with roundConfirmationMask := mask }.Coherent where
  confidants := rfl
  signatures := show 0 = popcount 0 by decide
  confirmations := h.symm
  userFields_size := Nat.zero_le _
  smartSignatures_size := Nat.zero_le _
  smartSignatures := nofun
  transactions := nofun

theorem Pool.fromBinary_addConfirmationMask :
    ((confirmed.compose Crypto.zero).addConfirmationMask 2).Coherent ∧
      (fromBinary Crypto.zero
        ((confirmed.compose Crypto.zero).addConfirmationMask 2).toBinary).roundConfirmationMask =
          1 := by
  have hfits : confirmed.Fits :=
    { coherent_confirmed 1 (by decide) with
      userFields := nofun
      transactions_size := by decide
      newWallets_size := by decide }
  have hback := fromBinary_compose Crypto.zero rfl rfl hfits
  refine ⟨?_, ?_⟩
  · exact { coherent_confirmed 2 (by decide) with }
  · change (fromBinary Crypto.zero (confirmed.compose Crypto.zero).toBinary).roundConfirmationMask =
      1
    rw [hback, compose_eq Crypto.zero rfl rfl]
    rfl

/-- Pools whose counters and masks agree with the lengths of their lists, and that are not read
back: with a string of `2 ^ 32` bytes, `2 ^ 32` transactions or `2 ^ 32` new wallets, and one that
was changed after it had been composed. -/
theorem Pool.fromBinary_toBinary_fails :
    (((zeroString (2 ^ 32)).compose Crypto.zero).Coherent ∧
      fromBinary Crypto.zero ((zeroString (2 ^ 32)).compose Crypto.zero).toBinary ≠
        (zeroString (2 ^ 32)).compose Crypto.zero) ∧
    (((filled .empty (List.replicate (2 ^ 32) .new) []).compose Crypto.zero).Coherent ∧
      fromBinary Crypto.zero
          ((filled .empty (List.replicate (2 ^ 32) .new) []).compose Crypto.zero).toBinary ≠
        (filled .empty (List.replicate (2 ^ 32) .new) []).compose Crypto.zero) ∧
    (((filled .empty [] (List.replicate (2 ^ 32) ⟨0, .addressIsSource, 0⟩)).compose
        Crypto.zero).Coherent ∧
      fromBinary Crypto.zero ((filled .empty []
          (List.replicate (2 ^ 32) ⟨0, .addressIsSource, 0⟩)).compose Crypto.zero).toBinary ≠
        (filled .empty [] (List.replicate (2 ^ 32) ⟨0, .addressIsSource, 0⟩)).compose Crypto.zero) ∧
    (((confirmed.compose Crypto.zero).addConfirmationMask 2).Coherent ∧
      fromBinary Crypto.zero ((confirmed.compose Crypto.zero).addConfirmationMask 2).toBinary ≠
        (confirmed.compose Crypto.zero).addConfirmationMask 2) := by
  have hstring : ¬ (UserField.string (replicate (2 ^ 32) 0)).Fits := by
    intro h
    have hlen : (replicate (2 ^ 32) (0 : UInt8)).length < 2 ^ 32 := h
    rw [length_replicate] at hlen
    exact lt_irrefl _ hlen
  obtain ⟨hchanged, hmask⟩ := fromBinary_addConfirmationMask
  refine ⟨⟨?_, ?_⟩, ⟨?_, ?_⟩, ⟨?_, ?_⟩, hchanged, fun heq => ?_⟩
  · exact (coherent_compose _ rfl rfl).mpr
      (coherent_filled (show 1 ≤ 255 by decide) nofun)
  · exact fromBinary_ne _ rfl rfl fun h => hstring (h.userFields _ mem_cons_self)
  · exact (coherent_compose _ rfl rfl).mpr
      (coherent_filled (Nat.zero_le _) fun t h => eq_of_mem_replicate h ▸ Transaction.fits_new)
  · refine fromBinary_ne _ rfl rfl fun h => ?_
    have hlen : (replicate (2 ^ 32) Transaction.new).length < 2 ^ 32 := h.transactions_size
    rw [length_replicate] at hlen
    exact lt_irrefl _ hlen
  · exact (coherent_compose _ rfl rfl).mpr
      (coherent_filled (Nat.zero_le _) nofun)
  · refine fromBinary_ne _ rfl rfl fun h => ?_
    have hlen : (replicate (2 ^ 32) (⟨0, .addressIsSource, 0⟩ : NewWalletInfo)).length < 2 ^ 32 :=
      h.newWallets_size
    rw [length_replicate] at hlen
    exact lt_irrefl _ hlen
  · rw [heq] at hmask
    exact absurd hmask (show (2 : UInt64) ≠ 1 by decide)

end CreditsNode
