import CreditsNode.Csnode.IterValidator
import CreditsNode.Lib.Lookup
import CreditsNode.Csdb.Proofs.SampleData

/-!
# Who has signed a packet of a contract

Both checks of the signatures of a packet count the entries of its list, so that a repeated
signature counts twice. More than half of the confidants have signed an accepted packet whose right
entries have distinct indices.
-/

namespace CreditsNode

open Effect List

variable {crypto : Crypto} {packet : TransactionsPacket} {keys : List PublicKey} {hash : Hash}

namespace TransactionsPacket

def isRight (crypto : Crypto) (hash : Hash) (keys : List PublicKey) (entry : UInt8 × Signature) :
    Bool :=
  keys[entry.1.toNat]?.any fun key => crypto.verifySignature entry.2 key hash.toList

def rightEntries (crypto : Crypto) (packet : TransactionsPacket) (keys : List PublicKey) : Nat :=
  packet.hash.elim 0 fun hash => packet.signatures.countP (isRight crypto hash keys)

def hasSignatureOf (crypto : Crypto) (packet : TransactionsPacket) (key : PublicKey) : Bool :=
  packet.hash.any fun hash =>
    packet.signatures.any fun entry => crypto.verifySignature entry.2 key hash.toList

/-- More than half of the keys have a right signature in the packet. -/
def SignedByMajority (crypto : Crypto) (packet : TransactionsPacket) (keys : List PublicKey) :
    Prop :=
  keys.length < 2 * keys.countP (packet.hasSignatureOf crypto)

instance instDecidableSignedByMajority (crypto : Crypto) (packet : TransactionsPacket)
    (keys : List PublicKey) : Decidable (SignedByMajority crypto packet keys) :=
  inferInstanceAs (Decidable (_ < _))

theorem countSignatures_ok (signatures : List (UInt8 × Signature)) : ∀ (count : Nat)
    (badSignatures : String), Yields
    (countSignatures crypto hash keys signatures count badSignatures)
      (fun message => message ≠ "")
      (fun r => r.1 = count + signatures.countP (isRight crypto hash keys)) := by
  induction signatures with
  | nil => exact fun count badSignatures => rfl
  | cons it rest ih =>
    intro count badSignatures
    unfold countSignatures
    have hright : isRight crypto hash keys it =
        keys[it.1.toNat]?.any fun key => crypto.verifySignature it.2 key hash.toList := rfl
    cases hkey : keys[it.1.toNat]? with
    | none =>
      show "Signature index is out of range in supplied PublicKey container" ≠ ""
      decide
    | some key =>
      grind

theorem lt_rightEntries_of_verify (h : packet.verify crypto keys = "") :
    keys.length < 2 * packet.rightEntries crypto keys := by
  unfold verify at h
  unfold rightEntries
  cases hhash : packet.hash with
  | none =>
    rw [hhash] at h
    dsimp only at h
    exact absurd h (by decide)
  | some hash =>
    rw [hhash] at h
    dsimp only at h
    split_ifs at h with hfew
    · exact absurd h (by simp)
    · have hcount : Yields (countSignatures crypto hash keys packet.signatures 0 "") _ _ :=
        countSignatures_ok packet.signatures 0 ""
      cases hresult : countSignatures crypto hash keys packet.signatures 0 "" with
      | error message =>
        rw [hresult] at h hcount
        exact absurd h hcount
      | ok r =>
        rw [hresult] at h hcount
        have hr : r.1 = 0 + packet.signatures.countP (isRight crypto hash keys) := hcount
        dsimp only at h
        split_ifs at h with henough
        · exact absurd h (by simp)
        · show keys.length < 2 * packet.signatures.countP (isRight crypto hash keys)
          omega

end TransactionsPacket

namespace IterValidator

open TransactionsPacket

theorem correctSignatures_eq (hhash : packet.hash = some hash)
    (signatures : List (UInt8 × Signature)) :
    correctSignatures crypto packet keys signatures =
      .ok (signatures.countP (isRight crypto hash keys)) := by
  induction signatures with
  | nil => rfl
  | cons signature rest ih =>
    have hright : isRight crypto hash keys signature =
        keys[signature.1.toNat]?.any fun key =>
          crypto.verifySignature signature.2 key hash.toList :=
      rfl
    unfold correctSignatures
    cases hkey : keys[signature.1.toNat]? with
    | none =>
      rw [hkey] at hright
      rw [countP_cons_of_neg (by rw [hright]; simp)]
      exact ih
    | some key =>
      rw [hkey, Option.any_some] at hright
      rw [countP_cons]
      simp only [hhash, ih, ← hright]
      split_ifs <;> rfl

theorem hash_of_enoughSignatures (h : enoughSignatures crypto packet keys = .ok true) :
    ∃ hash, packet.hash = some hash := by
  cases hhash : packet.hash with
  | some hash => exact ⟨hash, rfl⟩
  | none =>
    have hzero : ∀ signatures, Yields (correctSignatures crypto packet keys signatures)
        (fun _ => True) (fun count => count = 0) := by
      intro signatures
      induction signatures with
      | nil => rfl
      | cons signature rest ih =>
        unfold correctSignatures
        rw [hhash]
        cases keys[signature.1.toNat]? with
        | some key => trivial
        | none => exact ih
    have hfalse : Yields (enoughSignatures crypto packet keys) (fun _ => True)
        (fun enough => enough = false) := by
      refine .bind (hzero _) fun count hcount => .pure ?_
      simp [hcount]
    exact absurd (hfalse.of_ok h) (by decide)

theorem enoughSignatures_iff :
    enoughSignatures crypto packet keys = .ok true ↔
      keys.length < 2 * packet.rightEntries crypto keys := by
  cases hhash : packet.hash with
  | none =>
    grind [hash_of_enoughSignatures, rightEntries]
  | some hash =>
    unfold enoughSignatures rightEntries
    rw [correctSignatures_eq hhash, hhash]
    show Except.ok _ = Except.ok _ ↔ _ < 2 * packet.signatures.countP (isRight crypto hash keys)
    rw [Except.ok.injEq, Bool.not_eq_true', decide_eq_false_iff_not]
    omega

end IterValidator

namespace TransactionsPacket

theorem mem_of_isRight {entry : UInt8 × Signature} (hhash : packet.hash = some hash)
    (hentry : entry ∈ packet.signatures) (hright : isRight crypto hash keys entry = true) :
    entry.1.toNat < keys.length ∧
      keys[entry.1.toNat]?.any (packet.hasSignatureOf crypto) = true := by
  obtain ⟨key, hkey, hverify⟩ := (Option.any_eq_true _ _).mp hright
  obtain ⟨hlt, -⟩ := List.getElem?_eq_some_iff.mp hkey
  refine ⟨hlt, ?_⟩
  rw [hkey, Option.any_some]
  unfold hasSignatureOf
  rw [hhash, Option.any_some]
  exact any_eq_true.mpr ⟨entry, hentry, hverify⟩

theorem rightEntries_le (hhash : packet.hash = some hash)
    (hnodup : ((packet.signatures.filter (isRight crypto hash keys)).map Prod.fst).Nodup) :
    packet.rightEntries crypto keys ≤ keys.countP (packet.hasSignatureOf crypto) := by
  set right := packet.signatures.filter (isRight crypto hash keys) with hfilter
  set signed := (range keys.length).filter
    fun i => keys[i]?.any (packet.hasSignatureOf crypto) with hsigned
  have hindices : (right.map fun entry => entry.1.toNat).Nodup := by
    have hmap := hnodup.map (f := UInt8.toNat) fun a b => UInt8.toNat_inj.mp
    rwa [map_map] at hmap
  have hsubset : (right.map fun entry => entry.1.toNat) ⊆ signed := by
    intro i hi
    obtain ⟨entry, hentry, rfl⟩ := mem_map.mp hi
    grind [mem_of_isRight]
  calc packet.rightEntries crypto keys
      = packet.signatures.countP (isRight crypto hash keys) := by
        unfold rightEntries
        rw [hhash]
        rfl
    _ = (right.map fun entry => entry.1.toNat).length := by
        rw [length_map, hfilter, countP_eq_length_filter]
    _ ≤ signed.length := (subperm_of_subset hindices hsubset).length_le
    _ = keys.countP (packet.hasSignatureOf crypto) := by
        rw [hsigned, ← countP_eq_length_filter, countP_range_getElem?]

/-- No two right entries of the packet stand under one index. -/
def DistinctIndices (crypto : Crypto) (packet : TransactionsPacket) (keys : List PublicKey) :
    Prop :=
  ∀ hash ∈ packet.hash, ((packet.signatures.filter (isRight crypto hash keys)).map Prod.fst).Nodup

theorem signedByMajority_of_lt_rightEntries (hdistinct : DistinctIndices crypto packet keys)
    (h : keys.length < 2 * packet.rightEntries crypto keys) :
    SignedByMajority crypto packet keys := by
  unfold SignedByMajority
  cases hhash : packet.hash with
  | none =>
    unfold rightEntries at h
    rw [hhash] at h
    exact absurd h (Nat.not_lt_zero _)
  | some hash =>
    have hle := rightEntries_le hhash (hdistinct hash hhash)
    omega

/-- The two checks accept only a packet that more than half of the keys have signed, if its right
entries have distinct indices. -/
theorem verify_quorum (crypto : Crypto) (packet : TransactionsPacket) (keys : List PublicKey)
    (hdistinct : DistinctIndices crypto packet keys) :
    (packet.verify crypto keys = "" → SignedByMajority crypto packet keys) ∧
      (IterValidator.enoughSignatures crypto packet keys = .ok true →
        SignedByMajority crypto packet keys) :=
  ⟨fun h => signedByMajority_of_lt_rightEntries hdistinct (lt_rightEntries_of_verify h),
    fun h => signedByMajority_of_lt_rightEntries hdistinct
      (IterValidator.enoughSignatures_iff.mp h)⟩

/-- The signature by a key starts with the first byte of the key. -/
def demoScheme : Crypto where
  calculateHash _ := zeroArray 32
  verifySignature signature key _ := signature.head = key.head

/-- Five distinct keys. -/
def demoKeys : List PublicKey := [1, 2, 3, 4, 5].map sampleKey

/-- A packet with the given indices, each with a signature that starts with the given byte. -/
def demoPacket (entries : List (UInt8 × UInt8)) : TransactionsPacket where
  transactions := []
  signatures := entries.map fun entry => (entry.1, sampleSignature entry.2)
  hash := some (zeroArray 32)

/-- Three of five keys have signed; a wrong signature under a used index does no harm. -/
theorem verify_quorum_three :
    (demoPacket [(0, 1), (2, 3), (4, 5), (4, 9)]).verify demoScheme demoKeys = "" ∧
      SignedByMajority demoScheme (demoPacket [(0, 1), (2, 3), (4, 5), (4, 9)]) demoKeys := by
  have hverify : (demoPacket [(0, 1), (2, 3), (4, 5), (4, 9)]).verify demoScheme demoKeys = "" := by
    decide +kernel
  refine ⟨hverify, (verify_quorum demoScheme _ demoKeys ?_).1 hverify⟩
  rintro hash ⟨⟩
  decide +kernel

/-- Three copies of one signature pass both checks for five confidants. -/
theorem verify_accepts_copies :
    demoKeys.Nodup ∧ demoKeys.length = 5 ∧
      (demoPacket (List.replicate 3 (0, 1))).verify demoScheme demoKeys = "" ∧
      IterValidator.enoughSignatures demoScheme (demoPacket (List.replicate 3 (0, 1))) demoKeys =
        .ok true ∧
      demoKeys.countP ((demoPacket (List.replicate 3 (0, 1))).hasSignatureOf demoScheme) = 1 ∧
      ¬ SignedByMajority demoScheme (demoPacket (List.replicate 3 (0, 1))) demoKeys := by
  refine ⟨?_, rfl, ?_, ?_, ?_, ?_⟩
  · decide +kernel
  · decide +kernel
  · exact IterValidator.enoughSignatures_iff.mpr (by decide +kernel)
  · decide +kernel
  · decide +kernel

end TransactionsPacket

end CreditsNode
