import CreditsNode.Csdb.Proofs.PoolProofs

/-!
# What the hash of a received pool commits to

The length of the hashed part of a pool is stored behind that part and read like any other field.
The hash commits to the fields only if this length is right; nothing compares it with where the
parser has got to, so a received pool can choose what its hash covers.
-/

namespace CreditsNode

open ByteCodec

theorem Amount.local_get : Local Amount.get :=
  local_getI32.bind fun _ => local_getU64.bind fun _ => .pure trivial

theorem AmountCommission.local_get : Local AmountCommission.get := local_getU16.map

theorem local_getString : Local getString :=
  local_getU32.bind fun _ => (consumes_getBytes _).toLocal

theorem UserField.local_getValue (type : UInt8) : Local (UserField.getValue type) := by
  grind [UserField.getValue, local_getU64.map, local_getString.map, Amount.local_get.map,
    Consumes.failure]

theorem local_getUserFields : Local getUserFields := by
  have hfield : Local getUserField := local_getI32.bind fun _ =>
    (local_getU8.bind UserField.local_getValue).bind fun _ => .pure trivial
  exact local_getU8.bind fun _ => (local_getMany hfield _).bind fun _ => .pure trivial

theorem Transaction.local_getAddress (isWalletId : Bool) : Local (getAddress isWalletId) := by
  unfold getAddress
  split_ifs
  · exact local_getU32.map
  · exact (local_getArray 32).map

theorem Transaction.local_getHeader : Local getHeader :=
  local_getU16.bind fun _ => local_getU32.bind fun _ => (local_getAddress _).bind fun _ =>
    (local_getAddress _).bind fun _ => Amount.local_get.bind fun _ =>
      AmountCommission.local_get.bind fun _ => local_getU8.bind fun _ => .pure trivial

theorem Transaction.local_get : Local Transaction.get :=
  local_getHeader.bind fun _ => local_getUserFields.bind fun _ => (local_getArray 64).bind fun _ =>
    AmountCommission.local_get.bind fun _ => .pure trivial

theorem PoolHash.local_get : Local PoolHash.get := by
  refine local_getU8.bind fun size => ?_
  split_ifs
  · exact .pure trivial
  · exact .failure
  · exact (local_getArray 32).bind fun _ => .pure trivial

theorem NewWalletInfo.local_get : Local NewWalletInfo.get :=
  local_getU64.bind fun _ => local_getU32.bind fun _ => .pure trivial

namespace Pool

theorem local_getMeta : Local getMeta :=
  local_getU8.bind fun _ => PoolHash.local_get.bind fun _ => local_getU64.bind fun _ =>
    local_getUserFields.bind fun _ => Amount.local_get.bind fun _ => local_getU32.bind fun _ =>
      .pure trivial

theorem local_getSignatures (mask : UInt64) : Local (getSignatures mask) :=
  local_getMany (local_getArray 64) _

def EndsWithLength (used : Bytes) (p : Pool) : Prop :=
  ∃ front, used = front ++ putU64 p.hashingLength

theorem EndsWithLength.append (front : Bytes) {used : Bytes} {p : Pool}
    (h : EndsWithLength used p) :
    EndsWithLength (front ++ used) p := by
  obtain ⟨front', rfl⟩ := h
  exact ⟨front ++ front', (List.append_assoc _ _ _).symm⟩

theorem consumes_getHashedData : Consumes getHashedData EndsWithLength := by
  have hstep : ∀ {α : Type} {g : Get α} {f : α → Get Pool}, Local g →
      (∀ a, Consumes (f a) EndsWithLength) → Consumes (g >>= f) EndsWithLength :=
    fun hg hf => .bind hg hf fun front _ _ h => h.append front
  refine hstep local_getMeta fun m => ?_
  refine hstep (local_getMany Transaction.local_get _) fun _ => ?_
  refine hstep (local_getU32.bind fun _ => local_getMany NewWalletInfo.local_get _) fun _ => ?_
  refine hstep local_getU8 fun _ => hstep local_getU64 fun _ => ?_
  refine hstep (local_getMany (local_getArray 32) _) fun _ => ?_
  refine hstep local_getU8 fun _ => hstep local_getU64 fun _ => ?_
  refine hstep (local_getSignatures _) fun _ => ?_
  exact consumes_getU64.bind_pure fun used n h => ⟨[], h⟩

/-- Where the signed part ends and the length is encoded. -/
def signedLength (data : Bytes) : Nat :=
  match getHashedData data with
  | none => 0
  | some (_, rest) => data.length - rest.length - 8

/-- All but the signatures, and but the bytes that have them. -/
def withoutSignatures (p : Pool) : Pool :=
  { p with signatures := [], smartSignatures := [], binaryRepresentation := [] }

def contents (p : Pool) : Pool := { p.withoutSignatures with cachedHash := none }

def received (q : Pool) : Pool :=
  { q with
    isValid := true
    readOnly := true
    transactions := q.transactions.mapIdx fun idx t => t.updateId q.sequence (UInt64.ofNat idx) }

theorem ensures_get_signatures (q : Pool) :
    Ensures (do
      let signatures ← getSignatures q.realTrusted
      let smartSignatures ← getSmartSignatures
      return { q with signatures, smartSignatures, isValid := true })
      fun p => ∃ signatures smartSignatures,
        p = { q with signatures, smartSignatures, isValid := true } :=
  .skip fun signatures => .skip fun smartSignatures =>
    .pure ⟨signatures, smartSignatures, rfl⟩

/-- The byte string is that of an accepted pool: the signed part `front`, which `q` is read from,
its length, and the signatures. -/
structure Signed (crypto : Crypto) (data front : Bytes) (q : Pool) : Prop where
  data_eq : ∃ rest, data = front ++ (putU64 q.hashingLength ++ rest)
  reads : Reads getHashedData (front ++ putU64 q.hashingLength) q
  signedLength_eq : signedLength data = front.length
  hashingLength_eq : (fromBinary crypto data).hashingLength = q.hashingLength
  cachedHash_eq : (fromBinary crypto data).cachedHash =
    some (crypto.calculateHash (data.take q.hashingLength.toNat))
  contents_eq : (fromBinary crypto data).contents = q.received.contents

theorem signed_of_isValid {crypto : Crypto} {data : Bytes}
    (h : (fromBinary crypto data).isValid = true) : ∃ front q, Signed crypto data front q := by
  cases hget : get data with
  | none =>
    unfold fromBinary at h
    rw [hget] at h
    exact absurd h Bool.false_ne_true
  | some r =>
    obtain ⟨p, rest⟩ := r
    obtain ⟨⟨q, behind⟩, hhashed, htail⟩ := Option.bind_eq_some_iff.mp hget
    have hp := ensures_get_signatures q behind p rest htail
    obtain ⟨signatures, smartSignatures, rfl⟩ := hp
    obtain ⟨used, hdata, hreads, front, rfl⟩ := consumes_getHashedData data q behind hhashed
    have hfrom : fromBinary crypto data = updateTransactions crypto
        { q with signatures, smartSignatures, isValid := true, binaryRepresentation := data } := by
      unfold fromBinary
      rw [hget]
    refine ⟨front, q, ⟨⟨behind, hdata.trans (List.append_assoc _ _ _)⟩, hreads, ?_, ?_, ?_, ?_⟩⟩
    · have hlength : (putU64 q.hashingLength).length = 8 := length_leBytes 8 _
      unfold signedLength
      grind
    · rw [hfrom]
      rfl
    · rw [hfrom]
      rfl
    · rw [hfrom]
      rfl

theorem Signed.committed {crypto : Crypto} {data front : Bytes} {q : Pool}
    (h : Signed crypto data front q)
    (hlength : (fromBinary crypto data).hashingLength.toNat = signedLength data) :
    q.hashingLength.toNat = front.length ∧ data.take (signedLength data) = front ∧
      (fromBinary crypto data).cachedHash = some (crypto.calculateHash front) := by
  have hashingLength_eq' := h.hashingLength_eq
  have hsignedLength_eq := h.signedLength_eq
  have hdata_eq := h.data_eq
  have hcachedHash_eq := h.cachedHash_eq
  grind

theorem withoutSignatures_ext {p q : Pool} (h : p.contents = q.contents)
    (hhash : p.cachedHash = q.cachedHash) : p.withoutSignatures = q.withoutSignatures := by
  have hp : p.withoutSignatures = { p.contents with cachedHash := p.cachedHash } := rfl
  rw [hp, h, hhash]
  rfl

/-- Two accepted byte strings with the same hash have the same fields but for the signatures, if the
lengths that they store are those of their signed parts and these do not collide. -/
theorem withoutSignatures_eq_of_hash_eq {crypto : Crypto} {data₁ data₂ : Bytes}
    (hvalid₁ : (fromBinary crypto data₁).isValid = true)
    (hvalid₂ : (fromBinary crypto data₂).isValid = true)
    (hlength₁ : (fromBinary crypto data₁).hashingLength.toNat = signedLength data₁)
    (hlength₂ : (fromBinary crypto data₂).hashingLength.toNat = signedLength data₂)
    (hfree : crypto.calculateHash (data₁.take (signedLength data₁)) =
        crypto.calculateHash (data₂.take (signedLength data₂)) →
      data₁.take (signedLength data₁) = data₂.take (signedLength data₂))
    (hhash : (fromBinary crypto data₁).hash crypto = (fromBinary crypto data₂).hash crypto) :
    (fromBinary crypto data₁).withoutSignatures = (fromBinary crypto data₂).withoutSignatures := by
  obtain ⟨front₁, q₁, hsigned₁⟩ := signed_of_isValid hvalid₁
  obtain ⟨front₂, q₂, hsigned₂⟩ := signed_of_isValid hvalid₂
  obtain ⟨hq₁, htake₁, hcached₁⟩ := hsigned₁.committed hlength₁
  obtain ⟨hq₂, htake₂, hcached₂⟩ := hsigned₂.committed hlength₂
  have hfront : front₁ = front₂ := by
    grind [Pool.hash]
  have hreads := hsigned₁.reads
  have hlengths : q₁.hashingLength = q₂.hashingLength := by
    apply UInt64.toNat.inj
    rw [hq₁, hq₂, hfront]
  rw [hfront, hlengths] at hreads
  have hq : q₁ = q₂ := (hreads.unique hsigned₂.reads (r := []) rfl).1
  have hcontents := hsigned₁.contents_eq
  rw [hq, ← hsigned₂.contents_eq] at hcontents
  have hsame : (fromBinary crypto data₁).cachedHash = (fromBinary crypto data₂).cachedHash := by
    rw [hcached₁, hcached₂, hfront]
  exact withoutSignatures_ext hcontents hsame

/-- The bytes up to the signatures are those that `Pool::compose` writes for some pool. -/
def Written (data : Bytes) : Prop :=
  ∃ (p : Pool) (rest : Bytes), p.HashedFits ∧
    data = p.putHashed ++ (putU64 (UInt64.ofNat p.putHashed.length) ++ rest)

theorem Written.hashingLength_eq {crypto : Crypto} {data : Bytes} (h : Written data)
    (hsize : data.length < 2 ^ 64) (hvalid : (fromBinary crypto data).isValid = true) :
    (fromBinary crypto data).hashingLength.toNat = signedLength data := by
  obtain ⟨p, rest, hfits, hdata⟩ := h
  obtain ⟨front, q, hsigned⟩ := signed_of_isValid hvalid
  obtain ⟨behind, hdata'⟩ := hsigned.data_eq
  rw [← List.append_assoc] at hdata hdata'
  have hparsed := (reads_getHashedData hfits _).unique hsigned.reads (hdata.symm.trans hdata')
  have hlength : q.hashingLength = UInt64.ofNat p.putHashed.length :=
    congrArg Pool.hashingLength hparsed.1.symm
  have hfront : front = p.putHashed := by
    have heq := hdata.symm.trans hdata'
    rw [hparsed.2, hlength] at heq
    exact (List.append_cancel_right (List.append_cancel_right heq)).symm
  have hsmall : p.putHashed.length < 2 ^ 64 := by
    rw [hdata, List.length_append, List.length_append] at hsize
    omega
  rw [hsigned.hashingLength_eq, hsigned.signedLength_eq, hlength, hfront, UInt64.toNat_ofNat']
  exact Nat.mod_eq_of_lt hsmall

/-- In byte strings that have been composed, up to their signatures, the length is that of the
signed part, and two that are accepted and have the same hash have the same fields but for the
signatures. -/
theorem hash_commits (crypto : Crypto) (data₁ data₂ : Bytes)
    (hwritten₁ : Written data₁) (hwritten₂ : Written data₂)
    (hsize₁ : data₁.length < 2 ^ 64) (hsize₂ : data₂.length < 2 ^ 64)
    (hvalid₁ : (fromBinary crypto data₁).isValid = true)
    (hvalid₂ : (fromBinary crypto data₂).isValid = true)
    (hfree : crypto.calculateHash (data₁.take (signedLength data₁)) =
        crypto.calculateHash (data₂.take (signedLength data₂)) →
      data₁.take (signedLength data₁) = data₂.take (signedLength data₂)) :
    (fromBinary crypto data₁).hashingLength.toNat = signedLength data₁ ∧
      (fromBinary crypto data₂).hashingLength.toNat = signedLength data₂ ∧
      ((fromBinary crypto data₁).hash crypto = (fromBinary crypto data₂).hash crypto →
        (fromBinary crypto data₁).withoutSignatures =
          (fromBinary crypto data₂).withoutSignatures) := by
  have hlength₁ := hwritten₁.hashingLength_eq hsize₁ hvalid₁
  have hlength₂ := hwritten₂.hashingLength_eq hsize₂ hvalid₂
  exact ⟨hlength₁, hlength₂, withoutSignatures_eq_of_hash_eq hvalid₁ hvalid₂ hlength₁
    hlength₂ hfree⟩

def encodedWith (p : Pool) (hashingLength : UInt64) : Bytes :=
  p.putHashed ++ (putU64 hashingLength ++ p.putSignatures)

theorem written_put {p : Pool} (h : p.HashedFits) : Written p.put := ⟨p, p.putSignatures, h, rfl⟩

theorem hashedFits_demo : (Pool.new.setSequence 3).HashedFits where
  confidants := rfl
  confirmations := by decide
  userFields_size := by decide
  userFields _ h := absurd h List.not_mem_nil
  transactions _ h := absurd h List.not_mem_nil
  transactions_size := by decide
  newWallets_size := by decide

/-- Two encodings of one pool, with and without a signature of a contract. -/
theorem hash_commits_smartSignatures :
    let data₁ := (Pool.new.setSequence 3).put
    let data₂ := ((Pool.new.setSequence 3).addSmartSignature ⟨zeroArray 32, 0, []⟩).put
    data₁ ≠ data₂ ∧ (fromBinary Crypto.zero data₁).isValid = true ∧
      (fromBinary Crypto.zero data₂).isValid = true ∧
      (fromBinary Crypto.zero data₁).withoutSignatures =
        (fromBinary Crypto.zero data₂).withoutSignatures := by
  intro data₁ data₂
  have hvalid₁ : (fromBinary Crypto.zero data₁).isValid = true := by decide +kernel
  have hvalid₂ : (fromBinary Crypto.zero data₂).isValid = true := by decide +kernel
  have hsame : data₁.take (signedLength data₁) = data₂.take (signedLength data₂) := by
    decide +kernel
  obtain ⟨-, -, hcommits⟩ := hash_commits Crypto.zero data₁ data₂ (written_put hashedFits_demo)
    (written_put { hashedFits_demo with }) (by decide +kernel) (by decide +kernel) hvalid₁ hvalid₂
    fun _ => hsame
  exact ⟨by decide +kernel, hvalid₁, hvalid₂, hcommits (by decide +kernel)⟩

/-- Two pools that say that nothing of them is hashed: their hash is the same and their sequences
are not. -/
theorem hash_commits_to_nothing :
    let crypto := Crypto.zero
    let data₁ := Pool.new.encodedWith 0
    let data₂ := (Pool.new.setSequence 1).encodedWith 0
    (fromBinary crypto data₁).isValid = true ∧ (fromBinary crypto data₂).isValid = true ∧
      (fromBinary crypto data₁).hashingLength.toNat ≠ signedLength data₁ ∧
      (fromBinary crypto data₁).hash crypto = (fromBinary crypto data₂).hash crypto ∧
      (fromBinary crypto data₁).sequence ≠ (fromBinary crypto data₂).sequence := by
  refine ⟨rfl, rfl, ?_, rfl, ?_⟩
  · show (0 : Nat) ≠ signedLength _
    decide +kernel
  · show (0 : UInt64) ≠ 1
    decide

end Pool

end CreditsNode
