import CreditsNode.Csdb.Proofs.PoolProofs

/-!
# Composed pools

Masks, counters, confirmations and transactions of a composed pool can still be replaced, and then
no longer agree with the stored encoding. `Pool.Built` says how a pool comes about; what it
guarantees in any case is `Pool.Sealed`: it has its hash, and its encoding still says the sequence
and the previous hash.
-/

namespace CreditsNode.Pool

open ByteCodec

/-- The pools that the operations of the class lead to. -/
inductive Built (crypto : Crypto) : Pool → Prop
  /-- Before it is composed a pool may have any content. -/
  | unsealed {p : Pool} : p.readOnly = false → Built crypto p
  | compose {p : Pool} : Built crypto p → Built crypto (p.compose crypto)
  | fromBinary (data : Bytes) : Built crypto (fromBinary crypto data)
  /-- Through the reference that `transactions()` returns. -/
  | transactions {p : Pool} (ts : List Transaction) :
      Built crypto p → Built crypto { p with transactions := ts }
  | addSmartSignature {p : Pool} (s : SmartSignature) :
      Built crypto p → Built crypto (p.addSmartSignature s)
  | addRoundConfirmations {p : Pool} (cs : List Signature) :
      Built crypto p → Built crypto (p.addRoundConfirmations cs)
  | addRealTrusted {p : Pool} (bits : UInt64) : Built crypto p →
      Built crypto (p.addRealTrusted bits)
  | addConfirmationMask {p : Pool} (bits : UInt64) :
      Built crypto p → Built crypto (p.addConfirmationMask bits)
  | addNumberTrusted {p : Pool} (n : UInt8) : Built crypto p → Built crypto (p.addNumberTrusted n)
  | addNumberConfirmations {p : Pool} (n : UInt8) :
      Built crypto p → Built crypto (p.addNumberConfirmations n)

/-- What a composed pool keeps. -/
structure Sealed (p : Pool) : Prop where
  isValid : p.isValid = true
  hash : ∃ h, p.cachedHash = some h
  encoding : ∀ q rest, get p.binaryRepresentation = some (q, rest) →
    q.sequence = p.sequence ∧ q.previousHash = p.previousHash

variable {p q : Pool} {data rest : Bytes}

theorem Sealed.of_agree (h : p.Sealed) (hvalid : q.isValid = true)
    (hhash : q.cachedHash = p.cachedHash)
    (hbinary : q.binaryRepresentation = p.binaryRepresentation)
    (hseq : q.sequence = p.sequence) (hprev : q.previousHash = p.previousHash) : q.Sealed where
  isValid := hvalid
  hash := by rw [hhash]; exact h.hash
  encoding := by rw [hbinary, hseq, hprev]; exact h.encoding

/-- What the decoder reads after the first fields does not change them. -/
theorem ensures_getHashedData_tail (p : Pool) (cnt : Nat) :
    Ensures (do
      let transactions ← getMany Transaction.get cnt
      let newWallets ← getNewWallets
      let numberTrusted ← getU8
      let realTrusted ← getU64
      let confidants ← getMany (getArray 32) numberTrusted.toNat
      let numberConfirmations ← getU8
      let roundConfirmationMask ← getU64
      let roundConfirmations ← getSignatures roundConfirmationMask
      let hashingLength ← getU64
      return { p with
        transactions, newWallets, numberTrusted, realTrusted, confidants, numberConfirmations,
        roundConfirmationMask, roundConfirmations, hashingLength })
      fun q => q.sequence = p.sequence ∧ q.previousHash = p.previousHash := by
  iterate 9 refine .skip fun _ => ?_
  exact .pure ⟨rfl, rfl⟩

theorem ensures_get_tail (p : Pool) :
    Ensures (do
      let signatures ← getSignatures p.realTrusted
      let smartSignatures ← getSmartSignatures
      return { p with signatures, smartSignatures, isValid := true })
      fun q => q.isValid = true ∧ q.sequence = p.sequence ∧ q.previousHash = p.previousHash := by
  iterate 2 refine .skip fun _ => ?_
  exact .pure ⟨rfl, rfl, rfl⟩

theorem ensures_get_isValid : Ensures get fun p => p.isValid = true := by
  intro data p rest h
  obtain ⟨⟨p₁, r₁⟩, -, htail⟩ := Option.bind_eq_some_iff.mp h
  exact (ensures_get_tail p₁ r₁ p rest htail).1

theorem getMeta_of_get (h : get data = some (p, rest)) :
    ∃ q cnt r, getMeta data = some ((q, cnt), r) ∧ p.sequence = q.sequence ∧
      p.previousHash = q.previousHash := by
  obtain ⟨⟨p₁, r₁⟩, hhashed, htail⟩ := Option.bind_eq_some_iff.mp h
  obtain ⟨⟨⟨q, cnt⟩, r⟩, hmeta, hrest⟩ := Option.bind_eq_some_iff.mp hhashed
  have h₁ := ensures_getHashedData_tail q cnt r p₁ r₁ hrest
  obtain ⟨-, h₂⟩ := ensures_get_tail p₁ r₁ p rest htail
  exact ⟨q, cnt, r, hmeta, h₂.1.trans h₁.1, h₂.2.trans h₁.2⟩

theorem ensures_getMeta_isValid : Ensures getMeta fun r => r.1.isValid = true := by
  iterate 6 refine .skip fun _ => ?_
  exact .pure rfl

/-- The two ways of reading a block from its encoding agree on what the chain needs. -/
theorem metaFromBinary_agrees {crypto : Crypto} (h : (fromBinary crypto data).sequence ≠ 0) :
    (metaFromBinary data).isValid = true ∧
      (metaFromBinary data).sequence = (fromBinary crypto data).sequence ∧
      (metaFromBinary data).previousHash = (fromBinary crypto data).previousHash := by
  unfold fromBinary at h ⊢
  split at h
  · exact absurd rfl h
  · next p rest hget =>
    obtain ⟨q, cnt, r, hmeta, hseq, hprev⟩ := getMeta_of_get hget
    unfold metaFromBinary
    rw [hmeta]
    exact ⟨ensures_getMeta_isValid data _ r hmeta, hseq.symm, hprev.symm⟩

theorem getMeta_put {cnt : Nat} (h : getMeta p.put = some ((q, cnt), rest)) :
    q.sequence = p.sequence ∧ q.previousHash = p.previousHash := by
  unfold put putHashed putMeta at h
  simp only [List.append_assoc] at h
  unfold getMeta at h
  rw [(reads_getU8 p.version).bind_apply, (PoolHash.reads_get p.previousHash).bind_apply,
    (reads_getU64 p.sequence).bind_apply] at h
  refine (?_ : Ensures _ fun r : Pool × Nat =>
    r.1.sequence = p.sequence ∧ r.1.previousHash = p.previousHash) _ _ _ h
  iterate 3 refine .skip fun _ => ?_
  exact .pure ⟨rfl, rfl⟩

theorem get_put_head (h : get p.put = some (q, rest)) :
    q.sequence = p.sequence ∧ q.previousHash = p.previousHash := by
  obtain ⟨m, cnt, r, hmeta, hseq, hprev⟩ := getMeta_of_get h
  obtain ⟨hseq', hprev'⟩ := getMeta_put hmeta
  exact ⟨hseq.trans hseq', hprev.trans hprev'⟩

variable {crypto : Crypto}

theorem sealed_compose (hvalid : p.isValid = true) (hopen : p.readOnly = false) :
    (p.compose crypto).Sealed := by
  rw [compose_eq crypto hvalid hopen]
  refine ⟨hvalid, ⟨_, rfl⟩, fun q rest h => ?_⟩
  have hhead : q.sequence = p.sequence ∧ q.previousHash = p.previousHash := get_put_head h
  exact hhead

theorem readOnly_compose (hvalid : p.isValid = true) : (p.compose crypto).readOnly = true := by
  unfold compose
  split_ifs with hopen hinvalid
  · exact hopen
  · simp [hvalid] at hinvalid
  · rfl

theorem sealed_fromBinary (h : (fromBinary crypto data).readOnly = true) :
    (fromBinary crypto data).Sealed := by
  unfold fromBinary at h ⊢
  split at h
  · exact absurd h (by decide)
  · next p rest hget =>
    refine ⟨ensures_get_isValid data p rest hget, ⟨_, rfl⟩, fun q r hq => ?_⟩
    have hpq : some (p, rest) = some (q, r) := hget.symm.trans hq
    cases hpq
    exact ⟨rfl, rfl⟩

theorem Built.sealed (h : Built crypto p) (hsealed : p.readOnly = true) : p.Sealed := by
  induction h with
  | unsealed hopen => simp [hopen] at hsealed
  | @compose p _ ih =>
    by_cases hopen : p.readOnly = true
    · rw [Pool.compose, if_pos hopen]
      exact ih hopen
    · by_cases hvalid : p.isValid = true
      · exact sealed_compose hvalid (by simpa using hopen)
      · grind [Pool.compose]
  | fromBinary data => exact sealed_fromBinary hsealed
  | transactions ts _ ih => exact (ih hsealed).of_agree (ih hsealed).isValid rfl rfl rfl rfl
  | addSmartSignature _ _ ih | addRoundConfirmations _ _ ih | addRealTrusted _ _ ih
  | addConfirmationMask _ _ ih | addNumberTrusted _ _ ih | addNumberConfirmations _ _ ih =>
    exact (ih hsealed).of_agree rfl rfl rfl rfl rfl

theorem Built.setPreviousHash (h : Built crypto p) (previousHash : PoolHash) :
    Built crypto (p.setPreviousHash previousHash) := by
  by_cases hsealed : p.readOnly = true
  · rwa [Pool.setPreviousHash, assign, if_pos hsealed]
  · refine .unsealed ?_
    rw [Pool.setPreviousHash, assign, if_neg hsealed]
    simpa using hsealed

theorem Built.isValid_setPreviousHash (h : Built crypto p) (previousHash : PoolHash) :
    (p.setPreviousHash previousHash).isValid = true := by
  unfold Pool.setPreviousHash assign
  split_ifs with hsealed
  · exact (h.sealed hsealed).isValid
  · rfl

/-- The calls that may change a pool. `newWallets` and `transactions` are writes through the pointer
and the reference that the functions of these names return. -/
inductive Mutator where
  | setVersion (version : UInt8)
  | setSequence (sequence : Sequence)
  | setRoundCost (roundCost : Amount)
  | setPreviousHash (previousHash : PoolHash)
  | setConfidants (confidants : List PublicKey)
  | setSignatures (signatures : List Signature)
  | addUserField (id : UserFieldId) (field : UserField)
  | addTransaction (transaction : Transaction)
  | newWallets (wallets : List NewWalletInfo)
  | compose
  | transactions (transactions : List Transaction)
  | addSmartSignature (smartSignature : SmartSignature)
  | addRoundConfirmations (confirmations : List Signature)
  | addRealTrusted (mask : UInt64)
  | addConfirmationMask (mask : UInt64)
  | addNumberTrusted (number : UInt8)
  | addNumberConfirmations (number : UInt8)

namespace Mutator

/-- The call asks whether the pool is read-only. -/
def asks : Mutator → Bool
  | transactions _ | addSmartSignature _ | addRoundConfirmations _ | addRealTrusted _
  | addConfirmationMask _ | addNumberTrusted _ | addNumberConfirmations _ => false
  | _ => true

def apply (crypto : Crypto) (p : Pool) : Mutator → Pool
  | setVersion version => p.setVersion version
  | setSequence sequence => p.setSequence sequence
  | setRoundCost roundCost => p.setRoundCost roundCost
  | setPreviousHash previousHash => p.setPreviousHash previousHash
  | setConfidants confidants => p.setConfidants confidants
  | setSignatures signatures => p.setSignatures signatures
  | addUserField id field => p.addUserField id field
  | addTransaction transaction => p.addTransaction transaction
  | newWallets wallets => if p.readOnly then p else { p with newWallets := wallets }
  | compose => p.compose crypto
  | transactions ts => { p with transactions := ts }
  | addSmartSignature smartSignature => p.addSmartSignature smartSignature
  | addRoundConfirmations confirmations => p.addRoundConfirmations confirmations
  | addRealTrusted mask => p.addRealTrusted mask
  | addConfirmationMask mask => p.addConfirmationMask mask
  | addNumberTrusted number => p.addNumberTrusted number
  | addNumberConfirmations number => p.addNumberConfirmations number

def run (crypto : Crypto) (calls : List Mutator) (p : Pool) : Pool := calls.foldl (apply crypto) p

variable (crypto)

theorem apply_of_asks {call : Mutator} (hasks : call.asks = true) (hsealed : p.readOnly = true) :
    call.apply crypto p = p := by
  cases call <;>
    simp_all [asks, apply, Pool.setVersion, Pool.setSequence, Pool.setRoundCost,
      Pool.setPreviousHash,
      Pool.setConfidants, Pool.setSignatures, Pool.addUserField, Pool.addTransaction, assign,
      Pool.compose]

theorem apply_sealed (call : Mutator) (hsealed : p.readOnly = true) :
    (call.apply crypto p).readOnly = true ∧
      (call.apply crypto p).binaryRepresentation = p.binaryRepresentation ∧
      (call.apply crypto p).cachedHash = p.cachedHash := by
  by_cases hasks : call.asks = true
  · rw [apply_of_asks crypto hasks hsealed]
    exact ⟨hsealed, rfl, rfl⟩
  · cases call <;> first | exact ⟨hsealed, rfl, rfl⟩ | exact absurd rfl hasks

theorem run_sealed (calls : List Mutator) (hsealed : p.readOnly = true) :
    (run crypto calls p).binaryRepresentation = p.binaryRepresentation ∧
      (run crypto calls p).cachedHash = p.cachedHash := by
  induction calls generalizing p with
  | nil => exact ⟨rfl, rfl⟩
  | cons call calls ih =>
    obtain ⟨hstill, hbinary, hcached⟩ := apply_sealed crypto call hsealed
    obtain ⟨hbinary', hcached'⟩ := ih hstill
    exact ⟨hbinary'.trans hbinary, hcached'.trans hcached⟩

theorem run_of_asks {calls : List Mutator} (hasks : ∀ call ∈ calls, call.asks = true)
    (hsealed : p.readOnly = true) : run crypto calls p = p := by
  induction calls with
  | nil => rfl
  | cons call calls ih =>
    have hfirst := apply_of_asks crypto (hasks call List.mem_cons_self) hsealed
    unfold run at ih ⊢
    rw [List.foldl_cons, hfirst]
    exact ih fun c hc => hasks c (List.mem_cons_of_mem _ hc)

/-- Whatever is called on a composed pool, its encoding and its hash stay. So they are those of the
pool exactly if the calls have changed nothing, as with calls that ask whether the pool is
read-only. -/
theorem run_compose_stable (calls : List Mutator) {q : Pool} (hvalid : q.isValid = true)
    (hopen : q.readOnly = false) :
    (run crypto calls (q.compose crypto)).toBinary = (q.compose crypto).toBinary ∧
    (run crypto calls (q.compose crypto)).hash crypto = (q.compose crypto).hash crypto ∧
    ((∀ call ∈ calls, call.asks = true) →
      run crypto calls (q.compose crypto) = q.compose crypto) ∧
    (q.Fits → (fromBinary crypto (run crypto calls (q.compose crypto)).toBinary =
        run crypto calls (q.compose crypto) ↔
      run crypto calls (q.compose crypto) = q.compose crypto)) := by
  have hsealed : (q.compose crypto).readOnly = true := readOnly_compose hvalid
  obtain ⟨hbinary, hcached⟩ := run_sealed crypto calls hsealed
  obtain ⟨h, hhash⟩ := (sealed_compose hvalid hopen : (q.compose crypto).Sealed).hash
  refine ⟨hbinary, ?_, fun hasks => run_of_asks crypto hasks hsealed, fun hfits => ?_⟩
  · unfold Pool.hash
    rw [hcached, hhash]
  · have hdecode : fromBinary crypto (run crypto calls (q.compose crypto)).toBinary =
        q.compose crypto := by
      unfold toBinary
      rw [hbinary]
      exact fromBinary_compose crypto hvalid hopen hfits
    rw [hdecode]
    exact eq_comm

/-- Three calls that ask change nothing; after three of which two do not ask, the encoding is the
same. -/
theorem run_compose_stable_calls :
    run Crypto.zero [.setSequence 5, .addTransaction .new, .compose] (signedBlock.compose .zero) =
        signedBlock.compose .zero ∧
      (run Crypto.zero [.addRealTrusted 1, .setSequence 5, .addNumberTrusted 1]
        (signedBlock.compose .zero)).toBinary = (signedBlock.compose .zero).toBinary := by
  have hopen : signedBlock.isValid = true ∧ signedBlock.readOnly = false := ⟨rfl, rfl⟩
  exact ⟨(run_compose_stable Crypto.zero _ hopen.1 hopen.2).2.2.1 (by decide),
    (run_compose_stable Crypto.zero _ hopen.1 hopen.2).1⟩

/-- The mask of the trusted nodes is replaced in a composed pool, and its encoding has the old
one. -/
theorem run_compose_addRealTrusted :
    (run Crypto.zero [.addRealTrusted 1]
        (({ new with isValid := true } : Pool).compose Crypto.zero)).realTrusted = 1 ∧
      (fromBinary Crypto.zero (run Crypto.zero [.addRealTrusted 1]
        (({ new with isValid := true } : Pool).compose Crypto.zero)).toBinary).isValid = true ∧
      (fromBinary Crypto.zero (run Crypto.zero [.addRealTrusted 1]
        (({ new with isValid := true } : Pool).compose Crypto.zero)).toBinary).realTrusted = 0 := by
  decide +kernel

end Mutator

end CreditsNode.Pool
