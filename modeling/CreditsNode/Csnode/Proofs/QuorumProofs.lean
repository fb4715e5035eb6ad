import CreditsNode.Csnode.Proofs.ChainLinkageProofs

/-!
# Who has signed a stored block

`storeBlock` checks that every confidant the block marks has signed it, and that the confirmations
belong to the confidants that the block marks for them, but not how many are marked. A block is
therefore signed and confirmed by a majority exactly when its own marks say so; with a single entry
in their mask, the confirmations are not looked at at all.
-/

namespace CreditsNode

open ByteCodec Effect

namespace NodeUtils

def signers (crypto : Crypto) (hash : Hash) :
    List PublicKey → Bytes → List Signature → List PublicKey
  | confidant :: confidants, it :: mask, signatures =>
    if it ≠ kUntrustedMarker then
      match signatures with
      | signature :: signatures =>
        if crypto.verifySignature signature confidant hash.toList then
          confidant :: signers crypto hash confidants mask signatures
        else signers crypto hash confidants mask signatures
      | [] => []
    else signers crypto hash confidants mask signatures
  | _, _, _ => []

def Quorum (crypto : Crypto) (hash : Hash) (confidants : List PublicKey) (mask : Bytes)
    (signatures : List Signature) : Prop :=
  confidants.length < 2 * (signers crypto hash confidants mask signatures).length

instance decidableQuorum (crypto : Crypto) (hash : Hash) (confidants : List PublicKey)
    (mask : Bytes)
    (signatures : List Signature) : Decidable (Quorum crypto hash confidants mask signatures) :=
  inferInstanceAs (Decidable (_ < _))

theorem length_signers {crypto : Crypto} {hash : Hash} {confidants : List PublicKey} {mask : Bytes}
    {signatures : List Signature} (hlen : confidants.length = mask.length)
    (h : verifyMarked crypto hash confidants mask signatures = true) :
    (signers crypto hash confidants mask signatures).length = realTrustedValue mask := by
  induction confidants generalizing mask signatures with
  | nil =>
    obtain rfl : mask = [] := List.length_eq_zero_iff.mp hlen.symm
    rfl
  | cons confidant confidants ih =>
    cases mask with
    | nil => cases hlen
    | cons it mask =>
      have hlen' : confidants.length = mask.length := Nat.succ.inj hlen
      unfold verifyMarked at h
      unfold signers
      by_cases hit : it ≠ kUntrustedMarker
      · have hcount : realTrustedValue (it :: mask) = realTrustedValue mask + 1 :=
          List.countP_cons_of_pos (by simpa using hit)
        rw [if_pos hit] at h ⊢
        cases signatures with
        | nil => cases h
        | cons signature signatures =>
          grind
      · have hcount : realTrustedValue (it :: mask) = realTrustedValue mask :=
          List.countP_cons_of_neg (by simpa using hit)
        rw [if_neg hit] at h ⊢
        rw [hcount]
        exact ih hlen' h

theorem length_signers_of_check {crypto : Crypto} {hash : Hash} {confidants : List PublicKey}
    {mask : Bytes} {signatures : List Signature}
    (h : checkGroupSignature crypto confidants mask signatures hash = true) :
    (signers crypto hash confidants mask signatures).length = realTrustedValue mask := by
  unfold checkGroupSignature at h
  simp only [Bool.and_eq_true, decide_eq_true_eq] at h
  exact length_signers h.1.1.2 h.2

end NodeUtils

namespace BlockChain

open NodeUtils

def previousConfidants (env : ChainEnv) (s : BlockChain) : List PublicKey :=
  if s.deferredBlock.isValid then s.deferredBlock.confidants
  else
    match s.storage.db.getSeq s.lastSequence.toUInt32 with
    | some data => (Pool.fromBinary env.crypto data).confidants
    | none => []

def SignedByQuorum (env : ChainEnv) (pool : Pool) : Prop :=
  Quorum env.crypto (blockHash env.crypto pool) pool.confidants
    (bitsToMask pool.numberTrusted pool.realTrusted) pool.signatures

def ConfirmedByQuorum (env : ChainEnv) (previous : List PublicKey) (pool : Pool) : Prop :=
  Quorum env.crypto (trustedHash env.crypto pool.sequence pool.confidants) previous
    (bitsToMask pool.numberConfirmations pool.roundConfirmationMask) pool.roundConfirmations

instance decidableSignedByQuorum (env : ChainEnv) (pool : Pool) :
    Decidable (SignedByQuorum env pool) := decidableQuorum _ _ _ _ _

instance decidableConfirmedByQuorum (env : ChainEnv) (previous : List PublicKey) (pool : Pool) :
    Decidable (ConfirmedByQuorum env previous pool) := decidableQuorum _ _ _ _ _

def ChecksConfirmations (env : ChainEnv) (s : BlockChain) (pool : Pool) : Prop :=
  1 < pool.numberConfirmations.toNat ∧
    s.lastConfidants env pool.sequence = s.previousConfidants env

/-- The blocks have the same confidants, signatures and confirmations. -/
structure SameVotes (p q : Pool) : Prop where
  sequence : q.sequence = p.sequence
  confidants : q.confidants = p.confidants
  numberTrusted : q.numberTrusted = p.numberTrusted
  realTrusted : q.realTrusted = p.realTrusted
  signatures : q.signatures = p.signatures
  numberConfirmations : q.numberConfirmations = p.numberConfirmations
  roundConfirmationMask : q.roundConfirmationMask = p.roundConfirmationMask
  roundConfirmations : q.roundConfirmations = p.roundConfirmations

theorem Adjusted.sameVotes {pool p : Pool} (h : Adjusted pool p) (previousHash : PoolHash)
    (crypto : Crypto) : SameVotes pool ((p.setPreviousHash previousHash).compose crypto) := by
  obtain ⟨ts, ws, rfl, -⟩ := h
  unfold Pool.compose Pool.setPreviousHash Pool.assign
  split_ifs <;> exact ⟨rfl, rfl, rfl, rfl, rfl, rfl, rfl, rfl⟩

theorem checks_of_finalizable {crypto : Crypto} {p : Pool} {lastConfidants : List PublicKey}
    (h : finalizable crypto p false lastConfidants = true) (hseq : p.sequence > 1) :
    (1 < p.numberConfirmations.toNat → checkConfirmations crypto p lastConfidants = true) ∧
      checkSignatures crypto p = true := by
  grind [finalizable]

theorem votes_of_appended {env : ChainEnv} {s t : BlockChain} {pool : Pool} {bySync : Bool}
    (hstore : storeBlock env pool bySync s = .ok true t)
    (hnext : pool.sequence = s.lastSequence + 1) (hseq : 1 < pool.sequence) :
    SameVotes pool t.deferredBlock ∧ checkSignatures env.crypto t.deferredBlock = true ∧
      (1 < pool.numberConfirmations.toNat → checkConfirmations env.crypto t.deferredBlock
        (s.lastConfidants env pool.sequence) = true) := by
  have hlt : s.lastSequence < pool.sequence := by
    grind
  cases (wp_storeBlock env pool bySync s).of_ok hstore with
  | ignored _ hne => exact absurd hnext (hne rfl hlt)
  | cached hne => exact absurd hnext hne
  | appended _ _ hadj hr hst =>
    have hvotes := hadj.sameVotes (s.getLastHash env) env.crypto
    have hpseq := (sequence_compose _ env.crypto).symm.trans hvotes.sequence
    have hblock := hst.deferredBlock.trans hr.deferredBlock
    have hfinalized := hr.finalized
    have hsequence := hvotes.sequence
    have hnumberConfirmations := hvotes.numberConfirmations
    grind [checks_of_finalizable]

/-- A block that `storeBlock` appends is signed by more than half of its confidants and confirmed by
more than half of those before exactly when more than half are marked for it, and the confirmations,
where they are not checked, happen to be right. -/
theorem storeBlock_quorum_iff {env : ChainEnv} {s t : BlockChain} {pool : Pool} {bySync : Bool}
    (hstore : storeBlock env pool bySync s = .ok true t)
    (hnext : pool.sequence = s.lastSequence + 1) (hseq : 1 < pool.sequence) :
    (SignedByQuorum env t.deferredBlock ∧
        ConfirmedByQuorum env (s.previousConfidants env) t.deferredBlock) ↔
      pool.confidants.length <
          2 * realTrustedValue (bitsToMask pool.numberTrusted pool.realTrusted) ∧
        ((ChecksConfirmations env s pool ∧ (s.previousConfidants env).length <
            2 * realTrustedValue (bitsToMask pool.numberConfirmations pool.roundConfirmationMask)) ∨
          (¬ ChecksConfirmations env s pool ∧
            ConfirmedByQuorum env (s.previousConfidants env) pool)) := by
  obtain ⟨hvotes, hsig, hconf⟩ := votes_of_appended hstore hnext hseq
  have hsigned : SignedByQuorum env t.deferredBlock ↔ pool.confidants.length <
      2 * realTrustedValue (bitsToMask pool.numberTrusted pool.realTrusted) := by
    unfold SignedByQuorum Quorum
    rw [length_signers_of_check hsig, hvotes.confidants, hvotes.numberTrusted, hvotes.realTrusted]
  have hsame : ConfirmedByQuorum env (s.previousConfidants env) t.deferredBlock ↔
      ConfirmedByQuorum env (s.previousConfidants env) pool := by
    unfold ConfirmedByQuorum
    rw [hvotes.sequence, hvotes.confidants, hvotes.numberConfirmations,
      hvotes.roundConfirmationMask, hvotes.roundConfirmations]
  rw [hsigned]
  refine and_congr_right fun _ => ?_
  by_cases hchecks : ChecksConfirmations env s pool
  · have hcheck := hconf hchecks.1
    rw [hchecks.2] at hcheck
    have hcount : ConfirmedByQuorum env (s.previousConfidants env) t.deferredBlock ↔
        (s.previousConfidants env).length <
          2 * realTrustedValue
            (bitsToMask pool.numberConfirmations pool.roundConfirmationMask) := by
      unfold ConfirmedByQuorum Quorum
      rw [length_signers_of_check hcheck, hvotes.numberConfirmations, hvotes.roundConfirmationMask]
    simp [hcount, hchecks]
  · simp [hsame, hchecks]

def demoNext (realTrusted : UInt64) (signed : List UInt8) (confirmation : UInt8) : Pool :=
  { Pool.new with
    isValid := true
    sequence := 2
    previousHash := demoFirst.hash demoCrypto
    confidants := [sampleKey 1, sampleKey 2, sampleKey 3]
    numberTrusted := 3
    realTrusted
    signatures := signed.map sampleSignature
    numberConfirmations := 1
    roundConfirmationMask := 1
    roundConfirmations := [sampleSignature confirmation] }

def demoStored (pool : Pool) : Option BlockChain :=
  match storeBlock demoEnv pool true demoNode with
  | .ok true t => some t
  | _ => none

theorem storeBlock_of_demoStored {pool : Pool} {t : BlockChain} (h : demoStored pool = some t) :
    storeBlock demoEnv pool true demoNode = .ok true t := by
  unfold demoStored at h
  split at h
  · next heq =>
    cases h
    exact heq
  · cases h

theorem storeBlock_quorum_iff_two_of_three :
    ∃ t, storeBlock demoEnv (demoNext 3 [1, 2] 0) true demoNode = .ok true t ∧
      SignedByQuorum demoEnv t.deferredBlock ∧
      ConfirmedByQuorum demoEnv (demoNode.previousConfidants demoEnv) t.deferredBlock := by
  obtain ⟨t, ht⟩ : ∃ t, demoStored (demoNext 3 [1, 2] 0) = some t :=
    Option.isSome_iff_exists.mp (by decide +kernel)
  have hstore := storeBlock_of_demoStored ht
  have hquorum := storeBlock_quorum_iff hstore (by decide) (by decide)
  refine ⟨t, hstore, hquorum.mpr ⟨by decide, .inr ⟨?_, by decide +kernel⟩⟩⟩
  exact fun h => absurd h.1 (by decide)

/-- One of three confidants has signed, and the confirmation is not by the confidant before. -/
theorem storeBlock_without_quorum :
    ∃ pool t, storeBlock demoEnv pool true demoNode = .ok true t ∧
      pool.sequence = demoNode.lastSequence + 1 ∧ 1 < pool.sequence ∧
      ¬ SignedByQuorum demoEnv t.deferredBlock ∧
      ¬ ConfirmedByQuorum demoEnv (demoNode.previousConfidants demoEnv) t.deferredBlock := by
  obtain ⟨t, ht⟩ : ∃ t, demoStored (demoNext 1 [1] 9) = some t :=
    Option.isSome_iff_exists.mp (by decide +kernel)
  have hvotes : (demoStored (demoNext 1 [1] 9)).all (fun t =>
      decide (¬ SignedByQuorum demoEnv t.deferredBlock ∧ ¬ ConfirmedByQuorum demoEnv
        (demoNode.previousConfidants demoEnv) t.deferredBlock)) = true := by decide +kernel
  rw [ht] at hvotes
  exact ⟨_, t, storeBlock_of_demoStored ht, by decide, by decide, of_decide_eq_true hvotes⟩

end BlockChain

end CreditsNode
