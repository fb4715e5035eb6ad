import CreditsNode.Csnode.Proofs.QuorumProofs

/-!
# What is written to the storage

The storage only ever gets the deferred block, without a check of signatures, so a write is right as
long as the deferred block has been verified. `storeBlock` sees to that; `updateLastBlock` and
`createBlock` leave a block in the deferred slot that they have found to be wrong.
-/

namespace CreditsNode

open ByteCodec Effect

theorem Storage.lookup_poolSave {crypto : Crypto} {evict : List PoolElement → Nat} {st : Storage}
    {pool : Pool} {recno : UInt32} {data : Bytes}
    (h : (st.poolSave crypto evict pool).2.db.blocks.lookup recno = some data) :
    st.db.blocks.lookup recno = some data ∨ data = pool.toBinary := by
  rcases poolSave_cases crypto evict st pool with ⟨-, heq⟩ | ⟨-, -, ⟨-, heq⟩ | ⟨-, heq⟩⟩
  · exact .inl (by rwa [heq] at h)
  · rw [heq, db_saved] at h
    exact .inl h
  · rw [heq, db_saved, putPool, AList.lookup_insert_eq_ite] at h
    split_ifs at h
    · exact .inr (Option.some.inj h).symm
    · exact .inl h

namespace BlockChain

variable {env : ChainEnv} {s t u v : BlockChain}

theorem lookup_flushed {recno : UInt32} {data : Bytes}
    (h : (s.flushed env).db.blocks.lookup recno = some data) :
    s.storage.db.blocks.lookup recno = some data ∨
      (s.deferredBlock.isValid = true ∧ data = s.deferredBlock.toBinary) := by
  unfold flushed at h
  grind [Storage.lookup_poolSave]

def WritesDeferred (s t : BlockChain) : Prop :=
  ∀ recno data, t.storage.db.blocks.lookup recno = some data →
    s.storage.db.blocks.lookup recno = some data ∨
      (s.deferredBlock.isValid = true ∧ data = s.deferredBlock.toBinary)

theorem RemovedLast.writesDeferred (h : RemovedLast s t) : WritesDeferred s t := by
  intro recno data hd
  cases h with
  | skipped => exact .inl hd
  | deferred _ hst => exact .inl (by simpa [hst.storage] using hd)
  | stored _ _ hst =>
    rw [hst.storage] at hd
    exact .inl (Storage.lookup_poolRemoveLast hd)
  | failed _ _ _ _ hblocks => exact .inl (hblocks recno data hd)

theorem Recorded.writesDeferred {p : Pool} {isTrusted ok : Bool}
    (h : Recorded env s p isTrusted ok t) : WritesDeferred s t := by
  intro recno data hd
  rw [h.db] at hd
  exact lookup_flushed hd

theorem Stored.writesDeferred {pool : Pool} {r : Bool} (h : Stored env s pool r t) :
    WritesDeferred s t := by
  intro recno data hd
  cases h with
  | ignored hst _ => exact .inl (by simpa [hst.storage] using hd)
  | cached _ => exact .inl hd
  | conflict _ hr => exact hr.writesDeferred recno data hd
  | appended _ _ _ hr hst =>
    rw [hst.storage] at hd
    exact hr.writesDeferred recno data hd
  | refused _ _ hr hst =>
    rw [hst.storage] at hd
    exact hr.writesDeferred recno data hd

/-- The group signature of the block, over its own mask, has been checked. The first block has
none. -/
def Verified (env : ChainEnv) (p : Pool) : Prop :=
  p.sequence ≠ 0 → checkSignatures env.crypto p = true

def DeferredVerified (env : ChainEnv) (s : BlockChain) : Prop :=
  s.deferredBlock.isValid = true → Verified env s.deferredBlock

theorem deferredVerified_new (h : s.deferredBlock = .new) : DeferredVerified env s := by
  intro hvalid
  rw [h] at hvalid
  exact absurd hvalid (by decide)

theorem verified_of_finalizable {p : Pool} {isTrusted : Bool} {lastConfidants : List PublicKey}
    (h : finalizable env.crypto p isTrusted lastConfidants = true) : Verified env p := by
  intro hne
  unfold finalizable at h
  split_ifs at h
  simpa [hne] using h

theorem RemovedLast.deferredVerified (h : RemovedLast s t) (hs : DeferredVerified env s) :
    DeferredVerified env t := by
  cases h with
  | skipped => exact hs
  | deferred _ hst => exact deferredVerified_new hst.deferredBlock
  | stored _ _ hst =>
    unfold DeferredVerified
    rw [hst.deferredBlock]
    exact hs
  | failed _ _ hdeferred =>
    unfold DeferredVerified
    rw [hdeferred]
    exact hs

theorem Stored.deferredVerified {pool : Pool} {r : Bool} (h : Stored env s pool r t)
    (hs : DeferredVerified env s) : DeferredVerified env t := by
  cases h with
  | ignored hst _ =>
    unfold DeferredVerified
    rw [hst.deferredBlock]
    exact hs
  | cached _ => exact hs
  | conflict _ hr => exact hr.deferredVerified hs
  | appended _ _ _ hr hst =>
    intro _
    rw [hst.deferredBlock, hr.deferredBlock]
    exact verified_of_finalizable (hr.finalized rfl)
  | refused _ _ _ hst => exact deferredVerified_new hst.deferredBlock

/-- The calls that replace the deferred block. -/
inductive Operation where
  | storeBlock (pool : Pool) (bySync : Bool)
  | createBlock (pool : Pool)
  | updateLastBlock (rPackage : RoundPackage)
  | tryFlushDeferredBlock
  | removeLastBlock

namespace Operation

/-- The operation, whatever it returns. -/
def run (env : ChainEnv) : Operation → ChainM Unit
  | storeBlock pool bySync => do let _ ← BlockChain.storeBlock env pool bySync
  | createBlock pool => do let _ ← BlockChain.createBlock env pool
  | updateLastBlock rPackage => do let _ ← BlockChain.updateLastBlock env rPackage
  | tryFlushDeferredBlock => BlockChain.tryFlushDeferredBlock env
  | removeLastBlock => BlockChain.removeLastBlock env

end Operation

def Applies (rPackage : RoundPackage) (s : BlockChain) : Prop :=
  s.deferredBlock.sequence = rPackage.sequenceNumber ∧
    s.deferredBlock.signatures.length < rPackage.poolSignatures.length ∧
    s.deferredBlock.previousHash = rPackage.previousHash

def exchanged (env : ChainEnv) (rPackage : RoundPackage) (s : BlockChain) : Pool :=
  ((updatedBlock rPackage s.deferredBlock).setSignatures rPackage.poolSignatures).compose env.crypto

def created (env : ChainEnv) (pool : Pool) (s : BlockChain) : Pool :=
  (pool.setPreviousHash (s.getLastHash env)).compose env.crypto

theorem wp_updateLastBlock (rPackage : RoundPackage) (s : BlockChain) :
    Returns (updateLastBlock env rPackage) (fun _ t => t = s ∨
      (Applies rPackage s ∧ t.storage = s.storage ∧
        t.deferredBlock = exchanged env rPackage s)) s := by
  refine .get_bind ?_
  dsimp only
  split_ifs with hseq hcount hprev
  · exact .pure (.inl rfl)
  · exact .pure (.inl rfl)
  · exact .pure (.inl rfl)
  · refine .modify_bind (.pure (.inr ⟨⟨?_, ?_, ?_⟩, rfl, rfl⟩))
    · simpa using hseq
    · omega
    · simpa using hprev

def Operation.GivesVerified (env : ChainEnv) (s : BlockChain) : Operation → Prop
  | createBlock pool =>
    s.lastSequence + 1 = pool.sequence →
      checkForConsistency env.crypto (pool.setPreviousHash (s.getLastHash env)) = true →
      checkForConsistency env.crypto s.deferredBlock = true → Verified env (created env pool s)
  | updateLastBlock rPackage => Applies rPackage s → Verified env (exchanged env rPackage s)
  | _ => True

theorem Operation.wp_run (op : Operation) (s : BlockChain) :
    Returns (op.run env) (fun _ t => WritesDeferred s t ∧
      (DeferredVerified env s → op.GivesVerified env s → DeferredVerified env t)) s := by
  cases op with
  | storeBlock pool bySync =>
    refine .bind (wp_storeBlock env pool bySync s) fun r t h => .pure ⟨h.writesDeferred, ?_⟩
    exact fun hs _ => h.deferredVerified hs
  | createBlock pool =>
    refine .bind (wp_createBlock env s pool) fun r t h => .pure ?_
    rcases h with ⟨-, rfl⟩ | h
    · exact ⟨fun _ _ hd => .inl hd, fun hs _ => hs⟩
    · refine ⟨h.writesDeferred, fun _ hgives _ => ?_⟩
      have hnext := h.next
      rw [sequence_setPreviousHash] at hnext
      rw [h.deferredBlock]
      exact hgives hnext h.consistent h.deferredConsistent
  | updateLastBlock rPackage =>
    refine .bind (wp_updateLastBlock rPackage s) fun r t h => .pure ?_
    rcases h with rfl | ⟨happlies, hstorage, hdeferred⟩
    · exact ⟨fun _ _ hd => .inl hd, fun hs _ => hs⟩
    · refine ⟨fun _ _ hd => .inl (hstorage ▸ hd), fun _ hgives _ => ?_⟩
      rw [hdeferred]
      exact hgives happlies
  | tryFlushDeferredBlock =>
    refine (wp_tryFlushDeferredBlock env s).mono fun _ t h => ?_
    rcases h with rfl | ⟨hvalid, -, rfl⟩
    · exact ⟨fun _ _ hd => .inl hd, fun hs _ => hs⟩
    · refine ⟨fun _ _ hd => lookup_flushed hd, fun hs _ => ?_⟩
      split_ifs
      · exact deferredVerified_new rfl
      · exact hs
  | removeLastBlock =>
    exact (wp_removeLastBlock env s).mono fun _ t h =>
      ⟨h.writesDeferred, fun hs _ => h.deferredVerified hs⟩

/-- A sequence of operations, each of which meets the condition. -/
abbrev OperationRun (env : ChainEnv) (Cond : BlockChain → Operation → Prop) :
    BlockChain → BlockChain → Prop :=
  Relation.ReflTransGen fun s t => ∃ op : Operation, Cond s op ∧ op.run env s = .ok () t

theorem deferredVerified_of_run (hs : DeferredVerified env s)
    (hrun : OperationRun env (Operation.GivesVerified env) s t) : DeferredVerified env t := by
  induction hrun with
  | refl => exact hs
  | tail _ hstep ih =>
    obtain ⟨op, hgives, hop⟩ := hstep
    exact ((op.wp_run _).of_ok hop).2 ih hgives

/-- What an operation writes has been verified: every record that is new is the deferred block,
whose group signature has been checked. -/
def WritesVerified (env : ChainEnv) (s t : BlockChain) : Prop :=
  ∀ recno data, t.storage.db.blocks.lookup recno = some data →
    s.storage.db.blocks.lookup recno = some data ∨
      (data = s.deferredBlock.toBinary ∧ Verified env s.deferredBlock)

/-- The node with two blocks, where the deferred one has three confidants and the signature of the
first. -/
def demoSlot : BlockChain :=
  { demoNode with
    deferredBlock := { demoNext 1 [1] 0 with
      sequence := 1, previousHash := some demoGenesisHash }.compose demoCrypto }

def demoPackage (signed : List UInt8) : RoundPackage where
  sequenceNumber := 1
  previousHash := some demoGenesisHash
  realTrustedMask := [0, 0, kUntrustedMarker]
  timestamp := []
  poolSignatures := signed.map sampleSignature

def Operation.after (op : Operation) (s : BlockChain) : BlockChain :=
  match op.run demoEnv s with
  | .ok _ t => t
  | .error _ t => t

def Operation.returns (op : Operation) (s : BlockChain) : Bool :=
  match op.run demoEnv s with
  | .ok _ _ => true
  | .error _ _ => false

theorem Operation.run_eq_after {op : Operation} {s : BlockChain} (h : op.returns s = true) :
    op.run demoEnv s = .ok () (op.after s) := by
  unfold Operation.returns at h
  unfold Operation.after
  cases hrun : op.run demoEnv s with
  | ok _ t => rfl
  | error e t =>
    rw [hrun] at h
    cases h

def demoUpdated (signed : List UInt8) : BlockChain :=
  (Operation.updateLastBlock (demoPackage signed)).after demoSlot

/-- The next block is created, which writes the deferred one. -/
def demoFlush : Operation := .createBlock (demoBlock 2 none)

/-- Every operation of a run writes verified blocks, if no operation before it was given a wrong
one. -/
theorem writesVerified_of_run (hs : DeferredVerified env s)
    (hrun : OperationRun env (Operation.GivesVerified env) s u) (op : Operation)
    (hop : op.run env u = .ok () v) : WritesVerified env u v := by
  intro recno data hd
  rcases ((op.wp_run u).of_ok hop).1 recno data hd with hold | ⟨hvalid, hdata⟩
  · exact .inl hold
  · exact .inr ⟨hdata, deferredVerified_of_run hs hrun hvalid⟩

theorem writesVerified_of_run_updated :
    ∃ u v, OperationRun demoEnv (Operation.GivesVerified demoEnv) demoSlot u ∧
      demoFlush.run demoEnv u = .ok () v ∧ u.storage.db.blocks.lookup 2 = none ∧
      (v.storage.db.blocks.lookup 2).isSome = true ∧ WritesVerified demoEnv u v := by
  have hupdate : (Operation.updateLastBlock (demoPackage [1, 2])).run demoEnv demoSlot =
      .ok () (demoUpdated [1, 2]) := Operation.run_eq_after (by decide +kernel)
  have hflush : demoFlush.run demoEnv (demoUpdated [1, 2]) =
      .ok () (demoFlush.after (demoUpdated [1, 2])) := Operation.run_eq_after (by decide +kernel)
  have hstart : DeferredVerified demoEnv demoSlot := fun _ _ => by decide +kernel
  have hrun : OperationRun demoEnv (Operation.GivesVerified demoEnv) demoSlot
      (demoUpdated [1, 2]) :=
    .single ⟨.updateLastBlock (demoPackage [1, 2]), fun _ _ => by decide +kernel, hupdate⟩
  exact ⟨_, _, hrun, hflush, by decide +kernel, by decide +kernel,
    writesVerified_of_run hstart hrun demoFlush hflush⟩

/-- A package with a wrong signature is refused, but its block stays in the deferred slot and is
written with the next block. -/
theorem writes_unverified_block :
    ∃ s u v, DeferredVerified demoEnv s ∧ OperationRun demoEnv (fun _ _ => True) s u ∧
      demoFlush.run demoEnv u = .ok () v ∧ ¬ WritesVerified demoEnv u v := by
  have hupdate : (Operation.updateLastBlock (demoPackage [1, 9])).run demoEnv demoSlot =
      .ok () (demoUpdated [1, 9]) := Operation.run_eq_after (by decide +kernel)
  have hflush : demoFlush.run demoEnv (demoUpdated [1, 9]) =
      .ok () (demoFlush.after (demoUpdated [1, 9])) := Operation.run_eq_after (by decide +kernel)
  refine ⟨demoSlot, _, _, fun _ _ => by decide +kernel, .single ⟨_, trivial, hupdate⟩, hflush, ?_⟩
  intro hwrites
  obtain ⟨data, hdata⟩ : ∃ data,
      (demoFlush.after (demoUpdated [1, 9])).storage.db.blocks.lookup 2 = some data :=
    Option.isSome_iff_exists.mp (by decide +kernel)
  rcases hwrites 2 data hdata with hold | ⟨-, hverified⟩
  · have hnone : (demoUpdated [1, 9]).storage.db.blocks.lookup 2 = none := by decide +kernel
    rw [hnone] at hold
    cases hold
  · have hwrong : checkSignatures demoCrypto (demoUpdated [1, 9]).deferredBlock = false := by
      decide +kernel
    have hright : checkSignatures demoCrypto (demoUpdated [1, 9]).deferredBlock = true :=
      hverified (by decide +kernel)
    rw [hwrong] at hright
    cases hright

end BlockChain

end CreditsNode
