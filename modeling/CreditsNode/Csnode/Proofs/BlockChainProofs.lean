import CreditsNode.Csdb.Proofs.StorageProofs
import CreditsNode.Csnode.BlockChain

/-!
# What the operations of the chain can do

Most of the code of an operation leaves the chain itself alone (`Frames`). What is left is said once
for `recordBlock`, `removeLastBlock` and `storeBlock`: which outcomes there are, what was checked
for each, and the state after it.
-/

namespace CreditsNode.BlockChain

open ByteCodec Effect

/-- The blocks, stored, deferred and cached, are the same. -/
structure SameChain (s t : BlockChain) : Prop where
  storage : t.storage = s.storage
  deferredBlock : t.deferredBlock = s.deferredBlock
  lastSequence : t.lastSequence = s.lastSequence
  cachedBlocks : t.cachedBlocks = s.cachedBlocks

theorem SameChain.refl (s : BlockChain) : SameChain s s := ⟨rfl, rfl, rfl, rfl⟩

theorem SameChain.trans {s t u : BlockChain} (h : SameChain s t) (h' : SameChain t u) :
    SameChain s u :=
  ⟨h'.storage.trans h.storage, h'.deferredBlock.trans h.deferredBlock,
    h'.lastSequence.trans h.lastSequence, h'.cachedBlocks.trans h.cachedBlocks⟩

def Frames {α : Type} (m : ChainM α) : Prop :=
  ∀ s, Wp m (fun _ t => SameChain s t) (fun _ t => SameChain s t) s

namespace Frames

variable {α β : Type}

theorem pure (a : α) : Frames (Pure.pure a) := fun s => .pure (SameChain.refl s)

theorem bind {m : ChainM α} {f : α → ChainM β} (hm : Frames m) (hf : ∀ a, Frames (f a)) :
    Frames (m >>= f) := by
  intro s
  refine .bind (hm s) fun a t hst => ?_
  exact (hf a t).leaves_mono fun _ h => hst.trans h

theorem modify {f : BlockChain → BlockChain} (h : ∀ s, SameChain s (f s)) :
    Frames (modify f : ChainM Unit) := fun s => h s

theorem onWalletIds (m : EStateM Fault WalletsIds α) : Frames (BlockChain.onWalletIds m) := by
  intro s
  unfold Wp BlockChain.onWalletIds
  cases m s.walletIds <;> exact ⟨rfl, rfl, rfl, rfl⟩

theorem onWallets (env : ChainEnv) (m : LedgerEnv → WalletsCache.UpdaterM Unit) :
    Frames (BlockChain.onWallets env m) := by
  intro s
  unfold Wp BlockChain.onWallets
  cases m (s.ledgerEnv env) s.wallets <;> exact ⟨rfl, rfl, rfl, rfl⟩

theorem catching {m : ChainM Bool} (hm : Frames m) : Frames (BlockChain.catching m) := by
  intro s
  have h := hm s
  unfold Wp BlockChain.catching at *
  cases hs : m s with
  | ok a t =>
    rw [hs] at h
    exact h
  | error e t =>
    rw [hs] at h
    cases e <;> exact h

theorem wp {m : ChainM α} {s : BlockChain} {Q : α → BlockChain → Prop} (hm : Frames m)
    (h : ∀ a t, SameChain s t → Q a t) : Returns m Q s :=
  (hm s).imp (fun _ _ _ => trivial) h

end Frames

variable (pool : Pool)

theorem frames_updateWalletIds : Frames (updateWalletIds pool) := by
  refine Frames.catching ?_
  generalize pool.newWallets = newWallets
  induction newWallets with
  | nil => exact Frames.pure true
  | cons newWall newWallets ih =>
    unfold insertNewWalletIds
    split
    · exact Frames.pure false
    · exact (Frames.onWalletIds _).bind fun _ => ih

theorem frames_removeWalletsInPoolFromCache :
    Frames (removeWalletsInPoolFromCache pool) := .modify fun _ => ⟨rfl, rfl, rfl, rfl⟩

theorem frames_addNewWalletToPool (env : ChainEnv) (walletAddress : Address) (trxInd : Nat)
    (addressType : AddressType) :
    Frames (addNewWalletToPool env walletAddress trxInd addressType) := by
  unfold addNewWalletToPool
  split_ifs
  · exact Frames.pure _
  · exact (Frames.onWalletIds _).bind fun _ => Frames.pure _

theorem frames_newWalletsOfTransactions (env : ChainEnv) (ts : List Transaction) (idx : Nat) :
    Frames (newWalletsOfTransactions env idx ts) := by
  induction ts generalizing idx with
  | nil => exact .pure _
  | cons t ts ih =>
    refine (frames_addNewWalletToPool _ _ _ _).bind fun _ => ?_
    refine (frames_addNewWalletToPool _ _ _ _).bind fun _ => ?_
    exact (ih _).bind fun _ => .pure _

theorem frames_newWalletsOfConfidants (env : ChainEnv) (keys : List PublicKey) (idx : Nat) :
    Frames (newWalletsOfConfidants env idx keys) := by
  induction keys generalizing idx with
  | nil => exact .pure _
  | cons key keys ih =>
    refine (frames_addNewWalletToPool _ _ _ _).bind fun _ => ?_
    exact (ih _).bind fun _ => .pure _

theorem frames_updateFromNextBlock (env : ChainEnv) (pool : Pool) :
    Frames (updateFromNextBlock env pool) := by
  refine Frames.catching ((Frames.onWallets _ _).bind fun _ => Frames.bind ?_
    fun _ => Frames.pure true)
  exact Frames.modify fun _ => ⟨rfl, rfl, rfl, rfl⟩

theorem frames_updateNonEmptyBlocks : Frames (updateNonEmptyBlocks pool) := by
  refine .modify fun s => ?_
  dsimp only
  split_ifs <;> exact ⟨rfl, rfl, rfl, rfl⟩

theorem frames_forgetNonEmptyBlock : Frames (forgetNonEmptyBlock pool) := by
  refine .modify fun s => ?_
  split_ifs <;> exact ⟨rfl, rfl, rfl, rfl⟩

theorem frames_setBlocksToBeRemoved (number : Sequence) : Frames (setBlocksToBeRemoved number) := by
  refine .modify fun s => ?_
  split_ifs <;> exact ⟨rfl, rfl, rfl, rfl⟩

theorem wp_addNewWalletsToPool (env : ChainEnv) (pool : Pool) (s : BlockChain) :
    Returns (addNewWalletsToPool env pool) (fun q t => SameChain s t ∧
      (q = pool ∨ pool.readOnly = false ∧ ∃ ws, q = { pool with newWallets := ws })) s := by
  unfold addNewWalletsToPool
  split_ifs with hsealed
  · exact .pure ⟨SameChain.refl s, .inl rfl⟩
  · refine .bind ((frames_newWalletsOfTransactions env _ 0).wp fun _ _ h => h) ?_
    intro ws t hst
    refine .bind ((frames_newWalletsOfConfidants env _ _).wp fun _ _ h => hst.trans h) ?_
    intro ws' u hsu
    exact .pure ⟨hsu, .inr ⟨by simpa using hsealed, _, rfl⟩⟩

section Record

variable (env : ChainEnv) (s : BlockChain)

def flushed : Storage :=
  if s.deferredBlock.isValid then (s.storage.poolSave env.crypto env.evict s.deferredBlock).2
  else s.storage

def lastConfidants (poolSeq : Sequence) : List PublicKey :=
  if poolSeq > 1 then
    if s.deferredBlock.sequence + 1 = poolSeq then s.deferredBlock.confidants
    else ({ s with storage := s.flushed env }.loadBlock env (poolSeq - 1)).1.confidants
  else []

theorem loadBlock_spec (sequence : Sequence) :
    (s.loadBlock env sequence).2.db = s.storage.db ∧
      (s.loadBlock env sequence).2.lastHash = s.storage.lastHash ∧
      s.storage.errors <:+ (s.loadBlock env sequence).2.errors := by
  grind [loadBlock, Storage.poolLoad_spec, List.suffix_rfl]

/-- The block `p`, complete with its previous hash, has been put in the place of the deferred block,
which was written before; `ok` tells whether it passed the checks. -/
structure Recorded (p : Pool) (isTrusted ok : Bool) (t : BlockChain) : Prop where
  next : s.lastSequence + 1 = p.sequence
  consistent : checkForConsistency env.crypto p = true
  deferredConsistent : checkForConsistency env.crypto s.deferredBlock = true
  db : t.storage.db = (s.flushed env).db
  lastHash : t.storage.lastHash = (s.flushed env).lastHash
  errors : (s.flushed env).errors <:+ t.storage.errors
  deferredBlock : t.deferredBlock = p.compose env.crypto
  lastSequence : t.lastSequence = p.sequence
  cachedBlocks : t.cachedBlocks = s.cachedBlocks
  finalized : ok = true → finalizable env.crypto (p.compose env.crypto) isTrusted
    (s.lastConfidants env p.sequence) = true

theorem Recorded.flushed_errors {env : ChainEnv} {s t : BlockChain} {p : Pool} {isTrusted ok : Bool}
    (h : Recorded env s p isTrusted ok t) (hok : t.storage.errors = []) :
    (s.flushed env).errors = [] :=
  List.suffix_nil.mp (hok ▸ h.errors)

theorem wp_finalizeBlock (isTrusted : Bool) (lastConfidants : List PublicKey) :
    Returns (finalizeBlock env isTrusted lastConfidants) (fun ok t =>
      SameChain { s with deferredBlock := s.deferredBlock.compose env.crypto } t ∧
      (ok = true → finalizable env.crypto (s.deferredBlock.compose env.crypto) isTrusted
        lastConfidants = true)) s := by
  refine .get_bind (.modify_bind ?_)
  split_ifs with hinvalid hfail
  · exact .pure ⟨SameChain.refl _, by simp⟩
  · exact .pure ⟨SameChain.refl _, by simp⟩
  · refine ((frames_updateNonEmptyBlocks _).bind fun _ => frames_updateFromNextBlock env _).wp
      fun ok u h => ⟨h, fun _ => ?_⟩
    simpa using hfail

@[simp] theorem sequence_setPreviousHash (pool : Pool) (h : PoolHash) :
    (pool.setPreviousHash h).sequence = pool.sequence := by
  unfold Pool.setPreviousHash Pool.assign
  split_ifs <;> rfl

theorem wp_loadLastConfidants (poolSeq : Sequence) :
    Returns (loadLastConfidants env poolSeq) (fun keys t =>
      keys = (if poolSeq > 1 then
        if s.deferredBlock.sequence + 1 = poolSeq then s.deferredBlock.confidants
        else (s.loadBlock env (poolSeq - 1)).1.confidants else []) ∧
      t.storage.db = s.storage.db ∧ t.storage.lastHash = s.storage.lastHash ∧
      s.storage.errors <:+ t.storage.errors ∧ t.cachedBlocks = s.cachedBlocks) s := by
  have hload := loadBlock_spec env s (poolSeq - 1)
  grind [loadLastConfidants, Wp, List.suffix_rfl]

theorem wp_saveDeferredBlock :
    Returns (saveDeferredBlock env)
      (fun _ t => t = { s with storage := s.flushed env }) s := by
  unfold saveDeferredBlock flushed
  refine .get_bind ?_
  split_ifs <;> rfl

theorem wp_recordBlock (pool : Pool) (isTrusted : Bool) :
    Returns (recordBlock env pool isTrusted) (fun r t =>
      (r.1 = false ∧ t = s) ∨
        Recorded env s (pool.setPreviousHash (s.getLastHash env)) isTrusted r.1 t) s := by
  refine Wp.get_bind ?_
  refine Wp.ite (fun hseq => ?_) fun hseq => ?_
  · exact Wp.pure (.inl ⟨rfl, rfl⟩)
  generalize hp : pool.setPreviousHash (s.getLastHash env) = p
  have hpseq : p.sequence = pool.sequence := by rw [← hp, sequence_setPreviousHash]
  refine Wp.ite (fun hpool => ?_) fun hpool => ?_
  · exact Wp.pure (.inl ⟨rfl, rfl⟩)
  refine Wp.ite (fun hdeferred => ?_) fun hdeferred => ?_
  · exact Wp.pure (.inl ⟨rfl, rfl⟩)
  refine Wp.bind (wp_saveDeferredBlock env s) ?_
  rintro _ _ rfl
  refine Wp.bind (wp_loadLastConfidants env _ p.sequence) ?_
  rintro keys t ⟨hkeys, hdb, hlast, herrors, hcache⟩
  refine Wp.modify_bind (Wp.bind (wp_finalizeBlock env _ isTrusted keys) ?_)
  rintro ok u ⟨hsame, hfinal⟩
  have hrecorded : ∀ v, SameChain u v → Recorded env s p isTrusted ok v := by
    intro v huv
    obtain ⟨hstorage, hblock, hlastSeq, hcached⟩ := hsame.trans huv
    refine ⟨?_, by simpa using hpool, by simpa using hdeferred, ?_, ?_, ?_, hblock, hlastSeq, ?_,
      ?_⟩
    · rw [hpseq]
      simpa using hseq
    · rw [hstorage]
      exact hdb
    · rw [hstorage]
      exact hlast
    · rw [hstorage]
      exact herrors
    · rw [hcached]
      exact hcache
    · intro hok
      have hkeys' : keys = s.lastConfidants env p.sequence := hkeys
      rw [← hkeys']
      exact hfinal hok
  by_cases hok : ok = true
  · grind [Wp.get_bind, Wp.pure, SameChain.refl]
  · rw [if_neg hok]
    refine Wp.bind ((frames_setBlocksToBeRemoved 1).wp fun _ v h => hrecorded v h) ?_
    grind [Wp.pure]

theorem wp_createBlock (pool : Pool) :
    Returns (createBlock env pool) (fun r t =>
      (r = none ∧ t = s) ∨
        Recorded env s (pool.setPreviousHash (s.getLastHash env)) true r.isSome t) s := by
  unfold createBlock
  refine .bind (wp_recordBlock env s pool true) ?_
  rintro ⟨recorded, q⟩ t ht
  refine .pure ?_
  cases recorded with
  | false => exact ht.imp (fun h => ⟨rfl, h.2⟩) id
  | true => exact ht.imp (fun h => by cases h.1) id

theorem wp_tryFlushDeferredBlock :
    Returns (tryFlushDeferredBlock env) (fun _ t =>
      t = s ∨ (s.deferredBlock.isValid = true ∧ checkSignatures env.crypto s.deferredBlock = true ∧
        t = { s with
          storage := s.flushed env
          deferredBlock :=
            if (s.storage.poolSave env.crypto env.evict s.deferredBlock).1 then .new
            else s.deferredBlock })) s := by
  refine .get_bind ?_
  refine .ite (fun hcond => ?_) fun hcond => ?_
  · simp only [Bool.and_eq_true] at hcond
    obtain ⟨⟨hvalid, -⟩, hsigned⟩ := hcond
    have hflushed : s.flushed env = (s.storage.poolSave env.crypto env.evict s.deferredBlock).2 :=
      if_pos hvalid
    have hflush : flushDeferredBlock env s =
        .ok (s.storage.poolSave env.crypto env.evict s.deferredBlock).1
          { s with storage := s.flushed env } := by
      rw [hflushed]
      rfl
    refine .bind_of_ok hflush ?_
    by_cases hsaved : (s.storage.poolSave env.crypto env.evict s.deferredBlock).1 = true
    · simp only [if_pos hsaved]
      exact .modify (.inr ⟨hvalid, hsigned, rfl⟩)
    · simp only [if_neg hsaved]
      exact .pure (.inr ⟨hvalid, hsigned, rfl⟩)
  · exact .pure (.inl rfl)

end Record

/-- What `removeLastBlock` makes of the state `s`. -/
inductive RemovedLast (s : BlockChain) : BlockChain → Prop
  | skipped : RemovedLast s s
  | deferred {t : BlockChain} : s.deferredBlock.isValid = true →
      SameChain { s with
        deferredBlock := .new
        lastSequence := if s.deferredBlock.sequence = 0 then s.lastSequence
          else s.lastSequence - 1 } t → RemovedLast s t
  | stored {t : BlockChain} : s.deferredBlock.isValid = false →
      s.storage.poolRemoveLast.1.isValid = true →
      SameChain { s with
        storage := s.storage.poolRemoveLast.2
        lastSequence := if s.storage.poolRemoveLast.1.sequence = 0 then s.lastSequence
          else s.lastSequence - 1 } t → RemovedLast s t
  /-- The storage did not find its last block. -/
  | failed {t : BlockChain} : s.deferredBlock.isValid = false → t.storage.errors ≠ [] →
      t.deferredBlock = s.deferredBlock → t.cachedBlocks = s.cachedBlocks →
      (∀ recno data, t.storage.db.blocks.lookup recno = some data →
        s.storage.db.blocks.lookup recno = some data) → RemovedLast s t

theorem wp_dropBlock (env : ChainEnv) (s : BlockChain) (pool : Pool) (removeSeq : Sequence) :
    Returns (dropBlock env removeSeq pool)
      (fun _ t => SameChain { s with
        lastSequence := if pool.sequence = 0 then s.lastSequence else s.lastSequence - 1 } t)
          s := by
  unfold dropBlock
  by_cases hzero : pool.sequence = 0
  · simp only [if_pos hzero]
    exact Wp.pure (SameChain.refl s)
  simp only [if_neg hzero]
  refine Wp.modify_bind (Wp.bind ((Frames.onWallets env _).wp fun _ _ h => h) fun _ t hst => ?_)
  refine Wp.bind ((frames_removeWalletsInPoolFromCache pool).wp fun _ _ h => hst.trans h)
    fun _ t' hst' => ?_
  refine Wp.bind ((frames_forgetNonEmptyBlock pool).wp fun _ _ h => hst'.trans h) fun _ u hsu => ?_
  refine Wp.modify ⟨hsu.storage, hsu.deferredBlock, ?_, hsu.cachedBlocks⟩
  rw [hsu.lastSequence]

theorem takeLastBlock_of_valid {s : BlockChain} (h : s.deferredBlock.isValid = true) :
    takeLastBlock s = .ok s.deferredBlock { s with deferredBlock := .new } := if_pos h

theorem takeLastBlock_of_invalid {s : BlockChain} (h : ¬s.deferredBlock.isValid = true) :
    takeLastBlock s =
      .ok s.storage.poolRemoveLast.1 { s with storage := s.storage.poolRemoveLast.2 } := if_neg h

theorem wp_removeLastBlock (env : ChainEnv) (s : BlockChain) :
    Returns (removeLastBlock env) (fun _ t => RemovedLast s t) s := by
  refine .get_bind ?_
  refine .ite (fun hcount => ?_) fun hcount => ?_
  · exact .pure .skipped
  by_cases hdeferred : s.deferredBlock.isValid = true
  · refine .bind_of_ok (takeLastBlock_of_valid hdeferred) ?_
    rw [if_neg (by simp [hdeferred])]
    exact (wp_dropBlock env _ _ _).mono fun _ t h => .deferred hdeferred h
  · have hinvalid : s.deferredBlock.isValid = false := by simpa using hdeferred
    refine .bind_of_ok (takeLastBlock_of_invalid hdeferred) ?_
    by_cases hfound : s.storage.poolRemoveLast.1.isValid = true
    · rw [if_neg (by simp [hfound])]
      exact (wp_dropBlock env _ _ _).mono fun _ t h => .stored hinvalid hfound h
    · obtain ⟨hdb, herrors⟩ := Storage.poolRemoveLast_of_invalid (by simpa using hfound)
      rw [if_pos (by simpa using hfound)]
      have hfailed : ∀ t : BlockChain, t.storage.errors ≠ [] → t.deferredBlock = s.deferredBlock →
          t.cachedBlocks = s.cachedBlocks →
          (∀ recno data, t.storage.db.blocks.lookup recno = some data →
            s.storage.poolRemoveLast.2.db.blocks.lookup recno = some data) → RemovedLast s t :=
        fun t he hd hc hb => .failed hinvalid he hd hc fun recno data h => hdb ▸ hb recno data h
      refine .ite (fun hhash => ?_) fun hhash => ?_
      · exact .pure (hfailed _ herrors rfl rfl fun _ _ h => h)
      refine .get_bind ?_
      obtain ⟨herrors', hblocks⟩ := Storage.poolRemoveLastRepair_spec env.crypto env.evict herrors
        s.lastSequence (s.blockHashes.find s.lastSequence)
      generalize s.storage.poolRemoveLast.2.poolRemoveLastRepair env.crypto env.evict
        s.lastSequence (s.blockHashes.find s.lastSequence) = repaired at herrors' hblocks ⊢
      obtain ⟨ok, storage⟩ := repaired
      cases ok with
      | false => exact hfailed { s with storage } herrors' rfl rfl hblocks
      | true =>
        exact hfailed { s with storage, blockHashes := _, lastSequence := _ }
          herrors' rfl rfl hblocks

section Store

variable (env : ChainEnv) {s t : BlockChain}

theorem SameChain.getLastHash (h : SameChain s t) : t.getLastHash env = s.getLastHash env := by
  unfold BlockChain.getLastHash
  rw [h.storage, h.deferredBlock]

theorem SameChain.flushed (h : SameChain s t) : t.flushed env = s.flushed env := by
  unfold BlockChain.flushed
  rw [h.storage, h.deferredBlock]

theorem SameChain.lastConfidants (h : SameChain s t) (poolSeq : Sequence) :
    t.lastConfidants env poolSeq = s.lastConfidants env poolSeq := by
  unfold BlockChain.lastConfidants loadBlock
  rw [h.flushed, h.deferredBlock, h.lastSequence]

theorem Recorded.of_sameChain {u : BlockChain} {p : Pool} {isTrusted ok : Bool} (h : SameChain s t)
    (hr : Recorded env t p isTrusted ok u) : Recorded env s p isTrusted ok u where
  next := h.lastSequence ▸ hr.next
  consistent := hr.consistent
  deferredConsistent := h.deferredBlock ▸ hr.deferredConsistent
  db := h.flushed env ▸ hr.db
  lastHash := h.flushed env ▸ hr.lastHash
  errors := h.flushed env ▸ hr.errors
  deferredBlock := hr.deferredBlock
  lastSequence := hr.lastSequence
  cachedBlocks := hr.cachedBlocks.trans h.cachedBlocks
  finalized := by
    intro hok
    rw [← h.lastConfidants env p.sequence]
    exact hr.finalized hok

def Adjusted (pool p : Pool) : Prop :=
  ∃ ts ws, p = { pool with transactions := ts, newWallets := ws } ∧
    (pool.readOnly = true → ws = pool.newWallets)

/-- What `storeBlock` makes of the state `s`, with its result. -/
inductive Stored (s : BlockChain) (pool : Pool) : Bool → BlockChain → Prop
  /-- The block is known, or is refused before anything happens. -/
  | ignored {r : Bool} {t : BlockChain} : SameChain s t →
      (r = true → s.lastSequence < pool.sequence → pool.sequence ≠ s.lastSequence + 1) →
      Stored s pool r t
  | cached {bySync : Bool} : pool.sequence ≠ s.lastSequence + 1 →
      Stored s pool true
        { s with cachedBlocks := s.cachedBlocks.emplace pool.sequence ⟨pool, bySync⟩ }
  | conflict {t : BlockChain} : pool.previousHash ≠ s.getLastHash env → RemovedLast s t →
      Stored s pool false t
  | appended {p : Pool} {t u : BlockChain} : pool.previousHash = s.getLastHash env →
      (pool.sequence > 1 → pool.numberConfirmations ≠ 0 ∧ pool.roundConfirmations ≠ []) →
      Adjusted pool p → Recorded env s (p.setPreviousHash (s.getLastHash env)) false true t →
      SameChain t u → Stored s pool true u
  | refused {p : Pool} {t u : BlockChain} : pool.previousHash = s.getLastHash env →
      Adjusted pool p → Recorded env s (p.setPreviousHash (s.getLastHash env)) false false t →
      SameChain { t with lastSequence := t.lastSequence - 1, deferredBlock := .new } u →
      Stored s pool false u

theorem wp_completeBlock (pool : Pool) (bySync : Bool) (s : BlockChain) :
    Returns (completeBlock env pool bySync) (fun p t => SameChain s t ∧ Adjusted pool p) s := by
  unfold completeBlock
  split_ifs
  · refine .bind ((frames_updateWalletIds _).wp fun _ _ h => h) fun _ t h => ?_
    exact .pure ⟨h, _, _, rfl, fun _ => rfl⟩
  · refine (wp_addNewWalletsToPool env _ s).mono ?_
    rintro q t ⟨h, rfl | ⟨hopen, ws, rfl⟩⟩
    · exact ⟨h, _, _, rfl, fun _ => rfl⟩
    · exact ⟨h, _, _, rfl, fun hsealed => by simp [setTransactionsFees, hsealed] at hopen⟩

theorem wp_storeBlock (pool : Pool) (bySync : Bool) (s : BlockChain) :
    Returns (storeBlock env pool bySync) (fun r t => Stored env s pool r t) s := by
  unfold storeBlock
  refine .get_bind ?_
  dsimp only
  split_ifs with hold hconf hnext hprev hempty hcached
  · refine .pure (.ignored (SameChain.refl s) fun _ hlt => ?_)
    exact absurd hlt (UInt64.not_lt.mpr hold)
  · exact .pure (.ignored (SameChain.refl s) (by simp))
  · exact .pure (.ignored (SameChain.refl s) (by simp))
  · exact .bind (wp_removeLastBlock env s) fun _ t h => .pure (.conflict hprev h)
  · have hprev' : pool.previousHash = s.getLastHash env := by simpa using hprev
    refine .bind (wp_completeBlock env pool bySync s) ?_
    rintro p t ⟨hst, hp⟩
    refine .bind (wp_recordBlock env t p false) ?_
    rintro ⟨recorded, q⟩ u hu
    rw [hst.getLastHash] at hu
    split_ifs with hrecorded
    · subst hrecorded
      refine .modify_bind (.pure ?_)
      rcases hu with ⟨hfalse, -⟩ | hu
      · cases hfalse
      · refine .appended hprev' ?_ hp (Recorded.of_sameChain env hst hu) ⟨rfl, rfl, rfl, rfl⟩
        intro hseq
        simpa [hseq] using hconf
    · refine .bind ((frames_removeWalletsInPoolFromCache q).wp fun _ _ h => h) ?_
      intro _ v huv
      refine .get_bind ?_
      have hfalse : recorded = false := by simpa using hrecorded
      subst hfalse
      rcases hu with ⟨-, rfl⟩ | hu
      · -- refused before the deferred block was touched: the last sequence is still the old one
        have hlast : v.lastSequence = s.lastSequence := huv.lastSequence.trans hst.lastSequence
        have hne : ¬ v.lastSequence = pool.sequence := by
          grind
        rw [if_neg hne]
        exact .pure (.ignored (hst.trans huv) (by simp))
      · have hseq : v.lastSequence = pool.sequence := by
          obtain ⟨ts, ws, rfl, -⟩ := hp
          rw [huv.lastSequence, hu.lastSequence, sequence_setPreviousHash]
        rw [if_pos hseq]
        refine .modify_bind (.pure ?_)
        refine .refused hprev' hp (Recorded.of_sameChain env hst hu) ⟨huv.storage, rfl, ?_,
          huv.cachedBlocks⟩
        rw [huv.lastSequence]
  · exact .pure (.ignored (SameChain.refl s) fun _ _ => hnext)
  · exact .modify_bind (.pure (.cached hnext))

end Store

end CreditsNode.BlockChain
