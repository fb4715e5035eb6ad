import CreditsNode.Csdb.Proofs.PoolCommitmentProofs
import CreditsNode.Csnode.Proofs.BlockChainProofs

/-!
# The chain stays linked

The stored blocks are a chain, and the deferred block, if there is one, is the next block of it.
Each operation keeps this, whether it accepts a block or refuses it, as long as the storage reports
no error and the first block is not the last one. So the last hash determines the history of a node.
-/

namespace CreditsNode.BlockChain

open ByteCodec Effect

variable {env : ChainEnv} {s t u : BlockChain} {chain : List StoredBlock}

/-- The invariant of the node: the storage holds `chain`, the deferred block continues it, and the
last sequence is that of the last block. -/
structure Consistent (env : ChainEnv) (s : BlockChain) (chain : List StoredBlock) : Prop where
  storage : s.storage.Holds env.crypto chain
  deferred : s.deferredBlock.isValid = true →
    Storage.Continues env.crypto chain s.deferredBlock ∧ s.lastSequence = s.deferredBlock.sequence
  top : s.deferredBlock.isValid = false → s.lastSequence.toNat + 1 = chain.length
  cached : ∀ e ∈ s.cachedBlocks.entries, Pool.Built env.crypto e.2.pool

theorem SameChain.consistent (hst : SameChain s t) (h : Consistent env s chain) :
    Consistent env t chain where
  storage := hst.storage ▸ h.storage
  deferred := by rw [hst.deferredBlock, hst.lastSequence]; exact h.deferred
  top := by rw [hst.deferredBlock, hst.lastSequence]; exact h.top
  cached := hst.cachedBlocks ▸ h.cached

theorem Consistent.getLastHash_top (h : Consistent env s chain)
    (hvalid : s.deferredBlock.isValid = false) :
    s.getLastHash env = (storedChain env.crypto).tip chain := by
  rw [getLastHash, if_neg (by simp [hvalid]), h.storage.lastHash]

theorem toNat_sub_one {x : UInt64} (h : x ≠ 0) : (x - 1).toNat + 1 = x.toNat := by
  have hpos : x.toNat ≠ 0 := fun h0 => h (UInt64.toNat_inj.mp h0)
  rw [UInt64.toNat_sub]
  have := x.toNat_lt
  simp only [UInt64.reduceToNat]
  omega

theorem ne_zero_of_one_le {x : UInt64} (h : 1 ≤ x) : x ≠ 0 := by
  rintro rfl
  exact absurd h (by decide)

theorem Consistent.flushed (h : Consistent env s chain) (hok : (s.flushed env).errors = []) :
    ∃ chain', (s.flushed env).Holds env.crypto chain' ∧ chain'.length = s.lastSequence.toNat + 1 ∧
      (storedChain env.crypto).tip chain' = s.getLastHash env := by
  unfold BlockChain.flushed at hok ⊢
  split_ifs at hok ⊢ with hvalid
  · obtain ⟨hnext, hlast⟩ := h.deferred hvalid
    obtain ⟨-, hash, hhash, hholds⟩ := h.storage.poolSave hnext hok
    refine ⟨_, hholds, ?_, ?_⟩
    · rw [hlast, hnext.sequence]
      simp
    · rw [HashChain.tip_concat, getLastHash, if_pos hvalid, hhash]
      rfl
  · have hstorage := h.storage
    have htop := h.top
    have hgetLastHash_top := h.getLastHash_top
    grind

@[simp] theorem sequence_compose (p : Pool) (crypto : Crypto) :
    (p.compose crypto).sequence = p.sequence := by
  unfold Pool.compose
  split_ifs <;> rfl

@[simp] theorem previousHash_compose (p : Pool) (crypto : Crypto) :
    (p.compose crypto).previousHash = p.previousHash := by
  unfold Pool.compose
  split_ifs <;> rfl

variable {p pool : Pool}

theorem decodes_of_checkForConsistency {crypto : Crypto}
    (h : checkForConsistency crypto p = true) (hseq : p.sequence ≠ 0) :
    (Pool.fromBinary crypto (p.compose crypto).binaryRepresentation).sequence ≠ 0 := by
  unfold checkForConsistency at h
  rw [if_neg hseq] at h
  split_ifs at h with h₁ h₂
  by_cases hcomposed : (!(p.compose crypto).isValid && !(p.compose crypto).readOnly) = true
  · rw [if_pos hcomposed] at h
    cases h
  · rw [if_neg hcomposed] at h
    exact of_decide_eq_true h

theorem Consistent.recorded {isTrusted ok : Bool} (h : Consistent env s chain)
    (hr : Recorded env s p isTrusted ok t) (hbuilt : Pool.Built env.crypto p)
    (hvalid : p.isValid = true) (hprev : p.previousHash = s.getLastHash env)
    (hok : t.storage.errors = []) :
    ∃ chain', t.storage.Holds env.crypto chain' ∧ t.lastSequence.toNat = chain'.length ∧
      chain'.length = s.lastSequence.toNat + 1 ∧
      Storage.Continues env.crypto chain' t.deferredBlock := by
  obtain ⟨chain', hholds, hlen, htip⟩ := h.flushed (hr.flushed_errors hok)
  have hseq : p.sequence.toNat = chain'.length := by
    have := hholds.db.length_lt
    rw [← hr.next, UInt64.toNat_add, hlen]
    simp only [UInt64.reduceToNat]
    omega
  have hne : p.sequence ≠ 0 := by
    rintro h0
    rw [h0] at hseq
    simp at hseq
    omega
  refine ⟨chain', hholds.of_agree hr.db hr.lastHash, hr.lastSequence ▸ hseq, hlen, ?_⟩
  rw [hr.deferredBlock]
  refine ⟨hbuilt.compose.sealed (Pool.readOnly_compose hvalid), ?_, ?_, ?_⟩
  · rw [sequence_compose, hseq]
  · rw [previousHash_compose, hprev, htip]
  · exact decodes_of_checkForConsistency hr.consistent hne

/-- A pool stays built while its fees and new wallets are entered. -/
theorem Adjusted.built {crypto : Crypto} (h : Adjusted pool p)
    (hbuilt : Pool.Built crypto pool) : Pool.Built crypto p := by
  obtain ⟨ts, ws, rfl, hws⟩ := h
  by_cases hsealed : pool.readOnly = true
  · rw [hws hsealed]
    exact hbuilt.transactions ts
  · exact .unsealed (by simpa using hsealed)

theorem Consistent.removedLast (h : Consistent env s chain) (hr : RemovedLast s t)
    (hpos : 1 ≤ s.lastSequence) (hok : t.storage.errors = []) :
    ∃ chain', Consistent env t chain' := by
  have hne := ne_zero_of_one_le hpos
  cases hr with
  | skipped => exact ⟨chain, h⟩
  | deferred hvalid hst =>
    obtain ⟨hnext, hlast⟩ := h.deferred hvalid
    refine ⟨chain, hst.consistent ⟨h.storage, ?_, ?_, h.cached⟩⟩
    · exact fun hnew => absurd (show Pool.new.isValid = true from hnew) (by decide)
    · intro _
      have := toNat_sub_one hne
      have hsequence := hnext.sequence
      grind
  | stored hinvalid hfound hst =>
    have htop := h.top hinvalid
    have hlt : s.lastSequence.toNat ≠ 0 := fun h0 => hne (UInt64.toNat_inj.mp h0)
    obtain ⟨front, hfront, hholds, -, -, hseq⟩ := h.storage.poolRemoveLast (by omega)
    rw [if_neg hseq] at hst
    refine ⟨front, hst.consistent ⟨hholds, ?_, ?_, h.cached⟩⟩
    · exact fun hvalid => absurd hvalid (by simp [hinvalid])
    · intro _
      have := toNat_sub_one hne
      dsimp only
      omega
  | failed _ herrors => exact absurd hok herrors

theorem built_setPreviousHash {lastHash : PoolHash} (hbuilt : Pool.Built env.crypto pool)
    (hprev : pool.readOnly = true → pool.previousHash = lastHash) :
    Pool.Built env.crypto (pool.setPreviousHash lastHash) ∧
      (pool.setPreviousHash lastHash).isValid = true ∧
      (pool.setPreviousHash lastHash).previousHash = lastHash := by
  refine ⟨hbuilt.setPreviousHash _, hbuilt.isValid_setPreviousHash _, ?_⟩
  unfold Pool.setPreviousHash Pool.assign
  split_ifs with hsealed
  · exact hprev hsealed
  · rfl

section

variable (h : Consistent env s chain) (hbuilt : Pool.Built env.crypto pool)
include h hbuilt

theorem Consistent.appended {isTrusted : Bool}
    (hprev : pool.readOnly = true → pool.previousHash = s.getLastHash env)
    (hr : Recorded env s (pool.setPreviousHash (s.getLastHash env)) isTrusted true t)
    (hok : t.storage.errors = []) :
    (∃ chain', Consistent env t chain') ∧ t.lastSequence.toNat = s.lastSequence.toNat + 1 := by
  obtain ⟨hbuilt', hvalid, hprev'⟩ := built_setPreviousHash hbuilt hprev
  obtain ⟨chain', hholds, hlast, hlen, hnext⟩ := h.recorded hr hbuilt' hvalid hprev' hok
  refine ⟨⟨chain', hholds, fun _ => ⟨hnext, ?_⟩, fun hinvalid => ?_, hr.cachedBlocks ▸ h.cached⟩,
    ?_⟩
  · exact UInt64.toNat_inj.mp (hlast.trans hnext.sequence.symm)
  · exact absurd hnext.isSealed.isValid (by simp [hinvalid])
  · omega

theorem Consistent.stored {r : Bool} (hstored : Stored env s pool r t)
    (hpos : 1 ≤ s.lastSequence) (hok : t.storage.errors = []) :
    (∃ chain', Consistent env t chain') ∧ (r = true → 1 ≤ t.lastSequence) := by
  cases hstored with
  | ignored hst _ => exact ⟨⟨chain, hst.consistent h⟩, fun _ => hst.lastSequence ▸ hpos⟩
  | @cached bySync _ =>
    refine ⟨⟨chain, h.storage, h.deferred, h.top, fun e he => ?_⟩, fun _ => hpos⟩
    rcases OrdMap.mem_emplaceEntry he with rfl | he
    · exact hbuilt
    · exact h.cached e he
  | conflict _ hremoved => exact ⟨h.removedLast hremoved hpos hok, by simp⟩
  | @appended p u _ hprev _ hadj hr hst =>
    have hprev' : p.readOnly = true → p.previousHash = s.getLastHash env := by
      obtain ⟨ts, ws, rfl, -⟩ := hadj
      exact fun _ => hprev
    rw [hst.storage] at hok
    obtain ⟨⟨chain', hu⟩, hlast⟩ := h.appended (hadj.built hbuilt) hprev' hr hok
    refine ⟨⟨chain', hst.consistent hu⟩, fun _ => ?_⟩
    rw [hst.lastSequence, UInt64.le_iff_toNat_le, hlast]
    simp
  | @refused p u _ hprev hadj hr hst =>
    have hprev' : p.readOnly = true → p.previousHash = s.getLastHash env := by
      obtain ⟨ts, ws, rfl, -⟩ := hadj
      exact fun _ => hprev
    obtain ⟨hbuilt', hvalid, hprev''⟩ := built_setPreviousHash (hadj.built hbuilt) hprev'
    rw [hst.storage] at hok
    obtain ⟨chain', hholds, hlast, hlen, hnext⟩ := h.recorded hr hbuilt' hvalid hprev'' hok
    refine ⟨⟨chain', hst.consistent ⟨hholds, ?_, ?_, ?_⟩⟩, by simp⟩
    · exact fun hnew => absurd (show Pool.new.isValid = true from hnew) (by decide)
    · intro _
      have hne : u.lastSequence ≠ 0 := by
        rintro h0
        rw [h0] at hlast
        simp at hlast
        omega
      have := toNat_sub_one hne
      dsimp only
      omega
    · exact hr.cachedBlocks ▸ h.cached

theorem Consistent.created {r : Pool} (hopen : pool.readOnly = false)
    (hcreate : createBlock env pool s = .ok (some r) t) (hok : t.storage.errors = []) :
    ∃ chain', Consistent env t chain' := by
  rcases (wp_createBlock env s pool).of_ok hcreate with ⟨hnone, -⟩ | hr
  · cases hnone
  · exact (h.appended hbuilt (by simp [hopen]) hr hok).1

end

theorem Consistent.tryFlush (h : Consistent env s chain)
    (hflush : tryFlushDeferredBlock env s = .ok () t) (hok : t.storage.errors = []) :
    ∃ chain', Consistent env t chain' := by
  rcases (wp_tryFlushDeferredBlock env s).of_ok hflush with rfl | ⟨hvalid, -, rfl⟩
  · exact ⟨chain, h⟩
  obtain ⟨hnext, hlast⟩ := h.deferred hvalid
  have hflushed : s.flushed env = (s.storage.poolSave env.crypto env.evict s.deferredBlock).2 :=
    if_pos hvalid
  rw [hflushed] at hok
  obtain ⟨hsaved, hash, -, hholds⟩ := h.storage.poolSave hnext hok
  refine ⟨_, hflushed ▸ hholds, ?_, ?_, h.cached⟩
  · dsimp only
    rw [if_pos hsaved]
    exact nofun
  · intro _
    rw [hlast, hnext.sequence]
    simp

theorem RemovedLast.errors (hr : RemovedLast s t) (h : s.storage.errors ≠ []) :
    t.storage.errors ≠ [] := by
  cases hr with
  | skipped => exact h
  | deferred _ hst => exact hst.storage ▸ h
  | stored _ _ hst => exact hst.storage ▸ Storage.errors_poolRemoveLast h
  | failed _ herrors => exact herrors

theorem errors_flushed (h : s.storage.errors ≠ []) : (s.flushed env).errors ≠ [] := by
  unfold BlockChain.flushed
  split_ifs
  · exact Storage.errors_poolSave h
  · exact h

theorem Stored.errors {r : Bool} (hs : Stored env s pool r t)
    (h : s.storage.errors ≠ []) : t.storage.errors ≠ [] := by
  cases hs with
  | ignored hst _ => exact hst.storage ▸ h
  | cached _ => exact h
  | conflict _ hr => exact hr.errors h
  | appended _ _ _ hr hst =>
    rw [hst.storage]
    exact fun hnil => errors_flushed h (hr.flushed_errors hnil)
  | refused _ _ hr hst =>
    rw [hst.storage]
    exact fun hnil => errors_flushed h (hr.flushed_errors hnil)

theorem wp_storeCachedBlocks (entries : List (Sequence × BlockMeta))
    (hbuilt : ∀ e ∈ entries, Pool.Built env.crypto e.2.pool) (lastSeq : Sequence) (s : BlockChain) :
    Returns (storeCachedBlocks env entries lastSeq) (fun _ t =>
      t.storage.errors = [] → s.storage.errors = [] ∧ ∀ chain, Consistent env s chain →
        1 ≤ s.lastSequence → ∃ chain', Consistent env t chain') s := by
  induction entries generalizing lastSeq s with
  | nil => exact .pure fun hok => ⟨hok, fun chain h _ => ⟨chain, h⟩⟩
  | cons e rest ih =>
    obtain ⟨seq, data⟩ := e
    unfold storeCachedBlocks
    split_ifs with hseq
    · refine .bind (wp_storeBlock env data.pool data.bySync s) fun r u hu => ?_
      refine .modify_bind ?_
      have herased : ∀ chain, Consistent env u chain →
          Consistent env { u with cachedBlocks := u.cachedBlocks.eraseFirst } chain :=
        fun chain h => ⟨h.storage, h.deferred, h.top,
          fun e he => h.cached e (List.mem_of_mem_tail he)⟩
      have hclean : u.storage.errors = [] → s.storage.errors = [] := by
        intro hok
        by_contra herr
        exact hu.errors herr hok
      have hdata := hbuilt _ List.mem_cons_self
      split_ifs with hr
      · refine (ih (fun e he => hbuilt e (List.mem_cons_of_mem _ he)) _ _).mono ?_
        intro _ t ht hok
        obtain ⟨hok', hkeep⟩ := ht hok
        refine ⟨hclean hok', fun chain h hpos => ?_⟩
        obtain ⟨⟨chain', hcons⟩, hpos'⟩ := h.stored hdata hu hpos hok'
        exact hkeep chain' (herased chain' hcons) (hpos' hr)
      · refine .pure fun hok => ⟨hclean hok, fun chain h hpos => ?_⟩
        obtain ⟨⟨chain', hcons⟩, -⟩ := h.stored hdata hu hpos hok
        exact ⟨chain', herased chain' hcons⟩
    · exact .pure fun hok => ⟨hok, fun chain h _ => ⟨chain, h⟩⟩

theorem Consistent.testCached (h : Consistent env s chain) (hpos : 1 ≤ s.lastSequence)
    (htest : testCachedBlocks env s = .ok () t) (hok : t.storage.errors = []) :
    ∃ chain', Consistent env t chain' := by
  have hwp : Returns (testCachedBlocks env) (fun _ t =>
      t.storage.errors = [] → ∃ chain', Consistent env t chain') s := by
    refine .get_bind (.modify_bind (.get_bind ?_))
    have hsub : ∀ e ∈ (s.cachedBlocks.eraseBefore (s.lastSequence + 1)).entries,
        Pool.Built env.crypto e.2.pool :=
      fun e he => h.cached e ((List.dropWhile_sublist _).mem he)
    refine (wp_storeCachedBlocks _ hsub _ _).mono fun _ t ht hok => ?_
    exact (ht hok).2 chain ⟨h.storage, h.deferred, h.top, hsub⟩ hpos
  exact hwp.of_ok htest hok

/-- One operation that returns, on blocks that the class `Pool` can build. A block passed to
`createBlock` has `Created`. -/
inductive Step (env : ChainEnv) (Created : Pool → Prop) : BlockChain → BlockChain → Prop
  | storeBlock {s t : BlockChain} {pool : Pool} {bySync r : Bool} : Pool.Built env.crypto pool →
      storeBlock env pool bySync s = .ok r t → Step env Created s t
  | createBlock {s t : BlockChain} {pool r : Pool} : Pool.Built env.crypto pool → Created pool →
      createBlock env pool s = .ok (some r) t → Step env Created s t
  | removeLastBlock {s t : BlockChain} : removeLastBlock env s = .ok () t → Step env Created s t
  | testCachedBlocks {s t : BlockChain} : testCachedBlocks env s = .ok () t → Step env Created s t
  | tryFlushDeferredBlock {s t : BlockChain} : tryFlushDeferredBlock env s = .ok () t →
      Step env Created s t

abbrev Run (env : ChainEnv) (Created : Pool → Prop) : BlockChain → BlockChain → Prop :=
  Relation.ReflTransGen fun s t =>
    Step env Created s t ∧ t.storage.errors = [] ∧ 1 ≤ t.lastSequence

theorem Consistent.step (h : Consistent env s chain) (hpos : 1 ≤ s.lastSequence)
    (hstep : Step env (·.readOnly = false) s t) (hok : t.storage.errors = []) :
    ∃ chain', Consistent env t chain' := by
  cases hstep with
  | storeBlock hbuilt hstore =>
    exact (h.stored hbuilt ((wp_storeBlock env _ _ s).of_ok hstore) hpos hok).1
  | createBlock hbuilt hopen hcreate => exact h.created hbuilt hopen hcreate hok
  | removeLastBlock hremove =>
    exact h.removedLast ((wp_removeLastBlock env s).of_ok hremove) hpos hok
  | testCachedBlocks htest => exact h.testCached hpos htest hok
  | tryFlushDeferredBlock hflush => exact h.tryFlush hflush hok

theorem Consistent.run (h : Consistent env s chain) (hpos : 1 ≤ s.lastSequence)
    (hrun : Run env (·.readOnly = false) s t) : ∃ chain', Consistent env t chain' := by
  suffices hboth : (∃ chain', Consistent env t chain') ∧ 1 ≤ t.lastSequence from hboth.1
  induction hrun with
  | refl => exact ⟨⟨chain, h⟩, hpos⟩
  | tail _ hstep ih =>
    obtain ⟨⟨chain', hcons⟩, hpos'⟩ := ih
    exact ⟨hcons.step hpos' hstep.1 hstep.2.1, hstep.2.2⟩

/-- The blocks of a node are linked: the tables are exactly the blocks of `chain`, whose sequences
are contiguous from zero and whose previous hashes are those of the predecessors; the deferred
block, if there is one, comes next; and the last sequence and hash are those of the last block. -/
structure Linked (env : ChainEnv) (s : BlockChain) (chain : List StoredBlock) : Prop where
  tables : s.storage.db.Holds chain
  sequences : ∀ i b, chain[i]? = some b → (Pool.fromBinary env.crypto b.data).sequence.toNat = i
  links : ∀ i a b, chain[i]? = some a → chain[i + 1]? = some b →
    (Pool.fromBinary env.crypto b.data).previousHash = some a.hash
  deferred : s.deferredBlock.isValid = true →
    s.deferredBlock.sequence.toNat = chain.length ∧
      s.deferredBlock.previousHash = chain.getLast?.map StoredBlock.hash ∧
      s.lastSequence = s.deferredBlock.sequence ∧
      s.getLastHash env = s.deferredBlock.hash env.crypto
  top : s.deferredBlock.isValid = false →
    s.lastSequence.toNat + 1 = chain.length ∧
      s.getLastHash env = chain.getLast?.map StoredBlock.hash

theorem Consistent.linked (h : Consistent env s chain) : Linked env s chain where
  tables := h.storage.db
  sequences := fun _ _ hi => h.storage.linked.seq_eq hi
  links := fun _ _ _ ha hb => h.storage.linked.prev_eq ha hb
  deferred := by
    intro hvalid
    obtain ⟨hnext, hlast⟩ := h.deferred hvalid
    exact ⟨hnext.sequence, hnext.previousHash, hlast, by rw [getLastHash, if_pos hvalid]⟩
  top := fun hinvalid => ⟨h.top hinvalid, h.getLastHash_top hinvalid⟩

/-- A hash that tells short texts apart, and signatures that begin with the key. -/
def demoCrypto : Crypto where
  calculateHash data :=
    ⟨leBytes 32 (data.foldl (fun n b => n * 257 + b.toNat + 1) 0), length_leBytes 32 _⟩
  verifySignature signature key _ := signature.toList.take 32 = key.toList

def demoEnv : ChainEnv where
  crypto := demoCrypto
  genesisAddress := .publicKey (zeroArray 32)
  getFee _ := ⟨0⟩
  toAmount _ := some 0
  toAmount_fraction := by
    rintro _ _ ⟨⟩
    decide
  evict _ := 0

def demoBlock (sequence : Sequence) (previousHash : PoolHash) : Pool :=
  { Pool.new with
    isValid := true, sequence, previousHash
    confidants := [zeroArray 32], numberTrusted := 1, realTrusted := 1
    signatures := [zeroArray 64] }

def demoGenesis : Pool := (demoBlock 0 none).compose demoCrypto

def demoGenesisHash : Hash := blockHash demoCrypto demoGenesis

def demoFirst : Pool := (demoBlock 1 (some demoGenesisHash)).compose demoCrypto

/-- A node that has stored the first block and holds the second one back. -/
def demoNode : BlockChain where
  storage := {
    db := { seqNo := AList.insert (some demoGenesisHash) 1 ∅
            blocks := AList.insert 1 demoGenesis.toBinary ∅ }
    lastHash := some demoGenesisHash
    countPool := 1
    poolsCache := []
    errors := [] }
  deferredBlock := demoFirst
  lastSequence := 1
  blocksToBeRemoved := 0
  cachedBlocks := .empty
  blockHashes := .new
  walletIds := .new
  wallets := ⟨∅, ∅, ∅⟩
  totalTransactionsCount := 0
  lastNonEmptyBlock := .new
  previousNonEmpty := ∅

theorem consistent_demoNode :
    Consistent demoEnv demoNode [⟨demoGenesisHash, demoGenesis.toBinary⟩] where
  storage := {
    db := Database.holds_empty.put _ (rfl : (0 : UInt32).toNat = 0) rfl (by decide)
    linked := .genesis (by decide +kernel)
    lastHash := rfl }
  deferred _ := {
    left := {
      isSealed := (Pool.sealed_compose rfl rfl : demoFirst.Sealed)
      sequence := by decide +kernel
      previousHash := previousHash_compose _ _
      decodes := by decide +kernel }
    right := by decide +kernel }
  top hinvalid := absurd hinvalid (by decide +kernel)
  cached _ he := absurd he (by simp [demoNode, OrdMap.empty])

def demoCreates (pool : Pool) : Bool :=
  match createBlock demoEnv pool demoNode with
  | .ok (some _) t => decide (t.storage.errors = [] ∧ 1 ≤ t.lastSequence)
  | _ => false

theorem run_of_demoCreates (Created : Pool → Prop) (pool : Pool)
    (hbuilt : Pool.Built demoCrypto pool) (hcreated : Created pool) (h : demoCreates pool = true) :
    ∃ r t, createBlock demoEnv pool demoNode = .ok (some r) t ∧ Run demoEnv Created demoNode t := by
  unfold demoCreates at h
  split at h
  · next r t heq =>
    exact ⟨r, t, heq, .single ⟨.createBlock hbuilt hcreated heq, of_decide_eq_true h⟩⟩
  · cases h

/-- The chain stays linked over every run in which the blocks that `createBlock` is given have not
been composed. -/
theorem linked_of_run (h : Consistent env s chain) (hpos : 1 ≤ s.lastSequence)
    (hrun : Run env (·.readOnly = false) s t) : ∃ chain', Linked env t chain' := by
  obtain ⟨chain', hcons⟩ := h.run hpos hrun
  exact ⟨chain', hcons.linked⟩

theorem linked_of_run_created :
    ∃ t, Run demoEnv (·.readOnly = false) demoNode t ∧ t.lastSequence = 2 ∧
      ∃ chain, Linked demoEnv t chain := by
  obtain ⟨r, t, hcreate, hrun⟩ := run_of_demoCreates (·.readOnly = false)
    (demoBlock 2 none) (.unsealed rfl) rfl (by decide +kernel)
  have hlast : (match createBlock demoEnv (demoBlock 2 none) demoNode with
      | .ok _ u => u.lastSequence
      | .error _ u => u.lastSequence) = 2 := by decide +kernel
  rw [hcreate] at hlast
  exact ⟨t, hrun, hlast, linked_of_run consistent_demoNode (by decide) hrun⟩

/-- `createBlock` leaves the previous hash of a composed block as it is and records the block. -/
theorem not_linked_of_composed :
    ∃ chain t, Consistent demoEnv demoNode chain ∧ 1 ≤ demoNode.lastSequence ∧
      Run demoEnv (fun _ => True) demoNode t ∧ ¬ ∃ chain', Linked demoEnv t chain' := by
  obtain ⟨r, t, hcreate, hrun⟩ := run_of_demoCreates (fun _ => True)
    ((demoBlock 2 none).compose demoCrypto) (.compose (.unsealed rfl)) trivial
    (by decide +kernel)
  have hdeferred : (match createBlock demoEnv ((demoBlock 2 none).compose demoCrypto) demoNode with
      | .ok _ u => (u.deferredBlock.isValid, u.deferredBlock.previousHash, u.lastSequence)
      | .error _ u => (u.deferredBlock.isValid, u.deferredBlock.previousHash, u.lastSequence)) =
      (true, none, 2) := by decide +kernel
  rw [hcreate] at hdeferred
  obtain ⟨hvalid, hprev, hlast⟩ : t.deferredBlock.isValid = true ∧
      t.deferredBlock.previousHash = none ∧ t.lastSequence = 2 := by simpa using hdeferred
  refine ⟨_, t, consistent_demoNode, by decide, hrun, ?_⟩
  rintro ⟨chain, hlinked⟩
  obtain ⟨hseq, hprev', hlast', -⟩ := hlinked.deferred hvalid
  simp_all

variable {s' t' : BlockChain} {chain' : List StoredBlock}

/-- All that is read back of the two blocks but the signatures. -/
def SameContents (crypto : Crypto) (a b : StoredBlock) : Prop :=
  (Pool.fromBinary crypto a.data).withoutSignatures =
    (Pool.fromBinary crypto b.data).withoutSignatures

/-- Two nodes with the same last hash have the same history, whatever operations have brought them
there, if no two different blocks of theirs have the same hash. -/
theorem history_of_getLastHash_eq (h : Consistent env s chain) (hpos : 1 ≤ s.lastSequence)
    (hrun : Run env (·.readOnly = false) s t) (hok : (t.flushed env).errors = [])
    (h' : Consistent env s' chain') (hpos' : 1 ≤ s'.lastSequence)
    (hrun' : Run env (·.readOnly = false) s' t') (hok' : (t'.flushed env).errors = []) :
    ∃ blocks blocks', (t.flushed env).Holds env.crypto blocks ∧
      (t'.flushed env).Holds env.crypto blocks' ∧
      ((∀ a ∈ blocks, ∀ b ∈ blocks', a.hash = b.hash → SameContents env.crypto a b) →
        t.getLastHash env = t'.getLastHash env →
        blocks.Forall₂ (SameContents env.crypto) blocks') := by
  obtain ⟨_, hcons⟩ := h.run hpos hrun
  obtain ⟨_, hcons'⟩ := h'.run hpos' hrun'
  obtain ⟨blocks, hholds, -, htip⟩ := hcons.flushed hok
  obtain ⟨blocks', hholds', -, htip'⟩ := hcons'.flushed hok'
  refine ⟨blocks, blocks', hholds, hholds', fun hfree hlast => ?_⟩
  refine hholds.linked.forall₂_of_tip_eq hholds'.linked (fun a ha b hb hhash => ?_) ?_
  · have hsame := hfree a ha b hb hhash
    have hseq := congrArg (fun p : Pool => p.sequence.toNat) hsame
    have hprev := congrArg (fun p : Pool => p.previousHash) hsame
    exact ⟨hsame, hseq, hprev⟩
  · rw [htip, htip', hlast]

theorem hash_injOn_of_db_eq {st st' : Storage} {a b : StoredBlock} (hst : st.Holds env.crypto chain)
    (hst' : st'.Holds env.crypto chain') (hdb : st.db = st'.db) (ha : a ∈ chain) (hb : b ∈ chain')
    (hhash : a.hash = b.hash) : SameContents env.crypto a b := by
  obtain ⟨i, hi⟩ := List.mem_iff_getElem?.mp ha
  obtain ⟨j, hj⟩ := List.mem_iff_getElem?.mp hb
  obtain ⟨recno, -, hseqNo, hdata⟩ := hst.db.lookup_hash hi
  obtain ⟨recno', -, hseqNo', hdata'⟩ := hst'.db.lookup_hash hj
  rw [hhash, hdb, hseqNo', Option.some.injEq] at hseqNo
  rw [hdb, ← hseqNo, hdata', Option.some.injEq] at hdata
  unfold SameContents
  rw [hdata]

theorem flushed_of_tryFlush {r : Unit} (h : tryFlushDeferredBlock env s = .ok r t)
    (hvalid : s.deferredBlock.isValid = true) (hinvalid : t.deferredBlock.isValid = false) :
    t.storage = s.flushed env ∧ t.flushed env = s.flushed env ∧
      t.lastSequence = s.lastSequence := by
  have hflushed : t.flushed env = t.storage := if_neg (by rw [hinvalid]; decide)
  rcases (wp_tryFlushDeferredBlock env s).of_ok h with rfl | ⟨-, -, rfl⟩
  · rw [hvalid] at hinvalid
    cases hinvalid
  · exact ⟨rfl, hflushed, rfl⟩

/-- One node still defers the block that the other has flushed. -/
theorem history_of_getLastHash_eq_flushed :
    ∃ t blocks blocks', Run demoEnv (·.readOnly = false) demoNode t ∧
      t.deferredBlock.isValid = false ∧ (t.flushed demoEnv).Holds demoCrypto blocks ∧
      (demoNode.flushed demoEnv).Holds demoCrypto blocks' ∧
      blocks.Forall₂ (SameContents demoCrypto) blocks' := by
  have hends : (match tryFlushDeferredBlock demoEnv demoNode with
      | .ok _ u => u.deferredBlock.isValid
      | .error _ _ => true) = false := by decide +kernel
  have hvalid : demoNode.deferredBlock.isValid = true := by decide +kernel
  have hsaved : (demoNode.flushed demoEnv).errors = [] := by decide +kernel
  have hlast : (demoNode.flushed demoEnv).lastHash = demoNode.getLastHash demoEnv := by
    decide +kernel
  have hpos : 1 ≤ demoNode.lastSequence := by decide
  have hconsistent := consistent_demoNode
  generalize hstart : demoNode = s at *
  generalize hresult : tryFlushDeferredBlock demoEnv s = result at hends
  cases result with
  | error e t => cases hends
  | ok r t =>
    have hinvalid : t.deferredBlock.isValid = false := hends
    obtain ⟨hstorage, hflushed, hsequence⟩ := flushed_of_tryFlush hresult hvalid hinvalid
    have hrun : Run demoEnv (·.readOnly = false) s t :=
      .single ⟨.tryFlushDeferredBlock hresult, hstorage ▸ hsaved, hsequence ▸ hpos⟩
    obtain ⟨blocks, blocks', hholds, hholds', hsame⟩ := history_of_getLastHash_eq hconsistent hpos
      hrun (hflushed ▸ hsaved) hconsistent hpos .refl hsaved
    refine ⟨t, blocks, blocks', hrun, hinvalid, hholds, hholds', hsame (fun a ha b hb => ?_) ?_⟩
    · exact hash_injOn_of_db_eq hholds hholds' (congrArg Storage.db hflushed) ha hb
    · rw [← hlast, getLastHash, if_neg (by rw [hinvalid]; decide), hstorage]

end CreditsNode.BlockChain
