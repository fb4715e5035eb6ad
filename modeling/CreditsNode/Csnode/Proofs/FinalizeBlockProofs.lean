import CreditsNode.Csnode.Proofs.RemoveBlockProofs

/-!
# What a refused block leaves behind

`finalizeBlock` tests the block first and then updates the index of transactions, the list of blocks
with transactions and the wallets, in this order. An exception of the last update is caught, and
nothing is taken back.
-/

namespace CreditsNode.BlockChain

open Effect

def reachesUpdates (env : ChainEnv) (isTrusted : Bool) (lastConfidants : List PublicKey)
    (s : BlockChain) : Bool :=
  let pool := s.deferredBlock.compose env.crypto
  (pool.isValid || pool.readOnly) && finalizable env.crypto pool isTrusted lastConfidants

def indexAfter {ι : Type} (update : Pool → ι → ι) (env : ChainEnv) (isTrusted : Bool)
    (lastConfidants : List PublicKey) (s : BlockChain) (index : ι) : ι :=
  if s.reachesUpdates env isTrusted lastConfidants then
    update (s.deferredBlock.compose env.crypto) index
  else index

/-- Wallets and counts of transactions are as before. -/
structure NoTrace (s t : BlockChain) : Prop where
  wallets : t.wallets = s.wallets
  totalTransactionsCount : t.totalTransactionsCount = s.totalTransactionsCount
  lastNonEmptyBlock : t.lastNonEmptyBlock = s.lastNonEmptyBlock
  previousNonEmpty : t.previousNonEmpty = s.previousNonEmpty

variable {env : ChainEnv} {isTrusted : Bool} {lastConfidants : List PublicKey} {s t : BlockChain}

theorem loadNextBlock_nil {ledger : LedgerEnv} {pool : Pool} (h : pool.transactions = [])
    (confidants : List PublicKey) (inverse : Bool) (c : WalletsCache) :
    WalletsCache.Updater.loadNextBlock ledger pool confidants inverse c = .ok () c := by
  unfold WalletsCache.Updater.loadNextBlock
  rw [h]
  rfl

theorem wp_updateFromNextBlock (pool : Pool) (s : BlockChain) :
    Returns (updateFromNextBlock env pool) (fun ok t =>
      t.totalTransactionsCount = s.totalTransactionsCount ∧
        (pool.transactions = [] → ok = true)) s := by
  refine wp_catching ?_
  have hkept : Wp (onWallets env fun ledger =>
      WalletsCache.Updater.loadNextBlock ledger pool pool.confidants false)
      (fun _ t => t.totalTransactionsCount = s.totalTransactionsCount ∧ pool.transactions ≠ [])
      (fun _ t => t.totalTransactionsCount = s.totalTransactionsCount) s := by
    unfold Wp onWallets
    grind [loadNextBlock_nil]
  refine .bind (hkept.imp (fun e u hu => ?_) fun _ _ hu => hu) fun _ u hu => ?_
  · cases e <;> simp [hu]
  · exact .modify_bind (.pure ⟨hu, fun _ => rfl⟩)

theorem wp_finalizeBlock_trace (s : BlockChain) :
    Returns (finalizeBlock env isTrusted lastConfidants) (fun ok t =>
      if s.reachesUpdates env isTrusted lastConfidants then
        t.totalTransactionsCount = s.totalTransactionsCount +
          UInt64.ofNat (s.deferredBlock.compose env.crypto).transactions.length ∧
        ((s.deferredBlock.compose env.crypto).transactions = [] → ok = true)
      else NoTrace s t) s := by
  refine .get_bind (.modify_bind ?_)
  unfold reachesUpdates
  split_ifs with hinvalid hpasses hfail hpasses hpasses
  · grind
  · exact .pure ⟨rfl, rfl, rfl, rfl⟩
  · grind
  · exact .pure ⟨rfl, rfl, rfl, rfl⟩
  · refine .bind ((totalTransactionsCount_updateNonEmptyBlocks _ _).imp (fun _ _ h => h.elim)
      fun _ _ h => h) ?_
    rintro _ u ⟨htotal, -⟩
    exact (wp_updateFromNextBlock _ u).imp (fun _ _ h => h) fun _ _ h => ⟨h.1.trans htotal, h.2⟩
  · grind

/-- `finalizeBlock` that returns false leaves no trace exactly if the block does not come to the
updates. -/
theorem finalizeBlock_false_noTrace {ι : Type} (update : Pool → ι → ι) (index : ι)
    (hfalse : finalizeBlock env isTrusted lastConfidants s = .ok false t) :
    (s.reachesUpdates env isTrusted lastConfidants = false →
      NoTrace s t ∧ indexAfter update env isTrusted lastConfidants s index = index) ∧
    ((s.deferredBlock.compose env.crypto).transactions.length < 2 ^ 64 → NoTrace s t →
      s.reachesUpdates env isTrusted lastConfidants = false) := by
  have htrace := (wp_finalizeBlock_trace s).of_ok hfalse
  refine ⟨fun hrefused => ?_, fun hsize hsame => ?_⟩
  · rw [hrefused] at htrace
    exact ⟨htrace, by rw [indexAfter, hrefused]; rfl⟩
  · by_contra hpasses
    rw [if_pos (by simpa using hpasses), hsame.totalTransactionsCount] at htrace
    -- an empty block is not refused any more, so the count has changed
    have hpos := List.length_pos_iff.mpr (mt htrace.2 Bool.false_ne_true)
    have hnat := congrArg UInt64.toNat htrace.1
    have hlt := s.totalTransactionsCount.toNat_lt
    rw [UInt64.toNat_add, UInt64.toNat_ofNat_of_lt' hsize] at hnat
    omega

/-- A node with a first block that sends five, signed or not. -/
def demoSending (signatures : List Signature) : BlockChain :=
  { demoNode with deferredBlock := { demoTransfer [] with sequence := 1, signatures } }

theorem finalizeBlock_false_noTrace_unsigned :
    ∃ t, finalizeBlock demoEnv false [] (demoSending []) = .ok false t ∧
      NoTrace (demoSending []) t := by
  have hrefused : (demoSending []).reachesUpdates demoEnv false [] = false := by decide +kernel
  have hfalse : finalizeBlock demoEnv false [] (demoSending []) =
      .ok false { demoSending [] with
        deferredBlock := (demoSending []).deferredBlock.compose demoEnv.crypto } := rfl
  exact ⟨_, hfalse, ((finalizeBlock_false_noTrace (fun _ n => n + 1) 0 hfalse).1 hrefused).1⟩

/-- The fee cannot be converted. -/
def demoUnpaid : ChainEnv :=
  { demoEnv with toAmount := fun _ => none, toAmount_fraction := fun _ _ h => nomatch h }

/-- The target has been credited and the source has not been charged. -/
theorem finalizeBlock_false_credits :
    ∃ t, finalizeBlock demoUnpaid false [] (demoSending [zeroArray 64]) = .ok false t ∧
      (t.wallets.wallet (sampleKey 1)).balance = 0 ∧
      (t.wallets.wallet (sampleKey 2)).balance = ⟨5, 0⟩ ∧
      ¬ NoTrace (demoSending [zeroArray 64]) t := by
  have hcredited : (match finalizeBlock demoUnpaid false [] (demoSending [zeroArray 64]) with
      | .ok ok t => some (ok, (t.wallets.wallet (sampleKey 1)).balance,
          (t.wallets.wallet (sampleKey 2)).balance)
      | .error .. => none) = some (false, 0, ⟨5, 0⟩) := by decide +kernel
  have hbefore : ((demoSending [zeroArray 64]).wallets.wallet
      (sampleKey 2)).balance = 0 := by decide +kernel
  generalize demoSending [zeroArray 64] = s at *
  cases hrun : finalizeBlock demoUnpaid false [] s with
  | error e t =>
    rw [hrun] at hcredited
    cases hcredited
  | ok ok t =>
    rw [hrun] at hcredited
    obtain ⟨hok, hbalances⟩ := Prod.mk.inj (Option.some.inj hcredited)
    obtain ⟨hsource, htarget⟩ := Prod.mk.inj hbalances
    subst hok
    refine ⟨t, rfl, hsource, htarget, fun hsame => ?_⟩
    rw [hsame.wallets, hbefore] at htarget
    exact absurd htarget (by decide)

end CreditsNode.BlockChain
