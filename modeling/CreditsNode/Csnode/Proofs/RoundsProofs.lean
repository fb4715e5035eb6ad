import CreditsNode.Csnode.Proofs.AgreementProofs
import CreditsNode.Csnode.Proofs.CharacteristicProofs
import CreditsNode.Csnode.Proofs.ExecutionProofs

/-!
# Rounds of transfers

In each round a batch of transfers is validated against the wallets cache, and the block of the
accepted ones is applied to the cache. Round after round no balance becomes negative, no money is
made, and no transfer is executed twice.

The batches are arbitrary, so they may be what is left after the signatures have been checked. The
passes about contracts have nothing to do on transfers between plain wallets and are left out.
-/

namespace CreditsNode.TransactionsValidator

open Effect List WalletsCache.Updater IterValidator

/-! ## A round -/

/-- The transfers of a round, and the block without them. -/
structure TransferRound where
  trxs : List Transaction
  pool : Pool

def TransferRound.block (r : TransferRound) (t : TransactionsValidator) : Pool :=
  { r.pool with transactions := acceptedTrxs r.trxs t.maskIncluded }

/-- The cache, and all that has been executed. -/
structure LedgerNode where
  cache : WalletsCache
  executed : List Transaction

/-- The transfers are validated, with enough iterations of the graph, and the block is applied. -/
def applyRound (ctx : SolverContext) (env : LedgerEnv) (node : LedgerNode) (r : TransferRound) :
    Except Fault LedgerNode :=
  match validateBatch { ctx with walletsCache := node.cache }
    (3 * r.trxs.length + 1) r.trxs .new with
  | .error e _ => .error e
  | .ok _ t =>
    match loadNextBlock env (r.block t) r.pool.confidants false node.cache with
    | .error e _ => .error e
    | .ok _ u => .ok ⟨u, node.executed ++ (r.block t).transactions⟩

/-- A round of plain transfers, with confidants that are paid. -/
structure TransferRound.Plain (ctx : SolverContext) (r : TransferRound) : Prop where
  transfers : ∀ trx ∈ r.trxs, PlainTransfer ctx trx
  count : r.trxs.length < 2 ^ 32
  payees : HasPayees r.pool r.pool.confidants

variable {ctx : SolverContext} {env : LedgerEnv} {trxs executed : List Transaction}
  {cache u : WalletsCache} {s t : TransactionsValidator} {k : PublicKey} {r : TransferRound}

theorem yields_applyRound {node : LedgerNode} {E : Fault → Prop} {Q : LedgerNode → Prop}
    {P : TransactionsValidator → Prop}
    (hvalidate : Wp (validateBatch { ctx with walletsCache := node.cache } (3 * r.trxs.length + 1)
      r.trxs) (fun e _ => E e) (fun _ t => P t) .new)
    (hload : ∀ t, P t → Wp (loadNextBlock env (r.block t) r.pool.confidants false) (fun e _ => E e)
      (fun _ u => Q ⟨u, node.executed ++ (r.block t).transactions⟩) node.cache) :
    Yields (applyRound ctx env node r) E Q := by
  unfold applyRound
  split
  next hrun => exact hvalidate.of_error hrun
  next t hrun =>
    have hblock := hload t (hvalidate.of_ok hrun)
    split
    next hrun' => exact hblock.of_error hrun'
    next hrun' => exact hblock.of_ok hrun'

theorem TransferRound.Plain.withCache (hr : r.Plain ctx) (cache : WalletsCache) :
    r.Plain { ctx with walletsCache := cache } := by
  refine ⟨fun trx htrx => ?_, hr.count, hr.payees⟩
  have h := hr.transfers trx htrx
  exact ⟨⟨h.not_isExecutable, h.not_isNewState, h.source, h.target⟩, h.amount, h.ofDouble, h.maxFee,
    h.countedFee⟩

theorem TransferRound.mem_of_mem_block {trx : Transaction} (h : trx ∈ (r.block t).transactions) :
    trx ∈ r.trxs := by
  obtain ⟨i, hi, rfl⟩ := mem_map.mp h
  have hlt := mem_range.mp (mem_of_mem_filter hi)
  rw [trxAt, List.getElem?_eq_getElem hlt]
  exact getElem_mem hlt

/-! ## Solvency -/

/-- Every balance is a normalised number that is not negative. -/
structure Solvent (cache : WalletsCache) : Prop where
  normalized : cache.Normalized
  nonneg : ∀ k, 0 ≤ (cache.wallet k).balance.value

theorem wp_validateBatch_solvent (hr : r.Plain ctx) (hcache : Solvent ctx.walletsCache) :
    Wp (validateBatch ctx (3 * r.trxs.length + 1) r.trxs) (fun e _ => e = .overflow)
      (fun _ t => NoOverdraft ctx r.trxs t) s := by
  refine wp_validateBatch hr.transfers (fun k => ⟨normalized_initial hcache.normalized k, ?_⟩)
    hr.count (Nat.lt_succ_self _)
  rw [initialBalance_eq]
  exact hcache.nonneg k

theorem TransferRound.Plain.block (hfees : env.toAmount = ctx.toAmount) (hr : r.Plain ctx) :
    ∀ trx ∈ (r.block t).transactions, WalletsCache.Updater.PlainTransfer env trx := by
  intro trx htrx
  have hplain := hr.transfers trx (mem_of_mem_block htrx)
  obtain ⟨a, ha, -, hpos⟩ := hplain.countedFee
  have hfee : env.toAmount trx.countedFee = some a := hfees ▸ ha
  refine ⟨⟨hplain.not_isExecutable, hplain.not_isNewState, hplain.amount.1, a, hfee⟩, ?_⟩
  rw [feeValue, AmountCommission.converted, hfee]
  exact hpos

theorem executes_transfers {s₀ : WalletsCache} {starts trs : List Transaction}
    (h : ∀ trx ∈ trs, WalletsCache.Updater.PlainTransfer env trx) :
    Steps (Executes env s₀) starts trs starts := by
  induction trs with
  | nil => exact .nil _
  | cons trx trs ih =>
    exact .cons (.transfer (h trx mem_cons_self).toIsTransfer)
      (ih fun trx' h' => h trx' (mem_cons_of_mem _ h'))

theorem earned_nonneg {pool : Pool} {confidants : List PublicKey} {paid : List Int}
    (h : ∀ x ∈ paid, 0 ≤ x) : 0 ≤ earned pool confidants paid k := by
  refine sum_nonneg fun x hx => ?_
  obtain ⟨p, hp, rfl⟩ := mem_map.mp hx
  have hpaid := h p.2 (of_mem_zip hp).2
  split_ifs
  · exact hpaid
  · exact le_rfl

theorem wp_loadNextBlock_solvent (hr : r.Plain ctx) (hids : env.walletsIds = ctx.walletsIds)
    (hfees : env.toAmount = ctx.toAmount) (hcache : ctx.walletsCache.Normalized)
    (hbatch : NoOverdraft ctx r.trxs t) :
    Wp (loadNextBlock env (r.block t) r.pool.confidants false) (fun e _ => e = .overflow)
      (fun _ u => Solvent u ∧ u.total = ctx.walletsCache.total) ctx.walletsCache := by
  have hplain : ∀ trx ∈ (r.block t).transactions, _ := hr.block hfees
  have hpayees : HasPayees (r.block t) r.pool.confidants := ⟨hr.payees.marked, hr.payees.inside⟩
  have hexecutes : ExecutesBlock env.toAmount ctx.walletsCache [] ⟨env, r.block t,
      r.pool.confidants⟩
      [] := by
    refine ⟨rfl, executes_transfers hplain, sum_nonneg fun x hx => ?_, fun _ => hpayees⟩
    obtain ⟨trx, htrx, rfl⟩ := mem_map.mp hx
    exact (hplain trx htrx).fee_nonneg
  have hholds : Holds env.toAmount (fun _ => .new) ctx.walletsCache
      (loadNextBlock env (r.block t) r.pool.confidants false)
      ⟨[], ctx.walletsCache.smartPayableTransactions⟩
      ⟨[], ctx.walletsCache.smartPayableTransactions⟩ 0 fun _ => True :=
    holds_executesBlock hexecutes
  have hposts := wp_loadNextBlock hcache hplain hpayees
  refine Wp.self.imp (fun e u hstop => hposts.of_error hstop) fun _ u hload => ?_
  obtain ⟨-, htracks, hmoved⟩ := (hholds _ ⟨hcache, rfl, fun _ => Subset.refl _⟩).of_ok hload
  obtain ⟨paid, ⟨-, hpaid, -⟩, hbook⟩ := hposts.of_ok hload
  have hbalance : ∀ c : WalletsCache, ∀ k, (c.wallet k).balance.value = c.book k := fun c k => by
    rw [← WalletsCache.balance_eq]
    exact (Ledger.book_apply _ _ _).symm
  refine ⟨⟨htracks.normalized, fun k => ?_⟩, by simpa [Held.value] using hmoved⟩
  have hexact := (hbatch k).1
  have hearned : 0 ≤ earned (r.block t) r.pool.confidants paid k := earned_nonneg hpaid
  have hpost : Ledger.post ((paidConfidants (r.block t) r.pool.confidants).zip paid) k =
      earned (r.block t) r.pool.confidants paid k := by
    rw [Ledger.post_apply]
    rfl
  rw [exactBalance_live hids hfees] at hexact
  change 0 ≤ _ + (received env (r.block t).transactions k -
    spent env (r.block t).transactions k) at hexact
  rw [hbalance, hbook, Finsupp.add_apply, Ledger.post_append, Finsupp.add_apply,
    post_transfers_apply, ← hbalance, hpost]
  omega

/-- Over any sequence of rounds of plain transfers, whatever each round accepts of what it is given,
no balance becomes negative and the sum of all balances stays the same; only an overflow stops
it. -/
theorem rounds_solvent (ctx : SolverContext) (env : LedgerEnv) (rounds : List TransferRound)
    (node : LedgerNode) (hids : env.walletsIds = ctx.walletsIds)
    (hfees : env.toAmount = ctx.toAmount) (hplain : ∀ r ∈ rounds, r.Plain ctx)
    (hcache : Solvent node.cache) :
    Yields (rounds.foldlM (applyRound ctx env) node) (· = .overflow) fun after =>
      Solvent after.cache ∧ after.cache.total = node.cache.total := by
  refine .foldlM (fun r hr before hbefore => ?_) ⟨hcache, rfl⟩
  have hr' := (hplain r hr).withCache before.cache
  refine yields_applyRound (wp_validateBatch_solvent hr' hbefore.1) fun t ht => ?_
  refine (wp_loadNextBlock_solvent hr' hids hfees hbefore.1.normalized ht).mono ?_
  exact fun _ _ hafter => ⟨hafter.1, hafter.2.trans hbefore.2⟩

/-! ## Replay -/

/-- What tells a transaction from the others of its sender. -/
def trxId (ctx : SolverContext) (trx : Transaction) : PublicKey × Int64 :=
  (ctx.toPublicKey trx.source, trx.innerID)

def acceptedUpTo (trxs : List Transaction) (i : ℕ) (mask : List Reason) : List Transaction :=
  ((List.range i).filter fun j => mask[j]? = some .none).map (trxAt trxs)

/-- The executed transactions and the accepted ones of the first `i` are different, and their inner
ids are used up. -/
structure Once (ctx : SolverContext) (trxs executed : List Transaction) (i : ℕ)
    (s : TransactionsValidator) : Prop where
  length : s.maskIncluded.length = trxs.length
  nodup : ((executed ++ acceptedUpTo trxs i s.maskIncluded).map (trxId ctx)).Nodup
  used : ∀ trx ∈ executed ++ acceptedUpTo trxs i s.maskIncluded,
    (s.wallet ctx (ctx.toPublicKey trx.source)).trxTail.heap.Used trx.innerID

section Once

variable {mask : List Reason} {i : ℕ} {trx : Transaction}

theorem acceptedUpTo_succ_of_ne (h : mask[i]? ≠ some .none) :
    acceptedUpTo trxs (i + 1) mask = acceptedUpTo trxs i mask := by
  unfold acceptedUpTo
  simp [range_succ, h]

theorem acceptedUpTo_succ_of_eq (h : mask[i]? = some .none) (htrx : trxs[i]? = some trx) :
    acceptedUpTo trxs (i + 1) mask = acceptedUpTo trxs i mask ++ [trx] := by
  unfold acceptedUpTo
  simp [range_succ, h, trxAt, htrx]

theorem acceptedUpTo_set {reason : Reason} (h : reason ≠ .none) :
    acceptedUpTo trxs (i + 1) (mask.set i reason) = acceptedUpTo trxs i mask := by
  rw [acceptedUpTo_succ_of_ne (by grind)]
  refine congrArg (map _) (filter_congr fun j hj => ?_)
  rw [List.getElem?_set_ne (mem_range.mp hj).ne']

theorem Once.accept (hs : Once ctx trxs executed i s) (ht : KeepsUsed ctx s t)
    (htrx : trxs[i]? = some trx) (hmask : s.maskIncluded[i]? = some .none)
    (hallowed : (s.wallet ctx (ctx.toPublicKey trx.source)).trxTail.isAllowed trx.innerID = true)
    (hused : (t.wallet ctx (ctx.toPublicKey trx.source)).trxTail.heap.Used trx.innerID) :
    Once ctx trxs executed (i + 1) t := by
  have haccepted : executed ++ acceptedUpTo trxs (i + 1) t.maskIncluded =
      (executed ++ acceptedUpTo trxs i s.maskIncluded) ++ [trx] := by
    rw [ht.maskIncluded, acceptedUpTo_succ_of_eq hmask htrx, append_assoc]
  refine ⟨ht.maskIncluded ▸ hs.length, ?_, ?_⟩
  · rw [haccepted, map_append, map_singleton, ← concat_eq_append]
    refine hs.nodup.concat fun hmem => ?_
    obtain ⟨other, hother, heq⟩ := mem_map.mp hmem
    obtain ⟨hkey, hid⟩ := Prod.mk.inj heq
    have hold := hs.used other hother
    rw [hkey, hid] at hold
    rw [TransactionsTail.not_isAllowed_of_used hold] at hallowed
    cases hallowed
  · rw [haccepted]
    intro other hother
    rcases mem_append.mp hother with hother | hother
    · exact ht.used _ _ (hs.used other hother)
    · rwa [mem_singleton.mp hother]

theorem wp_validateAt_once (hexec : ∀ trx ∈ trxs, SmartContracts.isExecutable trx = false)
    (hi : i < trxs.length) (hs : Once ctx trxs executed i s) :
    Returns (validateAt ctx trxs i) (fun _ t => Once ctx trxs executed (i + 1) t) s := by
  have htrx : trxs[i]? = some trxs[i] := List.getElem?_eq_getElem hi
  refine wp_validateAt_of htrx hs.length (fun hdeploy => ?_) (fun hskip => ?_) fun hmask => ?_
  · simp [isDeploy, hexec _ (getElem_mem hi)] at hdeploy
  · obtain ⟨hlength, hnodup, hused⟩ := hs
    rw [← acceptedUpTo_succ_of_ne hskip] at hnodup hused
    exact ⟨hlength, hnodup, hused⟩
  refine (wp_validateTransaction_used htrx).mono fun reason t ht => ?_
  by_cases hreason : reason = .none
  · exact .inl ⟨hreason, hs.accept ht.1 htrx hmask (ht.2 hreason).1 (ht.2 hreason).2⟩
  · refine .inr ⟨hreason, ht.1.maskIncluded, ?_, ?_, ?_⟩
    · rw [length_set, ht.1.maskIncluded, hs.length]
    · rw [acceptedUpTo_set hreason, ht.1.maskIncluded]
      exact hs.nodup
    · rw [acceptedUpTo_set hreason, ht.1.maskIncluded]
      exact fun trx htrx => ht.1.used _ _ (hs.used trx htrx)

theorem wp_validateBatch_once {fuel : ℕ}
    (hexec : ∀ trx ∈ trxs, SmartContracts.isExecutable trx = false)
    (hnodup : (executed.map (trxId ctx)).Nodup)
    (hused : ∀ trx ∈ executed,
      (ctx.walletsCache.wallet (ctx.toPublicKey trx.source)).trxTail.heap.Used trx.innerID) :
    Returns (validateBatch ctx fuel trxs)
      (fun _ t => ((executed ++ acceptedTrxs trxs t.maskIncluded).map (trxId ctx)).Nodup) s := by
  have htail : ∀ k, (WalletsState.initial ctx k).trxTail = (ctx.walletsCache.wallet k).trxTail := by
    intro k
    unfold WalletsState.initial WalletsCache.wallet
    cases ctx.walletsCache.findWallet k <;> rfl
  unfold validateBatch
  refine .modify_bind (.bind (P := fun _ t => Once ctx trxs executed trxs.length t) ?_ ?_)
  · refine wp_validateEach_of_step (fun i hi s hs => wp_validateAt_once hexec hi hs) trxs.length 0 _
      (Nat.zero_add _) ⟨length_replicate, ?_, fun trx htrx => ?_⟩
    · exact (append_nil executed).symm ▸ hnodup
    · show (WalletsState.initial ctx _).trxTail.heap.Used _
      rw [htail]
      exact hused trx (append_nil executed ▸ htrx)
  · intro _ t ht
    refine ((within_validateByGraph fuel).wp t).mono fun _ v hv => ht.nodup.sublist ?_
    -- the graph only rejects, so it leaves a part of what was accepted in order
    refine ((Sublist.map _ (monotone_filter_right _ fun i hi => ?_)).append_left executed).map _
    rw [decide_eq_true_eq] at hi ⊢
    exact hv i hi

end Once

/-- No transaction was executed twice, and the ids of all are used up. -/
structure LedgerNode.Recorded (ctx : SolverContext) (node : LedgerNode) : Prop where
  nodup : (node.executed.map (trxId ctx)).Nodup
  used : ∀ trx ∈ node.executed,
    (node.cache.wallet (ctx.toPublicKey trx.source)).trxTail.heap.Used trx.innerID

theorem wp_loadNextBlock_used (hstates : ∀ trx ∈ r.trxs, SmartContracts.isNewState trx = false)
    (hids : env.walletsIds = ctx.walletsIds) :
    Returns (loadNextBlock env (r.block t) r.pool.confidants false)
      (fun _ u => WalletsCache.Updater.KeepsUsed cache u ∧ ∀ trx ∈ (r.block t).transactions,
        (u.wallet (ctx.toPublicKey trx.source)).trxTail.heap.Used trx.innerID) cache := by
  have hnew : ∀ trx ∈ (r.block t).transactions, SmartContracts.isNewState trx = false :=
    fun trx htrx => hstates trx (TransferRound.mem_of_mem_block htrx)
  refine .bind ((wp_loadTransactions_sent hnew 0 cache).and
    ((within_loadTransactions_used hnew false 0).wp cache)) fun total v hv => ?_
  refine ((within_fees_used (r.block t) total r.pool.confidants false).wp v).mono fun _ u hu => ?_
  refine ⟨trans_of WalletsCache.Updater.KeepsUsed hv.2 hu, fun trx htrx => ?_⟩
  have hsent := hu _ _ (hv.1 trx htrx)
  rwa [hids] at hsent

/-- Over any sequence of rounds of transactions that call no contract and are no new state, no two
executed transactions have the same sender and the same inner id: nothing that was executed once is
executed again. -/
theorem rounds_once (ctx : SolverContext) (env : LedgerEnv) (rounds : List TransferRound)
    (cache : WalletsCache) (after : LedgerNode) (hids : env.walletsIds = ctx.walletsIds)
    (hexec : ∀ r ∈ rounds, ∀ trx ∈ r.trxs, SmartContracts.isExecutable trx = false)
    (hstates : ∀ r ∈ rounds, ∀ trx ∈ r.trxs, SmartContracts.isNewState trx = false)
    (hrun : rounds.foldlM (applyRound ctx env) ⟨cache, []⟩ = .ok after) :
    (after.executed.map (trxId ctx)).Nodup := by
  have hrecorded : Yields (rounds.foldlM (applyRound ctx env) ⟨cache, []⟩) (fun _ => True)
      (LedgerNode.Recorded ctx) := by
    refine .foldlM (fun r hr node hnode => ?_) ⟨nodup_nil, forall_mem_nil _⟩
    have hvalidate : Returns (validateBatch { ctx with walletsCache := node.cache }
        (3 * r.trxs.length + 1) r.trxs) _ .new :=
      wp_validateBatch_once (hexec r hr) hnode.nodup hnode.used
    refine yields_applyRound hvalidate fun t ht => ?_
    refine (wp_loadNextBlock_used (hstates r hr) hids).mono fun _ u hu => ⟨ht, fun trx htrx => ?_⟩
    rcases mem_append.mp htrx with htrx | htrx
    · exact hu.1 _ _ (hnode.used trx htrx)
    · exact hu.2 trx htrx
  exact (hrecorded.of_ok hrun).nodup

/-! ## Two rounds with the same batch -/

def demoRound : TransferRound :=
  ⟨demoBatch, { Pool.new with numberTrusted := 1, realTrusted := 1, confidants := [sampleKey 9] }⟩

def demoNode : LedgerNode := ⟨(demoContext ⟨1, 0⟩ 0).walletsCache, []⟩

theorem plain_demoRounds : ∀ r ∈ [demoRound, demoRound], r.Plain (demoContext ⟨1, 0⟩ 0) := by
  have hplain : demoRound.Plain (demoContext ⟨1, 0⟩ 0) :=
    ⟨plainTransfer_demoBatch, by decide, ⟨0, by decide, by decide⟩, fun i hi _ => hi⟩
  simp [hplain]

theorem exists_demoRounds : ∃ after, [demoRound, demoRound].foldlM
    (applyRound (demoContext ⟨1, 0⟩ 0) freeEnv) demoNode = .ok after ∧
      after.executed.length = 2 := by
  have hrun : (([demoRound, demoRound].foldlM (applyRound (demoContext ⟨1, 0⟩ 0) freeEnv)
      demoNode).toOption.map (·.executed.length)) = some 2 := by decide +kernel
  cases hcases : [demoRound, demoRound].foldlM (applyRound (demoContext ⟨1, 0⟩ 0) freeEnv)
      demoNode with
  | error e =>
    rw [hcases] at hrun
    cases hrun
  | ok after =>
    rw [hcases] at hrun
    exact ⟨after, rfl, Option.some.inj hrun⟩

theorem rounds_solvent_demo : ∃ after, [demoRound, demoRound].foldlM
    (applyRound (demoContext ⟨1, 0⟩ 0) freeEnv) demoNode = .ok after ∧ Solvent after.cache := by
  obtain ⟨after, hrun, -⟩ := exists_demoRounds
  have hcache : Solvent demoNode.cache := by
    refine ⟨.setWallet (.setWallet (fun _ _ h => ?_) (by decide)) (by decide), fun k => ?_⟩
    · cases h
    show 0 ≤ ((demoContext ⟨1, 0⟩ 0).walletsCache.wallet k).balance.value
    rw [← initialBalance_eq, initialBalance, initial_demoContext]
    dsimp only
    split_ifs <;> decide
  exact ⟨after, hrun,
    ((rounds_solvent _ freeEnv _ demoNode rfl rfl plain_demoRounds hcache).of_ok hrun).1⟩

theorem rounds_once_demo : ∃ after, [demoRound, demoRound].foldlM
    (applyRound (demoContext ⟨1, 0⟩ 0) freeEnv) demoNode = .ok after ∧
      (after.executed.map (trxId (demoContext ⟨1, 0⟩ 0))).Nodup := by
  obtain ⟨after, hrun, -⟩ := exists_demoRounds
  exact ⟨after, hrun, rounds_once _ freeEnv _ _ after rfl
    (fun r hr trx htrx => ((plain_demoRounds r hr).transfers trx htrx).not_isExecutable)
    (fun r hr trx htrx => ((plain_demoRounds r hr).transfers trx htrx).not_isNewState) hrun⟩

end CreditsNode.TransactionsValidator
