import CreditsNode.Csnode.Proofs.UpdaterFrameProofs

/-!
# The last transactions of the wallets

After a block the last transaction of a wallet is the last one of the block that it has sent or
received, or else the one before. A transaction that is both an execution and a new state does not
become the last one of its sender.
-/

namespace CreditsNode.WalletsCache

open ByteCodec Effect SmartContracts

def last (s : WalletsCache) (key : PublicKey) : TransactionID := (s.wallet key).lastTransaction

namespace Updater

def KeepsLast (s t : WalletsCache) : Prop := ∀ key, t.last key = s.last key

instance isPreorderKeepsLast : IsPreorder WalletsCache KeepsLast where
  refl _ _ := rfl
  trans _ _ _ h h' key := (h' key).trans (h key)

variable {s t u : WalletsCache} {key : PublicKey} {tid : TransactionID} {P : PublicKey → Prop}

theorem keepsLast_setWallet {data : WalletData}
    (h : data.lastTransaction = s.last key) : KeepsLast s (s.setWallet key data) := by
  intro k
  unfold last
  rw [wallet_setWallet]
  split_ifs with hk
  · rw [hk]
    exact h
  · rfl

theorem keepsLast_balance (s : WalletsCache) (key : PublicKey) (balance : Amount) :
    KeepsLast s (s.setWallet key { s.wallet key with balance }) := keepsLast_setWallet rfl

theorem within_pushCanceledSmart (contract : Address) (tid : TransactionID) :
    Within KeepsLast (pushCanceledSmart contract tid) := .modify fun _ _ => rfl

theorem within_checkCanceledSmart (contract : Address) (tid : TransactionID) :
    Within KeepsLast (checkCanceledSmart contract tid false) := by
  refine .get_bind fun s => ?_
  cases s.canceledSmarts.lookup contract with
  | none => exact fun _ => rfl
  | some list => exact fun _ => rfl

variable (env : LedgerEnv)

theorem within_rollback (tr : Transaction) (execFee : Amount) :
    Within KeepsLast (rollbackExceededTimeoutContract env tr execFee false) := by
  have hcredit := within_credit keepsLast_balance
  refine (within_getWalletData keepsLast_balance _).bind fun _ => (hcredit _ _ _).bind fun _ => ?_
  refine (Within.lift _).bind fun _ => (hcredit _ _ _).bind fun _ => ?_
  refine (Within.lift _).bind fun _ => (within_debit keepsLast_balance _ _ _).bind fun _ => ?_
  refine Within.get_bind fun s => ?_
  refine Wp.ite (fun hexec => ?_) fun hexec => ?_
  · exact within_pushCanceledSmart _ _ s
  · by_cases hwaiting : tr.id ∈ s.smartPayableTransactions
    · rw [if_pos ⟨hwaiting, rfl⟩]
      exact Wp.set_bind (within_subBalance keepsLast_balance _ execFee { s with
        smartPayableTransactions := s.smartPayableTransactions.erase tr.id })
    · rw [if_neg fun h => hwaiting h.1]
      exact fun _ => rfl

theorem within_checkSmartWaitingForMoney (init tr : Transaction) :
    Within KeepsLast (checkSmartWaitingForMoney env init tr false) := by
  refine .ite (within_rollback env _ _) (.get_bind fun s => ?_)
  refine .ite (fun hwaiting => ?_) fun hwaiting => ?_
  · exact .set_bind (within_settleWaitingSmart keepsLast_balance env init tr false { s with
      smartPayableTransactions := s.smartPayableTransactions.erase init.id })
  · exact fun _ => rfl

def Marks (tid : TransactionID) (P : PublicKey → Prop) (s t : WalletsCache) : Prop :=
  ∀ key, (P key → t.last key = tid) ∧ (¬ P key → t.last key = s.last key)

theorem KeepsLast.marks (h : KeepsLast s t) (hmarks : Marks tid P t u)  :
    Marks tid P s u := fun key =>
  ⟨(hmarks key).1, fun hnot => ((hmarks key).2 hnot).trans (h key)⟩

theorem Marks.keepsLast (hmarks : Marks tid P s t) (h : KeepsLast t u)  :
    Marks tid P s u := fun key =>
  ⟨fun hP => (h key).trans ((hmarks key).1 hP), fun hnot => (h key).trans ((hmarks key).2 hnot)⟩

theorem Marks.or {Q : PublicKey → Prop}
    (h : Marks tid P s t) (h' : Marks tid Q t u) : Marks tid (fun key => P key ∨ Q key) s u := by
  intro key
  refine ⟨fun hPQ => ?_, fun hnot => ?_⟩
  · by_cases hQ : Q key
    · exact (h' key).1 hQ
    · exact ((h' key).2 hQ).trans ((h key).1 (hPQ.resolve_right hQ))
  · exact ((h' key).2 fun hQ => hnot (.inr hQ)).trans ((h key).2 fun hP => hnot (.inl hP))

theorem marks_setWallet (s : WalletsCache) (key : PublicKey) (data : WalletData) :
    Marks data.lastTransaction (· = key) s (s.setWallet key data) := by
  intro k
  grind [last, wallet_setWallet]

theorem wp_countSent (key : PublicKey) (tr : Transaction) (s : WalletsCache) :
    Returns (countSent key tr false) (fun _ t => Marks tr.id (· = key) s t) s :=
  marks_setWallet s key _

theorem wp_loadTrxForTarget (tr : Transaction) (s : WalletsCache) :
    Returns (loadTrxForTarget env tr false)
      (fun _ t => Marks tr.id (· = env.walletsIds.toPublicKey tr.target) s t) s := by
  have hpaid : Within KeepsLast (do
      getWalletData (env.walletsIds.toPublicKey tr.target)
      credit false (env.walletsIds.toPublicKey tr.target) tr.amount) :=
    (within_getWalletData keepsLast_balance _).bind fun _ => within_credit keepsLast_balance _ _ _
  refine (hpaid.wp s).bind fun _ t hst => ?_
  refine .modify_bind ?_
  have hmarked : Marks tr.id (· = env.walletsIds.toPublicKey tr.target) s
      (t.setWallet (env.walletsIds.toPublicKey tr.target)
        { t.wallet (env.walletsIds.toPublicKey tr.target) with lastTransaction := tr.id }) :=
    KeepsLast.marks hst (marks_setWallet t _ _)
  refine .ite (fun hne => ?_) fun hne => ?_
  · exact hmarked.keepsLast (keepsLast_setWallet rfl)
  · exact hmarked

theorem wp_loadNewStateForSource (tr init : Transaction) (key : PublicKey)
    (s : WalletsCache) : Returns (loadNewStateForSource env tr init key false)
      (fun _ t => Marks tr.id (· = env.walletsIds.toPublicKey tr.source) s t) s := by
  have hsent : ∀ t, KeepsLast s t → Returns (do
      getWalletData (env.walletsIds.toPublicKey tr.source)
      countSent (env.walletsIds.toPublicKey tr.source) tr false)
      (fun _ u => Marks tr.id (· = env.walletsIds.toPublicKey tr.source) s u) t := by
    intro t hst
    refine ((within_getWalletData keepsLast_balance _).wp t).bind fun _ u htu => ?_
    exact (wp_countSent _ tr u).mono fun _ v huv => hst.marks (KeepsLast.marks htu huv)
  by_cases hvalid : init.isValid = true
  · rw [loadNewStateForSource_valid env tr key false hvalid]
    refine Returns.lift_bind fun startMaxFee _ => ?_
    refine Returns.lift_bind fun startCountedFee _ => Wp.get_bind ?_
    refine ((Within.ite (within_chargeCanceled keepsLast_balance _ _ _ _ _)
      (Within.pure ())).wp s).bind fun _ t hst => ?_
    refine ((within_checkCanceledSmart _ _).wp t).bind fun _ u htu => ?_
    refine ((Within.ite (within_settleExecution keepsLast_balance _ _ _ _ _ _)
      (within_checkSmartWaitingForMoney env init tr)).wp u).bind fun _ v huv => ?_
    exact hsent v (trans_of KeepsLast (trans_of KeepsLast hst htu) huv)
  · unfold loadNewStateForSource
    rw [if_neg hvalid]
    exact hsent s fun _ => rfl

theorem wp_loadTrxForSource {tr : Transaction} (s : WalletsCache)
    (h : ¬ (isExecutable tr = true ∧ isNewState tr = true)) :
    Returns (loadTrxForSource env tr false)
      (fun _ t => Marks tr.id (· = env.walletsIds.toPublicKey tr.source) s t) s := by
  have hget := within_getWalletData keepsLast_balance
  have hdebit := within_debit keepsLast_balance
  unfold loadTrxForSource
  by_cases hnew : isNewState tr = true
  · have hexec : ¬ isExecutable tr = true := fun hexec => h ⟨hexec, hnew⟩
    simp only [hnew, hexec, if_true, Bool.not_true, Bool.false_eq_true, if_false]
    refine Returns.lift_bind fun init _ => ?_
    refine ((hget _).wp s).bind fun _ t hst => ?_
    refine (wp_loadNewStateForSource env tr _ _ t).bind fun _ u htu => ?_
    exact KeepsLast.marks hst htu
  · simp only [hnew, Bool.false_eq_true, if_false, pure_bind, Bool.not_false, if_true]
    -- both kinds of fee are taken before the transaction is counted
    have hsent : ∀ fee t, KeepsLast s t → Returns (do
        debit false (env.walletsIds.toPublicKey tr.source) fee
        debit false (env.walletsIds.toPublicKey tr.source) tr.amount
        countSent (env.walletsIds.toPublicKey tr.source) tr false
        return tr.countedFee)
        (fun _ u => Marks tr.id (· = env.walletsIds.toPublicKey tr.source) s u) t := by
      intro fee t hst
      refine ((hdebit _ _ _).wp t).bind fun _ u htu => ((hdebit _ _ _).wp u).bind fun _ v huv => ?_
      refine (wp_countSent _ tr v).bind fun _ w hvw => ?_
      exact KeepsLast.marks hst (KeepsLast.marks htu (KeepsLast.marks huv hvw))
    refine ((hget _).wp s).bind fun _ t hst => ?_
    refine Wp.ite (fun hexec => ?_) fun hexec => ?_
    · exact Returns.lift_bind fun fee _ => hsent fee t hst
    · exact Returns.lift_bind fun fee _ => hsent fee t hst

def involves (ids : WalletsIds) (key : PublicKey) (tr : Transaction) : Bool :=
  key = ids.toPublicKey tr.target || key = ids.toPublicKey tr.source

theorem wp_load_last {tr : Transaction} (s : WalletsCache)
    (h : ¬ (isExecutable tr = true ∧ isNewState tr = true)) :
    Returns (load env tr false)
      (fun _ t => Marks tr.id (fun key => involves env.walletsIds key tr = true) s t) s := by
  refine (wp_loadTrxForTarget env tr s).bind fun _ t hst => ?_
  refine (wp_loadTrxForSource env t h).mono fun _ u htu key => ?_
  have hkey : involves env.walletsIds key tr = true ↔ (key = env.walletsIds.toPublicKey tr.target ∨
      key = env.walletsIds.toPublicKey tr.source) := by simp [involves]
  dsimp only
  rw [hkey]
  exact hst.or htu key

def lastOf (ids : WalletsIds) (key : PublicKey) (before : TransactionID) :
    List Transaction → TransactionID
  | [] => before
  | tr :: trs => lastOf ids key (if involves ids key tr then tr.id else before) trs

theorem wp_loadTransactions_last (trs : List Transaction) (total : Amount)
    (h : ∀ tr ∈ trs, ¬ (isExecutable tr = true ∧ isNewState tr = true))
    (s : WalletsCache) : Returns (loadTransactions env false trs total)
      (fun _ t => ∀ key, t.last key = lastOf env.walletsIds key (s.last key) trs) s := by
  induction trs generalizing total s with
  | nil => exact fun key => rfl
  | cons tr trs ih =>
    refine (wp_load_last env s (h tr List.mem_cons_self)).bind fun fee t hst => ?_
    refine Returns.lift_bind fun total' _ => ?_
    have hrest : ∀ u, KeepsLast t u → Returns (loadTransactions env false trs total')
        (fun _ v => ∀ key, v.last key = lastOf env.walletsIds key (s.last key) (tr :: trs)) u := by
      intro u htu
      refine (ih total' (fun x hx => h x (List.mem_cons_of_mem _ hx)) u).mono fun _ v huv key => ?_
      rw [huv key, htu key]
      show _ = lastOf env.walletsIds key
          (if involves env.walletsIds key tr then tr.id else s.last key) trs
      split_ifs with hkey
      · rw [(hst key).1 hkey]
      · rw [(hst key).2 hkey]
    refine Wp.ite (fun hnew => ?_) fun hnew => ?_
    · refine ((within_fundConfidantsWalletsWithExecFee keepsLast_balance env tr false).wp t).bind ?_
      exact fun _ u htu => hrest u htu
    · exact hrest t fun _ => rfl

theorem wp_loadNextBlock_last (pool : Pool) (confidants : List PublicKey)
    (h : ∀ tr ∈ pool.transactions,
      ¬ (isExecutable tr = true ∧ isNewState tr = true))
    (s : WalletsCache) : Returns (loadNextBlock env pool confidants false)
      (fun _ t => ∀ key, t.last key =
        lastOf env.walletsIds key (s.last key) pool.transactions) s := by
  refine (wp_loadTransactions_last env pool.transactions 0 h s).bind fun total t hst => ?_
  have hfund : Within KeepsLast (if total.gt 0 then
      fundConfidantsWalletsWithFee total confidants
        (bitsToMask pool.numberTrusted pool.realTrusted) false else pure ()) :=
    .ite (within_fundConfidantsWalletsWithFee keepsLast_balance _ _ _ _) (.pure ())
  exact (hfund.wp t).mono fun _ u htu key => (htu key).trans (hst key)

theorem lastOf_of_not_any {ids : WalletsIds} {trs : List Transaction}
    (h : ¬ trs.any (involves ids key) = true) (before : TransactionID) :
    lastOf ids key before trs = before := by
  induction trs with
  | nil => rfl
  | cons tr trs ih =>
    rw [List.any_cons, Bool.or_eq_true, not_or] at h
    unfold lastOf
    rw [if_neg h.1, ih h.2]

theorem lastOf_append {ids : WalletsIds} (front trs : List Transaction)
    (before : TransactionID) : lastOf ids key before (front ++ trs)
      = lastOf ids key (lastOf ids key before front) trs := by
  induction front generalizing before with
  | nil => rfl
  | cons tr front ih =>
    rw [List.cons_append, lastOf, ih, lastOf]

end Updater

end CreditsNode.WalletsCache
