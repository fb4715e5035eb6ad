import CreditsNode.Csnode.Proofs.BitHeapProofs
import CreditsNode.Csnode.WalletsCache

/-!
# The steps of the updater

The functions of the updater as sequences of steps. A relation between states that holds when only
balances change holds of every function that pays; one that holds when only the wallets change, of
every function that does not touch the two registers of contract executions.
-/

namespace CreditsNode.WalletsCache

open ByteCodec Effect

theorem wallet_setWallet (s : WalletsCache) (key k : PublicKey) (data : WalletData) :
    (s.setWallet key data).wallet k = if k = key then data else s.wallet k := by
  unfold wallet findWallet setWallet
  by_cases h : k = key
  · rw [h, if_pos rfl, AList.lookup_insert]
    rfl
  · rw [if_neg h, AList.lookup_insert_ne h]

namespace Updater

theorem loadTrxForTarget_eq (env : LedgerEnv) (tr : Transaction) (inverse : Bool) :
    loadTrxForTarget env tr inverse =
      getWalletData (env.walletsIds.toPublicKey tr.target) >>= fun _ =>
      credit inverse (env.walletsIds.toPublicKey tr.target) tr.amount >>= fun _ =>
      (if !inverse then modifyWallet (env.walletsIds.toPublicKey tr.target)
          fun data => { data with lastTransaction := tr.id }
        else pure ()) >>= fun _ =>
      if tr.source ≠ tr.target then
        modifyWallet (env.walletsIds.toPublicKey tr.target) fun data => { data with
          transNum := if !inverse then data.transNum + 1 else data.transNum - 1 }
      else pure () := by
  cases inverse <;> rfl

def chargeCanceled (inverse : Bool) (key : PublicKey)
    (amount startMaxFee startCountedFee : Amount) :
    UpdaterM Unit := do
  debit inverse key amount
  debit inverse key startMaxFee
  credit inverse key startCountedFee

def settleExecution (env : LedgerEnv) (tr : Transaction) (inverse : Bool) (key : PublicKey)
    (startMaxFee startCountedFee : Amount) : UpdaterM Unit := do
  credit inverse key startMaxFee
  debit inverse key startCountedFee
  debit inverse key (← lift (env.amount tr.countedFee))
  debit inverse key (UserField.amountValue (tr.userField TrxUf.newStateFee))

theorem loadNewStateForSource_valid (env : LedgerEnv) (tr : Transaction) {init : Transaction}
    (key : PublicKey) (inverse : Bool) (h : init.isValid = true) :
    loadNewStateForSource env tr init key inverse =
      lift (env.amount init.maxFee) >>= fun startMaxFee =>
      lift (env.amount init.countedFee) >>= fun startCountedFee =>
      get >>= fun s =>
      (if isCanceledSmart s init.target init.id then
        chargeCanceled inverse key init.amount startMaxFee startCountedFee else pure ()) >>=
          fun _ =>
      checkCanceledSmart init.target init.id inverse >>= fun _ =>
      (if SmartContracts.isExecutable init then
        settleExecution env tr inverse key startMaxFee startCountedFee
      else checkSmartWaitingForMoney env init tr inverse) >>= fun _ =>
      getWalletData (env.walletsIds.toPublicKey tr.source) >>= fun _ =>
      countSent (env.walletsIds.toPublicKey tr.source) tr inverse := by
  unfold loadNewStateForSource chargeCanceled settleExecution
  simp only [h, if_true]
  refine bind_congr fun startMaxFee => bind_congr fun startCountedFee => bind_congr fun s => ?_
  split_ifs <;> simp only [bind_assoc, pure_bind]

section Balances

variable {R : WalletsCache → WalletsCache → Prop}
  (hR : ∀ (s : WalletsCache) key balance, R s (s.setWallet key { s.wallet key with balance }))
include hR

theorem within_getWalletData (key : PublicKey) : Within R (getWalletData key) :=
  .modify fun s => hR s key (s.wallet key).balance

theorem within_setBalance (key : PublicKey) (balance : Amount) :
    Within R (modifyWallet key fun data => { data with balance }) :=
  .modify fun s => hR s key balance

variable [IsPreorder WalletsCache R]

theorem within_addBalance (key : PublicKey) (x : Amount) : Within R (addBalance key x) :=
  Within.get.bind fun _ => (Within.lift _).bind fun _ => within_setBalance hR _ _

theorem within_subBalance (key : PublicKey) (x : Amount) : Within R (subBalance key x) :=
  Within.get.bind fun _ => (Within.lift _).bind fun _ => within_setBalance hR _ _

theorem within_credit (inverse : Bool) (key : PublicKey) (x : Amount) :
    Within R (credit inverse key x) :=
  .ite (within_addBalance hR key x) (within_subBalance hR key x)

theorem within_debit (inverse : Bool) (key : PublicKey) (x : Amount) :
    Within R (debit inverse key x) :=
  .ite (within_subBalance hR key x) (within_addBalance hR key x)

theorem within_payConfidants (totalFee fee payed : Amount) (n num : Int32) (inverse : Bool)
    (confidants : List PublicKey) (realTrusted : Bytes) :
    Within R (payConfidants totalFee n inverse confidants realTrusted fee payed num) := by
  induction confidants generalizing realTrusted fee payed num with
  | nil =>
    exact .pure ()
  | cons confidant confidants ih =>
    cases realTrusted with
    | nil =>
      exact .pure ()
    | cons marker realTrusted =>
      refine Within.ite ?_ (ih _ _ _ _)
      refine (within_getWalletData hR _).bind fun _ => (within_credit hR _ _ _).bind fun _ => ?_
      refine (Within.lift _).bind fun payed' => ?_
      by_cases hl : num + 1 = n - 1
      · simp only [hl, if_true]
        exact (Within.lift _).bind fun fee' => ih _ _ _ _
      · simp only [hl, if_false, pure_bind]
        exact ih _ _ _ _

theorem within_fundConfidantsWalletsWithFee (totalFee : Amount) (confidants : List PublicKey)
    (realTrusted : Bytes) (inverse : Bool) :
    Within R (fundConfidantsWalletsWithFee totalFee confidants realTrusted inverse) := by
  refine Within.ite (Within.pure ()) ((Within.lift _).bind fun fee => ?_)
  exact within_payConfidants hR _ _ _ _ _ _ _ _

theorem within_fundConfidantsWalletsWithExecFee (env : LedgerEnv) (tr : Transaction)
    (inverse : Bool) : Within R (fundConfidantsWalletsWithExecFee env tr inverse) := by
  refine Within.ite (Within.pure ()) ((Within.lift _).bind fun smartRef => ?_)
  refine Within.ite (Within.pure ())
    (Within.ite (Within.pure ()) ((Within.lift _).bind fun fee => ?_))
  exact within_payConfidants hR _ _ _ _ _ _ _ _

theorem within_chargeCanceled (inverse : Bool) (key : PublicKey)
    (amount startMaxFee startCountedFee : Amount) :
    Within R (chargeCanceled inverse key amount startMaxFee startCountedFee) := by
  refine (within_debit hR _ _ _).bind fun _ => (within_debit hR _ _ _).bind fun _ => ?_
  exact within_credit hR _ _ _

theorem within_settleExecution (env : LedgerEnv) (tr : Transaction) (inverse : Bool)
    (key : PublicKey) (startMaxFee startCountedFee : Amount) :
    Within R (settleExecution env tr inverse key startMaxFee startCountedFee) := by
  refine (within_credit hR _ _ _).bind fun _ => (within_debit hR _ _ _).bind fun _ => ?_
  refine (Within.lift _).bind fun _ => (within_debit hR _ _ _).bind fun _ => ?_
  exact within_debit hR _ _ _

theorem within_settleWaitingSmart (env : LedgerEnv) (init tr : Transaction) (inverse : Bool) :
    Within R (settleWaitingSmart env init tr inverse) := by
  refine (within_getWalletData hR _).bind fun _ => (within_debit hR _ _ _).bind fun _ => ?_
  refine (Within.lift _).bind fun _ => (within_debit hR _ _ _).bind fun _ => ?_
  refine (Within.lift _).bind fun _ => (within_credit hR _ _ _).bind fun _ => ?_
  refine (Within.lift _).bind fun _ => (within_debit hR _ _ _).bind fun _ => ?_
  exact (within_getWalletData hR _).bind fun _ => within_credit hR _ _ _

end Balances

section Wallets

def Continues (data data' : WalletData) : Prop :=
  ∀ id, data.trxTail.heap.Used id → data'.trxTail.heap.Used id

variable {R : WalletsCache → WalletsCache → Prop}
  (hR : ∀ (s : WalletsCache) key data, Continues (s.wallet key) data → R s (s.setWallet key data))
include hR

theorem within_modifyWallet (key : PublicKey) {f : WalletData → WalletData}
    (hf : ∀ data, Continues data (f data)) : Within R (modifyWallet key f) :=
  .modify fun s => hR s key _ (hf _)

theorem within_countSent (key : PublicKey) (tr : Transaction) (inverse : Bool) :
    Within R (countSent key tr inverse) := by
  refine within_modifyWallet hR key fun data id hused => ?_
  split_ifs
  · exact hused.push tr.innerID
  · exact hused

variable [IsPreorder WalletsCache R]

theorem within_loadTrxForTarget (env : LedgerEnv) (tr : Transaction) (inverse : Bool) :
    Within R (loadTrxForTarget env tr inverse) := by
  have hbalance := fun s key balance => hR s key { s.wallet key with balance } fun _ hused => hused
  rw [loadTrxForTarget_eq]
  refine (within_getWalletData hbalance _).bind fun _ =>
    (within_credit hbalance _ _ _).bind fun _ => ?_
  refine .bind (.ite ?_ (.pure ())) fun _ => .ite ?_ (.pure ())
  · exact within_modifyWallet hR _ fun _ _ hused => hused
  · exact within_modifyWallet hR _ fun _ _ hused => hused

theorem within_loadTrxForSource (env : LedgerEnv) {tr : Transaction} (inverse : Bool)
    (h : ¬ (SmartContracts.isNewState tr = true ∧ SmartContracts.isExecutable tr = false)) :
    Within R (loadTrxForSource env tr inverse) := by
  have hbalance := fun s key balance => hR s key { s.wallet key with balance } fun _ hused => hused
  have hdebit := fun key x => within_debit hbalance inverse key x
  unfold loadTrxForSource
  by_cases hnew : SmartContracts.isNewState tr = true
  · have hexec : SmartContracts.isExecutable tr = true := by
      by_contra hexec
      exact h ⟨hnew, by simpa using hexec⟩
    simp only [hnew, hexec, if_true, Bool.not_true, Bool.false_eq_true, if_false]
    refine (Within.lift _).bind fun _ => (within_getWalletData hbalance _).bind fun _ => ?_
    exact (Within.lift _).bind fun _ => (hdebit _ _).bind fun _ => Within.pure _
  · simp only [hnew, Bool.false_eq_true, if_false, pure_bind, Bool.not_false, if_true]
    have hsent : Within R (do
        debit inverse (env.walletsIds.toPublicKey tr.source) tr.amount
        countSent (env.walletsIds.toPublicKey tr.source) tr inverse
        return tr.countedFee) :=
      (hdebit _ _).bind fun _ => (within_countSent hR _ _ _).bind fun _ => Within.pure _
    refine (within_getWalletData hbalance _).bind fun _ => Within.ite ?_ ?_
    · exact (Within.lift _).bind fun _ => (hdebit _ _).bind fun _ => hsent
    · exact (Within.lift _).bind fun _ => (hdebit _ _).bind fun _ => hsent

end Wallets

end Updater

end CreditsNode.WalletsCache
