import CreditsNode.Lib.Escrow
import CreditsNode.Csnode.Proofs.UndoProofs

/-!
# The money of contract executions

The sender of a start pays its maximum fee at once. The counted fee goes to the confidants of the
block; the rest is held back until the new state settles the execution. A transfer that a payable
contract waits for is held back whole. The sum of the balances and of what is held back (`Held`)
changes only by the fees that the block pays out at its end.
-/

namespace CreditsNode.WalletsCache

open ByteCodec Effect List SmartContracts

open AmountCommission (converted)

namespace Updater

def startHeld (toAmount : AmountCommission → Option Amount) (tr : Transaction) : Int :=
  converted toAmount tr.maxFee - converted toAmount tr.countedFee

def transferHeld (toAmount : AmountCommission → Option Amount) (tr : Transaction) : Int :=
  tr.amount.value + startHeld toAmount tr

/-- The starts that have no new state yet, and the register of transfers that are waited for. -/
structure Held where
  starts : List Transaction
  waiting : List TransactionID

def Held.value (toAmount : AmountCommission → Option Amount)
    (transfer : TransactionID → Transaction) (held : Held) : Int :=
  (held.starts.map (startHeld toAmount)).sum +
    (held.waiting.map fun id => transferHeld toAmount (transfer id)).sum

/-- The cache of the record: since `s₀`, nothing has been cancelled. -/
structure Tracks (s₀ : WalletsCache) (held : Held) (s : WalletsCache) : Prop where
  normalized : s.Normalized
  waiting : s.smartPayableTransactions = held.waiting
  canceled : ∀ contract, s.canceled contract ⊆ s₀.canceled contract

abbrev Holds {α : Type} (toAmount : AmountCommission → Option Amount)
    (transfer : TransactionID → Transaction) (s₀ : WalletsCache) (m : UpdaterM α)
    (held held' : Held) (d : Int) (Q : α → Prop) : Prop :=
  Carries total (Held.value toAmount transfer) (Tracks s₀) (· = Fault.overflow) m held held' d Q

def SameRegisters (s t : WalletsCache) : Prop := t.registers = s.registers

instance instIsPreorderSameRegisters : IsPreorder WalletsCache SameRegisters where
  refl _ := rfl
  trans _ _ _ h h' := h'.trans h

theorem sameRegisters_wallets (s : WalletsCache) (wallets : AList fun _ : PublicKey => WalletData) :
    SameRegisters s { s with wallets } := rfl

theorem sameRegisters_balance (s : WalletsCache) (key : PublicKey) (balance : Amount) :
    SameRegisters s (s.setWallet key { s.wallet key with balance }) := sameRegisters_wallets s _

section

variable {toAmount : AmountCommission → Option Amount} {transfer : TransactionID → Transaction}
  {s₀ s t : WalletsCache} {held held' : Held} {α : Type} {m : UpdaterM α}

theorem Tracks.of_sameRegisters (hs : Tracks s₀ held s) (ht : t.Normalized)
    (h : SameRegisters s t) : Tracks s₀ held t := by
  obtain ⟨hpayable, hcanceled⟩ := Prod.mk.inj h
  refine ⟨ht, hpayable.trans hs.waiting, fun contract => ?_⟩
  unfold WalletsCache.canceled
  rw [hcanceled]
  exact hs.canceled contract

theorem Tracks.notCanceled (hs : Tracks s₀ held s) {contract : Address} {tid : TransactionID}
    (h : isCanceledSmart s₀ contract tid = false) : isCanceledSmart s contract tid = false := by
  have hcanceled' := hs.canceled
  grind [mem_canceled_iff]

theorem total_eq_degree (s : WalletsCache) : s.total = s.book.degree :=
  (Ledger.degree_book _ _).symm

variable {Q : α → Prop}

theorem shifts_of_posts {ps : List (PublicKey × Int)} (hposts : Posts m ps Q)
    (hwithin : Within SameRegisters m) :
    Shifts total (Tracks s₀ held) (· = Fault.overflow) m (ps.map Prod.snd).sum Q := by
  intro s hs
  refine ((hposts s hs.normalized).and (hwithin.wp s)).mono ?_
  rintro a t ⟨⟨ha, hnorm, hbook⟩, hregisters⟩
  refine ⟨ha, hs.of_sameRegisters hnorm hregisters, ?_⟩
  rw [total_eq_degree, hbook, map_add, Ledger.degree_post, total_eq_degree]

theorem holds_of_posts {ps : List (PublicKey × Int)} (hposts : Posts m ps Q)
    (hwithin : Within SameRegisters m) :
    Holds toAmount transfer s₀ m held held (ps.map Prod.snd).sum Q :=
  .of_shifts (shifts_of_posts hposts hwithin)

theorem holds_getWalletData (key : PublicKey) :
    Holds toAmount transfer s₀ (getWalletData key) held held 0 fun _ => True :=
  holds_of_posts (posts_getWalletData key) (within_getWalletData sameRegisters_balance key)

theorem lookup_ite_erase_insert (canceledSmarts : AList fun _ : Address => List TransactionID)
    (contract c : Address) (list : List TransactionID) :
    ((if list.length = 0 then canceledSmarts.erase contract
      else canceledSmarts.insert contract list).lookup c).getD [] =
      if c = contract then list else (canceledSmarts.lookup c).getD [] := by
  by_cases h : c = contract
  · subst h
    rw [if_pos rfl]
    split_ifs with hlen
    · rw [AList.lookup_erase, length_eq_zero_iff.mp hlen]
      rfl
    · rw [AList.lookup_insert]
      rfl
  · rw [if_neg h]
    split_ifs
    · rw [AList.lookup_erase_ne h]
    · rw [AList.lookup_insert_ne h]

theorem holds_withStarts {d : Int} (starts : List Transaction)
    (h : Holds toAmount transfer s₀ m held held d Q) :
    Holds toAmount transfer s₀ m held { held with starts }
      (d + ((starts.map (startHeld toAmount)).sum - (held.starts.map (startHeld toAmount)).sum))
        Q := by
  have htracks : ∀ s, Tracks s₀ held s → Tracks s₀ { held with starts } s := fun s hs =>
    ⟨hs.normalized, hs.waiting, hs.canceled⟩
  refine (h.relabel htracks).congr ?_
  unfold Held.value
  ring

theorem holds_checkCanceledSmart (contract : Address) (tid : TransactionID) :
    Holds toAmount transfer s₀ (checkCanceledSmart contract tid false) held held 0 fun _ =>
      True := by
  refine .of_shifts fun s hs => ?_
  unfold checkCanceledSmart
  simp only [Bool.false_eq_true, if_false]
  refine .get_bind ?_
  cases hlookup : s.canceledSmarts.lookup contract with
  | none => exact ⟨trivial, hs, (add_zero _).symm⟩
  | some list =>
    refine .set ⟨trivial, ⟨hs.normalized, hs.waiting, fun c => ?_⟩, (add_zero _).symm⟩
    refine List.Subset.trans ?_ (hs.canceled c)
    unfold WalletsCache.canceled
    rw [lookup_ite_erase_insert]
    grind

end

def execFee (tr : Transaction) : Amount := UserField.amountValue (tr.userField TrxUf.newStateFee)

def PaysExecFee (env : LedgerEnv) (tr : Transaction) : Prop :=
  ∃ ref, SmartContractRef.fromUserField (tr.userField TrxUf.newStateRefStart) = .ok ref ∧
    ref.isValid = true ∧ (env.loadBlock ref.sequence).isValid = true ∧
    HasPayees (env.loadBlock ref.sequence) (env.loadBlock ref.sequence).confidants

theorem sum_zip_shares {pool : Pool} {confidants : List PublicKey} (fee rest : Int)
    (h : HasPayees pool confidants) :
    (((paidConfidants pool confidants).zip
      (shares fee rest (paidConfidants pool confidants).length)).map Prod.snd).sum = rest := by
  obtain ⟨n, hn⟩ : ∃ n, (paidConfidants pool confidants).length = n + 1 :=
    Nat.exists_eq_succ_of_ne_zero (length_paidConfidants_pos h).ne'
  rw [map_snd_zip (length_shares _ _ _).le, hn]
  exact sum_shares _ _ _

theorem posts_fundConfidantsWalletsWithExecFee {env : LedgerEnv} {tr : Transaction}
    (hnew : isNewState tr = true) (hpay : PaysExecFee env tr)
    (hfee : (execFee tr).Normalized) : ∃ ps : List (PublicKey × Int),
      (ps.map Prod.snd).sum = (execFee tr).value ∧
      Posts (fundConfidantsWalletsWithExecFee env tr false) ps fun _ => True := by
  obtain ⟨ref, href, hvalid, hpool, hpayees⟩ := hpay
  have hint := toInt_getRealTrustedNum hpayees
  have hpos := length_paidConfidants_pos hpayees
  have hdiv := Amount.divNat_spec (n := getRealTrustedNum (bitsToMask
    (env.loadBlock ref.sequence).numberTrusted (env.loadBlock ref.sequence).realTrusted))
    (by omega) hfee
  rw [← Amount.div_eq_divNat (by omega)] at hdiv
  unfold fundConfidantsWalletsWithExecFee
  simp only [hnew, href, Effect.lift_ok_bind, hvalid, hpool, Bool.not_true, Bool.false_eq_true,
    if_false]
  change ∃ ps : List (PublicKey × Int), _ ∧ Posts (Effect.lift ((execFee tr).div _) >>= _) ps _
  cases hquot : (execFee tr).div (getRealTrustedNum (bitsToMask
      (env.loadBlock ref.sequence).numberTrusted (env.loadBlock ref.sequence).realTrusted)) with
  | error e =>
    rw [hquot] at hdiv
    exact ⟨_, sum_zip_shares 0 _ hpayees, fun s _ => hdiv.1⟩
  | ok fee =>
    rw [hquot] at hdiv
    refine ⟨_, sum_zip_shares fee.value _ hpayees, .lift_ok ?_⟩
    refine posts_payConfidants_shares hfee hdiv.1 hpayees fun h1 => hdiv.2.2 ?_
    rw [← Int32.toInt_inj, hint, h1]
    rfl

/-- A start of an execution. -/
structure IsStart (env : LedgerEnv) (tr : Transaction) : Prop where
  executable : SmartContracts.isExecutable tr = true
  notNewState : SmartContracts.isNewState tr = false
  amount : tr.amount.Normalized
  maxFee : Converts env tr.maxFee
  fee : Converts env tr.countedFee

/-- A new state whose start `init` is found and has not been cancelled. -/
structure Answers (env : LedgerEnv) (s₀ : WalletsCache) (tr init : Transaction) : Prop where
  newState : SmartContracts.isNewState tr = true
  notExecutable : SmartContracts.isExecutable tr = false
  amount : tr.amount.Normalized
  fee : Converts env tr.countedFee
  execution : (execFee tr).Normalized
  payees : PaysExecFee env tr
  found : initTransactionOf env tr = .ok (init, init.source)
  valid : init.isValid = true
  startMaxFee : Converts env init.maxFee
  startFee : Converts env init.countedFee
  notCanceled : isCanceledSmart s₀ init.target init.id = false

section

variable {env : LedgerEnv} {transfer : TransactionID → Transaction} {s₀ : WalletsCache}
  {held held' : Held} {tr init : Transaction}

theorem posts_loadTrxForSource_start (h : IsStart env tr) :
    Posts (loadTrxForSource env tr false)
      [(env.walletsIds.toPublicKey tr.source, -converted env.toAmount tr.maxFee),
        (env.walletsIds.toPublicKey tr.source, -tr.amount.value)] (· = tr.countedFee) := by
  obtain ⟨maxFee, hmax, hnorm, hval⟩ := h.maxFee.amount
  rw [← hval]
  exact posts_loadTrxForSource_of h.notNewState (by rw [h.executable]; exact hmax) hnorm h.amount

theorem holds_loadTrxForTarget (h : tr.amount.Normalized) :
    Holds env.toAmount transfer s₀ (loadTrxForTarget env tr false) held held tr.amount.value
      fun _ => True :=
  (holds_of_posts (posts_loadTrxForTarget h)
    (within_loadTrxForTarget (fun s _ _ _ => sameRegisters_wallets s _) env tr false)).congr
      (add_zero _)

def settleNewState (env : LedgerEnv) (tr init : Transaction)
    (startMaxFee startCountedFee : Amount) :
    UpdaterM Unit :=
  if SmartContracts.isExecutable init then
    settleExecution env tr false
      (env.walletsIds.toPublicKey init.source) startMaxFee startCountedFee
  else checkSmartWaitingForMoney env init tr false

def Settles (env : LedgerEnv) (transfer : TransactionID → Transaction) (s₀ : WalletsCache)
    (tr init : Transaction) (held held' : Held) (d : Int) : Prop :=
  ∀ startMaxFee startCountedFee, env.amount init.maxFee = .ok startMaxFee →
    env.amount init.countedFee = .ok startCountedFee → Holds env.toAmount transfer s₀
      (settleNewState env tr init startMaxFee startCountedFee) held held' d fun _ => True

variable {d : Int}

theorem holds_loadNewStateForSource (h : Answers env s₀ tr init)
    (hsettle : Settles env transfer s₀ tr init held held' d) :
    Holds env.toAmount transfer s₀ (loadNewStateForSource env tr init
      (env.walletsIds.toPublicKey init.source) false) held held' d fun _ => True := by
  obtain ⟨startMaxFee, hmax, -⟩ := h.startMaxFee.amount
  obtain ⟨startCountedFee, hcounted, -⟩ := h.startFee.amount
  rw [loadNewStateForSource_valid env tr _ _ h.valid, hmax, hcounted]
  simp only [Effect.lift_ok_bind]
  refine .get_bind fun s hs => ?_
  rw [hs.notCanceled h.notCanceled, if_neg Bool.false_ne_true, pure_bind]
  refine .bind_zero (holds_checkCanceledSmart _ _) fun _ _ => ?_
  refine ((hsettle _ _ hmax hcounted).bind fun _ _ => ?_).congr (add_zero d)
  refine .bind_zero (holds_getWalletData _) fun _ _ => ?_
  exact holds_of_posts posts_countSent
    (within_countSent (fun s _ _ _ => sameRegisters_wallets s _) _ _ _)

theorem holds_loadTrxForSource_newState (h : Answers env s₀ tr init)
    (hsettle : Settles env transfer s₀ tr init held held' d) :
    Holds env.toAmount transfer s₀ (loadTrxForSource env tr false) held held' d
      (· = tr.countedFee) := by
  unfold loadTrxForSource
  simp only [h.newState, h.notExecutable, h.found, if_true, Bool.false_eq_true, if_false,
    Bool.not_true, Effect.lift_ok_bind]
  refine .bind_zero (holds_getWalletData _) fun _ _ => ?_
  refine ((holds_loadNewStateForSource h hsettle).bind fun _ _ => ?_).congr (add_zero d)
  exact .of_shifts (.pure rfl)

def Loads (env : LedgerEnv) (transfer : TransactionID → Transaction) (s₀ : WalletsCache)
    (held : Held) (tr : Transaction) (held' : Held) (d : Int) : Prop :=
  Converts env tr.countedFee ∧ ∃ e,
    Holds env.toAmount transfer s₀ (load env tr false) held held' (d - e) (· = tr.countedFee) ∧
    Holds env.toAmount transfer s₀ (fundConfidantsWalletsWithExecFee env tr false) held' held' e
      fun _ => True

theorem fundConfidantsWalletsWithExecFee_of_not (h : isNewState tr = false) :
    fundConfidantsWalletsWithExecFee env tr false = pure () := by
  unfold fundConfidantsWalletsWithExecFee
  rw [h, Bool.not_false, if_pos rfl]

theorem loads_of_not_newState (hnew : isNewState tr = false)
    (hfee : Converts env tr.countedFee) (hload : Holds env.toAmount transfer s₀ (load env tr false)
      held held' d (· = tr.countedFee)) : Loads env transfer s₀ held tr held' d := by
  refine ⟨hfee, 0, hload.congr (sub_zero d).symm, ?_⟩
  rw [fundConfidantsWalletsWithExecFee_of_not hnew]
  exact .of_shifts (.pure trivial)

theorem Loads.congr {d' : Int} (h : Loads env transfer s₀ held tr held' d) (hd : d = d') :
    Loads env transfer s₀ held tr held' d' := hd ▸ h

theorem holds_load_of_posts {ps : List (PublicKey × Int)}
    (hnew : isNewState tr = false) (hamount : tr.amount.Normalized)
    (hposts : Posts (loadTrxForSource env tr false) ps (· = tr.countedFee)) :
    Holds env.toAmount transfer s₀ (load env tr false) held held
      (tr.amount.value + (ps.map Prod.snd).sum) (· = tr.countedFee) := by
  have hwithin := within_loadTrxForSource (fun s _ _ _ => sameRegisters_wallets s _) env false
    (fun h : _ ∧ _ => Bool.false_ne_true (hnew.symm.trans h.1))
  exact (holds_loadTrxForTarget hamount).bind fun _ _ => holds_of_posts hposts hwithin

theorem loads_transfer (h : IsTransfer env tr) :
    Loads env transfer s₀ held tr held (-feeValue env tr) := by
  refine loads_of_not_newState h.notNewState h.fee ?_
  refine (holds_load_of_posts h.notNewState h.amount (posts_loadTrxForSource h)).congr ?_
  simp only [map_cons, map_nil, sum_cons, sum_nil]
  ring

theorem loads_start (h : IsStart env tr) :
    Loads env transfer s₀ held tr { held with starts := tr :: held.starts } (-feeValue env tr) := by
  refine loads_of_not_newState h.notNewState h.fee ?_
  refine (holds_withStarts _ (holds_load_of_posts h.notNewState h.amount
    (posts_loadTrxForSource_start h))).congr ?_
  have hfee : feeValue env tr = converted env.toAmount tr.countedFee := rfl
  simp only [startHeld, map_cons, map_nil, sum_cons, sum_nil, hfee]
  ring

theorem Answers.loads (h : Answers env s₀ tr init)
    (hsettle : Settles env transfer s₀ tr init held held' d) :
    Loads env transfer s₀ held tr held' (tr.amount.value + d + (execFee tr).value) := by
  obtain ⟨ps, hsum, hposts⟩ :=
    posts_fundConfidantsWalletsWithExecFee h.newState h.payees h.execution
  refine ⟨h.fee, (execFee tr).value, ?_, ?_⟩
  · refine ((holds_loadTrxForTarget h.amount).bind fun _ _ =>
      holds_loadTrxForSource_newState h hsettle).congr ?_
    ring
  · exact (holds_of_posts hposts
      (within_fundConfidantsWalletsWithExecFee sameRegisters_balance env tr false)).congr hsum

theorem holds_settleExecution {startMaxFee startCountedFee : Amount} (key : PublicKey)
    (hfee : Converts env tr.countedFee) (hexecFee : (execFee tr).Normalized)
    (hmax : startMaxFee.Normalized) (hcounted : startCountedFee.Normalized) :
    Holds env.toAmount transfer s₀ (settleExecution env tr false key startMaxFee startCountedFee)
      held held (startMaxFee.value - startCountedFee.value - feeValue env tr - (execFee tr).value)
      fun _ => True := by
  obtain ⟨fee, hamount, hnorm, hval⟩ := hfee.amount
  have hposts : Posts (settleExecution env tr false key startMaxFee startCountedFee)
      [(key, startMaxFee.value), (key, -startCountedFee.value), (key, -fee.value),
        (key, -(execFee tr).value)] fun _ => True := by
    unfold settleExecution
    rw [hamount]
    refine .cons (posts_credit hmax) fun _ _ => .cons (posts_debit hcounted) fun _ _ => ?_
    exact .lift_ok (.cons (posts_debit hnorm) fun _ _ => posts_debit hexecFee)
  refine (holds_of_posts hposts (within_settleExecution sameRegisters_balance _ _ _ _ _ _)).congr ?_
  have hfee : feeValue env tr = fee.value := hval.symm
  simp only [map_cons, map_nil, sum_cons, sum_nil, hfee]
  ring

theorem loads_answer (h : Answers env s₀ tr init) (hexec : isExecutable init = true)
    (hstart : init ∈ held.starts) :
    Loads env transfer s₀ held tr { held with starts := held.starts.erase init }
      (tr.amount.value - feeValue env tr) := by
  obtain ⟨startMaxFee, hmax, hmaxnorm, hmaxval⟩ := h.startMaxFee.amount
  obtain ⟨startCountedFee, hcounted, hcountednorm, hcountedval⟩ := h.startFee.amount
  have herase := sum_map_erase (startHeld env.toAmount) hstart
  refine (h.loads (d := -feeValue env tr - (execFee tr).value) ?_).congr (by ring)
  intro startMaxFee' startCountedFee' hmax' hcounted'
  cases hmax.symm.trans hmax'
  cases hcounted.symm.trans hcounted'
  unfold settleNewState
  rw [if_pos hexec]
  refine (holds_withStarts _ (holds_settleExecution _ h.fee h.execution hmaxnorm
    hcountednorm)).congr ?_
  rw [← herase, hmaxval, hcountedval]
  unfold startHeld
  ring

theorem loadTransactions_cons (env : LedgerEnv) (tr : Transaction) (trs : List Transaction)
    (acc : Amount) : loadTransactions env false (tr :: trs) acc =
      load env tr false >>= fun fee =>
      lift (do acc.addAssign (← env.amount fee)) >>= fun acc' =>
      fundConfidantsWalletsWithExecFee env tr false >>= fun _ =>
      loadTransactions env false trs acc' := by
  refine bind_congr fun fee => bind_congr fun acc' => ?_
  grind [fundConfidantsWalletsWithExecFee_of_not]

theorem holds_loadTransactions {step : Held → Transaction → Held → Prop} {more : Transaction → Int}
    (hstep : ∀ held tr held', step held tr held' →
      Loads env transfer s₀ held tr held' (more tr - feeValue env tr))
    {trs : List Transaction} (h : Steps step held trs held') {acc : Amount}
    (hacc : acc.Normalized) :
    Holds env.toAmount transfer s₀ (loadTransactions env false trs acc) held held'
      ((trs.map more).sum - (trs.map (feeValue env)).sum) fun fees =>
        fees.Normalized ∧ fees.value = acc.value + (trs.map (feeValue env)).sum := by
  induction h generalizing acc with
  | nil g => exact .of_shifts (.pure ⟨hacc, (add_zero _).symm⟩)
  | @cons g g' g'' tr trs head tail ih =>
    obtain ⟨hconverts, e, hload, hfund⟩ := hstep _ _ _ head
    obtain ⟨fee, hfee, hnorm, hval⟩ := hconverts.amount
    have hadd := Amount.addAssign_spec hacc (Amount.normalized_iff.mp hnorm).le
    rw [loadTransactions_cons]
    have hrest : ∀ acc' : Amount, acc'.Normalized ∧ acc'.value = acc.value + fee.value →
        Holds env.toAmount transfer s₀ (fundConfidantsWalletsWithExecFee env tr false >>= fun _ =>
          loadTransactions env false trs acc') g' g''
          (e + ((trs.map more).sum - (trs.map (feeValue env)).sum)) fun fees =>
            fees.Normalized ∧ fees.value = acc.value + ((tr :: trs).map (feeValue env)).sum := by
      rintro acc' ⟨hacc', hsum⟩
      have hih := ih hacc'
      rw [hsum, hval, add_assoc] at hih
      exact hfund.bind fun _ _ => hih
    refine .congr (d := more tr - feeValue env tr - e +
      (e + ((trs.map more).sum - (trs.map (feeValue env)).sum))) (hload.bind ?_) ?_
    · rintro _ rfl
      rw [hfee]
      exact .bind_zero (.of_shifts (.lift hadd)) hrest
    · simp only [map_cons, sum_cons]
      ring

/-- The fees of a block are paid out: they are none, or there are confidants to pay. -/
structure FeesPaid (env : LedgerEnv) (pool : Pool) (confidants : List PublicKey) : Prop where
  nonneg : 0 ≤ (pool.transactions.map (feeValue env)).sum
  payees : 0 < (pool.transactions.map (feeValue env)).sum → HasPayees pool confidants

theorem holds_loadNextBlock {step : Held → Transaction → Held → Prop} {more : Transaction → Int}
    (hstep : ∀ held tr held', step held tr held' →
      Loads env transfer s₀ held tr held' (more tr - feeValue env tr))
    {pool : Pool} {confidants : List PublicKey} (h : Steps step held pool.transactions held')
    (hpaid : FeesPaid env pool confidants) :
    Holds env.toAmount transfer s₀ (loadNextBlock env pool confidants false) held held'
      (pool.transactions.map more).sum fun _ => True := by
  refine ((holds_loadTransactions hstep h Amount.normalized_zero).bind fun fees hfees => ?_).congr
    (sub_add_cancel _ (pool.transactions.map (feeValue env)).sum)
  obtain ⟨hnorm, hval⟩ := hfees
  rw [Amount.value_zero, zero_add] at hval
  rw [← hval]
  have hnonneg := hpaid.nonneg
  have hpayees := hpaid.payees
  rw [← hval] at hnonneg hpayees
  by_cases hgt : fees.gt 0 = true
  · rw [if_pos hgt]
    have hpos : 0 < fees.value := by
      rwa [Amount.gt_iff hnorm Amount.normalized_zero, Amount.value_zero] at hgt
    obtain ⟨paid, hlen, -, hsum, hposts⟩ :=
      posts_fundConfidantsWalletsWithFee hnorm hnonneg (hpayees hpos)
    refine (holds_of_posts hposts
      (within_fundConfidantsWalletsWithFee sameRegisters_balance _ _ _ _)).congr ?_
    rw [map_snd_zip hlen.le, hsum]
  · -- without fees nothing is paid
    rw [if_neg hgt]
    have hzero : fees.value = 0 := by
      rw [Amount.gt_iff hnorm Amount.normalized_zero, Amount.value_zero, not_lt] at hgt
      omega
    exact (Carries.of_shifts (Shifts.pure trivial)).congr hzero.symm

end

/-- What the updater is given for a block. -/
structure BlockLoad where
  env : LedgerEnv
  pool : Pool
  confidants : List PublicKey

def loadBlocks (blocks : List BlockLoad) : UpdaterM Unit :=
  blocks.forM fun b => loadNextBlock b.env b.pool b.confidants false

/-- A transaction of a block with executions: a transfer, a start, or the new state of a start that
waits for one. -/
inductive Executes (env : LedgerEnv) (s₀ : WalletsCache) :
    List Transaction → Transaction → List Transaction → Prop
  | transfer {starts : List Transaction} {tr : Transaction} (h : IsTransfer env tr) :
      Executes env s₀ starts tr starts
  | start {starts : List Transaction} {tr : Transaction} (h : IsStart env tr) :
      Executes env s₀ starts tr (tr :: starts)
  | newState {starts : List Transaction} {tr init : Transaction} (h : Answers env s₀ tr init)
      (amount : tr.amount = 0) (executable : SmartContracts.isExecutable init = true)
      (start : init ∈ starts) : Executes env s₀ starts tr (starts.erase init)

/-- A block with executions, of a node that converts fees with `toAmount`. -/
structure ExecutesBlock (toAmount : AmountCommission → Option Amount) (s₀ : WalletsCache)
    (starts : List Transaction) (b : BlockLoad) (starts' : List Transaction) : Prop where
  toAmount_eq : b.env.toAmount = toAmount
  transactions : Steps (Executes b.env s₀) starts b.pool.transactions starts'
  fees : FeesPaid b.env b.pool b.confidants

def startsHeld (toAmount : AmountCommission → Option Amount) (starts : List Transaction) : Int :=
  (starts.map (startHeld toAmount)).sum

section

variable {toAmount : AmountCommission → Option Amount} {transfer : TransactionID → Transaction}
  {s₀ s : WalletsCache} {starts starts' : List Transaction} {blocks : List BlockLoad}

variable {waiting : List TransactionID}

theorem Executes.loads {env : LedgerEnv} {tr : Transaction}
    (h : Executes env s₀ starts tr starts') :
    Loads env transfer s₀ ⟨starts, waiting⟩ tr ⟨starts', waiting⟩ (0 - feeValue env tr) := by
  cases h with
  | transfer h => exact (loads_transfer h).congr (zero_sub _).symm
  | start h => exact (loads_start h).congr (zero_sub _).symm
  | newState h amount executable start =>
    refine (loads_answer h executable start).congr ?_
    rw [amount, Amount.value_zero]

theorem holds_executesBlock {b : BlockLoad} (h : ExecutesBlock toAmount s₀ starts b starts') :
    Holds toAmount transfer s₀ (loadNextBlock b.env b.pool b.confidants false) ⟨starts, waiting⟩
      ⟨starts', waiting⟩ 0 fun _ => True := by
  have hsteps : Steps (fun g tr g' => Loads b.env transfer s₀ g tr g' (0 - feeValue b.env tr))
      ⟨starts, waiting⟩ b.pool.transactions ⟨starts', waiting⟩ :=
    h.transactions.map (Held.mk · waiting) fun _ _ _ hstep => hstep.loads
  have hzero : (b.pool.transactions.map fun _ => (0 : Int)).sum = 0 := by simp
  have hblock := (holds_loadNextBlock (fun _ _ _ h => h) hsteps h.fees).congr hzero
  rwa [h.toAmount_eq] at hblock

theorem holds_loadBlocks (h : Steps (ExecutesBlock toAmount s₀) starts blocks starts') :
    Holds toAmount transfer s₀ (loadBlocks blocks) ⟨starts, waiting⟩ ⟨starts', waiting⟩ 0
      fun _ => True := by
  have hsteps : Steps (fun g (b : BlockLoad) g' => Holds toAmount transfer s₀
      (loadNextBlock b.env b.pool b.confidants false) g g' 0 fun _ => True)
      ⟨starts, waiting⟩ blocks ⟨starts', waiting⟩ :=
    h.map (Held.mk · waiting) fun _ _ _ hblock => holds_executesBlock hblock
  exact .forM (fun _ _ _ hblock => hblock) hsteps

/-- Whatever is held back at the end was there at first or has been taken from the balances. -/
theorem wp_loadBlocks (hs : s.Normalized)
    (h : Steps (ExecutesBlock toAmount s) starts blocks starts') :
    Wp (loadBlocks blocks) OnlyOverflow (fun _ t => t.Normalized ∧
      t.total + startsHeld toAmount starts' = s.total + startsHeld toAmount starts) s := by
  have htracks : Tracks s ⟨starts, s.smartPayableTransactions⟩ s :=
    ⟨hs, rfl, fun _ => List.Subset.refl _⟩
  have hholds : Holds toAmount (fun _ => .new) s (loadBlocks blocks)
      ⟨starts, s.smartPayableTransactions⟩ ⟨starts', s.smartPayableTransactions⟩ 0 fun _ => True :=
    holds_loadBlocks h
  refine (hholds s htracks).mono ?_
  rintro _ t ⟨-, ht, hmoved⟩
  refine ⟨ht.normalized, ?_⟩
  unfold startsHeld
  simp only [Held.value] at hmoved
  linarith

/-- Over any sequence of blocks with transfers, starts of executions and their new states, the sum
of all balances and of what is held back for the starts without a new state stays the same. -/
theorem loadBlocks_conserves (hs : s.Normalized)
    (h : Steps (ExecutesBlock toAmount s) starts blocks starts')
    (hoverflow : ∀ t, loadBlocks blocks s ≠ .error .overflow t) :
    ∃ t, loadBlocks blocks s = .ok () t ∧
      t.total + startsHeld toAmount starts' = s.total + startsHeld toAmount starts := by
  obtain ⟨_, t, ht, -, hsum⟩ := (wp_loadBlocks hs h).exists_ok_of fun e t he => by
    rw [he]
    exact hoverflow t
  exact ⟨t, ht, hsum⟩

theorem posts_pushCanceledSmart (contract : Address) (tid : TransactionID) :
    Posts (pushCanceledSmart contract tid) [] fun _ => True := fun s hs =>
  .modify ⟨trivial, hs, (add_zero s.book).symm⟩

theorem posts_rollback_start {env : LedgerEnv} {tr : Transaction} (fee : Amount)
    (h : IsStart env tr) : ∃ maxFee countedFee : Amount,
      maxFee.value = converted env.toAmount tr.maxFee ∧
      countedFee.value = converted env.toAmount tr.countedFee ∧
      Posts (rollbackExceededTimeoutContract env tr fee false)
        [(env.walletsIds.toPublicKey tr.source, tr.amount.value),
          (env.walletsIds.toPublicKey tr.source, maxFee.value),
          (env.walletsIds.toPublicKey tr.source, -countedFee.value)] fun _ => True := by
  obtain ⟨maxFee, hmax, hmaxnorm, hmaxval⟩ := h.maxFee.amount
  obtain ⟨countedFee, hcounted, hcountednorm, hcountedval⟩ := h.fee.amount
  refine ⟨maxFee, countedFee, hmaxval, hcountedval, ?_⟩
  unfold rollbackExceededTimeoutContract
  rw [hmax, hcounted]
  refine .seq (posts_getWalletData _) (.cons (posts_credit h.amount) fun _ _ => .lift_ok ?_)
  refine .cons (posts_credit hmaxnorm) fun _ _ => .lift_ok ?_
  refine .cons (posts_debit hcountednorm) fun _ _ => .get_bind fun s => ?_
  simp only [h.executable, Bool.not_false, if_true]
  exact posts_pushCanceledSmart _ _

/-- A start that is the only one left of those that the blocks have brought, and is cancelled: the
sum of all balances is what it was before, exactly if the start has moved no money to the
contract. -/
theorem rollback_conserves_iff {env : LedgerEnv} {start : Transaction} (fee : Amount)
    (hs : s.Normalized) (h : Steps (ExecutesBlock env.toAmount s) starts blocks starts')
    (hstart : IsStart env start) (hleft : starts'.Perm (start :: starts))
    (hoverflow : ∀ t, (do
      loadBlocks blocks
      rollbackExceededTimeoutContract env start fee false) s ≠ .error .overflow t) :
    ∃ t, (do
      loadBlocks blocks
      rollbackExceededTimeoutContract env start fee false) s = .ok () t ∧
      (t.total = s.total ↔ start.amount.value = 0) := by
  obtain ⟨maxFee, countedFee, hmax, hcounted, hposts⟩ := posts_rollback_start fee hstart
  have hwp : Wp (do
      loadBlocks blocks
      rollbackExceededTimeoutContract env start fee false) OnlyOverflow
      (fun _ t => t.total = s.total + start.amount.value) s := by
    refine .bind (wp_loadBlocks hs h) ?_
    rintro _ t ⟨ht, hsum⟩
    refine (hposts t ht).mono ?_
    rintro _ u ⟨-, -, hbook⟩
    have hleft' : startsHeld env.toAmount starts' =
        startHeld env.toAmount start + startsHeld env.toAmount starts :=
      (hleft.map (startHeld env.toAmount)).sum_eq
    grind [total_eq_degree, Ledger.degree_post, startHeld]
  obtain ⟨_, t, ht, htotal⟩ := hwp.exists_ok_of fun e t he => by
    rw [he]
    exact hoverflow t
  refine ⟨t, ht, ?_⟩
  constructor <;> intro h0 <;> linarith

end

section Sample

/-- Calls of a contract: the transactions of block 7, which move `amount` to it. -/
def demoCall (index : Sequence) (amount : Amount) : Transaction :=
  { sampleCall with id := ⟨7, index⟩, amount, maxFee := ⟨1⟩ }

/-- A node that has this block, with fees of two and maximum fees of six. -/
def demoChain (block : Pool) : LedgerEnv where
  walletsIds := .new
  loadBlock _ := block
  toAmount fee := some (if fee = ⟨1⟩ then ⟨6, 0⟩ else ⟨2, 0⟩)
  toAmount_fraction fee a h := by
    rw [← Option.some.inj h]
    split_ifs <;> decide

def demoLoad (env : LedgerEnv) (transactions : List Transaction) (confidants : List PublicKey) :
    BlockLoad := ⟨env, sampleBlock transactions 1 1, confidants⟩

def demoExecutions (amount : Amount) (realTrusted : UInt64) : List BlockLoad :=
  let block := startBlock [demoCall 0 amount, demoCall 1 0] 2 realTrusted
  [demoLoad (demoChain block) [demoCall 0 amount, demoCall 1 0] [sampleKey 9],
    demoLoad (demoChain block) [sampleNewState] [sampleKey 9]]

def demoCallingNewState : Transaction :=
  newStateWith [(-2, .string [1]), (0, .string [1])]

theorem isStart_demoCall (block : Pool) (index : Sequence) (amount : Amount)
    (hamount : amount.Normalized) (hvalid : amount.ge 0 = true) :
    IsStart (demoChain block) (demoCall index amount) := by
  refine ⟨?_, ?_, hamount, ⟨_, rfl⟩, ⟨_, rfl⟩⟩
  · unfold isExecutable Transaction.isValid
    rw [Bool.and_eq_true]
    exact ⟨hvalid, rfl⟩
  · unfold isNewState Transaction.isValid
    rw [Bool.and_eq_false_iff, Bool.and_eq_false_iff]
    exact .inl (.inr rfl)

theorem feesPaid_demoLoad (block : Pool) (transactions : List Transaction) :
    FeesPaid (demoChain block) (sampleBlock transactions 1 1) [sampleKey 9] := by
  have hmarked : 0 < (1 : UInt8).toNat ∧ (1 : UInt64).toNat.testBit 0 = true := by decide
  have hinside : ∀ i < (1 : UInt8).toNat, (1 : UInt64).toNat.testBit i = true → i < 1 := by decide
  refine ⟨sum_nonneg fun x hx => ?_, fun _ => ⟨⟨0, hmarked⟩, hinside⟩⟩
  obtain ⟨tr, -, rfl⟩ := mem_map.mp hx
  change 0 ≤ Amount.value (if tr.countedFee = ⟨1⟩ then ⟨6, 0⟩ else ⟨2, 0⟩)
  split_ifs <;> decide

theorem answers_sampleNewState :
    Answers (demoChain (startBlock [demoCall 0 ⟨5, 0⟩, demoCall 1 0] 2 1)) .new sampleNewState
      (demoCall 0 ⟨5, 0⟩) where
  newState := by decide +kernel
  notExecutable := by decide +kernel
  amount := by decide
  fee := ⟨_, rfl⟩
  execution := by decide +kernel
  payees := ⟨⟨7, 0⟩, by decide +kernel, by decide, rfl, ⟨0, by decide⟩, by decide⟩
  found := by decide +kernel
  valid := by decide
  startMaxFee := ⟨_, rfl⟩
  startFee := ⟨_, rfl⟩
  notCanceled := rfl

theorem executes_demoExecutions :
    Steps (ExecutesBlock (demoChain .new).toAmount .new) [] (demoExecutions ⟨5, 0⟩ 1)
      [demoCall 1 0] := by
  have hfirst := isStart_demoCall (startBlock [demoCall 0 ⟨5, 0⟩, demoCall 1 0] 2 1) 0 ⟨5, 0⟩
    (by decide) (by decide)
  have hsecond := isStart_demoCall (startBlock [demoCall 0 ⟨5, 0⟩, demoCall 1 0] 2 1) 1 0
    (by decide) (by decide)
  have hcalls : Steps (Executes _ .new) [] [demoCall 0 ⟨5, 0⟩, demoCall 1 0]
      [demoCall 1 0, demoCall 0 ⟨5, 0⟩] := .cons (.start hfirst) (.cons (.start hsecond) (.nil _))
  refine .cons ⟨rfl, hcalls, feesPaid_demoLoad _ _⟩
    (.cons ⟨rfl, ?_, feesPaid_demoLoad _ _⟩ (.nil _))
  have hstep : Executes _ _ [demoCall 1 0, demoCall 0 ⟨5, 0⟩] sampleNewState _ :=
    .newState answers_sampleNewState rfl hfirst.executable (by simp)
  exact .cons hstep (.nil _)

theorem loadBlocks_conserves_executions :
    ∃ t, loadBlocks (demoExecutions ⟨5, 0⟩ 1) .new = .ok () t ∧
      t.total + startsHeld (demoChain .new).toAmount [demoCall 1 0] =
        WalletsCache.new.total + startsHeld (demoChain .new).toAmount [] := by
  have hrun : returned (loadBlocks (demoExecutions ⟨5, 0⟩ 1) .new) = true := by decide +kernel
  refine loadBlocks_conserves ?_ executes_demoExecutions ?_
  · intro key data h
    cases h
  · intro t ht
    rw [ht] at hrun
    cases hrun

def demoTransferLoad (fee : Amount) (h : fee.fraction < Amount.maxFraction) (numberTrusted : UInt8)
    (confidants : List PublicKey) : BlockLoad :=
  ⟨sampleEnv fee h, sampleBlock [sampleTransfer 1 2 ⟨5, 0⟩] numberTrusted 1, confidants⟩

def demoCallingExecutions : List BlockLoad :=
  let block := startBlock [demoCall 0 0] 2 1
  [demoLoad (demoChain block) [demoCall 0 0] [sampleKey 9],
    demoLoad (demoChain block) [demoCallingNewState] [sampleKey 9]]

/-- What is needed beside the order of starts and new states: proper fractions, fees that are not
negative, confidants to pay them to, a confidant for each mark of the block of the start, and new
states that are no starts. -/
theorem loadBlocks_not_conserving :
    WalletsCache.new.total = 0 ∧
      outcome (loadBlocks [demoLoad (sampleEnv 0 (by decide))
        [sampleTransfer 1 2 ⟨0, 0xFFFFFFFFFFFFFFFF⟩] [sampleKey 9]] .new) =
        .ok 18446744073709551616 ∧
      outcome (loadBlocks [demoTransferLoad ⟨-1, 0⟩ (by decide) 1 [sampleKey 9]] .new) =
        .ok Amount.unit ∧
      outcome (loadBlocks [demoTransferLoad ⟨1, 0⟩ (by decide) 1 []] .new) = .ok (-Amount.unit) ∧
      outcome (loadBlocks [demoTransferLoad ⟨1, 0⟩ (by decide) 0 [sampleKey 9]] .new) =
        .error (.exception "Amount division by zero") ∧
      (outcome (loadBlocks (demoExecutions ⟨5, 0⟩ 3) .new) = .ok (-4500000000000000000) ∧
        startsHeld (demoChain .new).toAmount [demoCall 1 0] = 4 * Amount.unit) ∧
      outcome (loadBlocks demoCallingExecutions .new) = .ok (-3 * Amount.unit) ∧
      startHeld (demoChain .new).toAmount (demoCall 0 0) = 4 * Amount.unit ∧
      startHeld (demoChain .new).toAmount demoCallingNewState = 0 := by
  decide +kernel

def demoTimeout (amount : Amount) : UpdaterM Unit := do
  loadBlocks [demoLoad (demoChain .new) [demoCall 0 amount] [sampleKey 9]]
  rollbackExceededTimeoutContract (demoChain .new) (demoCall 0 amount) 0 false

theorem rollback_conserves_iff_nothing :
    ∃ t, demoTimeout 0 .new = .ok () t ∧
      (t.total = WalletsCache.new.total ↔ (demoCall 0 0).amount.value = 0) := by
  have hstart := isStart_demoCall .new 0 0 (by decide) (by decide)
  have hrun : returned (demoTimeout 0 .new) = true := by decide +kernel
  have hsteps : Steps (ExecutesBlock (demoChain .new).toAmount .new) []
      [demoLoad (demoChain .new) [demoCall 0 0] [sampleKey 9]] [demoCall 0 0] :=
    .cons ⟨rfl, .cons (.start hstart) (.nil _), feesPaid_demoLoad _ _⟩ (.nil _)
  refine rollback_conserves_iff 0 ?_ hsteps hstart (List.Perm.refl _) ?_
  · intro key data h
    cases h
  · intro t ht
    unfold demoTimeout at hrun
    rw [ht] at hrun
    cases hrun

/-- The sender gets the five back that the contract keeps. -/
theorem rollback_not_conserving :
    WalletsCache.new.total = 0 ∧ outcome (demoTimeout ⟨5, 0⟩ .new) = .ok (5 * Amount.unit) ∧
      ((final (demoTimeout ⟨5, 0⟩ .new)).wallet (sampleKey 2)).balance = ⟨5, 0⟩ := by
  decide +kernel

end Sample

end Updater

end CreditsNode.WalletsCache
