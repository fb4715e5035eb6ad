import CreditsNode.Lib.Reversible
import CreditsNode.Csnode.Proofs.WalletsCacheProofs
import CreditsNode.Csnode.Proofs.UpdaterFrameProofs
import Mathlib.Data.UInt

/-!
# Taking a block back

`loadNextBlock` with `inverse` set runs over the transactions in the same order as without. What it
does to the balances and to the numbers of transactions is additive, so every part of the updater
that only moves money is reversible. The registers of contract executions are not treated so:
`checkCanceledSmart` with `inverse` registers the start of every new state as cancelled.
-/

namespace CreditsNode.WalletsCache

open ByteCodec Effect List SmartContracts

variable (s : WalletsCache) (key : PublicKey)

def counts : UInt64 := (s.wallet key).transNum

variable (contract : Address)

/-- The starts of executions of a contract that were cancelled. -/
def canceled : List TransactionID :=
  (s.canceledSmarts.lookup contract).getD []

def registers : List TransactionID × AList fun _ : Address => List TransactionID :=
  (s.smartPayableTransactions, s.canceledSmarts)

/-- The balances and numbers of transactions of all wallets, and the contents of the registers. -/
structure SameAccounts (s t : WalletsCache) : Prop where
  balance : ∀ key, (t.wallet key).balance = (s.wallet key).balance
  transNum : ∀ key, (t.wallet key).transNum = (s.wallet key).transNum
  smartPayable : t.smartPayableTransactions.Perm s.smartPayableTransactions
  canceledSmarts : ∀ contract, t.canceledSmarts.lookup contract = s.canceledSmarts.lookup contract

noncomputable def account (s : WalletsCache) : (PublicKey →₀ Int) × (PublicKey → UInt64) :=
  (s.book, s.counts)

theorem counts_setWallet (data : WalletData) :
    (s.setWallet key data).counts =
      s.counts + Pi.single key (data.transNum - (s.wallet key).transNum) := by
  funext k
  rw [Pi.add_apply, counts, wallet_setWallet]
  split_ifs with h
  · rw [h, Pi.single_eq_same]
    exact (add_sub_cancel _ _).symm
  · rw [Pi.single_eq_of_ne h, add_zero]
    rfl

theorem sameAccounts_of_account {s t : WalletsCache} (hs : s.Normalized) (ht : t.Normalized)
    (hregisters : t.registers = s.registers) (haccount : t.account = s.account) :
    SameAccounts s t := by
  obtain ⟨hpayable, hcanceled⟩ := Prod.mk.inj hregisters
  obtain ⟨hbook, hcounts⟩ := Prod.mk.inj haccount
  refine ⟨fun key => ?_, fun key => congrFun hcounts key, .of_eq hpayable, fun contract => ?_⟩
  · refine Amount.value_injective (ht.wallet key) (hs.wallet key) ?_
    have hkey := DFunLike.congr_fun hbook key
    unfold book at hkey
    rw [Ledger.book_apply, Ledger.book_apply] at hkey
    rw [← balance_eq, ← balance_eq]
    exact hkey
  · have hsame : t.canceledSmarts = s.canceledSmarts := hcanceled
    rw [hsame]

namespace Updater

/-- Moves money and counts transactions, in a way that the inverse takes back. -/
abbrev Undoable {α : Type} (m : Bool → UpdaterM α) : Prop :=
  Reversible account registers Normalized (· = .overflow) m

theorem undoable_modifyWallet {key : PublicKey} {f : Bool → WalletData → WalletData} (c : UInt64)
    (hbalance : ∀ inverse data, (f inverse data).balance = data.balance)
    (hcount : ∀ inverse data, (f inverse data).transNum = data.transNum + signed inverse c) :
    Undoable fun inverse => modifyWallet key (f inverse) := by
  refine ⟨(0, Pi.single key c), some (), fun inverse g s hs => .modify ⟨rfl, ⟨?_, hs.2⟩, ?_⟩⟩
  · refine hs.1.setWallet ?_
    rw [hbalance]
    exact hs.1.wallet key
  · have hsign : signed inverse ((0, Pi.single key c) : (PublicKey →₀ Int) × (PublicKey → UInt64)) =
        (0, Pi.single key (signed inverse c)) := by
      cases inverse with
      | false => rfl
      | true => simp [signed, Pi.single_neg]
    rw [account, book_setWallet, counts_setWallet, hbalance, hcount, sub_self, Finsupp.single_zero,
      add_sub_cancel_left, hsign]
    rfl

theorem undoable_note {key : PublicKey} {f : WalletData → WalletData}
    (hbalance : ∀ data, (f data).balance = data.balance)
    (hcount : ∀ data, (f data).transNum = data.transNum) :
    Undoable fun inverse => if !inverse then modifyWallet key f else pure () := by
  refine ⟨0, some (), fun inverse g => ?_⟩
  rw [signed_zero]
  cases inverse with
  | true => exact .pure rfl
  | false =>
    intro s hs
    refine .modify ⟨rfl, ⟨hs.1.setWallet ?_, hs.2⟩, ?_⟩
    · rw [hbalance]
      exact hs.1.wallet key
    · simp_all [account, book_setWallet, counts_setWallet, sub_self, Pi.single_zero, add_zero]

theorem undoable_getWalletData : Undoable fun _ => getWalletData key :=
  undoable_modifyWallet 0 (fun _ _ => rfl) fun inverse data => by rw [signed_zero, add_zero]

theorem shifts_balance {op : Amount → Except Fault Amount} {x : Int}
    (hop : ∀ b, b.Normalized →
      Yields (op b) (· = .overflow) fun c => c.Normalized ∧ c.value = b.value + x)
    (g : List TransactionID × AList fun _ : Address => List TransactionID) :
    Shifts account (fun s => s.Normalized ∧ s.registers = g) (· = Fault.overflow) (do
      let s ← get
      let balance ← Effect.lift (op (s.wallet key).balance)
      modifyWallet key fun data => { data with balance }) (Finsupp.single key x, 0)
        (some () = some ·) := by
  intro s hs
  refine .get_bind (.yields_bind (hop _ (hs.1.wallet key)) fun b ⟨hb, hval⟩ => ?_)
  refine .modify ⟨rfl, ⟨hs.1.setWallet hb, hs.2⟩, ?_⟩
  rw [account, book_setWallet, counts_setWallet, hval, add_sub_cancel_left, sub_self,
    Pi.single_zero]
  rfl

theorem undoable_credit {x : Amount} (hx : x.Normalized) :
    Undoable fun inverse => credit inverse key x := by
  refine ⟨(Finsupp.single key x.value, 0), some (), fun inverse g => ?_⟩
  have hle := (Amount.normalized_iff.mp hx).le
  cases inverse with
  | false =>
    exact (shifts_balance _ (fun _ hb => Amount.addAssign_spec hb hle) g).imp (fun _ => .inr)
      fun _ h => h
  | true =>
    have hsub := shifts_balance key (x := -x.value)
      (fun _ hb => Amount.subAssign_spec hb hle) g
    rw [Finsupp.single_neg] at hsub
    have hneg : signed true ((Finsupp.single key x.value, 0) : (PublicKey →₀ Int) × (PublicKey →
        UInt64)) = (-Finsupp.single key x.value, 0) := by simp [signed]
    rw [hneg]
    exact hsub.imp (fun _ => .inr) fun _ h => h

theorem undoable_debit {x : Amount} (hx : x.Normalized) :
    Undoable fun inverse => debit inverse key x := by
  obtain ⟨d, r, h⟩ := undoable_credit key hx
  refine ⟨-d, r, fun inverse g => ?_⟩
  cases inverse with
  | false => exact h true g
  | true =>
    have hfalse := h false g
    rw [signed, if_pos rfl, neg_neg]
    exact hfalse

theorem normalized_of_yields {x : Except Fault Amount} {P : Amount → Prop} {a : Amount}
    (h : Yields x (· = .overflow) fun c => c.Normalized ∧ P c) (ha : x = .ok a) : a.Normalized := by
  rw [ha] at h
  exact h.1

theorem undoable_payConfidants {totalFee fee payed : Amount} {n num : Int32}
    {confidants : List PublicKey} {realTrusted : Bytes} (htotal : totalFee.Normalized)
    (hfee : fee.Normalized) (hpayed : payed.Normalized) :
    Undoable fun inverse =>
      payConfidants totalFee n inverse confidants realTrusted fee payed num := by
  induction confidants generalizing realTrusted fee payed num with
  | nil =>
    exact .pure ()
  | cons confidant confidants ih =>
    cases realTrusted with
    | nil =>
      exact .pure ()
    | cons marker realTrusted =>
      refine .ite (fun _ => ?_) fun _ => ih hfee hpayed
      refine .seq (undoable_getWalletData _) (.seq (undoable_credit _ hfee) ?_)
      refine .lift_bind fun payed' hpayed' => ?_
      have hadd := Amount.addAssign_spec hpayed (Amount.normalized_iff.mp hfee).le
      replace hpayed' := normalized_of_yields hadd hpayed'
      by_cases hl : num + 1 = n - 1
      · simp only [hl, if_true]
        have hsub := Amount.sub_spec htotal (Amount.normalized_iff.mp hpayed').le
        exact .lift_bind fun fee' hfee' => ih (normalized_of_yields hsub hfee') hpayed'
      · simp only [hl, if_false, pure_bind]
        exact ih hfee hpayed'

theorem undoable_fundConfidantsWalletsWithFee {totalFee : Amount} (confidants : List PublicKey)
    (realTrusted : Bytes) (htotal : totalFee.Normalized) :
    Undoable fun inverse =>
      fundConfidantsWalletsWithFee totalFee confidants realTrusted inverse := by
  refine .ite (fun _ => .pure ()) fun _ => .lift_bind fun fee hfee => ?_
  exact undoable_payConfidants htotal (Amount.normalized_div htotal hfee) Amount.normalized_zero

variable {tr init : Transaction} {acc : Amount}

theorem undoable_fundConfidantsWalletsWithExecFee (env : LedgerEnv)
    (hfee : (UserField.amountValue (tr.userField TrxUf.newStateFee)).Normalized) :
    Undoable fun inverse => fundConfidantsWalletsWithExecFee env tr inverse := by
  refine .ite (fun _ => .pure ()) fun _ => .lift_bind fun smartRef _ => ?_
  refine .ite (fun _ => .pure ()) fun _ => .ite (fun _ => .pure ()) fun _ => ?_
  refine .lift_bind fun fee hdiv => ?_
  exact undoable_payConfidants hfee (Amount.normalized_div hfee hdiv) Amount.normalized_zero

theorem undoable_loadTrxForTarget (env : LedgerEnv) (h : tr.amount.Normalized) :
    Undoable fun inverse => loadTrxForTarget env tr inverse := by
  simp only [loadTrxForTarget_eq]
  refine .seq (undoable_getWalletData _) (.seq (undoable_credit _ h) ?_)
  refine .seq (undoable_note (fun _ => rfl) fun _ => rfl) ?_
  refine .ite (fun _ => ?_) fun _ => .pure ()
  refine undoable_modifyWallet 1 (fun _ _ => rfl) fun inverse data => ?_
  cases inverse with
  | false => rfl
  | true => exact sub_eq_add_neg _ _

theorem undoable_countSent (tr : Transaction) :
    Undoable fun inverse => countSent key tr inverse := by
  refine undoable_modifyWallet 1 (fun inverse data => ?_) fun inverse data => ?_
  · cases inverse <;> rfl
  · cases inverse with
    | false => rfl
    | true => exact sub_eq_add_neg _ _

def AnswersStart (env : LedgerEnv) (tr init : Transaction) : Prop :=
  SmartContracts.isNewState tr = true ∧ SmartContracts.isExecutable tr = false ∧
    init.isValid = true ∧ ∃ address, initTransactionOf env tr = .ok (init, address)

theorem normalized_amount {env : LedgerEnv} {fee : AmountCommission} {a : Amount}
    (h : env.amount fee = .ok a) : a.Normalized := by
  unfold LedgerEnv.amount at h
  split at h
  · next b hb =>
    cases h
    exact env.toAmount_fraction fee _ hb
  · cases h

theorem undoable_loadNewStateForSource (env : LedgerEnv) (key : PublicKey)
    (hinit : init.isValid = false) :
    Undoable fun inverse => loadNewStateForSource env tr init key inverse := by
  unfold loadNewStateForSource
  simp only [hinit, Bool.false_eq_true, if_false]
  exact .seq (undoable_getWalletData _) (undoable_countSent _ _)

theorem undoable_loadTrxForSource (env : LedgerEnv) (h : tr.amount.Normalized)
    (hstart : ∀ init, ¬ AnswersStart env tr init) :
    Undoable fun inverse => loadTrxForSource env tr inverse := by
  unfold loadTrxForSource
  by_cases hnew : isNewState tr = true
  · simp only [hnew, if_true, Bool.not_true, Bool.false_eq_true, if_false]
    refine .lift_bind fun (init, address) hinit => ?_
    refine .seq (undoable_getWalletData _) (.ite (fun _ => ?_) fun hexec => ?_)
    · refine .lift_bind fun fee hfee => ?_
      exact .seq (undoable_debit _ (normalized_amount hfee)) (.pure _)
    · have hvalid : init.isValid = false := by
        by_contra hvalid
        exact hstart init ⟨hnew, by simpa using hexec, by simpa using hvalid, address, hinit⟩
      exact .seq (undoable_loadNewStateForSource env _ hvalid) (.pure _)
  · have hsent : Undoable fun inverse => do
        debit inverse (env.walletsIds.toPublicKey tr.source) tr.amount
        countSent (env.walletsIds.toPublicKey tr.source) tr inverse
        return tr.countedFee :=
      .seq (undoable_debit _ h) (.seq (undoable_countSent _ _) (.pure _))
    simp only [hnew, Bool.false_eq_true, if_false, pure_bind, Bool.not_false, if_true]
    refine .seq (undoable_getWalletData _) (.ite (fun _ => ?_) fun _ => ?_)
    · exact .lift_bind fun fee hfee => .seq (undoable_debit _ (normalized_amount hfee)) hsent
    · exact .lift_bind fun fee hfee => .seq (undoable_debit _ (normalized_amount hfee)) hsent

/-- The amounts that the transaction moves are normalised. -/
structure MovesNormalized (tr : Transaction) : Prop where
  amount : tr.amount.Normalized
  execFee : SmartContracts.isNewState tr = true →
    (UserField.amountValue (tr.userField TrxUf.newStateFee)).Normalized

theorem normalized_addFee {env : LedgerEnv} {acc' : Amount} {fee : AmountCommission}
    (hacc : acc.Normalized) (h : (do acc.addAssign (← env.amount fee)) = .ok acc') :
    acc'.Normalized := by
  cases hfee : env.amount fee with
  | error e =>
    rw [hfee] at h
    cases h
  | ok a =>
    rw [hfee] at h
    have hadd := Amount.addAssign_spec hacc (Amount.normalized_iff.mp (normalized_amount hfee)).le
    exact normalized_of_yields hadd h

theorem undoable_loadTransactions (env : LedgerEnv) {trs : List Transaction}
    (hacc : acc.Normalized) (h : ∀ tr ∈ trs, MovesNormalized tr)
    (hstart : ∀ tr ∈ trs, ∀ init, ¬ AnswersStart env tr init) :
    Undoable fun inverse => loadTransactions env inverse trs acc := by
  induction trs generalizing acc with
  | nil => exact .pure acc
  | cons tr trs ih =>
    obtain ⟨hamount, hexecFee⟩ := h tr mem_cons_self
    have hload : Undoable fun inverse => load env tr inverse := by
      exact .seq (undoable_loadTrxForTarget env hamount)
        (undoable_loadTrxForSource env hamount (hstart tr mem_cons_self))
    have hrest := fun {acc : Amount} (hacc : acc.Normalized) =>
      ih hacc (fun tr' htr' => h tr' (mem_cons_of_mem _ htr'))
        fun tr' htr' => hstart tr' (mem_cons_of_mem _ htr')
    refine .bind hload fun fee => .lift_bind fun acc' hacc' => ?_
    have hnorm := normalized_addFee hacc hacc'
    refine .ite (fun hnew => ?_) fun _ => hrest hnorm
    exact .seq (undoable_fundConfidantsWalletsWithExecFee env (hexecFee hnew)) (hrest hnorm)

theorem wp_loadTransactions_normalized (env : LedgerEnv) (inverse : Bool) {trs : List Transaction}
    (hacc : acc.Normalized) (s : WalletsCache) :
    Returns (loadTransactions env inverse trs acc) (fun fees _ => fees.Normalized) s := by
  induction trs generalizing acc s with
  | nil => exact hacc
  | cons tr trs ih =>
    refine .skip fun fee t => ?_
    refine .bind (P := fun acc' _ => acc'.Normalized) (.lift ?_) fun acc' u hacc' => ?_
    · cases hsum : (do acc.addAssign (← env.amount fee)) with
      | error e => trivial
      | ok acc' => exact normalized_addFee hacc hsum
    · split_ifs
      · exact .skip fun _ w => ih hacc' w
      · exact ih hacc' u

theorem undoable_loadNextBlock (env : LedgerEnv) {pool : Pool} (confidants : List PublicKey)
    (h : ∀ tr ∈ pool.transactions, MovesNormalized tr)
    (hstart : ∀ tr ∈ pool.transactions, ∀ init, ¬ AnswersStart env tr init) :
    Undoable fun inverse => loadNextBlock env pool confidants inverse := by
  refine .bind_of (undoable_loadTransactions env Amount.normalized_zero h hstart)
    (fun inverse => wp_loadTransactions_normalized env inverse Amount.normalized_zero)
      fun fees hfees => ?_
  exact .ite (fun _ => undoable_fundConfidantsWalletsWithFee _ _ hfees) fun _ => .pure ()

def KeepsCanceled (s t : WalletsCache) : Prop :=
  ∀ contract, s.canceled contract ⊆ t.canceled contract

instance instIsPreorderKeepsCanceled : IsPreorder WalletsCache KeepsCanceled where
  refl _ _ := List.Subset.refl _
  trans _ _ _ h h' contract := List.Subset.trans (h contract) (h' contract)

theorem keepsCanceled_wallets (wallets : AList fun _ : PublicKey => WalletData) :
    KeepsCanceled s { s with wallets } := fun _ => List.Subset.refl _

theorem keepsCanceled_balance (balance : Amount) :
    KeepsCanceled s (s.setWallet key { s.wallet key with balance }) := keepsCanceled_wallets s _

def withCanceled (tid : TransactionID) : WalletsCache :=
  { s with canceledSmarts := s.canceledSmarts.insert contract (tid :: s.canceled contract) }

theorem canceled_withCanceled (contract c : Address) (tid : TransactionID) :
    (withCanceled s contract tid).canceled c =
      if c = contract then tid :: s.canceled c else s.canceled c := by
  grind [canceled, withCanceled, AList.lookup_insert, AList.lookup_insert_ne]

theorem keepsCanceled_withCanceled (tid : TransactionID) :
    KeepsCanceled s (withCanceled s contract tid) := by
  intro c x hx
  rw [canceled_withCanceled]
  split_ifs
  · exact mem_cons_of_mem tid hx
  · exact hx

theorem within_rollback_inverse (env : LedgerEnv) (execFee : Amount)
    (h : isExecutable tr = false) :
    Within KeepsCanceled (rollbackExceededTimeoutContract env tr execFee true) := by
  have hcredit := within_credit keepsCanceled_balance
  refine (within_getWalletData keepsCanceled_balance _).bind fun _ => ?_
  refine (hcredit _ _ _).bind fun _ => (Within.lift _).bind fun _ =>
    (hcredit _ _ _).bind fun _ => ?_
  refine (Within.lift _).bind fun _ => (within_debit keepsCanceled_balance _ _ _).bind fun _ => ?_
  refine Within.get_bind fun s => ?_
  simp only [h, Bool.not_true, Bool.false_eq_true, and_false, if_false, if_true]
  exact Wp.set_bind (within_addBalance keepsCanceled_balance _ execFee { s with
    smartPayableTransactions := s.smartPayableTransactions ++ [tr.id] })

theorem within_checkSmartWaitingForMoney_inverse (env : LedgerEnv)
    (h : isExecutable init = false) :
    Within KeepsCanceled (checkSmartWaitingForMoney env init tr true) := by
  refine .ite (within_rollback_inverse env _ h) (.get_bind fun s => ?_)
  by_cases hmem : init.id ∈ s.smartPayableTransactions
  · simp only [hmem, if_true, Bool.not_true, Bool.false_eq_true, if_false]
    exact refl_of KeepsCanceled s
  · simp only [hmem, if_true, if_false]
    exact .set_bind (within_settleWaitingSmart keepsCanceled_balance env init tr true { s with
      smartPayableTransactions := s.smartPayableTransactions ++ [init.id] })

theorem wp_loadNewStateForSource_inverse (env : LedgerEnv) (key : PublicKey)
    (h : init.isValid = true) (s : WalletsCache) :
    Returns (loadNewStateForSource env tr init key true)
      (fun _ t => KeepsCanceled s t ∧ init.id ∈ t.canceled init.target) s := by
  rw [loadNewStateForSource_valid env tr key true h]
  refine Wp.bind (Within.lift (R := KeepsCanceled) _ |>.wp s) fun startMaxFee s₁ h₁ => ?_
  refine Wp.bind (Within.lift (R := KeepsCanceled) _ |>.wp s₁) fun startCountedFee s₂ h₂ => ?_
  refine Wp.get_bind (Wp.bind (P := fun _ t => KeepsCanceled s₂ t) ?_ fun _ s₃ h₃ => ?_)
  · exact (Within.ite (within_chargeCanceled keepsCanceled_balance _ _ _ _ _)
      (Within.pure ())).wp s₂
  refine Wp.modify_bind ?_
  have h₄ := keepsCanceled_withCanceled s₃ init.target init.id
  have hmem : init.id ∈ (withCanceled s₃ init.target init.id).canceled init.target := by
    rw [canceled_withCanceled, if_pos rfl]
    exact mem_cons_self
  have hrest : Within KeepsCanceled ((if isExecutable init then
        settleExecution env tr true key startMaxFee startCountedFee
      else checkSmartWaitingForMoney env init tr true) >>= fun _ =>
      getWalletData (env.walletsIds.toPublicKey tr.source) >>= fun _ =>
      countSent (env.walletsIds.toPublicKey tr.source) tr true) := by
    refine Within.bind ?_ fun _ => (within_getWalletData keepsCanceled_balance _).bind fun _ =>
      within_countSent (fun s _ _ _ => keepsCanceled_wallets s _) _ _ _
    split_ifs with hexec
    · exact within_settleExecution keepsCanceled_balance _ _ _ _ _ _
    · exact within_checkSmartWaitingForMoney_inverse env (by simpa using hexec)
  refine (hrest.wp (withCanceled s₃ init.target init.id)).mono fun _ t ht => ?_
  have hchain := trans_of KeepsCanceled (trans_of KeepsCanceled h₁ h₂)
      (trans_of KeepsCanceled h₃ h₄)
  exact ⟨trans_of KeepsCanceled hchain ht, ht init.target hmem⟩

def StartsCanceled (env : LedgerEnv) (trs : List Transaction) (t : WalletsCache) : Prop :=
  ∀ tr ∈ trs, ∀ init, AnswersStart env tr init → init.id ∈ t.canceled init.target

theorem wp_loadTrxForSource_inverse (env : LedgerEnv) (tr : Transaction) (s : WalletsCache) :
    Returns (loadTrxForSource env tr true)
      (fun _ t => KeepsCanceled s t ∧
        ∀ init, AnswersStart env tr init → init.id ∈ t.canceled init.target) s := by
  by_cases hanswers : isNewState tr = true ∧ isExecutable tr = false
  · obtain ⟨hnew, hexec⟩ := hanswers
    unfold loadTrxForSource
    simp only [hnew, hexec, if_true, Bool.not_true, Bool.false_eq_true, if_false]
    cases hfound : initTransactionOf env tr with
    | error e => trivial
    | ok r =>
      obtain ⟨init, address⟩ := r
      refine .lift_ok_bind rfl ?_
      refine .bind ((within_getWalletData keepsCanceled_balance _).wp s) fun _ s₁ h₁ => ?_
      refine .bind (P := fun _ t => KeepsCanceled s₁ t ∧
        (init.isValid = true → init.id ∈ t.canceled init.target)) ?_ ?_
      · by_cases hvalid : init.isValid = true
        · refine (wp_loadNewStateForSource_inverse env _ hvalid s₁).mono ?_
          exact fun _ t ht => ⟨ht.1, fun _ => ht.2⟩
        · unfold loadNewStateForSource
          simp only [hvalid, Bool.false_eq_true, if_false]
          refine ((within_getWalletData keepsCanceled_balance _).bind fun _ =>
            within_countSent (fun s _ _ _ => keepsCanceled_wallets s _) _ _ _).wp s₁ |>.mono ?_
          exact fun _ t ht => ⟨ht, fun h => h.elim⟩
      · rintro _ t ⟨ht, hregistered⟩
        refine .pure ⟨trans_of KeepsCanceled h₁ ht, ?_⟩
        rintro init' ⟨-, -, hvalid, address', hfound'⟩
        cases hfound.symm.trans hfound'
        exact hregistered hvalid
  · refine ((within_loadTrxForSource
      (fun s _ _ _ => keepsCanceled_wallets s _) env true hanswers).wp s).mono ?_
    exact fun _ t ht => ⟨ht, fun init h => absurd ⟨h.1, h.2.1⟩ hanswers⟩

theorem wp_loadTransactions_inverse (env : LedgerEnv) (trs : List Transaction) (acc : Amount)
    (s : WalletsCache) : Returns (loadTransactions env true trs acc)
      (fun _ t => KeepsCanceled s t ∧ StartsCanceled env trs t) s := by
  induction trs generalizing acc s with
  | nil => exact ⟨refl_of KeepsCanceled s, nofun⟩
  | cons tr trs ih =>
    refine Wp.bind (P := fun _ t => KeepsCanceled s t ∧
      ∀ init, AnswersStart env tr init → init.id ∈ t.canceled init.target) ?_ ?_
    · refine Wp.bind ((within_loadTrxForTarget
        (fun s _ _ _ => keepsCanceled_wallets s _) env tr true).wp s)
        fun _ s₁ h₁ => ?_
      refine (wp_loadTrxForSource_inverse env tr s₁).mono fun _ t ht => ?_
      exact ⟨trans_of KeepsCanceled h₁ ht.1, ht.2⟩
    · rintro fee t ⟨ht, hregistered⟩
      refine Wp.bind (Within.lift (R := KeepsCanceled) _ |>.wp t) fun acc' t₁ h₁ => ?_
      have hrest : ∀ t₂, KeepsCanceled t₁ t₂ →
          Returns (loadTransactions env true trs acc') (fun _ u => KeepsCanceled s u ∧
            StartsCanceled env (tr :: trs) u) t₂ := by
        intro t₂ h₂
        have hkeeps := trans_of KeepsCanceled h₁ h₂
        refine (ih acc' t₂).mono fun _ u hu => ?_
        refine ⟨trans_of KeepsCanceled (trans_of KeepsCanceled ht hkeeps) hu.1, ?_⟩
        intro tr' htr' init hinit
        rcases mem_cons.mp htr' with rfl | htr'
        · exact trans_of KeepsCanceled hkeeps hu.1 init.target (hregistered init hinit)
        · exact hu.2 tr' htr' init hinit
      split_ifs
      · refine Wp.bind ((within_fundConfidantsWalletsWithExecFee keepsCanceled_balance env tr
          true).wp t₁) fun _ t₂ h₂ => hrest t₂ h₂
      · exact hrest t₁ (refl_of KeepsCanceled t₁)

theorem wp_loadNextBlock_inverse (env : LedgerEnv) (pool : Pool) (confidants : List PublicKey)
    (s : WalletsCache) : Returns (loadNextBlock env pool confidants true)
      (fun _ t => StartsCanceled env pool.transactions t) s := by
  refine .bind (wp_loadTransactions_inverse env pool.transactions 0 s) ?_
  rintro fees t ⟨-, ht⟩
  have hpay : Within KeepsCanceled (if fees.gt 0 then fundConfidantsWalletsWithFee fees confidants
      (bitsToMask pool.numberTrusted pool.realTrusted) true else pure ()) :=
    .ite (within_fundConfidantsWalletsWithFee keepsCanceled_balance _ _ _ _) (.pure ())
  refine (hpay.wp t).mono fun _ u hu tr htr init hinit => ?_
  exact hu init.target (ht tr htr init hinit)

theorem mem_canceled_iff {s : WalletsCache} {contract : Address} {tid : TransactionID} :
    isCanceledSmart s contract tid = true ↔ tid ∈ s.canceled contract := by
  unfold isCanceledSmart canceled
  cases s.canceledSmarts.lookup contract with
  | none => simp
  | some list =>
    simp only [Option.getD_some, any_eq_true, Bool.and_eq_true, decide_eq_true_eq]
    constructor
    · rintro ⟨item, hmem, hseq, hidx⟩
      have heq : item = tid := by
        cases item
        cases tid
        simp_all
      exact heq ▸ hmem
    · exact fun h => ⟨tid, h, rfl, rfl⟩

/-- A block is taken back by applying it with `inverse` set, exactly if it has no new state whose
start is found. This is so whenever, among the starts that are found, one had not been registered as
cancelled. -/
theorem loadNextBlock_inverse_restores_iff {env : LedgerEnv} {pool : Pool}
    {confidants : List PublicKey} {s t : WalletsCache} (hs : s.Normalized)
    (hblock : ∀ tr ∈ pool.transactions, MovesNormalized tr)
    (hrun : loadNextBlock env pool confidants false s = .ok () t)
    (hoverflow : ∀ u, loadNextBlock env pool confidants true t ≠ .error .overflow u)
    (hcanceled : ∀ tr ∈ pool.transactions, ∀ init, AnswersStart env tr init →
      ∃ tr' ∈ pool.transactions, ∃ init', AnswersStart env tr' init' ∧
        isCanceledSmart s init'.target init'.id = false) :
    (∃ u, loadNextBlock env pool confidants true t = .ok () u ∧ SameAccounts s u) ↔
      ∀ tr ∈ pool.transactions, ∀ init, ¬ AnswersStart env tr init := by
  constructor
  · rintro ⟨u, hu, hsame⟩ tr htr init hinit
    obtain ⟨tr', htr', init', hinit', hnot⟩ := hcanceled tr htr init hinit
    have hregistered := (wp_loadNextBlock_inverse env pool confidants t).of_ok hu tr' htr'
        init' hinit'
    unfold canceled at hregistered
    rw [hsame.canceledSmarts init'.target] at hregistered
    exact absurd (mem_canceled_iff.mpr hregistered) (by simp [hnot])
  · intro hnone
    have hundo := (undoable_loadNextBlock env confidants hblock hnone).undo hs hrun
    cases hback : loadNextBlock env pool confidants true t with
    | error e u =>
      cases hundo.of_error hback
      exact absurd hback (hoverflow u)
    | ok a u =>
      obtain ⟨-, hnorm, hregisters, haccount⟩ := hundo.of_ok hback
      exact ⟨u, rfl, sameAccounts_of_account hs hnorm hregisters haccount⟩

section Ids

def KeepsUsed (s t : WalletsCache) : Prop := ∀ key, Continues (s.wallet key) (t.wallet key)

instance isPreorderKeepsUsed : IsPreorder WalletsCache KeepsUsed where
  refl _ _ _ hused := hused
  trans _ _ _ hst htu key id hused := htu key id (hst key id hused)

theorem keepsUsed_setWallet (data : WalletData)
    (h : Continues (s.wallet key) data) : KeepsUsed s (s.setWallet key data) := by
  intro k id hused
  rw [wallet_setWallet]
  split_ifs with hk
  · exact h id (hk ▸ hused)
  · exact hused

def Sent (env : LedgerEnv) (tr : Transaction) (s : WalletsCache) : Prop :=
  (s.wallet (env.walletsIds.toPublicKey tr.source)).trxTail.heap.Used tr.innerID

variable {env : LedgerEnv} {trs : List Transaction}

theorem within_loadTransactions_used (hplain : ∀ tr ∈ trs, isNewState tr = false)
    (inverse : Bool) (acc : Amount) : Within KeepsUsed (loadTransactions env inverse trs acc) := by
  induction trs generalizing acc with
  | nil => exact .pure acc
  | cons tr trs ih =>
    have hnew := hplain tr mem_cons_self
    have htarget := within_loadTrxForTarget keepsUsed_setWallet env tr inverse
    have hsource : Within KeepsUsed (loadTrxForSource env tr inverse) :=
      within_loadTrxForSource keepsUsed_setWallet env inverse (by simp [hnew])
    unfold loadTransactions
    simp only [hnew, Bool.false_eq_true, if_false]
    refine (htarget.bind fun _ => hsource).bind fun fee => (Within.lift _).bind fun acc' => ?_
    exact ih (fun tr htr => hplain tr (mem_cons_of_mem _ htr)) acc'

theorem within_fees_used (pool : Pool) (total : Amount) (confidants : List PublicKey)
    (inverse : Bool) : Within KeepsUsed (if total.gt 0 then fundConfidantsWalletsWithFee total
      confidants (bitsToMask pool.numberTrusted pool.realTrusted) inverse else pure ()) := by
  have hbalance := fun s key balance =>
    keepsUsed_setWallet s key { s.wallet key with balance } fun _ hused => hused
  exact .ite (within_fundConfidantsWalletsWithFee hbalance _ _ _ _) (.pure ())

theorem wp_loadTrxForSource_sent {tr : Transaction} (hnew : isNewState tr = false)
    (s : WalletsCache) : Returns (loadTrxForSource env tr false) (fun _ t => Sent env tr t) s := by
  have hsent : ∀ s, Returns (do
      debit false (env.walletsIds.toPublicKey tr.source) tr.amount
      countSent (env.walletsIds.toPublicKey tr.source) tr false
      return tr.countedFee) (fun _ t => Sent env tr t) s := by
    refine fun s => .skip fun _ u => .modify_bind (.pure ?_)
    rw [Sent, wallet_setWallet, if_pos rfl]
    exact BitHeap.used_push_self _ _
  unfold loadTrxForSource
  simp only [hnew, Bool.false_eq_true, if_false, pure_bind, Bool.not_false, if_true]
  refine .skip fun _ _ => ?_
  split_ifs
  · exact .skip fun _ _ => .skip fun _ u => hsent u
  · exact .skip fun _ _ => .skip fun _ u => hsent u

theorem wp_loadTransactions_sent (hplain : ∀ tr ∈ trs, isNewState tr = false)
    (acc : Amount) (s : WalletsCache) :
    Returns (loadTransactions env false trs acc) (fun _ t => ∀ tr ∈ trs, Sent env tr t) s := by
  induction trs generalizing acc s with
  | nil => exact Wp.pure nofun
  | cons tr trs ih =>
    have hnew := hplain tr mem_cons_self
    have hrest := fun tr htr => hplain tr (mem_cons_of_mem _ htr)
    unfold loadTransactions
    simp only [hnew, Bool.false_eq_true, if_false]
    refine Wp.bind (Wp.skip fun _ u => wp_loadTrxForSource_sent hnew u) fun fee u hu => ?_
    refine Returns.lift_bind fun acc' _ => ?_
    refine ((ih hrest acc' u).and ((within_loadTransactions_used hrest false acc').wp u)).mono ?_
    rintro _ t ⟨hsent, hkept⟩
    exact forall_mem_cons.mpr ⟨hkept _ _ hu, hsent⟩

def isAllowed (env : LedgerEnv) (s : WalletsCache) (tr : Transaction) : Bool :=
  (s.wallet (env.walletsIds.toPublicKey tr.source)).trxTail.isAllowed tr.innerID

/-- When a block has been taken back, what was allowed before is allowed again only if nothing was:
the ids of a block stay used up. -/
theorem undone_allowed_iff {pool : Pool} {confidants : List PublicKey} {s t u : WalletsCache}
    (hplain : ∀ tr ∈ pool.transactions, SmartContracts.isNewState tr = false)
    (hload : loadNextBlock env pool confidants false s = .ok () t)
    (hundo : loadNextBlock env pool confidants true t = .ok () u) :
    (∀ tr ∈ pool.transactions, isAllowed env u tr = isAllowed env s tr) ↔
      ∀ tr ∈ pool.transactions, isAllowed env s tr = false := by
  have hload' : Returns (loadNextBlock env pool confidants false)
      (fun _ t => ∀ tr ∈ pool.transactions, Sent env tr t) s :=
    .bind (wp_loadTransactions_sent hplain 0 s) fun total v hv =>
      ((within_fees_used pool total confidants false).wp v).mono fun _ w hw tr htr =>
        hw _ _ (hv tr htr)
  have hkept : Within KeepsUsed (loadNextBlock env pool confidants true) :=
    (within_loadTransactions_used hplain true 0).bind fun total => within_fees_used _ _ _ _
  have hsent := hload'.of_ok hload
  have hkept := (hkept.wp t).of_ok hundo
  have hafter : ∀ tr ∈ pool.transactions, isAllowed env u tr = false := fun tr htr =>
    TransactionsTail.not_isAllowed_of_used (hkept _ _ (hsent tr htr))
  grind

end Ids

section Sample

def returned (r : EStateM.Result Fault WalletsCache Unit) : Bool :=
  match r with
  | .ok _ _ => true
  | .error _ _ => false

theorem eq_final {r : EStateM.Result Fault WalletsCache Unit} (h : returned r = true) :
    r = .ok () (final r) := by
  cases r with
  | ok a t => rfl
  | error e t => cases h

/-- A transfer of five to a contract, the first transaction of block 7. -/
def sampleStart (fields : List (UserFieldId × UserField)) : Transaction :=
  { sampleTransfer 1 2 ⟨5, 0⟩ with id := ⟨7, 0⟩, userFields := .ofEntries fields }

/-- Calls a method of the contract. -/
def sampleCall : Transaction := sampleStart [(0, .string [1])]

/-- A new state for the execution that was started by the first transaction of block 7. -/
def newStateWith (fields : List (UserFieldId × UserField)) : Transaction :=
  { sampleTransfer 2 2 0 with
    userFields := .ofEntries (fields ++
      [(1, .string (putU64 0 ++ putU64 7 ++ putU64 0)), (2, .amount ⟨1, 0⟩)]) }

def sampleNewState : Transaction := newStateWith [(-2, .string [1])]

/-- The block of the starts, with a confidant. -/
def startBlock (starts : List Transaction) (numberTrusted : UInt8) (realTrusted : UInt64) : Pool :=
  { sampleBlock starts numberTrusted realTrusted with
    isValid := true, confidants := [sampleKey 9] }

variable (start : Transaction)

/-- A node with the transaction in its block 7, on which every fee is converted to two. -/
def sampleChain : LedgerEnv :=
  { sampleEnv ⟨2, 0⟩ (by decide) with
    loadBlock := fun _ => startBlock [start] 1 1 }

def sampleRun (inverse : Bool) (s : WalletsCache) : EStateM.Result Fault WalletsCache Unit :=
  loadNextBlock (sampleChain start) (sampleBlock [sampleNewState] 1 1) [sampleKey 9] inverse s

def sampleUndone (s : WalletsCache) : WalletsCache :=
  final (sampleRun start true (final (sampleRun start false s)))

/-- The start has been cancelled. -/
def sampleCanceled : WalletsCache :=
  withCanceled .new (.publicKey (sampleKey 2)) ⟨7, 0⟩

/-- The block is applied and taken back, and the cache is another one. -/
def NotRestored (s : WalletsCache) : Prop :=
  ∃ t u, sampleRun start false s = .ok () t ∧ sampleRun start true t = .ok () u ∧ ¬ SameAccounts s u

theorem not_restored {start : Transaction} {s : WalletsCache}
    (hrun : returned (sampleRun start false s) = true)
    (hback : returned (sampleRun start true (final (sampleRun start false s))) = true)
    (h : ¬ SameAccounts s (sampleUndone start s)) : NotRestored start s :=
  ⟨_, _, eq_final hrun, eq_final hback, h⟩

/-- A new state is not taken back: its start stays registered as cancelled; had it been cancelled
before, the sender is charged its amount; and a transfer that no contract waited for is registered
as waiting. -/
theorem loadNextBlock_inverse_not_restoring :
    NotRestored sampleCall .new ∧ NotRestored sampleCall sampleCanceled ∧
      NotRestored (sampleStart []) .new := by
  refine ⟨?_, ?_, ?_⟩
  · refine not_restored (by decide +kernel) (by decide +kernel) fun h => ?_
    have hregistered : (sampleUndone sampleCall .new).canceledSmarts.lookup
        (.publicKey (sampleKey 2)) = some [⟨7, 0⟩] := by decide +kernel
    exact absurd (hregistered.symm.trans (h.canceledSmarts _)) (by decide)
  · refine not_restored (by decide +kernel) (by decide +kernel) fun h => ?_
    have hbalance : ((sampleUndone sampleCall sampleCanceled).wallet (sampleKey 1)).balance =
        ⟨-5, 0⟩ := by decide +kernel
    exact absurd (hbalance.symm.trans (h.balance _)) (by decide)
  · refine not_restored (by decide +kernel) (by decide +kernel) fun h => ?_
    have hpayable : (sampleUndone (sampleStart []) .new).smartPayableTransactions = [⟨7, 0⟩] := by
      decide +kernel
    exact absurd (hpayable ▸ h.smartPayable) (by decide)

def callRun (inverse : Bool) (s : WalletsCache) : EStateM.Result Fault WalletsCache Unit :=
  loadNextBlock (sampleChain sampleCall) (sampleBlock [sampleTransfer 3 1 ⟨9, 0⟩, sampleCall] 1 1)
    [sampleKey 9] inverse s

theorem loadNextBlock_inverse_restores_call :
    ∃ u, callRun true (final (callRun false .new)) = .ok () u ∧ SameAccounts .new u := by
  have hplain : ∀ tr ∈ [sampleTransfer 3 1 ⟨9, 0⟩, sampleCall],
      isNewState tr = false ∧ tr.amount.Normalized ∧
        (UserField.amountValue (tr.userField TrxUf.newStateFee)).Normalized := by decide +kernel
  have hrun : returned (callRun false .new) = true := by decide +kernel
  have hback : returned (callRun true (final (callRun false .new))) = true := by decide +kernel
  have hnone : ∀ tr ∈ [sampleTransfer 3 1 ⟨9, 0⟩, sampleCall], ∀ init,
      ¬ AnswersStart (sampleChain sampleCall) tr init := by
    intro tr htr init hanswers
    have hnew := hanswers.1
    rw [(hplain tr htr).1] at hnew
    cases hnew
  refine (loadNextBlock_inverse_restores_iff (s := .new) ?_ ?_ (eq_final hrun) ?_ ?_).mpr hnone
  · intro key data h
    cases h
  · exact fun tr htr => ⟨(hplain tr htr).2.1, fun _ => (hplain tr htr).2.2⟩
  · intro u hu
    have hok := eq_final hback
    cases hu.symm.trans hok
  · exact fun tr htr init hinit => absurd hinit (hnone tr htr init)

def transferRun (inverse : Bool) (s : WalletsCache) : EStateM.Result Fault WalletsCache Unit :=
  loadNextBlock (sampleChain sampleCall) (sampleBlock [sampleTransfer 3 1 ⟨9, 0⟩] 1 1) [sampleKey 9]
    inverse s

theorem undone_allowed_iff_resent :
    ∃ u, transferRun true (final (transferRun false (final (transferRun false .new)))) = .ok () u ∧
      ∀ tr ∈ [sampleTransfer 3 1 ⟨9, 0⟩], isAllowed (sampleChain sampleCall) u tr =
        isAllowed (sampleChain sampleCall) (final (transferRun false .new)) tr := by
  have hrun := eq_final (r := transferRun false (final (transferRun false .new)))
      (by decide +kernel)
  have hback := eq_final (r := transferRun true (final (transferRun false
    (final (transferRun false .new))))) (by decide +kernel)
  exact ⟨_, hback, (undone_allowed_iff (by decide +kernel) hrun hback).mpr (by decide +kernel)⟩

/-- A transfer that was taken back with its block is refused. -/
theorem undone_transfer_refused :
    returned (transferRun true (final (transferRun false .new))) = true ∧
      isAllowed (sampleChain sampleCall) .new (sampleTransfer 3 1 ⟨9, 0⟩) = true ∧
      isAllowed (sampleChain sampleCall) (final (transferRun true (final (transferRun false .new))))
        (sampleTransfer 3 1 ⟨9, 0⟩) = false := by
  decide +kernel

end Sample

end Updater

end CreditsNode.WalletsCache
