import CreditsNode.Csnode.Proofs.ExecutionProofs

/-!
# The money of payable contracts

A transfer to a payable contract starts an execution as well. `invokeReplenishPayableContract` takes
the money from the contract and the maximum fee from the sender; the new state releases it, to the
contract if the state was updated and to the sender if it was not. In the second case nobody is
charged the fee of the new state, which the confidants of its block are paid all the same.
-/

namespace CreditsNode.WalletsCache

open ByteCodec Effect

open AmountCommission (converted)

namespace Updater

def totalWithWaiting (toAmount : AmountCommission → Option Amount)
    (transfer : TransactionID → Transaction) (s : WalletsCache) : Int :=
  s.total + (s.smartPayableTransactions.map fun id => transferHeld toAmount (transfer id)).sum

/-- A transfer that a contract can wait for. -/
structure IsPayment (env : LedgerEnv) (tr : Transaction) : Prop where
  notExecutable : SmartContracts.isExecutable tr = false
  amount : tr.amount.Normalized
  maxFee : Converts env tr.maxFee
  fee : Converts env tr.countedFee

section

variable {env : LedgerEnv} {transfer : TransactionID → Transaction} {s₀ s : WalletsCache}
  {held held' : Held} {tr init : Transaction}

variable {toAmount : AmountCommission → Option Amount} {x : Amount} {waiting : List TransactionID}

theorem holds_credit (key : PublicKey) (hx : x.Normalized) :
    Holds toAmount transfer s₀ (credit false key x) held held x.value fun _ => True :=
  (holds_of_posts (posts_credit hx) (within_credit sameRegisters_balance _ _ _)).congr (add_zero _)

theorem holds_debit (key : PublicKey) (hx : x.Normalized) :
    Holds toAmount transfer s₀ (debit false key x) held held (-x.value) fun _ => True :=
  (holds_of_posts (posts_debit hx) (within_debit sameRegisters_balance _ _ _)).congr (add_zero _)

theorem holds_register (id : TransactionID) :
    Holds toAmount transfer s₀ (modify fun s => { s with
      smartPayableTransactions := s.smartPayableTransactions ++ [id] }) held
      { held with waiting := held.waiting ++ [id] } (transferHeld toAmount (transfer id))
      fun _ => True := by
  intro s hs
  refine .modify ⟨trivial, ⟨hs.normalized, by rw [hs.waiting], hs.canceled⟩, ?_⟩
  change s.total + _ = _
  grind [Held.value]

theorem holds_invokeReplenishPayableContract (h : IsPayment env tr) (hid : transfer tr.id = tr) :
    Holds env.toAmount transfer s₀ (invokeReplenishPayableContract env tr false) held
      { held with waiting := held.waiting ++ [tr.id] } 0 fun _ => True := by
  obtain ⟨maxFee, hmax, hmaxnorm, hmaxval⟩ := h.maxFee.amount
  obtain ⟨countedFee, hcounted, hcountednorm, hcountedval⟩ := h.fee.amount
  unfold invokeReplenishPayableContract
  simp only [h.notExecutable, Bool.not_false, if_true, hmax, hcounted, Effect.lift_ok_bind]
  refine .congr (.bind_zero (holds_getWalletData _) fun _ _ =>
    (holds_debit _ h.amount).bind fun _ _ => (holds_register _).bind fun _ _ =>
    .bind_zero (holds_getWalletData _) fun _ _ => (holds_credit _ hcountednorm).bind fun _ _ =>
    holds_debit _ hmaxnorm) ?_
  rw [hid, hmaxval, hcountedval]
  unfold transferHeld startHeld
  ring

def release (s : WalletsCache) (id : TransactionID) : WalletsCache :=
  { s with smartPayableTransactions := s.smartPayableTransactions.erase id }

theorem carries_release {m : UpdaterM Unit} {d : Int}
    (hwaits : init.id ∈ held.waiting) (hid : transfer init.id = init)
    (hm : ∀ g, Holds env.toAmount transfer s₀ m g g d fun _ => True) (hs : Tracks s₀ held s) :
    Wp m (fun e _ => e = .overflow) (fun _ t => True ∧
      Tracks s₀ { held with waiting := held.waiting.erase init.id } t ∧
      t.total + Held.value env.toAmount transfer
        { held with waiting := held.waiting.erase init.id } =
        s.total + Held.value env.toAmount transfer held + (d - transferHeld env.toAmount init))
      (release s init.id) := by
  have htracks : Tracks s₀ { held with waiting := held.waiting.erase init.id }
      (release s init.id) :=
    ⟨hs.normalized, by rw [release, hs.waiting], hs.canceled⟩
  have herase := List.sum_map_erase (fun id => transferHeld env.toAmount (transfer id)) hwaits
  refine (hm _ _ htracks).mono ?_
  rintro _ t ⟨-, ht, hmoved⟩
  refine ⟨trivial, ht, ?_⟩
  have htotal : (release s init.id).total = s.total := rfl
  simp only [Held.value, hid] at herase ⊢
  linarith

theorem holds_subBalance (key : PublicKey) (hx : x.Normalized) :
    Holds toAmount transfer s₀ (subBalance key x) held held (-x.value) fun _ => True :=
  holds_debit key hx

/-- A state that was not updated: the sender gets the money back, less the execution fee. -/
theorem holds_rollback_payment {fee : Amount} (h : IsPayment env init) (hfee : fee.Normalized)
    (hwaits : init.id ∈ held.waiting) (hid : transfer init.id = init) :
    Holds env.toAmount transfer s₀ (rollbackExceededTimeoutContract env init fee false) held
      { held with waiting := held.waiting.erase init.id } (-fee.value) fun _ => True := by
  obtain ⟨maxFee, hmax, hmaxnorm, hmaxval⟩ := h.maxFee.amount
  obtain ⟨countedFee, hcounted, hcountednorm, hcountedval⟩ := h.fee.amount
  unfold rollbackExceededTimeoutContract
  simp only [hmax, hcounted, Effect.lift_ok_bind]
  refine .congr (d := init.amount.value + (maxFee.value + (-countedFee.value +
    (-fee.value - transferHeld env.toAmount init)))) (.bind_zero (holds_getWalletData _) fun _ _ =>
    (holds_credit _ h.amount).bind fun _ _ => (holds_credit _ hmaxnorm).bind fun _ _ =>
    (holds_debit _ hcountednorm).bind fun _ _ => ?_) ?_
  · intro s hs
    refine .get_bind ?_
    have hmem : init.id ∈ s.smartPayableTransactions := hs.waiting ▸ hwaits
    simp only [h.notExecutable, hmem, Bool.false_eq_true, if_false, Bool.not_false, and_self,
      if_true]
    exact .set_bind (carries_release hwaits hid (fun g => holds_subBalance _ hfee) hs)
  · rw [hmaxval, hcountedval]
    unfold transferHeld startHeld
    ring

theorem holds_settleWaitingSmart (h : IsPayment env init) (hfee : Converts env tr.countedFee)
    (hexecFee : (execFee tr).Normalized) :
    Holds env.toAmount transfer s₀ (settleWaitingSmart env init tr false) held held
      (transferHeld env.toAmount init - feeValue env tr - (execFee tr).value) fun _ => True := by
  obtain ⟨maxFee, hmax, hmaxnorm, hmaxval⟩ := h.maxFee.amount
  obtain ⟨countedFee, hcounted, hcountednorm, hcountedval⟩ := h.fee.amount
  obtain ⟨fee, hamount, hnorm, hval⟩ := hfee.amount
  unfold settleWaitingSmart
  simp only [hmax, hcounted, hamount, Effect.lift_ok_bind]
  refine .congr (.bind_zero (holds_getWalletData _) fun _ _ =>
    (holds_debit _ hexecFee).bind fun _ _ => (holds_debit _ hcountednorm).bind fun _ _ =>
    (holds_credit _ hmaxnorm).bind fun _ _ => (holds_debit _ hnorm).bind fun _ _ =>
    .bind_zero (holds_getWalletData _) fun _ _ => holds_credit _ h.amount) ?_
  have hfee' : feeValue env tr = converted env.toAmount tr.countedFee := rfl
  rw [hmaxval, hcountedval, hval, hfee']
  unfold transferHeld startHeld
  ring

def uncharged (env : LedgerEnv) (tr : Transaction) : Int :=
  if SmartContracts.isStateUpdated tr then 0 else feeValue env tr

theorem holds_checkSmartWaitingForMoney (h : Answers env s₀ tr init) (hpayment : IsPayment env init)
    (hwaits : init.id ∈ held.waiting) (hid : transfer init.id = init) :
    Holds env.toAmount transfer s₀ (checkSmartWaitingForMoney env init tr false) held
      { held with waiting := held.waiting.erase init.id }
      (uncharged env tr - feeValue env tr - (execFee tr).value) fun _ => True := by
  unfold checkSmartWaitingForMoney uncharged
  by_cases hupdated : SmartContracts.isStateUpdated tr = true
  · simp only [hupdated, Bool.not_true, Bool.false_eq_true, if_false, if_true]
    intro s hs
    refine .get_bind ?_
    have hmem : init.id ∈ s.smartPayableTransactions := hs.waiting ▸ hwaits
    simp only [hmem, if_true, Bool.not_false]
    refine .set_bind ((carries_release hwaits hid (fun g =>
      holds_settleWaitingSmart hpayment h.fee h.execution) hs).mono ?_)
    rintro _ t ⟨-, ht, hmoved⟩
    refine ⟨trivial, ht, ?_⟩
    rw [hmoved]
    ring
  · simp only [hupdated, Bool.not_false, if_true, Bool.false_eq_true, if_false]
    exact (holds_rollback_payment hpayment h.execution hwaits hid).congr (by ring)

/-- What a transaction adds to the money: a new state its amount, which no one is charged, and its
fee if it is not charged either. -/
def added (env : LedgerEnv) (tr : Transaction) : Int :=
  if SmartContracts.isNewState tr then tr.amount.value + uncharged env tr else 0

/-- A transaction of a block with replenishments: a transfer, or the new state of a transfer that is
waited for. -/
inductive Replenishes (env : LedgerEnv) (transfer : TransactionID → Transaction)
    (s₀ : WalletsCache) : List TransactionID → Transaction → List TransactionID → Prop
  | transfer {waiting : List TransactionID} {tr : Transaction} (h : IsTransfer env tr) :
      Replenishes env transfer s₀ waiting tr waiting
  | newState {waiting : List TransactionID} {tr init : Transaction} (h : Answers env s₀ tr init)
      (payment : IsPayment env init) (id : transfer init.id = init) (waits : init.id ∈ waiting) :
      Replenishes env transfer s₀ waiting tr (waiting.erase init.id)

theorem Replenishes.loads {starts : List Transaction} {waiting' : List TransactionID}
    (h : Replenishes env transfer s₀ waiting tr waiting') :
    Loads env transfer s₀ ⟨starts, waiting⟩ tr ⟨starts, waiting'⟩
      (added env tr - feeValue env tr) := by
  unfold added
  cases h with
  | transfer h =>
    rw [h.notNewState, if_neg Bool.false_ne_true, zero_sub]
    exact loads_transfer h
  | newState h payment id waits =>
    rw [h.newState, if_pos rfl]
    refine (h.loads (d := uncharged env tr - feeValue env tr - (execFee tr).value)
      fun _ _ _ _ => ?_).congr (by ring)
    unfold settleNewState
    rw [payment.notExecutable, if_neg Bool.false_ne_true]
    have hwaits : _ ∈ (Held.mk starts waiting).waiting := waits
    exact holds_checkSmartWaitingForMoney h payment hwaits id

theorem tracks_self (hs : s.Normalized) : Tracks s ⟨[], s.smartPayableTransactions⟩ s :=
  ⟨hs, rfl, fun _ => List.Subset.refl _⟩

theorem totalWithWaiting_eq (hs : Tracks s₀ ⟨[], waiting⟩ s) :
    totalWithWaiting toAmount transfer s = s.total +
      Held.value toAmount transfer ⟨[], waiting⟩ := by
  have hwaiting : s.smartPayableTransactions = waiting := hs.waiting
  unfold totalWithWaiting Held.value
  rw [hwaiting, List.map_nil, List.sum_nil, zero_add]

theorem wp_invokeReplenishPayableContract (hs : s.Normalized) (h : IsPayment env tr)
    (hid : transfer tr.id = tr) :
    Wp (invokeReplenishPayableContract env tr false) OnlyOverflow (fun _ t =>
      totalWithWaiting env.toAmount transfer t = totalWithWaiting env.toAmount transfer s) s := by
  have htracks := tracks_self hs
  refine (holds_invokeReplenishPayableContract h hid s htracks).mono ?_
  grind [totalWithWaiting_eq]

theorem wp_loadNextBlock_replenishes {pool : Pool} {confidants : List PublicKey} (hs : s.Normalized)
    (h : Steps (Replenishes env transfer s) s.smartPayableTransactions pool.transactions waiting)
    (hpaid : FeesPaid env pool confidants) :
    Wp (loadNextBlock env pool confidants false) OnlyOverflow (fun _ t =>
      totalWithWaiting env.toAmount transfer t = totalWithWaiting env.toAmount transfer s +
        (pool.transactions.map (added env)).sum) s := by
  have htracks := tracks_self hs
  have hsteps : Steps (fun g tr g' => Loads env transfer s g tr g' (added env tr - feeValue env tr))
      ⟨[], s.smartPayableTransactions⟩ pool.transactions ⟨[], waiting⟩ :=
    h.map (Held.mk []) fun _ _ _ hstep => hstep.loads
  refine (holds_loadNextBlock (fun _ _ _ h => h) hsteps hpaid s htracks).mono ?_
  rintro _ t ⟨-, ht, hmoved⟩
  rw [totalWithWaiting_eq ht, totalWithWaiting_eq htracks, hmoved]

/-- The replenishment holds back what it takes. A block with new states of replenishments, at any
later time, releases it, and keeps the sum of the balances and what is held back exactly if what the
new states add is nothing: amounts, and the fees of those that did not update the state. -/
theorem replenishment_conserves_iff {env' : LedgerEnv} {pool : Pool} {confidants : List PublicKey}
    {waiting : List TransactionID} {s' : WalletsCache} (hs : s.Normalized) (h : IsPayment env tr)
    (hid : transfer tr.id = tr)
    (hoverflow : ∀ t, invokeReplenishPayableContract env tr false s ≠ .error .overflow t)
    (hs' : s'.Normalized)
    (hblock : Steps (Replenishes env' transfer s') s'.smartPayableTransactions pool.transactions
      waiting) (hpaid : FeesPaid env' pool confidants)
    (hoverflow' : ∀ t, loadNextBlock env' pool confidants false s' ≠ .error .overflow t) :
    (∃ t, invokeReplenishPayableContract env tr false s = .ok () t ∧
      totalWithWaiting env.toAmount transfer t = totalWithWaiting env.toAmount transfer s) ∧
    ∃ t, loadNextBlock env' pool confidants false s' = .ok () t ∧
      (totalWithWaiting env'.toAmount transfer t = totalWithWaiting env'.toAmount transfer s' ↔
        (pool.transactions.map (added env')).sum = 0) := by
  constructor
  · obtain ⟨_, t, ht, hsum⟩ := (wp_invokeReplenishPayableContract hs h hid).exists_ok_of
      fun e t he => by
        rw [he]
        exact hoverflow t
    exact ⟨t, ht, hsum⟩
  · obtain ⟨_, t, ht, hsum⟩ := (wp_loadNextBlock_replenishes hs' hblock hpaid).exists_ok_of
      fun e t he => by
        rw [he]
        exact hoverflow' t
    refine ⟨t, ht, ?_⟩
    rw [hsum]
    exact add_eq_left

end

section Sample

/-- A transfer of five to a contract, in block 7. -/
def demoPayment : Transaction := { demoCall 0 ⟨5, 0⟩ with userFields := .ofEntries [] }

/-- A node that has the transfer in its block 7. -/
def demoPaymentChain : LedgerEnv := demoChain (startBlock [demoPayment] 2 1)

def demoNewState (value : Bytes) : Transaction := newStateWith [(-2, .string value)]

def demoWaiting : WalletsCache :=
  final (invokeReplenishPayableContract demoPaymentChain demoPayment false .new)

def demoReplenishRun (value : Bytes) : EStateM.Result Fault WalletsCache Unit :=
  loadNextBlock demoPaymentChain (sampleBlock [demoNewState value] 1 1)
    [sampleKey 9] false demoWaiting

def demoSum (s : WalletsCache) : Int :=
  totalWithWaiting demoPaymentChain.toAmount (fun _ => demoPayment) s

theorem isPayment_demoPayment : IsPayment demoPaymentChain demoPayment :=
  ⟨by decide, by decide, ⟨_, rfl⟩, ⟨_, rfl⟩⟩

theorem normalized_new : WalletsCache.new.Normalized := by
  intro key data h
  cases h

theorem returned_demoWaiting :
    returned (invokeReplenishPayableContract demoPaymentChain demoPayment false .new) = true := by
  decide +kernel

theorem tracks_demoWaiting : Tracks .new ⟨[], [demoPayment.id]⟩ demoWaiting := by
  have hholds : Holds demoPaymentChain.toAmount (fun _ => demoPayment) .new
      (invokeReplenishPayableContract demoPaymentChain demoPayment false) ⟨[], []⟩
      ⟨[], [] ++ [demoPayment.id]⟩ 0 fun _ => True :=
    holds_invokeReplenishPayableContract isPayment_demoPayment rfl
  exact ((hholds .new (tracks_self normalized_new)).of_ok (eq_final returned_demoWaiting)).2.1

theorem answers_demoNewState :
    Answers demoPaymentChain demoWaiting (demoNewState [1]) demoPayment where
  newState := by decide +kernel
  notExecutable := by decide +kernel
  amount := by decide
  fee := ⟨_, rfl⟩
  execution := by decide +kernel
  payees := ⟨⟨7, 0⟩, by decide +kernel, by decide, rfl, ⟨0, by decide⟩, by decide⟩
  found := by decide +kernel
  valid := by decide
  startMaxFee := ⟨_, rfl⟩
  startFee := ⟨_, rfl⟩
  notCanceled := tracks_demoWaiting.notCanceled rfl

theorem replenishment_conserves_iff_updated :
    (∃ t, invokeReplenishPayableContract demoPaymentChain demoPayment false .new = .ok () t ∧
      demoSum t = demoSum .new) ∧
    ∃ t, demoReplenishRun [1] = .ok () t ∧ (demoSum t = demoSum demoWaiting ↔
      ([demoNewState [1]].map (added demoPaymentChain)).sum = 0) := by
  have hwaits : demoPayment.id ∈ demoWaiting.smartPayableTransactions := by
    exact List.mem_singleton_self _
  have hrun : returned (demoReplenishRun [1]) = true := by decide +kernel
  refine replenishment_conserves_iff normalized_new isPayment_demoPayment rfl ?_
    tracks_demoWaiting.normalized
    (.cons (.newState answers_demoNewState isPayment_demoPayment rfl hwaits) (.nil _))
    (feesPaid_demoLoad _ _) ?_
  · intro t ht
    have hinvoked := returned_demoWaiting
    rw [ht] at hinvoked
    cases hinvoked
  · intro t ht
    unfold demoReplenishRun at hrun
    rw [ht] at hrun
    cases hrun

/-- If the state was not updated, the fee of the new state comes from nowhere. -/
theorem replenishment_not_conserving :
    demoSum demoWaiting = 0 ∧ returned (demoReplenishRun []) = true ∧
      demoSum (final (demoReplenishRun [])) = 2 * Amount.unit := by
  decide +kernel

end Sample

end Updater

end CreditsNode.WalletsCache
