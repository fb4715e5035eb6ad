import CreditsNode.Csdb.Proofs.AmountLawProofs
import CreditsNode.Csnode.Proofs.GraphRuleProofs
import CreditsNode.Csnode.Proofs.WalletsCacheProofs

/-!
# The validator and the wallets cache

The validator computes balances with binary plus and minus, the cache with `+=` and `-=`. The
validation of a round is followed as a journal of movements. The exact numbers are the same on both
sides; the forms differ for a wallet with a whole number if the last fraction moved on it was added,
because binary plus then leaves a fraction of one.
-/

namespace CreditsNode.TransactionsValidator

open Effect List WalletsCache.Updater IterValidator

open ThreadedList (cellAfter)

open AmountCommission (converted)

/-- The last movement of a fraction is a credit. -/
def EndsWithCredit (ms : List Movement) : Prop :=
  ∃ x, (ms.filter fun m => m.amount.fraction ≠ 0).getLast? = some (.credit x)

section EndsWithCredit

variable {ms : List Movement} {m : Movement}

theorem endsWithCredit_concat_whole (hm : m.amount.fraction = 0) :
    EndsWithCredit (ms ++ [m]) ↔ EndsWithCredit ms := by
  unfold EndsWithCredit
  simp [hm]

theorem getLast?_filter_concat (hm : m.amount.fraction ≠ 0) :
    ((ms ++ [m]).filter fun m => m.amount.fraction ≠ 0).getLast? = some m := by
  simp [hm]

theorem not_endsWithCredit (h : ∀ m ∈ ms, m.amount.fraction = 0) : ¬ EndsWithCredit ms := by
  rintro ⟨x, hx⟩
  have hmem := mem_filter.mp (mem_of_getLast? hx)
  simp [h _ hmem.1] at hmem

theorem overhang_step {b c : Amount} (hb : b.Proper)
    (hinv : ¬ b.Normalized ↔ Amount.unit ∣ b.value ∧ EndsWithCredit ms) (hm : m.amount.Normalized)
    (h : m.apply b = .ok c) :
    ¬ c.Normalized ↔ Amount.unit ∣ c.value ∧ EndsWithCredit (ms ++ [m]) := by
  have hc := ((Movement.apply_spec hb hm.proper).of_ok h).1
  by_cases hwhole : m.amount.fraction = 0
  · -- a whole number leaves the fraction as it is
    have hzero : m.amount.fraction.toNat = 0 := by rw [hwhole]; rfl
    have hfraction : c.fraction.toNat = b.fraction.toNat := by
      cases m with
      | credit x => exact Amount.add_whole hb hzero h
      | debit x => exact Amount.sub_whole hb hzero h
    rw [endsWithCredit_concat_whole hwhole, hc.not_normalized_iff, Amount.unit_dvd_value_iff,
      hfraction, ← Amount.unit_dvd_value_iff, ← hb.not_normalized_iff]
    exact hinv
  · have hne : m.amount.fraction.toNat ≠ 0 := fun he => hwhole (UInt64.toNat_inj.mp he)
    have hlast : ((ms ++ [m]).filter fun m => m.amount.fraction ≠ 0).getLast? = some m :=
      getLast?_filter_concat hwhole
    cases m with
    | credit x =>
      rw [Amount.not_normalized_add_iff hb hm hne h]
      exact ⟨fun hdvd => ⟨hdvd, x, hlast⟩, fun hdvd => hdvd.1⟩
    | debit x =>
      refine ⟨fun hnot => absurd (Amount.normalized_sub hb hm hne h) hnot, ?_⟩
      rintro ⟨-, y, hy⟩
      rw [hlast] at hy
      cases hy

/-- Movements leave a fraction of one exactly on a whole number on which the last fraction was
added. -/
theorem overhang_iff {es : List (PublicKey × Movement)} {k : PublicKey} {b c : Amount}
    (hb : b.Normalized) (hes : ∀ e ∈ es, e.2.amount.Normalized)
    (h : Journal.replay (fun b m => Movement.apply m b) k es b = .ok c) :
    ¬ c.Normalized ↔ Amount.unit ∣ c.value ∧ EndsWithCredit (Journal.ofAccount k es) := by
  have hinv : c.Proper ∧
      (¬ c.Normalized ↔ Amount.unit ∣ c.value ∧ EndsWithCredit (Journal.ofAccount k es)) := by
    refine Journal.invariant
      (I := fun ms b => b.Proper ∧ (¬ b.Normalized ↔ Amount.unit ∣ b.value ∧ EndsWithCredit ms))
      ⟨hb.proper, ?_⟩ ?_ h
    · grind [not_endsWithCredit]
    · rintro ms m hm b c ⟨hproper, hiff⟩ hstep
      have hmnorm := hes _ hm
      exact ⟨((Movement.apply_spec hproper hmnorm.proper).of_ok hstep).1,
        overhang_step hproper hiff hmnorm hstep⟩
  exact hinv.2

end EndsWithCredit

section Journaled

variable (ctx : SolverContext) (trxs : List Transaction)

def feeAmount (trx : Transaction) : Amount := (ctx.toAmount trx.countedFee).getD 0

def enteredTrxs (s : TransactionsValidator) (done : ℕ) : List ℕ :=
  (List.range done).filter fun i =>
    s.maskIncluded[i]? = some .none ∨ s.maskIncluded[i]? = some .negativeResult

/-- What is left of the entered transfers. -/
def rest (entered takenBack : List ℕ) : Finset ℕ := entered.toFinset \ takenBack.toFinset

/-- Transfers that can be taken back, in order: each is one of the rest, and the exact balance of
its source is not positive at this point. -/
inductive TakenBack (entered : List ℕ) : List ℕ → Prop
  | nil : TakenBack entered []
  | concat {takenBack : List ℕ} {i : ℕ} : TakenBack entered takenBack → i ∈ rest entered takenBack →
    exactBalance ctx trxs (rest entered takenBack) (ctx.toPublicKey (trxAt trxs i).source) ≤ 0 →
    TakenBack entered (takenBack ++ [i])

/-- The movements of the transfers entered and of those taken back. -/
def journal (entered takenBack : List ℕ) : List (PublicKey × Movement) :=
  (entered.flatMap fun i => entering ctx (trxAt trxs i) (feeAmount ctx (trxAt trxs i))) ++
    takenBack.flatMap fun i => takingBack ctx (ctx.toPublicKey (trxAt trxs i).source) (trxAt trxs i)
      (feeAmount ctx (trxAt trxs i))

/-- The state after `done` transactions of the block, with the journal of what has been done. -/
structure Journaled (start : TransactionsValidator) (done : ℕ) (takenBack : List ℕ)
    (s : TransactionsValidator) : Prop where
  settled : Settled ctx trxs done s
  replays : Replays ctx start s (journal ctx trxs (s.enteredTrxs done) takenBack)
  legal : TakenBack ctx trxs (s.enteredTrxs done) takenBack
  live : s.live done = rest (s.enteredTrxs done) takenBack
  converts : ∀ i ∈ s.live done, ∃ a, ctx.toAmount (trxAt trxs i).countedFee = some a

variable {ctx trxs} {start s t : TransactionsValidator} {done i : ℕ} {takenBack : List ℕ}
  {trx : Transaction} {node : PublicKey}

theorem rest_concat {entered : List ℕ} :
    rest entered (takenBack ++ [i]) = (rest entered takenBack).erase i := by
  unfold rest
  ext j
  simp only [Finset.mem_sdiff, Finset.mem_erase, mem_toFinset, mem_append, mem_singleton]
  tauto

theorem journal_concat_takenBack {entered : List ℕ} :
    journal ctx trxs entered (takenBack ++ [i]) = journal ctx trxs entered takenBack ++
      takingBack ctx (ctx.toPublicKey (trxAt trxs i).source) (trxAt trxs i)
        (feeAmount ctx (trxAt trxs i)) := by
  unfold journal
  rw [flatMap_append, flatMap_singleton, append_assoc]

theorem journal_concat_entered {entered : List ℕ} :
    journal ctx trxs (entered ++ [i]) [] = journal ctx trxs entered [] ++
      entering ctx (trxAt trxs i) (feeAmount ctx (trxAt trxs i)) := by
  grind [journal]

variable {fee : Amount}

theorem feeAmount_of_amount (h : ctx.amount trx.countedFee = .ok fee) :
    ctx.toAmount trx.countedFee = some fee ∧ feeAmount ctx trx = fee ∧
      converted ctx.toAmount trx.countedFee = fee.value := by
  have hfee := toAmount_of_amount h
  unfold feeAmount converted
  rw [hfee]
  exact ⟨rfl, rfl, rfl⟩

theorem transferFee_eq (htrx : NoContract ctx trx) :
    transferFee ctx trx = ctx.amount trx.countedFee := by
  unfold transferFee
  rw [htrx.target]
  rfl

theorem Journaled.congr (hs : Journaled ctx trxs start done takenBack s)
    (ht : Settled ctx trxs done t) (hmask : t.maskIncluded = s.maskIncluded)
    (hbalance : ∀ k, (t.wallet ctx k).balance = (s.wallet ctx k).balance) :
    Journaled ctx trxs start done takenBack t := by
  have hentered : t.enteredTrxs done = s.enteredTrxs done := by
    unfold enteredTrxs
    rw [hmask]
  refine ⟨ht, ?_, ?_, ?_, ?_⟩
  · rw [hentered]
    exact hs.replays.congr hbalance
  · rw [hentered]
    exact hs.legal
  · rw [hentered, live_congr hmask]
    exact hs.live
  · rw [live_congr hmask]
    exact hs.converts

theorem Journaled.untouched (hs : Journaled ctx trxs start done takenBack s)
    (h : Untouched ctx s t) : Journaled ctx trxs start done takenBack t :=
  hs.congr (h.settled hs.settled) h.keepsLists.maskIncluded fun k => by rw [h.wallet]

section TakeBack

variable (hlive : i ∈ s.live done) (hmask : t.maskIncluded = s.maskIncluded.set i .negativeResult)

include hlive hmask

theorem getElem?_tookBack_self : t.maskIncluded[i]? = some .negativeResult := by
  obtain ⟨hlt, -⟩ := List.getElem?_eq_some_iff.mp (mem_live.mp hlive).2
  rw [hmask, List.getElem?_set_self hlt]

theorem enteredTrxs_tookBack : t.enteredTrxs done = s.enteredTrxs done := by
  refine filter_congr fun j _ => ?_
  by_cases hj : j = i
  · subst hj
    rw [getElem?_tookBack_self hlive hmask, (mem_live.mp hlive).2]
    rfl
  · rw [hmask, List.getElem?_set_ne (Ne.symm hj)]

end TakeBack

theorem Journaled.tookBack {pre post : List ℕ} (hs : Journaled ctx trxs start done takenBack s)
    (hnode : Outgoing ctx trxs done s node (pre ++ i :: post))
    (hneg : ¬ (s.wallet ctx node).balance.ge 0 = true) (htrx : trxAt trxs i = trx)
    (hfee : ctx.amount trx.countedFee = .ok fee)
    (h : TookBack ctx s t node (cellAfter none pre) i trx fee.value)
    (hreplays : Replays ctx s t (takingBack ctx node trx fee)) :
    Journaled ctx trxs start done (takenBack ++ [i]) t := by
  obtain ⟨-, hamount, hvalue⟩ := feeAmount_of_amount hfee
  obtain ⟨hlive, hsource⟩ := (hnode.mem_iff i).mp (by simp)
  have hkey : ctx.toPublicKey (trxAt trxs i).source = node := hsource
  have hentered := enteredTrxs_tookBack hlive h.maskIncluded
  refine ⟨hs.settled.tookBack hnode htrx (hvalue ▸ h), ?_, ?_, ?_, fun j hj => ?_⟩
  · rw [hentered, journal_concat_takenBack, hkey, htrx, hamount]
    exact hs.replays.append hreplays
  · rw [hentered]
    refine hs.legal.concat (hs.live ▸ hlive) ?_
    rw [hkey, ← hs.live, ← hs.settled.value]
    exact Amount.value_nonpos_of_not_ge_zero (hs.settled.proper node) hneg
  · rw [hentered, rest_concat, ← hs.live]
    exact live_tookBack h
  · rw [live_tookBack h] at hj
    exact hs.converts j (Finset.mem_of_mem_erase hj)

def Recorded (ctx : SolverContext) (trxs : List Transaction) (start s : TransactionsValidator) :
    Prop :=
  ∃ takenBack, Journaled ctx trxs start trxs.length takenBack s

/-- Transfers without contracts, with normalised amounts and fees. -/
structure PlainBlock (ctx : SolverContext) (trxs : List Transaction) : Prop where
  noContract : ∀ trx ∈ trxs, NoContract ctx trx
  amount : ∀ trx ∈ trxs, trx.amount.Normalized
  fee : ∀ commission a, ctx.toAmount commission = some a → a.Normalized

theorem PlainBlock.fee_of_amount (hblock : PlainBlock ctx trxs) {commission : AmountCommission}
    {a : Amount} (h : ctx.amount commission = .ok a) : a.Normalized :=
  hblock.fee commission a (toAmount_of_amount h)

theorem PlainBlock.properBatch (hblock : PlainBlock ctx trxs) : ProperBatch ctx trxs :=
  ⟨fun trx hmem => (hblock.amount trx hmem).proper, fun _ _ h => (hblock.fee _ _ h).proper⟩

theorem PlainBlock.graphInvariant (hblock : PlainBlock ctx trxs) :
    GraphInvariant ctx trxs (Recorded ctx trxs start) where
  listed := by
    rintro s ⟨takenBack, hs⟩
    exact hs.settled.toListed
  congr := by
    rintro s t ⟨takenBack, hs⟩ hlist hmask hwallet
    have hsettled := hs.settled.congr hlist (congrArg _ hmask) (live_congr hmask) hwallet
    exact ⟨takenBack, hs.congr hsettled hmask fun k => by rw [hwallet]⟩
  tookBack := by
    rintro s t node pre i post trx fee ⟨takenBack, hs⟩ hl hneg hmem htrx hfee htook hreplays
    rw [transferFee_eq (hblock.noContract trx hmem)] at hfee
    exact ⟨_, hs.tookBack hl hneg htrx hfee htook hreplays⟩

variable (hblock : PlainBlock ctx trxs)

theorem enteredTrxs_succ_of_ne (hnone : s.maskIncluded[i]? ≠ some .none)
    (hnegative : s.maskIncluded[i]? ≠ some .negativeResult) :
    s.enteredTrxs (i + 1) = s.enteredTrxs i := by
  unfold enteredTrxs
  rw [range_succ, filter_append, filter_singleton]
  simp [hnone, hnegative]

theorem enteredTrxs_succ_of_eq (hnone : s.maskIncluded[i]? = some .none) :
    s.enteredTrxs (i + 1) = s.enteredTrxs i ++ [i] := by
  unfold enteredTrxs
  rw [range_succ, filter_append, filter_singleton]
  simp [hnone]

/-- Before anything is taken back. -/
structure Entering (ctx : SolverContext) (trxs : List Transaction) (start : TransactionsValidator)
    (i : ℕ) (s : TransactionsValidator) : Prop where
  journaled : Journaled ctx trxs start i [] s
  not_negativeResult : ∀ j : ℕ, s.maskIncluded[j]? ≠ some .negativeResult

theorem live_eq_rest_nil (h : ∀ j : ℕ, s.maskIncluded[j]? ≠ some .negativeResult) :
    s.live done = rest (s.enteredTrxs done) [] := by
  ext j
  simp [mem_live, rest, enteredTrxs, h j]

theorem Entering.skip (hs : Entering ctx trxs start i s) (hmask : s.maskIncluded[i]? ≠ some .none) :
    Entering ctx trxs start (i + 1) s := by
  have hnegative := hs.not_negativeResult i
  refine ⟨⟨hs.journaled.settled.congr rfl rfl (live_succ_of_ne hmask) fun _ => rfl, ?_, .nil,
    live_eq_rest_nil hs.not_negativeResult, ?_⟩, hs.not_negativeResult⟩
  · rw [enteredTrxs_succ_of_ne hmask hnegative]
    exact hs.journaled.replays
  · rw [live_succ_of_ne hmask]
    exact hs.journaled.converts

theorem Entering.rejected {r : Reason} (hr : Refuses r) (hs : Entering ctx trxs start i s)
    (h : Untouched ctx s t) :
    Entering ctx trxs start (i + 1) { t with maskIncluded := t.maskIncluded.set i r } := by
  have ht := hs.journaled.untouched h
  set u : TransactionsValidator := { t with maskIncluded := t.maskIncluded.set i r }
  have hother : ∀ j : ℕ, j ≠ i → u.maskIncluded[j]? = t.maskIncluded[j]? := fun j hj =>
    List.getElem?_set_ne (Ne.symm hj)
  have hnegative : ∀ j : ℕ, u.maskIncluded[j]? ≠ some .negativeResult := by
    intro j
    by_cases hj : j = i
    · subst hj
      exact getElem?_setMask_ne hr.2
    · rw [hother j hj, h.keepsLists.maskIncluded]
      exact hs.not_negativeResult j
  have hentered : u.enteredTrxs i = t.enteredTrxs i := by
    grind [enteredTrxs, filter_congr, Nat.ne_of_lt]
  have hlive : u.live i = t.live i := live_setMask
  refine Entering.skip ⟨⟨ht.settled.setMask, ?_, .nil, live_eq_rest_nil hnegative, ?_⟩, hnegative⟩
    (getElem?_setMask_ne hr.1)
  · rw [hentered]
    exact ht.replays
  · rw [hlive]
    exact ht.converts

theorem Entering.booked (hi : i < 2 ^ 32 - 1) (htrx : trxAt trxs i = trx)
    (hmask : s.maskIncluded[i]? = some .none) (hfee : ctx.amount trx.countedFee = .ok fee)
    (hs : Entering ctx trxs start i s) (h : Booked ctx s t i trx fee.value)
    (hreplays : Replays ctx s t (entering ctx trx fee)) : Entering ctx trxs start (i + 1) t := by
  obtain ⟨hconverts, hamount, hvalue⟩ := feeAmount_of_amount hfee
  have hmask' : t.maskIncluded[i]? = some .none := by
    rw [h.maskIncluded]
    exact hmask
  have hnegative : ∀ j : ℕ, t.maskIncluded[j]? ≠ some .negativeResult := by
    rw [h.maskIncluded]
    exact hs.not_negativeResult
  have hentered : t.enteredTrxs i = s.enteredTrxs i := by
    unfold enteredTrxs
    rw [h.maskIncluded]
  refine ⟨⟨hs.journaled.settled.entered hi htrx hmask (hvalue ▸ h), ?_, .nil,
    live_eq_rest_nil hnegative, fun j hj => ?_⟩, hnegative⟩
  · rw [enteredTrxs_succ_of_eq hmask', journal_concat_entered, hentered, htrx, hamount]
    exact hs.journaled.replays.append hreplays
  · rw [live_succ_of_eq hmask', live_congr h.maskIncluded, Finset.mem_insert] at hj
    have hconverts' := hs.journaled.converts
    grind

include hblock

theorem wp_validateAt_recorded (hcount : trxs.length < 2 ^ 32) (hi : i < trxs.length)
    (hs : Entering ctx trxs start i s) :
    Returns (validateAt ctx trxs i)
      (fun _ t => Entering ctx trxs start (i + 1) t) s := by
  have hsettled := hs.journaled.settled
  have hget : trxs[i]? = some trxs[i] := List.getElem?_eq_getElem hi
  have htrxAt : trxAt trxs i = trxs[i] := by rw [trxAt, hget, Option.getD_some]
  have hmem := getElem_mem hi
  have hnoContract := hblock.noContract _ hmem
  refine wp_validateAt_of hget hsettled.length_maskIncluded (fun hdeploy => ?_) hs.skip
    fun hmask => ?_
  · -- a transfer deploys nothing
    simp [isDeploy, hnoContract.not_isExecutable] at hdeploy
  refine (wp_validateTransaction_replays (fun _ => trivial) hnoContract hget
    (fun _ _ _ => trivial) (fun _ _ _ => trivial) (hblock.amount _ hmem).proper
    (fun a ha => (hblock.fee_of_amount ha).proper) hsettled.proper
    (by rw [hsettled.length_trxList]; exact hi)).mono fun r t ht => ?_
  rcases ht with ⟨hr, huntouched⟩ | ⟨rfl, fee, hfee, hbooked, hreplays, -⟩
  · exact .inr ⟨hr.1, huntouched.keepsLists.maskIncluded, hs.rejected hr huntouched⟩
  · exact .inl ⟨rfl, hs.booked (by omega) htrxAt hmask hfee hbooked hreplays⟩

theorem wp_validateEach_recorded (hcount : trxs.length < 2 ^ 32)
    (hs : Entering ctx trxs start 0 s) :
    Returns (validateEach ctx trxs trxs.length 0)
      (fun _ t => Entering ctx trxs start trxs.length t) s :=
  wp_validateEach_of_step (fun _ hi _ hs => wp_validateAt_recorded hblock hcount hi hs)
    trxs.length 0 s
    (Nat.zero_add _) hs

omit hblock

theorem wp_collectRejected_noContract (ts : List Transaction)
    (hts : ∀ trx ∈ ts, NoContract ctx trx) : ∀ i : ℕ,
      Returns (collectRejected ctx ts i) (fun r t => r = ([], []) ∧ t = s) s := by
  induction ts with
  | nil => exact fun i => Wp.pure ⟨rfl, rfl⟩
  | cons trx ts ih =>
    intro i
    have htrx := hts trx mem_cons_self
    have hsource := htrx.source
    have hnot_isNewState := htrx.not_isNewState
    grind [collectRejected, Wp.get_bind, Wp.bind, Wp.pure]

include hblock

theorem wp_validateTransactions_recorded (hcount : trxs.length < 2 ^ 32) (fuel : ℕ)
    (hs : Entering ctx trxs start 0 s) :
    Returns (validateTransactions ctx fuel trxs)
      (fun _ t => Recorded ctx trxs start t) s := by
  refine .bind (wp_validateEach_recorded hblock hcount hs) ?_
  intro _ t ht
  have hchecked : Returns (checkRejectedSmarts ctx trxs) (fun _ u => u = t) t := by
    refine .bind (wp_collectRejected_noContract trxs hblock.noContract 0) ?_
    rintro r u ⟨rfl, rfl⟩
    exact .pure rfl
  refine .bind hchecked ?_
  rintro - u rfl
  exact hblock.graphInvariant.wp_validateByGraph hblock.properBatch fuel u ⟨[], ht.journaled⟩

end Journaled

section Agreement

variable {ctx : SolverContext} {env : LedgerEnv} {trxs : List Transaction}
  {s t : TransactionsValidator} {k : PublicKey}

def acceptedTrxs (trxs : List Transaction) (mask : List Reason) : List Transaction :=
  ((List.range trxs.length).filter fun i => mask[i]? = some .none).map (trxAt trxs)

theorem sum_acceptedTrxs (f : Transaction → ℤ) :
    ((acceptedTrxs trxs t.maskIncluded).map f).sum =
      ∑ i ∈ t.live trxs.length, f (trxAt trxs i) := by
  unfold acceptedTrxs live
  rw [map_map]
  rfl

theorem initialBalance_eq : initialBalance ctx k = (ctx.walletsCache.wallet k).balance.value := by
  unfold initialBalance WalletsState.initial WalletsCache.wallet
  cases ctx.walletsCache.findWallet k <;> rfl

theorem normalized_initial (hcache : ctx.walletsCache.Normalized) (k : PublicKey) :
    (WalletsState.initial ctx k).balance.Normalized := by
  unfold WalletsState.initial
  cases h : ctx.walletsCache.findWallet k with
  | none => exact Amount.normalized_zero
  | some data => exact hcache k data h

theorem exactBalance_live (hids : env.walletsIds = ctx.walletsIds)
    (hfees : env.toAmount = ctx.toAmount) :
    exactBalance ctx trxs (t.live trxs.length) k = (ctx.walletsCache.wallet k).balance.value +
      (WalletsCache.Updater.received env (acceptedTrxs trxs t.maskIncluded) k -
        WalletsCache.Updater.spent env (acceptedTrxs trxs t.maskIncluded) k) := by
  unfold WalletsCache.Updater.received WalletsCache.Updater.spent WalletsCache.Updater.feeValue
  rw [sum_acceptedTrxs, sum_acceptedTrxs, ← Finset.sum_sub_distrib, ← initialBalance_eq,
    hids, hfees]
  rfl

theorem isTransfer_acceptedTrxs (hfees : env.toAmount = ctx.toAmount) (hblock : PlainBlock ctx trxs)
    (hs : Settled ctx trxs trxs.length t)
    (hconverts : ∀ i ∈ t.live trxs.length, ∃ a, ctx.toAmount (trxAt trxs i).countedFee = some a) :
    ∀ trx ∈ acceptedTrxs trxs t.maskIncluded, WalletsCache.Updater.IsTransfer env trx := by
  intro trx htrx
  obtain ⟨i, hi, rfl⟩ := mem_map.mp htrx
  have hlive : i ∈ t.live trxs.length := by
    rw [mem_filter, mem_range, decide_eq_true_eq] at hi
    exact mem_live.mpr hi
  obtain ⟨trx, hmem, -, heq⟩ := exists_of_mem_live hs.toListed hlive
  obtain ⟨a, ha⟩ := hconverts i hlive
  rw [heq] at ha ⊢
  have hnoContract := hblock.noContract trx hmem
  refine ⟨hnoContract.not_isExecutable, hnoContract.not_isNewState, hblock.amount trx hmem, a, ?_⟩
  rw [hfees]
  exact ha

theorem wp_loadTransactions_accepted (hids : env.walletsIds = ctx.walletsIds)
    (hfees : env.toAmount = ctx.toAmount) (hcache : ctx.walletsCache.Normalized)
    (hblock : PlainBlock ctx trxs) (hs : Settled ctx trxs trxs.length t)
    (hconverts : ∀ i ∈ t.live trxs.length, ∃ a, ctx.toAmount (trxAt trxs i).countedFee = some a) :
    Wp (loadTransactions env false (acceptedTrxs trxs t.maskIncluded) 0)
      WalletsCache.Updater.OnlyOverflow
      (fun _ u => ∀ k, (u.wallet k).balance.Normalized ∧
        (u.wallet k).balance.value = exactBalance ctx trxs (t.live trxs.length) k)
      ctx.walletsCache := by
  refine (posts_loadTransactions
    (isTransfer_acceptedTrxs hfees hblock hs hconverts) Amount.normalized_zero _ hcache).mono ?_
  rintro fees u ⟨-, hu, hbook⟩ k
  refine ⟨hu.wallet k, ?_⟩
  have hbalance : ∀ c : WalletsCache, (c.wallet k).balance.value = c.book k := fun c => by
    rw [← WalletsCache.balance_eq]
    exact (Ledger.book_apply _ _ _).symm
  rw [exactBalance_live hids hfees, hbalance, hbalance, hbook, Finsupp.add_apply,
    post_transfers_apply]

theorem normalized_journal (hblock : PlainBlock ctx trxs) {entered takenBack : List ℕ}
    (e : PublicKey × Movement) (he : e ∈ journal ctx trxs entered takenBack) :
    e.2.amount.Normalized := by
  have hamount : ∀ i, (trxAt trxs i).amount.Normalized := by
    intro i
    unfold trxAt
    cases hget : trxs[i]? with
    | none => exact Amount.normalized_zero
    | some trx => exact hblock.amount trx (mem_of_getElem? hget)
  have hfee : ∀ trx, (feeAmount ctx trx).Normalized := by
    intro trx
    unfold feeAmount
    cases hconverted : ctx.toAmount trx.countedFee with
    | none => exact Amount.normalized_zero
    | some a => exact hblock.fee _ a hconverted
  unfold journal entering takingBack at he
  simp only [mem_append, mem_flatMap, mem_cons, not_mem_nil, or_false] at he
  rcases he with ⟨i, -, rfl | rfl | rfl⟩ | ⟨i, -, rfl | rfl | rfl⟩
  · exact hamount i
  · exact hfee _
  · exact hamount i
  · exact hamount i
  · exact hfee _
  · exact hamount i

/-- The exact balance of the wallet is a whole number, and the last fraction moved on it was added:
by a transfer to it, or when one of its own was taken back. -/
def EndsOnWholeCredit (ctx : SolverContext) (trxs : List Transaction) (entered takenBack : List ℕ)
    (k : PublicKey) : Prop :=
  Amount.unit ∣ exactBalance ctx trxs (rest entered takenBack) k ∧
    EndsWithCredit (Journal.ofAccount k (journal ctx trxs entered takenBack))

/-- No wallet ends on a whole number with a fraction added last, whichever transfers of the block
pass the checks and whichever of these are taken back while their wallets have nothing. -/
def NeverEndsOnWholeCredit (ctx : SolverContext) (trxs : List Transaction) : Prop :=
  ∀ entered takenBack : List ℕ, entered.Sublist (List.range trxs.length) →
    TakenBack ctx trxs entered takenBack → ∀ k, ¬ EndsOnWholeCredit ctx trxs entered takenBack k

theorem Journaled.normalized {start : TransactionsValidator} {takenBack : List ℕ}
    (hblock : PlainBlock ctx trxs) (hstart : ∀ k, (start.wallet ctx k).balance.Normalized)
    (hnever : NeverEndsOnWholeCredit ctx trxs)
    (ht : Journaled ctx trxs start trxs.length takenBack t) :
    (t.wallet ctx k).balance.Normalized := by
  by_contra hnot
  rw [overhang_iff (hstart k) (normalized_journal hblock) (ht.replays k), ht.settled.value,
    ht.live] at hnot
  exact hnever _ takenBack filter_sublist ht.legal k hnot

def bothBalances (ctx : SolverContext) (env : LedgerEnv) (trxs : List Transaction)
    (key : PublicKey) : Except Fault (List Reason × Amount × Amount) :=
  match IterValidator.validateTransactions ctx 20 trxs
      (IterValidator.startIteration trxs.length (IterValidator.emptyMask trxs.length .new)) with
  | .error e _ => .error e
  | .ok _ t =>
    match WalletsCache.Updater.loadTransactions env false (acceptedTrxs trxs t.maskIncluded) 0
        ctx.walletsCache with
    | .error e _ => .error e
    | .ok _ u => .ok (t.maskIncluded, (t.wallet ctx key).balance, (u.wallet key).balance)

/-- A node without fees. -/
def freeEnv : LedgerEnv := WalletsCache.Updater.sampleEnv 0 Amount.normalized_zero

theorem exists_of_bothBalances {key : PublicKey} {r : List Reason × Amount × Amount}
    (h : bothBalances ctx env trxs key = .ok r) :
    ∃ t fees u, validateTransactions ctx 20 trxs (startIteration
        trxs.length (emptyMask trxs.length .new)) = .ok () t ∧
      loadTransactions env false (acceptedTrxs trxs t.maskIncluded) 0
        ctx.walletsCache = .ok fees u := by
  grind [bothBalances]

end Agreement

end CreditsNode.TransactionsValidator
