import CreditsNode.Csnode.Proofs.ValidatorRuleProofs
import CreditsNode.Csdb.Proofs.SampleData

/-!
# No overdraft

Throughout the validation of plain transfers, the balances are the exact ones for the transfers
accepted so far, the lists of the wallets hold their accepted outgoing transfers, and every wallet
with a negative balance is on the stack. `validateByGraph` keeps this and ends, because a transfer
taken back puts at most one wallet on the stack.
-/

namespace CreditsNode.TransactionsValidator

open Effect List IterValidator WalletsState

open ThreadedList (Threads cellAfter)

open AmountCommission (converted)

variable (ctx : SolverContext) (trxs : List Transaction)

def trxAt (i : ℕ) : Transaction := (trxs[i]?).getD .new

def transfers : Settlement.Transfers PublicKey where
  source i := ctx.toPublicKey (trxAt trxs i).source
  target i := ctx.toPublicKey (trxAt trxs i).target
  amount i := (trxAt trxs i).amount.value
  cost i := (trxAt trxs i).amount.value + converted ctx.toAmount (trxAt trxs i).countedFee

def initialBalance (k : PublicKey) : ℤ := (WalletsState.initial ctx k).balance.value

/-- The exact balance of a wallet: the initial one, less the outgoing amounts and fees, plus the
incoming amounts of the given transactions. -/
def exactBalance (accepted : Finset ℕ) (k : PublicKey) : ℤ :=
  Settlement.balance (transfers ctx trxs) (initialBalance ctx) accepted k

/-- The list of a wallet holds its accepted outgoing transactions. -/
structure Outgoing (done : ℕ) (s : TransactionsValidator) (k : PublicKey) (l : List ℕ) : Prop where
  threads : Threads (s.links ctx k) none l
  nodup : l.Nodup
  mem_iff : ∀ i, i ∈ l ↔ i ∈ s.live done ∧ (transfers ctx trxs).source i = k

/-- The lists of outgoing transactions are those of the accepted ones among the first `done`, and
all balances are proper. -/
structure Listed (done : ℕ) (s : TransactionsValidator) : Prop where
  length_trxList : s.trxList.length = trxs.length
  length_maskIncluded : s.maskIncluded.length = trxs.length
  proper : ∀ k, (s.wallet ctx k).balance.Proper
  outgoing : ∀ k, ∃ l, Outgoing ctx trxs done s k l

/-- Besides, the balances are the exact ones of the accepted transactions. -/
structure Settled (done : ℕ) (s : TransactionsValidator) : Prop extends Listed ctx trxs done s where
  value : ∀ k, (s.wallet ctx k).balance.value = exactBalance ctx trxs (s.live done) k

/-- The wallet has no negative balance, or it waits for the validation by graph. -/
def Covered (s : TransactionsValidator) (k : PublicKey) : Prop :=
  0 ≤ (s.wallet ctx k).balance.value ∨ k ∈ s.negativeNodes

variable {ctx trxs} {done : ℕ} {s t : TransactionsValidator} {node k : PublicKey}

theorem lt_length_of_mem_live (hs : Listed ctx trxs done s) {i : ℕ} (hi : i ∈ s.live done) :
    i < trxs.length := by
  rw [← hs.length_maskIncluded]
  exact (List.getElem?_eq_some_iff.mp (mem_live.mp hi).2).1

theorem exists_of_mem_live (hs : Listed ctx trxs done s) {i : ℕ} (hi : i ∈ s.live done) :
    ∃ trx ∈ trxs, trxs[i]? = some trx ∧ trxAt trxs i = trx := by
  grind [lt_length_of_mem_live, trxAt]

section TakeBack

variable {i : ℕ} {trx : Transaction} {fee : ℤ} {prevNext : Option ℕ} {pre post : List ℕ}

theorem live_tookBack (h : TookBack ctx s t node prevNext i trx fee) :
    t.live done = (s.live done).erase i := by
  ext j
  rw [Finset.mem_erase, mem_live, mem_live, h.maskIncluded]
  by_cases hj : j = i
  · subst hj
    have hne : (s.maskIncluded.set j .negativeResult)[j]? ≠ some .none := by
      rw [List.getElem?_set_self']
      cases s.maskIncluded[j]? <;> simp
    simp [hne]
  · rw [List.getElem?_set_ne (Ne.symm hj)]
    simp [hj]

theorem Outgoing.tookBack_of_ne {l : List ℕ} (hk : k ≠ node) (hl : Outgoing ctx trxs done s k l)
    (hnode : Outgoing ctx trxs done s node (pre ++ i :: post))
    (h : TookBack ctx s t node (cellAfter none pre) i trx fee) : Outgoing ctx trxs done t k l := by
  have hother : ∀ j ∈ l, ∀ m ∈ pre ++ i :: post, j ≠ m := by
    rintro j hj m hm rfl
    exact hk (((hl.mem_iff j).mp hj).2.symm.trans ((hnode.mem_iff j).mp hm).2)
  refine ⟨hl.threads.congr (h.links_head k hk) fun j hj => ?_, hl.nodup, fun j => ?_⟩
  · change t.links ctx node (some j) = s.links ctx node (some j)
    rw [h.links_node]
    grind [ThreadedList.unlink_of_ne, ThreadedList.eq_or_mem_of_cellAfter]
  · rw [live_tookBack h, Finset.mem_erase, hl.mem_iff]
    have hmem_iff := hl.mem_iff
    grind

theorem Outgoing.tookBack (hnode : Outgoing ctx trxs done s node (pre ++ i :: post))
    (h : TookBack ctx s t node (cellAfter none pre) i trx fee) :
    Outgoing ctx trxs done t node (pre ++ post) := by
  have hperm : (pre ++ i :: post).Perm (i :: (pre ++ post)) := perm_middle
  have hnodup := hperm.nodup_iff.mp hnode.nodup
  refine ⟨?_, (nodup_cons.mp hnodup).2, fun j => ?_⟩
  · rw [h.links_node]
    exact hnode.threads.unlink hnode.nodup fun j _ => by simp
  · rw [live_tookBack h, Finset.mem_erase, and_assoc, ← hnode.mem_iff, hperm.mem_iff, mem_cons]
    grind

theorem Listed.tookBack (hs : Listed ctx trxs done s)
    (hnode : Outgoing ctx trxs done s node (pre ++ i :: post))
    (h : TookBack ctx s t node (cellAfter none pre) i trx fee) : Listed ctx trxs done t := by
  refine ⟨h.length_trxList.trans hs.length_trxList, ?_, h.proper, fun k => ?_⟩
  · rw [h.maskIncluded, length_set, hs.length_maskIncluded]
  · by_cases hk : k = node
    · subst hk
      exact ⟨_, hnode.tookBack h⟩
    · obtain ⟨l, hl⟩ := hs.outgoing k
      exact ⟨l, hl.tookBack_of_ne hk hnode h⟩

theorem Settled.tookBack (hs : Settled ctx trxs done s)
    (hnode : Outgoing ctx trxs done s node (pre ++ i :: post)) (htrx : trxAt trxs i = trx)
    (h : TookBack ctx s t node (cellAfter none pre) i trx (converted ctx.toAmount trx.countedFee)) :
    Settled ctx trxs done t := by
  obtain ⟨hi, hsource⟩ := (hnode.mem_iff i).mp (by simp)
  refine ⟨hs.toListed.tookBack hnode h, fun k => ?_⟩
  rw [h.value, hs.value, live_tookBack h, exactBalance, exactBalance,
    Settlement.balance_erase hi, Settlement.Transfers.effect, hsource]
  simp only [transfers, htrx, eq_comm (a := k)]
  ring

end TakeBack

section Loop

variable {kind : Removal} {trx : Transaction} {absBalance : Amount}

theorem PlainTransfer.transferFee (hplain : PlainTransfer ctx trx) :
    ∃ fee, TransactionsValidator.transferFee ctx trx = .ok fee ∧ fee.Normalized ∧ 0 ≤ fee.value ∧
      fee.value = converted ctx.toAmount trx.countedFee := by
  obtain ⟨fee, hfee, hnormalized, hnonneg⟩ := hplain.countedFee
  refine ⟨fee, ?_, hnormalized, hnonneg, ?_⟩
  · unfold TransactionsValidator.transferFee
    simp only [hplain.target, Bool.false_eq_true, if_false, SolverContext.amount, hfee]
    rfl
  · simp [converted, hfee]

theorem trxCost_spec (hplain : PlainTransfer ctx trx) :
    Yields (trxCost ctx trx) (· = .overflow)
      fun c => c.Normalized ∧ c.value = trx.amount.value +
        converted ctx.toAmount trx.countedFee := by
  obtain ⟨fee, hfee, hnormalized, -, hvalue⟩ := hplain.transferFee
  unfold trxCost
  rw [hplain.ofDouble, hfee, ← hvalue]
  exact Amount.addAssign_spec hplain.amount.1 hnormalized.proper

theorem isTooCheap_spec (hplain : PlainTransfer ctx trx)
    (habs : kind.one = true → absBalance.Normalized) :
    Yields (isTooCheap ctx kind absBalance trx) (· = .overflow)
      fun b => (b = true → kind.one = true) ∧ (b = false → kind.one = true →
        absBalance.value ≤ trx.amount.value + converted ctx.toAmount trx.countedFee) := by
  unfold isTooCheap
  refine .ite (fun hone => ?_) fun hone => ?_
  · refine .bind (trxCost_spec hplain) fun cost hcost => .pure ⟨fun _ => hone, ?_⟩
    intro hb _
    rwa [← Bool.not_eq_true, Amount.lt_iff hcost.1 (habs hone), not_lt, hcost.2] at hb
  · exact .pure ⟨nofun, fun _ h => absurd h hone⟩

/-- A transaction that is not passed over is enough if only one is taken back, and its target can
pay back if this is asked for. Nothing is passed over if neither is asked for. -/
theorem wp_passesOver (hplain : PlainTransfer ctx trx)
    (habs : kind.one = true → absBalance.Normalized) :
    Wp (passesOver ctx kind absBalance trx) (fun e _ => e = .overflow)
      (fun b t => Untouched ctx s t ∧ (b = true → kind.one = true ∨ kind.positive = true) ∧
        (b = false →
          (kind.one = true →
            absBalance.value ≤ trx.amount.value + converted ctx.toAmount trx.countedFee) ∧
          (kind.positive = true →
            trx.amount.value ≤ (s.wallet ctx (ctx.toPublicKey trx.target)).balance.value))) s := by
  have hsame : Untouched ctx s s := .refl
  refine .yields_bind (isTooCheap_spec hplain habs) fun tooCheap hcheap => ?_
  refine .ite (fun hb => ?_) fun hb => ?_
  · exact .pure ⟨hsame, fun _ => .inl (hcheap.1 hb), nofun⟩
  have henough := hcheap.2 (Bool.eq_false_of_not_eq_true hb)
  by_cases hpositive : kind.positive = true
  · rw [if_pos hpositive]
    refine wp_getData_bind fun s0 hs0 hwallet => wp_balance_bind (.pure ?_)
    refine ⟨⟨hs0, hwallet⟩, fun _ => .inr hpositive, fun hpays => ⟨henough, fun _ => ?_⟩⟩
    rw [Bool.not_eq_false', hwallet] at hpays
    exact Amount.value_le_of_le hplain.amount.1.proper hpays
  · grind [Wp.pure]

theorem wp_deref_bind {α : Type} {E : Fault → TransactionsValidator → Prop}
    {Q : α → TransactionsValidator → Prop} {f : WalletsState.TransactionIndex → ValidatorM α}
    {pre post : List ℕ}
    (hs : Listed ctx trxs done s) (hl : Outgoing ctx trxs done s node (pre ++ post))
    (hnil : post = [] → Wp (f noInd) E Q s)
    (hcons : ∀ i rest index, post = i :: rest → index ≠ noInd → index.toNat = i →
      s.links ctx node (cellAfter none pre) = some i → Wp (f index) E Q s) :
    Wp (deref ctx node (cellAfter none pre) >>= f) E Q s := by
  have hsome : (s.pointee ctx node (cellAfter none pre)).isSome := by
    cases hc : cellAfter none pre with
    | none => rfl
    | some j =>
      have hlength_trxList := hs.length_trxList
      have hmem_iff' := hl.mem_iff j
      grind [ThreadedList.eq_or_mem_of_cellAfter, lt_length_of_mem_live, pointee]
  obtain ⟨index, hindex⟩ := Option.isSome_iff_exists.mp hsome
  have hentry : s.links ctx node (cellAfter none pre) = entry index := by simp [links, hindex]
  refine .bind_of_ok (deref_eq hindex) ?_
  have hdrop := hl.threads.drop
  cases post with
  | nil =>
    have hnone : entry index = none := hentry.symm.trans hdrop
    have hno : index = noInd := by
      by_contra hne
      simp [entry, hne] at hnone
    rw [hno]
    exact hnil rfl
  | cons i rest =>
    have hi : entry index = some i := hentry.symm.trans hdrop.1
    have hne : index ≠ noInd := fun he => by simp [he] at hi
    refine hcons i rest index rfl hne ?_ hdrop.1
    simpa [entry, hne] using hi

theorem live_congr (h : t.maskIncluded = s.maskIncluded) : t.live done = s.live done := by
  unfold live
  rw [h]

section Congr

variable {done' : ℕ} (hlist : t.trxList = s.trxList)
  (hmask : t.maskIncluded.length = s.maskIncluded.length) (hlive : t.live done' = s.live done)
  (hwallet : ∀ k, t.wallet ctx k = s.wallet ctx k)

include hlist hlive hwallet

theorem Outgoing.congr {l : List ℕ} (hl : Outgoing ctx trxs done s k l) :
    Outgoing ctx trxs done' t k l := by
  refine ⟨?_, hl.nodup, fun i => ?_⟩
  · rw [links_congr hlist (by rw [hwallet])]
    exact hl.threads
  · rw [hlive]
    exact hl.mem_iff i

include hmask

theorem Listed.congr (hs : Listed ctx trxs done s) : Listed ctx trxs done' t := by
  refine ⟨hlist ▸ hs.length_trxList, hmask.trans hs.length_maskIncluded, fun k => ?_, fun k => ?_⟩
  · rw [hwallet]
    exact hs.proper k
  · obtain ⟨l, hl⟩ := hs.outgoing k
    exact ⟨l, hl.congr hlist hlive hwallet⟩

theorem Settled.congr (hs : Settled ctx trxs done s) : Settled ctx trxs done' t :=
  ⟨hs.toListed.congr hlist hmask hlive hwallet, fun k => by rw [hwallet, hlive, hs.value]⟩

end Congr

theorem Untouched.live (h : Untouched ctx s t) : t.live done = s.live done :=
  live_congr h.keepsLists.maskIncluded

theorem Untouched.outgoing (h : Untouched ctx s t) {l : List ℕ}
    (hl : Outgoing ctx trxs done s k l) : Outgoing ctx trxs done t k l :=
  hl.congr h.keepsLists.trxList h.live h.wallet

theorem Untouched.settled (h : Untouched ctx s t) (hs : Settled ctx trxs done s) :
    Settled ctx trxs done t :=
  hs.congr h.keepsLists.trxList (congrArg length h.keepsLists.maskIncluded) h.live h.wallet

theorem Untouched.covered (h : Untouched ctx s t) (hk : Covered ctx s k) : Covered ctx t k := by
  unfold Covered
  rw [h.wallet, h.keepsLists.negativeNodes]
  exact hk

/-- What is left to do: a transaction that is taken back counts twice, since it can put a wallet on
the stack. -/
def pending (done : ℕ) (s : TransactionsValidator) : ℕ :=
  2 * (s.live done).card + s.negativeNodes.length

theorem Untouched.pending (h : Untouched ctx s t) :
    TransactionsValidator.pending done t = TransactionsValidator.pending done s := by
  unfold TransactionsValidator.pending
  rw [h.live, h.keepsLists.negativeNodes]

variable {i : ℕ} {prevNext : Option ℕ} {fee : ℤ}

theorem covered_tookBack_of_ne
    (hcovered : ∀ k ≠ node, Covered ctx s k) (h : TookBack ctx s t node prevNext i trx fee)
    (hpushed : Pushed ctx kind s t trx) (hpays : kind.positive = true →
      trx.amount.value ≤ (s.wallet ctx (ctx.toPublicKey trx.target)).balance.value) :
    ∀ k ≠ node, Covered ctx t k := by
  intro k hk
  have hvalue := h.value k
  rw [if_neg hk, add_zero] at hvalue
  by_cases hdest : k = ctx.toPublicKey trx.target
  · rcases hpushed with ⟨-, hnonneg⟩ | hpush
    · refine .inl ?_
      grind
    · exact .inr (by rw [hpush, hdest]; exact mem_cons_self)
  · rw [if_neg hdest, sub_zero] at hvalue
    unfold Covered
    rw [hvalue]
    refine (hcovered k hk).imp id fun hmem => ?_
    rcases hpushed with ⟨hsame, -⟩ | hpush
    · rwa [hsame]
    · rw [hpush]
      exact mem_cons_of_mem _ hmem

theorem covered_tookBack (hfee : 0 ≤ fee) (h : TookBack ctx s t node prevNext i trx fee)
    (hpushed : Pushed ctx kind s t trx) (hpays : kind.positive = true →
      trx.amount.value ≤ (s.wallet ctx (ctx.toPublicKey trx.target)).balance.value)
    (henough : -(s.wallet ctx node).balance.value ≤ trx.amount.value + fee) :
    Covered ctx t node := by
  have hvalue := h.value node
  rw [if_pos rfl] at hvalue
  by_cases hdest : node = ctx.toPublicKey trx.target
  · rcases hpushed with ⟨-, hnonneg⟩ | hpush
    · refine .inl ?_
      grind
    · exact .inr (by rw [hpush, ← hdest]; exact mem_cons_self)
  · rw [if_neg hdest] at hvalue
    exact .inl (by linarith)

theorem pending_tookBack (hi : i ∈ s.live done)
    (h : TookBack ctx s t node prevNext i trx fee) (hpushed : Pushed ctx kind s t trx) :
    pending done t < pending done s := by
  have hcard := Finset.card_pos.mpr ⟨i, hi⟩
  have hlength : t.negativeNodes.length ≤ s.negativeNodes.length + 1 := by
    rcases hpushed with ⟨hsame, -⟩ | hpush
    · rw [hsame]
      omega
    · rw [hpush, length_cons]
  unfold pending
  rw [live_tookBack h, Finset.card_erase_of_mem hi]
  omega

/-- The result of a loop over the list of `node`, started in `s`. -/
structure Repaired (ctx : SolverContext) (trxs : List Transaction) (kind : Removal)
    (node : PublicKey) (s : TransactionsValidator) (found : Bool) (t : TransactionsValidator) :
    Prop where
  settled : Settled ctx trxs trxs.length t
  covered_of_ne : ∀ k ≠ node, Covered ctx t k
  covered : found = true → Covered ctx t node
  pending_le : pending trxs.length t ≤ pending trxs.length s
  exhausted : found = false → kind = ⟨false, false⟩ → Outgoing ctx trxs trxs.length t node []

theorem wp_removeLoop (hplain : ∀ trx ∈ trxs, PlainTransfer ctx trx) (fuel : ℕ) :
    ∀ (s : TransactionsValidator) (pre post : List ℕ), Settled ctx trxs trxs.length s →
      (∀ k ≠ node, Covered ctx s k) → Outgoing ctx trxs trxs.length s node (pre ++ post) →
      post.length < fuel → (kind = ⟨false, false⟩ → pre = []) →
      (kind.one = true → absBalance.Normalized ∧
        absBalance.value = -(s.wallet ctx node).balance.value) →
      Wp (removeLoop ctx trxs kind node absBalance fuel (cellAfter none pre))
        (fun e _ => e = .overflow) (Repaired ctx trxs kind node s) s := by
  induction fuel with
  | zero => exact fun _ _ post _ _ _ hfuel => absurd hfuel (Nat.not_lt_zero _)
  | succ fuel ih =>
    intro s pre post hs hcovered hl hfuel hpre habs
    refine wp_deref_bind hs.toListed hl ?_ ?_
    · rintro rfl
      refine .pure ⟨hs, hcovered, fun h => absurd h (by decide), le_rfl, fun _ hkind => ?_⟩
      rw [hpre hkind] at hl
      exact hl
    rintro i rest index rfl hne htoNat hlink
    rw [if_neg hne, htoNat]
    obtain ⟨hi, hsource⟩ := (hl.mem_iff i).mp (by simp)
    obtain ⟨trx, hmem, htrx, htrxAt⟩ := exists_of_mem_live hs.toListed hi
    have hplain' := hplain trx hmem
    refine .lift_ok_bind (b := trx) (by rw [transactionAt, htrx]) ?_
    refine .bind (wp_passesOver hplain' fun hone => (habs hone).1) ?_
    rintro passed s0 ⟨hs0, hover, hchosen⟩
    have hsettled0 := hs0.settled hs
    have hl0 := hs0.outgoing hl
    have hcovered0 : ∀ k ≠ node, Covered ctx s0 k := fun k hk => hs0.covered (hcovered k hk)
    rw [length_cons] at hfuel
    by_cases hb : passed = true
    · -- the position moves behind the entry
      rw [if_pos hb]
      have hcell : some i = cellAfter none (pre ++ [i]) :=
        (ThreadedList.cellAfter_concat none pre i).symm
      rw [hcell]
      have hkind : kind ≠ ⟨false, false⟩ := by
        rintro rfl
        rcases hover hb with h | h <;> cases h
      refine (ih s0 (pre ++ [i]) rest hsettled0 hcovered0 ?_ (by omega)
        (fun h => absurd h hkind) fun hone => ?_).mono ?_
      · rw [append_assoc]
        exact hl0
      · rw [hs0.wallet]
        exact habs hone
      · rintro found t ht
        exact ⟨ht.1, ht.2, ht.3, ht.4.trans hs0.pending.le, ht.5⟩
    rw [if_neg hb]
    obtain ⟨henough, hpays⟩ := hchosen (Bool.eq_false_of_not_eq_true hb)
    obtain ⟨fee, hfee, hfeeNormalized, hfeeNonneg, hfeeValue⟩ := hplain'.transferFee
    have hi0 : i < trxs.length := lt_length_of_mem_live hs.toListed hi
    have hlink0 : s0.links ctx node (cellAfter none pre) = some i := by
      rw [hs0.keepsLists.links]
      exact hlink
    refine .bind (wp_takeBack hsettled0.proper hplain'.amount.1.proper hfee
      hfeeNormalized.proper (by rw [hsettled0.length_maskIncluded]; exact hi0)
      (by rw [hsettled0.length_trxList]; exact hi0) hlink0) ?_
    rintro - s1 ⟨htook, hpushed⟩
    have hpays0 : kind.positive = true → trx.amount.value ≤
        (s0.wallet ctx (ctx.toPublicKey trx.target)).balance.value := by
      rw [hs0.wallet]
      exact hpays
    have hsettled1 := hsettled0.tookBack hl0 htrxAt (hfeeValue ▸ htook)
    have hcovered1 := covered_tookBack_of_ne hcovered0 htook hpushed hpays0
    have hpending1 : pending trxs.length s1 < pending trxs.length s := by
      rw [← hs0.pending]
      exact pending_tookBack (by rw [hs0.live]; exact hi) htook hpushed
    refine .ite (fun hone => ?_) fun hone => ?_
    · refine .pure ⟨hsettled1, hcovered1, fun _ => ?_, hpending1.le,
        fun h => absurd h (by decide)⟩
      have hwallet := hs0.wallet
      grind [covered_tookBack]
    refine wp_balance_bind ?_
    refine .ite (fun hge => ?_) fun hge => ?_
    · exact .pure ⟨hsettled1, hcovered1, fun _ =>
        .inl (Amount.value_nonneg_of_ge_zero hge), hpending1.le,
        fun h => absurd h (by decide)⟩
    refine (ih s1 pre rest hsettled1 hcovered1 (hl0.tookBack htook) (by omega) hpre
      fun h => absurd h hone).mono ?_
    rintro found t ht
    exact ⟨ht.1, ht.2, ht.3, ht.4.trans hpending1.le, ht.5⟩

end Loop

section Graph

variable (hplain : ∀ trx ∈ trxs, PlainTransfer ctx trx)

variable {kind : Removal}

theorem absBalance_spec {b : Amount} (hb : b.Proper) :
    Yields (absBalance kind b) (· = .overflow)
      fun c => kind.one = true → c.Normalized ∧ c.value = -b.value := by
  unfold absBalance
  refine .ite (fun hone => ?_) fun hone => ?_
  · exact (Amount.neg_spec hb).mono fun _ hc _ => hc
  · exact fun h => absurd h hone

include hplain in
theorem wp_removeTransactionsOf (hs : Settled ctx trxs trxs.length s)
    (hcovered : ∀ k ≠ node, Covered ctx s k) :
    Wp (removeTransactionsOf ctx trxs kind node) (fun e _ => e = .overflow)
      (Repaired ctx trxs kind node s) s := by
  refine wp_balance_bind ?_
  refine .ite (fun hge => ?_) fun hge => ?_
  · exact .pure ⟨hs, hcovered, fun _ =>
      .inl (Amount.value_nonneg_of_ge_zero hge), le_rfl,
      nofun⟩
  refine .yields_bind (absBalance_spec (hs.proper node)) fun owed howed => .get_bind ?_
  obtain ⟨l, hl⟩ := hs.outgoing node
  have hlength : l.length < s.trxList.length + 1 := by
    rw [hs.length_trxList, Nat.lt_succ_iff]
    have hsub : l ⊆ range trxs.length := fun i hi =>
      mem_range.mpr (lt_length_of_mem_live hs.toListed ((hl.mem_iff i).mp hi).1)
    simpa using (hl.nodup.subperm hsub).length_le
  exact wp_removeLoop hplain _ s [] l hs hcovered hl hlength (fun _ => rfl) howed

/-- One function of the family after another, until one succeeds or the last one has returned. -/
theorem wp_validateNode_of {E : Fault → TransactionsValidator → Prop}
    {P D : TransactionsValidator → Prop} (hs : P s)
    (hge : (s.wallet ctx node).balance.ge 0 = true → D s)
    (hstep : ∀ kind s, P s → Wp (removeTransactionsOf ctx trxs kind node) E
      (fun found t => P t ∧ (found = true ∨ kind = ⟨false, false⟩ → D t)) s) :
    Wp (validateNode ctx trxs node) E (fun _ t => D t) s := by
  refine wp_balance_bind (.ite (fun h => .pure (hge h)) fun _ => .bind ?_ fun _ _ ht => .pure ht)
  refine .bind (hstep _ s hs) fun _ s1 h1 => .ite (fun h => .pure (h1.2 (.inl h))) fun _ => ?_
  refine .bind (hstep _ s1 h1.1) fun _ s2 h2 => .ite (fun h => .pure (h2.2 (.inl h))) fun _ => ?_
  refine .bind (hstep _ s2 h2.1) fun _ s3 h3 => .ite (fun h => .pure (h3.2 (.inl h))) fun _ => ?_
  exact (hstep _ s3 h3.1).mono fun _ _ ht => ht.2 (.inr rfl)

include hplain in
theorem nonneg_of_outgoing_nil (hinitial : ∀ k, 0 ≤ initialBalance ctx k)
    (hs : Settled ctx trxs done s) (hl : Outgoing ctx trxs done s node []) :
    0 ≤ (s.wallet ctx node).balance.value := by
  rw [hs.value]
  refine Settlement.balance_nonneg (hinitial node) (fun i hi => ?_) fun i hi hsource => ?_
  · obtain ⟨trx, hmem, -, htrx⟩ := exists_of_mem_live hs.toListed hi
    change 0 ≤ (trxAt trxs i).amount.value
    rw [htrx]
    exact (hplain trx hmem).amount.2
  · exact not_mem_nil ((hl.mem_iff i).mpr ⟨hi, hsource⟩)

include hplain in
theorem wp_validateNode (hinitial : ∀ k, 0 ≤ initialBalance ctx k)
    (hs : Settled ctx trxs trxs.length s) (hcovered : ∀ k ≠ node, Covered ctx s k) :
    Wp (validateNode ctx trxs node) (fun e _ => e = .overflow)
      (fun _ t => Settled ctx trxs trxs.length t ∧ (∀ k, Covered ctx t k) ∧
        pending trxs.length t ≤ pending trxs.length s) s := by
  have hall : ∀ {t}, (∀ k ≠ node, Covered ctx t k) → Covered ctx t node → ∀ k, Covered ctx t k :=
    fun hother hnode k => (eq_or_ne k node).elim (· ▸ hnode) (hother k)
  refine wp_validateNode_of (P := fun t => Settled ctx trxs trxs.length t ∧
    (∀ k ≠ node, Covered ctx t k) ∧ pending trxs.length t ≤ pending trxs.length s)
    ⟨hs, hcovered, le_rfl⟩ (fun hge => ?_) fun kind t ⟨ht, hother, hpending⟩ => ?_
  · exact ⟨hs, hall hcovered (.inl (Amount.value_nonneg_of_ge_zero hge)), le_rfl⟩
  refine (wp_removeTransactionsOf hplain ht hother).mono fun found u hu => ?_
  have hle := hu.pending_le.trans hpending
  refine ⟨⟨hu.settled, hu.covered_of_ne, hle⟩,
    fun hlast => ⟨hu.settled, hall hu.covered_of_ne ?_, hle⟩⟩
  cases found with
  | true => exact hu.covered rfl
  | false =>
    have hl := hu.exhausted rfl (hlast.resolve_left Bool.false_ne_true)
    exact .inl (nonneg_of_outgoing_nil hplain hinitial hu.settled hl)

include hplain in
theorem wp_validateByGraph (hinitial : ∀ k, 0 ≤ initialBalance ctx k) (fuel : ℕ) :
    ∀ s : TransactionsValidator, Settled ctx trxs trxs.length s → (∀ k, Covered ctx s k) →
      pending trxs.length s < fuel →
      Wp (validateByGraph ctx trxs fuel) (fun e _ => e = .overflow)
        (fun _ t => Settled ctx trxs trxs.length t ∧
          ∀ k, 0 ≤ (t.wallet ctx k).balance.value) s := by
  induction fuel with
  | zero => exact fun _ _ _ hfuel => absurd hfuel (Nat.not_lt_zero _)
  | succ fuel ih =>
    intro s hs hcovered hfuel
    unfold validateByGraph
    refine .get_bind ?_
    cases hstack : s.negativeNodes with
    | nil =>
      refine .pure ⟨hs, fun k => (hcovered k).resolve_right ?_⟩
      rw [hstack]
      exact not_mem_nil
    | cons node nodes =>
      refine .modify_bind ?_
      generalize hs0 : ({ s with negativeNodes := nodes } : TransactionsValidator) = s0
      have hpending : pending trxs.length s0 + 1 = pending trxs.length s := by
        rw [← hs0]
        unfold pending
        rw [hstack, length_cons]
        rfl
      have hsettled0 : Settled ctx trxs trxs.length s0 := by
        rw [← hs0]
        exact hs.congr (s := s) rfl rfl rfl fun _ => rfl
      have hcovered0 : ∀ k ≠ node, Covered ctx s0 k := by
        intro k hk
        rw [← hs0]
        refine (hcovered k).imp id fun hmem => ?_
        rw [hstack] at hmem
        exact (mem_cons.mp hmem).resolve_left hk
      refine .bind (wp_validateNode hplain hinitial hsettled0 hcovered0) ?_
      rintro - t ⟨ht, htcovered, htpending⟩
      exact ih t ht htcovered (by omega)

end Graph

section InOrder

variable {i : ℕ} {trx : Transaction} {fee : ℤ}

theorem live_succ_of_ne (h : s.maskIncluded[i]? ≠ some .none) : s.live (i + 1) = s.live i := by
  ext j
  rw [mem_live, mem_live, Nat.lt_succ_iff_lt_or_eq]
  refine ⟨?_, fun hj => ⟨.inl hj.1, hj.2⟩⟩
  rintro ⟨hj | rfl, hmask⟩
  · exact ⟨hj, hmask⟩
  · exact absurd hmask h

theorem live_succ_of_eq (h : s.maskIncluded[i]? = some .none) :
    s.live (i + 1) = insert i (s.live i) := by
  ext j
  rw [Finset.mem_insert, mem_live, mem_live, Nat.lt_succ_iff_lt_or_eq]
  refine ⟨?_, ?_⟩
  · rintro ⟨hj | rfl, hmask⟩
    · exact .inr ⟨hj, hmask⟩
    · exact .inl rfl
  · rintro (rfl | hj)
    · exact ⟨.inr rfl, h⟩
    · exact ⟨.inl hj.1, hj.2⟩

theorem notMem_live_self : i ∉ s.live i := fun h => lt_irrefl i (mem_live.mp h).1

theorem Outgoing.entered {l : List ℕ} (hi : i < 2 ^ 32 - 1) (htrx : trxAt trxs i = trx)
    (hmask : s.maskIncluded[i]? = some .none) (h : Enlisted ctx s t (ctx.toPublicKey trx.source) i)
    (hl : Outgoing ctx trxs i s (ctx.toPublicKey trx.source) l) :
    Outgoing ctx trxs (i + 1) t (ctx.toPublicKey trx.source) (i :: l) := by
  have hnot : i ∉ l := fun hmem => notMem_live_self ((hl.mem_iff i).mp hmem).1
  have hsource : (transfers ctx trxs).source i = ctx.toPublicKey trx.source := by
    rw [← htrx]
    rfl
  refine ⟨⟨?_, hl.threads.congr h.links_entry fun j hj => ?_⟩, nodup_cons.mpr ⟨hnot, hl.nodup⟩,
    fun j => ?_⟩
  · rw [h.links_head, entry_ofNat hi]
  · exact h.links_entry_of_ne _ j fun he => hnot (he ▸ hj)
  · have hmaskIncluded := h.maskIncluded
    have hmem_iff := hl.mem_iff
    grind [live_congr, live_succ_of_eq]

theorem Outgoing.entered_of_ne {l : List ℕ} (hk : k ≠ ctx.toPublicKey trx.source)
    (htrx : trxAt trxs i = trx) (hmask : s.maskIncluded[i]? = some .none)
    (h : Enlisted ctx s t (ctx.toPublicKey trx.source) i) (hl : Outgoing ctx trxs i s k l) :
    Outgoing ctx trxs (i + 1) t k l := by
  have hnot : i ∉ l := fun hmem => notMem_live_self ((hl.mem_iff i).mp hmem).1
  have hsource : (transfers ctx trxs).source i ≠ k := by
    change ctx.toPublicKey (trxAt trxs i).source ≠ k
    rw [htrx]
    exact hk.symm
  refine ⟨hl.threads.congr (h.links_head_of_ne k hk) fun j hj => ?_, hl.nodup, fun j => ?_⟩
  · exact h.links_entry_of_ne k j fun he => hnot (he ▸ hj)
  · rw [live_congr h.maskIncluded, live_succ_of_eq hmask, Finset.mem_insert, hl.mem_iff]
    grind

theorem Listed.entered (hi : i < 2 ^ 32 - 1) (htrx : trxAt trxs i = trx)
    (hmask : s.maskIncluded[i]? = some .none) (h : Enlisted ctx s t (ctx.toPublicKey trx.source) i)
    (hproper : ∀ k, (t.wallet ctx k).balance.Proper) (hs : Listed ctx trxs i s) :
    Listed ctx trxs (i + 1) t := by
  refine ⟨h.length_trxList.trans hs.length_trxList, ?_, hproper, fun k => ?_⟩
  · rw [h.maskIncluded, hs.length_maskIncluded]
  · obtain ⟨l, hl⟩ := hs.outgoing k
    by_cases hk : k = ctx.toPublicKey trx.source
    · subst hk
      exact ⟨i :: l, hl.entered hi htrx hmask h⟩
    · exact ⟨l, hl.entered_of_ne hk htrx hmask h⟩

theorem Settled.entered (hi : i < 2 ^ 32 - 1) (htrx : trxAt trxs i = trx)
    (hmask : s.maskIncluded[i]? = some .none)
    (h : Booked ctx s t i trx (converted ctx.toAmount trx.countedFee)) (hs : Settled ctx trxs i s) :
    Settled ctx trxs (i + 1) t := by
  refine ⟨hs.toListed.entered hi htrx hmask h.toEnlisted h.proper, fun k => ?_⟩
  rw [h.value, hs.value, live_congr h.maskIncluded, live_succ_of_eq hmask, exactBalance,
    exactBalance, Settlement.balance_insert notMem_live_self, Settlement.Transfers.effect]
  simp only [transfers, htrx, eq_comm (a := k)]
  ring

theorem covered_entered (hamount : 0 ≤ trx.amount.value) (h : Entered ctx s t i trx fee)
    (hk : Covered ctx s k) : Covered ctx t k := by
  have hsub : ∀ j, j ∈ s.negativeNodes → j ∈ t.negativeNodes := by
    have hnegativeNodes := h.negativeNodes
    grind
  by_cases hsource : k = ctx.toPublicKey trx.source
  · rcases h.negativeNodes with ⟨-, hnonneg⟩ | hpush
    · exact .inl (hsource ▸ hnonneg)
    · exact .inr (by rw [hpush, hsource]; exact mem_cons_self)
  · refine hk.imp (fun hnonneg => ?_) (hsub k)
    rw [h.value, if_neg hsource]
    split_ifs <;> linarith

variable {r : Reason}

theorem live_setMask :
    ({ s with maskIncluded := s.maskIncluded.set i r } : TransactionsValidator).live i =
      s.live i := by
  ext j
  rw [mem_live, mem_live]
  refine and_congr_right fun hj => ?_
  rw [List.getElem?_set_ne (Nat.ne_of_gt hj)]

theorem Settled.setMask (hs : Settled ctx trxs i s) :
    Settled ctx trxs i { s with maskIncluded := s.maskIncluded.set i r } :=
  hs.congr (s := s) rfl length_set live_setMask fun _ => rfl

theorem getElem?_setMask_ne {r r' : Reason} (hr : r ≠ r') :
    (s.maskIncluded.set i r)[i]? ≠ some r' := by
  rw [List.getElem?_set_self']
  cases s.maskIncluded[i]? <;> simp [hr]

/-- The state before transaction `i` of the first pass. -/
structure InOrder (ctx : SolverContext) (trxs : List Transaction) (i : ℕ)
    (s : TransactionsValidator) : Prop where
  settled : Settled ctx trxs i s
  covered : ∀ k, Covered ctx s k
  length_negativeNodes : s.negativeNodes.length ≤ i

theorem InOrder.rejected (hr : r ≠ .none) (hs : InOrder ctx trxs i s) (h : Untouched ctx s t) :
    InOrder ctx trxs (i + 1) { t with maskIncluded := t.maskIncluded.set i r } := by
  have hsettled := (h.settled hs.settled).setMask (r := r)
  refine ⟨hsettled.congr rfl rfl (live_succ_of_ne (getElem?_setMask_ne hr)) fun _ => rfl,
    fun k => h.covered (hs.covered k), ?_⟩
  exact (h.keepsLists.negativeNodes ▸ hs.length_negativeNodes).trans (Nat.le_succ i)

theorem InOrder.entered (hi : i < 2 ^ 32 - 1) (htrx : trxAt trxs i = trx)
    (hmask : s.maskIncluded[i]? = some .none) (hamount : 0 ≤ trx.amount.value)
    (hs : InOrder ctx trxs i s)
    (h : Entered ctx s t i trx (converted ctx.toAmount trx.countedFee)) :
    InOrder ctx trxs (i + 1) t := by
  refine ⟨hs.settled.entered hi htrx hmask h.toBooked,
    fun k => covered_entered hamount h (hs.covered k), ?_⟩
  have := hs.length_negativeNodes
  have hnegativeNodes := h.negativeNodes
  grind

theorem wp_validateAt (hplain : ∀ trx ∈ trxs, PlainTransfer ctx trx) (hcount : trxs.length < 2 ^ 32)
    (hi : i < trxs.length) (hs : InOrder ctx trxs i s) :
    Wp (validateAt ctx trxs i) (fun e _ => e = .overflow)
      (fun _ t => InOrder ctx trxs (i + 1) t) s := by
  have htrx : trxs[i]? = some trxs[i] := List.getElem?_eq_getElem hi
  have htrxAt : trxAt trxs i = trxs[i] := by rw [trxAt, htrx, Option.getD_some]
  have hplain' := hplain trxs[i] (getElem_mem hi)
  obtain ⟨fee, hfee, hfeeNormalized, -⟩ := hplain'.countedFee
  have hfeeValue : fee.value = converted ctx.toAmount trxs[i].countedFee := by
    simp [converted, hfee]
  refine wp_validateAt_of htrx hs.settled.length_maskIncluded (fun hdeploy => ?_) (fun hskip => ?_)
    fun hmask => ?_
  · -- a plain transfer deploys nothing
    simp [isDeploy, hplain'.not_isExecutable] at hdeploy
  · exact ⟨hs.settled.congr rfl rfl (live_succ_of_ne hskip) fun _ => rfl, hs.covered,
      hs.length_negativeNodes.trans (Nat.le_succ i)⟩
  refine (wp_validateTransaction hplain' htrx hfee hfeeNormalized.proper hs.settled.proper
    (by rw [hs.settled.length_trxList]; exact hi)).mono fun r t ht => ?_
  rcases ht with ⟨hr, huntouched⟩ | ⟨rfl, hentered⟩
  · exact .inr ⟨hr, huntouched.keepsLists.maskIncluded, hs.rejected hr huntouched⟩
  · exact .inl ⟨rfl, hs.entered (by omega) htrxAt hmask hplain'.amount.2 (hfeeValue ▸ hentered)⟩

theorem wp_validateEach (hplain : ∀ trx ∈ trxs, PlainTransfer ctx trx)
    (hcount : trxs.length < 2 ^ 32) (hs : InOrder ctx trxs 0 s) :
    Wp (validateEach ctx trxs trxs.length 0) (fun e _ => e = .overflow)
      (fun _ t => InOrder ctx trxs trxs.length t) s :=
  wp_validateEach_of_step (fun _ hi _ hs => wp_validateAt hplain hcount hi hs) trxs.length 0 s
    (Nat.zero_add _) hs

theorem settled_start (hproper : ∀ k, (initial ctx k).balance.Proper)
    (hmask : s.maskIncluded.length = trxs.length) :
    Settled ctx trxs 0 (startIteration trxs.length s) := by
  set u := startIteration trxs.length s
  have hwallet : ∀ k, u.wallet ctx k = initial ctx k := fun k => rfl
  have hlive : u.live 0 = ∅ := rfl
  refine ⟨⟨length_replicate, hmask, hproper, fun k => ?_⟩, fun k => ?_⟩
  · refine ⟨[], ?_, nodup_nil, fun i => by simp [hlive]⟩
    change (some (initial ctx k).lastTrxInd).bind entry = none
    unfold initial
    cases ctx.walletsCache.findWallet k <;> rfl
  · rw [hwallet, hlive, exactBalance, Settlement.balance, Finset.sum_empty, add_zero]
    rfl

theorem inOrder_start (hinitial : ∀ k, (initial ctx k).balance.Proper ∧
    0 ≤ initialBalance ctx k) (s : TransactionsValidator) :
    InOrder ctx trxs 0
      (startIteration trxs.length (emptyMask trxs.length s)) :=
  ⟨settled_start (fun k => (hinitial k).1) length_replicate, fun k => .inl (hinitial k).2, le_rfl⟩

end InOrder

@[irreducible] def validateBatch (ctx : SolverContext) (fuel : ℕ) (trxs : List Transaction) :
    ValidatorM Unit := do
  modify fun s => IterValidator.startIteration trxs.length (IterValidator.emptyMask trxs.length s)
  IterValidator.validateEach ctx trxs trxs.length 0
  validateByGraph ctx trxs fuel

def NoOverdraft (ctx : SolverContext) (trxs : List Transaction) (s : TransactionsValidator) :
    Prop :=
  ∀ k, 0 ≤ exactBalance ctx trxs (s.live trxs.length) k ∧
    (s.wallet ctx k).balance.value = exactBalance ctx trxs (s.live trxs.length) k

theorem wp_validateBatch (hplain : ∀ trx ∈ trxs, PlainTransfer ctx trx)
    (hinitial : ∀ k, (WalletsState.initial ctx k).balance.Normalized ∧ 0 ≤ initialBalance ctx k)
    (hcount : trxs.length < 2 ^ 32) {fuel : ℕ} (hfuel : 3 * trxs.length < fuel) :
    Wp (validateBatch ctx fuel trxs) (fun e _ => e = .overflow)
      (fun _ t => NoOverdraft ctx trxs t) s := by
  have hstart : InOrder ctx trxs 0 _ :=
    inOrder_start (fun k => ⟨(hinitial k).1.proper, (hinitial k).2⟩) s
  unfold validateBatch
  refine .modify_bind ?_
  refine .bind (wp_validateEach hplain hcount hstart) ?_
  intro _ t ht
  have hcard : (t.live trxs.length).card ≤ trxs.length := by
    refine (Finset.card_filter_le _ _).trans ?_
    rw [Finset.card_range]
  have hpending : pending trxs.length t < fuel := by
    have := ht.length_negativeNodes
    unfold pending
    omega
  refine (wp_validateByGraph hplain (fun k => (hinitial k).2) fuel t ht.settled ht.covered
    hpending).mono ?_
  rintro - u ⟨hu, hnonneg⟩ k
  rw [← hu.value]
  exact ⟨hnonneg k, rfl⟩

/-- No overdraft: unless an `int32_t` overflows, the validation of a batch of plain transfers ends,
and no wallet is overdrawn then. -/
theorem no_overdraft (ctx : SolverContext) (trxs : List Transaction) (s : TransactionsValidator)
    (hplain : ∀ trx ∈ trxs, PlainTransfer ctx trx)
    (hinitial : ∀ k, (WalletsState.initial ctx k).balance.Normalized ∧ 0 ≤ initialBalance ctx k)
    (hcount : trxs.length < 2 ^ 32) (fuel : ℕ) (hfuel : 3 * trxs.length < fuel) :
    Wp (validateBatch ctx fuel trxs) (fun e _ => e = .overflow)
      (fun _ t => NoOverdraft ctx trxs t) s :=
  wp_validateBatch hplain hinitial hcount hfuel

section Demo

def demoContext (first second : Amount) : SolverContext where
  crypto := .zero
  loadBlock _ := .new
  getFee _ := ⟨0⟩
  toAmount _ := some 0
  ofDouble a := some ⟨a.integral + Int32.ofNat (a.fraction.toNat / 10 ^ 18),
    a.fraction % Amount.maxFraction⟩
  feeLess _ _ := some 0
  walletsIds := .new
  walletsCache := (WalletsCache.new.setWallet (sampleKey 1) { WalletData.new with balance := first
    }).setWallet (sampleKey 2) { WalletData.new with balance := second }
  isKnownSmartContract _ := false
  isClosedSmartContract _ := false
  absoluteAddress a := a
  isDeployCode _ := false
  deployAddress _ := none

def demoTransfer (source target : UInt8) (innerID : Int64) (amount : Amount) : Transaction :=
  { sampleTransfer source target amount with innerID }

def demoMask (ctx : SolverContext) (trxs : List Transaction) : Except Fault (List Reason) :=
  match validateBatch ctx 20 trxs .new with
  | .ok _ t => .ok t.maskIncluded
  | .error e _ => .error e

/-- The first wallet owns one coin and sends it to two others; the second one passes its coin on. -/
def demoBatch : List Transaction :=
  [demoTransfer 1 2 0 ⟨1, 0⟩, demoTransfer 2 3 0 ⟨1, 0⟩, demoTransfer 1 3 1 ⟨1, 0⟩]

theorem demoMask_demoBatch :
    demoMask (demoContext ⟨1, 0⟩ 0) demoBatch = .ok [.none, .none, .negativeResult] := by
  decide +kernel

theorem initial_demoContext (first second : Amount) (k : PublicKey) :
    initial (demoContext first second) k =
      ⟨noInd, if k = sampleKey 2 then second else if k = sampleKey 1 then first else 0, .new⟩ := by
  unfold initial demoContext WalletsCache.findWallet WalletsCache.setWallet
  by_cases h2 : k = sampleKey 2
  · rw [if_pos h2, h2, AList.lookup_insert]
    rfl
  rw [if_neg h2, AList.lookup_insert_ne h2]
  split_ifs with h1
  · rw [h1, AList.lookup_insert]
    rfl
  · rw [AList.lookup_insert_ne h1]
    rfl

theorem plainTransfer_demoBatch : ∀ trx ∈ demoBatch, PlainTransfer (demoContext ⟨1, 0⟩ 0) trx := by
  intro trx htrx
  have hfee : ∃ a, some (0 : Amount) = some a ∧ a.Normalized ∧ 0 ≤ a.value :=
    ⟨0, rfl, by decide, by decide⟩
  simp only [demoBatch, mem_cons, not_mem_nil, or_false] at htrx
  rcases htrx with rfl | rfl | rfl
  all_goals exact ⟨⟨by decide, by decide, rfl, rfl⟩, by decide, by decide, hfee, hfee⟩

theorem no_overdraft_demoBatch :
    ∃ t, validateBatch (demoContext ⟨1, 0⟩ 0) 20 demoBatch .new = .ok () t ∧
      NoOverdraft (demoContext ⟨1, 0⟩ 0) demoBatch t := by
  have hinitial : ∀ k, (initial (demoContext ⟨1, 0⟩ 0) k).balance.Normalized ∧
      0 ≤ initialBalance (demoContext ⟨1, 0⟩ 0) k := by
    intro k
    unfold initialBalance
    rw [initial_demoContext]
    split_ifs <;> exact ⟨by decide, by decide⟩
  have hcount : demoBatch.length < 2 ^ 32 := by decide
  have hmask := demoMask_demoBatch
  unfold demoMask at hmask
  generalize hrun : validateBatch (demoContext ⟨1, 0⟩ 0) 20 demoBatch .new = r at hmask
  cases r with
  | error e t => cases hmask
  | ok a t =>
    refine ⟨t, rfl, Wp.of_ok (E := fun e _ => e = .overflow)
      (Q := fun _ t => NoOverdraft _ _ t) ?_ hrun⟩
    exact no_overdraft _ demoBatch .new plainTransfer_demoBatch hinitial hcount 20 (by decide)

end Demo

/-! ## The last index

The index `noInd` stands for the end of a list. The transaction with this index is entered in the
list of its source, but the list looks empty then, and the transaction cannot be taken back. -/

section LastIndex

/-- Transfers of a wallet to itself, which are refused, and then one that cannot be paid. -/
def fullBatch (n : ℕ) : List Transaction :=
  List.replicate n (demoTransfer 3 3 0 0) ++ [demoTransfer 1 2 0 ⟨1, 0⟩]

theorem getElem?_fullBatch_of_lt {n i : ℕ} (h : i < n) :
    (fullBatch n)[i]? = some (demoTransfer 3 3 0 0) := by
  grind [fullBatch]

theorem getElem?_fullBatch_self (n : ℕ) : (fullBatch n)[n]? = some (demoTransfer 1 2 0 ⟨1, 0⟩) := by
  grind [fullBatch]

theorem length_fullBatch (n : ℕ) : (fullBatch n).length = n + 1 := by simp [fullBatch]

/-- Before transaction `i`, all earlier ones have been refused and no wallet has changed. -/
structure Idle (n i : ℕ) (s : TransactionsValidator) : Prop where
  length_trxList : s.trxList.length = n + 1
  length_maskIncluded : s.maskIncluded.length = n + 1
  refused : ∀ j < i, s.maskIncluded[j]? ≠ some .none
  open_last : s.maskIncluded[n]? = some .none
  wallet : ∀ k, s.wallet (demoContext 0 0) k = WalletsState.initial (demoContext 0 0) k
  negativeNodes : s.negativeNodes = []

variable {n i : ℕ}

theorem wp_validateTransaction_self (hi : i < n) :
    Succeeds (validateTransaction (demoContext 0 0) (fullBatch n) i)
      (fun r t => r ≠ .none ∧ Untouched (demoContext 0 0) s t) s := by
  refine .lift_ok_bind (b := demoTransfer 3 3 0 0)
    (by rw [transactionAt, getElem?_fullBatch_of_lt hi]) ?_
  refine .bind (P := fun r t => r ≠ .none ∧ Untouched (demoContext 0 0) s t) ?_ ?_
  · refine wp_getData_bind fun s0 hs0 hwallet => .get_bind ?_
    dsimp only
    split_ifs
    · exact .pure ⟨by split_ifs <;> decide, hs0, hwallet⟩
    · exact .pure ⟨by decide, hs0, hwallet⟩
  · rintro r t ⟨hr, ht⟩
    rw [if_neg hr]
    exact .pure ⟨hr, ht⟩

theorem wp_validateAt_self (hi : i < n) (hs : Idle n i s) :
    Succeeds (validateAt (demoContext 0 0) (fullBatch n) i)
      (fun _ t => Idle n (i + 1) t) s := by
  refine wp_validateAt_of (getElem?_fullBatch_of_lt hi) (by rw [hs.length_maskIncluded,
    length_fullBatch]) (by decide) (fun hskip => ?_) fun _ => ?_
  · refine ⟨hs.1, hs.2, fun j hj => ?_, hs.4, hs.5, hs.6⟩
    have hrefused := hs.refused
    grind
  refine (wp_validateTransaction_self hi).mono fun r t ⟨hr, hlists, hwallet⟩ =>
    .inr ⟨hr, hlists.maskIncluded, ?_⟩
  refine ⟨hlists.trxList ▸ hs.1, ?_, fun j hj => ?_, ?_, fun k => (hwallet k).trans (hs.wallet k),
    hlists.negativeNodes.trans hs.negativeNodes⟩
  · rw [length_set, hlists.maskIncluded, hs.length_maskIncluded]
  · have hmaskIncluded := hlists.maskIncluded
    have hrefused := hs.refused
    grind
  · rw [List.getElem?_set_ne (Nat.ne_of_lt hi), hlists.maskIncluded]
    exact hs.open_last

/-- After the last transaction: it is accepted, its source is negative and on the stack, and the
list of the source looks empty. -/
structure Stuck (n : ℕ) (s : TransactionsValidator) : Prop where
  refused : ∀ j < n, s.maskIncluded[j]? ≠ some .none
  accepted : s.maskIncluded[n]? = some .none
  balance : (s.wallet (demoContext 0 0) (sampleKey 1)).balance = ⟨-1, 0⟩
  head : s.links (demoContext 0 0) (sampleKey 1) none = none

theorem Idle.wallet_eq (hs : Idle n i s) (k : PublicKey) :
    s.wallet (demoContext 0 0) k = ⟨noInd, 0, .new⟩ := by
  rw [hs.wallet, initial_demoContext]
  split_ifs <;> rfl

theorem wp_checkAsSource_last (hs : ∀ k, s.wallet (demoContext 0 0) k = ⟨noInd, 0, .new⟩) :
    Succeeds (checkAsSource (demoContext 0 0) (fullBatch n) (demoTransfer 1 2 0 ⟨1, 0⟩) n
      (sampleKey 1))
      (fun r t => r = .none ∧ KeepsLists (demoContext 0 0) s t ∧
        ∀ k, (t.wallet (demoContext 0 0) k).balance = if k =
          sampleKey 1 then ⟨-1, 0⟩ else 0) s := by
  have hcheck : checkAsSource (demoContext 0 0) (fullBatch n) (demoTransfer 1 2 0 ⟨1, 0⟩) n
      (sampleKey 1) = spend (demoContext 0 0) (sampleKey 1) ⟨1, 0⟩ ⟨0⟩ := rfl
  rw [hcheck]
  refine wp_balance_bind ?_
  rw [hs]
  refine Wp.lift_ok_bind (b := ⟨-1, 0⟩) rfl ?_
  refine Wp.lift_ok_bind (b := 0) rfl ?_
  refine Wp.lift_ok_bind (b := ⟨-1, 0⟩) rfl ?_
  grind [wp_setBalance_bind, Wp.pure]

theorem wp_validateTransaction_last (hn : UInt32.ofNat n = noInd) (hs : Idle n n s) :
    Succeeds (validateTransaction (demoContext 0 0) (fullBatch n) n)
      (fun r t => r = .none ∧ Stuck n t ∧ t.negativeNodes = [sampleKey 1]) s := by
  refine .lift_ok_bind (b := demoTransfer 1 2 0 ⟨1, 0⟩)
    (by rw [transactionAt, getElem?_fullBatch_self]) ?_
  refine .bind (P := fun r t => r = .none ∧ t.maskIncluded = s.maskIncluded ∧
    t.negativeNodes = [sampleKey 1] ∧ t.links (demoContext 0 0) (sampleKey 1) none = none ∧
    ∀ k, (t.wallet (demoContext 0 0) k).balance = if k = sampleKey 1 then ⟨-1, 0⟩ else 0) ?_ ?_
  · refine wp_getData_bind fun s0 hs0 hwallet => .get_bind ?_
    have hwallet0 : ∀ k, s0.wallet (demoContext 0 0) k = ⟨noInd, 0, .new⟩ := fun k =>
      (hwallet k).trans (hs.wallet_eq k)
    rw [hwallet0]
    refine .bind (wp_checkAsSource_last hwallet0) ?_
    rintro r s1 ⟨rfl, hs1, hbalance⟩
    refine wp_balance_bind ?_
    have hkey : (demoContext 0 0).toPublicKey (demoTransfer 1 2 0 ⟨1, 0⟩).source = sampleKey 1 :=
      rfl
    rw [hkey, hbalance, if_pos rfl, if_pos (by decide), if_neg (by decide)]
    refine .modify_bind (wp_linkTransaction_bind ?_ fun t ht => .pure ?_)
    · rw [hs1.trxList, hs0.trxList, hs.length_trxList]
      exact Nat.lt_succ_self n
    · refine ⟨rfl, ?_, ?_, ?_, fun k => ?_⟩
      · rw [ht.maskIncluded, hs1.maskIncluded, hs0.maskIncluded]
      · rw [ht.negativeNodes, hs1.negativeNodes, hs0.negativeNodes, hs.negativeNodes]
      · exact ht.links_head.trans (by rw [hn, entry_noInd])
      · rw [ht.balance]
        exact hbalance k
  · rintro r t ⟨rfl, hmask, hneg, hhead, hbalance⟩
    refine wp_getData_bind fun t0 ht0 hwallet => wp_balance_bind ?_
    rw [hwallet, hbalance, if_neg (by decide)]
    refine .lift_ok_bind (b := ⟨1, 0⟩) rfl ?_
    refine wp_setBalance_bind fun u hu hbalance' => .pure ⟨rfl, ⟨?_, ?_, ?_, ?_⟩, ?_⟩
    · intro j hj
      rw [hu.maskIncluded, ht0.maskIncluded, hmask]
      exact hs.refused j hj
    · rw [hu.maskIncluded, ht0.maskIncluded, hmask]
      exact hs.open_last
    · rw [hbalance', if_neg (by decide), hwallet, hbalance, if_pos rfl]
    · rw [hu.links, ht0.links]
      exact hhead
    · rw [hu.negativeNodes, ht0.negativeNodes, hneg]

theorem wp_validateAt_last (hn : UInt32.ofNat n = noInd) (hs : Idle n n s) :
    Succeeds (validateAt (demoContext 0 0) (fullBatch n) n)
      (fun _ t => Stuck n t ∧ t.negativeNodes = [sampleKey 1]) s := by
  refine .get_bind ?_
  rw [hs.open_last]
  refine .lift_ok_bind (b := demoTransfer 1 2 0 ⟨1, 0⟩)
    (by rw [transactionAt, getElem?_fullBatch_self]) ?_
  refine .bind (wp_validateTransaction_last hn hs) ?_
  rintro r t ⟨rfl, ht⟩
  exact .pure ht

theorem wp_validateEach_full (hn : UInt32.ofNat n = noInd) (count : ℕ) :
    ∀ (i : ℕ) (s : TransactionsValidator), i + count = n → Idle n i s →
      Succeeds (validateEach (demoContext 0 0) (fullBatch n) (count + 1) i) (fun _ t => Stuck n t ∧
        t.negativeNodes = [sampleKey 1]) s := by
  induction count with
  | zero =>
    rintro i s rfl hs
    exact .bind (wp_validateAt_last hn hs) fun _ t ht => .pure ht
  | succ count ih =>
    intro i s hcount hs
    refine .bind (wp_validateAt_self (by omega) hs) fun _ t ht => ?_
    exact ih (i + 1) t (by omega) ht

/-- The list looks empty, so nothing is taken back. -/
theorem wp_removeTransactionsOf_stuck (kind : Removal) (hs : Stuck n s) :
    Succeeds (removeTransactionsOf (demoContext 0 0) (fullBatch n) kind (sampleKey 1))
      (fun found t => found = false ∧ t = s) s := by
  have hlast : (s.wallet (demoContext 0 0) (sampleKey 1)).lastTrxInd = noInd := by
    have hhead : entry (s.wallet (demoContext 0 0) (sampleKey 1)).lastTrxInd = none := hs.head
    by_contra hne
    simp [entry, hne] at hhead
  refine wp_balance_bind ?_
  rw [hs.balance, if_neg (by decide)]
  have howed : ∃ owed, absBalance kind ⟨-1, 0⟩ = .ok owed := by
    unfold absBalance
    split_ifs
    · exact ⟨⟨1, 0⟩, rfl⟩
    · exact ⟨0, rfl⟩
  obtain ⟨owed, howed⟩ := howed
  refine .lift_ok_bind howed (.get_bind ?_)
  exact .bind_of_ok (deref_eq (congrArg some hlast)) ⟨rfl, rfl⟩

theorem wp_validateByGraph_stuck (fuel : ℕ) (hs : Stuck n s)
    (hneg : s.negativeNodes = [sampleKey 1]) :
    Succeeds (validateByGraph (demoContext 0 0) (fullBatch n) (fuel + 2))
      (fun _ t => Stuck n t) s := by
  refine Wp.get_bind ?_
  rw [hneg]
  refine Wp.modify_bind ?_
  generalize hs0 : ({ s with negativeNodes := [] } : TransactionsValidator) = s0
  have hstuck : Stuck n s0 := by
    rw [← hs0]
    exact ⟨hs.1, hs.2, hs.3, hs.4⟩
  refine Wp.bind (wp_validateNode_of (P := (· = s0)) (D := (· = s0)) rfl (fun _ => rfl) ?_) ?_
  · rintro kind _ rfl
    exact (wp_removeTransactionsOf_stuck kind hstuck).mono fun _ _ h => ⟨h.2, fun _ => h.2⟩
  · grind [validateByGraph, Wp.get_bind, Wp.pure]

theorem idle_start (n : ℕ) (s : TransactionsValidator) :
    Idle n 0 (startIteration (fullBatch n).length
      (emptyMask (fullBatch n).length s)) := by
  rw [length_fullBatch]
  refine ⟨length_replicate, length_replicate, fun j hj => absurd hj (Nat.not_lt_zero j),
    ?_, fun k => rfl, rfl⟩
  change (replicate (n + 1) Reason.none)[n]? = some .none
  rw [List.getElem?_replicate, if_pos (Nat.lt_succ_self n)]

theorem Stuck.exactBalance_neg (hs : Stuck n s) :
    exactBalance (demoContext 0 0) (fullBatch n) (s.live (n + 1)) (sampleKey 1) = -Amount.unit := by
  have hlive : s.live (n + 1) = {n} := by
    ext j
    rw [mem_live, Finset.mem_singleton, Nat.lt_succ_iff_lt_or_eq]
    refine ⟨?_, fun hj => ⟨.inr hj, hj ▸ hs.accepted⟩⟩
    rintro ⟨hj | hj, hmask⟩
    · exact absurd hmask (hs.refused j hj)
    · exact hj
  have htrx : trxAt (fullBatch n) n = demoTransfer 1 2 0 ⟨1, 0⟩ := by
    rw [trxAt, getElem?_fullBatch_self, Option.getD_some]
  rw [hlive, exactBalance, Settlement.balance, Finset.sum_singleton, Settlement.Transfers.effect,
    initialBalance, initial_demoContext]
  simp only [transfers, htrx]
  decide

theorem exists_stuck (hn : UInt32.ofNat n = noInd) (s : TransactionsValidator) :
    ∃ t, validateBatch (demoContext 0 0) 20 (fullBatch n) s = .ok () t ∧ Stuck n t := by
  have hwp : Succeeds (validateBatch (demoContext 0 0) 20 (fullBatch n))
      (fun _ t => Stuck n t) s := by
    unfold validateBatch
    refine .modify_bind (.bind ?_ fun _ t (ht : Stuck n t ∧ t.negativeNodes = [sampleKey 1]) =>
      wp_validateByGraph_stuck 18 ht.1 ht.2)
    grind [idle_start, length_fullBatch, wp_validateEach_full]
  obtain ⟨_, t, hrun, ht⟩ := hwp.exists_ok
  exact ⟨t, hrun, ht⟩

theorem plainTransfer_fullBatch : ∀ trx ∈ fullBatch n, PlainTransfer (demoContext 0 0) trx := by
  intro trx htrx
  have hfee : ∃ a, some (0 : Amount) = some a ∧ a.Normalized ∧ 0 ≤ a.value :=
    ⟨0, rfl, by decide, by decide⟩
  rcases mem_append.mp htrx with hself | hlast
  · rw [(mem_replicate.mp hself).2]
    exact ⟨⟨by decide, by decide, rfl, rfl⟩, by decide, by decide, hfee, hfee⟩
  · rw [mem_singleton.mp hlast]
    exact ⟨⟨by decide, by decide, rfl, rfl⟩, by decide, by decide, hfee, hfee⟩

/-- A transfer of an amount whose fraction is not below one. -/
def improperBatch : List Transaction := [demoTransfer 1 2 0 ⟨0, 0xFFFFFFFFFFFFFFFF⟩]

def demoOutcome (ctx : SolverContext) (trxs : List Transaction) : Except Fault (Finset ℕ × ℤ) :=
  match validateBatch ctx 20 trxs .new with
  | .ok _ t => .ok (t.live trxs.length, exactBalance ctx trxs (t.live trxs.length) (sampleKey 1))
  | .error e _ => .error e

/-- An amount with an improper fraction overdraws the first wallet, which owns one coin; the balance
of the target overflows; the last index stands for the end of a list, and the transfer there is
accepted though nobody can pay it. -/
theorem overdraft_of_improper_or_overflow_or_full :
    demoOutcome (demoContext ⟨1, 0⟩ 0) improperBatch = .ok ({0}, -17446744073709551615) ∧
      demoOutcome (demoContext ⟨2147483647, 0⟩ ⟨2147483647, 0⟩) [demoTransfer 1 2 0 ⟨1, 0⟩] =
        .error .overflow ∧
      (∀ trx ∈ fullBatch 4294967295, PlainTransfer (demoContext 0 0) trx) ∧
      ∃ t, validateBatch (demoContext 0 0) 20 (fullBatch 4294967295) .new = .ok () t ∧
        exactBalance (demoContext 0 0) (fullBatch 4294967295) (t.live 4294967296) (sampleKey 1) =
          -Amount.unit := by
  refine ⟨by decide +kernel, by decide +kernel, plainTransfer_fullBatch, ?_⟩
  obtain ⟨t, hrun, ht⟩ := exists_stuck (n := 4294967295) (by decide) .new
  exact ⟨t, hrun, ht.exactBalance_neg⟩

end LastIndex

end CreditsNode.TransactionsValidator
