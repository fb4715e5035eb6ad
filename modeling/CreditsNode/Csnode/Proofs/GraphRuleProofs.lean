import CreditsNode.Csnode.Proofs.OverdraftProofs

/-!
# The invariant rule of the validation by graph

The loops of `validateByGraph` go through the lists of outgoing transactions and take entries back.
An assertion about the state holds throughout if it only looks at the lists, the mask and the
wallets, and if taking back one entry of a wallet with a negative balance keeps it.
-/

namespace CreditsNode.TransactionsValidator

open Effect

open ThreadedList (cellAfter)

/-- Amounts and fees are exact numbers. -/
structure ProperBatch (ctx : SolverContext) (trxs : List Transaction) : Prop where
  amount : ∀ trx ∈ trxs, trx.amount.Proper
  fee : ∀ commission a, ctx.toAmount commission = some a → a.Proper

/-- An assertion that taking back an entry keeps. -/
structure GraphInvariant (ctx : SolverContext) (trxs : List Transaction)
    (I : TransactionsValidator → Prop) : Prop where
  listed : ∀ {s}, I s → Listed ctx trxs trxs.length s
  congr : ∀ {s t}, I s → t.trxList = s.trxList → t.maskIncluded = s.maskIncluded →
    (∀ k, t.wallet ctx k = s.wallet ctx k) → I t
  tookBack : ∀ {s t node pre i post trx fee}, I s →
    Outgoing ctx trxs trxs.length s node (pre ++ i :: post) →
    ¬ (s.wallet ctx node).balance.ge 0 = true → trx ∈ trxs → trxAt trxs i = trx →
    transferFee ctx trx = .ok fee →
    TookBack ctx s t node (cellAfter none pre) i trx fee.value →
    Replays ctx s t (takingBack ctx node trx fee) → I t

variable {ctx : SolverContext} {trxs : List Transaction} {I : TransactionsValidator → Prop}
  {s t : TransactionsValidator} {node : PublicKey} {trx : Transaction} {kind : Removal} {i : ℕ}

theorem toAmount_of_amount {commission : AmountCommission} {a : Amount}
    (h : ctx.amount commission = .ok a) : ctx.toAmount commission = some a := by
  unfold SolverContext.amount SolverContext.converted at h
  cases hfee : ctx.toAmount commission with
  | none =>
    rw [hfee] at h
    cases h
  | some b =>
    rw [hfee] at h
    cases h
    rfl

theorem ProperBatch.proper_of_amount (hbatch : ProperBatch ctx trxs) {commission : AmountCommission}
    {a : Amount} (h : ctx.amount commission = .ok a) : a.Proper :=
  hbatch.fee commission a (toAmount_of_amount h)

theorem ProperBatch.proper_of_transferFee (hbatch : ProperBatch ctx trxs) {fee : Amount}
    (h : transferFee ctx trx = .ok fee) : fee.Proper := by
  unfold transferFee at h
  split_ifs at h
  · exact hbatch.proper_of_amount h
  · exact hbatch.proper_of_amount h

theorem wp_passesOver_untouched {absBalance : Amount} :
    Returns (passesOver ctx kind absBalance trx) (fun _ t => Untouched ctx s t) s := by
  have hsame : Untouched ctx s s := .refl
  refine .lift_bind fun tooCheap _ => ?_
  split_ifs
  · exact .pure hsame
  · exact wp_getData_bind fun s0 hs0 hwallet => wp_balance_bind (.pure ⟨hs0, hwallet⟩)
  · exact .pure hsame

namespace GraphInvariant

variable (hI : GraphInvariant ctx trxs I) (hbatch : ProperBatch ctx trxs)

include hI

theorem untouched (hs : I s) (h : Untouched ctx s t) : I t :=
  hI.congr hs h.keepsLists.trxList h.keepsLists.maskIncluded h.wallet

include hbatch

theorem wp_takeBack {pre post : List ℕ} (hmem : trx ∈ trxs) (htrx : trxAt trxs i = trx) (hs : I s)
    (hneg : ¬ (s.wallet ctx node).balance.ge 0 = true)
    (hl : Outgoing ctx trxs trxs.length s node (pre ++ i :: post))
    (hlink : s.links ctx node (cellAfter none pre) = some i) :
    Returns (takeBack ctx kind node (cellAfter none pre) i trx)
      (fun _ t => I t ∧ Outgoing ctx trxs trxs.length t node (pre ++ post)) s := by
  have hlisted := hI.listed hs
  have hlt := lt_length_of_mem_live hlisted ((hl.mem_iff i).mp (by simp)).1
  refine (wp_takeBack_replays (fun _ => trivial) (fun _ _ _ => trivial)
    (by rw [hlisted.length_maskIncluded]; exact hlt)
    (by rw [hlisted.length_trxList]; exact hlt) hlink).mono ?_
  rintro - t ⟨hremoved, fee, hfee, hreplays⟩
  have htook := hremoved.tookBack hlisted.proper (hbatch.amount trx hmem)
    (hbatch.proper_of_transferFee hfee) hreplays
  exact ⟨hI.tookBack hs hl hneg hmem htrx hfee htook hreplays, hl.tookBack htook⟩

theorem wp_removeLoop {absBalance : Amount} (fuel : ℕ) :
    ∀ (s : TransactionsValidator) (pre post : List ℕ), I s →
      ¬ (s.wallet ctx node).balance.ge 0 = true →
      Outgoing ctx trxs trxs.length s node (pre ++ post) →
      Returns (removeLoop ctx trxs kind node absBalance fuel (cellAfter none pre))
        (fun _ t => I t) s := by
  induction fuel with
  | zero => exact fun s pre post _ _ _ => .throw trivial
  | succ fuel ih =>
    intro s pre post hs hneg hl
    refine wp_deref_bind (hI.listed hs) hl ?_ ?_
    · intro _
      exact .pure hs
    rintro i rest index rfl hne htoNat hlink
    rw [if_neg hne, htoNat]
    obtain ⟨hi, -⟩ := (hl.mem_iff i).mp (by simp)
    obtain ⟨trx, hmem, htrx, htrxAt⟩ := exists_of_mem_live (hI.listed hs) hi
    refine .lift_ok_bind (b := trx) (by rw [transactionAt, htrx]) ?_
    refine .bind wp_passesOver_untouched fun passed s0 hs0 => ?_
    have hI0 := hI.untouched hs hs0
    have hl0 := hs0.outgoing hl
    have hneg0 : ¬ (s0.wallet ctx node).balance.ge 0 = true := by
      rw [hs0.wallet]
      exact hneg
    by_cases hpassed : passed = true
    · -- the position moves behind the entry
      rw [if_pos hpassed, ← ThreadedList.cellAfter_concat none pre i]
      refine ih s0 (pre ++ [i]) rest hI0 hneg0 ?_
      rw [List.append_assoc]
      exact hl0
    rw [if_neg hpassed]
    have hlink0 : s0.links ctx node (cellAfter none pre) = some i := by
      rw [hs0.keepsLists.links]
      exact hlink
    refine .bind (hI.wp_takeBack hbatch hmem htrxAt hI0 hneg0 hl0 hlink0) ?_
    rintro - s1 ⟨hI1, hl1⟩
    refine .ite (fun hone => ?_) fun hone => ?_
    · exact .pure hI1
    refine wp_balance_bind ?_
    split_ifs with hpaid
    · exact .pure hI1
    · exact ih s1 pre rest hI1 hpaid hl1

theorem wp_removeTransactionsOf (hs : I s) :
    Returns (removeTransactionsOf ctx trxs kind node) (fun _ t => I t) s := by
  refine wp_balance_bind ?_
  split_ifs with hneg
  · exact Wp.pure hs
  refine Returns.lift_bind fun owed _ => Wp.get_bind ?_
  obtain ⟨l, hl⟩ := (hI.listed hs).outgoing node
  exact hI.wp_removeLoop hbatch _ s [] l hs hneg hl

theorem wp_validateNode (hs : I s) : Returns (validateNode ctx trxs node) (fun _ t => I t) s :=
  wp_validateNode_of hs (fun _ => hs) fun _ _ hs =>
    (hI.wp_removeTransactionsOf hbatch hs).mono fun _ _ ht => ⟨ht, fun _ => ht⟩

theorem wp_validateByGraph (fuel : ℕ) : ∀ s : TransactionsValidator, I s →
    Returns (validateByGraph ctx trxs fuel) (fun _ t => I t) s := by
  induction fuel with
  | zero => exact fun s _ => .throw trivial
  | succ fuel ih =>
    intro s hs
    unfold validateByGraph
    refine .get_bind ?_
    cases hstack : s.negativeNodes with
    | nil => exact .pure hs
    | cons node nodes =>
      have hpopped : I { s with negativeNodes := nodes } := hI.congr hs rfl rfl fun _ => rfl
      exact .modify_bind (.bind (hI.wp_validateNode hbatch hpopped) fun _ t ht => ih t ht)

end GraphInvariant

end CreditsNode.TransactionsValidator
