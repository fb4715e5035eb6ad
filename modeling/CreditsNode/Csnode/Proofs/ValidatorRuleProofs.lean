import CreditsNode.Csnode.Proofs.TransactionsValidatorProofs

/-!
# Rules for the first pass of the validator

What the validation of one transaction keeps follows from what the single writes keep: a balance,
the entry in a list, and the notes about new states. What the pass over the batch keeps follows from
what one transaction keeps.
-/

namespace CreditsNode.TransactionsValidator

open Effect IterValidator

/-- A relation that every write of the validation of a transaction keeps. -/
structure KeptByWrites (ctx : SolverContext)
    (R : TransactionsValidator → TransactionsValidator → Prop) : Prop where
  setBalance : ∀ s key b, R s (s.setWallet key { s.wallet ctx key with balance := b })
  saveNewState : ∀ addr i r, Within R (saveNewState addr i r)
  rejectLastNewState : ∀ addr r, r ≠ .none → Within R (rejectLastNewState addr r)
  payableMaxFees : ∀ s fees, R s { s with payableMaxFees := fees }

section Within

variable {ctx : SolverContext} {R : TransactionsValidator → TransactionsValidator → Prop}
  [IsPreorder TransactionsValidator R] (hR : KeptByWrites ctx R)

include hR

theorem within_getData (address : Address) : Within R (getData ctx address) :=
  .bind (.modify fun s => hR.setBalance s _ _) fun _ => .pure _

omit hR in
theorem within_balance (key : PublicKey) : Within R (balance ctx key) := .bind .get fun _ => .pure _

omit [IsPreorder TransactionsValidator R] in
theorem within_setBalance (key : PublicKey) (b : Amount) : Within R (setBalance ctx key b) :=
  .modify fun s => hR.setBalance s key b

theorem within_chargeNewState (trx initTransaction : Transaction) (fee : Amount) :
    Within R (chargeNewState ctx trx initTransaction fee) := by
  refine .bind (.lift _) fun maxFee => .bind (.lift _) fun startFee => .bind (.lift _) fun _ =>
    .bind (.lift _) fun _ => .bind (.lift _) fun _ => .ite (.pure _) ?_
  refine .bind (within_getData hR _) fun key => .bind (within_balance key) fun _ =>
    .bind (.lift _) fun _ => .bind (.lift _) fun _ => .bind (.lift _) fun _ =>
      .bind (.lift _) fun _ =>
    .bind (.lift _) fun _ => .bind (within_setBalance hR key _) fun _ => ?_
  exact .ite (.pure _) (.pure _)

theorem within_validateNewStateAsSource (trx : Transaction) :
    Within R (validateNewStateAsSource ctx trx) := by
  refine .ite (.pure _) (.bind (.lift _) fun initTransaction => .ite (.pure _) (.ite (.pure _) ?_))
  exact within_chargeNewState hR trx initTransaction _

theorem within_chargeStarter (trx initTransaction : Transaction) (addr : Address) :
    Within R (chargeStarter ctx trx initTransaction addr) := by
  refine .ite (.bind (.lift _) fun _ => .bind .get fun _ => .bind (.lift _) fun _ => ?_)
    (hR.rejectLastNewState addr _ (by decide))
  refine .ite (hR.rejectLastNewState addr _ (by decide))
    (.bind (.modify fun s => ?_) fun _ => .pure _)
  exact hR.payableMaxFees s _

variable (trxs : List Transaction) (trx : Transaction)

theorem within_checkEmitted : Within R (checkEmitted ctx trxs trx) := by
  refine .bind .get fun s => .ite (.pure _) (.bind .get fun s => ?_)
  cases s.validNewStates with
  | nil => exact .pure _
  | cons state states =>
    exact .bind (.lift _) fun _ => .bind (.lift _) fun initTransaction =>
      within_chargeStarter hR trx initTransaction _

theorem within_spend (key : PublicKey) (amount : Amount) (fee : AmountCommission) :
    Within R (spend ctx key amount fee) :=
  .bind (within_balance key) fun _ => .bind (.lift _) fun _ => .bind (.lift _) fun _ =>
    .bind (.lift _) fun _ => .bind (within_setBalance hR key _) fun _ => .pure _

theorem within_validateCommonAsSource (key : PublicKey) :
    Within R (validateCommonAsSource ctx trxs trx key) := by
  have hspend := within_spend hR key
  refine .ite (.pure _) (.bind (.lift _) fun _ => .bind (.lift _) fun _ => .ite (.pure _) ?_)
  refine .ite (hspend _ _) (.ite ?_ (.ite (hspend _ _) (hspend _ _)))
  refine .bind (within_checkEmitted hR trxs trx) fun _ => .ite (.pure _) ?_
  exact .bind (within_balance key) fun _ => .bind (.lift _) fun _ =>
    .bind (within_setBalance hR key _) fun _ => .pure _

variable (i : ℕ)

theorem within_checkAsSource (key : PublicKey) : Within R (checkAsSource ctx trxs trx i key) := by
  refine .ite (.bind ?_ fun r => .bind (hR.saveNewState _ i r) fun _ => .pure _)
    (within_validateCommonAsSource hR trxs trx key)
  exact .bind .get fun _ => .ite (.bind .get fun _ => .pure _)
    (within_validateNewStateAsSource hR trx)

theorem within_validateTransactionAsTarget : Within R (validateTransactionAsTarget ctx trx) :=
  .bind (within_getData hR _) fun key => .bind (within_balance key) fun _ =>
    .bind (.lift _) fun _ =>
    .bind (within_setBalance hR key _) fun _ => .pure _

end Within

theorem wp_validateAt_of {ctx : SolverContext} {trxs : List Transaction} {trx : Transaction} {i : ℕ}
    {s : TransactionsValidator} {E : Fault → TransactionsValidator → Prop}
    {Q : Unit → TransactionsValidator → Prop} (htrx : trxs[i]? = some trx)
    (hlength : s.maskIncluded.length = trxs.length)
    (hdeploy : isDeploy ctx trx = true →
      deployAdditionalCheck ctx trx = .none)
    (hskip : s.maskIncluded[i]? ≠ some .none → Q () s)
    (hopen : s.maskIncluded[i]? = some .none → Wp (validateTransaction ctx trxs i) E (fun r t =>
      (r = .none ∧ Q () t) ∨ (r ≠ .none ∧ t.maskIncluded = s.maskIncluded ∧
        Q () { t with maskIncluded := t.maskIncluded.set i r })) s) :
    Wp (validateAt ctx trxs i) E Q s := by
  have hi : i < s.maskIncluded.length := hlength ▸ (List.getElem?_eq_some_iff.mp htrx).1
  refine .get_bind ?_
  cases hmask : s.maskIncluded[i]? with
  | none => exact absurd hmask (List.getElem?_eq_getElem hi ▸ Option.some_ne_none _)
  | some reason =>
    dsimp only
    split_ifs with hreason
    · exact .pure (hskip (by rw [hmask]; exact fun h => hreason (Option.some.inj h)))
    · refine .lift_ok_bind (b := trx) (by rw [transactionAt, htrx]) ?_
      rw [not_not.mp hreason] at hmask
      refine .bind (hopen hmask) ?_
      rintro r t (⟨rfl, haccepted⟩ | ⟨hr, hsame, hrefused⟩)
      · have hpasses : (if (decide (Reason.none = .none) && isDeploy ctx trx) = true
            then deployAdditionalCheck ctx trx else .none) = .none := by
          grind
        rw [hpasses, if_neg (not_not_intro rfl)]
        exact .pure haccepted
      · simp only [hr, decide_false, Bool.false_and, Bool.false_eq_true, if_false, ne_eq,
          not_false_iff, if_true]
        exact wp_setMask (hsame ▸ hi) hrefused

theorem wp_validateEach_of_step {ctx : SolverContext} {trxs : List Transaction}
    {E : Fault → TransactionsValidator → Prop} {I : ℕ → TransactionsValidator → Prop}
    (hstep : ∀ i < trxs.length, ∀ s, I i s →
      Wp (validateAt ctx trxs i) E (fun _ t => I (i + 1) t) s) (count : ℕ) :
    ∀ (i : ℕ) (s : TransactionsValidator), i + count = trxs.length → I i s →
      Wp (validateEach ctx trxs count i) E (fun _ t => I trxs.length t) s := by
  induction count with
  | zero =>
    intro i s hsum hs
    exact Wp.pure (hsum ▸ hs)
  | succ count ih =>
    grind [validateEach, Wp.bind]

end CreditsNode.TransactionsValidator
