import CreditsNode.Csnode.Proofs.BitHeapProofs
import CreditsNode.Csnode.Proofs.ValidatorRuleProofs

/-!
# Inner ids and rejections

The validation in order uses up the inner ids of the transactions it accepts, and the validation by
graph only rejects more.
-/

namespace CreditsNode.IterValidator

open Effect List

open TransactionsValidator WalletsState

variable (ctx : SolverContext)

/-- The mask is the same, and no inner id that was used up is free again. -/
structure KeepsUsed (s t : TransactionsValidator) : Prop where
  maskIncluded : t.maskIncluded = s.maskIncluded
  used : ∀ k id, (s.wallet ctx k).trxTail.heap.Used id → (t.wallet ctx k).trxTail.heap.Used id

instance isPreorderKeepsUsed : IsPreorder TransactionsValidator (KeepsUsed ctx) where
  refl _ := ⟨rfl, fun _ _ h => h⟩
  trans _ _ _ h₁ h₂ := ⟨h₂.1.trans h₁.1, fun k id h => h₂.2 k id (h₁.2 k id h)⟩

variable {ctx}

theorem keepsUsed_of_wallets {s t : TransactionsValidator} (hmask : t.maskIncluded = s.maskIncluded)
    (hwallets : t.wallets = s.wallets) : KeepsUsed ctx s t := by
  refine ⟨hmask, fun k id h => ?_⟩
  unfold wallet at *
  rwa [hwallets]

theorem keepsUsed_setWallet {s : TransactionsValidator} {key : PublicKey}
    {data : WalletsState.WalletData}
    (h : ∀ id, (s.wallet ctx key).trxTail.heap.Used id → data.trxTail.heap.Used id) :
    KeepsUsed ctx s (s.setWallet key data) := by
  refine ⟨rfl, fun k id hk => ?_⟩
  grind [wallet_setWallet]

theorem within_saveNewState (addr : Address) (i : ℕ) (r : Reason) :
    Within (KeepsUsed ctx) (saveNewState addr i r) := by
  refine .modify fun s => ?_
  split_ifs
  · exact keepsUsed_of_wallets rfl rfl
  · exact keepsUsed_of_wallets rfl rfl

theorem keepsUsed_link (s : TransactionsValidator) (key : PublicKey) (innerID : Int64) (i : ℕ) :
    KeepsUsed ctx s
      ({ s with trxList := s.trxList.set i (s.wallet ctx key).lastTrxInd }.setWallet key
      { s.wallet ctx key with
        lastTrxInd := UInt32.ofNat i, trxTail := (s.wallet ctx key).trxTail.push innerID }) := by
  have hset : KeepsUsed ctx s (s.setWallet key
      { s.wallet ctx key with
        lastTrxInd := UInt32.ofNat i, trxTail := (s.wallet ctx key).trxTail.push innerID }) :=
    keepsUsed_setWallet fun _ h => h.push innerID
  exact ⟨rfl, hset.used⟩

theorem keepsUsed_writes : KeptByWrites ctx (KeepsUsed ctx) where
  setBalance _ _ _ := keepsUsed_setWallet fun _ h => h
  saveNewState := within_saveNewState
  rejectLastNewState _ _ _ := .bind (.modify fun _ => keepsUsed_of_wallets rfl rfl) fun _ => .pure _
  payableMaxFees _ _ := keepsUsed_of_wallets rfl rfl

section Accept

variable {s : TransactionsValidator} {trx : Transaction} {i : ℕ} {key : PublicKey}

theorem wp_linkTransaction_used :
    Returns (linkTransaction ctx key trx.innerID i)
      (fun _ t => KeepsUsed ctx s t ∧ (t.wallet ctx key).trxTail.heap.Used trx.innerID) s := by
  refine .get_bind ?_
  refine .ite (fun hi => ?_) fun hi => ?_
  · refine .modify ⟨keepsUsed_link s key trx.innerID i, ?_⟩
    rw [wallet_setWallet_self]
    exact BitHeap.used_push_self _ _
  · exact .throw trivial

theorem wp_acceptAsSource_used :
    Returns (acceptAsSource ctx trx i key)
      (fun r t => KeepsUsed ctx s t ∧
        (r = .none → (t.wallet ctx key).trxTail.heap.Used trx.innerID)) s := by
  refine wp_balance_bind ?_
  refine .ite (fun hneg => ?_) fun hneg => ?_
  · refine .ite (fun hknown => ?_) fun hknown => ?_
    · exact .pure ⟨refl_of (KeepsUsed ctx) s, nofun⟩
    · refine .modify_bind (.bind wp_linkTransaction_used fun _ t ht => .pure ?_)
      exact ⟨⟨ht.1.maskIncluded, ht.1.used⟩, fun _ => ht.2⟩
  · exact .bind wp_linkTransaction_used fun _ t ht => .pure ⟨ht.1, fun _ => ht.2⟩

theorem wp_refuseInnerID_used (tail : TransactionsTail) :
    Returns (refuseInnerID ctx trx i tail) (fun r t => KeepsUsed ctx s t ∧ r ≠ .none) s := by
  have hr : (if tail.isDuplicated trx.innerID = true then Reason.duplicatedInnerID
      else .disabledInnerID) ≠ .none := by
    split_ifs
    · decide
    · decide
  unfold refuseInnerID
  refine .ite (fun hnew => ?_) fun hnew => ?_
  · have hsave : ∀ addr r, Within (KeepsUsed ctx) (saveNewState addr i r) := fun addr r =>
      within_saveNewState addr i r
    refine .bind ((hsave _ _).wp s) fun _ t ht => .modify_bind (.pure ⟨?_, hr⟩)
    exact ⟨ht.maskIncluded, ht.used⟩
  · exact .pure ⟨refl_of (KeepsUsed ctx) s, hr⟩

theorem wp_validateTransactionAsSource_used (trxs : List Transaction) :
    Returns (validateTransactionAsSource ctx trxs trx i)
      (fun r t => KeepsUsed ctx s t ∧ (r = .none →
        (s.wallet ctx (ctx.toPublicKey trx.source)).trxTail.isAllowed trx.innerID = true ∧
        (t.wallet ctx (ctx.toPublicKey trx.source)).trxTail.heap.Used trx.innerID)) s := by
  set key := ctx.toPublicKey trx.source
  refine wp_getData_bind fun s0 hs0 hwallet => Wp.get_bind ?_
  have hkeeps0 : KeepsUsed ctx s s0 :=
    ⟨hs0.maskIncluded, fun k id h => by rw [hwallet]; exact h⟩
  refine Wp.ite (fun hallowed => ?_) fun hallowed => ?_
  · refine (wp_refuseInnerID_used _).mono fun r t ht => ?_
    exact ⟨trans_of (KeepsUsed ctx) hkeeps0 ht.1, fun h => absurd h ht.2⟩
  refine Wp.bind ((within_checkAsSource keepsUsed_writes trxs trx i key).wp s0) fun r s1 hs1 => ?_
  grind [KeepsUsed, Wp.pure, wp_acceptAsSource_used.mono]

theorem wp_validateTransaction_used {trxs : List Transaction} (htrx : trxs[i]? = some trx) :
    Returns (validateTransaction ctx trxs i)
      (fun r t => KeepsUsed ctx s t ∧ (r = .none →
        (s.wallet ctx (ctx.toPublicKey trx.source)).trxTail.isAllowed trx.innerID = true ∧
        (t.wallet ctx (ctx.toPublicKey trx.source)).trxTail.heap.Used trx.innerID)) s := by
  refine .lift_ok_bind (b := trx) (by rw [transactionAt, htrx]) ?_
  refine .bind (wp_validateTransactionAsSource_used trxs) fun r t ht => ?_
  refine .ite (fun hr => ?_) fun hr => ?_
  · refine ((within_validateTransactionAsTarget keepsUsed_writes trx).wp t).mono fun r' u hu => ?_
    exact ⟨trans_of (KeepsUsed ctx) ht.1 hu, fun _ => ⟨(ht.2 hr).1, hu.used _ _ (ht.2 hr).2⟩⟩
  · exact .pure ht

end Accept

section Reject

/-- Nothing is accepted that was not accepted before. -/
def OnlyRejects (s t : TransactionsValidator) : Prop :=
  ∀ i : ℕ, t.maskIncluded[i]? = some .none → s.maskIncluded[i]? = some .none

instance isPreorderOnlyRejects : IsPreorder TransactionsValidator OnlyRejects where
  refl _ _ h := h
  trans _ _ _ h₁ h₂ i h := h₁ i (h₂ i h)

theorem onlyRejects_of_mask {s t : TransactionsValidator}
    (h : t.maskIncluded = s.maskIncluded) : OnlyRejects s t := fun _ hi => h ▸ hi

theorem within_onlyRejects {α : Type} {m : ValidatorM α}
    (hm : Within (KeepsUsed ctx) m) : Within OnlyRejects m := fun s =>
  (hm s).imp (fun _ _ h => onlyRejects_of_mask h.maskIncluded)
    fun _ _ h => onlyRejects_of_mask h.maskIncluded

theorem within_setMask {i : ℕ} {r : Reason} (hr : r ≠ .none) :
    Within OnlyRejects (setMask i r) := by
  refine .bind .get fun s => .ite (.modify fun s j hj => ?_) (.throw _)
  dsimp only at hj
  by_cases hji : j = i
  · subst hji
    rw [List.getElem?_set_self'] at hj
    cases hs : s.maskIncluded[j]? with
    | none => simp [hs] at hj
    | some q =>
      simp only [hs, Option.map_eq_map, Option.map_some, Function.const_apply,
        Option.some.injEq] at hj
      exact absurd hj hr
  · rwa [List.getElem?_set_ne (Ne.symm hji)] at hj

variable {trxs : List Transaction} {kind : Removal} {node : PublicKey}

theorem within_deref (prevNext : Option ℕ) : Within OnlyRejects (deref ctx node prevNext) := by
  refine .bind .get fun s => ?_
  cases s.pointee ctx node prevNext with
  | none => exact .throw _
  | some index => exact .pure _

theorem within_takeBack (prevNext : Option ℕ) (i : ℕ) (trx : Transaction) :
    Within OnlyRejects (takeBack ctx kind node prevNext i trx) := by
  refine .bind (within_onlyRejects (within_getData keepsUsed_writes _)) fun dest => ?_
  refine .bind (within_setMask (by decide)) fun _ => .bind (.lift _) fun _ => ?_
  refine .bind (within_balance node) fun _ => .bind (.lift _) fun _ =>
    .bind (.lift _) fun _ => .bind (within_onlyRejects (within_setBalance keepsUsed_writes node _))
      fun _ => ?_
  refine .bind (within_balance dest) fun _ => .bind (.lift _) fun _ =>
    .bind (within_onlyRejects (within_setBalance keepsUsed_writes dest _)) fun _ => ?_
  have hunlink : Within OnlyRejects (unlinkTransaction ctx node prevNext i) :=
    .bind (within_deref _) fun _ => .bind
      (.modify fun _ => onlyRejects_of_mask maskIncluded_setPointee)
      fun _ => .modify fun _ => onlyRejects_of_mask maskIncluded_setPointee
  refine .bind hunlink fun _ => .bind (.modify fun _ => onlyRejects_of_mask rfl) fun _ => ?_
  exact .ite (.modify fun _ => onlyRejects_of_mask rfl) (.pure _)

theorem within_passesOver (absBalance : Amount) (trx : Transaction) :
    Within OnlyRejects (passesOver ctx kind absBalance trx) := by
  refine .bind (.lift _) fun _ => .ite (.pure _) (.ite ?_ (.pure _))
  exact .bind (within_onlyRejects (within_getData keepsUsed_writes _)) fun dest =>
    .bind (within_balance dest) fun _ => .pure _

theorem within_removeLoop (absBalance : Amount) (fuel : ℕ) : ∀ prevNext : Option ℕ,
    Within OnlyRejects (removeLoop ctx trxs kind node absBalance fuel prevNext) := by
  induction fuel with
  | zero => exact fun _ => .throw _
  | succ fuel ih =>
    intro prevNext
    refine .bind (within_deref prevNext) fun _ => .ite (.pure _) (.bind (.lift _) fun trx => ?_)
    refine .bind (within_passesOver absBalance trx) fun _ => .ite (ih _) ?_
    refine .bind (within_takeBack prevNext _ trx) fun _ => .ite (.pure _) ?_
    exact .bind (within_balance node) fun _ => .ite (.pure _) (ih prevNext)

theorem within_removeTransactionsOf :
    Within OnlyRejects (removeTransactionsOf ctx trxs kind node) := by
  refine .bind (within_balance node) fun _ => .ite (.pure _) ?_
  exact .bind (.lift _) fun _ => .bind .get fun _ => within_removeLoop _ _ _

theorem within_validateNode : Within OnlyRejects (validateNode ctx trxs node) := by
  refine .bind (within_balance node) fun _ => .ite (.pure _) (.bind ?_ fun _ =>
    .pure _)
  refine .bind within_removeTransactionsOf fun _ => .ite (.pure _) ?_
  refine .bind within_removeTransactionsOf fun _ => .ite (.pure _) ?_
  exact .bind within_removeTransactionsOf fun _ => .ite (.pure _) within_removeTransactionsOf

theorem within_validateByGraph (fuel : ℕ) : Within OnlyRejects (validateByGraph ctx trxs fuel) := by
  induction fuel with
  | zero => exact .throw _
  | succ fuel ih =>
    refine .bind .get fun s => ?_
    cases s.negativeNodes with
    | nil => exact .pure _
    | cons node nodes =>
      exact .bind (.modify fun _ => onlyRejects_of_mask rfl) fun _ =>
        .bind within_validateNode fun _ => ih

end Reject

end CreditsNode.IterValidator
