import CreditsNode.Csnode.Proofs.UndoProofs
import CreditsNode.Lib.Lookup
import Mathlib.Data.List.TakeWhile

/-!
# Cancelled executions

The executions of a contract that ran into their timeout are listed newest first. A new state takes
away those of its block and of the blocks before it, also those behind the execution it belongs to.
-/

namespace CreditsNode.WalletsCache.Updater

open Effect List

variable {ids : List TransactionID} {contract : Address} {tid : TransactionID} {s : WalletsCache}

/-- The place in the chain is before the other or the same. -/
def NotAfter (a b : TransactionID) : Prop :=
  a.poolSeq < b.poolSeq ∨ a.poolSeq = b.poolSeq ∧ a.index ≤ b.index

instance decidableNotAfter (a b : TransactionID) : Decidable (NotAfter a b) :=
  inferInstanceAs (Decidable (_ ∨ _))

/-- The executions of the contract that `rollbackExceededTimeoutContract` has cancelled one after
the other. -/
def cancelAll (contract : Address) (ids : List TransactionID) : UpdaterM Unit :=
  ids.forM (pushCanceledSmart contract)

theorem wp_cancelAll (contract : Address) (ids : List TransactionID) (s : WalletsCache) :
    Succeeds (cancelAll contract ids)
      (fun _ t => canceled t contract = ids.reverse ++ canceled s contract) s := by
  induction ids generalizing s with
  | nil => exact rfl
  | cons id ids ih =>
    refine .modify_bind ((ih _).mono fun _ t ht => ?_)
    rw [ht]
    simp [canceled]

/-- What a new state leaves of the list: the part before the first execution of its block or of one
before. -/
theorem wp_checkCanceledSmart (contract : Address) (tid : TransactionID) (s : WalletsCache) :
    Succeeds (checkCanceledSmart contract tid false) (fun _ t => canceled t contract =
      (canceled s contract).takeWhile fun i => tid.poolSeq < i.poolSeq) s := by
  have htest : ∀ i : TransactionID, (!(decide (i.poolSeq ≤ tid.poolSeq) ||
      (decide (i.poolSeq = tid.poolSeq) && decide (i.index ≤ tid.index)))) =
        decide (tid.poolSeq < i.poolSeq) := by
    intro i
    grind [UInt64.not_le]
  unfold checkCanceledSmart
  rw [if_neg Bool.false_ne_true]
  refine .get_bind ?_
  cases hlookup : s.canceledSmarts.lookup contract with
  | none => exact .pure (by simp [canceled, hlookup])
  | some list =>
    refine .set ?_
    simp only [canceled, hlookup, htest]
    split_ifs with hempty <;> simp_all

/-- In a list that goes back in the chain the executions of later blocks stand first. -/
theorem takeWhile_reverse (hsorted : ids.Pairwise NotAfter) :
    ids.reverse.takeWhile (fun i => tid.poolSeq < i.poolSeq) =
      (ids.filter fun i => tid.poolSeq < i.poolSeq).reverse := by
  induction ids with
  | nil => rfl
  | cons id ids ih =>
    obtain ⟨hid, hids⟩ := pairwise_cons.mp hsorted
    by_cases hlater : tid.poolSeq < id.poolSeq
    · have hall : ∀ i ∈ id :: ids, tid.poolSeq < i.poolSeq := by
        unfold NotAfter at hid
        grind
      rw [filter_eq_self.mpr (by simpa using hall)]
      exact takeWhile_eq_self_iff.mpr fun i hi => by simpa using hall i (mem_reverse.mp hi)
    · rw [filter_cons_of_neg (by simpa using hlater), reverse_cons, takeWhile_append,
        ih hids]
      simp only [hlater, takeWhile_cons, decide_false]
      grind [filter_eq_self, length_filter_eq_length_iff]

/-- The list after a new state has the executions of later blocks. These are the ones behind the
start of the new state exactly if no cancelled execution of the same block stands behind it. -/
theorem checkCanceledSmart_iff (tid : TransactionID) (hnone : canceled s contract = [])
    (hsorted : ids.Pairwise NotAfter) :
    Wp (do cancelAll contract ids; checkCanceledSmart contract tid false) (fun _ _ => False)
      (fun _ t => canceled t contract = (ids.filter fun i => tid.poolSeq < i.poolSeq).reverse ∧
        (canceled t contract = (ids.filter fun i => ¬ NotAfter i tid).reverse ↔
          ∀ i ∈ ids, i.poolSeq = tid.poolSeq → i.index ≤ tid.index)) s := by
  refine .bind (wp_cancelAll contract ids s) fun _ t ht => ?_
  refine (wp_checkCanceledSmart contract tid t).mono fun _ u hu => ?_
  rw [ht, hnone, append_nil, takeWhile_reverse hsorted] at hu
  refine ⟨hu, ?_⟩
  rw [hu, reverse_inj]
  constructor
  · intro heq i hi hseq
    by_contra hbehind
    have hmem : i ∈ ids.filter fun i => ¬ NotAfter i tid := by
      simp only [mem_filter, NotAfter]
      grind
    rw [← heq] at hmem
    grind
  · intro hsame
    refine filter_congr fun i hi => ?_
    have hbehind := hsame i hi
    unfold NotAfter
    grind

/-- Executions of two blocks; the new state of the first takes it away. -/
theorem checkCanceledSmart_iff_blocks :
    Wp (do cancelAll .new [⟨1, 0⟩, ⟨2, 0⟩]; checkCanceledSmart .new ⟨1, 0⟩ false) (fun _ _ => False)
      (fun _ t => canceled t .new = [⟨2, 0⟩]) WalletsCache.new :=
  (checkCanceledSmart_iff ⟨1, 0⟩ rfl (by decide)).mono fun _ _ h => h.1

/-- The second of two executions of a block goes with the first. -/
theorem checkCanceledSmart_same_block :
    Wp (do cancelAll .new [⟨1, 0⟩, ⟨1, 1⟩]; checkCanceledSmart .new ⟨1, 0⟩ false) (fun _ _ => False)
      (fun _ t => canceled t .new = []) WalletsCache.new := by
  exact rfl

end CreditsNode.WalletsCache.Updater
