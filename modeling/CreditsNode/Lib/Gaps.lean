import Mathlib.Tactic.Ring
import Mathlib.Tactic.Linarith
import Mathlib.Data.List.Pairwise

/-!
# The gaps between numbers

A set of numbers as a list of closed intervals, and the intervals that an ascending list of numbers
leaves free between a start and its last element.
-/

namespace Gaps

open List

variable {α β : Type} [Preorder α] [Preorder β]

/-- The intervals are in ascending order, none is inverted and no two of them meet. -/
structure Ascending (intervals : List (α × α)) : Prop where
  nonInverted : ∀ i ∈ intervals, i.1 ≤ i.2
  disjoint : intervals.Pairwise fun i j => i.2 < j.1

def Covers (intervals : List (α × α)) (x : α) : Prop := ∃ i ∈ intervals, i.1 ≤ x ∧ x ≤ i.2

theorem covers_cons {i : α × α} {intervals : List (α × α)} {x : α} :
    Covers (i :: intervals) x ↔ (i.1 ≤ x ∧ x ≤ i.2) ∨ Covers intervals x := by
  simp only [Covers, mem_cons, exists_eq_or_imp]

theorem ascending_nil : Ascending ([] : List (α × α)) :=
  ⟨nofun, List.Pairwise.nil⟩

theorem Ascending.cons {i : α × α} {intervals : List (α × α)} (h : Ascending intervals)
    (hi : i.1 ≤ i.2) (hlt : ∀ j ∈ intervals, i.2 < j.1) : Ascending (i :: intervals) :=
  ⟨forall_mem_cons.mpr ⟨hi, h.nonInverted⟩, pairwise_cons.mpr ⟨hlt, h.disjoint⟩⟩

section Embedding

variable {f : α → β} {intervals : List (α × α)}

/-- Intervals seen in a larger order. -/
theorem ascending_map (hle : ∀ x y, f x ≤ f y ↔ x ≤ y) (hlt : ∀ x y, f x < f y ↔ x < y) :
    Ascending (intervals.map fun i => (f i.1, f i.2)) ↔ Ascending intervals := by
  constructor
  · intro h
    refine ⟨fun i hi => ?_, ?_⟩
    · exact (hle _ _).mp (h.nonInverted _ (mem_map_of_mem hi))
    · exact (pairwise_map.mp h.disjoint).imp fun hij => (hlt _ _).mp hij
  · intro h
    refine ⟨fun i hi => ?_, ?_⟩
    · obtain ⟨j, hj, rfl⟩ := mem_map.mp hi
      exact (hle _ _).mpr (h.nonInverted j hj)
    · exact pairwise_map.mpr (h.disjoint.imp fun hij => (hlt _ _).mpr hij)

theorem covers_map (hle : ∀ x y, f x ≤ f y ↔ x ≤ y) (x : α) :
    Covers (intervals.map fun i => (f i.1, f i.2)) (f x) ↔ Covers intervals x := by
  constructor
  · rintro ⟨_, hmem, hbounds⟩
    obtain ⟨i, hi, rfl⟩ := mem_map.mp hmem
    exact ⟨i, hi, (hle _ _).mp hbounds.1, (hle _ _).mp hbounds.2⟩
  · rintro ⟨i, hi, hbounds⟩
    exact ⟨_, mem_map_of_mem hi, (hle _ _).mpr hbounds.1, (hle _ _).mpr hbounds.2⟩

end Embedding

/-- The intervals between the numbers of a list, from `start` on. -/
def gaps : ℕ → List ℕ → List (ℕ × ℕ)
  | _, [] => []
  | start, k :: ks => if start < k then (start, k - 1) :: gaps (k + 1) ks else gaps (k + 1) ks

variable {start x : ℕ} {ks : List ℕ}

/-- The numbers are in ascending order and none is below the start. -/
structure From (start : ℕ) (ks : List ℕ) : Prop where
  sorted : ks.Pairwise (· < ·)
  le : ∀ k ∈ ks, start ≤ k

theorem From.tail {k : ℕ} (h : From start (k :: ks)) : From (k + 1) ks :=
  ⟨(pairwise_cons.mp h.sorted).2, (pairwise_cons.mp h.sorted).1⟩

theorem From.mono {start' : ℕ} (h : From start ks) (hle : start' ≤ start) : From start' ks :=
  ⟨h.sorted, fun k hk => hle.trans (h.le k hk)⟩

theorem start_le_of_mem_gaps (h : From start ks) {i : ℕ × ℕ} (hi : i ∈ gaps start ks) :
    start ≤ i.1 := by
  induction ks generalizing start with
  | nil => cases hi
  | cons k ks ih =>
    have hk := h.le k mem_cons_self
    have htail := h.tail
    grind [gaps]

theorem ascending_gaps (h : From start ks) : Ascending (gaps start ks) := by
  induction ks generalizing start with
  | nil => exact ascending_nil
  | cons k ks ih =>
    unfold gaps
    split_ifs with hlt
    · refine (ih h.tail).cons (Nat.le_sub_one_of_lt hlt) fun j hj => ?_
      have := start_le_of_mem_gaps h.tail hj
      omega
    · exact ih h.tail

theorem covers_gaps (h : From start ks) :
    Covers (gaps start ks) x ↔ start ≤ x ∧ x ∉ ks ∧ ∃ k ∈ ks, x < k := by
  induction ks generalizing start with
  | nil => simp [gaps, Covers]
  | cons k ks ih =>
    have hk := h.le k mem_cons_self
    have hks := h.tail.le
    -- a number below `k` is not in the rest of the list
    have hrest : k + 1 ≤ x ∧ x ∉ ks ∧ (∃ k ∈ ks, x < k) ↔
        k < x ∧ x ∉ k :: ks ∧ ∃ k' ∈ k :: ks, x < k' := by
      constructor
      · rintro ⟨hx, hnot, k', hk', hlt⟩
        refine ⟨hx, ?_, k', mem_cons_of_mem k hk', hlt⟩
        exact not_mem_cons_of_ne_of_not_mem (Nat.ne_of_gt hx) hnot
      · rintro ⟨hx, hnot, k', hk', hlt⟩
        refine ⟨hx, fun hmem => hnot (mem_cons_of_mem k hmem), ?_⟩
        rcases mem_cons.mp hk' with rfl | hk'
        · omega
        · exact ⟨k', hk', hlt⟩
    have hbelow : x < k → x ∉ k :: ks ∧ ∃ k' ∈ k :: ks, x < k' := by
      intro hx
      refine ⟨fun hmem => ?_, k, mem_cons_self, hx⟩
      rcases mem_cons.mp hmem with rfl | hmem
      · omega
      · have := hks x hmem
        omega
    have hself : x ∉ k :: ks → x ≠ k := fun hnot heq => hnot (heq ▸ mem_cons_self)
    unfold gaps
    split_ifs with hlt
    · rw [covers_cons, ih h.tail, hrest]
      constructor
      · rintro (⟨hstart, hend⟩ | ⟨hx, hwhole⟩)
        · have hx : x < k := by
            have : x ≤ k - 1 := hend
            omega
          exact ⟨hstart, hbelow hx⟩
        · exact ⟨by omega, hwhole⟩
      · rintro ⟨hstart, hwhole⟩
        rcases Nat.lt_or_ge x k with hx | hx
        · exact .inl ⟨hstart, Nat.le_sub_one_of_lt hx⟩
        · exact .inr ⟨lt_of_le_of_ne hx (hself hwhole.1).symm, hwhole⟩
    · rw [ih h.tail, hrest]
      constructor
      · rintro ⟨hx, hwhole⟩
        exact ⟨by omega, hwhole⟩
      · rintro ⟨hstart, hwhole⟩
        have hne := hself hwhole.1
        exact ⟨by omega, hwhole⟩

end Gaps
