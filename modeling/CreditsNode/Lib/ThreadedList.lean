import Mathlib.Tactic.Ring
import Mathlib.Tactic.Linarith
import Mathlib.Data.List.Nodup

/-!
# Lists threaded through cells

A singly linked list whose links are kept in cells: the cell `none` is the head, and the cell `some
i` holds the successor of the entry `i`. A position in the list is the cell that points to it, so
that an entry is taken out by writing the cell before it.
-/

namespace ThreadedList

open List

variable {ι : Type}

/-- From cell `c` on, the cells thread the list. -/
def Threads (link : Option ι → Option ι) : Option ι → List ι → Prop
  | c, [] => link c = none
  | c, i :: l => link c = some i ∧ Threads link (some i) l

/-- The cell behind the entries `l`, if they start at cell `c`. -/
def cellAfter (c : Option ι) : List ι → Option ι
  | [] => c
  | i :: l => cellAfter (some i) l

theorem cellAfter_concat (c : Option ι) (l : List ι) (i : ι) : cellAfter c (l ++ [i]) = some i := by
  induction l generalizing c with
  | nil => rfl
  | cons j l ih => exact ih (some j)

variable {i : ι}

theorem eq_or_mem_of_cellAfter {c : Option ι} {l : List ι} (h : cellAfter c l = some i) :
    c = some i ∨ i ∈ l := by
  induction l generalizing c with
  | nil => exact .inl h
  | cons j l ih =>
    rcases ih h with hj | hl
    · exact .inr (Option.some.inj hj ▸ mem_cons_self)
    · exact .inr (mem_cons_of_mem j hl)

variable {link link' : Option ι → Option ι} {c : Option ι} {l : List ι}

/-- Only what the first cell holds and the cells of the entries matter. -/
theorem Threads.congr {c' : Option ι} (h : Threads link c l) (hc : link' c' = link c)
    (hl : ∀ i ∈ l, link' (some i) = link (some i)) : Threads link' c' l := by
  induction l generalizing c c' with
  | nil => exact hc.trans h
  | cons i l ih =>
    obtain ⟨hi, hrest⟩ := h
    refine ⟨hc.trans hi, ih hrest (hl i mem_cons_self) fun j hj => hl j ?_⟩
    exact mem_cons_of_mem i hj

theorem Threads.drop {pre post : List ι} (h : Threads link c (pre ++ post)) :
    Threads link (cellAfter c pre) post := by
  induction pre generalizing c with
  | nil => exact h
  | cons i pre ih => exact ih h.2

variable [DecidableEq ι]

/-- Writing one cell. -/
def write (link : Option ι → Option ι) (c : Option ι) (x : Option ι) : Option ι → Option ι :=
  Function.update link c x

/-- The links after the entry `i` behind cell `c` has been taken out. -/
def unlink (link : Option ι → Option ι) (c : Option ι) (i : ι) : Option ι → Option ι :=
  write (write link c (link (some i))) (some i) none

theorem unlink_of_ne {d : Option ι} (hc : d ≠ c) (hi : d ≠ some i) :
    unlink link c i d = link d := by
  unfold unlink write
  rw [Function.update_of_ne hi, Function.update_of_ne hc]

theorem unlink_self (hc : c ≠ some i) : unlink link c i c = link (some i) := by
  unfold unlink write
  rw [Function.update_of_ne hc, Function.update_self]

theorem Threads.unlink {pre post : List ι} (h : Threads link c (pre ++ i :: post))
    (hnodup : (pre ++ i :: post).Nodup) (hc : ∀ j ∈ pre ++ i :: post, c ≠ some j) :
    Threads (unlink link (cellAfter c pre) i) c (pre ++ post) := by
  induction pre generalizing c with
  | nil =>
    rw [nil_append] at *
    obtain ⟨hi, hpost⟩ := h
    obtain ⟨hnot, -⟩ := nodup_cons.mp hnodup
    have hci : c ≠ some i := hc i mem_cons_self
    change Threads (ThreadedList.unlink link c i) c post
    cases post with
    | nil => exact (unlink_self hci).trans hpost
    | cons j post =>
      refine ⟨(unlink_self hci).trans hpost.1, hpost.2.congr ?_ ?_⟩
      · grind [unlink_of_ne]
      · grind [unlink_of_ne]
  | cons j pre ih =>
    obtain ⟨hj, hrest⟩ := h
    obtain ⟨hnot, hnodup'⟩ := nodup_cons.mp hnodup
    have hcells : ∀ k ∈ pre ++ i :: post, some j ≠ some k := fun k hk he =>
      hnot (Option.some.inj he ▸ hk)
    refine ⟨?_, ih hrest hnodup' hcells⟩
    -- the head cell is written only if it is the one behind the passed entries, which it is not
    have hne : c ≠ cellAfter (some j) pre := by
      cases hpre : pre.reverse with
      | nil =>
        rw [reverse_eq_nil_iff.mp hpre]
        exact hc j mem_cons_self
      | cons k rest =>
        have hk : pre = rest.reverse ++ [k] := by
          rw [← reverse_reverse pre, hpre, reverse_cons]
        rw [hk, cellAfter_concat]
        exact hc k (by rw [hk]; simp)
    exact (unlink_of_ne hne (hc i (by simp))).trans hj

end ThreadedList
