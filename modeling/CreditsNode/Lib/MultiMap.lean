import Mathlib.Data.List.Pairwise
import Mathlib.Data.List.TakeWhile

/-!
# Multimaps

`std::multimap` as the list of its entries in increasing order of the keys. Entries with one key
stay in the order in which they were entered.
-/

/-- `std::multimap<κ, ν>`. -/
structure MultiMap (κ ν : Type) [LE κ] where
  entries : List (κ × ν)
  sorted : entries.Pairwise fun a b => a.1 ≤ b.1

namespace MultiMap

open List

variable {κ ν : Type} [LE κ]

/-- The map without entries. -/
def empty : MultiMap κ ν := ⟨[], List.Pairwise.nil⟩

/-- `erase(iterator)` of the first entry with the property. -/
def eraseFirst (m : MultiMap κ ν) (p : κ × ν → Bool) : MultiMap κ ν :=
  ⟨m.entries.eraseP p, m.sorted.sublist List.eraseP_sublist⟩

variable [DecidableLE κ]

/-- The entries before `upper_bound(key)`. -/
def upTo (m : MultiMap κ ν) (key : κ) : List (κ × ν) := m.entries.takeWhile fun e => e.1 ≤ key

/-- `erase(begin(), upper_bound(key))`. -/
def eraseUpTo (m : MultiMap κ ν) (key : κ) : MultiMap κ ν :=
  ⟨m.entries.dropWhile fun e => e.1 ≤ key, m.sorted.sublist (List.dropWhile_sublist _)⟩

theorem upTo_append_eraseUpTo (m : MultiMap κ ν) (key : κ) :
    m.upTo key ++ (m.eraseUpTo key).entries = m.entries := takeWhile_append_dropWhile

variable [Std.IsLinearPreorder κ]

theorem le_of_mem_eraseUpTo {m : MultiMap κ ν} {key : κ} {e : κ × ν}
    (h : e ∈ (m.eraseUpTo key).entries) : key ≤ e.1 := by
  have hsorted := (m.eraseUpTo key).sorted
  have hhead := List.head?_dropWhile_not (fun e : κ × ν => decide (e.1 ≤ key)) m.entries
  unfold eraseUpTo at h hsorted
  dsimp only at h hsorted
  cases hrest : m.entries.dropWhile fun e => e.1 ≤ key with
  | nil =>
    rw [hrest] at h
    cases h
  | cons first rest =>
    grind [rel_of_pairwise_cons]

/-- `emplace(key, value)`: the entry comes behind those with the same key. -/
def emplace (m : MultiMap κ ν) (key : κ) (value : ν) : MultiMap κ ν where
  entries := m.upTo key ++ (key, value) :: (m.eraseUpTo key).entries
  sorted := by
    have hsorted := m.sorted
    rw [← m.upTo_append_eraseUpTo key] at hsorted
    obtain ⟨hbefore, hafter, hcross⟩ := List.pairwise_append.mp hsorted
    refine List.pairwise_append.mpr ⟨hbefore, List.pairwise_cons.mpr ⟨fun e he => ?_, hafter⟩, ?_⟩
    · exact le_of_mem_eraseUpTo he
    · intro a ha b hb
      rcases List.mem_cons.mp hb with rfl | hb
      · have hle := List.mem_takeWhile_imp ha
        exact of_decide_eq_true hle
      · exact hcross a ha b hb

theorem emplace_perm (m : MultiMap κ ν) (key : κ) (value : ν) :
    (m.emplace key value).entries.Perm ((key, value) :: m.entries) := by
  refine perm_middle.trans (List.Perm.cons _ ?_)
  rw [upTo_append_eraseUpTo]

theorem foldl_emplace_perm (key : κ) (values : List ν) (m : MultiMap κ ν) :
    (values.foldl (fun m value => m.emplace key value) m).entries.Perm
      (values.map (fun value => (key, value)) ++ m.entries) := by
  induction values generalizing m with
  | nil => exact List.Perm.refl _
  | cons value values ih =>
    refine (ih (m.emplace key value)).trans ?_
    exact ((m.emplace_perm key value).append_left _).trans perm_middle

end MultiMap
