import Mathlib.Tactic.Ring
import Mathlib.Tactic.Linarith
import Mathlib.Data.List.Nodup

/-!
# Tables with two unique keys

A container of pairs with a unique index over each component, as the list of its elements: neither
component occurs twice, so each is found from the other.
-/

namespace PairTable

open List

variable {α β : Type}

/-- The element with a key is found by it, where no two have the same. -/
theorem find_key [DecidableEq β] {l : List α} {key : α → β} {k : β} {p : α}
    (h : (l.map key).Nodup) :
    (l.find? fun q => key q = k) = some p ↔ p ∈ l ∧ key p = k := by
  constructor
  · intro hfind
    exact ⟨List.mem_of_find?_eq_some hfind, by simpa using List.find?_some hfind⟩
  · rintro ⟨hp, rfl⟩
    cases hfind : l.find? fun q => key q = key p with
    | none => exact absurd (List.find?_eq_none.mp hfind p hp) (by simp)
    | some q =>
      have hq : key q = key p := by simpa using List.find?_some hfind
      rw [inj_on_of_nodup_map h (List.mem_of_find?_eq_some hfind) hp hq]

/-- No two pairs agree in one component. -/
structure OneToOne (l : List (α × β)) : Prop where
  fst : (l.map Prod.fst).Nodup
  snd : (l.map Prod.snd).Nodup

namespace OneToOne

variable {l l' : List (α × β)} {a : α} {b : β}

theorem nil : OneToOne ([] : List (α × β)) := ⟨nodup_nil, nodup_nil⟩

theorem cons (h : OneToOne l) (ha : ∀ p ∈ l, p.1 ≠ a) (hb : ∀ p ∈ l, p.2 ≠ b) :
    OneToOne ((a, b) :: l) := by
  constructor
  · have hfst := h.fst
    grind
  · have hsnd := h.snd
    grind

theorem sublist (h : OneToOne l) (hl : l'.Sublist l) : OneToOne l' :=
  ⟨h.fst.sublist (hl.map _), h.snd.sublist (hl.map _)⟩

theorem find_fst [DecidableEq α] (h : OneToOne l) {p : α × β} :
    (l.find? fun q => q.1 = a) = some p ↔ p ∈ l ∧ p.1 = a := find_key h.fst

theorem find_snd [DecidableEq β] (h : OneToOne l) {p : α × β} :
    (l.find? fun q => q.2 = b) = some p ↔ p ∈ l ∧ p.2 = b := find_key h.snd

theorem eraseP_fst [DecidableEq α] (h : OneToOne l) (a : α) :
    (l.eraseP fun p => p.1 = a) = l.filter fun p => p.1 ≠ a := by
  induction l with
  | nil => rfl
  | cons p l ih =>
    have htail := h.sublist (sublist_cons_self p l)
    by_cases hp : p.1 = a
    · have hnone : ∀ q ∈ l, q.1 ≠ a := by
        intro q hq heq
        have hmem : p.1 ∈ l.map Prod.fst := mem_map.mpr ⟨q, hq, heq.trans hp.symm⟩
        exact (nodup_cons.mp h.fst).1 hmem
      grind [filter_cons_of_neg, filter_eq_self]
    · grind

end OneToOne

end PairTable
