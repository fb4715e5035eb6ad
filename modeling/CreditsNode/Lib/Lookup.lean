import Mathlib.Data.List.AList

/-!
# Looking keys up

What an association list with values of one type says about a key after an insertion or a removal,
in particular one that is made from the positions of a list, how often an index of a list has a
value with a property, and that two majorities of a list have a member in common.
-/

theorem List.getElem?_concat_eq_some {β : Type} {front : List β} {i : Nat} {b c : β} :
    (front ++ [b])[i]? = some c ↔ front[i]? = some c ∨ (i = front.length ∧ b = c) := by
  rcases Nat.lt_trichotomy i front.length with hi | rfl | hi
  · rw [List.getElem?_append_left hi]
    constructor
    · exact .inl
    · rintro (h | ⟨rfl, -⟩)
      · exact h
      · omega
  · simp
  · rw [List.getElem?_eq_none (by simp; omega), List.getElem?_eq_none (by omega)]
    simp
    omega

namespace AList

open List

variable {α β γ : Type} [DecidableEq α]

@[grind =] theorem lookup_insert_eq_ite (m : AList fun _ : α => β) (a a' : α) (b : β) :
    (m.insert a b).lookup a' = if a' = a then some b else m.lookup a' := by
  split_ifs with h
  · rw [h, lookup_insert]
  · rw [lookup_insert_ne h]

@[grind =] theorem lookup_erase_eq_ite (m : AList fun _ : α => β) (a a' : α) :
    (m.erase a).lookup a' = if a' = a then none else m.lookup a' := by
  split_ifs with h
  · rw [h, lookup_erase]
  · rw [lookup_erase_ne h]

/-- The table has, for the positions of the list, what `R` says of them. -/
def Tabulates (R : Nat → γ → α → β → Prop) (m : AList fun _ : α => β) (l : List γ) : Prop :=
  ∀ a b, m.lookup a = some b ↔ ∃ i c, l[i]? = some c ∧ R i c a b

variable {R : Nat → γ → α → β → Prop} {m : AList fun _ : α => β} {l : List γ} {a : α} {c : γ}

theorem Tabulates.insert {b : β} (h : Tabulates R m l)
    (hnew : ∀ a' b', R l.length c a' b' ↔ a' = a ∧ b' = b)
    (hfree : ∀ i d b', l[i]? = some d → ¬R i d a b') : Tabulates R (m.insert a b) (l ++ [c]) := by
  intro a' b'
  have hlast := hnew a' b'
  rw [lookup_insert_eq_ite]
  split_ifs with ha
  · subst ha
    constructor
    · rintro ⟨⟩
      exact ⟨l.length, c, by simp, hlast.mpr ⟨rfl, rfl⟩⟩
    · rintro ⟨i, d, hi, hd⟩
      rcases List.getElem?_concat_eq_some.mp hi with hi | ⟨rfl, rfl⟩
      · exact absurd hd (hfree i d b' hi)
      · rw [(hlast.mp hd).2]
  · rw [h a' b']
    grind [List.getElem?_concat_eq_some]

theorem Tabulates.erase (h : Tabulates R m (l ++ [c]))
    (hlast : ∀ a' b', R l.length c a' b' → a' = a)
    (hfree : ∀ i d b', l[i]? = some d → ¬R i d a b') : Tabulates R (m.erase a) l := by
  intro a' b'
  rw [lookup_erase_eq_ite]
  have hheld := h a' b'
  have hgone := hlast a' b'
  grind [List.getElem?_concat_eq_some]

end AList

theorem List.countP_range_getElem? {α : Type} (p : α → Bool) (l : List α) :
    (List.range l.length).countP (fun i => l[i]?.any p) = l.countP p := by
  induction l with
  | nil => rfl
  | cons a l ih =>
    rw [length_cons, range_succ_eq_map, countP_cons, countP_map, countP_cons, ← ih]
    rfl

/-- Two majorities of the same positions have one in common. -/
theorem List.exists_of_countP_majority {α : Type} {p q : α → Bool} {l : List α}
    (hp : l.length < 2 * l.countP p) (hq : l.length < 2 * l.countP q) :
    ∃ a ∈ l, p a = true ∧ q a = true := by
  by_contra hnone
  push Not at hnone
  have hle : l.countP q ≤ l.countP (fun a => ¬ p a = true) :=
    countP_mono_left fun a ha hqa => by simpa using fun hpa => hnone a ha hpa hqa
  have hsplit := length_eq_countP_add_countP p (l := l)
  omega
