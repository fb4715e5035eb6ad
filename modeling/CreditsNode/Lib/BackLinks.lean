import Mathlib.Data.List.Basic
import Mathlib.Data.List.GetD

/-!
# Blocks with links to earlier blocks

The items of a sequence of blocks that have a property, newest first. They can be listed by going
back from a block with such an item to the last one before it, if every such block has a link there.
-/

namespace BackLinks

open List

variable {α : Type} (p : α → Bool) (blocks : List (List α))

/-- The items with the property in the first blocks, newest first. -/
def recent (n : Nat) : List α := ((blocks.take n).flatten.filter p).reverse

/-- The last one of the first blocks that has such an item. -/
def lastBefore : Nat → Option Nat
  | 0 => none
  | n + 1 => if (blocks.getD n []).any p then some n else lastBefore n

/-- The newest such item, with the items before it in its block. -/
structure Newest (b : Nat) (front : List α) (item : α) : Prop where
  block : ∃ back, blocks.getD b [] = front ++ item :: back ∧ ∀ x ∈ back, p x = false
  holds : p item = true
  later : ∀ b' > b, ∀ x ∈ blocks.getD b' [], p x = false

theorem recent_succ (n : Nat) :
    recent p blocks (n + 1) = ((blocks.getD n []).filter p).reverse ++ recent p blocks n := by
  unfold recent
  rw [take_add_one, flatten_append, filter_append, reverse_append, List.getD_eq_getElem?_getD]
  cases blocks[n]? <;> simp

variable {p blocks}

theorem filter_eq_nil_of_any {l : List α} (h : ¬ l.any p = true) : l.filter p = [] := by
  rw [filter_eq_nil_iff]
  intro x hx hp
  exact h (any_eq_true.mpr ⟨x, hx, hp⟩)

variable {n b : Nat}

theorem lastBefore_of_any (h : (blocks.getD n []).any p = true) :
    lastBefore p blocks (n + 1) = some n := if_pos h

theorem lastBefore_of_not_any (h : ¬ (blocks.getD n []).any p = true) :
    lastBefore p blocks (n + 1) = lastBefore p blocks n := if_neg h

/-- The blocks between have nothing to list. -/
theorem recent_of_lastBefore_some (h : lastBefore p blocks n = some b) :
    b < n ∧ (blocks.getD b []).any p = true ∧
      recent p blocks n = ((blocks.getD b []).filter p).reverse ++ recent p blocks b := by
  induction n with
  | zero => exact absurd h (Option.some_ne_none b).symm
  | succ n ih =>
    by_cases hany : (blocks.getD n []).any p = true
    · rw [lastBefore_of_any hany] at h
      obtain rfl := Option.some.inj h
      exact ⟨Nat.lt_succ_self n, hany, recent_succ p blocks n⟩
    · grind [lastBefore_of_not_any, recent_succ, filter_eq_nil_of_any]

theorem recent_of_lastBefore_none (h : lastBefore p blocks n = none) : recent p blocks n = [] := by
  induction n with
  | zero => rfl
  | succ n ih =>
    by_cases hany : (blocks.getD n []).any p = true
    · rw [lastBefore_of_any hany] at h
      exact absurd h (Option.some_ne_none n)
    · rw [lastBefore_of_not_any hany] at h
      rw [recent_succ, filter_eq_nil_of_any hany, ih h]
      rfl

variable {front : List α} {item : α}

theorem Newest.any (h : Newest p blocks b front item) : (blocks.getD b []).any p = true := by
  have hblock' := h.block
  have holds' := h.holds
  grind

theorem Newest.lastBefore (h : Newest p blocks b front item)
    (hn : b < n) : lastBefore p blocks n = some b := by
  induction n with
  | zero => exact absurd hn (Nat.not_lt_zero b)
  | succ n ih =>
    have hlater' := h.later
    have hany := h.any
    grind [lastBefore_of_not_any, lastBefore_of_any]

theorem Newest.recent (h : Newest p blocks b front item) (hn : b < n) :
    recent p blocks n = item :: (front.filter p).reverse ++ BackLinks.recent p blocks b := by
  obtain ⟨-, -, hrecent⟩ := recent_of_lastBefore_some (h.lastBefore hn)
  obtain ⟨back, hblock, hback⟩ := h.block
  have hnone : back.filter p = [] := filter_eq_nil_iff.mpr fun x hx hp =>
    Bool.false_ne_true ((hback x hx).symm.trans hp)
  have holds' := h.holds
  grind

/-! ## More blocks -/

theorem getD_append_self (block : List α) : (blocks ++ [block]).getD blocks.length [] = block := by
  rw [List.getD_eq_getElem?_getD, List.getElem?_append_right (Nat.le_refl _), Nat.sub_self]
  rfl

theorem getD_append_of_gt (block : List α) (h : blocks.length < n) :
    (blocks ++ [block]).getD n [] = [] := by
  refine getD_eq_default _ _ ?_
  rw [length_append, length_singleton]
  exact h

theorem lastBefore_append (block : List α) (h : n ≤ blocks.length) :
    lastBefore p (blocks ++ [block]) n = lastBefore p blocks n := by
  induction n with
  | zero => rfl
  | succ n ih =>
    unfold lastBefore
    rw [getD_append _ _ _ _ h, ih (Nat.le_of_succ_le h)]

theorem lastBefore_congr {q : α → Bool} (h : ∀ b, ∀ x ∈ blocks.getD b [], p x = q x) (n : Nat) :
    lastBefore p blocks n = lastBefore q blocks n := by
  induction n with
  | zero => rfl
  | succ n ih =>
    have hany : (blocks.getD n []).any p = (blocks.getD n []).any q := by
      grind
    unfold lastBefore
    rw [hany, ih]

theorem Newest.congr {q : α → Bool}
    (hnewest : Newest p blocks b front item) (h : ∀ b, ∀ x ∈ blocks.getD b [], p x = q x) :
    Newest q blocks b front item := by
  obtain ⟨back, hblock, hback⟩ := hnewest.block
  have hmem : ∀ x ∈ front ++ item :: back, p x = q x := hblock ▸ h b
  refine ⟨⟨back, hblock, fun x hx => ?_⟩, ?_, fun b' hb' x hx => ?_⟩
  · rw [← hmem x (by simp [hx]), hback x hx]
  · rw [← hmem item (by simp), hnewest.holds]
  · rw [← h b' x hx, hnewest.later b' hb' x hx]

theorem Newest.append (h : Newest p blocks b front item)
    {block : List α} (hnone : ¬ block.any p = true) :
    Newest p (blocks ++ [block]) b front item := by
  have hb : b < blocks.length := by
    by_contra hle
    obtain ⟨back, hblock, -⟩ := h.block
    rw [getD_eq_default _ _ (Nat.le_of_not_lt hle)] at hblock
    exact absurd hblock.symm (by simp)
  refine ⟨?_, h.holds, fun b' hb' x hx => ?_⟩
  · rw [getD_append _ _ _ _ hb]
    exact h.block
  · rcases Nat.lt_trichotomy b' blocks.length with hlt | rfl | hgt
    · rw [getD_append _ _ _ _ hlt] at hx
      exact h.later b' hb' x hx
    · grind
    · rw [getD_append_of_gt block hgt] at hx
      cases hx

theorem newest_append {front back : List α} (hp : p item = true) (hback : ∀ x ∈ back, p x = false) :
    Newest p (blocks ++ [front ++ item :: back]) blocks.length front item := by
  refine ⟨⟨back, getD_append_self _, hback⟩, hp, fun b' hb' x hx => ?_⟩
  rw [getD_append_of_gt _ hb'] at hx
  cases hx

theorem exists_last_of_any {l : List α} (h : l.any p = true) :
    ∃ front item back, l = front ++ item :: back ∧ p item = true ∧ ∀ x ∈ back, p x = false := by
  induction l with
  | nil => exact absurd h Bool.false_ne_true
  | cons x l ih =>
    by_cases hl : l.any p = true
    · grind
    · have hx : p x = true := by
        rw [any_cons, Bool.or_eq_true] at h
        exact h.resolve_right hl
      refine ⟨[], x, l, rfl, hx, fun y hy => ?_⟩
      rw [← Bool.not_eq_true]
      exact fun hp => hl (any_eq_true.mpr ⟨y, hy, hp⟩)

end BackLinks
