import CreditsNode.Lib.Lookup
import Mathlib.Tactic.Ring
import Mathlib.Tactic.Linarith

/-!
# Hash-linked chains

A chain is a list of blocks, the oldest first, each of which carries its position and the hash of
the one before it. `Linked` builds chains by adding blocks at the end; `Linked.seq_eq` and
`Linked.prev_eq` say what that means block by block, and `Linked.forall₂_of_tip_eq` that the last
hash determines the chain.
-/

/-- How a block shows its position, its hash and the hash it points back to. -/
structure HashChain (β η : Type) where
  seq : β → Nat
  hash : β → η
  prev : β → Option η

namespace HashChain

variable {β η : Type} (L : HashChain β η)

def tip (chain : List β) : Option η := chain.getLast?.map L.hash

/-- Sequences count from zero, and each block names the one before it. -/
inductive Linked : List β → Prop
  | genesis {b : β} : L.seq b = 0 → Linked [b]
  | snoc {chain : List β} {b : β} : Linked chain → L.seq b = chain.length → L.prev b = L.tip chain →
      Linked (chain ++ [b])

@[simp] theorem tip_concat (chain : List β) (b : β) : L.tip (chain ++ [b]) = some (L.hash b) := by
  simp [tip]

variable {L} {chain chain' : List β} {b : β}

/-- A chain of two blocks or more is the last block after a chain. -/
theorem Linked.exists_snoc (h : L.Linked chain) (hlen : 2 ≤ chain.length) :
    ∃ front b, chain = front ++ [b] ∧ L.Linked front ∧ L.seq b = front.length ∧
      L.prev b = L.tip front := by
  cases h with
  | genesis _ => simp at hlen
  | snoc hfront hseq hprev => exact ⟨_, _, rfl, hfront, hseq, hprev⟩

/-- Positions are contiguous from zero. -/
theorem Linked.seq_eq (h : L.Linked chain) {i : Nat} (hi : chain[i]? = some b) : L.seq b = i := by
  induction h generalizing i b with
  | genesis hseq =>
    grind
  | snoc _ hseq _ ih =>
    rcases List.getElem?_concat_eq_some.mp hi with hi | ⟨rfl, rfl⟩
    · exact ih hi
    · exact hseq

/-- Each block points back to the hash of its predecessor. -/
theorem Linked.prev_eq (h : L.Linked chain) {i : Nat} {a : β} (ha : chain[i]? = some a)
    (hb : chain[i + 1]? = some b) : L.prev b = some (L.hash a) := by
  induction h generalizing i a b with
  | genesis _ => simp at hb
  | @snoc front c _ _ hprev ih =>
    grind [tip]

theorem Linked.length_pos (h : L.Linked chain) : 0 < chain.length := by
  cases h with
  | genesis _ => exact Nat.zero_lt_one
  | snoc _ _ _ => simp

/-- If blocks with the same hash have the same position and predecessor, two chains with the same
last hash are the same all the way back. -/
theorem Linked.forall₂_of_tip_eq {R : β → β → Prop} (h : L.Linked chain) (h' : L.Linked chain')
    (hR : ∀ a ∈ chain, ∀ b ∈ chain', L.hash a = L.hash b →
      R a b ∧ L.seq a = L.seq b ∧ L.prev a = L.prev b)
    (htip : L.tip chain = L.tip chain') : List.Forall₂ R chain chain' := by
  induction h generalizing chain' with
  | @genesis a hseq =>
    cases h' with
    | @genesis b _ => exact .cons (hR a (by simp) b (by simp) (Option.some.inj htip)).1 .nil
    | @snoc front b hfront hseq' _ =>
      have hsame := (hR a (by simp) b (by simp) (by simpa [tip] using htip)).2.1
      have := hfront.length_pos
      omega
  | @snoc front a hfront hseq hprev ih =>
    have hpos := hfront.length_pos
    cases h' with
    | @genesis b hseq' =>
      have hsame := (hR a (by simp) b (by simp) (by simpa [tip] using htip)).2.1
      omega
    | @snoc front' b hfront' hseq' hprev' =>
      obtain ⟨hab, -, hsame⟩ := hR a (by simp) b (by simp) (by simpa using htip)
      refine List.rel_append (ih hfront' (fun c hc d hd => ?_) ?_) (.cons hab .nil)
      · exact hR c (List.mem_append_left _ hc) d (List.mem_append_left _ hd)
      · rw [← hprev, hsame, hprev']

end HashChain
