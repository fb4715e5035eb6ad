import Mathlib.Tactic.Ring
import Mathlib.Tactic.Linarith

/-!
# Anti-replay windows

A replay window remembers which integers have been seen by keeping the greatest one and a bitset of
fixed width `w`: bit `k` stands for the value `k + 1` below the greatest. `Tracks` relates such a
pair to the set of all values seen so far; raising the greatest one and filling a bit below it keep
the relation.
-/

namespace ReplayWindow

variable {w : Nat} {greatest v : ℤ} {bits : BitVec w} {S : Set ℤ}

/-- The window `(greatest, bits)` records the set `S`: `greatest` is its maximum, and bit `k` says
whether the value `k + 1` below the maximum is in `S`. -/
structure Tracks (greatest : ℤ) (bits : BitVec w) (S : Set ℤ) : Prop where
  isGreatest : IsGreatest S greatest
  bit : ∀ k < w, bits.getLsbD k = true ↔ greatest - (k + 1) ∈ S

/-- What a window of width `w` should let through: anything before the first value, anything above
the maximum, and the values at most `w` below the maximum that have not been seen. -/
def Admits (w : Nat) (S : Set ℤ) (v : ℤ) : Prop :=
  S = ∅ ∨ (∀ x ∈ S, x < v) ∨ (v ∉ S ∧ ∃ m, IsGreatest S m ∧ m - w ≤ v ∧ v < m)

theorem not_admits_of_mem (h : v ∈ S) : ¬ Admits w S v := by
  rintro (rfl | hlt | ⟨hv, -⟩)
  · exact h
  · exact lt_irrefl _ (hlt v h)
  · exact hv h

/-- With a maximum at hand, the window's verdict is decided by comparing with it. -/
theorem admits_iff (hg : IsGreatest S greatest) :
    Admits w S v ↔ greatest < v ∨ (greatest - w ≤ v ∧ v < greatest ∧ v ∉ S) := by
  constructor
  · rintro (rfl | hlt | ⟨hv, m, hm, hlo, hhi⟩)
    · exact absurd hg.1 (Set.notMem_empty _)
    · exact .inl (hlt _ hg.1)
    · obtain rfl := hm.unique hg
      exact .inr ⟨hlo, hhi, hv⟩
  · rintro (hlt | ⟨hlo, hhi, hv⟩)
    · exact .inr (.inl fun x hx => lt_of_le_of_lt (hg.2 hx) hlt)
    · exact .inr (.inr ⟨hv, greatest, hg, hlo, hhi⟩)

theorem tracks_singleton : Tracks v (0#w) {v} where
  isGreatest := isGreatest_singleton
  bit k _ := by
    simp only [BitVec.getLsbD_zero, Bool.false_eq_true, Set.mem_singleton_iff, false_iff]
    omega

namespace Tracks

theorem mem_iff_bit (h : Tracks greatest bits S) {k : Nat} (hk : k < w)
    (hv : v = greatest - (k + 1)) : v ∈ S ↔ bits.getLsbD k = true := by
  rw [h.bit k hk, hv]

/-- Recording a value above the maximum: the bits move up by the jump, and the old maximum becomes
the bit just below the jump. -/
theorem raise (h : Tracks greatest bits S) (hv : greatest < v) :
    Tracks v (bits <<< (v - greatest).toNat ||| BitVec.twoPow w ((v - greatest).toNat - 1))
      (insert v S) where
  isGreatest := by
    refine ⟨Set.mem_insert _ _, ?_⟩
    rintro x (rfl | hx)
    · exact le_rfl
    · exact (h.isGreatest.2 hx).trans hv.le
  bit k hk := by
    obtain ⟨d, hd⟩ : ∃ d : Nat, v - greatest = d + 1 := ⟨(v - greatest - 1).toNat, by omega⟩
    have hd' : (v - greatest).toNat = d + 1 := by omega
    have hne : v - ((k : ℤ) + 1) ≠ v := by omega
    simp only [hd', Nat.add_sub_cancel, BitVec.getLsbD_or, BitVec.getLsbD_shiftLeft,
      BitVec.getLsbD_twoPow, Bool.or_eq_true, Bool.and_eq_true, Set.mem_insert_iff, hne, false_or,
      decide_eq_true_eq, Bool.not_eq_true', decide_eq_false_iff_not]
    rcases lt_trichotomy k d with hkd | rfl | hkd
    · -- strictly between the two maxima: nothing is there
      have hout : v - ((k : ℤ) + 1) ∉ S := fun hmem => by
        have := h.isGreatest.2 hmem
        omega
      simp only [hout, iff_false]
      omega
    · have : v - ((k : ℤ) + 1) = greatest := by omega
      simp only [this, h.isGreatest.1, iff_true]
      exact .inr ⟨hk, trivial⟩
    · have hbit' := h.bit
      grind

/-- Recording a value below the maximum and inside the window sets its bit. -/
theorem fill (h : Tracks greatest bits S) (hv : v < greatest) :
    Tracks greatest (bits ||| BitVec.twoPow w ((greatest - v).toNat - 1)) (insert v S) where
  isGreatest := by
    refine ⟨Set.mem_insert_of_mem _ h.isGreatest.1, ?_⟩
    rintro x (rfl | hx)
    · exact hv.le
    · exact h.isGreatest.2 hx
  bit k hk := by
    have hbit := h.bit
    grind

/-- Recording a value that has been seen changes nothing. -/
theorem again (h : Tracks greatest bits S) : Tracks greatest bits (insert greatest S) := by
  rwa [Set.insert_eq_of_mem h.isGreatest.1]

end Tracks

end ReplayWindow
