import Mathlib.Tactic.Ring
import Mathlib.Tactic.Linarith

/-!
# Machine integers

Order instances of the fixed-width integers that key ordered maps, and `int32_t` arithmetic: signed
overflow is undefined in C++, so a computation that reaches one has no result.
-/

instance Int32.linearOrder : LinearOrder Int32 where
  le_refl := Int32.le_refl
  le_trans _ _ _ := Int32.le_trans
  lt_iff_le_not_ge a b := by
    simp only [Int32.lt_iff_toInt_lt, Int32.le_iff_toInt_le]
    omega
  le_antisymm _ _ := Int32.le_antisymm
  le_total := Int32.le_total
  toDecidableLE := inferInstance
  toDecidableLT := inferInstance
  toDecidableEq := inferInstance

instance UInt64.linearOrder : LinearOrder UInt64 where
  le_refl := UInt64.le_refl
  le_trans _ _ _ := UInt64.le_trans
  lt_iff_le_not_ge a b := by
    simp only [UInt64.lt_iff_toNat_lt, UInt64.le_iff_toNat_le]
    omega
  le_antisymm _ _ := UInt64.le_antisymm
  le_total := UInt64.le_total
  toDecidableLE := inferInstance
  toDecidableLT := inferInstance
  toDecidableEq := inferInstance

instance UInt8.linearOrder : LinearOrder UInt8 where
  le_refl := UInt8.le_refl
  le_trans _ _ _ := UInt8.le_trans
  lt_iff_le_not_ge a b := by
    simp only [UInt8.lt_iff_toNat_lt, UInt8.le_iff_toNat_le]
    omega
  le_antisymm _ _ := UInt8.le_antisymm
  le_total := UInt8.le_total
  toDecidableLE := inferInstance
  toDecidableLT := inferInstance
  toDecidableEq := inferInstance

/-- The `int32_t` with the given value, if there is one. -/
def Int32.ofInt? (x : Int) : Option Int32 :=
  if -2 ^ 31 ≤ x ∧ x < 2 ^ 31 then some (Int32.ofInt x) else none

/-- A result of a checked computation is exact. -/
theorem Int32.ofInt?_eq_some_iff {x : Int} {c : Int32} : Int32.ofInt? x = some c ↔ c.toInt = x := by
  have hc₁ := c.le_toInt
  have hc₂ := c.toInt_lt
  unfold Int32.ofInt?
  split_ifs with h
  · have hval : (Int32.ofInt x).toInt = x := Int32.toInt_ofInt_of_le h.1 h.2
    rw [Option.some.injEq]
    constructor
    · rintro rfl
      exact hval
    · rintro rfl
      exact Int32.toInt_inj.mp hval
  · simp only [false_iff]
    omega

theorem Int32.ofInt?_eq_none_iff {x : Int} : Int32.ofInt? x = none ↔ x < -2 ^ 31 ∨ 2 ^ 31 ≤ x := by
  unfold Int32.ofInt?
  split_ifs with h
  · simp only [false_iff]
    omega
  · simp only [true_iff]
    omega

/-- As an unsigned number, an `int64_t` is its value modulo `2 ^ 64`. -/
theorem Int64.toNat_toUInt64_eq (d : Int64) :
    (d.toUInt64.toNat : Int) = d.toInt % (2 ^ 64 : Nat) := by
  have hcond : d.toInt = if 2 * d.toUInt64.toNat < 2 ^ 64 then (d.toUInt64.toNat : Int)
      else (d.toUInt64.toNat : Int) - (2 ^ 64 : Nat) := BitVec.toInt_eq_toNat_cond d.toBitVec
  have hlt : d.toUInt64.toNat < 2 ^ 64 := d.toBitVec.isLt
  split at hcond <;> omega
