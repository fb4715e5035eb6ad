import CreditsNode.Csdb.Proofs.AmountDivisionProofs
import CreditsNode.Solver.SmartConsensus

/-!
# The final fees of an execution

The sum of the fees that the trusted confidants report is divided by the square of their number and
multiplied by it. The quotient loses less than two units, in the integral part and in the fraction,
and the multiple is exact.
-/

namespace CreditsNode.SmartConsensus

open Effect

variable {n : Nat}

/-- The fee is at most the sum divided by the number, and less than `2 * n` units below. -/
def IsShareOf (n : Nat) (sum fee : Amount) : Prop :=
  fee.Normalized ∧ fee.value * n ≤ sum.value ∧ sum.value < (fee.value + 2 * n) * n

theorem toInt_square (hn : n * n < 2 ^ 31) :
    (UInt32.ofNat n * UInt32.ofNat n).toInt32.toInt = (n * n : Nat) := by
  have hsmall : n < UInt32.size := by
    have hle : n ≤ n * n := Nat.le_mul_self n
    exact lt_of_le_of_lt hle (hn.trans (by decide))
  have hnat : (UInt32.ofNat n * UInt32.ofNat n).toNat = n * n := by
    rw [UInt32.toNat_mul, UInt32.toNat_ofNat_of_lt' hsmall]
    omega
  show (UInt32.ofNat n * UInt32.ofNat n).toBitVec.toInt = _
  rw [BitVec.toInt_eq_toNat_of_lt, UInt32.toNat_toBitVec, hnat]
  rw [UInt32.toNat_toBitVec, hnat]
  omega

theorem zero_addAssign {fee : Amount} (h : fee.Normalized) :
    (0 : Amount).addAssign fee = .ok fee := by
  have hzero : (0 : Amount).integral.toInt = 0 := rfl
  have hfraction : (0 : Amount).fraction + fee.fraction = fee.fraction := UInt64.zero_add _
  have hsmall : ¬ fee.fraction ≥ Amount.maxFraction := not_le.mpr h
  unfold Amount.addAssign
  rw [hzero, Int.zero_add, Amount.checked_toInt, hfraction]
  show (if fee.fraction ≥ Amount.maxFraction then _ else _) = _
  rw [if_neg hsmall]
  rfl

theorem value_lt {a : Amount} (h : a.Normalized) : a.value < 2 ^ 31 * Amount.unit := by
  have hlt := a.integral.toInt_lt
  rw [Amount.normalized_iff] at h
  unfold Amount.value Amount.unit
  omega

theorem exists_finalFee {fee : Amount} (hpos : 0 < n) (hn : n * n < 2 ^ 31) (hfee : fee.Normalized)
    (h0 : 0 ≤ fee.value) : ∃ c, finalFee n fee = .ok c ∧ IsShareOf n fee c := by
  have hsquare := toInt_square hn
  have hle : n ≤ n * n := Nat.le_mul_self n
  have hone : (1 : Int) ≤ (n * n : Nat) := by exact_mod_cast hpos.trans_le hle
  have hint : (Int32.ofNat n).toInt = n := Int32.toInt_ofNat_of_lt (by omega)
  obtain ⟨q, hq, hqn, hq0, hqle, hqlt, -⟩ := Amount.div_spec (hsquare ▸ hone) hfee h0
  rw [hsquare] at hqle hqlt
  push_cast at hqle hqlt
  -- the multiple is at most the sum, so it fits
  have hmul : q.value * n ≤ fee.value := by
    have hn1 : (1 : Int) ≤ n := by exact_mod_cast hpos
    calc q.value * n ≤ q.value * n * n :=
          le_mul_of_one_le_right (mul_nonneg hq0 (by omega)) hn1
      _ = q.value * (n * n) := mul_assoc _ _ _
      _ ≤ fee.value := hqle
  have hmax : fee.value < 2 ^ 31 * Amount.unit := value_lt hfee
  have hq1 : 0 ≤ q.integral.toInt * n := mul_nonneg (hqn.integral_nonneg_iff.mpr hq0) (by omega)
  have hq2 : q.integral.toInt * n * Amount.unit ≤ q.value * n := by
    unfold Amount.value
    nlinarith
  obtain ⟨c, hc, hcn, hcv⟩ := Amount.exists_mulNat (n := Int32.ofNat n) hqn (by omega)
    (by rw [hint]; unfold Amount.unit at *; omega) (by rw [hint]; omega)
  rw [hint] at hcv
  refine ⟨c, ?_, hcn, ?_, ?_⟩
  · have hneg : ¬ 0 > Int32.ofNat n := by
      rw [gt_iff_lt, Int32.lt_iff_toInt_lt, hint]
      exact not_lt.mpr (Int.natCast_nonneg n)
    unfold finalFee Amount.mulInt
    rw [zero_addAssign hfee]
    show (fee.div _ >>= _) = _
    rw [hq]
    show (if 0 > Int32.ofNat n then _ else q.mulNat _) = _
    rw [if_neg hneg]
    exact hc
  · rw [hcv, mul_assoc]
    exact hqle
  · rw [hcv]
    calc fee.value < (q.value + 2) * (n * n) := hqlt
      _ = (q.value * n + 2 * n) * n := by ring

/-- Each fee that is not negative gets its share, and none throws. -/
theorem calculateFinalFee_bounds (finalFees : List Amount) (hpos : 0 < n) (hn : n * n < 2 ^ 31)
    (hfees : ∀ fee ∈ finalFees, fee.Normalized ∧ 0 ≤ fee.value) :
    ∃ fees, calculateFinalFee finalFees n = .ok fees ∧
      List.Forall₂ (IsShareOf n) finalFees fees := by
  induction finalFees with
  | nil => exact ⟨[], rfl, .nil⟩
  | cons fee finalFees ih =>
    obtain ⟨hfee, h0⟩ := hfees fee List.mem_cons_self
    obtain ⟨c, hc, hbounds⟩ := exists_finalFee hpos hn hfee h0
    obtain ⟨fees, hrest, hall⟩ := ih fun fee hmem => hfees fee (List.mem_cons_of_mem _ hmem)
    refine ⟨c :: fees, ?_, .cons hbounds hall⟩
    unfold calculateFinalFee at hrest ⊢
    rw [List.mapM_cons, hc, hrest]
    rfl

theorem calculateFinalFee_bounds_three :
    ∃ fees, calculateFinalFee [⟨1, 0⟩] 3 = .ok fees ∧ List.Forall₂ (IsShareOf 3) [⟨1, 0⟩] fees :=
  calculateFinalFee_bounds [⟨1, 0⟩] (by decide) (by decide) (by decide)

end CreditsNode.SmartConsensus
