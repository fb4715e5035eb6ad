import CreditsNode.Csdb.Proofs.AmountLawProofs
import Mathlib.Algebra.Order.Round
import Mathlib.Data.Rat.Floor

/-!
# Ratios and quotients

The constructor from a ratio rounds half up. Division works on absolute values and divides the two
parts of an amount one by one, so a quotient is short of the exact one by less than two units.
-/

namespace CreditsNode.Amount

open Effect

variable {a c : Amount} {n : Int32}

theorem add_half_div (x : Nat) {d : Nat} (hd : 0 < d) :
    ((x + d / 2) / d : Nat) = round (x / d : ℚ) := by
  set q := (x + d / 2) / d
  have hlow : 2 * q * d ≤ 2 * x + d := by
    have := Nat.div_mul_le_self (x + d / 2) d
    grind
  have hhigh : 2 * x + d < 2 * (q + 1) * d := by
    have := Nat.lt_div_mul_add hd (a := x + d / 2)
    grind
  rw [round_eq, eq_comm, Int.floor_eq_iff]
  have hd' : (0 : ℚ) < d := Nat.cast_pos.mpr hd
  have hsum : (x / d + 1 / 2 : ℚ) = (2 * x + d) / (2 * d) := by field_simp
  rw [hsum, le_div_iff₀ (by positivity), div_lt_iff₀ (by positivity)]
  refine ⟨?_, ?_⟩
  · have : (2 * q * d : ℚ) ≤ 2 * x + d := mod_cast hlow
    push_cast
    linarith
  · have : (2 * x + d : ℚ) < 2 * (q + 1) * d := mod_cast hhigh
    push_cast
    linarith

/-- The ratio in units, rounded half up. -/
def roundedRatio (numerator denominator : UInt64) : ℤ :=
  round (numerator.toNat * 10 ^ 18 / denominator.toNat : ℚ)

/-- The fraction is the ratio rounded to units; a ratio of one or more, or by zero, throws. -/
theorem ofRatio_rounds (integral : Int32) (numerator denominator : UInt64) :
    (denominator = 0 ∨ 10 ^ 18 ≤ roundedRatio numerator denominator →
        ∃ what, ofRatio integral numerator denominator = .error (.exception what)) ∧
      (denominator ≠ 0 → roundedRatio numerator denominator < 10 ^ 18 →
        ∃ c, ofRatio integral numerator denominator = .ok c ∧ c.integral = integral ∧
          c.fraction.toNat = roundedRatio numerator denominator) := by
  by_cases hzero : denominator = 0
  · subst hzero
    exact ⟨fun _ => ⟨_, rfl⟩, fun h => absurd rfl h⟩
  have hpos : 0 < denominator.toNat := Nat.pos_of_ne_zero fun h => hzero (UInt64.toNat_inj.mp h)
  have hmul := Uint128.toNat_mul numerator maxFraction
  rw [toNat_maxFraction] at hmul
  have hhalf : (denominator / 2).toNat = denominator.toNat / 2 := UInt64.toNat_div _ _
  have hnumerator := numerator.toNat_lt
  have hdenominator := denominator.toNat_lt
  have hadd := Uint128.toNat_add64 (v := Uint128.mul numerator maxFraction) (s := denominator / 2)
    (by omega)
  obtain ⟨r, hr, hq, -⟩ :=
    ((Uint128.mul numerator maxFraction).add64 (denominator / 2)).div_spec hzero
  have hround : (r.quotient.toNat : ℤ) = roundedRatio numerator denominator := by
    rw [hq, hadd, hmul, hhalf, add_half_div _ hpos]
    push_cast
    rfl
  have hparts : r.quotient.toNat = r.quotient.hi.toNat * 2 ^ 64 + r.quotient.lo.toNat := rfl
  have hcheck : (0 ≠ r.quotient.hi ∨ maxFraction ≤ r.quotient.lo) ↔ 10 ^ 18 ≤ r.quotient.toNat := by
    rw [ne_comm, ne_eq, ← UInt64.toNat_inj, UInt64.le_iff_toNat_le, toNat_maxFraction,
      UInt64.toNat_zero]
    omega
  unfold ofRatio
  rw [hr, ← hround, Effect.ok_bind, checkFraction]
  refine ⟨fun h => ?_, fun _ h => ?_⟩
  · have hlarge := h.resolve_left hzero
    rw [if_pos (hcheck.mpr (by omega))]
    exact ⟨_, rfl⟩
  · rw [if_neg (hcheck.not.mpr (by omega))]
    exact ⟨⟨integral, r.quotient.lo⟩, rfl, rfl, by dsimp only; omega⟩

/-- The sign of the exact quotient, and its magnitude up to two units. -/
def IsQuotient (x n c : ℤ) : Prop :=
  (c = 0 ∨ c.sign = x.sign * n.sign) ∧ |c| * |n| ≤ |x| ∧ |x| < (|c| + 2) * |n|

theorem IsQuotient.neg_left {x n c : ℤ} (h : IsQuotient (-x) n c) : IsQuotient x n (-c) := by
  unfold IsQuotient at h ⊢
  rw [Int.sign_neg, neg_mul, ← neg_eq_iff_eq_neg, abs_neg] at h
  rwa [neg_eq_zero, Int.sign_neg, abs_neg]

theorem IsQuotient.neg_right {x n c : ℤ} (h : IsQuotient x (-n) c) : IsQuotient x n (-c) := by
  unfold IsQuotient at h ⊢
  rw [Int.sign_neg, mul_neg, ← neg_eq_iff_eq_neg, abs_neg] at h
  rwa [neg_eq_zero, Int.sign_neg, abs_neg]

theorem isQuotient_of_nonneg {x n c : ℤ} (hn : 1 ≤ n) (hc : 0 ≤ c) (hlow : c * n ≤ x)
    (hhigh : x < (c + 2) * n) : IsQuotient x n c := by
  have hx : 0 ≤ x := le_trans (by positivity) hlow
  refine ⟨?_, ?_⟩
  · rcases hc.eq_or_lt with rfl | hpos
    · exact .inl rfl
    · have hxpos : 0 < x := lt_of_lt_of_le (by positivity) hlow
      rw [Int.sign_eq_one_of_pos hpos, Int.sign_eq_one_of_pos hxpos,
        Int.sign_eq_one_of_pos (by omega)]
      exact .inr rfl
  · rw [abs_of_nonneg hc, abs_of_nonneg hx, abs_of_nonneg (by omega : 0 ≤ n)]
    exact ⟨hlow, hhigh⟩

theorem IsQuotient.min_le {x n c : ℤ} (h : IsQuotient x n c) (hn : 1 ≤ n) : min x 0 ≤ c := by
  obtain ⟨hsign, hlow, -⟩ := h
  rcases hsign with rfl | hsign
  · exact min_le_right x 0
  rw [Int.sign_eq_one_of_pos (by omega : 0 < n), mul_one] at hsign
  rcases le_or_gt 0 c with hc | hc
  · exact (min_le_right x 0).trans hc
  · have hx : x < 0 := by
      rw [Int.sign_eq_neg_one_of_neg hc] at hsign
      exact Int.neg_of_sign_eq_neg_one hsign.symm
    rw [abs_of_neg hc, abs_of_neg hx, abs_of_nonneg (by omega : 0 ≤ n)] at hlow
    exact (min_le_left x 0).trans (by nlinarith)

theorem smallest_of_min_le (hc : c.Normalized) (h : min a.value 0 ≤ c.value)
    (hmin : c.integral.toInt = -2 ^ 31) : a.integral.toInt = -2 ^ 31 := by
  have hlow := a.integral.le_toInt
  rw [normalized_iff] at hc
  unfold value unit at h
  omega

theorem div_parts_lt {i f n : Nat} (hn : 0 < n) (hf : f < 10 ^ 18) :
    i * 10 ^ 18 / n % 10 ^ 18 + f / n < 10 ^ 18 := by
  have hi : i * 10 ^ 18 / n = i / n * 10 ^ 18 + i % n * 10 ^ 18 / n := by
    conv_lhs => rw [← Nat.div_add_mod i n]
    rw [Nat.add_mul, Nat.mul_assoc, Nat.add_comm, Nat.add_mul_div_left _ _ hn, Nat.add_comm]
  have hlt : i % n < n := Nat.mod_lt _ hn
  have hq : i % n * 10 ^ 18 / n * n ≤ i % n * 10 ^ 18 := Nat.div_mul_le_self _ _
  have hr : f / n * n ≤ f := Nat.div_mul_le_self _ _
  have hsum : (i % n * 10 ^ 18 / n + f / n) * n < 10 ^ 18 * n := by nlinarith
  have hsmall := Nat.lt_of_mul_lt_mul_right hsum
  grind

theorem divPos_spec (hn : 2 ≤ n.toInt) (ha : a.Normalized) (hi : 0 ≤ a.integral.toInt) :
    ∃ c, a.divPos n = .ok c ∧ c.Normalized ∧
      c.value = a.integral.toInt * unit / n.toInt + a.fraction.toNat / n.toInt := by
  rw [normalized_iff] at ha
  have hd : n.toInt64.toUInt64.toNat = n.toInt.toNat := toNat_toUInt64_of_nonneg (by omega)
  have hI : a.integral.toInt64.toUInt64.toNat = a.integral.toInt.toNat :=
    toNat_toUInt64_of_nonneg hi
  have hmul := Uint128.toNat_mul a.integral.toInt64.toUInt64 maxFraction
  obtain ⟨r, hr, hq, -⟩ := (Uint128.mul a.integral.toInt64.toUInt64 maxFraction).div_spec
    (show n.toInt64.toUInt64 ≠ 0 by
      intro h0
      rw [h0, UInt64.toNat_zero] at hd
      omega)
  rw [hmul, hd, hI, toNat_maxFraction] at hq
  have hIlt := a.integral.toInt_lt
  have hqlt : r.quotient.toNat < 2 ^ 31 * 10 ^ 18 := by
    rw [hq]
    exact lt_of_le_of_lt (Nat.div_le_self _ _) (by omega)
  obtain ⟨c, hc, hcv, hcn, hci, hcf⟩ := ofUint128_spec hqlt
  have hfrac : (a.fraction / n.toInt64.toUInt64).toNat = a.fraction.toNat / n.toInt.toNat := by
    rw [UInt64.toNat_div, hd]
  have hparts := div_parts_lt (i := a.integral.toInt.toNat) (n := n.toInt.toNat) (by omega) ha
  have hsum : (c.fraction + a.fraction / n.toInt64.toUInt64).toNat =
      c.fraction.toNat + a.fraction.toNat / n.toInt.toNat := by
    rw [UInt64.toNat_add, hfrac]
    omega
  refine ⟨⟨c.integral, c.fraction + a.fraction / n.toInt64.toUInt64⟩, ?_, ?_, ?_⟩
  · have hzero : (0 : Int32).toInt = 0 := rfl
    have hnot : ¬ maxFraction < c.fraction + a.fraction / n.toInt64.toUInt64 := by
      rw [UInt64.lt_iff_toNat_lt, hsum, toNat_maxFraction]
      omega
    simp only [divPos, add, hr, hc, hzero, Int.add_zero, checked_toInt, hnot, if_false, bind,
      Except.bind, pure, Except.pure]
  · rw [normalized_iff, hsum]
    omega
  · have hcast : ((a.integral.toInt.toNat * 10 ^ 18 / n.toInt.toNat : Nat) : Int) =
        a.integral.toInt * unit / n.toInt := by
      unfold unit
      push_cast
      rw [Int.toNat_of_nonneg hi, Int.toNat_of_nonneg (by omega)]
    have hcast' : ((a.fraction.toNat / n.toInt.toNat : Nat) : Int) =
        a.fraction.toNat / n.toInt := by
      push_cast
      rw [Int.toNat_of_nonneg (by omega)]
    rw [← hcast, ← hcast', ← hq, ← hcv]
    unfold value
    simp only [hsum]
    push_cast
    ring

theorem divPos_quotient (hn : 2 ≤ n.toInt) (ha : a.Normalized) (h0 : 0 ≤ a.value) :
    ∃ c, a.divPos n = .ok c ∧ c.Normalized ∧ 0 ≤ c.value ∧ c.value * n.toInt ≤ a.value ∧
      a.value < (c.value + 2) * n.toInt := by
  have hi := ha.integral_nonneg_iff.mpr h0
  obtain ⟨c, hc, hcn, hcv⟩ := divPos_spec hn ha hi
  have hq := Int.ediv_mul_le (a.integral.toInt * unit) (b := n.toInt) (by omega)
  have hr := Int.ediv_mul_le (a.fraction.toNat : Int) (b := n.toInt) (by omega)
  have hq' := Int.lt_ediv_add_one_mul_self (a.integral.toInt * unit) (b := n.toInt) (by omega)
  have hr' := Int.lt_ediv_add_one_mul_self (a.fraction.toNat : Int) (b := n.toInt) (by omega)
  refine ⟨c, hc, hcn, ?_, ?_, ?_⟩
  · rw [hcv]
    unfold unit
    have := Int.ediv_nonneg (a := a.integral.toInt * 10 ^ 18) (b := n.toInt) (by omega) (by omega)
    have := Int.ediv_nonneg (a := (a.fraction.toNat : Int)) (b := n.toInt) (by omega) (by omega)
    omega
  · rw [hcv, Int.add_mul]
    unfold value
    omega
  · rw [Int.add_mul] at hq' hr'
    rw [hcv, Int.add_mul, Int.add_mul]
    unfold value
    omega

theorem two_le_toInt (hn : 1 ≤ n.toInt) (h1 : n ≠ 1) : 2 ≤ n.toInt := by
  have hne : n.toInt ≠ 1 := fun h => h1 (Int32.toInt_inj.mp h)
  omega

theorem div_eq_divNat (hn : 1 ≤ n.toInt) : a.div n = a.divNat n := by
  have hn0 : ¬ 0 = n := fun h => by simp [← h] at hn
  grind [div, Int32.lt_iff_toInt_lt]

theorem div_spec (hn : 1 ≤ n.toInt) (ha : a.Normalized) (h0 : 0 ≤ a.value) :
    ∃ c, a.div n = .ok c ∧ c.Normalized ∧ 0 ≤ c.value ∧ c.value * n.toInt ≤ a.value ∧
      a.value < (c.value + 2) * n.toInt ∧ (n.toInt = 1 → c = a) := by
  rw [div_eq_divNat hn]
  unfold divNat
  split_ifs with h1 hneg
  · subst h1
    refine ⟨a, rfl, ha, h0, (Int.mul_one _).le, ?_, fun _ => rfl⟩
    change a.value < (a.value + 2) * 1
    omega
  · rw [integral_neg_iff] at hneg
    exact absurd (ha.integral_nonneg_iff.mpr h0) (by omega)
  · have h2 := two_le_toInt hn (Ne.symm h1)
    obtain ⟨c, hc, hcn, hc0, hlow, hhigh⟩ := divPos_quotient h2 ha h0
    exact ⟨c, hc, hcn, hc0, hlow, hhigh, fun h => by omega⟩

theorem divNat_spec (hn : 1 ≤ n.toInt) (ha : a.Normalized) :
    Yields (a.divNat n) (fun e => e = .overflow ∧ n ≠ 1 ∧ a.integral.toInt = -2 ^ 31) fun c =>
      c.Normalized ∧ IsQuotient a.value n.toInt c.value ∧ (n = 1 → c = a) := by
  unfold divNat
  split_ifs with h1 hneg
  · subst h1
    refine ⟨ha, ⟨.inr (mul_one _).symm, ?_⟩, fun _ => rfl⟩
    change |a.value| * |1| ≤ |a.value| ∧ |a.value| < (|a.value| + 2) * |1|
    rw [abs_one]
    omega
  · -- the absolute value is divided
    refine .bind ((neg_faults ha.proper).imp fun _ h => ⟨h.1, Ne.symm h1, h.2⟩) ?_
    rintro b ⟨hbn, hbv⟩
    have hb0 : 0 ≤ b.value := by
      have := ha.integral_nonneg_iff
      rw [integral_neg_iff] at hneg
      omega
    obtain ⟨c, hc, hcn, hc0, hlow, hhigh⟩ := divPos_quotient (two_le_toInt hn (Ne.symm h1)) hbn hb0
    rw [hc]
    have hcmin := hcn.proper.integral_gt hc0
    refine ((neg_faults hcn.proper).imp fun _ h => absurd h.2 hcmin.ne').mono ?_
    rintro d ⟨hdn, hdv⟩
    rw [hbv] at hlow hhigh
    rw [hdv]
    exact ⟨hdn, (isQuotient_of_nonneg hn hc0 hlow hhigh).neg_left, fun h => absurd h.symm h1⟩
  · rw [integral_neg_iff] at hneg
    have h0 := ha.integral_nonneg_iff.mp (by omega)
    obtain ⟨c, hc, hcn, hc0, hlow, hhigh⟩ := divPos_quotient (two_le_toInt hn (Ne.symm h1)) ha h0
    rw [hc]
    exact ⟨hcn, isQuotient_of_nonneg hn hc0 hlow hhigh, fun h => absurd h.symm h1⟩

theorem div_quotient (ha : a.Normalized) (hn : n ≠ 0) :
    Yields (a.div n) (fun _ => n.toInt = -2 ^ 31 ∨ n ≠ 1 ∧ a.integral.toInt = -2 ^ 31) fun c =>
      c.Normalized ∧ IsQuotient a.value n.toInt c.value ∧ (n = 1 → c = a) := by
  unfold div
  rw [if_neg hn.symm]
  split_ifs with hneg
  · have hneg' : n.toInt < 0 := Int32.lt_iff_toInt_lt.mp hneg
    have hone : n ≠ 1 := by
      rintro rfl
      exact absurd hneg (by decide)
    have hlow := n.le_toInt
    refine .bind ((checked_faults _).imp fun _ h => .inl (by omega)) fun m hm => ?_
    refine .bind ((divNat_spec (by omega) ha).imp fun _ h => .inr ⟨hone, h.2.2⟩) ?_
    rintro q ⟨hqn, hquot, -⟩
    have hsmallest := smallest_of_min_le hqn (hquot.min_le (by omega))
    refine ((neg_faults hqn.proper).imp fun _ h => .inr ⟨hone, hsmallest h.2⟩).mono ?_
    rintro d ⟨hdn, hdv⟩
    rw [hm] at hquot
    rw [hdv]
    exact ⟨hdn, hquot.neg_right, fun h => absurd h hone⟩
  · have hpos : 1 ≤ n.toInt := by
      have hne : n.toInt ≠ 0 := fun h => hn (Int32.toInt_inj.mp h)
      have := Int32.lt_iff_toInt_lt.not.mp hneg
      have hz : (0 : Int32).toInt = 0 := rfl
      omega
    exact (divNat_spec hpos ha).imp fun _ h => .inr h.2

theorem normalized_div (ha : a.Normalized) (h : a.div n = .ok c) : c.Normalized := by
  by_cases hn : n = 0
  · subst hn
    cases h
  · exact ((div_quotient ha hn).of_ok h).1

theorem divNat_eq_ok (h : a.divNat n = .ok c) :
    1 = n ∧ c = a ∨ 1 ≠ n ∧ -2 ^ 31 < a.integral.toInt := by
  unfold divNat at h
  split_ifs at h with h1 hneg
  · cases h
    exact .inl ⟨h1, rfl⟩
  · obtain ⟨b, hb, -⟩ := bind_eq_ok h
    exact .inr ⟨h1, integral_gt_of_neg hb⟩
  · rw [integral_neg_iff] at hneg
    exact .inr ⟨h1, by omega⟩

theorem integral_gt_of_div (h : a.div n = .ok c) : n = 1 ∨ -2 ^ 31 < a.integral.toInt := by
  unfold div at h
  split_ifs at h with hzero hneg
  · obtain ⟨m, hm, h⟩ := bind_eq_ok h
    obtain ⟨q, hq, hc⟩ := bind_eq_ok h
    rcases divNat_eq_ok hq with ⟨-, rfl⟩ | ⟨-, hgt⟩
    · exact .inr (integral_gt_of_neg hc)
    · exact .inr hgt
  · rcases divNat_eq_ok h with ⟨hone, -⟩ | ⟨-, hgt⟩
    · exact .inl hone.symm
    · exact .inr hgt

/-- A quotient is normalised, has the sign of the exact one, is short of it by less than two units,
and dividing by one changes nothing, exactly if the smallest integral part has not to be negated. -/
theorem div_isQuotient_iff (a : Amount) (n : Int32) (ha : a.Normalized) (hn : n ≠ 0)
    (hnmin : -2 ^ 31 < n.toInt) :
    (∃ c, a.div n = .ok c ∧ c.Normalized ∧ IsQuotient a.value n.toInt c.value ∧ (n = 1 → c = a)) ↔
      n = 1 ∨ -2 ^ 31 < a.integral.toInt := by
  constructor
  · rintro ⟨c, hc, -⟩
    exact integral_gt_of_div hc
  · intro hmin
    refine (div_quotient ha hn).exists_ok fun _ h => ?_
    rcases h with h | ⟨hone, h⟩
    · omega
    · exact absurd (hmin.resolve_left hone) (by omega)

theorem div_isQuotient_iff_negative :
    ∃ c, div ⟨-3, 500000000000000000⟩ (-2) = .ok c ∧
      IsQuotient (-2500000000000000000) (-2) c.value := by
  obtain ⟨c, hc, -, hquot, -⟩ := (div_isQuotient_iff ⟨-3, 500000000000000000⟩ (-2) (by decide)
    (by decide) (by decide)).mpr (.inr (by decide))
  exact ⟨c, hc, hquot⟩

/-- The smallest amount is divided by two. -/
theorem div_smallest : Normalized ⟨-2147483648, 0⟩ ∧ div ⟨-2147483648, 0⟩ 2 = .error .overflow :=
  ⟨by decide, rfl⟩

end CreditsNode.Amount
