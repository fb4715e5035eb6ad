import CreditsNode.Csdb.Proofs.Math128Proofs

/-!
# Soundness of the amount operators

`value` is the exact number an amount stands for, in units of `10 ^ -18`. On normalised amounts,
those with a fraction below one, each operator computes the exact result or stops at an `int`
overflow, and its result is normalised again.
-/

namespace CreditsNode.Amount

open Effect

/-- The number of units of `10 ^ -18` in one. -/
def unit : Int := 10 ^ 18

/-- The exact number, in units of `10 ^ -18`. -/
def value (a : Amount) : Int := a.integral.toInt * unit + a.fraction.toNat

def Normalized (a : Amount) : Prop := a.fraction < maxFraction

instance (a : Amount) : Decidable a.Normalized := inferInstanceAs (Decidable (_ < _))

variable {a b : Amount} {n : Int32}

theorem normalized_iff : a.Normalized ↔ a.fraction.toNat < 10 ^ 18 :=
  UInt64.lt_iff_toNat_lt

theorem toNat_maxFraction : maxFraction.toNat = 10 ^ 18 := rfl

@[simp] theorem value_zero : value 0 = 0 := rfl

theorem normalized_zero : Normalized 0 := by decide

theorem value_injective (ha : a.Normalized) (hb : b.Normalized) (h : a.value = b.value) :
    a = b := by
  rw [normalized_iff] at ha hb
  unfold value unit at h
  obtain ⟨i, f⟩ := a
  obtain ⟨j, g⟩ := b
  simp only at h ha hb
  have hi : i.toInt = j.toInt := by omega
  have hf : f.toNat = g.toNat := by omega
  rw [Int32.toInt_inj.mp hi, UInt64.toNat_inj.mp hf]

theorem lt_iff (ha : a.Normalized) (hb : b.Normalized) : a.lt b = true ↔ a.value < b.value := by
  rw [normalized_iff] at ha hb
  unfold lt value unit
  split_ifs with h1 h2
  · rw [Int32.lt_iff_toInt_lt] at h1
    simp only [true_iff]
    omega
  · rw [gt_iff_lt, Int32.lt_iff_toInt_lt] at h2
    simp only [false_iff]
    omega
  · rw [Int32.lt_iff_toInt_lt] at h1
    rw [gt_iff_lt, Int32.lt_iff_toInt_lt] at h2
    rw [decide_eq_true_eq, UInt64.lt_iff_toNat_lt]
    omega

theorem gt_eq_lt (a b : Amount) : a.gt b = b.lt a := rfl

theorem gt_iff (ha : a.Normalized) (hb : b.Normalized) : a.gt b = true ↔ b.value < a.value := by
  rw [gt_eq_lt, lt_iff hb ha]

theorem ge_iff (ha : a.Normalized) (hb : b.Normalized) : a.ge b = true ↔ b.value ≤ a.value := by
  unfold ge
  rw [Bool.not_eq_true', ← Bool.not_eq_true, lt_iff ha hb, not_lt]

theorem checked_faults (x : Int) :
    Yields (checked x) (fun e => e = .overflow ∧ (x < -2 ^ 31 ∨ 2 ^ 31 ≤ x)) fun c =>
      c.toInt = x := by
  unfold checked
  cases h : Int32.ofInt? x with
  | some c => exact Int32.ofInt?_eq_some_iff.mp h
  | none => exact ⟨rfl, Int32.ofInt?_eq_none_iff.mp h⟩

theorem checked_spec (x : Int) : Yields (checked x) (· = .overflow) (fun c => c.toInt = x) :=
  (checked_faults x).imp fun _ h => h.1

theorem checked_toInt (c : Int32) : checked c.toInt = .ok c := by
  unfold checked
  rw [Int32.ofInt?_eq_some_iff.mpr rfl]

theorem addAssign_spec (ha : a.Normalized) (hb : b.fraction.toNat ≤ 10 ^ 18) :
    Yields (a.addAssign b) (· = .overflow) fun c => c.Normalized ∧ c.value = a.value + b.value := by
  rw [normalized_iff] at ha
  have hf : (a.fraction + b.fraction).toNat = a.fraction.toNat + b.fraction.toNat := by
    rw [UInt64.toNat_add]
    omega
  refine Yields.bind (checked_spec _) fun i hi => ?_
  dsimp only
  split_ifs with hc
  · have hc' : 10 ^ 18 ≤ a.fraction.toNat + b.fraction.toNat := by
      rw [← hf]
      exact UInt64.le_iff_toNat_le.mp hc
    have hsub : (a.fraction + b.fraction - maxFraction).toNat =
        a.fraction.toNat + b.fraction.toNat - 10 ^ 18 := by
      rw [UInt64.toNat_sub_of_le _ _ hc, hf, toNat_maxFraction]
    grind [Yields.bind, checked_spec, Yields.pure, normalized_iff, value, unit]
  · have hc' : ¬ 10 ^ 18 ≤ a.fraction.toNat + b.fraction.toNat := by
      rw [← hf]
      exact fun h => hc (UInt64.le_iff_toNat_le.mpr h)
    grind [Yields.pure, normalized_iff, value, unit]

def SubOverflows (a b : Amount) : Prop :=
  a.integral.toInt - b.integral.toInt < -2 ^ 31 ∨ 2 ^ 31 ≤ a.integral.toInt - b.integral.toInt ∨
    a.integral.toInt - b.integral.toInt = -2 ^ 31 ∧ a.fraction.toNat < b.fraction.toNat

theorem subAssign_fraction_spec (ha : a.fraction.toNat ≤ 10 ^ 18)
    (hb : b.fraction.toNat ≤ 10 ^ 18) :
    Yields (a.subAssign b) (fun e => e = .overflow ∧ SubOverflows a b) fun c =>
      (c.fraction.toNat < 10 ^ 18 ∨ c.fraction.toNat ≤ a.fraction.toNat) ∧
        c.value = a.value - b.value := by
  unfold subAssign SubOverflows
  refine .bind ((checked_faults _).imp fun _ h => ⟨h.1, by omega⟩) fun i hi => ?_
  split_ifs with hc
  · have hc' : a.fraction.toNat < b.fraction.toNat := UInt64.lt_iff_toNat_lt.mp hc
    have hf : (a.fraction + (maxFraction - b.fraction)).toNat =
        a.fraction.toNat + (10 ^ 18 - b.fraction.toNat) := by
      rw [UInt64.toNat_add, UInt64.toNat_sub_of_le _ _ (UInt64.le_iff_toNat_le.mpr hb),
        toNat_maxFraction]
      omega
    refine .bind ((checked_faults _).imp fun _ h => ⟨h.1, ?_⟩) fun j hj =>
      .pure ⟨.inl ?_, ?_⟩
    · have := i.le_toInt
      omega
    · rw [hf]
      omega
    · simp only [value, unit, hf, hj, hi]
      omega
  · have hc' : b.fraction.toNat ≤ a.fraction.toNat := by
      have := UInt64.lt_iff_toNat_lt.not.mp hc
      omega
    have hf := UInt64.toNat_sub_of_le _ _ (UInt64.le_iff_toNat_le.mpr hc')
    refine .pure ⟨.inr ?_, ?_⟩
    · rw [hf]
      omega
    · simp only [value, unit, hf, hi]
      omega

theorem subAssign_spec (ha : a.Normalized) (hb : b.fraction.toNat ≤ 10 ^ 18) :
    Yields (a.subAssign b) (· = .overflow) fun c => c.Normalized ∧ c.value = a.value - b.value := by
  rw [normalized_iff] at ha
  refine ((subAssign_fraction_spec ha.le hb).imp fun _ h => h.1).mono fun c ⟨hc, hvalue⟩ =>
    ⟨?_, hvalue⟩
  rw [normalized_iff]
  omega

theorem sub_eq_subAssign (a b : Amount) : a.sub b = a.subAssign b := by
  have hf : a.fraction + maxFraction - b.fraction = a.fraction + (maxFraction - b.fraction) := by
    rw [UInt64.sub_eq_add_neg, UInt64.sub_eq_add_neg, UInt64.add_assoc]
  unfold sub subAssign
  simp only [hf]

theorem sub_spec (ha : a.Normalized) (hb : b.fraction.toNat ≤ 10 ^ 18) :
    Yields (a.sub b) (· = .overflow) fun c => c.Normalized ∧ c.value = a.value - b.value := by
  rw [sub_eq_subAssign]
  exact subAssign_spec ha hb

theorem eq_overflow_of_add {e : Fault} (h : a.add b = .error e) : e = .overflow := by
  have hadd : Yields (a.add b) (· = .overflow) fun _ => True := by
    grind [add, Yields.bind, checked_spec, Yields.pure]
  exact hadd.of_error h

theorem eq_overflow_of_sub {e : Fault} (h : a.sub b = .error e) : e = .overflow := by
  have hsub : Yields (a.sub b) (· = .overflow) fun _ => True := by
    grind [sub, Yields.bind, checked_spec, Yields.pure]
  exact hsub.of_error h

/-! ## Fractions of exactly one

Binary plus carries only when the sum of the fractions is above one, so it can return a fraction of
exactly one. Such an amount stands for the right number, but it compares as if it were smaller than
the next whole number: `(-1, 1)` is zero and counts as negative. -/

def Proper (a : Amount) : Prop := a.fraction.toNat ≤ 10 ^ 18

theorem Normalized.proper (h : a.Normalized) : a.Proper := by
  exact h.le

theorem toNat_fraction_add (ha : a.Proper) (hb : b.Proper) :
    (a.fraction + b.fraction).toNat = a.fraction.toNat + b.fraction.toNat := by
  unfold Proper at ha hb
  rw [UInt64.toNat_add]
  omega

def AddOverflows (a b : Amount) : Prop :=
  a.integral.toInt + b.integral.toInt < -2 ^ 31 ∨ 2 ^ 31 ≤ a.integral.toInt + b.integral.toInt ∨
    a.integral.toInt + b.integral.toInt = 2 ^ 31 - 1 ∧ 10 ^ 18 < a.fraction.toNat + b.fraction.toNat

theorem add_faults (ha : a.Proper) (hb : b.Proper) :
    Yields (a.add b) (fun e => e = .overflow ∧ AddOverflows a b)
      fun c => c.Proper ∧ c.value = a.value + b.value := by
  have hf := toNat_fraction_add ha hb
  unfold Proper at ha hb
  unfold add AddOverflows
  refine .bind ((checked_faults _).imp fun _ h => ⟨h.1, by omega⟩) fun i hi => ?_
  split_ifs with hc
  · have hc' : 10 ^ 18 < a.fraction.toNat + b.fraction.toNat := by
      rw [← hf]
      exact UInt64.lt_iff_toNat_lt.mp hc
    have hsub : (a.fraction + b.fraction - maxFraction).toNat =
        a.fraction.toNat + b.fraction.toNat - 10 ^ 18 := by
      rw [UInt64.toNat_sub_of_le _ _ (UInt64.le_of_lt hc), hf, toNat_maxFraction]
    refine .bind ((checked_faults _).imp fun _ h => ⟨h.1, ?_⟩) fun j hj => .pure ?_
    · have := i.toInt_lt
      omega
    · simp only [Proper, value, unit, hsub, hj, hi]
      omega
  · have hc' : ¬ 10 ^ 18 < a.fraction.toNat + b.fraction.toNat := by
      rw [← hf]
      exact fun h => hc (UInt64.lt_iff_toNat_lt.mpr h)
    grind [Yields.pure, Proper, value, unit]

theorem add_spec (ha : a.Proper) (hb : b.Proper) :
    Yields (a.add b) (· = .overflow) fun c => c.Proper ∧ c.value = a.value + b.value :=
  (add_faults ha hb).imp fun _ h => h.1

theorem sub_proper_spec (ha : a.Proper) (hb : b.Proper) :
    Yields (a.sub b) (· = .overflow) fun c => c.Proper ∧ c.value = a.value - b.value := by
  unfold Proper at ha
  rw [sub_eq_subAssign]
  refine ((subAssign_fraction_spec ha hb).imp fun _ h => h.1).mono fun c ⟨hc, hvalue⟩ =>
    ⟨?_, hvalue⟩
  unfold Proper
  omega

theorem neg_faults (ha : a.Proper) :
    Yields a.neg (fun e => e = .overflow ∧ a.integral.toInt = -2 ^ 31)
      fun c => c.Normalized ∧ c.value = -a.value := by
  unfold Proper at ha
  have hlow := a.integral.le_toInt
  have hhigh := a.integral.toInt_lt
  unfold neg
  split_ifs with hc
  · refine .bind ((checked_faults _).imp fun _ h => ⟨h.1, by omega⟩) fun i hi =>
      .pure ⟨show (0 : UInt64) < maxFraction by decide, ?_⟩
    have hzero : a.fraction.toNat = 0 := by rw [← hc]; rfl
    simp only [value, unit, ofInt32, hi, hzero, UInt64.toNat_zero]
    omega
  · have hpos : 0 < a.fraction.toNat :=
      Nat.pos_of_ne_zero fun h => hc (UInt64.toNat_inj.mp h.symm)
    have hf : (maxFraction - a.fraction).toNat = 10 ^ 18 - a.fraction.toNat :=
      UInt64.toNat_sub_of_le _ _ (UInt64.le_iff_toNat_le.mpr ha)
    refine .bind ((checked_faults _).imp fun _ h => ⟨h.1, by omega⟩) fun i hi => ?_
    refine .bind ((checked_faults _).imp fun _ h => ⟨h.1, by omega⟩) fun j hj => .pure ?_
    simp only [normalized_iff, value, unit, hf, hj, hi]
    omega

theorem neg_spec (ha : a.Proper) :
    Yields a.neg (· = .overflow) fun c => c.Normalized ∧ c.value = -a.value :=
  (neg_faults ha).imp fun _ h => h.1

theorem lt_zero_of_value_neg (h : a.value < 0) : a.lt 0 = true := by
  unfold value unit at h
  have hi : a.integral < 0 := by
    rw [Int32.lt_iff_toInt_lt]
    change a.integral.toInt < 0
    omega
  exact if_pos hi

theorem value_nonneg_of_ge_zero (h : a.ge 0 = true) : 0 ≤ a.value := by
  by_contra hneg
  rw [not_le] at hneg
  unfold ge at h
  rw [lt_zero_of_value_neg hneg] at h
  exact absurd h (by decide)

theorem value_nonpos_of_not_ge_zero (ha : a.Proper) (h : ¬ a.ge 0 = true) : a.value ≤ 0 := by
  unfold Proper at ha
  unfold ge lt at h
  unfold value unit
  split_ifs at h with hneg hpos
  · rw [Int32.lt_iff_toInt_lt] at hneg
    change a.integral.toInt < 0 at hneg
    omega
  · exact absurd rfl h
  · -- no fraction is below zero
    simp only [Bool.not_eq_true', decide_eq_false_iff_not, not_not, UInt64.lt_iff_toNat_lt] at h
    exact absurd h (Nat.not_lt_zero _)

theorem value_le_of_le (ha : a.Proper) (h : a.le b = true) : a.value ≤ b.value := by
  unfold Proper at ha
  unfold le gt at h
  unfold value unit
  split_ifs at h with h1 h2
  · exact absurd h (by decide)
  · rw [Int32.lt_iff_toInt_lt] at h2
    omega
  · rw [gt_iff_lt, Int32.lt_iff_toInt_lt] at h1
    rw [Int32.lt_iff_toInt_lt] at h2
    rw [Bool.not_eq_true', decide_eq_false_iff_not, gt_iff_lt, UInt64.lt_iff_toNat_lt] at h
    omega

theorem toNat_toUInt64_of_nonneg {c : Int32} (h : 0 ≤ c.toInt) :
    c.toInt64.toUInt64.toNat = c.toInt.toNat := by
  have h1 := Int64.toNat_toUInt64_eq c.toInt64
  have h2 := c.toInt_lt
  rw [Int32.toInt_toInt64] at h1
  omega

theorem ofUint128_spec {v : Uint128} (h : v.toNat < 2 ^ 31 * 10 ^ 18) :
    ∃ c, ofUint128 v false = .ok c ∧ c.value = v.toNat ∧ c.Normalized ∧
      c.integral.toInt = v.toNat / 10 ^ 18 ∧ c.fraction.toNat = v.toNat % 10 ^ 18 := by
  suffices hs : ∃ c, ofUint128 v false = .ok c ∧
      c.integral.toInt = v.toNat / 10 ^ 18 ∧ c.fraction.toNat = v.toNat % 10 ^ 18 by
    obtain ⟨c, hc, hi, hf⟩ := hs
    refine ⟨c, hc, ?_, ?_, hi, hf⟩
    · unfold value unit
      omega
    · rw [normalized_iff]
      omega
  unfold ofUint128
  by_cases hz : 0 = v.lo ∧ 0 = v.hi
  · have hv : v.toNat = 0 := by
      unfold Uint128.toNat
      rw [← hz.1, ← hz.2]
      rfl
    refine ⟨_, if_pos hz, ?_, ?_⟩
    · rw [hv]
      rfl
    · rw [hv]
      rfl
  · obtain ⟨r, hr, hq, hm⟩ := v.div_spec (show maxFraction ≠ 0 by decide)
    refine ⟨ofDivision r, ?_, ?_, ?_⟩
    · rw [if_neg hz, hr]
      rfl
    · rw [toNat_maxFraction] at hq
      -- the quotient is a small number, so its low word read as an `int` is the number
      have hlo : r.quotient.lo.toNat = v.toNat / 10 ^ 18 := by
        have hval : r.quotient.toNat = r.quotient.hi.toNat * 2 ^ 64 + r.quotient.lo.toNat := rfl
        omega
      have hint : r.quotient.lo.toUInt32.toInt32.toInt = r.quotient.lo.toNat := by
        have hn : r.quotient.lo.toUInt32.toNat = r.quotient.lo.toNat := by
          rw [UInt64.toNat_toUInt32]
          omega
        have hc : r.quotient.lo.toUInt32.toInt32.toInt =
            if 2 * r.quotient.lo.toUInt32.toNat < 2 ^ 32 then (r.quotient.lo.toUInt32.toNat : Int)
            else (r.quotient.lo.toUInt32.toNat : Int) - (2 ^ 32 : Nat) :=
          BitVec.toInt_eq_toNat_cond r.quotient.lo.toUInt32.toBitVec
        rw [hc, if_pos (by omega), hn]
      simp only [ofDivision, hint, hlo]
      rfl
    · exact hm

end CreditsNode.Amount

/-- The exact number that a commission is converted to. -/
def CreditsNode.AmountCommission.converted (toAmount : AmountCommission → Option Amount)
    (fee : AmountCommission) : ℤ :=
  ((toAmount fee).map Amount.value).getD 0
