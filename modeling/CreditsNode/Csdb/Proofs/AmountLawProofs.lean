import CreditsNode.Csdb.Proofs.AmountProofs

/-!
# Laws of addition and multiplication

Where the operators of `csdb::Amount` have a result, and its laws. Binary plus carries above one and
`+=` from one on, so the two part ways on fractions that add up to exactly one. Multiplication is
exact up to one truncation.
-/

namespace CreditsNode.Amount

open Effect

variable {a b : Amount}

/-- The integral part of a number of units fits an `int`. -/
def Fits (x : Int) : Prop := -2 ^ 31 * unit ≤ x ∧ x < 2 ^ 31 * unit

instance instDecidableFits (x : Int) : Decidable (Fits x) := inferInstanceAs (Decidable (_ ∧ _))

theorem exists_checked {x : Int} (hlow : -2 ^ 31 ≤ x) (hhigh : x < 2 ^ 31) :
    ∃ c, checked x = .ok c ∧ c.toInt = x :=
  (checked_faults x).exists_ok fun _ h => by omega

theorem exists_add (ha : a.Proper) (hb : b.Proper)
    (hlow : -2 ^ 31 ≤ a.integral.toInt + b.integral.toInt)
    (hhigh : a.value + b.value < 2 ^ 31 * unit) :
    ∃ c, a.add b = .ok c ∧ c.Proper ∧ c.value = a.value + b.value := by
  refine (add_faults ha hb).exists_ok fun _ h => ?_
  have hover := h.2
  unfold AddOverflows at hover
  unfold value unit at hhigh
  omega

theorem exists_sub (ha : a.Normalized) (hb : b.Proper)
    (hhigh : a.integral.toInt - b.integral.toInt < 2 ^ 31)
    (hlow : -2 ^ 31 * unit ≤ a.value - b.value) :
    ∃ c, a.sub b = .ok c ∧ c.Normalized ∧ c.value = a.value - b.value := by
  rw [normalized_iff] at ha
  rw [sub_eq_subAssign]
  obtain ⟨c, hc, hfraction, hvalue⟩ := (subAssign_fraction_spec ha.le hb).exists_ok fun _ h => by
    have hover := h.2
    unfold SubOverflows at hover
    unfold value unit at hlow
    omega
  refine ⟨c, hc, ?_, hvalue⟩
  rw [normalized_iff]
  omega

theorem add_comm (a b : Amount) : a.add b = b.add a := by
  unfold add
  rw [Int.add_comm, UInt64.add_comm]

theorem add_eq_addAssign (ha : a.Proper) (hb : b.Proper)
    (h : a.fraction.toNat + b.fraction.toNat ≠ 10 ^ 18) : a.add b = a.addAssign b := by
  have hcarry : maxFraction < a.fraction + b.fraction ↔ a.fraction + b.fraction ≥ maxFraction := by
    grind [toNat_fraction_add, toNat_maxFraction]
  unfold add addAssign
  simp only [hcarry]

def ComparesExactly (c : Amount) : Prop :=
  ∀ d : Amount, d.Normalized → (c.lt d = true ↔ c.value < d.value) ∧
    (c.gt d = true ↔ d.value < c.value) ∧ (c.le d = true ↔ c.value ≤ d.value) ∧
    (c.ge d = true ↔ d.value ≤ c.value) ∧ (c = d ↔ c.value = d.value)

variable {c : Amount} {n : Int32}

theorem Normalized.comparesExactly (hc : c.Normalized) : ComparesExactly c := by
  intro d hd
  refine ⟨lt_iff hc hd, gt_iff hc hd, ?_, ge_iff hc hd, congrArg value, value_injective hc hd⟩
  unfold le
  rw [Bool.not_eq_true', ← Bool.not_eq_true, gt_iff hc hd, not_lt]

/-- The sum by binary plus is normalised, is the sum by `+=`, is exact, does not depend on the
order, gives the first summand back when the second is taken off, and compares as its value does. -/
def AddsExactly (a b : Amount) : Prop :=
  ∃ c, a.add b = .ok c ∧ c.Normalized ∧ a.addAssign b = .ok c ∧ c.value = a.value + b.value ∧
    b.add a = .ok c ∧ c.sub b = .ok a ∧ ComparesExactly c

/-- The fractions do not add up to one, and no `int` overflows before the carry is added or taken
back. -/
def CarriesSafely (a b : Amount) : Prop :=
  a.fraction.toNat + b.fraction.toNat ≠ 10 ^ 18 ∧ -2 ^ 31 ≤ a.integral.toInt + b.integral.toInt ∧
    (10 ^ 18 < a.fraction.toNat + b.fraction.toNat → a.integral.toInt < 2 ^ 31 - 1)

theorem CarriesSafely.addsExactly (ha : a.Normalized) (hb : b.Normalized)
    (hfits : Fits (a.value + b.value)) (h : CarriesSafely a b) : AddsExactly a b := by
  obtain ⟨hone, hlow, hcarry⟩ := h
  obtain ⟨c, hc, -, hval⟩ := exists_add ha.proper hb.proper hlow hfits.2
  have hassign : a.addAssign b = .ok c := by rw [← add_eq_addAssign ha.proper hb.proper hone, hc]
  have hnorm : c.Normalized := ((addAssign_spec ha hb.proper).of_ok hassign).1
  refine ⟨c, hc, hnorm, hassign, hval, by rw [add_comm, hc], ?_, hnorm.comparesExactly⟩
  have hback : c.integral.toInt - b.integral.toInt < 2 ^ 31 := by
    have hac := a.integral.toInt_lt
    rw [normalized_iff] at ha hb hnorm
    unfold value unit at hval
    omega
  have hfirst : c.value - b.value = a.value := by omega
  obtain ⟨d, hd, hdnorm, hdval⟩ := exists_sub hnorm hb.proper hback (by
    have := a.integral.le_toInt
    rw [hfirst]
    unfold value unit
    omega)
  rw [hd, value_injective hdnorm ha (hdval.trans hfirst)]

theorem add_range (ha : a.Proper) (hb : b.Proper) : Yields (a.add b) (fun _ => True) fun c =>
    -2 ^ 31 ≤ a.integral.toInt + b.integral.toInt ∧
      (a.fraction.toNat + b.fraction.toNat ≤ 10 ^ 18 →
        c.fraction.toNat = a.fraction.toNat + b.fraction.toNat) ∧
      (10 ^ 18 < a.fraction.toNat + b.fraction.toNat →
        c.integral.toInt = a.integral.toInt + b.integral.toInt + 1) := by
  have hf := toNat_fraction_add ha hb
  refine Yields.bind ((checked_spec _).imp fun _ _ => trivial) fun i hi => ?_
  have hlow := i.le_toInt
  rw [hi] at hlow
  split_ifs with hcarry
  · rw [UInt64.lt_iff_toNat_lt, toNat_maxFraction, hf] at hcarry
    refine Yields.bind ((checked_spec _).imp fun _ _ => trivial) fun j hj => Yields.pure ?_
    exact ⟨hlow, fun h => absurd h (by omega), fun _ => by rw [hj, hi]⟩
  · grind [toNat_maxFraction, Yields.pure, UInt64.lt_iff_toNat_lt]

theorem sub_eq_ok (ha : a.Proper) (hb : b.Normalized) (h : a.sub b = .ok c) :
    (a.fraction.toNat < b.fraction.toNat →
        c.fraction.toNat = a.fraction.toNat + 10 ^ 18 - b.fraction.toNat) ∧
      (b.fraction.toNat ≤ a.fraction.toNat →
        c.fraction.toNat = a.fraction.toNat - b.fraction.toNat) := by
  obtain ⟨hproper, hvalue⟩ := (sub_proper_spec ha hb.proper).of_ok h
  have hfraction : Yields (a.sub b) (fun _ => True) fun c =>
      b.fraction.toNat ≤ a.fraction.toNat →
        c.fraction.toNat = a.fraction.toNat - b.fraction.toNat := by
    refine .bind ((checked_spec _).imp fun _ _ => trivial) fun i _ => ?_
    split_ifs with hborrow
    · rw [UInt64.lt_iff_toNat_lt] at hborrow
      refine .bind ((checked_spec _).imp fun _ _ => trivial) fun j _ => .pure ?_
      exact fun hle => absurd hle (by omega)
    · exact .pure fun hle => UInt64.toNat_sub_of_le _ _ (UInt64.le_iff_toNat_le.mpr hle)
  refine ⟨fun hlt => ?_, hfraction.of_ok h⟩
  grind [normalized_iff, Proper, value, unit]

theorem AddsExactly.carriesSafely (ha : a.Normalized) (hb : b.Normalized) (h : AddsExactly a b) :
    CarriesSafely a b := by
  obtain ⟨c, hc, hnorm, -, -, -, hback, -⟩ := h
  obtain ⟨hlow, hflat, hcarry⟩ := (add_range ha.proper hb.proper).of_ok hc
  refine ⟨fun hone => ?_, hlow, fun hover => ?_⟩
  · rw [normalized_iff, hflat hone.le] at hnorm
    omega
  · -- the first step of the subtraction gives one more than the integral part of `a`
    have hfirst : Yields (c.sub b) (fun _ => True) fun _ =>
        c.integral.toInt - b.integral.toInt < 2 ^ 31 := by
      refine .bind ((checked_spec _).imp fun _ _ => trivial) fun i hi => ?_
      have hlt := i.toInt_lt
      rw [hi] at hlt
      split_ifs
      · exact .bind ((checked_spec _).imp fun _ _ => trivial) fun j _ => .pure hlt
      · exact .pure hlt
    have := hfirst.of_ok hback
    omega

/-- For normalised amounts with a sum that fits, the laws of addition hold exactly if the fractions
do not add up to one, and no `int` overflows on the way. -/
theorem addsExactly_iff (a b : Amount) (ha : a.Normalized) (hb : b.Normalized)
    (hfits : Fits (a.value + b.value)) : AddsExactly a b ↔ CarriesSafely a b :=
  ⟨fun h => h.carriesSafely ha hb, fun h => h.addsExactly ha hb hfits⟩

theorem addsExactly_iff_carry :
    AddsExactly ⟨1, 600000000000000000⟩ ⟨-3, 500000000000000000⟩ ↔
      CarriesSafely ⟨1, 600000000000000000⟩ ⟨-3, 500000000000000000⟩ :=
  addsExactly_iff _ _ (by decide) (by decide) (by decide)

/-- One half and one half: binary plus leaves a fraction of one, which `+=` carries over. The sum is
smaller than one for `operator<`, and the two are different for `operator==`. -/
theorem half_add_half :
    add ⟨0, 500000000000000000⟩ ⟨0, 500000000000000000⟩ = .ok ⟨0, maxFraction⟩ ∧
      addAssign ⟨0, 500000000000000000⟩ ⟨0, 500000000000000000⟩ = .ok ⟨1, 0⟩ ∧
      ¬Normalized ⟨0, maxFraction⟩ ∧ value ⟨0, maxFraction⟩ = value ⟨1, 0⟩ ∧
      lt ⟨0, maxFraction⟩ ⟨1, 0⟩ = true ∧
      ¬AddsExactly ⟨0, 500000000000000000⟩ ⟨0, 500000000000000000⟩ := by
  refine ⟨rfl, rfl, by decide, by decide, by decide, fun h => ?_⟩
  exact (h.carriesSafely (by decide) (by decide)).1 (by decide)

/-! ## Sums with a fraction of one

A proper amount that stands for a whole number has two forms. Which one binary plus and minus return
depends on the second operand only, unless that is a whole number: then the form is kept. -/

section Overhang

variable {c : Amount}

theorem Proper.not_normalized_iff (ha : a.Proper) :
    ¬ a.Normalized ↔ a.fraction.toNat = 10 ^ 18 := by
  unfold Proper at ha
  rw [normalized_iff]
  omega

theorem unit_dvd_value_iff : unit ∣ a.value ↔ 10 ^ 18 ∣ a.fraction.toNat := by
  unfold value unit
  omega

theorem add_whole (ha : a.Proper) (hb : b.fraction.toNat = 0) (h : a.add b = .ok c) :
    c.fraction.toNat = a.fraction.toNat := by
  have hbproper : b.Proper := by
    unfold Proper
    omega
  rw [((add_range ha hbproper).of_ok h).2.1 (by rw [hb]; exact ha), hb, Nat.add_zero]

theorem sub_whole (ha : a.Proper) (hb : b.fraction.toNat = 0) (h : a.sub b = .ok c) :
    c.fraction.toNat = a.fraction.toNat := by
  have hbnormalized : b.Normalized := by
    rw [normalized_iff]
    omega
  rw [(sub_eq_ok ha hbnormalized h).2 (by omega), hb, Nat.sub_zero]

theorem not_normalized_add_iff (ha : a.Proper) (hb : b.Normalized) (hne : b.fraction.toNat ≠ 0)
    (h : a.add b = .ok c) : ¬ c.Normalized ↔ unit ∣ c.value := by
  obtain ⟨hproper, hvalue⟩ := (add_spec ha hb.proper).of_ok h
  obtain ⟨-, hflat, hcarry⟩ := (add_range ha hb.proper).of_ok h
  rw [hproper.not_normalized_iff, unit_dvd_value_iff]
  refine ⟨fun he => he ▸ dvd_rfl, fun hdvd => ?_⟩
  have hpos : 0 < c.fraction.toNat := by
    grind [unit, value]
  exact le_antisymm hproper (Nat.le_of_dvd hpos hdvd)

theorem normalized_sub (ha : a.Proper) (hb : b.Normalized) (hne : b.fraction.toNat ≠ 0)
    (h : a.sub b = .ok c) : c.Normalized := by
  obtain ⟨hborrow, hflat⟩ := sub_eq_ok ha hb h
  unfold Proper at ha
  rw [normalized_iff]
  grind

end Overhang

theorem ofUint128_divide_spec {v : Uint128} (h : v.toNat < 10 ^ 18 * 10 ^ 18) :
    ∃ c, ofUint128 v true = .ok c ∧ c.integral = 0 ∧ c.fraction.toNat = v.toNat / 10 ^ 18 := by
  unfold ofUint128
  by_cases hz : 0 = v.lo ∧ 0 = v.hi
  · have hv : v.toNat = 0 := by
      unfold Uint128.toNat
      rw [← hz.1, ← hz.2]
      rfl
    refine ⟨_, if_pos hz, rfl, ?_⟩
    rw [hv]
    rfl
  · obtain ⟨r, hr, hq, -⟩ := v.div_spec (show maxFraction ≠ 0 by decide)
    obtain ⟨r', hr', hq', hm'⟩ := r.quotient.div_spec (show maxFraction ≠ 0 by decide)
    rw [toNat_maxFraction] at hq hq' hm'
    have hlt : r.quotient.toNat < 10 ^ 18 := by
      omega
    have hlo : r'.quotient.lo = 0 := by
      have hval : r'.quotient.toNat = r'.quotient.hi.toNat * 2 ^ 64 + r'.quotient.lo.toNat := rfl
      exact UInt64.toNat_inj.mp (show r'.quotient.lo.toNat = 0 by omega)
    refine ⟨ofDivision r', ?_, ?_, ?_⟩
    · rw [if_neg hz, hr]
      show (r.quotient.div maxFraction >>= fun r => pure (ofDivision r)) = _
      rw [hr']
      rfl
    · unfold ofDivision
      rw [hlo]
      rfl
    · show r'.remainder.toNat = _
      rw [hm', Nat.mod_eq_of_lt hlt, hq]

theorem exists_add_of_nonneg (ha : a.Proper) (hb : b.Proper) (ha0 : 0 ≤ a.value) (hb0 : 0 ≤ b.value)
    (hhigh : a.value + b.value < 2 ^ 31 * unit) :
    ∃ c, a.add b = .ok c ∧ c.Proper ∧ c.value = a.value + b.value := by
  refine exists_add ha hb ?_ hhigh
  unfold Proper at ha hb
  unfold value unit at ha0 hb0
  omega

theorem exists_mixed {f : UInt64} (hf : f.toNat < 10 ^ 18) (hn : 0 ≤ n.toInt) :
    ∃ c, ofUint128 (Uint128.mul f n.toInt64.toUInt64) false = .ok c ∧ c.Normalized ∧
      c.value = f.toNat * n.toInt := by
  have hmul := Uint128.toNat_mul f n.toInt64.toUInt64
  rw [toNat_toUInt64_of_nonneg hn] at hmul
  have hlt := n.toInt_lt
  have hsmall : (Uint128.mul f n.toInt64.toUInt64).toNat < 2 ^ 31 * 10 ^ 18 := by
    rw [hmul, Nat.mul_comm (2 ^ 31)]
    exact Nat.mul_lt_mul'' hf (by omega)
  grind [ofUint128_spec]

theorem value_mul_div (a b : Amount) :
    a.value * b.value / unit = a.integral.toInt * b.integral.toInt * unit +
      a.fraction.toNat * b.integral.toInt + b.fraction.toNat * a.integral.toInt +
      (a.fraction.toNat * b.fraction.toNat / 10 ^ 18 : Nat) := by
  have hsplit : a.value * b.value = (a.fraction.toNat * b.fraction.toNat : Nat) +
      (a.integral.toInt * b.integral.toInt * unit + a.fraction.toNat * b.integral.toInt +
        b.fraction.toNat * a.integral.toInt) * unit := by
    unfold value
    push_cast
    ring
  rw [hsplit, Int.add_mul_ediv_right _ _ (show unit ≠ 0 by decide)]
  unfold unit
  push_cast
  ring

theorem unit_dvd_mul_fraction (a b : Amount) (h : unit * unit ∣ a.value * b.value) :
    10 ^ 18 ∣ a.fraction.toNat * b.fraction.toNat := by
  have hsplit : ((a.fraction.toNat * b.fraction.toNat : Nat) : Int) = a.value * b.value -
      (a.integral.toInt * b.integral.toInt * unit + a.fraction.toNat * b.integral.toInt +
        b.fraction.toNat * a.integral.toInt) * unit := by
    unfold value
    push_cast
    ring
  have hdvd : unit ∣ ((a.fraction.toNat * b.fraction.toNat : Nat) : Int) := by
    rw [hsplit]
    exact Int.dvd_sub ((Int.dvd_mul_right unit unit).trans h) (Int.dvd_mul_left _ _)
  exact Int.natCast_dvd_natCast.mp hdvd

theorem fraction_pos (h : ¬ unit ∣ a.value) : 0 < a.fraction.toNat := by
  rw [unit_dvd_value_iff] at h
  exact Nat.pos_of_ne_zero fun hzero => h (hzero ▸ Nat.dvd_zero _)

/-- What is left of a product that is a whole number, if no factor is. -/
theorem one_le_rest (ha : ¬ unit ∣ a.value) (hb : ¬ unit ∣ b.value)
    (h : unit * unit ∣ a.value * b.value) : 1 ≤ a.fraction.toNat * b.fraction.toNat / 10 ^ 18 :=
  Nat.div_pos (Nat.le_of_dvd (Nat.mul_pos (fraction_pos ha) (fraction_pos hb))
    (unit_dvd_mul_fraction a b h)) (by decide)

/-- The last sum may be one more than the largest integral part: its fraction is then one. -/
theorem exists_add_rest (ha : a.Proper) (hb : b.Proper) (hb0 : b.integral.toInt = 0)
    (ha0 : 0 ≤ a.value) (hle : a.value + b.value ≤ 2 ^ 31 * unit) :
    ∃ c, a.add b = .ok c ∧ c.Proper ∧ c.value = a.value + b.value := by
  refine (add_faults ha hb).exists_ok fun _ h => ?_
  have hover := h.2
  have hlt := a.integral.toInt_lt
  unfold AddOverflows at hover
  unfold Proper at ha
  unfold value unit at ha0 hle
  omega

theorem exists_rest (ha : a.Normalized) (hb : b.Normalized) :
    ∃ c, ofUint128 (Uint128.mul a.fraction b.fraction) true = .ok c ∧ c.integral.toInt = 0 ∧
      c.Normalized ∧ c.value = (a.fraction.toNat * b.fraction.toNat / 10 ^ 18 : Nat) := by
  rw [normalized_iff] at ha hb
  have hlt := Nat.mul_lt_mul'' ha hb
  obtain ⟨c, hc, hi, hf⟩ := ofUint128_divide_spec
    (v := Uint128.mul a.fraction b.fraction) (by rwa [Uint128.toNat_mul])
  rw [Uint128.toNat_mul] at hf
  have hi0 : c.integral.toInt = 0 := by
    rw [hi]
    rfl
  refine ⟨c, hc, hi0, ?_, ?_⟩
  · rw [normalized_iff, hf]
    exact Nat.div_lt_of_lt_mul hlt
  · unfold value
    rw [hi0, hf]
    simp

theorem exists_mulNonneg (ha : a.Normalized) (hb : b.Normalized) (ha0 : 0 ≤ a.integral.toInt)
    (hb0 : 0 ≤ b.integral.toInt) (hfits : a.value * b.value ≤ 2 ^ 31 * unit * unit)
    (hwhole : a.value * b.value = 2 ^ 31 * unit * unit → ¬ unit ∣ a.value ∧ ¬ unit ∣ b.value) :
    ∃ c, a.mulNonneg b = .ok c ∧ c.Proper ∧ c.value = a.value * b.value / unit := by
  have hfa := normalized_iff.mp ha
  have hfb := normalized_iff.mp hb
  have hunit : (0 : Int) < unit := by decide
  have htotal : a.value * b.value / unit ≤ 2 ^ 31 * unit :=
    Int.ediv_le_of_le_mul hunit hfits
  have hbefore : a.value * b.value / unit -
      (a.fraction.toNat * b.fraction.toNat / 10 ^ 18 : Nat) < 2 ^ 31 * unit := by
    rcases hfits.lt_or_eq with hlt | heq
    · have := Int.ediv_lt_of_lt_mul hunit hlt
      omega
    · have hrest := one_le_rest (hwhole heq).1 (hwhole heq).2 (heq ▸ ⟨2 ^ 31, by ring⟩)
      omega
  rw [value_mul_div] at htotal hbefore ⊢
  obtain ⟨left, hleft, hleftn, hleftv⟩ := exists_mixed hfa hb0
  obtain ⟨right, hright, hrightn, hrightv⟩ := exists_mixed hfb ha0
  obtain ⟨rest, hrest, hresti, hrestn, hrestv⟩ := exists_rest ha hb
  -- no part is negative, so each partial sum is at most the whole
  have hproduct : 0 ≤ a.integral.toInt * b.integral.toInt := Int.mul_nonneg ha0 hb0
  have hleft0 : 0 ≤ left.value := by
    rw [hleftv]
    exact Int.mul_nonneg (by omega) hb0
  have hright0 : 0 ≤ right.value := by
    rw [hrightv]
    exact Int.mul_nonneg (by omega) ha0
  have hrest0 : 0 ≤ rest.value := by omega
  obtain ⟨i, hi, hival⟩ := exists_checked (x := a.integral.toInt * b.integral.toInt) (by omega)
    (by unfold unit at hbefore; omega)
  have hiv : (ofInt32 i).value = a.integral.toInt * b.integral.toInt * unit := by
    unfold value
    rw [← hival]
    simp [ofInt32]
  have hiz : 0 ≤ (ofInt32 i).value := by
    rw [hiv]
    exact Int.mul_nonneg hproduct (by decide)
  obtain ⟨x, hx, hxp, hxv⟩ := exists_add_of_nonneg (show (ofInt32 i).Proper from Nat.zero_le _)
    hleftn.proper hiz hleft0 (by omega)
  obtain ⟨y, hy, hyp, hyv⟩ := exists_add_of_nonneg hxp hrightn.proper (by omega) hright0 (by omega)
  obtain ⟨z, hz, hzp, hzv⟩ := exists_add_rest hyp hrestn.proper hresti (by omega) (by omega)
  refine ⟨z, ?_, hzp, by omega⟩
  unfold mulNonneg
  rw [hi, hleft, hright, hrest]
  show ((ofInt32 i).add left >>= fun x => x.add right >>= fun y => y.add rest) = _
  rw [hx]
  show (x.add right >>= fun y => y.add rest) = _
  rw [hy]
  exact hz

theorem exists_neg (ha : a.Proper) (hmin : -2 ^ 31 < a.integral.toInt) :
    ∃ c, a.neg = .ok c ∧ c.Normalized ∧ c.value = -a.value :=
  (neg_faults ha).exists_ok fun _ h => by omega

theorem integral_neg_iff : 0 > a.integral ↔ a.integral.toInt < 0 := Int32.lt_iff_toInt_lt

theorem Normalized.integral_nonneg_iff (ha : a.Normalized) :
    0 ≤ a.integral.toInt ↔ 0 ≤ a.value := by
  rw [normalized_iff] at ha
  unfold value unit
  omega

theorem Proper.integral_gt (ha : a.Proper) (h0 : 0 ≤ a.value) : -2 ^ 31 < a.integral.toInt := by
  unfold Proper at ha
  unfold value unit at h0
  omega

theorem exists_mulRight (ha : a.Normalized) (hb : b.Normalized) (ha0 : 0 ≤ a.integral.toInt)
    (hmin : -2 ^ 31 < b.integral.toInt) (hfits : |a.value * b.value| ≤ 2 ^ 31 * unit * unit)
    (hwhole : |a.value * b.value| = 2 ^ 31 * unit * unit → ¬ unit ∣ a.value ∧ ¬ unit ∣ b.value) :
    ∃ c, a.mulRight b = .ok c ∧ c.Proper ∧ (b.value < 0 → c.Normalized) ∧
      c.value = (a.value * b.value).tdiv unit := by
  have hav := ha.integral_nonneg_iff.mp ha0
  have hunit : (0 : Int) < unit := by decide
  unfold mulRight
  by_cases hb0 : 0 > b.integral
  · rw [if_pos hb0]
    have hbneg : b.value < 0 := by
      have := hb.integral_nonneg_iff
      rw [integral_neg_iff] at hb0
      omega
    obtain ⟨b', hb', hbn, hbv⟩ := exists_neg hb.proper hmin
    have hprod : a.value * b'.value = -(a.value * b.value) := by rw [hbv, Int.mul_neg]
    have hprod0 : 0 ≤ a.value * b'.value := Int.mul_nonneg hav (by omega)
    have habs : |a.value * b.value| = a.value * b'.value := by
      rw [← abs_neg, ← hprod, abs_of_nonneg hprod0]
    rw [habs] at hfits hwhole
    obtain ⟨c, hc, hcp, hcv⟩ := exists_mulNonneg ha hbn ha0
      (hbn.integral_nonneg_iff.mpr (by omega)) hfits (by rwa [hbv, Int.dvd_neg, ← hbv])
    have hc0 : 0 ≤ c.value := by
      rw [hcv]
      exact Int.ediv_nonneg hprod0 hunit.le
    obtain ⟨d, hd, hdn, hdv⟩ := exists_neg hcp (hcp.integral_gt hc0)
    refine ⟨d, ?_, hdn.proper, fun _ => hdn, ?_⟩
    · rw [hb']
      show (a.mulNonneg b' >>= fun c => c.neg) = _
      rw [hc]
      exact hd
    · rw [hdv, hcv, ← Int.tdiv_eq_ediv_of_nonneg hprod0, hprod, Int.neg_tdiv, neg_neg]
  · have hb0' : 0 ≤ b.integral.toInt := by
      rw [integral_neg_iff] at hb0
      omega
    have hbv := hb.integral_nonneg_iff.mp hb0'
    have hprod0 : 0 ≤ a.value * b.value := Int.mul_nonneg hav hbv
    rw [abs_of_nonneg hprod0] at hfits hwhole
    obtain ⟨c, hc, hcp, hcv⟩ := exists_mulNonneg ha hb ha0 hb0' hfits hwhole
    grind

/-- No factor is the smallest amount, a product of `-2 ^ 31` has two factors that are not whole, and
one of two negative factors does not exceed the largest amount that can be negated. -/
structure ProductFits (a b : Amount) : Prop where
  left : -2 ^ 31 < a.integral.toInt
  right : -2 ^ 31 < b.integral.toInt
  whole : a.value * b.value = -(2 ^ 31 * unit * unit) → ¬ unit ∣ a.value ∧ ¬ unit ∣ b.value
  twice : a.value < 0 → b.value < 0 → a.value * b.value / unit ≤ (2 ^ 31 - 1) * unit

theorem exists_mul (ha : a.Normalized) (hb : b.Normalized)
    (hlow : -(2 ^ 31 * unit * unit) ≤ a.value * b.value)
    (hhigh : a.value * b.value < 2 ^ 31 * unit * unit) (hfits : ProductFits a b) :
    ∃ c, a.mul b = .ok c ∧ c.value = (a.value * b.value).tdiv unit := by
  have habs : |a.value * b.value| ≤ 2 ^ 31 * unit * unit := abs_le.mpr ⟨by omega, hhigh.le⟩
  have hwhole : |a.value * b.value| = 2 ^ 31 * unit * unit → ¬ unit ∣ a.value ∧
      ¬ unit ∣ b.value := by
    intro heq
    rcases abs_choice (a.value * b.value) with h | h
    · omega
    · exact hfits.whole (by omega)
  unfold mul
  by_cases ha0 : 0 > a.integral
  · rw [if_pos ha0]
    rw [integral_neg_iff] at ha0
    have haneg : a.value < 0 := by
      have := ha.integral_nonneg_iff
      omega
    obtain ⟨a', ha', han, hav⟩ := exists_neg ha.proper hfits.left
    have hprod : a'.value * b.value = -(a.value * b.value) := by rw [hav, Int.neg_mul]
    obtain ⟨c, hc, hcp, hcn, hcv⟩ := exists_mulRight han hb
      (han.integral_nonneg_iff.mpr (by omega)) hfits.right (by rwa [hprod, abs_neg])
      (by rwa [hprod, abs_neg, hav, Int.dvd_neg])
    rw [hprod, Int.neg_tdiv] at hcv
    have hcmin : -2 ^ 31 < c.integral.toInt := by
      by_cases hb0 : b.value < 0
      · have hbound := hfits.twice haneg hb0
        have hcf := normalized_iff.mp (hcn hb0)
        grind [unit, value]
      · refine hcp.integral_gt ?_
        have hneg : 0 ≤ -(a.value * b.value) := by
          rw [← Int.neg_mul]
          exact Int.mul_nonneg (by omega) (by omega)
        rw [hcv, ← Int.neg_tdiv, Int.tdiv_eq_ediv_of_nonneg hneg]
        exact Int.ediv_nonneg hneg (by decide)
    obtain ⟨d, hd, -, hdv⟩ := exists_neg hcp hcmin
    refine ⟨d, ?_, by rw [hdv, hcv, neg_neg]⟩
    rw [ha']
    show (a'.mulRight b >>= fun c => c.neg) = _
    rw [hc]
    exact hd
  · rw [if_neg ha0]
    rw [integral_neg_iff, not_lt] at ha0
    obtain ⟨c, hc, -, -, hcv⟩ := exists_mulRight ha hb ha0 hfits.right habs hwhole
    exact ⟨c, hc, hcv⟩

/-! ### Where a product exists -/

theorem integral_gt_of_neg (h : a.neg = .ok c) : -2 ^ 31 < a.integral.toInt := by
  obtain ⟨i, hi⟩ : ∃ i, checked (-a.integral.toInt) = .ok i := by
    unfold neg at h
    split_ifs at h <;> obtain ⟨i, hi, -⟩ := bind_eq_ok h <;> exact ⟨i, hi⟩
  have hvalue := (checked_spec _).of_ok hi
  have hlt := i.toInt_lt
  omega

theorem value_add (ha : a.Proper) (hb : b.Proper) (h : a.add b = .ok c) :
    c.Proper ∧ c.value = a.value + b.value :=
  (add_spec ha hb).of_ok h

theorem add_whole_left (ha : a.fraction.toNat = 0) (hb : b.Proper) (h : a.add b = .ok c) :
    c.fraction.toNat = b.fraction.toNat :=
  add_whole hb ha (by rwa [add_comm])

theorem Normalized.fraction_eq_zero (ha : a.Normalized) (h : unit ∣ a.value) :
    a.fraction.toNat = 0 :=
  Nat.eq_zero_of_dvd_of_lt (unit_dvd_value_iff.mp h) (normalized_iff.mp ha)

theorem mulNonneg_whole (ha : a.Normalized) (hb : b.Normalized) (ha0 : 0 ≤ a.integral.toInt)
    (hb0 : 0 ≤ b.integral.toInt) (hwhole : unit ∣ a.value ∨ unit ∣ b.value)
    (h : a.mulNonneg b = .ok c) : c.Normalized ∧ c.value = a.value * b.value / unit := by
  have hfa := normalized_iff.mp ha
  have hfb := normalized_iff.mp hb
  obtain ⟨i, hi, h⟩ := bind_eq_ok h
  obtain ⟨left, hleft, h⟩ := bind_eq_ok h
  obtain ⟨right, hright, h⟩ := bind_eq_ok h
  obtain ⟨rest, hrest, h⟩ := bind_eq_ok h
  obtain ⟨x, hx, h⟩ := bind_eq_ok h
  obtain ⟨y, hy, hz⟩ := bind_eq_ok h
  obtain ⟨_, hleft', hleftn, hleftv⟩ := exists_mixed hfa hb0
  obtain ⟨_, hright', hrightn, hrightv⟩ := exists_mixed hfb ha0
  obtain ⟨_, hrest', -, hrestn, hrestv⟩ := exists_rest ha hb
  cases hleft.symm.trans hleft'
  cases hright.symm.trans hright'
  cases hrest.symm.trans hrest'
  have hip : (ofInt32 i).Proper := Nat.zero_le _
  obtain ⟨hxp, hxv⟩ := value_add hip hleftn.proper hx
  obtain ⟨hyp, hyv⟩ := value_add hxp hrightn.proper hy
  obtain ⟨-, hzv⟩ := value_add hyp hrestn.proper hz
  have hxf := add_whole_left rfl hleftn.proper hx
  have hiv : (ofInt32 i).value = a.integral.toInt * b.integral.toInt * unit := by
    unfold value
    rw [← (checked_spec _).of_ok hi]
    simp [ofInt32]
  refine ⟨?_, by rw [value_mul_div]; omega⟩
  -- at most one of the parts has a fraction, so that there is no carry
  have hresult : c.fraction.toNat = left.fraction.toNat ∨
      c.fraction.toNat = right.fraction.toNat := by
    rcases hwhole with hwhole | hwhole
    · have hzero := ha.fraction_eq_zero hwhole
      rw [hzero] at hleftv hrestv
      have hx0 : x.fraction.toNat = 0 := by
        rw [hxf]
        exact hleftn.fraction_eq_zero (by simp [hleftv])
      right
      rw [add_whole hyp (hrestn.fraction_eq_zero (by simp [hrestv])) hz,
        add_whole_left hx0 hrightn.proper hy]
    · have hzero := hb.fraction_eq_zero hwhole
      rw [hzero] at hrightv hrestv
      left
      rw [add_whole hyp (hrestn.fraction_eq_zero (by simp [hrestv])) hz,
        add_whole hxp (hrightn.fraction_eq_zero (by simp [hrightv])) hy, hxf]
  rw [normalized_iff] at hleftn hrightn ⊢
  omega

theorem Normalized.value_lt (ha : a.Normalized) : a.value < 2 ^ 31 * unit := by
  have hlt := a.integral.toInt_lt
  rw [normalized_iff] at ha
  unfold value unit
  omega

theorem not_whole_of_mulNonneg (ha : a.Normalized) (hb : b.Normalized) (ha0 : 0 ≤ a.integral.toInt)
    (hb0 : 0 ≤ b.integral.toInt) (hproduct : a.value * b.value = 2 ^ 31 * unit * unit)
    (h : a.mulNonneg b = .ok c) : ¬ unit ∣ a.value ∧ ¬ unit ∣ b.value := by
  rw [← not_or]
  intro hwhole
  obtain ⟨hcn, hcv⟩ := mulNonneg_whole ha hb ha0 hb0 hwhole h
  rw [hproduct, Int.mul_ediv_cancel _ (by decide)] at hcv
  exact absurd hcn.value_lt (by omega)

theorem mulRight_eq_ok (ha : a.Normalized) (hb : b.Normalized) (ha0 : 0 ≤ a.integral.toInt)
    (h : a.mulRight b = .ok c) :
    -2 ^ 31 < b.integral.toInt ∧
      (|a.value * b.value| = 2 ^ 31 * unit * unit → ¬ unit ∣ a.value ∧ ¬ unit ∣ b.value) := by
  have hav := ha.integral_nonneg_iff.mp ha0
  unfold mulRight at h
  split_ifs at h with hb0
  · obtain ⟨b', hb', h⟩ := bind_eq_ok h
    obtain ⟨d, hd, -⟩ := bind_eq_ok h
    obtain ⟨hbn, hbv⟩ := (neg_faults hb.proper).of_ok hb'
    have hb0' : 0 ≤ b'.value := by
      have := hb.integral_nonneg_iff
      rw [integral_neg_iff] at hb0
      omega
    refine ⟨integral_gt_of_neg hb', fun hproduct => ?_⟩
    have hsigned : a.value * b.value = -(a.value * b'.value) := by rw [hbv, Int.mul_neg, neg_neg]
    rw [hsigned, abs_neg, abs_of_nonneg (Int.mul_nonneg hav hb0')] at hproduct
    have hnot := not_whole_of_mulNonneg ha hbn ha0 (hbn.integral_nonneg_iff.mpr hb0') hproduct hd
    rwa [hbv, Int.dvd_neg] at hnot
  · rw [integral_neg_iff, not_lt] at hb0
    refine ⟨by omega, fun hproduct => ?_⟩
    rw [abs_of_nonneg (Int.mul_nonneg hav (hb.integral_nonneg_iff.mp hb0))] at hproduct
    exact not_whole_of_mulNonneg ha hb ha0 hb0 hproduct h

theorem productFits_of_mul (ha : a.Normalized) (hb : b.Normalized)
    (hhigh : a.value * b.value < 2 ^ 31 * unit * unit) (h : a.mul b = .ok c) : ProductFits a b := by
  have hunit : (0 : Int) < unit := by decide
  unfold mul at h
  split_ifs at h with ha0
  · obtain ⟨a', ha', h⟩ := bind_eq_ok h
    obtain ⟨d, hd, hc⟩ := bind_eq_ok h
    obtain ⟨han, hav⟩ := (neg_faults ha.proper).of_ok ha'
    have hprod : a'.value * b.value = -(a.value * b.value) := by rw [hav, Int.neg_mul]
    have ha0' : 0 ≤ a'.integral.toInt := by
      have := ha.integral_nonneg_iff
      rw [integral_neg_iff] at ha0
      rw [han.integral_nonneg_iff]
      omega
    obtain ⟨hright, hwhole⟩ := mulRight_eq_ok han hb ha0' hd
    rw [hprod, abs_neg, hav, Int.dvd_neg] at hwhole
    refine ⟨integral_gt_of_neg ha', hright, fun hproduct => hwhole ?_, fun haneg hbneg => ?_⟩
    · rw [hproduct, abs_neg]
      rfl
    · -- the product of the absolute values is negated twice
      have hpos : 0 < a.value * b.value := Int.mul_pos_of_neg_of_neg haneg hbneg
      obtain ⟨d', hd', -, hdn, hdv⟩ := exists_mulRight han hb ha0' hright
        (by rw [hprod, abs_neg, abs_of_pos hpos]; exact hhigh.le)
        (by rw [hprod, abs_neg, abs_of_pos hpos]; exact fun heq => absurd heq hhigh.ne)
      cases hd.symm.trans hd'
      have hmin := integral_gt_of_neg hc
      have hdf := normalized_iff.mp (hdn hbneg)
      rw [hprod, Int.neg_tdiv, Int.tdiv_eq_ediv_of_nonneg hpos.le] at hdv
      unfold value unit at hdv ⊢
      omega
  · rw [integral_neg_iff, not_lt] at ha0
    obtain ⟨hright, hwhole⟩ := mulRight_eq_ok ha hb ha0 h
    have hav := ha.integral_nonneg_iff.mp ha0
    refine ⟨by omega, hright, fun hproduct => hwhole ?_, fun haneg => by omega⟩
    rw [hproduct, abs_neg]
    rfl

/-! ### Multiples -/

theorem mulNat_eq_ok (ha : a.Normalized) (hn : 0 ≤ n.toInt) (h : a.mulNat n = .ok c) :
    c.Normalized ∧ c.value = a.value * n.toInt := by
  obtain ⟨i, hi, h⟩ := bind_eq_ok h
  obtain ⟨part, hpart, hc⟩ := bind_eq_ok h
  obtain ⟨_, hpart', hpartn, hpartv⟩ := exists_mixed (normalized_iff.mp ha) hn
  cases hpart.symm.trans hpart'
  obtain ⟨-, hcv⟩ := value_add (show (ofInt32 i).Proper from Nat.zero_le _) hpartn.proper hc
  constructor
  · -- the first summand has no fraction, so there is no carry
    rw [normalized_iff, add_whole_left rfl hpartn.proper hc]
    exact normalized_iff.mp hpartn
  · rw [hcv, hpartv]
    unfold value
    simp only [ofInt32, (checked_spec _).of_ok hi, UInt64.toNat_zero]
    ring

theorem exists_mulNat (ha : a.Normalized) (hn : 0 ≤ n.toInt)
    (hint : -2 ^ 31 ≤ a.integral.toInt * n.toInt ∧ a.integral.toInt * n.toInt < 2 ^ 31)
    (hfits : a.value * n.toInt < 2 ^ 31 * unit) :
    ∃ c, a.mulNat n = .ok c ∧ c.Normalized ∧ c.value = a.value * n.toInt := by
  obtain ⟨i, hi, hival⟩ := exists_checked hint.1 hint.2
  obtain ⟨part, hpart, hpartn, hpartv⟩ := exists_mixed (normalized_iff.mp ha) hn
  have hsum : (ofInt32 i).value + part.value = a.value * n.toInt := by
    rw [hpartv]
    unfold value
    simp only [ofInt32, hival, UInt64.toNat_zero]
    ring
  have hpart0 : 0 ≤ part.integral.toInt := by
    rw [hpartn.integral_nonneg_iff, hpartv]
    exact Int.mul_nonneg (by omega) hn
  obtain ⟨c, hc, -, -⟩ := exists_add (show (ofInt32 i).Proper from Nat.zero_le _) hpartn.proper (by
    show -2 ^ 31 ≤ i.toInt + part.integral.toInt
    omega) (by rwa [hsum])
  have hmul : a.mulNat n = .ok c := by
    unfold mulNat
    rw [hi, hpart]
    exact hc
  exact ⟨c, hmul, mulNat_eq_ok ha hn hmul⟩

/-- For a negative factor, the multiple by its absolute value fits and so does what is negated. -/
def MultipleFits (a : Amount) (n : Int32) : Prop :=
  n.toInt < 0 → (-2 ^ 31 + 1) * unit ≤ a.value * |n.toInt| ∧ a.value * |n.toInt| < 2 ^ 31 * unit

theorem exists_mulInt_iff (ha : a.Normalized) (hmin : -2 ^ 31 < n.toInt)
    (hint : -2 ^ 31 ≤ a.integral.toInt * |n.toInt| ∧ a.integral.toInt * |n.toInt| < 2 ^ 31)
    (hfits : Fits (a.value * n.toInt)) :
    (∃ c, a.mulInt n = .ok c ∧ c.value = a.value * n.toInt) ↔ MultipleFits a n := by
  unfold mulInt MultipleFits
  split_ifs with hn
  · rw [gt_iff_lt, Int32.lt_iff_toInt_lt] at hn
    have hn0 : n.toInt < 0 := hn
    obtain ⟨m, -, hmv⟩ := exists_checked (x := -n.toInt) (by omega) (by omega)
    rw [abs_of_neg hn0, ← hmv] at hint ⊢
    constructor
    · rintro ⟨c, hc, -⟩ -
      obtain ⟨_, hm', hc⟩ := bind_eq_ok hc
      cases (checked_toInt m).symm.trans hm'
      obtain ⟨d, hd, hc⟩ := bind_eq_ok hc
      obtain ⟨hdn, hdv⟩ := mulNat_eq_ok ha (by omega) hd
      have hgt := integral_gt_of_neg hc
      have hhigh := hdn.value_lt
      rw [← hdv]
      unfold value unit at hhigh ⊢
      omega
    · intro hbounds
      obtain ⟨hlow, hhigh⟩ := hbounds hn0
      obtain ⟨d, hd, hdn, hdv⟩ := exists_mulNat ha (by omega) hint hhigh
      have hdmin : -2 ^ 31 < d.integral.toInt := by
        have hdf := normalized_iff.mp hdn
        rw [← hdv] at hlow
        unfold value unit at hlow
        omega
      obtain ⟨c, hc, -, hcv⟩ := exists_neg hdn.proper hdmin
      refine ⟨c, ?_, ?_⟩
      · rw [checked_toInt]
        show (a.mulNat m >>= fun c => c.neg) = _
        rw [hd]
        exact hc
      · rw [hcv, hdv, hmv, Int.mul_neg, neg_neg]
  · rw [gt_iff_lt, Int32.lt_iff_toInt_lt] at hn
    have hn0 : 0 ≤ n.toInt := not_lt.mp hn
    rw [abs_of_nonneg hn0] at hint ⊢
    refine iff_of_true ?_ fun hneg => absurd hneg hn
    obtain ⟨c, hc, -, hcv⟩ := exists_mulNat ha hn0 hint hfits.2
    exact ⟨c, hc, hcv⟩

/-- A product that fits is exact up to one truncation towards zero, and a multiple that fits is
exact, exactly if what is negated on the way fits as well. -/
theorem mul_truncates_iff (a b : Amount) (ha : a.Normalized) (hb : b.Normalized) :
    (-(2 ^ 31 * unit * unit) ≤ a.value * b.value ∧ a.value * b.value < 2 ^ 31 * unit * unit →
      ((∃ c, a.mul b = .ok c ∧ c.value = (a.value * b.value).tdiv unit) ↔ ProductFits a b)) ∧
    ∀ n : Int32, -2 ^ 31 < n.toInt →
      -2 ^ 31 ≤ a.integral.toInt * |n.toInt| ∧ a.integral.toInt * |n.toInt| < 2 ^ 31 →
      Fits (a.value * n.toInt) →
      ((∃ c, a.mulInt n = .ok c ∧ c.value = a.value * n.toInt) ↔ MultipleFits a n) := by
  refine ⟨fun hproduct => ⟨?_, exists_mul ha hb hproduct.1 hproduct.2⟩,
    fun n => exists_mulInt_iff ha⟩
  rintro ⟨c, hc, -⟩
  exact productFits_of_mul ha hb hproduct.2 hc

theorem mul_truncates_iff_negative :
    (∃ c, mul ⟨-3, 500000000000000000⟩ ⟨858993459, 200000000000000000⟩ = .ok c ∧
        c.value = -2 ^ 31 * unit) ∧
      ∃ c, mulInt ⟨-3, 500000000000000000⟩ (-3) = .ok c ∧ c.value = 7500000000000000000 := by
  obtain ⟨hmul, hint⟩ := mul_truncates_iff ⟨-3, 500000000000000000⟩ ⟨858993459, 200000000000000000⟩
    (by decide) (by decide)
  exact ⟨(hmul (by decide)).mpr ⟨by decide, by decide, by decide, by decide⟩,
    (hint (-3) (by decide) (by decide) (by decide)).mpr (by unfold MultipleFits; decide)⟩

/-- Factors and products at the end of the range, which fit themselves but not negated: the smallest
amount times zero, `-3.2 * 671088640 = -2 ^ 31`, `-2.5 * -858993459.1`, `429496729.6 * -5 = -2 ^ 31`
and `-2147483647.5 * -1`. -/
theorem mul_overflows_at_limits :
    mul ⟨-2147483648, 0⟩ 0 = .error .overflow ∧
      (value ⟨-4, 800000000000000000⟩ * value ⟨671088640, 0⟩ = -2 ^ 31 * unit * unit ∧
        mul ⟨-4, 800000000000000000⟩ ⟨671088640, 0⟩ = .error .overflow) ∧
      (value ⟨-3, 500000000000000000⟩ * value ⟨-858993460, 900000000000000000⟩ <
          2 ^ 31 * unit * unit ∧
        mul ⟨-3, 500000000000000000⟩ ⟨-858993460, 900000000000000000⟩ = .error .overflow) ∧
      (value ⟨429496729, 600000000000000000⟩ * -5 = -2 ^ 31 * unit ∧
        mulInt ⟨429496729, 600000000000000000⟩ (-5) = .error .overflow) ∧
      (value ⟨-2147483648, 500000000000000000⟩ * -1 < 2 ^ 31 * unit ∧
        mulInt ⟨-2147483648, 500000000000000000⟩ (-1) = .error .overflow) := by
  refine ⟨rfl, ⟨by decide, ?_⟩, ⟨by decide, ?_⟩, ⟨by decide, ?_⟩, ⟨by decide, ?_⟩⟩ <;>
    decide +kernel

end CreditsNode.Amount
