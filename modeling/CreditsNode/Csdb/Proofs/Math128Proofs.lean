import CreditsNode.Csdb.Amount

/-!
# Soundness of the 128-bit arithmetic

`mul` is the exact product of two words. `div` scans the low word from its highest bit downwards and
is exact division with remainder: `DivInvariant` says what has been computed when `k` bits remain.
-/

namespace CreditsNode.Uint128

open Effect

/-- The number a pair of words stands for. -/
def toNat (v : Uint128) : Nat := v.hi.toNat * 2 ^ 64 + v.lo.toNat

variable {v : Uint128} {k : Nat} {divisor : UInt64} {p : Division64Result}

theorem toNat_add64 {s : UInt64} (h : v.toNat + s.toNat < 2 ^ 128) :
    (v.add64 s).toNat = v.toNat + s.toNat := by
  have hl := v.lo.toNat_lt
  have hs := s.toNat_lt
  unfold toNat at h ⊢
  unfold add64
  split_ifs with hc
  · have hc' := UInt64.lt_iff_toNat_lt.mp hc
    simp only [UInt64.toNat_add, UInt64.toNat_sub, UInt64.reduceToNat] at hc' ⊢
    omega
  · grind [UInt64.lt_iff_toNat_lt.not, UInt64.toNat_add, UInt64.toNat_sub]

theorem toNat_mul2 {ac ad bc bd : UInt64}
    (h : ac.toNat * 2 ^ 64 + (ad.toNat + bc.toNat) * 2 ^ 32 + bd.toNat < 2 ^ 128) :
    (mul2 ac ad bc bd).toNat = ac.toNat * 2 ^ 64 + (ad.toNat + bc.toNat) * 2 ^ 32 + bd.toNat := by
  have hs : (32 : UInt64).toNat = 32 := rfl
  -- the high halves of the middle products go to the high word, their low halves are added
  have hbase : (⟨bd, ac + (ad >>> 32) + (bc >>> 32)⟩ : Uint128).toNat =
      (ac.toNat + ad.toNat / 2 ^ 32 + bc.toNat / 2 ^ 32) * 2 ^ 64 + bd.toNat := by
    simp only [toNat, UInt64.toNat_add, UInt64.toNat_shiftRight, hs, Nat.shiftRight_eq_div_pow,
      Nat.reduceMod]
    omega
  have hlow : ∀ w : UInt64, (w <<< 32).toNat = w.toNat % 2 ^ 32 * 2 ^ 32 := by
    intro w
    simp only [UInt64.toNat_shiftLeft, hs, Nat.shiftLeft_eq, Nat.reduceMod]
    omega
  have hadl := hlow ad
  grind [toNat_add64, mul2]

theorem toNat_mul (a b : UInt64) : (mul a b).toNat = a.toNat * b.toNat := by
  have ha := a.toNat_lt
  have hb := b.toNat_lt
  have hs : (32 : UInt64).toNat = 32 := rfl
  have hm : (0xFFFFFFFF : UInt64).toNat = 2 ^ 32 - 1 := rfl
  have hhi : ∀ w : UInt64, (w >>> 32).toNat = w.toNat / 2 ^ 32 := by
    intro w
    simp [hs, Nat.shiftRight_eq_div_pow]
  have hlo : ∀ w : UInt64, (w &&& 0xFFFFFFFF).toNat = w.toNat % 2 ^ 32 := by
    intro w
    rw [UInt64.toNat_and, hm, Nat.and_two_pow_sub_one_eq_mod]
  -- each factor is split at 32 bits, so no partial product leaves its word
  have hpart : ∀ x y : UInt64, x.toNat < 2 ^ 32 → y.toNat < 2 ^ 32 →
      (x * y).toNat = x.toNat * y.toNat := by
    intro x y hx hy
    rw [UInt64.toNat_mul, Nat.mod_eq_of_lt]
    nlinarith
  have hah : (a >>> 32).toNat < 2 ^ 32 := by rw [hhi]; omega
  have hal : (a &&& 0xFFFFFFFF).toNat < 2 ^ 32 := by rw [hlo]; omega
  have hbh : (b >>> 32).toNat < 2 ^ 32 := by rw [hhi]; omega
  have hbl : (b &&& 0xFFFFFFFF).toNat < 2 ^ 32 := by rw [hlo]; omega
  have hexact : (a >>> 32).toNat * (b >>> 32).toNat * 2 ^ 64 +
      ((a >>> 32).toNat * (b &&& 0xFFFFFFFF).toNat +
        (a &&& 0xFFFFFFFF).toNat * (b >>> 32).toNat) * 2 ^ 32 +
      (a &&& 0xFFFFFFFF).toNat * (b &&& 0xFFFFFFFF).toNat = a.toNat * b.toNat := by
    have ea : a.toNat = (a >>> 32).toNat * 2 ^ 32 + (a &&& 0xFFFFFFFF).toNat := by
      rw [hhi, hlo]; omega
    have eb : b.toNat = (b >>> 32).toNat * 2 ^ 32 + (b &&& 0xFFFFFFFF).toNat := by
      rw [hhi, hlo]; omega
    rw [ea, eb]
    ring
  have hlt : a.toNat * b.toNat < 2 ^ 128 := by nlinarith
  unfold mul mul1
  grind [toNat_mul2]

/-- With `k` bits of `n` to scan, the quotient and the remainder of the bits above them are known,
and the quotient stands at its final place. -/
def DivInvariant (n divisor k : Nat) (p : Division64Result) : Prop :=
  ∃ q, p.quotient.toNat = q * 2 ^ k ∧ n / 2 ^ k = q * divisor + p.remainder.toNat ∧
    p.remainder.toNat < divisor

/-- The next bit of the number enters the part that has been scanned. -/
theorem div_two_pow (n k : Nat) : n / 2 ^ k = 2 * (n / 2 ^ (k + 1)) + n / 2 ^ k % 2 := by
  have h : n / 2 ^ k / 2 = n / 2 ^ (k + 1) := by
    rw [Nat.div_div_eq_div_mul, pow_succ]
  omega

theorem toNat_bit (v : Uint128) (hk : k < 64) :
    v.toNat / 2 ^ k % 2 = ((v.lo >>> UInt64.ofNat k) &&& 1).toNat := by
  have hk' : (UInt64.ofNat k).toNat = k := by
    rw [UInt64.toNat_ofNat']
    omega
  have hlow : v.toNat / 2 ^ k = v.hi.toNat * 2 ^ (64 - k) + v.lo.toNat / 2 ^ k := by
    have hsplit : 2 ^ 64 = 2 ^ (64 - k) * 2 ^ k := by
      rw [← pow_add]
      congr 1
      omega
    unfold toNat
    rw [hsplit, ← Nat.mul_assoc, Nat.add_comm, Nat.add_mul_div_right _ _ (by positivity),
      Nat.add_comm]
  grind [UInt64.toNat_and, UInt64.toNat_shiftRight, Nat.shiftRight_eq_div_pow, Nat.mod_eq_of_lt,
    Nat.mul_assoc]

theorem toNat_addBit {q : Uint128} {m : Nat} (hq : q.toNat = m * 2 ^ (k + 1)) (hk : k < 64) :
    (⟨q.lo + 1 <<< UInt64.ofNat k, q.hi⟩ : Uint128).toNat = (2 * m + 1) * 2 ^ k := by
  have hk' : (UInt64.ofNat k).toNat = k := by
    rw [UInt64.toNat_ofNat']
    omega
  have hpow : 2 ^ k < 2 ^ 64 := Nat.pow_lt_pow_right (by decide) hk
  have hbit : ((1 : UInt64) <<< UInt64.ofNat k).toNat = 2 ^ k := by
    rw [UInt64.toNat_shiftLeft, hk', Nat.shiftLeft_eq, Nat.mod_eq_of_lt hk, UInt64.toNat_one,
      Nat.one_mul, Nat.mod_eq_of_lt hpow]
  have hlt := q.lo.toNat_lt
  have hroom : q.lo.toNat + 2 ^ k < 2 ^ 64 := by
    have hsplit : 2 ^ 64 = 2 ^ (63 - k) * 2 ^ (k + 1) := by
      rw [← pow_add]
      congr 1
      omega
    have hdvd : 2 ^ (k + 1) ∣ q.lo.toNat := by
      have h1 : 2 ^ (k + 1) ∣ q.hi.toNat * 2 ^ 64 := by
        rw [hsplit, ← Nat.mul_assoc]
        exact Nat.dvd_mul_left _ _
      have h2 : 2 ^ (k + 1) ∣ q.toNat := hq ▸ Nat.dvd_mul_left _ _
      exact (Nat.dvd_add_right h1).mp h2
    obtain ⟨c, hc⟩ := hdvd
    rw [hc, hsplit, Nat.mul_comm] at hlt
    have hc' : c + 1 ≤ 2 ^ (63 - k) := Nat.lt_of_mul_lt_mul_right hlt
    have hle := Nat.mul_le_mul_right (2 ^ (k + 1)) hc'
    grind
  unfold toNat at hq ⊢
  simp only [UInt64.toNat_add, hbit]
  rw [Nat.mod_eq_of_lt hroom, ← Nat.add_assoc, hq, pow_succ]
  ring

theorem topBit_eq_zero_iff (w : UInt64) : 0x8000000000000000 &&& w = 0 ↔ w.toNat < 2 ^ 63 := by
  have hw := w.toNat_lt
  have hand : (0x8000000000000000 &&& w).toNat = 2 ^ 63 &&& w.toNat := by
    rfl
  rw [← UInt64.toNat_inj, hand, UInt64.toNat_zero]
  constructor
  · intro h
    have hbit : (2 ^ 63 &&& w.toNat).testBit 63 = false := by
      rw [h, Nat.zero_testBit]
    grind
  · intro h
    apply Nat.eq_of_testBit_eq
    intro i
    rw [Nat.testBit_and, Nat.zero_testBit, Nat.testBit_two_pow]
    by_cases hi : 63 = i
    · rw [← hi, Nat.testBit_lt_two_pow h, Bool.and_false]
    · simp [hi]

theorem divInvariant_div3 {n : Nat} {dividend : UInt64}
    (hk : k < 64) (hp : DivInvariant n divisor.toNat (k + 1) p)
    (hd : dividend.toNat = (2 * p.remainder.toNat + n / 2 ^ k % 2) % 2 ^ 64) :
    DivInvariant n divisor.toNat k (div3 p divisor (1 <<< UInt64.ofNat k) dividend) := by
  obtain ⟨m, hq, hn, hr⟩ := hp
  have hdiv := div_two_pow n k
  have hr' := p.remainder.toNat_lt
  have hd' := divisor.toNat_lt
  have hq' : p.quotient.toNat = 2 * m * 2 ^ k := by
    rw [hq, pow_succ]
    ring
  have htop := topBit_eq_zero_iff p.remainder
  unfold div3
  by_cases hz : 0x8000000000000000 &&& p.remainder = 0
  · rw [if_pos hz]
    by_cases hlt : dividend < divisor
    · -- the divisor does not go into the new remainder
      have hlt' := UInt64.lt_iff_toNat_lt.mp hlt
      refine ⟨2 * m, ?_, ?_, ?_⟩
      · simpa [hlt] using hq'
      · grind [UInt64.toNat_mod, Nat.mod_eq_of_lt]
      · simpa only [UInt64.toNat_mod, Nat.mod_eq_of_lt hlt'] using hlt'
    · have hge : divisor.toNat ≤ dividend.toNat := by
        have := UInt64.lt_iff_toNat_lt.not.mp hlt
        omega
      have hmod : dividend.toNat % divisor.toNat = dividend.toNat - divisor.toNat := by
        rw [Nat.mod_eq_sub_mod hge, Nat.mod_eq_of_lt]
        omega
      refine ⟨2 * m + 1, ?_, ?_, ?_⟩
      · simpa [hlt] using toNat_addBit hq hk
      · grind [UInt64.toNat_mod]
      · simp only [UInt64.toNat_mod, hmod]
        omega
  · -- the remainder has lost its top bit in the shift, so the divisor goes into it
    rw [if_neg hz]
    have hz' : 2 ^ 63 ≤ p.remainder.toNat := by
      have := htop.not.mp hz
      omega
    have hrem : (0xFFFFFFFFFFFFFFFF - divisor + dividend + 1).toNat =
        2 * p.remainder.toNat + n / 2 ^ k % 2 - divisor.toNat := by
      simp only [UInt64.toNat_add, UInt64.toNat_sub, UInt64.reduceToNat]
      omega
    refine ⟨2 * m + 1, toNat_addBit hq hk, ?_, ?_⟩
    · simp only [hrem]
      rw [hdiv, hn, Nat.mul_add, Nat.add_mul, Nat.mul_assoc]
      omega
    · simp only [hrem]
      omega

theorem divInvariant_div2 (hk : k < 64) (hp : DivInvariant v.toNat divisor.toNat (k + 1) p) :
    DivInvariant v.toNat divisor.toNat k (v.div2 p divisor k) := by
  apply divInvariant_div3 hk hp
  have hone : (1 : UInt64).toNat = 1 := rfl
  rw [v.toNat_bit hk, UInt64.toNat_add, UInt64.toNat_shiftLeft, hone, Nat.shiftLeft_eq, Nat.one_mod]
  omega

theorem divInvariant_div1 (k : Nat)
    (hk : k < 64) (hp : DivInvariant v.toNat divisor.toNat (k + 1) p) :
    DivInvariant v.toNat divisor.toNat 0 (v.div1 p divisor k) := by
  induction k generalizing p with
  | zero => exact divInvariant_div2 hk hp
  | succ k ih => exact ih (by omega) (divInvariant_div2 hk hp)

theorem div_spec (v : Uint128) (hd : divisor ≠ 0) :
    ∃ r, v.div divisor = .ok r ∧
      r.quotient.toNat = v.toNat / divisor.toNat ∧ r.remainder.toNat = v.toNat % divisor.toNat := by
  have hpos : 0 < divisor.toNat := by
    rw [Nat.pos_iff_ne_zero]
    exact fun h => hd (UInt64.toNat_inj.mp h)
  unfold div
  rw [if_neg hd.symm]
  by_cases hone : 1 = divisor
  · simp [← hone, Nat.mod_one]
  · rw [if_neg hone]
    refine ⟨_, rfl, ?_⟩
    have hstart : DivInvariant v.toNat divisor.toNat 64
        ⟨⟨0, v.hi / divisor⟩, v.hi % divisor⟩ := by
      have hlo := v.lo.toNat_lt
      refine ⟨v.hi.toNat / divisor.toNat, by simp [toNat], ?_, ?_⟩
      · have hhigh : v.toNat / 2 ^ 64 = v.hi.toNat := by
          unfold toNat
          omega
        rw [hhigh, UInt64.toNat_mod, Nat.mul_comm, Nat.div_add_mod]
      · exact Nat.mod_lt _ hpos
    obtain ⟨q, hq, hn, hr⟩ := divInvariant_div1 63 (by decide) hstart
    rw [pow_zero, Nat.mul_one] at hq
    rw [pow_zero, Nat.div_one] at hn
    rw [hq, hn, Nat.add_comm (q * divisor.toNat), Nat.add_mul_div_right _ _ hpos,
      Nat.div_eq_of_lt hr, Nat.add_mul_mod_self_right, Nat.mod_eq_of_lt hr]
    exact ⟨(Nat.zero_add q).symm, rfl⟩

/-- Words are multiplied exactly, and a number is divided by a word exactly and with remainder. -/
theorem arithmetic_exact :
    (∀ a b : UInt64, (mul a b).toNat = a.toNat * b.toNat) ∧
      ∀ (v : Uint128) (d : UInt64), d ≠ 0 → ∃ r, v.div d = .ok r ∧
        r.quotient.toNat * d.toNat + r.remainder.toNat = v.toNat ∧
        r.remainder.toNat < d.toNat := by
  refine ⟨toNat_mul, fun v d hd => ?_⟩
  obtain ⟨r, hdiv, hquotient, hremainder⟩ := div_spec v hd
  refine ⟨r, hdiv, ?_, ?_⟩
  · rw [hquotient, hremainder, Nat.div_add_mod']
  · rw [hremainder]
    exact Nat.mod_lt _ (Nat.pos_of_ne_zero fun h => hd (UInt64.toNat_inj.mp h))

theorem arithmetic_exact_ten : (10 : UInt64) ≠ 0 ∧ ∃ r, div ⟨5, 1⟩ 10 = .ok r ∧
    r.quotient.toNat * 10 + r.remainder.toNat = 2 ^ 64 + 5 ∧ r.remainder.toNat < 10 :=
  ⟨by decide, arithmetic_exact.2 ⟨5, 1⟩ 10 (by decide)⟩

end CreditsNode.Uint128
