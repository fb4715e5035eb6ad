import CreditsNode.System.Common

/-!
# Masks and their bits
-/

namespace CreditsNode

open ByteCodec List

theorem bitsToMaskAux_eq (size : Nat) (value : UInt64) :
    bitsToMaskAux size value =
      (List.range size).map fun i => if value.toNat.testBit i then 0 else kUntrustedMarker := by
  induction size generalizing value with
  | zero => rfl
  | succ size ih =>
    have hodd : value % 2 = 1 ↔ value.toNat.testBit 0 = true := by
      rw [← UInt64.toNat_inj, UInt64.toNat_mod, Nat.testBit_zero, decide_eq_true_eq]
      rfl
    have hshift : ∀ i, (value / 2).toNat.testBit i = value.toNat.testBit (i + 1) := by
      intro i
      rw [UInt64.toNat_div, Nat.testBit_succ]
      rfl
    rw [bitsToMaskAux, ih, range_succ_eq_map, map_cons, map_map]
    simp only [hodd, hshift, Function.comp_def, Nat.succ_eq_add_one]

theorem bitsToMask_eq (size : UInt8) (value : UInt64) :
    bitsToMask size value =
      (List.range size.toNat).map fun i => if value.toNat.testBit i then 0 else kUntrustedMarker :=
  bitsToMaskAux_eq _ _

theorem length_bitsToMask (size : UInt8) (value : UInt64) :
    (bitsToMask size value).length = size.toNat := by
  rw [bitsToMask_eq, length_map, length_range]

theorem getElem?_bitsToMask {size : UInt8} {value : UInt64} {i : Nat} (h : i < size.toNat) :
    (bitsToMask size value)[i]? =
      some (if value.toNat.testBit i then 0 else kUntrustedMarker) := by
  rw [bitsToMask_eq, List.getElem?_map, List.getElem?_range h, Option.map_some]

theorem testBit_of_getElem?_bitsToMask {size : UInt8} {value : UInt64} {i : Nat} {marker : UInt8}
    (h : (bitsToMask size value)[i]? = some marker) (hm : marker ≠ kUntrustedMarker) :
    value.toNat.testBit i = true := by
  have hi : i < size.toNat := by
    rw [← length_bitsToMask size value]
    exact (List.getElem?_eq_some_iff.mp h).1
  by_contra hbit
  rw [getElem?_bitsToMask hi, if_neg hbit, Option.some.injEq] at h
  exact hm h.symm

theorem toNat_maskValue (value : UInt64) : (maskValue value).toNat = popcount value := by
  have hle : popcount value ≤ 64 := by
    simpa [popcount] using countP_le_length (l := range 64)
  exact Nat.mod_eq_of_lt (by omega)

def maskBits : Bytes → Nat
  | [] => 0
  | it :: mask => (if it ≠ kUntrustedMarker then 1 else 0) + 2 * maskBits mask

theorem testBit_maskBits_zero (it : UInt8) (mask : Bytes) :
    (maskBits (it :: mask)).testBit 0 ↔ it ≠ kUntrustedMarker := by
  rw [maskBits, Nat.testBit_zero, Nat.add_mul_mod_self_left]
  split_ifs with h <;> simp [h]

theorem testBit_maskBits_succ (it : UInt8) (mask : Bytes) (i : Nat) :
    (maskBits (it :: mask)).testBit (i + 1) = (maskBits mask).testBit i := by
  have hhalf : maskBits (it :: mask) / 2 = maskBits mask := by
    rw [maskBits]
    split_ifs <;> omega
  rw [Nat.testBit_succ, hhalf]

theorem maskBits_lt (mask : Bytes) : maskBits mask < 2 ^ mask.length := by
  induction mask with
  | nil => decide
  | cons it mask ih =>
    rw [maskBits, length_cons, pow_succ]
    split_ifs <;> omega

theorem toNat_maskToBitsAux (mask : Bytes) (addition value : UInt64) :
    (maskToBitsAux mask addition value).toNat =
      (value.toNat + addition.toNat * maskBits mask) % 2 ^ 64 := by
  induction mask generalizing addition value with
  | nil => exact (Nat.mod_eq_of_lt value.toNat_lt).symm
  | cons it mask ih =>
    have htwo : (addition * 2).toNat = addition.toNat * 2 % 2 ^ 64 := UInt64.toNat_mul _ _
    rw [maskToBitsAux, ih, htwo, maskBits, Nat.add_mod, Nat.mod_mul_mod, ← Nat.add_mod]
    split_ifs
    · rw [UInt64.toNat_add, Nat.mod_add_mod]
      ring_nf
    · ring_nf

theorem toNat_maskToBits {mask : Bytes} (h : mask.length ≤ 64) :
    (maskToBits mask).toNat = maskBits mask := by
  have hlt : maskBits mask < 2 ^ 64 :=
    (maskBits_lt mask).trans_le (Nat.pow_le_pow_right (by decide) h)
  rw [maskToBits, toNat_maskToBitsAux, UInt64.toNat_zero, UInt64.toNat_one, Nat.zero_add,
    Nat.one_mul, Nat.mod_eq_of_lt hlt]

theorem maskBits_bitsToMaskAux (size : Nat) (value : UInt64) :
    maskBits (bitsToMaskAux size value) = value.toNat % 2 ^ size := by
  induction size generalizing value with
  | zero => exact (Nat.mod_one _).symm
  | succ size ih =>
    have hodd : value % 2 = 1 ↔ value.toNat % 2 = 1 := UInt64.toNat_inj.symm
    have hhalf : (value / 2).toNat = value.toNat / 2 := UInt64.toNat_div _ _
    rw [bitsToMaskAux, maskBits, ih, hhalf, pow_succ', Nat.mod_mul]
    simp only [hodd]
    split_ifs <;> grind [kUntrustedMarker]

/-- The entry `i` of a mask names a trusted node. -/
def Marked (mask : Bytes) (i : Nat) : Prop := ∃ it, mask[i]? = some it ∧ it ≠ kUntrustedMarker

theorem testBit_maskBits (mask : Bytes) (i : Nat) : (maskBits mask).testBit i ↔ Marked mask i := by
  induction mask generalizing i with
  | nil => simp [maskBits, Marked]
  | cons it mask ih =>
    cases i with
    | zero =>
      rw [testBit_maskBits_zero]
      simp [Marked]
    | succ i => simp [testBit_maskBits_succ, ih, Marked]

theorem countP_testBit_maskBits (mask : Bytes) (k : Nat) (h : mask.length ≤ k) :
    (List.range k).countP (maskBits mask).testBit = mask.countP (· ≠ kUntrustedMarker) := by
  induction mask generalizing k with
  | nil => simp [maskBits]
  | cons it mask ih =>
    obtain ⟨k, rfl⟩ : ∃ j, k = j + 1 := ⟨k - 1, by grind⟩
    have htail := ih k (Nat.le_of_succ_le_succ h)
    rw [range_succ_eq_map, countP_cons, countP_map, countP_cons, ← htail]
    simp only [Function.comp_def, testBit_maskBits_succ, testBit_maskBits_zero, decide_eq_true_eq]

/-- A mask and its bits mark the same entries, in both directions, and the bits are as many as the
trusted entries. -/
theorem masks_agree {mask : Bytes} (h : mask.length ≤ 64) (bits : UInt64) :
    (∀ i, Marked (bitsToMask (UInt8.ofNat mask.length) (maskToBits mask)) i ↔ Marked mask i) ∧
      (maskToBits (bitsToMask (UInt8.ofNat mask.length) bits)).toNat =
        bits.toNat % 2 ^ mask.length ∧
      (maskValue (maskToBits mask)).toNat = mask.countP (· ≠ kUntrustedMarker) := by
  have hsize : (UInt8.ofNat mask.length).toNat = mask.length := by
    rw [UInt8.toNat_ofNat']
    omega
  have hbits := toNat_maskToBits h
  refine ⟨fun i => ?_, ?_, ?_⟩
  · rw [← testBit_maskBits, ← testBit_maskBits, bitsToMask, hsize, maskBits_bitsToMaskAux, hbits,
      Nat.mod_eq_of_lt (maskBits_lt mask)]
  · rw [toNat_maskToBits, bitsToMask, hsize, maskBits_bitsToMaskAux]
    rwa [length_bitsToMask, hsize]
  · rw [toNat_maskValue, popcount, hbits]
    exact countP_testBit_maskBits mask 64 h

theorem masks_agree_three : [0, kUntrustedMarker, 2].length ≤ 64 ∧
    (maskValue (maskToBits [0, kUntrustedMarker, 2])).toNat = 2 :=
  ⟨by decide, (masks_agree (by decide) 0).2.2⟩

end CreditsNode
