import CreditsNode.Lib.Effect
import CreditsNode.Lib.MachineInt
import CreditsNode.Lib.ByteCodec

/-!
# Amounts of money

`csdb::Amount` is a fixed-point number: an `int32_t` integral part and a `uint64_t` fraction in
units of `10 ^ -18` that counts upwards also for negative numbers, so `-0.25` is `(-1, 0.75)`. The
integral part must not overflow, the fraction wraps modulo `2 ^ 64`.

`csdb::AmountCommission` is a 16-bit floating-point number; its conversions are parameters.
-/

namespace CreditsNode

open Effect ByteCodec

/-! ## 128-bit arithmetic -/

/-- `internal::uint128_t`. -/
structure Uint128 where
  lo : UInt64
  hi : UInt64
deriving DecidableEq, Repr

namespace Uint128

/-- `uint128_t::division64_result`. -/
structure Division64Result where
  quotient : Uint128
  remainder : UInt64
deriving DecidableEq, Repr

/-- `operator+(uint64_t)`. -/
def add64 (v : Uint128) (summand : UInt64) : Uint128 :=
  if 0xFFFFFFFFFFFFFFFF - v.lo < summand then
    ⟨v.lo - (0xFFFFFFFFFFFFFFFF - summand + 1), v.hi + 1⟩
  else ⟨v.lo + summand, v.hi⟩

def mul2 (ac ad bc bd : UInt64) : Uint128 :=
  (add64 ⟨bd, ac + (ad >>> 32) + (bc >>> 32)⟩ (ad <<< 32)).add64 (bc <<< 32)

def mul1 (a b c d : UInt64) : Uint128 := mul2 (a * c) (a * d) (b * c) (b * d)

def mul (a b : UInt64) : Uint128 :=
  mul1 (a >>> 32) (a &&& 0xFFFFFFFF) (b >>> 32) (b &&& 0xFFFFFFFF)

def div3 (previous : Division64Result) (divisor bit dividend : UInt64) : Division64Result :=
  if 0x8000000000000000 &&& previous.remainder = 0 then
    ⟨⟨previous.quotient.lo + (if dividend < divisor then 0 else bit), previous.quotient.hi⟩,
      dividend % divisor⟩
  else
    ⟨⟨previous.quotient.lo + bit, previous.quotient.hi⟩,
      0xFFFFFFFFFFFFFFFF - divisor + dividend + 1⟩

def div2 (v : Uint128) (previous : Division64Result) (divisor : UInt64) (shift : Nat) :
    Division64Result :=
  div3 previous divisor (1 <<< UInt64.ofNat shift)
    ((previous.remainder <<< 1) + ((v.lo >>> UInt64.ofNat shift) &&& 1))

def div1 (v : Uint128) (previous : Division64Result) (divisor : UInt64) : Nat → Division64Result
  | 0 => v.div2 previous divisor 0
  | shift + 1 => v.div1 (v.div2 previous divisor (shift + 1)) divisor shift

def div (v : Uint128) (divisor : UInt64) : Except Fault Division64Result :=
  if 0 = divisor then .error (.exception "Division by zero")
  else if 1 = divisor then .ok ⟨v, 0⟩
  else .ok (v.div1 ⟨⟨0, v.hi / divisor⟩, v.hi % divisor⟩ divisor 63)

end Uint128

/-! ## `Amount` -/

/-- `csdb::Amount`: a whole number of coins and a fraction in units of `10 ^ -18`. -/
structure Amount where
  integral : Int32
  fraction : UInt64
deriving DecidableEq, Repr

namespace Amount

/-- `Amount::AMOUNT_MAX_FRACTION`. -/
def maxFraction : UInt64 := 1000000000000000000

def ofInt32 (value : Int32) : Amount := ⟨value, 0⟩

instance : OfNat Amount 0 := ⟨ofInt32 0⟩

/-- The result of an `int` operation, unless it overflows. -/
def checked (x : Int) : Except Fault Int32 :=
  match Int32.ofInt? x with
  | some c => .ok c
  | none => .error .overflow

def ofDivision (value : Uint128.Division64Result) : Amount :=
  ⟨value.quotient.lo.toUInt32.toInt32, value.remainder⟩

def ofUint128 (value : Uint128) (divide : Bool) : Except Fault Amount := do
  if 0 = value.lo ∧ 0 = value.hi then
    return ofDivision ⟨⟨0, 0⟩, 0⟩
  else if divide then
    return ofDivision (← (← value.div maxFraction).quotient.div maxFraction)
  else
    return ofDivision (← value.div maxFraction)

/-- `Amount::_check_fraction`. -/
def checkFraction (fraction : Uint128) : Except Fault UInt64 :=
  if 0 ≠ fraction.hi ∨ maxFraction ≤ fraction.lo then
    .error (.exception "Amount::Amount(): Invalid fraction part.")
  else .ok fraction.lo

/-- The constructor from an integral part and a ratio. -/
def ofRatio (integral : Int32) (numerator denominator : UInt64) : Except Fault Amount := do
  let q ← ((Uint128.mul numerator maxFraction).add64 (denominator / 2)).div denominator
  return ⟨integral, ← checkFraction q.quotient⟩

/-! ### Comparison -/

/-- `operator<`. -/
def lt (a b : Amount) : Bool :=
  if a.integral < b.integral then true
  else if a.integral > b.integral then false
  else a.fraction < b.fraction

/-- `operator>`. -/
def gt (a b : Amount) : Bool :=
  if a.integral > b.integral then true
  else if a.integral < b.integral then false
  else a.fraction > b.fraction

/-- `operator<=`. -/
def le (a b : Amount) : Bool := !a.gt b

/-- `operator>=`. -/
def ge (a b : Amount) : Bool := !a.lt b

/-! ### Arithmetic -/

/-- Unary `operator-`. -/
def neg (a : Amount) : Except Fault Amount := do
  if 0 = a.fraction then
    return ofInt32 (← checked (-a.integral.toInt))
  else
    let i ← checked (-a.integral.toInt)
    return ⟨← checked (i.toInt - 1), maxFraction - a.fraction⟩

/-- `operator+=`. -/
def addAssign (a b : Amount) : Except Fault Amount := do
  let i ← checked (a.integral.toInt + b.integral.toInt)
  let f := a.fraction + b.fraction
  if f ≥ maxFraction then
    return ⟨← checked (i.toInt + 1), f - maxFraction⟩
  else
    return ⟨i, f⟩

/-- `operator-=`. -/
def subAssign (a b : Amount) : Except Fault Amount := do
  let i ← checked (a.integral.toInt - b.integral.toInt)
  if b.fraction > a.fraction then
    return ⟨← checked (i.toInt - 1), a.fraction + (maxFraction - b.fraction)⟩
  else
    return ⟨i, a.fraction - b.fraction⟩

/-- `operator+`. -/
def add (a b : Amount) : Except Fault Amount := do
  let i ← checked (a.integral.toInt + b.integral.toInt)
  if maxFraction < a.fraction + b.fraction then
    return ⟨← checked (i.toInt + 1), a.fraction + b.fraction - maxFraction⟩
  else
    return ⟨i, a.fraction + b.fraction⟩

/-- Binary `operator-`. -/
def sub (a b : Amount) : Except Fault Amount := do
  let i ← checked (a.integral.toInt - b.integral.toInt)
  if a.fraction < b.fraction then
    return ⟨← checked (i.toInt - 1), a.fraction + maxFraction - b.fraction⟩
  else
    return ⟨i, a.fraction - b.fraction⟩

/-- `operator*` for factors that are not negative: the integral parts, the mixed parts and the
fractions. -/
def mulNonneg (a b : Amount) : Except Fault Amount := do
  let integral ← checked (a.integral.toInt * b.integral.toInt)
  let left ← ofUint128 (Uint128.mul a.fraction b.integral.toInt64.toUInt64) false
  let right ← ofUint128 (Uint128.mul b.fraction a.integral.toInt64.toUInt64) false
  let fraction ← ofUint128 (Uint128.mul a.fraction b.fraction) true
  (← (← (ofInt32 integral).add left).add right).add fraction

/-- `operator*` for a first factor that is not negative. -/
def mulRight (a b : Amount) : Except Fault Amount := do
  if 0 > b.integral then (← a.mulNonneg (← b.neg)).neg
  else a.mulNonneg b

/-- `operator*`. -/
def mul (a b : Amount) : Except Fault Amount := do
  if 0 > a.integral then (← (← a.neg).mulRight b).neg
  else a.mulRight b

/-- `operator*(int32_t)` for a factor that is not negative. -/
def mulNat (a : Amount) (other : Int32) : Except Fault Amount := do
  let integral ← checked (a.integral.toInt * other.toInt)
  (ofInt32 integral).add (← ofUint128 (Uint128.mul a.fraction other.toInt64.toUInt64) false)

/-- `operator*(int32_t)`. -/
def mulInt (a : Amount) (other : Int32) : Except Fault Amount := do
  if 0 > other then (← a.mulNat (← checked (-other.toInt))).neg
  else a.mulNat other

/-- `operator/` for a positive divisor other than one and a non-negative dividend. -/
def divPos (a : Amount) (other : Int32) : Except Fault Amount := do
  let divisor := other.toInt64.toUInt64
  let q ← (Uint128.mul a.integral.toInt64.toUInt64 maxFraction).div divisor
  (← ofUint128 q.quotient false).add ⟨0, a.fraction / divisor⟩

/-- `operator/` for a positive divisor. -/
def divNat (a : Amount) (other : Int32) : Except Fault Amount := do
  if 1 = other then return a
  else if 0 > a.integral then (← (← a.neg).divPos other).neg
  else a.divPos other

/-- `operator/`. -/
def div (a : Amount) (other : Int32) : Except Fault Amount := do
  if 0 = other then .error (.exception "Amount division by zero")
  else if 0 > other then (← a.divNat (← checked (-other.toInt))).neg
  else a.divNat other

/-! ### Serialization -/

def put (a : Amount) : Bytes := putI32 a.integral ++ putU64 a.fraction

def get : Get Amount := do
  let integral ← getI32
  let fraction ← getU64
  return ⟨integral, fraction⟩

end Amount

/-! ## `AmountCommission` -/

/-- `csdb::AmountCommission`, by its bits. -/
structure AmountCommission where
  bits : UInt16
deriving DecidableEq, Repr

namespace AmountCommission

def put (c : AmountCommission) : Bytes := putU16 c.bits

def get : Get AmountCommission := AmountCommission.mk <$> getU16

end AmountCommission

end CreditsNode
