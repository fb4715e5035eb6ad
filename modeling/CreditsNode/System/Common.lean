import CreditsNode.Lib.ByteCodec

/-!
# Common types and masks

The types shared by all parts of the node (`lib/system/common.hpp`), the cryptographic library as a
parameter, and the conversions between a trusted mask and its bits (`cs::Utils`).
-/

namespace CreditsNode

open ByteCodec

abbrev PublicKey := List.Vector UInt8 32
abbrev Signature := List.Vector UInt8 64
abbrev Hash := List.Vector UInt8 32
abbrev Sequence := UInt64
abbrev WalletId := UInt32

def kWrongSequence : Sequence := 0xFFFFFFFFFFFFFFFF

def zeroArray (n : Nat) : List.Vector UInt8 n := List.Vector.replicate n 0

/-- What the code uses of the cryptographic library. -/
structure Crypto where
  calculateHash : Bytes → Hash
  verifySignature : Signature → PublicKey → Bytes → Bool

/-- A library that hashes everything to zeros and accepts every signature, to run examples with. -/
def Crypto.zero : Crypto := ⟨fun _ => zeroArray 32, fun _ _ _ => true⟩

/-! ## Masks -/

/-- `InvalidConfidantIndex`, also written `kUntrustedMarker` in the source. -/
def kUntrustedMarker : UInt8 := 255

def maskToBitsAux : Bytes → UInt64 → UInt64 → UInt64
  | [], _, value => value
  | it :: mask, addition, value =>
    maskToBitsAux mask (addition * 2) (if it ≠ kUntrustedMarker then value + addition else value)

def maskToBits (mask : Bytes) : UInt64 := maskToBitsAux mask 1 0

def bitsToMaskAux : Nat → UInt64 → Bytes
  | 0, _ => []
  | size + 1, value =>
    (if value % 2 = 1 then 0 else kUntrustedMarker) :: bitsToMaskAux size (value / 2)

def bitsToMask (size : UInt8) (value : UInt64) : Bytes := bitsToMaskAux size.toNat value

def popcount (value : UInt64) : Nat := (List.range 64).countP fun i => value.toNat.testBit i

def maskValue (value : UInt64) : UInt8 := UInt8.ofNat (popcount value)

end CreditsNode
