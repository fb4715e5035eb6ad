import CreditsNode.System.Common

/-!
# Group signatures

`NodeUtils::checkGroupSignature`: the signatures of a block stand in the order of the confidants
that the mask marks.
-/

namespace CreditsNode.NodeUtils

open ByteCodec

/-- `realTrustedValue`: the number of marked entries. -/
def realTrustedValue (mask : Bytes) : Nat := mask.countP fun it => it ≠ kUntrustedMarker

/-- The loop of `checkGroupSignature`: each marked confidant has signed the hash with the next
signature. -/
def verifyMarked (crypto : Crypto) (hash : Hash) : List PublicKey → Bytes → List Signature → Bool
  | confidant :: confidants, it :: mask, signatures =>
    if it ≠ kUntrustedMarker then
      match signatures with
      | signature :: signatures =>
        crypto.verifySignature signature confidant hash.toList &&
          verifyMarked crypto hash confidants mask signatures
      | [] => false
    else verifyMarked crypto hash confidants mask signatures
  | _, _, _ => true

def checkGroupSignature (crypto : Crypto) (confidants : List PublicKey) (mask : Bytes)
    (signatures : List Signature) (hash : Hash) : Bool :=
  confidants.length ≠ 0 && confidants.length = mask.length &&
    signatures.length = realTrustedValue mask && verifyMarked crypto hash confidants mask signatures

end CreditsNode.NodeUtils
