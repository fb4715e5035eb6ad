import CreditsNode.Csdb.Transaction

/-!
# Sample data

Keys, hashes, signatures and transfers for runs on fixed inputs, each named by one byte.
-/

namespace CreditsNode

/-- The key of the sample wallet `n`. -/
def sampleKey (n : UInt8) : PublicKey := List.Vector.replicate 32 n

/-- The address of the sample wallet `n`. -/
def sampleAddress (n : UInt8) : Address := .publicKey (sampleKey n)

/-- A hash that differs from those of other bytes. -/
def sampleHash (n : UInt8) : Hash := List.Vector.replicate 32 n

/-- A signature that differs from those of other bytes. -/
def sampleSignature (n : UInt8) : Signature := List.Vector.replicate 64 n

/-- A transfer between two sample wallets, with no fee. -/
def sampleTransfer (source target : UInt8) (amount : Amount) : Transaction :=
  { Transaction.new with source := sampleAddress source, target := sampleAddress target, amount }

end CreditsNode
