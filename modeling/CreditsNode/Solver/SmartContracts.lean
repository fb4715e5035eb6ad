import CreditsNode.Csdb.Pool

/-!
# Contract transactions

How a transaction is recognised as part of a contract execution, by its user fields
(`cs::SmartContracts`, static functions): an executable transaction deploys or starts a contract,
and a new-state transaction carries the result and refers to the start.
-/

namespace CreditsNode

open ByteCodec Effect

/-! ## User fields of contract transactions -/

namespace TrxUf

/-- `deploy::Code`, the same as `start::Methods`. -/
def deployCode : UserFieldId := 0

def newStateValue : UserFieldId := -2

def newStateRefStart : UserFieldId := 1

def newStateFee : UserFieldId := 2

def newStateRetVal : UserFieldId := 3

def newStateHash : UserFieldId := 4

end TrxUf

namespace UserField

def isString : Option UserField → Bool
  | some (string _) => true
  | _ => false

/-- `value<std::string>()`: empty unless the field has this type. -/
def stringValue : Option UserField → Bytes
  | some (string value) => value
  | _ => []

/-- `value<csdb::Amount>()`: zero unless the field has this type. -/
def amountValue : Option UserField → Amount
  | some (amount value) => value
  | _ => 0

end UserField

/-! ## References to transactions -/

/-- `cs::SmartContractRef`. -/
structure SmartContractRef where
  sequence : Sequence
  transaction : UInt64
deriving DecidableEq, Repr

namespace SmartContractRef

/-- The value after `invalidate()`. -/
def invalid : SmartContractRef := ⟨kWrongSequence, 0xFFFFFFFFFFFFFFFF⟩

def isValid (ref : SmartContractRef) : Bool :=
  ref.sequence ≠ kWrongSequence && ref.transaction ≠ 0xFFFFFFFFFFFFFFFF

/-- The fields as the stream has them; a hash stands before them for compatibility. -/
def get : Get SmartContractRef := do
  let size ← getU64
  let _ ← getBytes size.toNat
  let sequence ← getU64
  let transaction ← getU64
  return ⟨sequence, transaction⟩

/-- `from_user_field`. The stream tests `index + size <= dataSize` in 64 bits: a size that wraps
passes the test, and the range of the hash then ends outside the field. -/
def fromUserField (fld : Option UserField) : Except Fault SmartContractRef :=
  let data := UserField.stringValue fld
  if 8 ≤ data.length ∧ 2 ^ 64 ≤ 8 + leNat (data.take 8) then .error .undefined
  else
    match get.run data with
    | some (ref, []) => .ok ref
    | _ => .ok invalid

end SmartContractRef

/-! ## Kinds of transactions -/

namespace SmartContracts

/-- `is_executable`: deploys or starts a contract. -/
def isExecutable (tr : Transaction) : Bool :=
  tr.isValid && UserField.isString (tr.userField TrxUf.deployCode)

def isNewState (tr : Transaction) : Bool :=
  tr.isValid && UserField.isString (tr.userField TrxUf.newStateRefStart) &&
    (UserField.isString (tr.userField TrxUf.newStateValue) ||
      UserField.isString (tr.userField TrxUf.newStateHash))

def isSmartContract (tr : Transaction) : Bool := isExecutable tr || isNewState tr

def isStateUpdated (tr : Transaction) : Bool :=
  isNewState tr &&
    match tr.userField TrxUf.newStateValue with
    | some fld => UserField.stringValue (some fld) ≠ []
    | none =>
      let tmp := UserField.stringValue (tr.userField TrxUf.newStateHash)
      tmp.length = 32 && tmp ≠ List.replicate 32 0

def getTransaction (loadBlock : Sequence → Pool) (contract : SmartContractRef) : Transaction :=
  let block := loadBlock contract.sequence
  if !block.isValid then .new
  else (block.transactions[contract.transaction.toNat]?).getD .new

end SmartContracts

end CreditsNode
