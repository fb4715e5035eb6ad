import CreditsNode.Lib.OrdMap
import CreditsNode.System.Common
import CreditsNode.Csdb.Amount

/-!
# Transactions and their encodings

`csdb::Transaction` with its storage encoding (`put`, `get`) and the encoding that is signed
(`toByteStreamForSig`), which leaves out the user fields with negative ids and writes the others
without ids and type tags.

The time stamp, which nothing modelled here reads, is left out.
-/

namespace CreditsNode

open ByteCodec

/-! ## Addresses -/

/-- `csdb::Address`: a public key, or the number a wallet was given in the chain. -/
inductive Address where
  | publicKey (key : PublicKey)
  | walletId (id : WalletId)
deriving DecidableEq

namespace Address

def new : Address := .publicKey (zeroArray 32)

def isWalletId : Address → Bool
  | publicKey _ => false
  | walletId _ => true

def isPublicKey (a : Address) : Bool := !a.isWalletId

/-- `public_key()`: the bytes of the union, which hold the number when there is no key. -/
def toPublicKey : Address → PublicKey
  | publicKey key => key
  | walletId id => ⟨putU32 id ++ List.replicate 28 0, by simp [putU32]⟩

def toWalletId : Address → WalletId
  | publicKey _ => 0xFFFFFFFF
  | walletId id => id

/-- `operator==`. -/
def eq (a b : Address) : Bool :=
  if a.isPublicKey ≠ b.isPublicKey then false
  else if a.isPublicKey then a.toPublicKey = b.toPublicKey
  else a.toWalletId = b.toWalletId

/-- `operator<`. Two numbers are compared as numbers, all else by the bytes of the union. -/
def lt (a b : Address) : Bool :=
  if a.isWalletId && b.isWalletId then a.toWalletId < b.toWalletId
  else if !a.isWalletId && !b.isWalletId then a.toPublicKey.toList < b.toPublicKey.toList
  else if a.isWalletId && !b.isWalletId then a.toPublicKey.toList < b.toPublicKey.toList
  else if !a.isWalletId && b.isWalletId then a.toPublicKey.toList < b.toPublicKey.toList
  else false

end Address

/-! ## User fields -/

abbrev UserFieldId := Int32

/-- `csdb::UserField`. The type `Unknown` of the source is never stored; where a field is looked up
and is missing, the model has `none`. -/
inductive UserField where
  | integer (value : UInt64)
  | string (value : Bytes)
  | amount (value : Amount)
deriving DecidableEq

/-- `obstream::put(const std::string&)`: the length as `uint32_t`, then the characters. -/
def putString (value : Bytes) : Bytes := putU32 (UInt32.ofNat value.length) ++ value

/-- `ibstream::get(std::string&)`. -/
def getString : Get Bytes := do
  let size ← getU32
  getBytes size.toNat

namespace UserField

def type : UserField → UInt8
  | integer _ => 1
  | string _ => 2
  | amount _ => 3

def putForSig : UserField → Bytes
  | integer value => putU64 value
  | string value => putString value
  | amount value => value.put

def put (f : UserField) : Bytes := putU8 f.type ++ f.putForSig

def getValue (type : UInt8) : Get UserField :=
  if type = 1 then integer <$> getU64
  else if type = 2 then string <$> getString
  else if type = 3 then amount <$> Amount.get
  else failure

def get : Get UserField := do
  let type ← getU8
  getValue type

end UserField

abbrev UserFields := OrdMap UserFieldId UserField

/-- `obstream::put(const std::map&)`. -/
def putUserFields (fields : UserFields) : Bytes :=
  putU8 (UInt8.ofNat fields.size) ++ fields.entries.flatMap fun e => putI32 e.1 ++ e.2.put

def getUserField : Get (UserFieldId × UserField) := do
  let key ← getI32
  let value ← UserField.get
  return (key, value)

/-- `ibstream::get(std::map&)`. -/
def getUserFields : Get UserFields := do
  let size ← getU8
  let fields ← getMany getUserField size.toNat
  return OrdMap.ofEntries fields

/-- `obstream::put_smart`: the number of fields and their values. -/
def putSmart (fields : List (UserFieldId × UserField)) : Bytes :=
  putU8 (UInt8.ofNat fields.length) ++ fields.flatMap fun e => e.2.putForSig

/-! ## Transactions -/

/-- A transaction by its block and its place in it. -/
structure TransactionID where
  poolSeq : Sequence
  index : Sequence
deriving DecidableEq, Repr

def TransactionID.new : TransactionID := ⟨kWrongSequence, 0⟩

/-- `csdb::Transaction`, with the members of `priv`. -/
structure Transaction where
  readOnly : Bool
  id : TransactionID
  innerID : Int64
  source : Address
  target : Address
  currency : UInt8
  amount : Amount
  maxFee : AmountCommission
  countedFee : AmountCommission
  signature : Signature
  userFields : UserFields
deriving DecidableEq

namespace Transaction

def new : Transaction where
  readOnly := false
  id := .new
  innerID := 0
  source := .new
  target := .new
  currency := 0
  amount := 0
  maxFee := ⟨0⟩
  countedFee := ⟨0⟩
  signature := zeroArray 64
  userFields := .empty

variable (t : Transaction)

/-- `is_valid()`: addresses and currencies are always valid. -/
def isValid : Bool := t.amount.ge 0

def userField (id : UserFieldId) : Option UserField := t.userFields.find id

def addUserField (id : UserFieldId) (field : Option UserField) : Transaction :=
  match field with
  | none => t
  | some value =>
    if t.readOnly then t
    else { t with userFields := (t.userFields.emplace id value).modify id fun _ => value }

def setCountedFee (fee : AmountCommission) : Transaction :=
  if !t.readOnly then { t with countedFee := fee } else t

def updateId (poolSeq index : Sequence) : Transaction :=
  { t with id := ⟨poolSeq, index⟩, readOnly := true }

/-- The bits that tell wallet ids from keys, as they are set in the last byte of the inner id. -/
def walletFlags : UInt8 :=
  (t.source.isWalletId.toUInt8 <<< 7) ||| (t.target.isWalletId.toUInt8 <<< 6)

/-- The six low bytes of the inner id, the last one overlaid with the flags. -/
def putInnerID : Bytes :=
  (leBytes 6 t.innerID.toUInt64.toNat).modify 5 (· ||| t.walletFlags)

def putAddress : Address → Bytes
  | .walletId id => putU32 id
  | .publicKey key => key.toList

/-- What the storage encoding and the signed encoding have in common. -/
def putHeader : Bytes :=
  t.putInnerID ++ (putAddress t.source ++ (putAddress t.target ++ (t.amount.put ++
    (t.maxFee.put ++ putU8 t.currency))))

def put (t : Transaction) : Bytes :=
  t.putHeader ++ (putUserFields t.userFields ++ (t.signature.toList ++ t.countedFee.put))

/-- The user fields that are signed: those with non-negative ids. -/
def customUserFields : List (UserFieldId × UserField) := t.userFields.lowerBound 0

def toByteStreamForSig : Bytes :=
  if t.customUserFields.length ≠ 0 then
    t.putHeader ++ putSmart t.customUserFields
  else
    t.putHeader ++ putU8 0

/-- An address whose kind is known from the flags. -/
def getAddress (isWalletId : Bool) : Get Address :=
  if isWalletId then Address.walletId <$> getU32 else Address.publicKey <$> getArray 32

/-- The first part of `get`, up to the currency. -/
def getHeader : Get Transaction := do
  let lo ← getU16
  let hi ← getU32
  let innerID := ((hi.toUInt64 &&& 0x3fffffff) <<< 16) ||| lo.toUInt64
  let source ← getAddress (hi &&& 0x80000000 ≠ 0)
  let target ← getAddress (hi &&& 0x40000000 ≠ 0)
  let amount ← Amount.get
  let maxFee ← AmountCommission.get
  let currency ← getU8
  return { new with innerID := innerID.toInt64, source, target, amount, maxFee, currency }

def get : Get Transaction := do
  let data ← getHeader
  let userFields ← getUserFields
  let signature ← getArray 64
  let countedFee ← AmountCommission.get
  return { data with userFields, signature, countedFee }

end Transaction

end CreditsNode
