import CreditsNode.Csdb.Transaction

/-!
# Pools (blocks)

`csdb::Pool` with its binary encoding. A pool is filled through its setters, then composed: the
encoding is stored, the hash of its first part is taken, and most setters refuse to change it from
then on. The number of confidants is not encoded but `numberTrusted`, and those of signatures and
confirmations are the numbers of bits in the two masks.

The pointer to the storage and the redundant transaction counter are left out.
-/

namespace CreditsNode

open ByteCodec

abbrev PoolHash := Option Hash

namespace PoolHash

def put : PoolHash → Bytes
  | none => putU8 0
  | some value => putU8 32 ++ value.toList

def get : Get PoolHash := do
  let size ← getU8
  if size = 0 then return none
  else if size ≠ 32 then failure
  else return some (← getArray 32)

end PoolHash

/-! ## The parts of a pool -/

/-- `NewWalletInfo::AddressType`. -/
inductive AddressType where
  | addressIsSource
  | addressIsTarget
deriving DecidableEq, Repr

def AddressType.toBit : AddressType → Nat
  | addressIsSource => 0
  | addressIsTarget => 1

/-- `Pool::NewWalletInfo`, with the two bit fields of its `AddressId`. -/
structure NewWalletInfo where
  trxInd : BitVec 63
  addressType : AddressType
  walletId : WalletId
deriving DecidableEq, Repr

namespace NewWalletInfo

/-- The bit fields as one `size_t`. -/
def addressId (w : NewWalletInfo) : UInt64 :=
  UInt64.ofNat (w.trxInd.toNat + w.addressType.toBit * 2 ^ 63)

def put (w : NewWalletInfo) : Bytes := putU64 w.addressId ++ putU32 w.walletId

def get : Get NewWalletInfo := do
  let id ← getU64
  let walletId ← getU32
  return {
    trxInd := BitVec.ofNat 63 id.toNat
    addressType := if id.toNat / 2 ^ 63 = 0 then .addressIsSource else .addressIsTarget
    walletId }

end NewWalletInfo

/-- `Pool::SmartSignature`. -/
structure SmartSignature where
  smartKey : PublicKey
  smartConsensusPool : Sequence
  signatures : List (UInt8 × Signature)
deriving DecidableEq

namespace SmartSignature

def put (s : SmartSignature) : Bytes :=
  s.smartKey.toList ++ (putU64 s.smartConsensusPool ++ (putU8 (UInt8.ofNat s.signatures.length) ++
    s.signatures.flatMap fun e => putU8 e.1 ++ e.2.toList))

def getEntry : Get (UInt8 × Signature) := do
  let b ← getU8
  let sig ← getArray 64
  return (b, sig)

def get : Get SmartSignature := do
  let smartKey ← getArray 32
  let smartConsensusPool ← getU64
  let confCount ← getU8
  let signatures ← getMany getEntry confCount.toNat
  return { smartKey, smartConsensusPool, signatures }

end SmartSignature

/-! ## Pools -/

/-- `csdb::Pool`, with the members of `priv`. -/
structure Pool where
  isValid : Bool
  readOnly : Bool
  version : UInt8
  /-- The member `hash_`; the method `hash()` fills it in when it is empty. -/
  cachedHash : PoolHash
  previousHash : PoolHash
  sequence : Sequence
  confidants : List PublicKey
  transactions : List Transaction
  newWallets : List NewWalletInfo
  userFields : UserFields
  numberTrusted : UInt8
  realTrusted : UInt64
  numberConfirmations : UInt8
  roundConfirmationMask : UInt64
  hashingLength : UInt64
  roundCost : Amount
  signatures : List Signature
  roundConfirmations : List Signature
  smartSignatures : List SmartSignature
  binaryRepresentation : Bytes
deriving DecidableEq

namespace Pool

def new : Pool where
  isValid := false
  readOnly := false
  version := 0
  cachedHash := none
  previousHash := none
  sequence := 0
  confidants := []
  transactions := []
  newWallets := []
  userFields := .empty
  numberTrusted := 0
  realTrusted := 0
  numberConfirmations := 0
  roundConfirmationMask := 0
  hashingLength := 0
  roundCost := 0
  signatures := []
  roundConfirmations := []
  smartSignatures := []
  binaryRepresentation := []

/-! ### Setters -/

variable (p : Pool)

def assign (f : Pool → Pool) : Pool :=
  if p.readOnly then p else { f p with isValid := true }

def setVersion (version : UInt8) : Pool := p.assign ({ · with version })

def setSequence (sequence : Sequence) : Pool := p.assign ({ · with sequence })

def setRoundCost (roundCost : Amount) : Pool := p.assign ({ · with roundCost })

def setPreviousHash (previousHash : PoolHash) : Pool :=
  p.assign ({ · with previousHash })

def setConfidants (confidants : List PublicKey) : Pool := p.assign ({ · with confidants })

def setSignatures (signatures : List Signature) : Pool := p.assign ({ · with signatures })

def addUserField (id : UserFieldId) (field : UserField) : Pool :=
  p.assign fun p =>
    { p with userFields := (p.userFields.emplace id field).modify id fun _ => field }

def addTransaction (transaction : Transaction) : Pool :=
  if p.readOnly then p
  else if !transaction.isValid then p
  else { p with transactions := p.transactions ++ [transaction] }

/-- These do not ask whether the pool is read-only. -/
def addSmartSignature (smartSignature : SmartSignature) : Pool :=
  { p with isValid := true, smartSignatures := p.smartSignatures ++ [smartSignature] }

def addRoundConfirmations (roundConfirmations : List Signature) : Pool :=
  { p with isValid := true, roundConfirmations }

def addRealTrusted (realTrusted : UInt64) : Pool :=
  { p with isValid := true, realTrusted }

def addConfirmationMask (roundConfirmationMask : UInt64) : Pool :=
  { p with isValid := true, roundConfirmationMask }

def addNumberTrusted (numberTrusted : UInt8) : Pool :=
  { p with isValid := true, numberTrusted }

def addNumberConfirmations (numberConfirmations : UInt8) : Pool :=
  { p with isValid := true, numberConfirmations }

/-! ### Encoding -/

/-- The first part of `Pool::priv::put`, which `get_meta` reads. -/
def putMeta : Bytes :=
  putU8 p.version ++ (p.previousHash.put ++ (putU64 p.sequence ++ (putUserFields p.userFields ++
    (p.roundCost.put ++ putU32 (UInt32.ofNat p.transactions.length)))))

def putHashed : Bytes :=
  p.putMeta ++ (p.transactions.flatMap Transaction.put ++
    (putU32 (UInt32.ofNat p.newWallets.length) ++ (p.newWallets.flatMap NewWalletInfo.put ++
      (putU8 p.numberTrusted ++ (putU64 p.realTrusted ++
        (p.confidants.flatMap List.Vector.toList ++ (putU8 p.numberConfirmations ++
          (putU64 p.roundConfirmationMask ++
            p.roundConfirmations.flatMap List.Vector.toList))))))))

def putSignatures : Bytes :=
  p.signatures.flatMap List.Vector.toList ++ (putU8 (UInt8.ofNat p.smartSignatures.length) ++
    p.smartSignatures.flatMap SmartSignature.put)

def put : Bytes :=
  p.putHashed ++ (putU64 (UInt64.ofNat p.putHashed.length) ++ p.putSignatures)

def toByteStreamForSig : Bytes := p.putHashed

/-! ### Decoding -/

/-- `get_meta`, with the number of transactions that follow. -/
def getMeta : Get (Pool × Nat) := do
  let version ← getU8
  let previousHash ← PoolHash.get
  let sequence ← getU64
  let userFields ← getUserFields
  let roundCost ← Amount.get
  let cnt ← getU32
  return ({ new with version, previousHash, sequence, userFields, roundCost, isValid := true },
    cnt.toNat)

def getNewWallets : Get (List NewWalletInfo) := do
  let cnt ← getU32
  getMany NewWalletInfo.get cnt.toNat

def getSignatures (mask : UInt64) : Get (List Signature) :=
  getMany (getArray 64) (maskValue mask).toNat

def getSmartSignatures : Get (List SmartSignature) := do
  let cnt ← getU8
  getMany SmartSignature.get cnt.toNat

def getHashedData : Get Pool := do
  let (p, cnt) ← getMeta
  let transactions ← getMany Transaction.get cnt
  let newWallets ← getNewWallets
  let numberTrusted ← getU8
  let realTrusted ← getU64
  let confidants ← getMany (getArray 32) numberTrusted.toNat
  let numberConfirmations ← getU8
  let roundConfirmationMask ← getU64
  let roundConfirmations ← getSignatures roundConfirmationMask
  let hashingLength ← getU64
  return { p with
    transactions, newWallets, numberTrusted, realTrusted, confidants, numberConfirmations,
    roundConfirmationMask, roundConfirmations, hashingLength }

/-- `Pool::priv::get`. Bytes that are left over are reported in the log only. -/
def get : Get Pool := do
  let p ← getHashedData
  let signatures ← getSignatures p.realTrusted
  let smartSignatures ← getSmartSignatures
  return { p with signatures, smartSignatures, isValid := true }

/-! ### Hash and composition -/

section Crypto

variable (crypto : Crypto)

/-- `updateHash`. A hashing length beyond the end of the buffer is an out-of-bounds read in the
source; the model stops at the end. -/
def updateHash (p : Pool) : Pool :=
  { p with
    cachedHash := some (crypto.calculateHash (p.binaryRepresentation.take p.hashingLength.toNat)) }

/-- The method `hash()`: the value it returns. -/
def hash (p : Pool) : PoolHash :=
  match p.cachedHash with
  | none => (p.updateHash crypto).cachedHash
  | some h => some h

def updateTransactions (p : Pool) : Pool :=
  let p := { p with readOnly := true }.updateHash crypto
  { p with
    transactions := p.transactions.mapIdx fun idx t => t.updateId p.sequence (UInt64.ofNat idx) }

def updateBinaryRepresentation (p : Pool) : Pool :=
  { p with hashingLength := UInt64.ofNat p.putHashed.length, binaryRepresentation := p.put }

def compose (p : Pool) : Pool :=
  if p.readOnly then p
  else if !p.isValid then { p with binaryRepresentation := [], cachedHash := none }
  else p.updateBinaryRepresentation.updateTransactions crypto

def toBinary (p : Pool) : Bytes := p.binaryRepresentation

def hashFromBinary (data : Bytes) : PoolHash :=
  match getHashedData data with
  | none => none
  | some (p, _) => ({ p with binaryRepresentation := data }.updateHash crypto).cachedHash

def fromBinary (data : Bytes) : Pool :=
  match get data with
  | none => new
  | some (p, _) => { p with binaryRepresentation := data }.updateTransactions crypto

end Crypto

def metaFromBinary (data : Bytes) : Pool :=
  match getMeta data with
  | none => new
  | some ((p, _), _) => { p with binaryRepresentation := data }

end Pool

end CreditsNode
