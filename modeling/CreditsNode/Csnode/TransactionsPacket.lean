import CreditsNode.Csdb.Transaction

/-!
# Packets of transactions

`cs::TransactionsPacket`: the transactions that a node sends in one message, with the signatures of
the confidants who executed a contract. `addSignature` refuses a second signature under an index,
but a packet from the network has whatever signatures the bytes say. The hash of a packet is made
from its transactions alone; the states and the signatures are read if bytes are left for a count.

That `reserve` may throw for a count that is too large is not modelled.
-/

namespace CreditsNode

open ByteCodec Effect

/-- What is read of `cs::TransactionsPacket`. -/
structure TransactionsPacket where
  transactions : List Transaction
  /-- The transactions that set the states of the executed contracts. -/
  stateTransactions : List Transaction := []
  /-- Pairs of the index of a confidant and its signature. -/
  signatures : List (UInt8 × Signature)
  /-- The hash, once it has been made. -/
  hash : Option Hash

namespace TransactionsPacket

def new : TransactionsPacket where
  transactions := []
  signatures := []
  hash := none

variable (packet : TransactionsPacket)

def isSmart : Bool := packet.signatures.length > 1

def addTransaction (transaction : Transaction) : TransactionsPacket × Bool :=
  if !transaction.isValid || packet.hash.isSome then (packet, false)
  else ({ packet with transactions := packet.transactions ++ [transaction] }, true)

def addStateTransaction (transaction : Transaction) : TransactionsPacket × Bool :=
  if !transaction.isValid || packet.hash.isSome then (packet, false)
  else ({ packet with stateTransactions := packet.stateTransactions ++ [transaction] }, true)

def addSignature (index : UInt8) (signature : Signature) : TransactionsPacket × Bool :=
  if packet.signatures.any fun element => index = element.1 then (packet, false)
  else ({ packet with signatures := packet.signatures ++ [(index, signature)] }, true)

/-- The loop of `verify`: the number of signatures that are right and the indices of those that are
not, unless an index is out of range. -/
def countSignatures (crypto : Crypto) (hash : Hash) (publicKeys : List PublicKey) :
    List (UInt8 × Signature) → Nat → String → Except String (Nat × String)
  | [], count, badSignatures => .ok (count, badSignatures)
  | it :: rest, count, badSignatures =>
    match publicKeys[it.1.toNat]? with
    | some publicKey =>
      if crypto.verifySignature it.2 publicKey hash.toList then
        countSignatures crypto hash publicKeys rest (count + 1) badSignatures
      else
        countSignatures crypto hash publicKeys rest count
          (badSignatures ++ toString it.1.toNat ++ ", ")
    | none => .error "Signature index is out of range in supplied PublicKey container"

/-- `verify` for several keys. The result is empty if the packet is accepted. -/
def verify (crypto : Crypto) (packet : TransactionsPacket) (publicKeys : List PublicKey) : String :=
  match packet.hash with
  | none => "No hash of packet"
  | some hash =>
    if packet.signatures.length < 3 then
      "Number of signatures is " ++ toString packet.signatures.length ++ ", < 3"
    else
      match countSignatures crypto hash publicKeys packet.signatures 0 "" with
      | .error message => message
      | .ok (count, badSignatures) =>
        if count ≤ publicKeys.length / 2 then
          "Not enough valid signatures: " ++ toString packet.signatures.length ++ badSignatures
        else ""

/-! ## The binary form -/

/-- `TransactionsPacket::Serialization`, a set of flags. -/
abbrev Serialization := UInt8

namespace Serialization

def transactions : Serialization := 0x01
def states : Serialization := 0x02
def signatures : Serialization := 0x04
def signaturesAndStates : Serialization := signatures ||| states
def all : Serialization := signaturesAndStates ||| transactions

end Serialization

/-- A vector, with its size as a `size_t`. -/
def putVector {α : Type} (put : α → Bytes) (elements : List α) : Bytes :=
  putU64 (UInt64.ofNat elements.length) ++ elements.flatMap put

def putSignature (it : UInt8 × Signature) : Bytes := putU8 it.1 ++ it.2.toList

def put (packet : TransactionsPacket) (options : Serialization) : Bytes :=
  (if options &&& .transactions ≠ 0 then putVector Transaction.put packet.transactions else []) ++
  ((if options &&& .states ≠ 0 then putVector Transaction.put packet.stateTransactions else []) ++
  (if options &&& .signatures ≠ 0 then putVector putSignature packet.signatures else []))

def toBinary (options : Serialization) : Bytes := packet.put options

/-- `makeHash()`: a hash that has been made is kept. -/
def makeHash (crypto : Crypto) (packet : TransactionsPacket) : TransactionsPacket × Bool :=
  match packet.hash with
  | none =>
    ({ packet with hash := some (crypto.calculateHash (packet.toBinary .transactions)) }, true)
  | some _ => (packet, false)

def sign (privateKey : Option (Bytes → Signature)) (packet : TransactionsPacket) :
    TransactionsPacket × Bool :=
  match privateKey, packet.hash with
  | some generateSignature, some hash =>
    if packet.signatures.length > 0 then (packet, false)
    else ({ packet with signatures := [(0, generateSignature hash.toList)] }, true)
  | _, _ => (packet, false)

def getSignature : Get (UInt8 × Signature) := do
  let index ← getU8
  let signature ← getArray 64
  return (index, signature)

/-- A vector that may be missing at the end. -/
def getSection {α : Type} (get : Get α) : Get (List α) := do
  match ← getOptional getU64 with
  | some count => getMany get count.toNat
  | none => return []

def get : Get TransactionsPacket := do
  let transactionsCount ← getU64
  let transactions ← getMany Transaction.get transactionsCount.toNat
  let stateTransactions ← getSection Transaction.get
  let signatures ← getSection getSignature
  return { transactions, stateTransactions, signatures, hash := none }

def fromBinary (crypto : Crypto) (data : Bytes) : TransactionsPacket :=
  match get data with
  | some (res, _) => (res.makeHash crypto).1
  | none => new

end TransactionsPacket

end CreditsNode
