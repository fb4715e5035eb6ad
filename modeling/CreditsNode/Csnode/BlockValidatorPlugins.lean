import CreditsNode.Csnode.NodeUtils
import CreditsNode.Csnode.TransactionsPacket
import CreditsNode.Solver.SmartContracts

/-!
# Checks of received blocks

Two of the plugins of `BlockValidator`: the signatures of the confidants under a block, and the
signatures of the confidants of a contract under the packets of its new states.
-/

namespace CreditsNode

open ByteCodec

/-- `ValidationPlugin::ErrorType`, those that the modelled plugins return. -/
inductive ErrorType where
  | noError
  | error
deriving DecidableEq, Repr

/-! ## The signatures of a block -/

namespace BlockSignaturesValidator

def signedData (crypto : Crypto) (block : Pool) : Hash :=
  crypto.calculateHash (block.toBinary.take block.hashingLength.toNat)

/-- The loop of `validateBlock`: the confidant of each set bit has signed with the next
signature. -/
def verifySigned (crypto : Crypto) (hash : Hash) (realTrustedMask : UInt64) :
    Nat → List PublicKey → List Signature → Bool
  | _, [], _ => true
  | i, confidant :: confidants, signatures =>
    if realTrustedMask.toNat.testBit i then
      match signatures with
      | signature :: signatures =>
        crypto.verifySignature signature confidant hash.toList &&
          verifySigned crypto hash realTrustedMask (i + 1) confidants signatures
      | [] => false
    else verifySigned crypto hash realTrustedMask (i + 1) confidants signatures

def validateBlock (crypto : Crypto) (block : Pool) : ErrorType :=
  if block.signatures.length ≠ popcount block.realTrusted then .error
  else if block.confidants.length > 64 then .error
  else if !verifySigned crypto (signedData crypto block) block.realTrusted 0 block.confidants
      block.signatures then .error
  else .noError

end BlockSignaturesValidator

/-! ## The signatures of contracts -/

namespace SmartSourceSignaturesValidator

/-- What the validator asks of the chain. -/
structure Env where
  crypto : Crypto
  loadBlock : Sequence → Pool
  /-- `SmartContracts::get_transaction`: the transaction that a new state refers to. -/
  getTransaction : Transaction → Transaction

variable (env : Env)

def kBlockVerToSwitchCountedFees : UInt8 := 0

def switchCountedFee (t : Transaction) : Transaction :=
  let initTrx := env.getTransaction t
  if !initTrx.isValid then t
  else { t with readOnly := false, id := .new, countedFee := initTrx.countedFee }

def newStatePack (switchFees : Bool) (t : Transaction) (behind : List Transaction) :
    TransactionsPacket :=
  let fee := fun trx => if switchFees then switchCountedFee env trx else trx
  let pack : TransactionsPacket := (t :: behind.filter fun trx => trx.source = t.source).foldl
    (fun pack trx => (pack.addTransaction (fee trx)).1) .new
  (pack.makeHash env.crypto).1

def grepNewStatesPacks (switchFees : Bool) :
    List Transaction → List (Transaction × TransactionsPacket)
  | [] => []
  | t :: trxs =>
    if SmartContracts.isNewState t then
      (t, newStatePack env switchFees t trxs) :: grepNewStatesPacks switchFees trxs
    else grepNewStatesPacks switchFees trxs

def verifySmart (confidants : List PublicKey) (pack : TransactionsPacket) (s : UInt8 × Signature) :
    Bool :=
  match confidants[s.1.toNat]? with
  | none => false
  | some confidant =>
    env.crypto.verifySignature s.2 confidant ((pack.hash.map List.Vector.toList).getD [])

def groupOf (sigs : List SmartSignature) (pack : TransactionsPacket) : Option SmartSignature :=
  sigs.find? fun s => (pack.transactions.head?.map fun t => t.source.toPublicKey) = some s.smartKey

def checkSignatures (sigs : List SmartSignature) (smartPacks : List TransactionsPacket) : Bool :=
  sigs.length = smartPacks.length && smartPacks.all fun pack =>
    match groupOf sigs pack with
    | none => false
    | some it =>
      it.signatures.all (verifySmart env (env.loadBlock it.smartConsensusPool).confidants pack)

def smartPacks (block : Pool) : List (Transaction × TransactionsPacket) :=
  grepNewStatesPacks env (block.version = kBlockVerToSwitchCountedFees) block.transactions

def validateBlock (block : Pool) : ErrorType :=
  if block.smartSignatures.length = 0 then
    if block.transactions.any SmartContracts.isNewState then .error else .noError
  else if !checkSignatures env block.smartSignatures
    ((smartPacks env block).map Prod.snd) then .error
  else .noError

end SmartSourceSignaturesValidator

end CreditsNode
