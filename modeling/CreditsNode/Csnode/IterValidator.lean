import CreditsNode.Csnode.TransactionsValidator
import CreditsNode.Csnode.TransactionsPacket

/-!
# The characteristic of a round

`cs::IterValidator` decides which transactions of a round go into the block. The mask of reject
reasons is written by several passes: the signatures, the validation in order, the restoring of
transactions of replenished contracts, the repair of negative balances by graph, and the
transactions of rejected contracts.

The list of rejected contracts that is sent to other nodes is left out.
-/

namespace CreditsNode

open ByteCodec Effect

namespace TrxUf

def smartGenRefStart : UserFieldId := 0

end TrxUf

namespace IterValidator

open TransactionsValidator

variable (ctx : SolverContext)

/-! ## Signatures -/

/-- The number of signatures of a packet that are right. They are verified over `kHashSize` bytes of
the hash, which a packet without a hash does not have. -/
def correctSignatures (crypto : Crypto) (packet : TransactionsPacket)
    (confidants : List PublicKey) :
    List (UInt8 × Signature) → Except Fault Nat
  | [] => return 0
  | signature :: rest => do
    match confidants[signature.1.toNat]? with
    | some confidantPublicKey =>
      match packet.hash with
      | some hash =>
        let count ← correctSignatures crypto packet confidants rest
        return if crypto.verifySignature signature.2 confidantPublicKey hash.toList then count + 1
          else count
      | none => throw .undefined
    | none => correctSignatures crypto packet confidants rest

/-- The packet has the right signatures of more than half of the confidants, as they are counted. -/
def enoughSignatures (crypto : Crypto) (packet : TransactionsPacket) (confidants : List PublicKey) :
    Except Fault Bool := do
  let correctSignaturesCounter ← correctSignatures crypto packet confidants packet.signatures
  return !decide (correctSignaturesCounter < confidants.length / 2 + 1)

def invalidSource (packet : TransactionsPacket) : Except Fault (Option Address) := do
  match packet.transactions with
  | [] => return none
  | transaction :: _ =>
    let field := if SmartContracts.isNewState transaction then TrxUf.newStateRefStart
      else TrxUf.smartGenRefStart
    let smartRef ← SmartContractRef.fromUserField (transaction.userField field)
    if !smartRef.isValid then return some transaction.source
    else
      let poolWithInitTr := ctx.loadBlock smartRef.sequence
      if !poolWithInitTr.isValid then return some transaction.source
      else
        if ← enoughSignatures ctx.crypto packet poolWithInitTr.confidants then return none
        else return some transaction.source

def checkSignaturesSmartSource : List TransactionsPacket → Except Fault (List Address)
  | [] => return []
  | packet :: packets => do
    let source ← invalidSource ctx packet
    return source.toList ++ (← checkSignaturesSmartSource packets)

def verifySignature (trx : Transaction) (publicKey : PublicKey) : Bool :=
  ctx.crypto.verifySignature trx.signature publicKey trx.toByteStreamForSig

def checkTransactionSignature (invalidSignatures : List Address) (trx : Transaction) : Bool :=
  let smartSourceTransaction :=
    !SmartContracts.isSmartContract trx && ctx.isKnownSmartContract trx.source
  if !SmartContracts.isNewState trx && !smartSourceTransaction then
    verifySignature ctx trx (ctx.toPublicKey trx.source)
  else if SmartContracts.isNewState trx && trx.source ≠ trx.target then false
  else if trx.source ∈ invalidSignatures then false
  else true

def checkEachSignature (invalidSignatures : List Address) :
    List Transaction → Nat → ValidatorM Unit
  | [], _ => return ()
  | trx :: trxs, i => do
    if i < (← get).maskIncluded.length && !checkTransactionSignature ctx invalidSignatures trx then
      setMask i .wrongSignature
      if SmartContracts.isNewState trx then
        saveNewState (ctx.absoluteAddress trx.source) i .wrongSignature
        checkEachSignature invalidSignatures trxs (i + 1)
      else checkEachSignature invalidSignatures trxs (i + 1)
    else checkEachSignature invalidSignatures trxs (i + 1)

def checkTransactionsSignatures (trxs : List Transaction)
    (smartsPackets : List TransactionsPacket) :
    ValidatorM Unit := do
  let invalidSignatures ← lift (checkSignaturesSmartSource ctx smartsPackets)
  checkEachSignature ctx invalidSignatures trxs 0

/-! ## Validation -/

def isDeploy (trx : Transaction) : Bool := SmartContracts.isExecutable trx && ctx.isDeployCode trx

def deployAdditionalCheck (trx : Transaction) : Reason :=
  match ctx.deployAddress trx with
  | some contractAddr =>
    if contractAddr ≠ trx.target then .malformedContractAddress else .none
  | none => .none

/-- The body of the loop of `validateTransactions`. -/
def validateAt (trxs : List Transaction) (i : Nat) : ValidatorM Unit := do
  match (← get).maskIncluded[i]? with
  | none => throw .undefined
  | some reason =>
    if reason ≠ .none then return ()
    else
      let transaction ← lift (transactionAt trxs i)
      let r ← validateTransaction ctx trxs i
      let r := if r = .none && isDeploy ctx transaction then deployAdditionalCheck ctx transaction
        else r
      if r ≠ .none then setMask i r else return ()

/-- `count` iterations of the loop, from index `i` on. -/
def validateEach (trxs : List Transaction) : Nat → Nat → ValidatorM Unit
  | 0, _ => return ()
  | count + 1, i => do
    validateAt ctx trxs i
    validateEach trxs count (i + 1)

/-- `validateTransactions`, with at most `fuel` iterations of the validation by graph. The result of
the source, whether one more iteration is needed, is always false. -/
def validateTransactions (fuel : Nat) (trxs : List Transaction) : ValidatorM Unit := do
  validateEach ctx trxs trxs.length 0
  let _ ← checkRejectedSmarts ctx trxs
  validateByGraph ctx trxs fuel

def rejectSmarts : List Transaction → Nat → ValidatorM Unit
  | [], _ => return ()
  | trx :: trxs, i => do
    let s ← get
    let absAddr := ctx.absoluteAddress trx.source
    if s.maskIncluded[i]? = some .none ∧ s.isRejectedSmart absAddr then
      setMask i (s.getRejectReason absAddr)
      rejectSmarts trxs (i + 1)
    else rejectSmarts trxs (i + 1)

def setTransactionsFees (trxs : List Transaction) : List Transaction :=
  trxs.map fun t => t.setCountedFee (ctx.getFee t)

def startIteration (count : Nat) (s : TransactionsValidator) : TransactionsValidator :=
  { s with wallets := ∅ }.reset count

/-- A mask that rejects nothing. -/
def emptyMask (count : Nat) (s : TransactionsValidator) : TransactionsValidator :=
  { s with maskIncluded := List.replicate count .none }

def formCharacteristic (fuel : Nat) (trxs : List Transaction)
    (smartsPackets : List TransactionsPacket) : ValidatorM (List Reason) := do
  modify (emptyMask trxs.length)
  checkTransactionsSignatures ctx trxs smartsPackets
  let trxs := setTransactionsFees ctx trxs
  modify (startIteration trxs.length)
  validateTransactions ctx fuel trxs
  rejectSmarts ctx trxs 0
  modify clearCaches
  return (← get).maskIncluded

end IterValidator

end CreditsNode
