import CreditsNode.Csnode.WalletsCache

/-!
# Validation of transactions

`cs::TransactionsValidator` checks the transactions of a round one after another against copies of
the wallets (`cs::WalletsState`). `validateByGraph` then takes back outgoing transactions of
negative wallets, which can make others negative, until none is left. The accepted outgoing
transactions of a wallet are a linked list: the wallet has the index of the last one, and `trxList`
has for each the index of the one before it.

The mask is part of the state, and a reference to a wallet is the wallet's key. The loops have a
bound on the number of iterations, and a run that reaches it has no result.
-/

namespace CreditsNode

open ByteCodec Effect

/-- `Reject::Reason`. -/
inductive Reason where
  | none
  | wrongSignature
  | insufficientMaxFee
  | negativeResult
  | sourceIsTarget
  | disabledInnerID
  | duplicatedInnerID
  | malformedContractAddress
  | malformedTransaction
  | contractClosed
  | newStateOutOfFee
  | emittedOutOfFee
  | completeReject
  | limitExceeded
deriving DecidableEq, Repr

/-- What the validator uses of the rest of the node. -/
structure SolverContext where
  crypto : Crypto
  loadBlock : Sequence → Pool
  getFee : Transaction → AmountCommission
  /-- `csdb::Amount(fee.to_double())`; nothing where the conversion throws. -/
  toAmount : AmountCommission → Option Amount
  ofDouble : Amount → Option Amount
  feeLess : AmountCommission → Amount → Option Amount
  walletsIds : WalletsIds
  walletsCache : WalletsCache
  isKnownSmartContract : Address → Bool
  isClosedSmartContract : Address → Bool
  absoluteAddress : Address → Address
  /-- `SmartContracts::is_deploy` for an executable transaction: the method of its call is empty. -/
  isDeployCode : Transaction → Bool
  /-- The address that `deployAdditionalCheck` asks for, if it finds a deployed contract. -/
  deployAddress : Transaction → Option Address

namespace SolverContext

def toPublicKey (ctx : SolverContext) (address : Address) : PublicKey :=
  ctx.walletsIds.toPublicKey address

def converted (x : Option Amount) : Except Fault Amount :=
  match x with
  | some a => .ok a
  | none => .error (.exception "Amount::Amount(double) overflow)")

def amount (ctx : SolverContext) (fee : AmountCommission) : Except Fault Amount :=
  converted (ctx.toAmount fee)

def getTransaction (ctx : SolverContext) (stateTransaction : Transaction) :
    Except Fault Transaction := do
  if !SmartContracts.isNewState stateTransaction then return .new
  else
    let ref ← SmartContractRef.fromUserField (stateTransaction.userField TrxUf.newStateRefStart)
    return SmartContracts.getTransaction ctx.loadBlock ref

end SolverContext

/-! ## Wallets -/

namespace WalletsState

abbrev TransactionIndex := UInt32

/-- `WalletsState::noInd_`. -/
def noInd : TransactionIndex := 0xFFFFFFFF

/-- `WalletsState::WalletData`. -/
structure WalletData where
  lastTrxInd : TransactionIndex
  balance : Amount
  trxTail : TransactionsTail
deriving DecidableEq

def initial (ctx : SolverContext) (key : PublicKey) : WalletData :=
  match ctx.walletsCache.findWallet key with
  | some wallet => ⟨noInd, wallet.balance, wallet.trxTail⟩
  | none => ⟨noInd, 0, .new⟩

end WalletsState

open WalletsState (TransactionIndex noInd)

/-- `TransactionsValidator` with the storage of its `WalletsState` and the characteristic mask. -/
structure TransactionsValidator where
  wallets : AList fun _ : PublicKey => WalletsState.WalletData
  trxList : List TransactionIndex
  maskIncluded : List Reason
  payableMaxFees : AList fun _ : Address => Amount
  rejectedNewStates : AList fun _ : Address => Reason
  /-- The last one first. -/
  validNewStates : List (Nat × Bool)
  duplicatedNewStates : List Address
  /-- The top of the stack first. -/
  negativeNodes : List PublicKey
  cntRemovedTrxs : Nat

namespace TransactionsValidator

abbrev ValidatorM := EStateM Fault TransactionsValidator

/-- `TransactionsValidator()`, with an empty mask. -/
def new : TransactionsValidator := ⟨∅, [], [], ∅, ∅, [], [], [], 0⟩

variable (s : TransactionsValidator)

def reset (transactionsNum : Nat) : TransactionsValidator :=
  { s with
    trxList := List.replicate transactionsNum noInd
    negativeNodes := []
    cntRemovedTrxs := 0 }

def clearCaches : TransactionsValidator :=
  { s with
    payableMaxFees := ∅
    rejectedNewStates := ∅
    validNewStates := []
    duplicatedNewStates := [] }

def isRejectedSmart (addr : Address) : Bool :=
  (s.rejectedNewStates.lookup addr).isSome

def getRejectReason (addr : Address) : Reason :=
  (s.rejectedNewStates.lookup addr).getD .none

def saveNewState (addr : Address) (index : Nat) (rejectReason : Reason) : ValidatorM Unit :=
  modify fun s =>
    if rejectReason ≠ .none then
      { s with rejectedNewStates := s.rejectedNewStates.insert addr rejectReason }
    else { s with validNewStates := (index, true) :: s.validNewStates }

section Wallets

variable (ctx : SolverContext)

/-- The data of a wallet: those in the storage, or those it is going to start with. -/
def wallet (s : TransactionsValidator) (key : PublicKey) : WalletsState.WalletData :=
  (s.wallets.lookup key).getD (WalletsState.initial ctx key)

def setWallet (s : TransactionsValidator) (key : PublicKey) (data : WalletsState.WalletData) :
    TransactionsValidator :=
  { s with wallets := s.wallets.insert key data }

def getData (address : Address) : ValidatorM PublicKey := do
  let key := ctx.toPublicKey address
  modify fun s => s.setWallet key (s.wallet ctx key)
  return key

def balance (key : PublicKey) : ValidatorM Amount := do return ((← get).wallet ctx key).balance

def setBalance (key : PublicKey) (balance : Amount) : ValidatorM Unit :=
  modify fun s => s.setWallet key { s.wallet ctx key with balance }

end Wallets

def transactionAt (trxs : List Transaction) (index : Nat) : Except Fault Transaction :=
  match trxs[index]? with
  | some trx => .ok trx
  | none => .error .undefined

def setMask (index : Nat) (reason : Reason) : ValidatorM Unit := do
  if index < (← get).maskIncluded.length then
    modify fun s => { s with maskIncluded := s.maskIncluded.set index reason }
  else throw .undefined

/-- The transaction becomes the last one of its source: its inner id is used up, and it is put in
front of the source's list. -/
def linkTransaction (ctx : SolverContext) (key : PublicKey) (innerID : Int64) (trxInd : Nat) :
    ValidatorM Unit := do
  if trxInd < (← get).trxList.length then
    modify fun s =>
      let data := s.wallet ctx key
      { s with trxList := s.trxList.set trxInd data.lastTrxInd }.setWallet key
        { data with lastTrxInd := UInt32.ofNat trxInd, trxTail := data.trxTail.push innerID }
  else throw .undefined

/-! ## One transaction -/

section Transaction

variable (ctx : SolverContext)

def chargeNewState (trx initTransaction : Transaction) (feeForExecution : Amount) :
    ValidatorM Reason := do
  let maxFee ← lift (ctx.amount initTransaction.maxFee)
  let startFee ← lift (ctx.amount initTransaction.countedFee)
  let countedFee ← lift (ctx.amount trx.countedFee)
  let available ← lift (maxFee.sub startFee)
  let required ← lift (countedFee.add feeForExecution)
  if available.lt required then return .insufficientMaxFee
  else
    let key ← getData ctx initTransaction.source
    let newBalance ← lift ((← balance ctx key).add maxFee)
    let newBalance ← lift (newBalance.sub startFee)
    let newBalance ← lift (newBalance.sub trx.amount)
    let newBalance ← lift (newBalance.sub feeForExecution)
    let newBalance ← lift (newBalance.sub countedFee)
    setBalance ctx key newBalance
    if newBalance.lt 0 then return .negativeResult else return .none

def validateNewStateAsSource (trx : Transaction) : ValidatorM Reason := do
  if ctx.isClosedSmartContract trx.target then return .contractClosed
  else
    let initTransaction ← lift (ctx.getTransaction trx)
    if !initTransaction.isValid then return .malformedTransaction
    else
      let feeField := trx.userField TrxUf.newStateFee
      if feeField.isNone then return .malformedTransaction
      else chargeNewState ctx trx initTransaction (UserField.amountValue feeField)

def rejectLastNewState (addr : Address) (reason : Reason) : ValidatorM Reason := do
  modify fun s =>
    { s with
      rejectedNewStates := s.rejectedNewStates.insert addr reason
      validNewStates := s.validNewStates.modifyHead fun state => (state.1, false) }
  return reason

/-- The fee of a transaction that a contract has emitted is paid by the one who started it. -/
def chargeStarter (trx initTransaction : Transaction) (sourceAbsAddr : Address) :
    ValidatorM Reason := do
  if initTransaction.isValid && ctx.absoluteAddress initTransaction.target = sourceAbsAddr then
    let initerAddr := ctx.absoluteAddress initTransaction.source
    let countedFee ← lift (ctx.amount trx.countedFee)
    let leftFromMaxFee ← lift (match (← get).payableMaxFees.lookup initerAddr with
      | some left => left.sub countedFee
      | none => SolverContext.converted (ctx.feeLess initTransaction.maxFee countedFee))
    if leftFromMaxFee.lt 0 then rejectLastNewState sourceAbsAddr .insufficientMaxFee
    else
      modify fun s =>
        { s with payableMaxFees := s.payableMaxFees.insert initerAddr leftFromMaxFee }
      return .none
  else rejectLastNewState sourceAbsAddr .malformedTransaction

def checkEmitted (trxs : List Transaction) (trx : Transaction) : ValidatorM Reason := do
  let sourceAbsAddr := ctx.absoluteAddress trx.source
  if (← get).isRejectedSmart sourceAbsAddr then return .completeReject
  else
    match (← get).validNewStates with
    | [] => return .malformedTransaction
    | state :: _ =>
      let newState ← lift (transactionAt trxs state.1)
      let initTransaction ← lift (ctx.getTransaction newState)
      chargeStarter ctx trx initTransaction sourceAbsAddr

/-- `wallState.balance_ = wallState.balance_ - amount - fee`. -/
def spend (key : PublicKey) (amount : Amount) (fee : AmountCommission) : ValidatorM Reason := do
  let newBalance ← lift ((← balance ctx key).sub amount)
  let fee ← lift (ctx.amount fee)
  let newBalance ← lift (newBalance.sub fee)
  setBalance ctx key newBalance
  return .none

def validateCommonAsSource (trxs : List Transaction) (trx : Transaction) (key : PublicKey) :
    ValidatorM Reason := do
  if trx.source = trx.target then return .sourceIsTarget
  else
    let maxFee ← lift (ctx.amount trx.maxFee)
    let countedFee ← lift (ctx.amount trx.countedFee)
    if maxFee.lt countedFee then return .insufficientMaxFee
    else if SmartContracts.isExecutable trx then spend ctx key trx.amount trx.maxFee
    else if ctx.isKnownSmartContract trx.source then
      let r ← checkEmitted ctx trxs trx
      if r ≠ .none then return r
      else
        let newBalance ← lift ((← balance ctx key).sub trx.amount)
        setBalance ctx key newBalance
        return .none
    else if ctx.isKnownSmartContract trx.target then spend ctx key trx.amount trx.maxFee
    else spend ctx key trx.amount trx.countedFee

def acceptAsSource (trx : Transaction) (trxInd : Nat) (key : PublicKey) : ValidatorM Reason := do
  if (← balance ctx key).lt 0 && !SmartContracts.isNewState trx then
    if ctx.isKnownSmartContract trx.source then return .negativeResult
    else
      modify fun s => { s with negativeNodes := key :: s.negativeNodes }
      linkTransaction ctx key trx.innerID trxInd
      return .none
  else
    linkTransaction ctx key trx.innerID trxInd
    return .none

/-- Whether a new state is rejected: because its contract is already, or by the checks. -/
def newStateReason (trx : Transaction) : ValidatorM Reason := do
  let absAddr := ctx.absoluteAddress trx.source
  if (← get).isRejectedSmart absAddr then return (← get).getRejectReason absAddr
  else validateNewStateAsSource ctx trx

def checkAsSource (trxs : List Transaction) (trx : Transaction) (trxInd : Nat) (key : PublicKey) :
    ValidatorM Reason := do
  if SmartContracts.isNewState trx then
    let r ← newStateReason ctx trx
    saveNewState (ctx.absoluteAddress trx.source) trxInd r
    return r
  else validateCommonAsSource ctx trxs trx key

def refuseInnerID (trx : Transaction) (trxInd : Nat) (tail : TransactionsTail) :
    ValidatorM Reason := do
  let r := if tail.isDuplicated trx.innerID then Reason.duplicatedInnerID else .disabledInnerID
  if SmartContracts.isNewState trx then
    let addr := ctx.absoluteAddress trx.source
    saveNewState addr trxInd r
    modify fun s => { s with duplicatedNewStates := addr :: s.duplicatedNewStates }
    return r
  else return r

def validateTransactionAsSource (trxs : List Transaction) (trx : Transaction) (trxInd : Nat) :
    ValidatorM Reason := do
  let key ← getData ctx trx.source
  let tail := ((← get).wallet ctx key).trxTail
  if !tail.isAllowed trx.innerID then refuseInnerID ctx trx trxInd tail
  else
    let r ← checkAsSource ctx trxs trx trxInd key
    if r ≠ .none then return r else acceptAsSource ctx trx trxInd key

def validateTransactionAsTarget (trx : Transaction) : ValidatorM Reason := do
  let key ← getData ctx trx.target
  let newBalance ← lift ((← balance ctx key).add trx.amount)
  setBalance ctx key newBalance
  return .none

def validateTransaction (trxs : List Transaction) (trxInd : Nat) : ValidatorM Reason := do
  let trx ← lift (transactionAt trxs trxInd)
  let r ← validateTransactionAsSource ctx trxs trx trxInd
  if r = .none then validateTransactionAsTarget ctx trx else return r

end Transaction

/-! ## Contracts that are replenished -/

section RejectedSmarts

variable (ctx : SolverContext)

/-- The transactions that contracts with a negative balance have emitted, with their indices, and
the accepted new states: the first loop of `checkRejectedSmarts`. -/
def collectRejected : List Transaction → Nat →
    ValidatorM (List (Transaction × Nat) × List Transaction)
  | [], _ => return ([], [])
  | t :: ts, i => do
    let mask := (← get).maskIncluded
    if i < mask.length && ctx.isKnownSmartContract t.source && !SmartContracts.isNewState t then
      let key ← getData ctx t.source
      let negative := (← balance ctx key).lt 0
      let rest ← collectRejected ts (i + 1)
      return if negative then ((t, i) :: rest.1, rest.2) else rest
    else
      let rest ← collectRejected ts (i + 1)
      return if SmartContracts.isNewState t && mask[i]? = some .none then (rest.1, t :: rest.2)
        else rest

def makeSmartsValid (source : Address) : List (Transaction × Nat) → ValidatorM Nat
  | [] => return 0
  | smart :: smarts => do
    if ctx.absoluteAddress smart.1.source = ctx.absoluteAddress source ∧
        smart.2 < (← get).maskIncluded.length then
      setMask smart.2 .none
      let key ← getData ctx smart.1.source
      linkTransaction ctx key smart.1.innerID smart.2
      return (← makeSmartsValid source smarts) + 1
    else makeSmartsValid source smarts

/-- One new state: the contract gets the amount that came with the call. -/
def replenish (rejectedSmarts : List (Transaction × Nat)) (state : Transaction) :
    ValidatorM Nat := do
  let initTransaction ← lift (ctx.getTransaction state)
  match rejectedSmarts.find? fun o =>
      ctx.absoluteAddress o.1.source = ctx.absoluteAddress initTransaction.target with
  | none => return 0
  | some o =>
    let key ← getData ctx o.1.source
    let newBalance ← lift ((← balance ctx key).addAssign initTransaction.amount)
    setBalance ctx key newBalance
    if newBalance.ge 0 then makeSmartsValid ctx o.1.source rejectedSmarts else return 0

def replenishAll (rejectedSmarts : List (Transaction × Nat)) : List Transaction → ValidatorM Nat
  | [] => return 0
  | state :: states => do
    let restored ← replenish ctx rejectedSmarts state
    return restored + (← replenishAll rejectedSmarts states)

def checkRejectedSmarts (trxs : List Transaction) : ValidatorM Nat := do
  let collected ← collectRejected ctx trxs 0
  replenishAll ctx collected.1 collected.2

end RejectedSmarts

/-! ## Validation by graph -/

section Graph

variable (ctx : SolverContext) (trxs : List Transaction)

/-- The fee that goes with a transaction of a plain wallet. -/
def transferFee (trx : Transaction) : Except Fault Amount :=
  if ctx.isKnownSmartContract trx.target then ctx.amount trx.maxFee else ctx.amount trx.countedFee

def trxCost (trx : Transaction) : Except Fault Amount := do
  let cost ← SolverContext.converted (ctx.ofDouble trx.amount)
  cost.addAssign (← transferFee ctx trx)

def pointee (s : TransactionsValidator) (node : PublicKey) : Option Nat → Option TransactionIndex
  | none => some (s.wallet ctx node).lastTrxInd
  | some i => s.trxList[i]?

def setPointee (s : TransactionsValidator) (node : PublicKey) (prevNext : Option Nat)
    (trxInd : TransactionIndex) : TransactionsValidator :=
  match prevNext with
  | none => s.setWallet node { s.wallet ctx node with lastTrxInd := trxInd }
  | some i => { s with trxList := s.trxList.set i trxInd }

def deref (node : PublicKey) (prevNext : Option Nat) : ValidatorM TransactionIndex := do
  match (← get).pointee ctx node prevNext with
  | some trxInd => return trxInd
  | none => throw .undefined

/-- Which transactions one of the functions `removeTransactions_...` takes back. -/
structure Removal where
  /-- One transaction that is enough, not all of them. -/
  one : Bool
  /-- Only transactions whose target can pay back. -/
  positive : Bool
deriving DecidableEq, Repr

def isTooCheap (kind : Removal) (absBalance : Amount) (trx : Transaction) : Except Fault Bool :=
  if kind.one then do return (← trxCost ctx trx).lt absBalance else return false

def passesOver (kind : Removal) (absBalance : Amount) (trx : Transaction) : ValidatorM Bool := do
  let tooCheap ← lift (isTooCheap ctx kind absBalance trx)
  if tooCheap then return true
  else if kind.positive then
    let dest ← getData ctx trx.target
    return !trx.amount.le (← balance ctx dest)
  else return false

/-- The entry leaves the list that `prevNext` points into. -/
def unlinkTransaction (node : PublicKey) (prevNext : Option Nat) (trxInd : Nat) :
    ValidatorM Unit := do
  let next ← deref ctx node (some trxInd)
  modify fun s => s.setPointee ctx node prevNext next
  modify fun s => s.setPointee ctx node (some trxInd) noInd

def takeBack (kind : Removal) (node : PublicKey) (prevNext : Option Nat) (trxInd : Nat)
    (trx : Transaction) : ValidatorM Unit := do
  let dest ← getData ctx trx.target
  setMask trxInd .negativeResult
  let fee ← lift (transferFee ctx trx)
  let refunded ← lift ((← balance ctx node).add trx.amount)
  let refunded ← lift (refunded.add fee)
  setBalance ctx node refunded
  let reduced ← lift ((← balance ctx dest).sub trx.amount)
  setBalance ctx dest reduced
  unlinkTransaction ctx node prevNext trxInd
  modify fun s => { s with cntRemovedTrxs := s.cntRemovedTrxs + 1 }
  if !kind.positive && reduced.lt 0 then
    modify fun s => { s with negativeNodes := dest :: s.negativeNodes }
  else return ()

def removeLoop (kind : Removal) (node : PublicKey) (absBalance : Amount) :
    Nat → Option Nat → ValidatorM Bool
  | 0, _ => throw .outOfFuel
  | fuel + 1, prevNext => do
    let trxInd ← deref ctx node prevNext
    if trxInd = noInd then return false
    else
      let trx ← lift (transactionAt trxs trxInd.toNat)
      if ← passesOver ctx kind absBalance trx then
        removeLoop kind node absBalance fuel (some trxInd.toNat)
      else
        takeBack ctx kind node prevNext trxInd.toNat trx
        if kind.one then return true
        else if (← balance ctx node).ge 0 then return true
        else removeLoop kind node absBalance fuel prevNext

/-- `absBalance`, which the functions that take back all transactions do not compute. -/
def absBalance (kind : Removal) (current : Amount) : Except Fault Amount :=
  if kind.one then current.neg else .ok 0

/-- A function of the family. A list without a cycle is at its end after as many steps as there are
transactions. -/
def removeTransactionsOf (kind : Removal) (node : PublicKey) : ValidatorM Bool := do
  let current ← balance ctx node
  if current.ge 0 then return true
  else
    let owed ← lift (absBalance kind current)
    removeLoop ctx trxs kind node owed ((← get).trxList.length + 1) none

def removeTransactionsPositiveOne : PublicKey → ValidatorM Bool :=
  removeTransactionsOf ctx trxs ⟨true, true⟩

def removeTransactionsPositiveAll : PublicKey → ValidatorM Bool :=
  removeTransactionsOf ctx trxs ⟨false, true⟩

def removeTransactionsNegativeOne : PublicKey → ValidatorM Bool :=
  removeTransactionsOf ctx trxs ⟨true, false⟩

def removeTransactionsNegativeAll : PublicKey → ValidatorM Bool :=
  removeTransactionsOf ctx trxs ⟨false, false⟩

/-- `removeTransactions`; the result says whether one of the functions has succeeded. -/
def removeTransactions (node : PublicKey) : ValidatorM Bool := do
  if ← removeTransactionsPositiveOne ctx trxs node then return true
  else if ← removeTransactionsPositiveAll ctx trxs node then return true
  else if ← removeTransactionsNegativeOne ctx trxs node then return true
  else removeTransactionsNegativeAll ctx trxs node

/-- One iteration of `validateByGraph`. -/
def validateNode (node : PublicKey) : ValidatorM Unit := do
  if (← balance ctx node).ge 0 then return ()
  else
    let _ ← removeTransactions ctx trxs node

def validateByGraph : Nat → ValidatorM Unit
  | 0 => throw .outOfFuel
  | fuel + 1 => do
    match (← get).negativeNodes with
    | [] => return ()
    | node :: nodes =>
      modify fun s => { s with negativeNodes := nodes }
      validateNode ctx trxs node
      validateByGraph fuel

end Graph

end TransactionsValidator

end CreditsNode
