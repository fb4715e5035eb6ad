import CreditsNode.Csnode.BitHeap
import CreditsNode.Csnode.WalletsIds
import CreditsNode.Solver.SmartContracts
import Mathlib.Data.List.AList

/-!
# The wallets cache

`cs::WalletsCache` holds the balance and the history of every wallet. Its `Updater` applies the
blocks of the chain, and takes them back with `inverse` set. A reference to a wallet is the wallet's
key here, and a wallet that is asked for and missing is inserted first, as
`unordered_map::operator[]` does.

The statistics for monitor nodes and the time stamps, which only they read, are left out.
-/

namespace CreditsNode

open ByteCodec Effect

/-- `WalletsCache::WalletData`. -/
structure WalletData where
  balance : Amount
  trxTail : TransactionsTail
  transNum : UInt64
  lastTransaction : TransactionID
deriving DecidableEq

def WalletData.new : WalletData := ⟨0, .new, 0, .new⟩

/-- `WalletsCache`: the wallets and the executions that wait or were cancelled. -/
structure WalletsCache where
  smartPayableTransactions : List TransactionID
  canceledSmarts : AList fun _ : Address => List TransactionID
  wallets : AList fun _ : PublicKey => WalletData

/-- What the updater reads of the rest of the node. -/
structure LedgerEnv where
  walletsIds : WalletsIds
  loadBlock : Sequence → Pool
  /-- The conversion of a fee to `double` and on to `csdb::Amount`; nothing where it throws. -/
  toAmount : AmountCommission → Option Amount
  /-- A converted number has a proper fraction. -/
  toAmount_fraction : ∀ fee a, toAmount fee = some a → a.fraction < Amount.maxFraction

namespace LedgerEnv

def amount (env : LedgerEnv) (fee : AmountCommission) : Except Fault Amount :=
  match env.toAmount fee with
  | some a => .ok a
  | none => .error (.exception "Amount::Amount(double) overflow)")

end LedgerEnv

namespace WalletsCache

def new : WalletsCache := ⟨[], ∅, ∅⟩

def findWallet (s : WalletsCache) (key : PublicKey) : Option WalletData := s.wallets.lookup key

/-- The data of a wallet that is there, or those it will be inserted with. -/
def wallet (s : WalletsCache) (key : PublicKey) : WalletData := (s.findWallet key).getD .new

def setWallet (s : WalletsCache) (key : PublicKey) (data : WalletData) : WalletsCache :=
  { s with wallets := s.wallets.insert key data }

abbrev UpdaterM := EStateM Fault WalletsCache

namespace Updater

def getWalletData (key : PublicKey) : UpdaterM Unit :=
  modify fun s => s.setWallet key (s.wallet key)

def modifyWallet (key : PublicKey) (f : WalletData → WalletData) : UpdaterM Unit :=
  modify fun s => s.setWallet key (f (s.wallet key))

def addBalance (key : PublicKey) (x : Amount) : UpdaterM Unit := do
  let s ← get
  let balance ← lift ((s.wallet key).balance.addAssign x)
  modifyWallet key fun data => { data with balance }

def subBalance (key : PublicKey) (x : Amount) : UpdaterM Unit := do
  let s ← get
  let balance ← lift ((s.wallet key).balance.subAssign x)
  modifyWallet key fun data => { data with balance }

/-- Addition, which the inverse of a block takes back. -/
def credit (inverse : Bool) (key : PublicKey) (x : Amount) : UpdaterM Unit :=
  if !inverse then addBalance key x else subBalance key x

/-- Subtraction, which the inverse of a block takes back. -/
def debit (inverse : Bool) (key : PublicKey) (x : Amount) : UpdaterM Unit :=
  if !inverse then subBalance key x else addBalance key x

/-! ## Fees of the confidants -/

def getRealTrustedNum (realTrusted : Bytes) : Int32 :=
  Int32.ofNat (realTrusted.countP fun trustedMarker => trustedMarker ≠ kUntrustedMarker)

/-- The loop that pays a fee out to the marked confidants: equal shares, and what is left of
`totalFee` to the last one. -/
def payConfidants (totalFee : Amount) (realTrustedNumber : Int32) (inverse : Bool) :
    List PublicKey → Bytes → Amount → Amount → Int32 → UpdaterM Unit
  | confidant :: confidants, marker :: realTrusted, feeToEachConfidant, payedFee, numPayedTrusted =>
    if marker ≠ kUntrustedMarker then do
      getWalletData confidant
      credit inverse confidant feeToEachConfidant
      let payedFee ← lift (payedFee.addAssign feeToEachConfidant)
      let numPayedTrusted := numPayedTrusted + 1
      let feeToEachConfidant ←
        if numPayedTrusted = realTrustedNumber - 1 then lift (totalFee.sub payedFee)
        else pure feeToEachConfidant
      payConfidants totalFee realTrustedNumber inverse confidants realTrusted feeToEachConfidant
        payedFee numPayedTrusted
    else
      payConfidants totalFee realTrustedNumber inverse confidants realTrusted feeToEachConfidant
        payedFee numPayedTrusted
  | _, _, _, _, _ => pure ()

def fundConfidantsWalletsWithFee (totalFee : Amount) (confidants : List PublicKey)
    (realTrusted : Bytes) (inverse : Bool) : UpdaterM Unit :=
  if confidants.length = 0 then pure ()
  else do
    let realTrustedNumber := getRealTrustedNum realTrusted
    let feeToEachConfidant ← lift (totalFee.div realTrustedNumber)
    payConfidants totalFee realTrustedNumber inverse confidants realTrusted feeToEachConfidant 0 0

variable (env : LedgerEnv)

def fundConfidantsWalletsWithExecFee (transaction : Transaction) (inverse : Bool) : UpdaterM Unit :=
  if !SmartContracts.isNewState transaction then pure ()
  else do
    let smartRef ← lift (SmartContractRef.fromUserField
      (transaction.userField TrxUf.newStateRefStart))
    if !smartRef.isValid then pure ()
    else
      let pool := env.loadBlock smartRef.sequence
      if !pool.isValid then pure ()
      else
        let realTrusted := bitsToMask pool.numberTrusted pool.realTrusted
        let realTrustedNumber := getRealTrustedNum realTrusted
        let totalFee := UserField.amountValue (transaction.userField TrxUf.newStateFee)
        let feeToEachConfidant ← lift (totalFee.div realTrustedNumber)
        payConfidants totalFee realTrustedNumber inverse pool.confidants realTrusted
          feeToEachConfidant 0 0

/-! ## Contract executions -/

def invokeReplenishPayableContract (transaction : Transaction)
    (inverse : Bool) : UpdaterM Unit := do
  let target := env.walletsIds.toPublicKey transaction.target
  getWalletData target
  debit inverse target transaction.amount
  if !inverse then
    modify fun s => { s with
      smartPayableTransactions := s.smartPayableTransactions ++ [transaction.id] }
  else
    modify fun s => { s with
      smartPayableTransactions := s.smartPayableTransactions.filter (· ≠ transaction.id) }
  if !SmartContracts.isExecutable transaction then
    let source := env.walletsIds.toPublicKey transaction.source
    getWalletData source
    credit inverse source (← lift (env.amount transaction.countedFee))
    debit inverse source (← lift (env.amount transaction.maxFee))

def pushCanceledSmart (contract : Address) (tid : TransactionID) : UpdaterM Unit :=
  modify fun s => { s with
    canceledSmarts := s.canceledSmarts.insert contract
      (tid :: (s.canceledSmarts.lookup contract).getD []) }

def rollbackExceededTimeoutContract (transaction : Transaction)
    (execFee : Amount) (inverse : Bool) : UpdaterM Unit := do
  let source := env.walletsIds.toPublicKey transaction.source
  getWalletData source
  credit inverse source transaction.amount
  credit inverse source (← lift (env.amount transaction.maxFee))
  debit inverse source (← lift (env.amount transaction.countedFee))
  let s ← get
  if SmartContracts.isExecutable transaction then
    if !inverse then pushCanceledSmart transaction.target transaction.id
    else
      match s.canceledSmarts.lookup transaction.target with
      | none => throw .undefined
      | some list =>
        let list := list.filter (· ≠ transaction.id)
        set { s with
          canceledSmarts := if list.length = 0 then s.canceledSmarts.erase transaction.target
            else s.canceledSmarts.insert transaction.target list }
  else if transaction.id ∈ s.smartPayableTransactions ∧ !inverse then
    set { s with smartPayableTransactions := s.smartPayableTransactions.erase transaction.id }
    subBalance source execFee
  else if inverse then
    set { s with smartPayableTransactions := s.smartPayableTransactions ++ [transaction.id] }
    addBalance source execFee

def isCanceledSmart (s : WalletsCache) (contractAddr : Address) (tid : TransactionID) : Bool :=
  match s.canceledSmarts.lookup contractAddr with
  | none => false
  | some list => list.any fun item => item.poolSeq = tid.poolSeq && item.index = tid.index

def checkCanceledSmart (contractAddr : Address) (tid : TransactionID) (inverse : Bool) :
    UpdaterM Unit :=
  if inverse then pushCanceledSmart contractAddr tid
  else do
    let s ← get
    match s.canceledSmarts.lookup contractAddr with
    | none => pure ()
    | some list =>
      let list := list.takeWhile fun i =>
        !(i.poolSeq ≤ tid.poolSeq || (i.poolSeq = tid.poolSeq && i.index ≤ tid.index))
      set { s with
        canceledSmarts := if list.length = 0 then s.canceledSmarts.erase contractAddr
          else s.canceledSmarts.insert contractAddr list }

/-- What the initiator of an execution and the contract get when the money it waited for has
arrived. -/
def settleWaitingSmart (initTransaction newStateTransaction : Transaction)
    (inverse : Bool) : UpdaterM Unit := do
  let initer := env.walletsIds.toPublicKey initTransaction.source
  getWalletData initer
  debit inverse initer (UserField.amountValue (newStateTransaction.userField TrxUf.newStateFee))
  debit inverse initer (← lift (env.amount initTransaction.countedFee))
  credit inverse initer (← lift (env.amount initTransaction.maxFee))
  debit inverse initer (← lift (env.amount newStateTransaction.countedFee))
  let target := env.walletsIds.toPublicKey initTransaction.target
  getWalletData target
  credit inverse target initTransaction.amount

def checkSmartWaitingForMoney (initTransaction newStateTransaction : Transaction)
    (inverse : Bool) : UpdaterM Unit := do
  if !SmartContracts.isStateUpdated newStateTransaction then
    rollbackExceededTimeoutContract env initTransaction
      (UserField.amountValue (newStateTransaction.userField TrxUf.newStateFee)) inverse
  else
    let s ← get
    if initTransaction.id ∈ s.smartPayableTransactions then
      if !inverse then
        set { s with
          smartPayableTransactions := s.smartPayableTransactions.erase initTransaction.id }
        settleWaitingSmart env initTransaction newStateTransaction inverse
    else if inverse then
      set { s with
        smartPayableTransactions := s.smartPayableTransactions ++ [initTransaction.id] }
      settleWaitingSmart env initTransaction newStateTransaction inverse

/-! ## Blocks -/

def loadTrxForTarget (tr : Transaction) (inverse : Bool) : UpdaterM Unit := do
  let target := env.walletsIds.toPublicKey tr.target
  getWalletData target
  credit inverse target tr.amount
  if !inverse then
    modifyWallet target fun data => { data with lastTransaction := tr.id }
  if tr.source ≠ tr.target then
    modifyWallet target fun data => { data with
      transNum := if !inverse then data.transNum + 1 else data.transNum - 1 }

def countSent (key : PublicKey) (tr : Transaction) (inverse : Bool) : UpdaterM Unit :=
  modifyWallet key fun data =>
    if !inverse then
      { data with
        transNum := data.transNum + 1
        trxTail := data.trxTail.push tr.innerID
        lastTransaction := tr.id }
    else
      { data with transNum := data.transNum - 1 }

def initTransactionOf (tr : Transaction) :
    Except Fault (Transaction × Address) := do
  let ref ← SmartContractRef.fromUserField (tr.userField TrxUf.newStateRefStart)
  let pool := env.loadBlock ref.sequence
  match pool.transactions[ref.transaction.toNat]? with
  | some initTransaction =>
    if pool.isValid then return (initTransaction, initTransaction.source)
    else return (.new, .new)
  | none => return (.new, .new)

def loadNewStateForSource (tr initTransaction : Transaction)
    (wallAddress : PublicKey) (inverse : Bool) : UpdaterM Unit := do
  if initTransaction.isValid then
    let startMaxFee ← lift (env.amount initTransaction.maxFee)
    let startCountedFee ← lift (env.amount initTransaction.countedFee)
    if isCanceledSmart (← get) initTransaction.target initTransaction.id then
      debit inverse wallAddress initTransaction.amount
      debit inverse wallAddress startMaxFee
      credit inverse wallAddress startCountedFee
    checkCanceledSmart initTransaction.target initTransaction.id inverse
    if SmartContracts.isExecutable initTransaction then
      credit inverse wallAddress startMaxFee
      debit inverse wallAddress startCountedFee
      debit inverse wallAddress (← lift (env.amount tr.countedFee))
      debit inverse wallAddress (UserField.amountValue (tr.userField TrxUf.newStateFee))
    else
      checkSmartWaitingForMoney env initTransaction tr inverse
  let source := env.walletsIds.toPublicKey tr.source
  getWalletData source
  countSent source tr inverse

def loadTrxForSource (tr : Transaction) (inverse : Bool) :
    UpdaterM AmountCommission := do
  let smartIniter := SmartContracts.isNewState tr
  let (initTransaction, address) ←
    if smartIniter then lift (initTransactionOf env tr) else pure (.new, tr.source)
  let wallAddress := env.walletsIds.toPublicKey address
  getWalletData wallAddress
  if SmartContracts.isExecutable tr then
    debit inverse wallAddress (← lift (env.amount tr.maxFee))
  else if smartIniter then
    loadNewStateForSource env tr initTransaction wallAddress inverse
  else
    debit inverse wallAddress (← lift (env.amount tr.countedFee))
  if !smartIniter then
    debit inverse wallAddress tr.amount
    countSent wallAddress tr inverse
  return tr.countedFee

def load (tr : Transaction) (inverse : Bool) : UpdaterM AmountCommission := do
  loadTrxForTarget env tr inverse
  loadTrxForSource env tr inverse

/-- The loop of `loadNextBlock`; the result is the total of the counted fees. -/
def loadTransactions (env : LedgerEnv) (inverse : Bool) :
    List Transaction → Amount → UpdaterM Amount
  | [], totalAmountOfCountedFee => pure totalAmountOfCountedFee
  | tr :: transactions, totalAmountOfCountedFee => do
    let fee ← load env tr inverse
    let totalAmountOfCountedFee ←
      lift (do totalAmountOfCountedFee.addAssign (← env.amount fee))
    if SmartContracts.isNewState tr then
      fundConfidantsWalletsWithExecFee env tr inverse
    loadTransactions env inverse transactions totalAmountOfCountedFee

def loadNextBlock (pool : Pool) (confidants : List PublicKey)
    (inverse : Bool) : UpdaterM Unit := do
  let totalAmountOfCountedFee ← loadTransactions env inverse pool.transactions 0
  if totalAmountOfCountedFee.gt 0 then
    fundConfidantsWalletsWithFee totalAmountOfCountedFee confidants
      (bitsToMask pool.numberTrusted pool.realTrusted) inverse

end Updater

end WalletsCache

end CreditsNode
