import CreditsNode.Csdb.Storage
import CreditsNode.Csnode.BlockHashes
import CreditsNode.Csnode.NodeUtils
import CreditsNode.Csnode.WalletsCache

/-!
# The block chain

`BlockChain` keeps the last block in memory, the deferred block, and writes it to the storage when
the next one arrives. Blocks that arrive too early wait in a cache. A block is checked when it is
recorded: its structure in `checkForConsistency`, its signatures and confirmations in
`finalizeBlock`, which then applies it to the wallets.

An exception is caught where the source catches it, and the state stays as it is at that moment. The
subscribers of events, the log and the locks are not part of the model.
-/

namespace CreditsNode

open ByteCodec Effect

/-- `BlockChain::BlockMeta`. -/
structure BlockMeta where
  pool : Pool
  bySync : Bool

/-- `BlockChain::NonEmptyBlockData`. -/
structure NonEmptyBlockData where
  poolSeq : Sequence
  transCount : UInt32
deriving DecidableEq

def NonEmptyBlockData.new : NonEmptyBlockData := ⟨0, 0⟩

/-- The members of `BlockChain` that the modelled functions use. -/
structure BlockChain where
  storage : Storage
  deferredBlock : Pool
  lastSequence : Sequence
  blocksToBeRemoved : Sequence
  cachedBlocks : OrdMap Sequence BlockMeta
  blockHashes : BlockHashes
  walletIds : WalletsIds
  wallets : WalletsCache
  totalTransactionsCount : UInt64
  lastNonEmptyBlock : NonEmptyBlockData
  previousNonEmpty : AList fun _ : Sequence => NonEmptyBlockData

/-- What the chain uses of other components. -/
structure ChainEnv where
  crypto : Crypto
  genesisAddress : Address
  getFee : Transaction → AmountCommission
  /-- `csdb::Amount(fee.to_double())`; nothing where the conversion throws. -/
  toAmount : AmountCommission → Option Amount
  toAmount_fraction : ∀ fee a, toAmount fee = some a → a.fraction < Amount.maxFraction
  /-- The element that a full cache of the storage gives up. -/
  evict : List PoolElement → Nat

/-- The parts of `cs::RoundPackage` that `updateLastBlock` reads. -/
structure RoundPackage where
  sequenceNumber : Sequence
  previousHash : PoolHash
  realTrustedMask : Bytes
  timestamp : Bytes
  poolSignatures : List Signature
deriving DecidableEq

namespace BlockChain

abbrev ChainM := EStateM Fault BlockChain

/-! ## Reading -/

section Reading

variable (env : ChainEnv) (s : BlockChain)

def getLastHash : PoolHash :=
  if s.deferredBlock.isValid then s.deferredBlock.hash env.crypto else s.storage.lastHash

def loadBlock (sequence : Sequence) : Pool × Storage :=
  if s.deferredBlock.isValid && s.deferredBlock.sequence = sequence then
    (s.deferredBlock, s.storage)
  else if sequence > s.lastSequence then (.new, s.storage)
  else s.storage.poolLoad env.crypto env.evict sequence

def ledgerEnv : LedgerEnv where
  walletsIds := s.walletIds
  loadBlock sequence := (s.loadBlock env sequence).1
  toAmount := env.toAmount
  toAmount_fraction := env.toAmount_fraction

end Reading

/-! ## Wallets -/

def getWalletAddress (pool : Pool) (info : NewWalletInfo) : Option Address :=
  let idx := info.trxInd.toNat
  match pool.transactions[idx]? with
  | some trx =>
    some (match info.addressType with
      | .addressIsSource => trx.source
      | .addressIsTarget => trx.target)
  | none => (pool.confidants[idx - pool.transactions.length]?).map .publicKey

def onWalletIds {α : Type} (m : EStateM Fault WalletsIds α) : ChainM α := fun s =>
  match m s.walletIds with
  | .ok a ids => .ok a { s with walletIds := ids }
  | .error e ids => .error e { s with walletIds := ids }

def onWallets (env : ChainEnv) (m : LedgerEnv → WalletsCache.UpdaterM Unit) :
    ChainM Unit := fun s =>
  match m (s.ledgerEnv env) s.wallets with
  | .ok a wallets => .ok a { s with wallets }
  | .error e wallets => .error e { s with wallets }

/-- `try { return m; } catch (std::exception&) { return false; }`. -/
def catching (m : ChainM Bool) : ChainM Bool := fun s =>
  match m s with
  | .ok a t => .ok a t
  | .error (.exception _) t => .ok false t
  | .error e t => .error e t

/-- The loop of `updateWalletIds`. A wallet that is refused is reported in the log only. -/
def insertNewWalletIds (pool : Pool) : List NewWalletInfo → ChainM Bool
  | [] => pure true
  | newWall :: newWallets =>
    match getWalletAddress pool newWall with
    | none => pure false
    | some address => do
      let _ ← onWalletIds (WalletsIds.insert address newWall.walletId)
      insertNewWalletIds pool newWallets

def updateWalletIds (pool : Pool) : ChainM Bool :=
  catching (insertNewWalletIds pool pool.newWallets)

def removeNewWallets (pool : Pool) (ids : WalletsIds) : List NewWalletInfo → WalletsIds
  | [] => ids
  | newWall :: newWallets =>
    match getWalletAddress pool newWall with
    | none => ids
    | some address => removeNewWallets pool (ids.remove address) newWallets

def removeWalletsInPoolFromCache (pool : Pool) : ChainM Unit :=
  modify fun s => { s with walletIds := removeNewWallets pool s.walletIds pool.newWallets }

def addNewWalletToPool (env : ChainEnv) (walletAddress : Address) (trxInd : Nat)
    (addressType : AddressType) : ChainM (List NewWalletInfo) :=
  if !walletAddress.isPublicKey || walletAddress = env.genesisAddress then pure []
  else do
    let (id, isNew) ← onWalletIds (WalletsIds.getId walletAddress)
    return if isNew then [⟨BitVec.ofNat 63 trxInd, addressType, id⟩] else []

def newWalletsOfTransactions (env : ChainEnv) : Nat → List Transaction → ChainM (List NewWalletInfo)
  | _, [] => pure []
  | idx, t :: ts => do
    let source ← addNewWalletToPool env t.source idx .addressIsSource
    let target ← addNewWalletToPool env t.target idx .addressIsTarget
    return source ++ target ++ (← newWalletsOfTransactions env (idx + 1) ts)

def newWalletsOfConfidants (env : ChainEnv) : Nat → List PublicKey → ChainM (List NewWalletInfo)
  | _, [] => pure []
  | idx, key :: keys => do
    let wallet ← addNewWalletToPool env (.publicKey key) idx .addressIsTarget
    return wallet ++ (← newWalletsOfConfidants env (idx + 1) keys)

def addNewWalletsToPool (env : ChainEnv) (pool : Pool) : ChainM Pool :=
  if pool.readOnly then pure pool
  else do
    let ofTransactions ← newWalletsOfTransactions env 0 pool.transactions
    let ofConfidants ← newWalletsOfConfidants env pool.transactions.length pool.confidants
    return { pool with newWallets := ofTransactions ++ ofConfidants }

def setTransactionsFees (env : ChainEnv) (pool : Pool) : Pool :=
  { pool with transactions := pool.transactions.map fun t => t.setCountedFee (env.getFee t) }

/-! ## Recording a block -/

variable (crypto : Crypto)

/-- The hash that `NodeUtils::checkGroupSignature` is given for a block. -/
def blockHash (pool : Pool) : Hash := (pool.hash crypto).getD (zeroArray 32)

def checkSignatures (pool : Pool) : Bool :=
  NodeUtils.checkGroupSignature crypto pool.confidants
    (bitsToMask pool.numberTrusted pool.realTrusted) pool.signatures (blockHash crypto pool)

def trustedHash (sequence : Sequence) (confidants : List PublicKey) : Hash :=
  crypto.calculateHash (putU64 sequence ++ (putU64 (UInt64.ofNat confidants.length) ++
    confidants.flatMap List.Vector.toList))

def checkConfirmations (pool : Pool) (lastConfidants : List PublicKey) : Bool :=
  NodeUtils.checkGroupSignature crypto lastConfidants
    (bitsToMask pool.numberConfirmations pool.roundConfirmationMask) pool.roundConfirmations
    (trustedHash crypto pool.sequence pool.confidants)

/-- The tests of `finalizeBlock` on the composed block. -/
def finalizable (pool : Pool) (isTrusted : Bool) (lastConfidants : List PublicKey) : Bool :=
  if pool.sequence > 1 && pool.numberConfirmations.toNat > 1 &&
      !checkConfirmations crypto pool lastConfidants then false
  else if pool.signatures.length = 0 && (!isTrusted || pool.sequence ≠ 0) then false
  else if pool.signatures.length < (maskValue pool.realTrusted).toNat && !isTrusted &&
      pool.sequence ≠ 0 then false
  else pool.sequence = 0 || checkSignatures crypto pool

def updateNonEmptyBlocks (pool : Pool) : ChainM Unit := modify fun s =>
  let cntTr := pool.transactions.length
  if cntTr > 0 then
    { s with
      totalTransactionsCount := s.totalTransactionsCount + UInt64.ofNat cntTr
      previousNonEmpty :=
        if s.lastNonEmptyBlock.transCount ≠ 0 && pool.sequence ≠ s.lastNonEmptyBlock.poolSeq then
          s.previousNonEmpty.insert pool.sequence s.lastNonEmptyBlock
        else s.previousNonEmpty
      lastNonEmptyBlock := ⟨pool.sequence, UInt32.ofNat cntTr⟩ }
  else s

def updateFromNextBlock (env : ChainEnv) (nextPool : Pool) : ChainM Bool :=
  catching do
    onWallets env fun ledger =>
      WalletsCache.Updater.loadNextBlock ledger nextPool nextPool.confidants false
    modify fun s => { s with
      blockHashes := s.blockHashes.update nextPool.sequence (nextPool.hash env.crypto) }
    return true

def finalizeBlock (env : ChainEnv) (isTrusted : Bool) (lastConfidants : List PublicKey) :
    ChainM Bool := do
  let pool := (← get).deferredBlock.compose env.crypto
  modify ({ · with deferredBlock := pool })
  if !pool.isValid && !pool.readOnly then return false
  if !finalizable env.crypto pool isTrusted lastConfidants then return false
  updateNonEmptyBlocks pool
  updateFromNextBlock env pool

def checkForConsistency (pool : Pool) : Bool :=
  if pool.sequence = 0 then true
  else if pool.confidants.length < pool.signatures.length then false
  else if (maskValue pool.realTrusted).toNat ≠ pool.signatures.length then false
  else
    let tmp := pool.compose crypto
    if !tmp.isValid && !tmp.readOnly then false
    else (Pool.fromBinary crypto tmp.toBinary).sequence ≠ 0

def flushDeferredBlock (env : ChainEnv) : ChainM Bool := fun s =>
  let (saved, storage) := s.storage.poolSave env.crypto env.evict s.deferredBlock
  .ok saved { s with storage }

def setBlocksToBeRemoved (number : Sequence) : ChainM Unit :=
  modify fun s => if s.blocksToBeRemoved > 0 then s else { s with blocksToBeRemoved := number }

def loadLastConfidants (env : ChainEnv) (poolSeq : Sequence) : ChainM (List PublicKey) := fun s =>
  if poolSeq > 1 then
    if s.deferredBlock.sequence + 1 = poolSeq then .ok s.deferredBlock.confidants s
    else
      let (pool, storage) := s.loadBlock env (poolSeq - 1)
      .ok pool.confidants { s with storage }
  else .ok [] s

/-- The first locked part of `recordBlock`: the deferred block is written, whatever comes of it. -/
def saveDeferredBlock (env : ChainEnv) : ChainM Unit := do
  if (← get).deferredBlock.isValid then
    let _ ← flushDeferredBlock env

/-- The second one: the block takes the place of the deferred one and is checked. -/
def replaceDeferredBlock (env : ChainEnv) (pool : Pool) (isTrusted : Bool) :
    ChainM (Bool × Pool) := do
  let lastConfidants ← loadLastConfidants env pool.sequence
  modify ({ · with deferredBlock := pool, lastSequence := pool.sequence })
  if ← finalizeBlock env isTrusted lastConfidants then
    return (true, (← get).deferredBlock)
  else
    setBlocksToBeRemoved 1
    return (false, pool)

def recordBlock (env : ChainEnv) (pool : Pool) (isTrusted : Bool) : ChainM (Bool × Pool) := do
  let s ← get
  if s.lastSequence + 1 ≠ pool.sequence then return (false, pool)
  let pool := pool.setPreviousHash (s.getLastHash env)
  if !checkForConsistency env.crypto pool then return (false, pool)
  if !checkForConsistency env.crypto s.deferredBlock then return (false, pool)
  saveDeferredBlock env
  replaceDeferredBlock env pool isTrusted

/-! ## Entry points -/

def createBlock (env : ChainEnv) (pool : Pool) : ChainM (Option Pool) := do
  let (recorded, pool) ← recordBlock env pool true
  return if recorded then some pool else none

def takeLastBlock : ChainM Pool := fun s =>
  if s.deferredBlock.isValid then .ok s.deferredBlock { s with deferredBlock := .new }
  else
    let (pool, storage) := s.storage.poolRemoveLast
    .ok pool { s with storage }

def forgetLastBlock (removeSeq : Sequence) (removeHash : PoolHash) : ChainM Unit :=
  modify fun s => { s with
    blockHashes := ((s.blockHashes.remove removeSeq).or (s.blockHashes.removeHash removeHash)).getD
      s.blockHashes
    lastSequence := s.lastSequence - 1 }

def forgetNonEmptyBlock (pool : Pool) : ChainM Unit := modify fun s =>
  if s.lastNonEmptyBlock.poolSeq = pool.sequence then
    { s with
      lastNonEmptyBlock := (s.previousNonEmpty.lookup pool.sequence).getD .new
      previousNonEmpty := s.previousNonEmpty.erase pool.sequence }
  else s

def dropBlock (env : ChainEnv) (removeSeq : Sequence) (pool : Pool) : ChainM Unit := do
  if pool.sequence = 0 then return
  modify fun s => { s with
    totalTransactionsCount := s.totalTransactionsCount - UInt64.ofNat pool.transactions.length }
  onWallets env fun ledger => WalletsCache.Updater.loadNextBlock ledger pool pool.confidants true
  removeWalletsInPoolFromCache pool
  forgetNonEmptyBlock pool
  forgetLastBlock removeSeq (pool.hash env.crypto)

def removeLastBlock (env : ChainEnv) : ChainM Unit := do
  let s ← get
  if s.blocksToBeRemoved = 0 then return
  let removeSeq := s.lastSequence
  let removeHash := s.blockHashes.find removeSeq
  let pool ← takeLastBlock
  if !pool.isValid then
    if removeHash = none then return
    let s ← get
    let (ok, storage) :=
      s.storage.poolRemoveLastRepair env.crypto env.evict removeSeq removeHash
    set { s with storage }
    if !ok then return
    forgetLastBlock removeSeq removeHash
  else dropBlock env removeSeq pool

def completeBlock (env : ChainEnv) (pool : Pool) (bySync : Bool) : ChainM Pool := do
  let pool := setTransactionsFees env pool
  if bySync then
    let _ ← updateWalletIds pool
    return pool
  else addNewWalletsToPool env pool

def storeBlock (env : ChainEnv) (pool : Pool) (bySync : Bool) : ChainM Bool := do
  let s ← get
  let poolSequence := pool.sequence
  if poolSequence ≤ s.lastSequence then return true
  if (pool.numberConfirmations = 0 || pool.roundConfirmations.length = 0) && poolSequence > 1 then
    return false
  if poolSequence = s.lastSequence + 1 then
    if pool.previousHash ≠ s.getLastHash env then
      if pool.previousHash = none then return false
      removeLastBlock env
      return false
    let pool ← completeBlock env pool bySync
    let (recorded, pool) ← recordBlock env pool false
    if recorded then
      modify ({ · with blocksToBeRemoved := 1 })
      return true
    removeWalletsInPoolFromCache pool
    if (← get).lastSequence = poolSequence then
      modify fun s => { s with lastSequence := s.lastSequence - 1, deferredBlock := .new }
    return false
  if (s.cachedBlocks.find poolSequence).isSome then return true
  modify fun s => { s with cachedBlocks := s.cachedBlocks.emplace poolSequence ⟨pool, bySync⟩ }
  return true

/-- The loop of `testCachedBlocks` over the cached blocks in their order. A block that is stored
leaves the cache, and storing the next block of the chain adds nothing to it. -/
def storeCachedBlocks (env : ChainEnv) : List (Sequence × BlockMeta) → Sequence → ChainM Unit
  | [], _ => pure ()
  | (seq, data) :: rest, lastSeq =>
    if seq = lastSeq then do
      let ok ← storeBlock env data.pool data.bySync
      modify fun s => { s with cachedBlocks := s.cachedBlocks.eraseFirst }
      if ok then storeCachedBlocks env rest (lastSeq + 1)
    else pure ()

def testCachedBlocks (env : ChainEnv) : ChainM Unit := do
  let lastSeq := (← get).lastSequence + 1
  modify fun s => { s with cachedBlocks := s.cachedBlocks.eraseBefore lastSeq }
  storeCachedBlocks env (← get).cachedBlocks.entries lastSeq

def tryFlushDeferredBlock (env : ChainEnv) : ChainM Unit := do
  let s ← get
  if s.deferredBlock.isValid && s.deferredBlock.readOnly &&
      checkSignatures env.crypto s.deferredBlock then
    if ← flushDeferredBlock env then
      modify ({ · with deferredBlock := .new })

/-- The block that `updateLastBlock` builds from the deferred one and a round package. -/
def updatedBlock (rPackage : RoundPackage) (poolFrom : Pool) : Pool :=
  let p : Pool := { Pool.new with
    isValid := true
    sequence := poolFrom.sequence
    previousHash := poolFrom.previousHash
    realTrusted := maskToBits rPackage.realTrustedMask
    numberTrusted := UInt8.ofNat rPackage.realTrustedMask.length
    roundCost := poolFrom.roundCost
    confidants := poolFrom.confidants
    transactions := poolFrom.transactions.filter Transaction.isValid
    userFields := OrdMap.empty.emplace 0 (.string rPackage.timestamp)
    smartSignatures := poolFrom.smartSignatures
    newWallets := poolFrom.newWallets }
  if rPackage.sequenceNumber > 1 then
    { p with
      numberConfirmations := poolFrom.numberConfirmations
      roundConfirmationMask := poolFrom.roundConfirmationMask
      roundConfirmations := poolFrom.roundConfirmations }
  else p

def deferredBlockExchange (env : ChainEnv) (rPackage : RoundPackage) (newPool : Pool) :
    ChainM Bool := do
  let pool := (newPool.setSignatures rPackage.poolSignatures).compose env.crypto
  modify fun s => { s with
    deferredBlock := pool
    blockHashes := s.blockHashes.update pool.sequence (pool.hash env.crypto) }
  return NodeUtils.checkGroupSignature env.crypto pool.confidants rPackage.realTrustedMask
    rPackage.poolSignatures (blockHash env.crypto pool)

def updateLastBlock (env : ChainEnv) (rPackage : RoundPackage) : ChainM Bool := do
  let poolFrom := (← get).deferredBlock
  if poolFrom.sequence ≠ rPackage.sequenceNumber then return false
  if poolFrom.signatures.length ≥ rPackage.poolSignatures.length then return true
  if poolFrom.previousHash ≠ rPackage.previousHash then return false
  deferredBlockExchange env rPackage (updatedBlock rPackage poolFrom)

/-! ## Synchronisation -/

abbrev SequenceInterval := Sequence × Sequence

/-- The loop of `getRequiredBlocks` over the cached blocks behind the one with `sequence`. -/
def intervalsBetween : Sequence → List (Sequence × BlockMeta) → List SequenceInterval
  | _, [] => []
  | sequence, (cached, _) :: rest =>
    if cached ≠ sequence + 1 then (sequence + 1, cached - 1) :: intervalsBetween cached rest
    else intervalsBetween (sequence + 1) rest

def getRequiredBlocks (s : BlockChain) (currentRoundNumber : UInt64) : List SequenceInterval :=
  let firstSequence := s.lastSequence + 1
  if firstSequence ≥ currentRoundNumber then []
  else
    let roundNumber :=
      if currentRoundNumber > 0 then max firstSequence (currentRoundNumber - 1) else 0
    let vec :=
      match s.cachedBlocks.upperBound firstSequence with
      | [] => [(firstSequence, roundNumber)]
      | (sequence, _) :: rest => (firstSequence, sequence - 1) :: intervalsBetween sequence rest
    match s.cachedBlocks.entries.getLast? with
    | some (lastCachedBlock, _) =>
      if roundNumber > lastCachedBlock then vec ++ [(lastCachedBlock, roundNumber)] else vec
    | none => vec

end BlockChain

end CreditsNode
