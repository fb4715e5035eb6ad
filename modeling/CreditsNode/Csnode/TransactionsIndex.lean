import CreditsNode.Csnode.BlockChain

/-!
# The index of transactions

`TransactionsIndex` has, for every block and every public key with a transaction in it, the block
before it with a transaction of that key. `TransactionsIterator` goes from the last transaction of a
key back through the blocks, and `BlockChain::getTransactions` lists a part of what it finds.

The storage is the list of the blocks here. Time stamps and errors of the index database are left
out.
-/

namespace CreditsNode

open ByteCodec Effect

def getTrxIndexKey (pubKey : PublicKey) (seq : Sequence) : Bytes := pubKey.toList ++ putU64 seq

/-- `TransactionsIndex` with the table it writes to. -/
structure TransactionsIndex where
  db : AList fun _ : Bytes => Sequence
  lastIndexedPool : Sequence
  recreate : Bool
  lapoos : AList fun _ : Address => Sequence

def TransactionsIndex.new (recreate : Bool) : TransactionsIndex := ⟨∅, kWrongSequence, recreate, ∅⟩

def TransactionID.isValid (id : TransactionID) : Bool := id.poolSeq ≠ kWrongSequence

/-- The chain as the index and the iterator see it. -/
structure IndexedChain where
  blocks : List Pool
  walletIds : WalletsIds
  wallets : WalletsCache
  trxIndex : TransactionsIndex

namespace IndexedChain

def new (recreate : Bool) : IndexedChain := ⟨[], .new, .new, .new recreate⟩

section Reading

variable (c : IndexedChain)

def loadBlock (sequence : Sequence) : Pool := c.blocks.getD sequence.toNat .new

def getAddressByType (addr : Address) : Address :=
  match addr with
  | .publicKey _ => addr
  | .walletId id => (c.walletIds.findaddr id).getD addr

def isEqual (laddr raddr : Address) : Bool := c.getAddressByType laddr = c.getAddressByType raddr

def getLastTransaction (addr : Address) : TransactionID :=
  match c.wallets.findWallet (c.getAddressByType addr).toPublicKey with
  | none => .new
  | some wallet => wallet.lastTransaction

def getPrevTransBlock (addr : Address) (prev : Sequence) : Sequence :=
  (c.trxIndex.db.lookup (getTrxIndexKey (c.getAddressByType addr).toPublicKey prev)).getD
    kWrongSequence

def getPreviousPoolSeq (addr : Address) (ps : Sequence) : Sequence :=
  let prevSeq := c.getPrevTransBlock addr ps
  if prevSeq = ps then kWrongSequence else prevSeq

end Reading

/-! ## New blocks -/

/-- What `updateFromNextBlock` of the index does with an address, if it has not seen its key in the
block. The block that an entry would link to itself is reported in the log only. -/
def indexAddress (c : IndexedChain) (pool : Pool) (state : TransactionsIndex × List Address)
    (addr : Address) : TransactionsIndex × List Address :=
  let (index, indexedAddrs) := state
  let key := c.getAddressByType addr
  if key ∈ indexedAddrs then state
  else
    let lapoo := if index.recreate then (index.lapoos.lookup key).getD kWrongSequence
      else (c.getLastTransaction key).poolSeq
    let lapoos := if index.recreate then index.lapoos.insert key pool.sequence else index.lapoos
    let db := if lapoo ≠ pool.sequence then
        index.db.insert (getTrxIndexKey key.toPublicKey pool.sequence) lapoo
      else index.db
    ({ index with db, lapoos }, key :: indexedAddrs)

def updateIndex (c : IndexedChain) (pool : Pool) : TransactionsIndex :=
  let addresses := pool.transactions.flatMap fun tr => [tr.source, tr.target]
  { (addresses.foldl (c.indexAddress pool) (c.trxIndex, [])).1 with
    lastIndexedPool := pool.sequence }

def ledgerEnv (env : ChainEnv) (c : IndexedChain) : LedgerEnv where
  walletsIds := c.walletIds
  loadBlock := c.loadBlock
  toAmount := env.toAmount
  toAmount_fraction := env.toAmount_fraction

abbrev IndexM := EStateM Fault IndexedChain

def updateWallets (env : ChainEnv) (pool : Pool) : IndexM Unit := do
  let c ← get
  match WalletsCache.Updater.loadNextBlock
    (c.ledgerEnv env) pool pool.confidants false c.wallets with
  | .ok _ wallets => set { c with wallets }
  | .error e wallets =>
    set { c with wallets }
    throw e

def applyBlock (env : ChainEnv) (pool : Pool) : IndexM Unit := do
  modify fun c => { c with blocks := c.blocks ++ [pool] }
  modify fun c => { c with trxIndex := c.updateIndex pool }
  updateWallets env pool

/-! ## The iterator -/

/-- `TransactionsIterator`. The position in the block is the list of the transactions from it on, in
reverse order. -/
structure TransactionsIterator where
  addr : Address
  lapoo : Pool
  it : List Transaction

namespace TransactionsIterator

variable (c : IndexedChain)

/-- The test of the loops: the address sends or receives the transaction. -/
def touches (addr : Address) (tr : Transaction) : Bool :=
  c.isEqual tr.source addr || c.isEqual tr.target addr

def new (addr : Address) : Except Fault TransactionsIterator :=
  let lTrans := c.getLastTransaction addr
  let addr := c.getAddressByType addr
  if lTrans.isValid then
    let lapoo := c.loadBlock lTrans.poolSeq
    if lTrans.index.toNat < lapoo.transactions.length then
      .ok ⟨addr, lapoo, lapoo.transactions.reverse.drop
        (lapoo.transactions.length - lTrans.index.toNat - 1)⟩
    else .error .undefined
  else .ok ⟨addr, .new, []⟩

def isValid (i : TransactionsIterator) : Bool := i.lapoo.isValid

/-- `*it_`. -/
def current (i : TransactionsIterator) : Except Fault Transaction :=
  match i.it with
  | [] => .error .undefined
  | tr :: _ => .ok tr

/-- The loop over blocks without transactions, for at most `fuel` of them. -/
def skipEmpty (addr : Address) : Nat → Pool → Except Fault Pool
  | 0, _ => .error .outOfFuel
  | fuel + 1, lapoo =>
    if lapoo.isValid && lapoo.transactions.length = 0 then
      skipEmpty addr fuel (c.loadBlock (c.getPreviousPoolSeq addr lapoo.sequence))
    else .ok lapoo

/-- `next`, for at most `fuel` calls. -/
def next : Nat → TransactionsIterator → Except Fault TransactionsIterator
  | 0, _ => .error .outOfFuel
  | fuel + 1, i =>
    match i.it with
    | [] => .error .undefined
    | _ :: rest =>
      match rest.dropWhile fun tr => !touches c i.addr tr with
      | tr :: rest => .ok { i with it := tr :: rest }
      | [] => do
        let ps := c.getPreviousPoolSeq i.addr i.lapoo.sequence
        let lapoo ← skipEmpty c i.addr fuel (c.loadBlock ps)
        let i := { i with lapoo, it := lapoo.transactions.reverse }
        if lapoo.isValid then
          let tr ← i.current
          if !touches c i.addr tr then next fuel i else return i
        else return i

/-- The transactions that the iterator goes through until it is not valid any more. -/
def rest (fuel : Nat) : Nat → TransactionsIterator → Except Fault (List Transaction)
  | 0, _ => .error .outOfFuel
  | steps + 1, i => do
    if !i.isValid then return []
    let tr ← i.current
    return tr :: (← rest fuel steps (← i.next c fuel))

end TransactionsIterator

def getTransactionsFrom (c : IndexedChain) (fuel : Nat) :
    Nat → TransactionsIterator → UInt64 → UInt64 → Except Fault (List Transaction)
  | 0, _, _, _ => .error .outOfFuel
  | steps + 1, i, offset, limit => do
    if !i.isValid then return []
    if offset > 0 then getTransactionsFrom c fuel steps (← i.next c fuel) (offset - 1) limit
    else
      let tr ← i.current
      let limit := limit - 1
      if limit = 0 then return [tr]
      else return tr :: (← getTransactionsFrom c fuel steps (← i.next c fuel) offset limit)

def getTransactions (c : IndexedChain) (fuel : Nat) (address : Address) (offset limit : UInt64) :
    Except Fault (List Transaction) := do
  getTransactionsFrom c fuel fuel (← TransactionsIterator.new c address) offset limit

/-- All that the iterator of an address goes through. -/
def enumerate (c : IndexedChain) (fuel : Nat) (address : Address) :
    Except Fault (List Transaction) := do
  TransactionsIterator.rest c fuel fuel (← TransactionsIterator.new c address)

/-! ## What the address has sent and received -/

/-- The transactions of the chain whose source or target is the address, newest first. -/
def history (c : IndexedChain) (address : Address) : List Transaction :=
  ((c.blocks.flatMap Pool.transactions).filter (TransactionsIterator.touches c address)).reverse

def Known (c : IndexedChain) (addr : Address) : Prop :=
  match addr with
  | .publicKey _ => True
  | .walletId id => (c.walletIds.findaddr id).isSome = true

/-- The block is the next one, and its transactions are numbered. -/
structure Appends (c : IndexedChain) (pool : Pool) : Prop where
  isValid : pool.isValid = true
  sequence : pool.sequence.toNat = c.blocks.length
  proper : pool.sequence ≠ kWrongSequence
  size : pool.transactions.length < 2 ^ 64
  ids : ∀ i (tr : Transaction), pool.transactions[i]? = some tr →
    tr.id = ⟨pool.sequence, UInt64.ofNat i⟩

/-- The chains to which blocks have only been added, each of them with the property. -/
inductive Built (env : ChainEnv) (recreate : Bool) (P : IndexedChain → Pool → Prop) :
    IndexedChain → Prop
  | new : Built env recreate P (.new recreate)
  | insertId {c : IndexedChain} {address : Address} {id : WalletId} {r : Bool} {ids : WalletsIds} :
      Built env recreate P c → WalletsIds.insert address id c.walletIds = .ok r ids →
      Built env recreate P { c with walletIds := ids }
  | getId {c : IndexedChain} {address : Address} {r : WalletId × Bool} {ids : WalletsIds} :
      Built env recreate P c → WalletsIds.getId address c.walletIds = .ok r ids →
      Built env recreate P { c with walletIds := ids }
  | block {c d : IndexedChain} {pool : Pool} : Built env recreate P c → c.Appends pool → P c pool →
      applyBlock env pool c = .ok () d → Built env recreate P d

def Regular (c : IndexedChain) (pool : Pool) : Prop :=
  ∀ tr ∈ pool.transactions, c.Known tr.source ∧ c.Known tr.target ∧
    ¬ (SmartContracts.isExecutable tr = true ∧ SmartContracts.isNewState tr = true)

end IndexedChain

end CreditsNode
