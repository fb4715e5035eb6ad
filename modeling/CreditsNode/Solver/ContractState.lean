import CreditsNode.Csnode.DataStream
import CreditsNode.Solver.SmartContracts
import Mathlib.Data.List.AList

/-!
# Contract states from the network

A node that has no state for a contract asks other nodes for it. `net_update_contract_state` looks
for the transaction of the chain that records the state and compares the hash, and then stores the
state in the table of contracts and in the database (`dbcache_update`). A state that comes with a
transaction is stored by `update_contract_state`, unless the references of the item and of the
database are newer.

How the state is found when the transaction has only its hash is a parameter. Of a contract only
what is read or written on the way is kept.
-/

namespace CreditsNode

open ByteCodec Effect

/-- `operator<`. -/
def SmartContractRef.lt (l r : SmartContractRef) : Bool :=
  if !l.isValid then r.isValid
  else if !r.isValid then false
  else l.sequence < r.sequence || (l.sequence = r.sequence && l.transaction < r.transaction)

def SmartContractRef.ofId (id : TransactionID) : SmartContractRef :=
  if id.poolSeq ≠ kWrongSequence then ⟨id.poolSeq, id.index⟩ else .invalid

/-- `operator>`. -/
def SmartContractRef.gt (l r : SmartContractRef) : Bool :=
  if !r.isValid then l.isValid
  else if !l.isValid then false
  else r.sequence < l.sequence || (l.sequence = r.sequence && r.transaction < l.transaction)

/-- `SmartContracts::StateItem`. -/
structure StateItem where
  refExecute : SmartContractRef := .invalid
  refCache : SmartContractRef := .invalid
  state : Bytes := []
  refDeploy : SmartContractRef := .invalid
  refState : SmartContractRef := .invalid
  deploy : Transaction := .new
  execute : Transaction := .new
deriving DecidableEq

/-- The states of contracts, in the table and in the database. -/
structure ContractStates where
  knownContracts : AList fun _ : Address => StateItem
  /-- The table `contracts` of the database. -/
  contractData : AList fun _ : PublicKey => Bytes

/-- What is asked of the chain and of the database. -/
structure ContractEnv where
  crypto : Crypto
  loadBlock : Sequence → Pool
  absoluteAddress : Address → Address
  /-- Whether a write to the database succeeds. -/
  writable : Bool

namespace ContractStates

variable (env : ContractEnv)

def maxRoundsCancelContract : UInt64 := 100

/-- A container as a buffer; no container is larger than the largest object. -/
def bufferOf (data : Bytes) : Buffer :=
  ⟨data.take ptrdiffMax, by rw [List.length_take]; exact Nat.min_le_left _ _⟩

/-! ## The database -/

/-- The reference at the beginning of the data; what cannot be read is zero. -/
def parseRef (buffer : Buffer) : DataStream.Parse SmartContractRef := do
  let sequence ← DataStream.parseSize buffer
  let transaction ← DataStream.parseSize buffer
  return { sequence, transaction }

/-- The data as they are written. -/
def encode (ref : SmartContractRef) (state : Bytes) : Bytes :=
  putU64 ref.sequence ++ putU64 ref.transaction ++ putU64 (.ofNat state.length) ++ state

variable (s : ContractStates)

/-- `dbcache_update` stores a state only if it is newer than the one that is there. -/
def newerThanCached (absAddr : Address) (refStart : SmartContractRef) : Bool :=
  match s.contractData.lookup absAddr.toPublicKey with
  | none => true
  | some currentData =>
    match parseRef (bufferOf currentData) {} with
    | .ok currentRef _ =>
      if refStart.sequence < currentRef.sequence then false
      else !(currentRef.sequence = refStart.sequence &&
        refStart.transaction ≤ currentRef.transaction)
    | .error _ _ => false

def dbcacheUpdate (absAddr : Address) (refStart : SmartContractRef)
    (state : Bytes) : Bool × ContractStates :=
  if !s.newerThanCached absAddr refStart then (false, s)
  else if !env.writable then (false, s)
  else (true, { s with
    contractData := s.contractData.insert absAddr.toPublicKey (encode refStart state) })

/-! ## The table of contracts -/

def inKnownContracts (addr : Address) : Bool :=
  (s.knownContracts.lookup (env.absoluteAddress addr)).isSome

def item (addr : Address) : StateItem := (s.knownContracts.lookup addr).getD {}

def setItem (addr : Address) (item : StateItem) : ContractStates :=
  { s with knownContracts := s.knownContracts.insert addr item }

/-! ## The answer of a node -/

def refersTo (ref : SmartContractRef) (t : Transaction) : Except Fault Bool :=
  if SmartContracts.isNewState t then do
    let start ← SmartContractRef.fromUserField (t.userField TrxUf.newStateRefStart)
    return start = ref
  else return false

def findNewState (ref : SmartContractRef) : List Transaction → Except Fault (Option Transaction)
  | [] => return none
  | t :: rest => do
    if ← refersTo ref t then return some t else findNewState ref rest

/-- The sequences of the loop over the blocks. The bound is a sum in 64 bits. -/
def window (ref : SmartContractRef) : List Sequence :=
  if ref.sequence < ref.sequence + maxRoundsCancelContract then
    (List.range maxRoundsCancelContract.toNat).map fun i => ref.sequence + .ofNat i
  else []

def searchBlocks (ref : SmartContractRef) : List Sequence → Except Fault (Option Transaction)
  | [] => return none
  | sequence :: rest => do
    let block := env.loadBlock sequence
    let found ← if block.isValid then findNewState ref block.transactions else pure none
    match found with
    | some t => return some t
    | none => searchBlocks ref rest

def recordsHash (crypto : Crypto) (t : Transaction) (state : Bytes) : Bool :=
  UserField.stringValue (t.userField TrxUf.newStateHash) =
    if state = [] then List.replicate 32 0 else (crypto.calculateHash state).toList

/-- What the data say, if they can be read to their end. -/
def received (contractData : Buffer) : Except Fault (Option (SmartContractRef × Bytes)) :=
  let parse : DataStream.Parse (SmartContractRef × Bytes) := do
    let ref ← parseRef contractData
    let state ← DataStream.parseString contractData
    return (ref, state)
  match parse {} with
  | .ok data stream =>
    .ok (if DataStream.isValid contractData stream && !DataStream.isAvailable contractData 1 stream
      then some data else none)
  | .error fault _ => .error fault

/-- How `net_update_contract_state` ends, as the log says it. -/
inductive NetUpdate where
  /-- "ignore incompatible net package". -/
  | incompatible
  /-- "ignore outdated … state". -/
  | outdated
  /-- "state received does not match hash value". -/
  | mismatch
  | outdatedPackage
  /-- "state has updated from net package". -/
  | updated
deriving DecidableEq, Repr

def storeState (addr : Address) (ref : SmartContractRef) (state : Bytes) :
    NetUpdate × ContractStates :=
  match s.dbcacheUpdate env addr ref state with
  | (true, s) =>
    if s.inKnownContracts env addr then
      (.updated, s.setItem addr { s.item addr with state, refCache := ref, refExecute := ref })
    else (.updated, s)
  | (false, s) => (.outdatedPackage, s)

def netUpdateContractState (contractAbsAddr : Address) (contractData : Buffer) :
    Except Fault (NetUpdate × ContractStates) := do
  match ← received contractData with
  | none => return (.incompatible, s)
  | some (ref, state) =>
    if s.inKnownContracts env contractAbsAddr then
      -- `operator[]` makes an item if there is none
      let s := s.setItem contractAbsAddr (s.item contractAbsAddr)
      if (s.item contractAbsAddr).refExecute.gt ref then return (.outdated, s)
      else
        match ← searchBlocks env ref (window ref) with
        | none => return s.storeState env contractAbsAddr ref state
        | some t =>
          if !recordsHash env.crypto t state then return (.mismatch, s)
          else return s.storeState env contractAbsAddr ref state
    else return s.storeState env contractAbsAddr ref state

end ContractStates

/-! ## A state of the chain -/

/-- What else is asked of the node. -/
structure UpdateEnv extends ContractEnv where
  /-- The starting transaction of a queued execution, found by its reference. -/
  queued : SmartContractRef → Option Transaction
  /-- Whether the invocation has no method; `none` if the bytes cannot be deserialised, for which
  `cs::Serializer::deserialize` throws. -/
  methodIsEmpty : Bytes → Option Bool
  hashedState : ContractStates → Transaction → Bool → Transaction

namespace ContractStates

variable (env : UpdateEnv)

def dbcacheRead (s : ContractStates) (absAddr : Address) :
    Except Fault (Option (SmartContractRef × Bytes)) :=
  match s.contractData.lookup absAddr.toPublicKey with
  | none => .ok none
  | some data =>
    let buffer := bufferOf data
    let parse : DataStream.Parse (SmartContractRef × Bytes) := do
      let ref ← parseRef buffer
      let state ← DataStream.parseString buffer
      -- an obsolete format has the hash of a block here
      if DataStream.isAvailable buffer 8 (← get) && state.length = 32 then
        return (ref, ← DataStream.parseString buffer)
      else return (ref, state)
    match parse {} with
    | .ok cached stream =>
      .ok (if DataStream.isValid buffer stream && !DataStream.isAvailable buffer 1 stream
        then some cached else none)
    | .error fault _ => .error fault

def getActualState (s : ContractStates) (hashedState : Transaction) (readingDb : Bool) :
    Transaction :=
  if !SmartContracts.isNewState hashedState then .new
  else if (hashedState.userField TrxUf.newStateValue).isSome then hashedState
  else env.hashedState s hashedState readingDb

def getTransaction (s : ContractStates) (contract : SmartContractRef) (absAddr : Address) :
    Transaction :=
  match env.queued contract with
  | some transaction => transaction
  | none =>
    match s.knownContracts.lookup absAddr with
    | some item =>
      if item.refExecute = contract && item.execute.isValid then item.execute
      else if item.refDeploy = contract && item.deploy.isValid then item.deploy
      else SmartContracts.getTransaction env.loadBlock contract
    | none => SmartContracts.getTransaction env.loadBlock contract

def isDeploy (tr : Transaction) : Except Fault Bool :=
  if !SmartContracts.isExecutable tr then return false
  else
    match tr.userField TrxUf.deployCode with
    | none => return false
    | some uf =>
      match env.methodIsEmpty (UserField.stringValue (some uf)) with
      | none => throw (.exception "TProtocolException")
      | some methodIsEmpty => return methodIsEmpty

/-- The part of `update_contract_state` that writes to the database: `none` if it failed and the
state must not be taken. -/
def cacheState (s : ContractStates) (absAddr : Address) (refStart : SmartContractRef)
    (stateValue : Bytes) (readingDb : Bool) : Except Fault (Option ContractStates) :=
  let item := s.item absAddr
  if !item.refCache.isValid || item.refCache.lt refStart || item.refCache = refStart then
    match s.dbcacheUpdate env.toContractEnv absAddr refStart stateValue with
    | (true, s) => return some (s.setItem absAddr { item with refCache := refStart })
    | (false, s) =>
      if readingDb then do
        match ← s.dbcacheRead absAddr with
        | some (refFromDb, stateFromDb) =>
          if stateFromDb ≠ [] then
            return some (s.setItem absAddr { item with refCache := refFromDb })
          else return some s
        | none => return some s
      else return none
  else return some s

def updatedItem (t : Transaction) (refStart : SmartContractRef) (stateValue : Bytes)
    (tStart : Transaction) (deploy : Bool) (item : StateItem) : StateItem :=
  let item := { item with state := stateValue, refState := .ofId t.id }
  let item :=
    if deploy then
      { item with
        refDeploy := refStart
        deploy := if !item.deploy.isValid then tStart else item.deploy }
    else item
  { item with refExecute := refStart, execute := tStart }

/-- What `update_contract_state` returns, the transaction it signals and the states afterwards. -/
structure Update where
  result : Bool
  /-- `contract_state_updated`. -/
  signalled : Option Transaction
  states : ContractStates

def takeState (s : ContractStates) (t : Transaction) (refStart : SmartContractRef)
    (absAddr : Address) (readingDb : Bool) : Except Fault Update :=
  let tState := s.getActualState env t readingDb
  if !tState.isValid then return ⟨false, none, s⟩
  else
    let stateValue := UserField.stringValue (tState.userField TrxUf.newStateValue)
    if stateValue = [] then return ⟨false, none, s⟩
    else
      let tStart := s.getTransaction env refStart absAddr
      if !tStart.isValid then return ⟨false, none, s⟩
      else do
        let deploy ← isDeploy env tStart
        -- `operator[]` makes an item if there is none
        let s := s.setItem absAddr (s.item absAddr)
        match ← s.cacheState env absAddr refStart stateValue readingDb with
        | none => return ⟨false, none, s⟩
        | some s =>
          return ⟨true, some tState,
            s.setItem absAddr (updatedItem t refStart stateValue tStart deploy (s.item absAddr))⟩

/-- The item has this state already, or a newer one. -/
def isOutdated (item : StateItem) (refStart : SmartContractRef) : Bool :=
  item.refExecute.isValid && (item.refExecute = refStart || refStart.lt item.refExecute)

def updateContractState (s : ContractStates) (t : Transaction) (readingDb : Bool) :
    Except Fault Update :=
  match t.userField TrxUf.newStateRefStart with
  | none => return ⟨false, none, s⟩
  | some fld => do
    let refStart ← SmartContractRef.fromUserField (some fld)
    let absAddr := env.absoluteAddress t.target
    if s.inKnownContracts env.toContractEnv absAddr then
      let s := s.setItem absAddr (s.item absAddr)
      if isOutdated (s.item absAddr) refStart then return ⟨true, none, s⟩
      else s.takeState env t refStart absAddr readingDb
    else s.takeState env t refStart absAddr readingDb

end ContractStates

end CreditsNode
