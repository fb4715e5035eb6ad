import CreditsNode.Solver.TrustedStage2State
import CreditsNode.Csnode.Conveyer

/-!
# The first stage of a round

`cs::TrustedStage1State` validates the transactions of the round and collects the hashes of the last
block that other nodes report. It may be left when the transactions are checked, enough hashes are
that of the node itself, and a minimal time has passed. `SolverCore` reports a hash at once, unless
the last block is still missing, and all hashes again after the packets of the round have been
synchronised; other states ignore them.
-/

namespace CreditsNode

open ByteCodec Effect

namespace Consensus

def maxStageOneHashes : Nat := 100
def maxStageOneTransactions : Nat := 1000
def maxPreliminaryBlockSize : Nat := 1024 * 1024
def maxTransactionSize : Nat := 100 * 1024

end Consensus

/-- `cs::StageHash`. -/
structure StageHash where
  hash : PoolHash
  sender : PublicKey
  trustedSize : UInt8
  realTrustedSize : UInt8
  timeStamp : UInt64
  round : UInt64
deriving DecidableEq

/-- `TrustedStage1State`. -/
structure TrustedStage1State where
  enoughHashes : Bool
  transactionsChecked : Bool
  minTimeExpired : Bool
  stage : StageOne
  likeMineHashes : Nat
  differentHashes : Nat
  differKeys : List PublicKey

/-- What is sent because of a hash. -/
inductive HashRequest where
  | askTrustedRound (round : UInt64) (confidants : List PublicKey)
  | sendHashReply (hash : PoolHash) (respondent : PublicKey)

/-- `enough_hashes` was set: the confidants of the round at that time, and the senders whose hash
was the same. -/
structure Agreement where
  confidants : List PublicKey
  candidates : List PublicKey
deriving DecidableEq

/-- What the first stage uses of the rest of the node and does not change. -/
structure FirstStageContext where
  calculateHash : Bytes → Bytes → Hash
  buildVector : TransactionsPacket → List TransactionsPacket → Hash
  /-- `finalizeStage`: the time stamp, the hash and the signature of the message. -/
  finalizeStage : StageOne → StageOne

/-- The core in its round, with the state object of the first stage. -/
structure HashSolver where
  solver : Solver
  conveyer : Conveyer
  /-- `getLastHash` and `getLastSeq` of the chain. -/
  lastHash : PoolHash
  lastSeq : Sequence
  stage1 : TrustedStage1State
  recvHash : List StageHash
  grayList : AList fun _ : PublicKey => UInt16
  requests : List HashRequest
  agreements : List Agreement

namespace HashSolver

abbrev HashM := EStateM Fault HashSolver

/-- An operation of the rest of the core. -/
def inSolver {α : Type} (m : Solver.SolverM α) : HashM α := fun s =>
  match m s.solver with
  | .ok a solver => .ok a { s with solver }
  | .error e solver => .error e { s with solver }

/-- `confidants()` of the conveyer. -/
def confidants (s : HashSolver) : List PublicKey := s.solver.context.trusted

variable (env : FirstStageContext)

def spoileHash (hashToSpoil : PoolHash) (pKey : PublicKey) : PoolHash :=
  some (env.calculateHash (hashToSpoil.elim [] fun hash => hash.toList) pKey.toList)

/-! ## The transactions -/

/-- The sizes of the transactions of a packet, with the flags they set. -/
structure PacketSize where
  preliminaryBlockSize : Nat
  finishFlag : Bool := false
  continueFlag : Bool := false

def PacketSize.view (size : PacketSize) (transaction : Transaction) : PacketSize :=
  let tSize := transaction.put.length
  { preliminaryBlockSize := size.preliminaryBlockSize + tSize
    finishFlag := size.finishFlag ||
      decide (Consensus.maxPreliminaryBlockSize < size.preliminaryBlockSize + tSize)
    continueFlag := size.continueFlag || decide (Consensus.maxTransactionSize < tSize) }

/-- The hashes that are proposed, with the counters of the loop. -/
structure Proposal where
  trxCounter : Nat := 0
  preliminaryBlockSize : Nat := 0
  hashesCandidates : List TransactionsPacketHash

/-- The loop over the packets that are not in the round table already. -/
def Proposal.collect (hashes : List (Option Hash)) :
    List (Sigma fun _ : Option Hash => TransactionsPacket) → Proposal → Proposal
  | [], proposal => proposal
  | element :: table, proposal =>
    if element.1 ∈ hashes then proposal.collect hashes table
    else
      let trxCounter := proposal.trxCounter + element.2.transactions.length
      let size := element.2.transactions.foldl PacketSize.view
        { preliminaryBlockSize := proposal.preliminaryBlockSize }
      if Consensus.maxStageOneHashes < proposal.hashesCandidates.length ∨
          Consensus.maxStageOneTransactions < trxCounter ∨ size.finishFlag then proposal
      else if size.continueFlag then proposal.collect hashes table
      else
        Proposal.collect hashes table
          { trxCounter
            preliminaryBlockSize := size.preliminaryBlockSize
            hashesCandidates := proposal.hashesCandidates ++
              [element.1.elim [] fun hash => hash.toList] }

def onSyncTransactions (round : UInt64) : HashM StageResult := do
  let s ← get
  if round < s.solver.context.currentRoundNumber then return .ignore
  else
    match s.conveyer.createPacket round with
    | none => return .ignore
    | some (packet, smartContractPackets) =>
      match s.conveyer.getMeta s.solver.context.currentRoundNumber with
      | none => throw .undefined
      | some element =>
        let proposal := Proposal.collect element.hashes s.conveyer.packetsTable.entries
          { hashesCandidates := s.stage1.stage.hashesCandidates }
        set { s with stage1 := { s.stage1 with
          transactionsChecked := true
          stage := { s.stage1.stage with
            hash := env.buildVector packet smartContractPackets
            hashesCandidates := proposal.hashesCandidates } } }
        return if s.stage1.enoughHashes && s.stage1.minTimeExpired then .finish else .ignore

/-! ## The hashes -/

def askTrustedRound (s : HashSolver) : HashSolver :=
  { s with requests := s.requests ++
    [.askTrustedRound s.solver.context.currentRoundNumber s.stage1.differKeys] }

def agree (s : HashSolver) : HashSolver :=
  { s with
    stage1 := { s.stage1 with enoughHashes := true }
    agreements := s.agreements ++ [⟨s.confidants, s.stage1.stage.trustedCandidates⟩] }

def checkAgreement : HashM StageResult := do
  let s ← get
  if Consensus.minTrustedNodes ≤ s.stage1.stage.trustedCandidates.length then
    if s.confidants.length / 2 ≤ s.stage1.likeMineHashes then
      modify agree
      return if s.stage1.transactionsChecked && s.stage1.minTimeExpired then .finish else .ignore
    else if s.confidants.length / 2 ≤ s.stage1.differentHashes then
      modify askTrustedRound
      return .ignore
    else return .ignore
  else return .ignore

def countMatching (sender : PublicKey) (s : HashSolver) : HashSolver :=
  { s with stage1 := { s.stage1 with
    likeMineHashes := if sender ∈ s.confidants then s.stage1.likeMineHashes + 1
      else s.stage1.likeMineHashes
    stage := { s.stage1.stage with
      trustedCandidates := if sender ∈ s.stage1.stage.trustedCandidates then
          s.stage1.stage.trustedCandidates
        else s.stage1.stage.trustedCandidates ++ [sender] } } }

def countDifferent (hash : PoolHash) (sender : PublicKey) (s : HashSolver) : HashSolver :=
  let s := if sender ∈ s.confidants then
      { s with stage1 := { s.stage1 with
        differentHashes := s.stage1.differentHashes + 1
        differKeys := s.stage1.differKeys ++ [sender] } }
    else { s with requests := s.requests ++ [.sendHashReply hash sender] }
  if s.confidants.length / 2 ≤ s.stage1.differentHashes then askTrustedRound s else s

/-- `TrustedStage1State::onHash`. -/
def onHash (hash : PoolHash) (sender : PublicKey) : HashM StageResult := do
  let s ← get
  if spoileHash env s.lastHash sender = hash then
    modify (countMatching sender)
    checkAgreement
  else
    modify (countDifferent hash sender)
    return .ignore

/-! ## The state -/

/-- `TrustedStage1State::on`, without the timer. -/
def on (s : HashSolver) : HashSolver :=
  { s with stage1 :=
    { enoughHashes := false
      transactionsChecked := false
      minTimeExpired := false
      stage :=
        { sender := s.solver.context.ownConfNumber
          hash := zeroArray 32
          trustedCandidates := []
          hashesCandidates := [] }
      likeMineHashes := 0
      differentHashes := 0
      differKeys := [] } }

/-- The message that `TrustedStage1State::off` stores. -/
def ownStage (s : HashSolver) : Option StageOne :=
  if s.stage1.minTimeExpired && s.stage1.transactionsChecked && s.stage1.enoughHashes then
    some (env.finalizeStage s.stage1.stage)
  else none

def handleTransitions (evt : CoreEvent) : HashM Unit := do
  let s ← get
  inSolver (Solver.handleTransitions evt (ownStage env s))
  if transitions s.solver.state evt = some .trusted1 then modify on

/-! ## The core -/

def reportHash (item : StageHash) : HashM Unit := do
  if (← get).solver.state = .trusted1 then
    let result ← onHash env item.hash item.sender
    if result = .finish then handleTransitions env .hashes

def reportSync (rNum : UInt64) : HashM Unit := do
  if (← get).solver.state = .trusted1 then
    let result ← onSyncTransactions env rNum
    if result = .finish then handleTransitions env .transactions

/-- The hash is kept. An earlier one of the sender is dropped if it was sent with fewer
confidants. -/
def keepHash (sHash : StageHash) (s : HashSolver) : HashSolver :=
  { s with recvHash := (s.recvHash.eraseP fun sh => sHash.sender = sh.sender &&
    decide (sh.realTrustedSize < sHash.realTrustedSize) &&
    sHash.round = s.solver.context.currentRoundNumber) ++ [sHash] }

def gotHash (sHash : StageHash) : HashM Unit := do
  let s ← get
  if (s.grayList.lookup sHash.sender).isSome then return ()
  else if !s.solver.context.checkNodeCache sHash.sender then return ()
  else
    modify (keepHash sHash)
    if 1 < s.solver.context.currentRoundNumber - s.lastSeq then return ()
    else reportHash env sHash

def gotConveyerSync (rNum : UInt64) : HashM Unit := do
  modify fun s => { s with solver.core.markUntrusted := fun _ => 0 }
  reportSync env rNum
  let s ← get
  if s.solver.context.currentRoundNumber = rNum then s.recvHash.forM (reportHash env)

/-- The timer of `on`. -/
def minTimeExpired : HashM Unit := do
  modify fun s => { s with stage1.minTimeExpired := true }
  let s ← get
  if s.stage1.transactionsChecked && s.stage1.enoughHashes then handleTransitions env .hashes

def nextRound (context : RoundContext) (conveyer : Conveyer) (updateRound : Bool) : HashM Unit := do
  modify fun s => { s with conveyer, recvHash := if updateRound then s.recvHash else [] }
  inSolver (Solver.nextRound context)

/-- What happens to the core. -/
inductive Op where
  | nextRound (context : RoundContext) (conveyer : Conveyer) (updateRound : Bool)
  | event (evt : CoreEvent)
  | setLastBlock (hash : PoolHash) (sequence : Sequence)
  /-- The packets that the conveyer holds have changed. -/
  | setConveyer (conveyer : Conveyer)
  | setGrayList (grayList : AList fun _ : PublicKey => UInt16)
  | gotHash (sHash : StageHash)
  | gotConveyerSync (rNum : UInt64)
  | minTimeExpired

def Op.exec : Op → HashM Unit
  | .nextRound context conveyer updateRound => HashSolver.nextRound context conveyer updateRound
  | .event evt => handleTransitions env evt
  | .setLastBlock hash sequence => modify fun s => { s with lastHash := hash, lastSeq := sequence }
  | .setConveyer conveyer => modify fun s => { s with conveyer }
  | .setGrayList grayList => modify fun s => { s with grayList }
  | .gotHash sHash => HashSolver.gotHash env sHash
  | .gotConveyerSync rNum => HashSolver.gotConveyerSync env rNum
  | .minTimeExpired => HashSolver.minTimeExpired env

/-- An operation shows when `enough_hashes` is set. An exception leaves the core as it is when it is
thrown; there is no next state after undefined behaviour. -/
def step (op : Op) (s : HashSolver) : Option (List Agreement × HashSolver) :=
  match op.exec env { s with agreements := [] } with
  | .ok _ t => some (t.agreements, t)
  | .error (.exception _) t => some (t.agreements, t)
  | .error _ _ => none

end HashSolver

end CreditsNode
