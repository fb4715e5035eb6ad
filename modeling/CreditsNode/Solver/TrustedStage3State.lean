import CreditsNode.Solver.SolverCore

/-!
# The third stage of a round

`cs::TrustedStage3State`: once a stage-2 message of every confidant has been counted, the node
compares the stage-1 signatures that they report, marks those it finds untrusted, elects the
confidants and packets of the next round, compares the characteristic hashes, and numbers the
confidants that are still trusted. `realTrustedMask` has these numbers, or `InvalidConfidantIndex`.
-/

namespace CreditsNode

open ByteCodec Effect

/-- `cs::Result`, what a state answers to an event. -/
inductive StageResult where
  | finish
  | ignore
  | failure
  | retry
deriving DecidableEq, Repr

/-- The members of the state, and the core that it works on. -/
structure TrustedStage3State where
  cntRecvStages : Nat
  stage : StageThree
  nextRoundTrust : List PublicKey
  nextRoundHashes : List TransactionsPacketHash
  core : SolverCore

namespace TrustedStage3State

abbrev Stage3M := EStateM Fault TrustedStage3State

/-- `vector::operator[]`. -/
def index {α : Type} (xs : List α) (i : Nat) : Except Fault α :=
  match xs[i]? with
  | some x => .ok x
  | none => .error .undefined

/-- `vector::at`. -/
def atIndex {α : Type} (xs : List α) (i : Nat) : Except Fault α :=
  match xs[i]? with
  | some x => .ok x
  | none => .error (.exception "out_of_range")

def mark (sender : UInt8) : Stage3M Unit :=
  modify fun s => { s with core := ConsensusContext.markUntrusted s.core sender }

def setTrustedMask (i : Nat) (value : UInt8) : Stage3M Unit := do
  let s ← get
  let _ ← lift (atIndex s.stage.realTrustedMask i)
  set { s with stage := { s.stage with realTrustedMask := s.stage.realTrustedMask.set i value } }

/-! ## Comparison of the stage-2 messages -/

variable (context : ConsensusContext)

/-- What a stage-1 message with the given hash is signed as in this round. -/
def toVerify (hash : Hash) : Bytes :=
  putU64 context.currentRoundNumber ++ putU8 context.subRound ++ hash.toList

/-- One iteration of the inner loop: the signature of confidant `j`, as the own message `ptr` and as
the message `it` have it. -/
def compareSignature (ptr it : StageTwo) (j : Nat) : Stage3M Unit := do
  let mine ← lift (index ptr.signatures j)
  let theirs ← lift (index it.signatures j)
  if mine ≠ theirs then
    let hash ← lift (index it.hashes j)
    if hash = zeroArray 32 then
      mark it.sender
    else
      -- the key is the one of the sender of the stage-2 message
      let key ← lift (atIndex context.trusted it.sender.toNat)
      if context.crypto.verifySignature theirs key (toVerify context hash) then
        mark (UInt8.ofNat j)
      else
        mark it.sender

def compareSignatures (ptr it : StageTwo) : Stage3M Unit :=
  (List.range context.cntTrusted).forM (compareSignature context ptr it)

/-- The loops over the proposed candidates: each one but the last is looked up, and compared with
those after it. -/
def badCandidates (context : ConsensusContext) : List PublicKey → Bool
  | [] => false
  | [_] => false
  | outer :: inner :: rest =>
    !context.checkNodeCache outer || (inner :: rest).contains outer ||
      badCandidates context (inner :: rest)

def screenCandidates (it : StageTwo) : Stage3M Unit := do
  let s ← get
  let candidates := ((s.core.findStage1 it.sender).map StageOne.trustedCandidates).getD []
  if candidates = [] then
    mark it.sender
  else if badCandidates context candidates then
    mark it.sender

/-- The body of the outer loop of `onStage2`. -/
def checkStage2 (ptr it : StageTwo) : Stage3M Unit := do
  if it.sender ≠ context.ownConfNumber then
    compareSignatures context ptr it
    screenCandidates context it

/-! ## Election -/

/-- The counters of `trusted_election`. -/
structure Election where
  candidatesElection : OrdMap PublicKey UInt8
  hashesElection : OrdMap TransactionsPacketHash UInt8
deriving DecidableEq

def countVote {κ : Type} [LinearOrder κ] (votes : OrdMap κ UInt8) (key : κ) : OrdMap κ UInt8 :=
  if (votes.find key).isSome then votes.modify key (· + 1) else votes.emplace key 1

/-- The votes of one stage-1 message; the number of candidates is cast to a byte. -/
def Election.add (votes : Election) (st : StageOne) : Election where
  candidatesElection :=
    (st.trustedCandidates.take (st.trustedCandidates.length % 256)).foldl countVote
      votes.candidatesElection
  hashesElection := st.hashesCandidates.foldl countVote votes.hashesElection

def electConfidant (votes : Election) (i : Nat) : Stage3M Election := do
  let s ← get
  if ConsensusContext.untrustedValue s.core (UInt8.ofNat i) = 0 then
    setTrustedMask i firstWriterIndex
    match s.core.findStage1 (UInt8.ofNat i) with
    | none => return votes
    | some st => return votes.add st
  else
    setTrustedMask i kUntrustedMarker
    return votes

/-- The number of confidants that `trusted_election` goes through. -/
def electionSize : Nat :=
  min (context.cntTrusted % 256) Consensus.maxTrustedNodes

def maxConf (candidates : Nat) : Nat :=
  if candidates < 4 then candidates
  else min (context.logConfidants candidates) Consensus.maxTrustedNodes

/-- `eLiars`, the estimated number of liars. -/
def eLiars (maxConf : Nat) : Nat := if maxConf > 5 then maxConf / 4 else 0

/-- `next_round_trust`: the candidates with the largest stakes, and others drawn at random. -/
def electTrust (votes : OrdMap PublicKey UInt8) :
    Except Fault (List PublicKey) := do
  let count := maxConf context votes.size
  let liars := eLiars count
  let stakers := context.sortStakers (votes.entries.map fun e => ⟨e.1, context.balance e.1⟩)
  let keys := stakers.map StakeHolder.key
  let belowThreshold := context.shuffle (keys.drop (count - liars))
  -- the iterator runs through the drawn keys without a test for the end
  if belowThreshold.length < liars then
    throw .undefined
  let aboveThreshold := context.shuffle (keys.take (count - liars) ++ belowThreshold.take liars)
  if aboveThreshold.length ≥ Consensus.minTrustedNodes then
    (List.range count).mapM (atIndex aboveThreshold)
  else
    return []

/-- `next_round_hashes`: the packets that more than `cr` confidants proposed. -/
def electHashes (cr : Nat) (votes : OrdMap TransactionsPacketHash UInt8) :
    List TransactionsPacketHash :=
  (votes.entries.filter fun e => e.2.toNat > cr).map Prod.fst

def trustedElection : Stage3M Unit := do
  modify fun s => { s with nextRoundTrust := [], nextRoundHashes := [] }
  let votes ← (List.range (electionSize context)).foldlM electConfidant ⟨.empty, .empty⟩
  let trust ← lift (electTrust context votes.candidatesElection)
  let hashes := electHashes (electionSize context / 2) votes.hashesElection
  modify fun s => { s with nextRoundTrust := trust, nextRoundHashes := hashes }

/-! ## Analysis of the characteristic hashes -/

/-- One more occurrence in the table of hash frequencies, whose weights are bytes. -/
def addWeight : List (Hash × UInt8) → Hash → List (Hash × UInt8)
  | [], hash => [(hash, 1)]
  | e :: table, hash =>
    if e.1 = hash then (e.1, e.2 + 1) :: table else e :: addWeight table hash

/-- The search for the most frequent hash. -/
def heaviest (best : Nat × Hash) (e : Hash × UInt8) : Nat × Hash :=
  if e.2.toNat > best.1 then (e.2.toNat, e.1) else best

def mostFrequentHash (messages : List StageOne) : Hash :=
  let table := messages.foldl (fun table st => addWeight table st.hash) []
  (table.foldl heaviest (0, zeroArray 32)).2

/-- The loop over the stage-1 messages, and the decision. The reports read the key of a liar. -/
def findLiars (context : ConsensusContext) (hash : Hash) : List StageOne → UInt8 → Stage3M Bool
  | [], liarNumber => return !decide (liarNumber.toNat > context.cntTrusted / 2)
  | it :: rest, liarNumber => do
    let s ← get
    if it.sender.toNat ≥ s.stage.realTrustedMask.length then
      return false
    else
      let value ← lift (atIndex s.stage.realTrustedMask it.sender.toNat)
      if it.hash = hash ∧ value ≠ kUntrustedMarker then
        findLiars context hash rest liarNumber
      else
        mark it.sender
        setTrustedMask it.sender.toNat kUntrustedMarker
        let _ ← lift (index context.trusted it.sender.toNat)
        findLiars context hash rest (liarNumber + 1)

def poolSolutionAnalysis : Stage3M Bool := do
  let messages := (← get).core.stageOneStorage
  findLiars context (mostFrequentHash messages) messages 0

/-! ## Selection of the writer -/

/-- The first four bytes of the hash as an `int`, negated if they are negative. The negation
wraps. -/
def writerSeed (hash : Hash) : Int32 :=
  let k := Int32.ofNat (leNat (hash.toList.take 4))
  if k < 0 then -k else k

/-- The first loop of `take_urgent_decision`: the trusted confidant with the given number. -/
def selectWriter (mask : Bytes) (idxWriter : Int) : List Nat → Int → UInt8 → Except Fault UInt8
  | [], _, writer => .ok writer
  | i :: rest, idx, writer => do
    let value ← atIndex mask i
    if value ≠ kUntrustedMarker then
      selectWriter mask idxWriter rest (idx + 1) (if idx = idxWriter then UInt8.ofNat i else writer)
    else
      selectWriter mask idxWriter rest idx writer

/-- The second loop: the trusted confidants are numbered in the given order. -/
def numberTrusted : List Nat → Nat → Bytes → Except Fault Bytes
  | [], _, mask => .ok mask
  | c :: rest, idx, mask => do
    let value ← atIndex mask c
    if value ≠ kUntrustedMarker then
      numberTrusted rest (idx + 1) (mask.set c (UInt8.ofNat idx))
    else
      numberTrusted rest idx mask

def takeUrgentDecision : Stage3M Bool := do
  match context.previousHash with
  | none => return false
  | some hash =>
    let s ← get
    let mask := s.stage.realTrustedMask
    let cnt := min context.cntTrusted Consensus.maxTrustedNodes
    let cntActive : Int := cnt - mask.count kUntrustedMarker
    if cntActive * 2 < cnt + 1 then
      return false
    else
      let idxWriter := (writerSeed hash).toInt.tmod cntActive
      let writer ← lift (selectWriter mask idxWriter (List.range cnt) 0 s.stage.writer)
      let order := (List.range cnt).map fun i => (writer.toNat + i) % cnt
      let numbered ← lift (numberTrusted order 0 mask)
      set { s with stage := { s.stage with writer := writer, realTrustedMask := numbered } }
      return !decide (numbered.count kUntrustedMarker > numbered.length / 2 + 1)

/-! ## Events -/

def decideRound (ptr : StageTwo) : Stage3M StageResult := do
  let s ← get
  s.core.stageTwoStorage.forM (checkStage2 context ptr)
  trustedElection context
  if ← poolSolutionAnalysis context then
    if ← takeUrgentDecision context then
      modify fun s => { s with core := { s.core with
        tempRealTrusted := s.stage.realTrustedMask
        trustedCandidates := s.nextRoundTrust
        hashesCandidates := s.nextRoundHashes } }
      return .finish
    else
      return .failure
  else
    return .failure

/-- `onStage2`: a stage-2 message has been stored. -/
def onStage2 : Stage3M StageResult := do
  modify fun s => { s with cntRecvStages := s.cntRecvStages + 1 }
  let s ← get
  match s.core.findStage2 context.ownConfNumber with
  | none => return .ignore
  | some ptr =>
    if s.cntRecvStages = context.cntTrusted then
      decideRound context ptr
    else
      return .ignore

/-- `finalizeStageThree`: the decision is taken again with a mask that others have changed. -/
def finalizeStageThree : Stage3M StageResult := do
  if ← takeUrgentDecision context then
    return .finish
  else
    return .failure

/-- The mask that the state starts with: all zeros, or the one of the last iteration. -/
def resetStage (s : TrustedStage3State) : TrustedStage3State :=
  { s with
    cntRecvStages := 0
    core := { s.core with realTrustedChanged := false }
    stage :=
      if s.core.realTrustedChanged then
        { s.stage with
          iteration := s.stage.iteration + 1
          realTrustedMask := s.core.tempRealTrusted }
      else
        { s.stage with
          iteration := 0
          realTrustedMask := List.replicate context.cntTrusted 0
          sender := context.ownConfNumber } }

/-- One of the stage-2 messages that arrived before the state was entered. -/
def onEarlyStage2 (result : StageResult) (_ : StageTwo) :
    Stage3M StageResult := do
  if (← onStage2 context) = .finish then
    return .finish
  else
    return result

/-- `on`: the state is entered. The result says whether the stage is complete, has failed, or waits
for messages. -/
def on : Stage3M StageResult := do
  modify (resetStage context)
  let s ← get
  if s.stage.realTrustedMask.count kUntrustedMarker > 0 then
    finalizeStageThree context
  else
    s.core.stageTwoStorage.foldlM (onEarlyStage2 context) .ignore

end TrustedStage3State

end CreditsNode
