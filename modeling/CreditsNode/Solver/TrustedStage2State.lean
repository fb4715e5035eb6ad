import CreditsNode.Solver.TrustedStage3State
import CreditsNode.Lib.EventSystem

/-!
# The second stage of a round

`cs::TrustedStage2State` counts the stage-1 messages that `SolverCore::gotStageOne` reports to it
and those that were there before it, puts their signatures and hashes into its stage-2 message, and
sends this when as many have been counted as there are confidants.

The core changes its state along a table (`InitTransitions`). Other states ignore what is reported
to them, and `TrustedStage1State` stores the message of the node itself when it is left. An event
may come at any time.
-/

namespace CreditsNode

open ByteCodec Effect

/-! ## Time stamps -/

/-- `std::stoll`, which reads the number at the beginning of a text. -/
def stoll (text : Bytes) : Except Fault Int64 :=
  let text := text.dropWhile fun c => c = 32 || (9 ≤ c && c ≤ 13)
  let (negative, text) := match text with
    | 45 :: rest => (true, rest)
    | 43 :: rest => (false, rest)
    | _ => (false, text)
  let digits := text.takeWhile fun c => 48 ≤ c && c ≤ 57
  let magnitude : Int := digits.foldl (fun n c => 10 * n + (c.toNat - 48 : Nat)) 0
  let value := if negative then -magnitude else magnitude
  if digits = [] then .error (.exception "stoll")
  else if value < -2 ^ 63 ∨ 2 ^ 63 ≤ value then .error (.exception "stoll")
  else .ok (Int64.ofInt value)

def Consensus.defaultTimeStampRange : UInt64 := 30000

/-! ## The states of the core -/

/-- The states that `InitTransitions` makes. -/
inductive NodeState where
  | none
  | normal
  | sync
  | trusted1
  | trusted2
  | trusted3
  | trustedPost
  | handleRT
  | handleBB
  | writing
  | waiting
  | primitiveWrite
deriving DecidableEq, Repr

/-- `SolverCore::Event`. -/
inductive CoreEvent where
  | start
  | bigBang
  | roundTable
  | transactions
  | hashes
  | stage1Enough
  | stage2Enough
  | failConsensus
  | stage3Enough
  | stage3NonComplete
  | smartDeploy
  | smartResult
  | expired
  | setNormal
  | setTrusted
  | setWriter
deriving DecidableEq, Repr

def transitions : NodeState → CoreEvent → Option NodeState
  | .none, .start => some .normal
  | .none, .setTrusted => some .primitiveWrite
  | .none, .roundTable => some .handleRT
  | .trusted1, .transactions => some .trusted2
  | .trusted1, .hashes => some .trusted2
  | .trusted2, .stage1Enough => some .trusted3
  | .trusted3, .stage2Enough => some .trustedPost
  | .trusted3, .failConsensus => some .normal
  | .trustedPost, .stage3Enough => some .waiting
  | .trustedPost, .setNormal => some .normal
  | .trustedPost, .stage3NonComplete => some .trusted3
  | .waiting, .setWriter => some .writing
  | .handleRT, .setNormal => some .normal
  | .handleRT, .setTrusted => some .trusted1
  | .handleRT, _ => none
  | .handleBB, .roundTable => some .handleRT
  | .handleBB, _ => none
  | .primitiveWrite, _ => none
  | .none, _ => none
  | _, .roundTable => some .handleRT
  | _, .bigBang => some .handleBB
  | _, _ => none

/-- What the core reads in a round. -/
structure RoundContext extends ConsensusContext where
  lastTimeStamp : UInt64
  isBlackListed : PublicKey → Bool

/-- `TrustedStage2State`. -/
structure TrustedStage2State where
  stage : StageTwo
  cntRecvStages : Nat
deriving DecidableEq

/-- A stage-2 message that was sent, with the number of confidants and the stage-1 messages that
were stored at that time. -/
structure Sending where
  confidants : Nat
  stage : StageTwo
  stageOneStorage : List StageOne
deriving DecidableEq

/-- The core in its round, with the state object of the second stage. -/
structure Solver where
  context : RoundContext
  core : SolverCore
  state : NodeState
  stage2 : TrustedStage2State
  /-- The messages given to `sendStageTwo`. -/
  sent : List Sending

namespace Solver

abbrev SolverM := EStateM Fault Solver

/-- `vector::operator[]` on the left of an assignment. -/
def assign {α : Type} (xs : List α) (i : Nat) (x : α) : Except Fault (List α) :=
  if i < xs.length then .ok (xs.set i x) else .error .undefined

/-- `vector::resize`. -/
def resize {α : Type} (xs : List α) (n : Nat) (x : α) : List α :=
  xs.take n ++ List.replicate (n - xs.length) x

/-! ## The second stage -/

/-- `init_zero`. The entries that a vector has stay. -/
def initZero (cnt : Nat) (stage : StageTwo) : StageTwo where
  sender := 255
  hashes := resize stage.hashes cnt (zeroArray 32)
  signatures := resize stage.signatures cnt (zeroArray 64)

def putStage1 (st : StageOne) : SolverM Unit := do
  let s ← get
  let signatures ← lift (assign s.stage2.stage.signatures st.sender.toNat st.signature)
  let hashes ← lift (assign s.stage2.stage.hashes st.sender.toNat st.messageHash)
  set { s with stage2 := { s.stage2 with stage := { s.stage2.stage with signatures, hashes } } }

/-- A time stamp as it is compared; an empty one is zero. -/
def stampOf (text : Bytes) : Except Fault UInt64 :=
  if text = [] then .ok 0 else (stoll text).map Int64.toUInt64

def gotStageTwo (stage : StageTwo) : SolverM Unit :=
  modify fun s =>
    match s.core.findStage2 stage.sender with
    | some _ => s
    | none => { s with core.stageTwoStorage := s.core.stageTwoStorage ++ [stage] }

def addStage2 (stage : StageTwo) : SolverM Unit := do
  modify fun s =>
    { s with sent := s.sent ++ [⟨s.context.cntTrusted, stage, s.core.stageOneStorage⟩] }
  gotStageTwo stage

/-- The end of `onStage1`. -/
def countStage1 : SolverM StageResult := do
  modify fun s => { s with stage2.cntRecvStages := s.stage2.cntRecvStages + 1 }
  let s ← get
  if s.stage2.cntRecvStages = s.context.cntTrusted then
    addStage2 s.stage2.stage
    return .finish
  else return .ignore

/-- `TrustedStage2State::onStage1`. -/
def onStage1 (st : StageOne) : SolverM StageResult := do
  putStage1 st
  let s ← get
  if s.context.lastTimeStamp = 0 ∧ 1 < s.context.currentRoundNumber then return .ignore
  else
    match s.core.findStage1 s.context.ownConfNumber with
    | none => throw .undefined
    | some own =>
      let myStamp ← lift (stampOf own.roundTimeStamp)
      let otherStamp ← lift (stampOf st.roundTimeStamp)
      if otherStamp < s.context.lastTimeStamp ∨
          myStamp + Consensus.defaultTimeStampRange * 2 < otherStamp then
        set { s with core := ConsensusContext.markUntrusted s.core st.sender }
      countStage1

/-- `complete_stage2`, and the transition when `onStage1` finishes. Neither `off` of the second
stage nor `on` of the third changes what is modelled here. -/
def completeStage2 : SolverM Unit :=
  modify fun s =>
    match transitions s.state .stage1Enough with
    | some next => { s with state := next }
    | none => s

def eraseStage1 (sender : UInt8) (storage : List StageOne) : List StageOne :=
  storage.eraseP fun st => st.sender = sender

/-- A message is taken in place of one with an earlier stamp. -/
def takeNewer (storage : List StageOne) (lastTimeStamp : UInt64) (st : StageOne) :
    Bool × List StageOne :=
  match stoll st.roundTimeStamp with
  | .ok currentTimeStamp =>
    if lastTimeStamp < currentTimeStamp.toUInt64 then (true, eraseStage1 st.sender storage)
    else (false, storage)
  | .error _ => (false, storage)

/-- Whether a message is taken whose sender has one already, and the stage-1 messages then. An old
message whose stamp cannot be read is erased even if the new one is not taken. -/
def resend (storage : List StageOne) (old st : StageOne) : Bool × List StageOne :=
  match stoll old.roundTimeStamp with
  | .ok lastTimeStamp => takeNewer storage lastTimeStamp.toUInt64 st
  | .error _ => takeNewer (eraseStage1 st.sender storage) 0 st

/-- The end of `gotStageOne`: only the second stage does something with the message. -/
def reportStage1 (st : StageOne) : SolverM Unit := do
  let s ← get
  if s.state = .trusted2 then
    let result ← onStage1 st
    if result = .finish then completeStage2

/-- The stage-1 messages of the other senders are there; a message that is taken is added. -/
def storeStage1 (st : StageOne) (taken : Bool) (storage : List StageOne) : SolverM Unit := do
  if taken then
    modify fun s => { s with core.stageOneStorage := storage ++ [st] }
    reportStage1 st
  else modify fun s => { s with core.stageOneStorage := storage }

def gotStageOne (st : StageOne) : SolverM Unit := do
  let s ← get
  match s.core.findStage1 st.sender with
  | some old =>
    let (taken, storage) := resend s.core.stageOneStorage old st
    storeStage1 st taken storage
  | none => storeStage1 st true s.core.stageOneStorage

def fakeStage1 (sender : UInt8) : SolverM Unit := do
  let s ← get
  if (s.core.findStage1 sender).isNone then
    gotStageOne { sender, hash := zeroArray 32, trustedCandidates := [], hashesCandidates := [] }

/-- The loop over the stage-1 messages that were received early. -/
def onEarlyStage1 (finish : Bool) (st : StageOne) : SolverM Bool := do
  let result ← onStage1 st
  return finish || result = .finish

/-- The confidants of a loop with a counter of one byte. -/
def confidantNumbers (context : RoundContext) : List UInt8 :=
  (List.range (UInt8.ofNat context.cntTrusted).toNat).map UInt8.ofNat

def fakeBlackListed (i : UInt8) : SolverM Unit := do
  let s ← get
  match s.context.trusted[i.toNat]? with
  | some key => if s.context.isBlackListed key then fakeStage1 i
  | none => throw .undefined

/-- The beginning of `on`: a stage-2 message with the stage-1 message of the node itself. -/
def initStage2 : SolverM Unit := do
  modify fun s => { s with stage2 :=
    { stage :=
        { initZero s.context.cntTrusted s.stage2.stage with sender := s.context.ownConfNumber }
      cntRecvStages := 0 } }
  let s ← get
  match s.core.findStage1 s.context.ownConfNumber with
  | some own => putStage1 own
  | none => pure ()

/-- `TrustedStage2State::on`, without the timers. -/
def on : SolverM Unit := do
  initStage2
  let s ← get
  let finish ← s.core.stageOneStorage.foldlM onEarlyStage1 false
  if finish then completeStage2
  else (confidantNumbers s.context).forM fakeBlackListed

def markOutboundNodes : SolverM Unit := do
  let s ← get
  (confidantNumbers s.context).forM fakeStage1

/-! ## The core -/

/-- `off` of the state that is left. The first stage stores the message of the node, if it is
ready. -/
def off (own : Option StageOne) : SolverM Unit := do
  let s ← get
  match s.state, own with
  | .trusted1, some stage => gotStageOne { stage with sender := s.context.ownConfNumber }
  | _, _ => pure ()

def handleTransitions (evt : CoreEvent) (own : Option StageOne) : SolverM Unit := do
  let s ← get
  match transitions s.state evt with
  | none => pure ()
  | some next =>
    off own
    modify fun s => { s with state := next }
    if next = .trusted2 then on

def nextRound (context : RoundContext) : SolverM Unit := do
  modify fun s => { s with
    context
    core := { s.core with
      stageOneStorage := []
      stageTwoStorage := []
      trustedCandidates := []
      realTrustedChanged := false
      tempRealTrusted := [] } }
  handleTransitions .roundTable none

/-- What happens to the core. -/
inductive Op where
  | nextRound (context : RoundContext)
  | event (evt : CoreEvent) (own : Option StageOne)
  /-- A stage-1 message from the network. -/
  | getStageOne (st : StageOne)
  | markOutboundNodes

def Op.exec : Op → SolverM Unit
  | .nextRound context => Solver.nextRound context
  | .event evt own => handleTransitions evt own
  | .getStageOne st => do
    let s ← get
    if st.sender.toNat < s.context.cntTrusted then gotStageOne st
  | .markOutboundNodes => Solver.markOutboundNodes

/-- An operation shows the messages it sends. An exception leaves the core as it is when it is
thrown; there is no next state after undefined behaviour. -/
def step (op : Op) (s : Solver) : Option (List Sending × Solver) :=
  match op.exec { s with sent := [] } with
  | .ok _ t => some (t.sent, t)
  | .error (.exception _) t => some (t.sent, t)
  | .error _ _ => none

/-- A core that has not got a round yet. -/
def start (context : RoundContext) : Solver where
  context
  core :=
    { markUntrusted := fun _ => 0
      stageOneStorage := []
      stageTwoStorage := []
      realTrustedChanged := false
      tempRealTrusted := []
      trustedCandidates := []
      hashesCandidates := [] }
  state := .none
  stage2 := ⟨⟨255, [], []⟩, 0⟩
  sent := []

end Solver

end CreditsNode
