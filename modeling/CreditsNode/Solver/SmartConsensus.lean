import CreditsNode.Solver.TrustedStage3State
import CreditsNode.Solver.SmartContracts
import CreditsNode.Csnode.TransactionsPacket

/-!
# The consensus on a contract execution

`cs::SmartConsensus`: the confidants of the round in which a contract was called agree on the result
of its execution. Stage 1 has the hash of the result and the fees, stage 2 the stage-1 signatures,
and stage 3 a signature of the final packet. A stage is complete when the slots of all confidants
are filled, the third one when a majority is there; the final packet then goes to the conveyer.
Stage-3 messages that come before the own one are kept.

Reports about confidants and replies to requests are left out.
-/

namespace CreditsNode

open ByteCodec Effect
open TrustedStage3State (index atIndex writerSeed)

namespace Consensus

def maxContractStateSizeToSync : Nat := 8192

end Consensus

/-- `ConfidantConsts::LiarIndex`. -/
def liarIndex : UInt8 := 254

/-! ## Messages -/

/-- `cs::StageOneSmarts`. -/
structure StageOneSmarts where
  sender : UInt8
  id : UInt64
  fees : List Amount
  hash : Hash
  messageHash : Hash
  signature : Signature

/-- `cs::StageTwoSmarts`. -/
structure StageTwoSmarts where
  sender : UInt8
  id : UInt64
  hashes : List Hash
  signatures : List Signature
  signature : Signature
  message : Bytes

/-- `cs::StageThreeSmarts`. -/
structure StageThreeSmarts where
  sender : UInt8
  iteration : UInt8
  id : UInt64
  writer : UInt8
  realTrustedMask : Bytes
  packageSignature : Signature
  signature : Signature
  message : Bytes
deriving DecidableEq

/-- The slot that `resize` makes of each message: the numbers are zero. -/
def StageOneSmarts.new : StageOneSmarts where
  sender := 0
  id := 0
  fees := []
  hash := zeroArray 32
  messageHash := zeroArray 32
  signature := zeroArray 64

def StageTwoSmarts.new : StageTwoSmarts where
  sender := 0
  id := 0
  hashes := []
  signatures := []
  signature := zeroArray 64
  message := []

def StageThreeSmarts.new : StageThreeSmarts where
  sender := 0
  iteration := 0
  id := 0
  writer := 0
  realTrustedMask := []
  packageSignature := zeroArray 64
  signature := zeroArray 64
  message := []

/-- What the consensus uses of the node and does not change. -/
structure ConsensusNode where
  crypto : Crypto
  /-- `cscrypto::generateSignature` with the private key of the node. -/
  generateSignature : Bytes → Signature
  nodeIdKey : PublicKey
  retriveSmartConfidants : Sequence → List PublicKey

/-- `cs::SmartConsensus`. -/
structure SmartConsensus where
  smartConfidants : List PublicKey
  ownSmartsConfNum : UInt8
  smartRoundNumber : Sequence
  smartTransaction : UInt32
  runCounter : UInt8
  smartStageOneStorage : List StageOneSmarts
  smartStageTwoStorage : List StageTwoSmarts
  smartStageThreeStorage : List StageThreeSmarts
  smartStageThreeTempStorage : List StageThreeSmarts
  smartConsensusMask : Bytes
  smartUntrusted : List Nat
  currentSmartTransactionPack : TransactionsPacket
  finalSmartTransactionPack : TransactionsPacket
  tmpNewStates : List Transaction
  finalStateTransaction : List Transaction
  st2 : StageTwoSmarts
  st3 : StageThreeSmarts
  trustedChanged : Bool
  smartStageThreeSent : Bool
  /-- The signals of the node that are connected. -/
  stageOneConnected : Bool
  stageTwoConnected : Bool
  stageThreeConnected : Bool
  timeoutStage : Option Nat
  /-- What has been handed to `addSeparatePacket` of the conveyer. -/
  separatePackets : List TransactionsPacket

namespace SmartConsensus

abbrev ConsensusM := EStateM Fault SmartConsensus

def new : SmartConsensus where
  smartConfidants := []
  ownSmartsConfNum := kUntrustedMarker
  smartRoundNumber := 0
  smartTransaction := 0
  runCounter := 0
  smartStageOneStorage := []
  smartStageTwoStorage := []
  smartStageThreeStorage := []
  smartStageThreeTempStorage := []
  smartConsensusMask := []
  smartUntrusted := []
  currentSmartTransactionPack := .new
  finalSmartTransactionPack := .new
  tmpNewStates := []
  finalStateTransaction := []
  st2 := .new
  st3 := .new
  trustedChanged := false
  smartStageThreeSent := false
  stageOneConnected := false
  stageTwoConnected := false
  stageThreeConnected := false
  timeoutStage := none
  separatePackets := []

def createId (seq : UInt64) (idx : UInt16) (cnt : UInt8) : UInt64 :=
  ((seq &&& 0xFFFFFFFFFF) <<< 24) ||| (idx.toUInt64 <<< 8) ||| cnt.toUInt64

variable (s : SmartConsensus)

/-- `id()`. -/
def id : UInt64 :=
  createId s.smartRoundNumber s.smartTransaction.toUInt16 s.runCounter

def smartConfidantExist (confidantIndex : UInt8) : Bool :=
  confidantIndex.toNat < s.smartConfidants.length

/-- `hash().toBinary()` of the final packet. -/
def finalHash : Bytes :=
  s.finalSmartTransactionPack.hash.elim [] fun hash => hash.toList

def startTimer (st : Nat) (s : SmartConsensus) : SmartConsensus :=
  { s with timeoutStage := some st }

def killTimer : SmartConsensus := { s with timeoutStage := none }

/-! ## Slots -/

section Slots

variable {τ : Type} (sender : τ → UInt8)

/-- The slot has the message of the confidant with its number. -/
def isFilled (storage : List τ) (idx : Nat) : Bool :=
  storage[idx]?.any fun stage => (sender stage).toNat = idx

def stageSize (storage : List τ) : Nat :=
  (List.range storage.length).countP (isFilled sender storage)

end Slots

def smartStageOneEnough : Bool :=
  stageSize StageOneSmarts.sender s.smartStageOneStorage = s.smartConfidants.length

def smartStageTwoEnough : Bool :=
  stageSize StageTwoSmarts.sender s.smartStageTwoStorage = s.smartConfidants.length

/-- `cSize` of the third stage. -/
def majority : Nat := s.smartConfidants.length / 2 + 1

def smartStageThreeEnough : Bool :=
  stageSize StageThreeSmarts.sender s.smartStageThreeStorage = s.majority

variable (env : ConsensusNode)

/-- The signature of a message from others is verified, unless it marks the sender as silent. -/
def checkSignature (sender : UInt8) (signature : Signature) (message : Bytes) :
    ConsensusM Bool := do
  if signature = zeroArray 64 then return true
  else
    let key ← lift (atIndex (← get).smartConfidants sender.toNat)
    return env.crypto.verifySignature signature key message

/-! ## The third stage -/

/-- `Node::sendSmartStageThree`: the message is signed, and kept in its binary form. -/
def signStageThree (stage : StageThreeSmarts) : StageThreeSmarts :=
  let bytes := putU8 stage.sender ++ (putU8 stage.writer ++ (putU64 stage.id ++
    (TransactionsPacket.putVector putU8 stage.realTrustedMask ++ stage.packageSignature.toList)))
  { stage with signature := env.generateSignature bytes, message := bytes }

def setStageThree (stage : StageThreeSmarts) : ConsensusM Unit := do
  let s ← get
  let _ ← lift (atIndex s.smartStageThreeStorage stage.sender.toNat)
  set { s with smartStageThreeStorage := s.smartStageThreeStorage.set stage.sender.toNat stage }

def storeVerified (stageFrom : StageThreeSmarts) : ConsensusM Unit := do
  let s ← get
  let key ← lift (atIndex s.smartConfidants stageFrom.sender.toNat)
  if env.crypto.verifySignature stageFrom.packageSignature key s.finalHash then
    setStageThree stageFrom

def signFinal (storage : List StageThreeSmarts) (tMask : Bytes) (packet : TransactionsPacket) :
    TransactionsPacket :=
  let packet := storage.foldl (fun packet st =>
    if st.sender = kUntrustedMarker then packet
    else (packet.addSignature st.sender st.packageSignature).1) packet
  (List.range tMask.length).foldl (fun packet i =>
    if tMask[i]? = some liarIndex then (packet.addSignature (UInt8.ofNat i) (zeroArray 64)).1
    else packet) packet

def sendFinalTransactionSet : ConsensusM Unit := do
  let s ← get
  let own ← lift (index s.smartStageThreeStorage s.ownSmartsConfNum.toNat)
  let packet := signFinal s.smartStageThreeStorage own.realTrustedMask s.finalSmartTransactionPack
  set { s with
    finalSmartTransactionPack := packet
    separatePackets := s.separatePackets ++ [packet] }

def checkStageThree : ConsensusM Unit := do
  let s ← get
  if s.smartStageThreeSent && s.smartStageThreeEnough then
    set { s.killTimer with stageThreeConnected := false }
    if s.finalSmartTransactionPack.hash.isNone then return ()
    else sendFinalTransactionSet

/-- The message is stored, or kept for later. -/
def placeStageThree (stage : StageThreeSmarts) : ConsensusM Unit := do
  let s ← get
  if stage.sender ≠ s.ownSmartsConfNum then
    if s.smartStageThreeSent then storeVerified env stage
    else set { s with smartStageThreeTempStorage := s.smartStageThreeTempStorage ++ [stage] }
  else
    setStageThree stage
    s.smartStageThreeTempStorage.forM (storeVerified env)

/-- `addSmartStageThree` after the tests of the message itself. -/
def acceptStageThree (stage : StageThreeSmarts) : ConsensusM Unit := do
  match (← get).smartStageThreeStorage[stage.sender.toNat]? with
  | none => return ()
  | some slot =>
    if slot.sender = stage.sender then return ()
    else
      placeStageThree env stage
      checkStageThree

def addSmartStageThree (stage : StageThreeSmarts) (send : Bool) : ConsensusM Unit := do
  let s ← get
  if stage.id ≠ s.id then return ()
  else if !s.smartConfidantExist stage.sender then return ()
  else if send then
    set { s with smartStageThreeSent := true }
    acceptStageThree env (signStageThree env stage)
  else if ← checkSignature env stage.sender stage.signature stage.message then
    acceptStageThree env stage

/-! ## The decision -/

def untrust (i : Nat) : ConsensusM Unit := do
  let s ← get
  let count ← lift (atIndex s.smartUntrusted i)
  set { s with smartUntrusted := s.smartUntrusted.set i (count + 1) }

def setTrustedMask (i : Nat) (value : UInt8) : ConsensusM Unit := do
  let s ← get
  let _ ← lift (atIndex s.st3.realTrustedMask i)
  set { s with st3 := { s.st3 with realTrustedMask := s.st3.realTrustedMask.set i value } }

/-- The fees of another confidant against the own ones. -/
def judgeFees (own st : StageOneSmarts) : ConsensusM Unit := do
  if st.fees.length = 0 then
    untrust st.sender.toNat
    setTrustedMask st.sender.toNat kUntrustedMarker
  else if st.fees.length ≠ own.fees.length then
    untrust st.sender.toNat
    setTrustedMask st.sender.toNat liarIndex

/-- The hash of another confidant against the own one. -/
def judgeHash (own st : StageOneSmarts) : ConsensusM Unit := do
  if st.hash ≠ own.hash then
    untrust st.sender.toNat
    if st.hash ≠ zeroArray 32 then setTrustedMask st.sender.toNat liarIndex

/-- The body of the loop over the stage-1 messages. -/
def judgeStageOne (own st : StageOneSmarts) : ConsensusM Unit := do
  if st.sender ≠ (← get).ownSmartsConfNum then
    judgeFees own st
    judgeHash own st

/-- The signature of confidant `i`, as the own stage-2 message and as another one have it. -/
def compareSignature (myStage2 st : StageTwoSmarts) (i : Nat) : ConsensusM Unit := do
  let theirs ← lift (index st.signatures i)
  let mine ← lift (index myStage2.signatures i)
  if theirs ≠ mine then
    let key ← lift (index (← get).smartConfidants i)
    let hash ← lift (index st.hashes i)
    if env.crypto.verifySignature theirs key hash.toList then untrust i
    else untrust st.sender.toNat

/-- The body of the loop over the stage-2 messages. -/
def judgeStageTwo (myStage2 st : StageTwoSmarts) : ConsensusM Unit := do
  let s ← get
  if st.sender ≠ s.ownSmartsConfNum then
    (List.range s.smartConfidants.length).forM (compareSignature env myStage2 st)

/-- One confidant of the mask; the result is the number of active ones. -/
def activate (cntActive i : Nat) : ConsensusM Nat := do
  let s ← get
  let value ← lift (index s.st3.realTrustedMask i)
  if value = liarIndex then return cntActive
  else
    let count ← lift (index s.smartUntrusted i)
    if 0 < count then
      setTrustedMask i kUntrustedMarker
      return cntActive
    else
      setTrustedMask i firstWriterIndex
      return cntActive + 1

/-- A confidant that the mask calls neither silent nor a liar. -/
def isTrusted (value : UInt8) : Bool := value ≠ kUntrustedMarker && value ≠ liarIndex

/-- The sums of the fees, and the confidants so far. -/
structure FeeSum where
  sumFees : List Amount
  idx : Nat

def addFees : List Amount → List Amount → Except Fault (List Amount)
  | [], _ => .ok []
  | sum :: sums, [] => .ok (sum :: sums)
  | sum :: sums, fee :: fees => do
    let first ← sum.addAssign fee
    return first :: (← addFees sums fees)

/-- One confidant of the loop that sums the fees and finds the writer. -/
def sumFee (idxWriter : Nat) (sum : FeeSum) (i : Nat) : ConsensusM FeeSum := do
  let s ← get
  let value ← lift (atIndex s.st3.realTrustedMask i)
  if isTrusted value then
    let stage ← lift (atIndex s.smartStageOneStorage i)
    let sumFees ← lift (addFees sum.sumFees stage.fees)
    modify fun s =>
      if sum.idx = idxWriter then { s with st3 := { s.st3 with writer := UInt8.ofNat i } } else s
    return { sumFees, idx := sum.idx + 1 }
  else return sum

/-- The fee that `calculateFinalFee` makes of a sum. -/
def finalFee (realTrustedAmount : Nat) (fee : Amount) : Except Fault Amount := do
  let trustedNumber := UInt32.ofNat realTrustedAmount
  let fee ← (0 : Amount).addAssign fee
  let fee ← fee.div (trustedNumber * trustedNumber).toInt32
  fee.mulInt (Int32.ofNat realTrustedAmount)

def calculateFinalFee (finalFees : List Amount) (realTrustedAmount : Nat) :
    Except Fault (List Amount) :=
  finalFees.mapM (finalFee realTrustedAmount)

/-- One confidant of the loop that numbers the trusted ones from the writer on. -/
def numberTrusted (idx c : Nat) : ConsensusM Nat := do
  let value ← lift (atIndex (← get).st3.realTrustedMask c)
  if isTrusted value then
    setTrustedMask c (UInt8.ofNat idx)
    return idx + 1
  else return idx

def addFinal (tmpNewStates : List Transaction) (finalFees : List Amount)
    (acc : TransactionsPacket × Nat) (tr : Transaction) : TransactionsPacket × Nat :=
  if SmartContracts.isNewState tr then
    match tmpNewStates[acc.2]?, finalFees[acc.2]? with
    | some tmp, some fee =>
      ((acc.1.addTransaction (tmp.addUserField TrxUf.newStateFee (some (.amount fee)))).1,
        acc.2 + 1)
    | _, _ => (acc.1, acc.2 + 1)
  else ((acc.1.addTransaction tr).1, acc.2)

/-- A new state goes with the packet if it is not too large. -/
def addFinalState (packet : TransactionsPacket) (it : Transaction) : TransactionsPacket :=
  match it.userField TrxUf.newStateValue with
  | none => packet
  | some fld =>
    if (UserField.stringValue (some fld)).length ≤ Consensus.maxContractStateSizeToSync then
      (packet.addStateTransaction it).1
    else packet

def createFinalTransactionSet (finalFees : List Amount) (s : SmartConsensus) : SmartConsensus :=
  let packet := (s.currentSmartTransactionPack.transactions.foldl
    (addFinal s.tmpNewStates finalFees) (s.finalSmartTransactionPack, 0)).1
  let packet := s.finalStateTransaction.foldl addFinalState packet
  { s with finalSmartTransactionPack := (packet.makeHash env.crypto).1 }

/-- The own stage-3 message, once the final packet is there. -/
def fillStageThree (s : SmartConsensus) : SmartConsensus :=
  { s with st3 := { s.st3 with
    packageSignature := env.generateSignature s.finalHash
    id := s.id
    sender := s.ownSmartsConfNum
    iteration := 0 } }

/-- The end of `processStages`, for `cntActive` confidants. -/
def decideSet (own : StageOneSmarts) (cntActive : Nat) : ConsensusM Unit := do
  let cnt := (← get).smartConfidants.length
  let idxWriter := (writerSeed own.hash).toInt64.toUInt64.toNat % cntActive
  let sum ← (List.range cnt).foldlM (sumFee idxWriter)
    { sumFees := List.replicate own.fees.length 0, idx := 0 }
  let finalFees ← lift (calculateFinalFee sum.sumFees sum.idx)
  let writer := (← get).st3.writer.toNat
  let _ ← ((List.range cnt).map fun i => (writer + i) % cnt).foldlM numberTrusted 0
  modify (startTimer 3)
  modify (createFinalTransactionSet env finalFees)
  modify (fillStageThree env)
  addSmartStageThree env (← get).st3 true

def processStages : ConsensusM Unit := do
  let s ← get
  let cnt := s.smartConfidants.length
  set { s with st3 := { s.st3 with
    realTrustedMask := s.st3.realTrustedMask.takeD cnt 0 } }
  match s.smartStageOneStorage[s.ownSmartsConfNum.toNat]? with
  | none => return ()
  | some own =>
    s.smartStageOneStorage.forM (judgeStageOne own)
    let myStage2 ← lift (atIndex s.smartStageTwoStorage s.ownSmartsConfNum.toNat)
    s.smartStageTwoStorage.forM (judgeStageTwo env myStage2)
    let cntActive ← (List.range cnt).foldlM activate 0
    if cntActive < cnt / 2 + 1 then return ()
    else decideSet env own cntActive

/-! ## The second stage -/

def signStageTwo (stage : StageTwoSmarts) : StageTwoSmarts :=
  let bytes := putU8 stage.sender ++ (putU64 stage.id ++
    (TransactionsPacket.putVector
      (fun signature : Signature => signature.toList) stage.signatures ++
      TransactionsPacket.putVector (fun hash : Hash => hash.toList) stage.hashes))
  { stage with signature := env.generateSignature bytes, message := bytes }

/-- `addSmartStageTwo` after the tests of the message itself. -/
def acceptStageTwo (stage : StageTwoSmarts) : ConsensusM Unit := do
  let s ← get
  match s.smartStageTwoStorage[stage.sender.toNat]? with
  | none => return ()
  | some stageTwo =>
    if stageTwo.sender = stage.sender then return ()
    else
      set { s with smartStageTwoStorage := s.smartStageTwoStorage.set stage.sender.toNat stage }
      if (← get).smartStageTwoEnough then
        modify fun s => { s.killTimer with stageTwoConnected := false }
        processStages env

def addSmartStageTwo (stage : StageTwoSmarts) (send : Bool) : ConsensusM Unit := do
  if stage.id ≠ (← get).id then return ()
  else if send then acceptStageTwo env (signStageTwo env stage)
  else if ← checkSignature env stage.sender stage.signature stage.message then
    acceptStageTwo env stage

def fakeStageTwo (s : SmartConsensus) (sender : UInt8) : StageTwoSmarts where
  sender := sender
  id := s.id
  hashes := List.replicate s.smartConfidants.length (zeroArray 32)
  signatures := List.replicate s.smartConfidants.length (zeroArray 64)
  signature := zeroArray 64
  message := []

def fakeStage2 (sender : UInt8) : ConsensusM Unit := do
  let s ← get
  if s.smartStageTwoStorage.any fun it => it.sender = sender then return ()
  else addSmartStageTwo env (fakeStageTwo s sender) false

/-! ## The first stage -/

/-- A confidant whose stage-1 message has no hash is silent in stage 2 too. -/
def fakeSilent (index : Nat) : ConsensusM Unit := do
  match (← get).smartConsensusMask[index]? with
  | none => return ()
  | some value => if !isTrusted value then fakeStage2 env (UInt8.ofNat index)

def finishStageOne : ConsensusM Unit := do
  modify fun s => { s.killTimer with stageOneConnected := false }
  modify fun s => { s with st2 := { s.st2 with sender := s.ownSmartsConfNum, id := s.id } }
  addSmartStageTwo env (← get).st2 true
  (List.range (← get).smartConsensusMask.length).forM (fakeSilent env)
  modify (startTimer 2)

def storeStageOne (stage : StageOneSmarts) (s : SmartConsensus) : SmartConsensus :=
  let i := stage.sender.toNat
  { s with
    smartConsensusMask := s.smartConsensusMask.set i
      (if stage.hash ≠ zeroArray 32 then firstWriterIndex else liarIndex)
    smartStageOneStorage := s.smartStageOneStorage.set i stage
    st2 := { s.st2 with
      signatures := s.st2.signatures.set i stage.signature
      hashes := s.st2.hashes.set i stage.messageHash } }

/-- `addSmartStageOne` after the tests of the message itself. -/
def acceptStageOne (stage : StageOneSmarts) : ConsensusM Unit := do
  let s ← get
  match s.smartStageOneStorage[stage.sender.toNat]? with
  | none => return ()
  | some slot =>
    if slot.sender = stage.sender then return ()
    else
      set (storeStageOne stage s)
      if (← get).smartStageOneEnough then finishStageOne env

def addSmartStageOne (stage : StageOneSmarts) (send : Bool) : ConsensusM Unit := do
  let s ← get
  if stage.id ≠ s.id then return ()
  else if !s.smartConfidantExist stage.sender then return ()
  else if send then acceptStageOne env stage
  else if ← checkSignature env stage.sender stage.signature stage.messageHash.toList then
    acceptStageOne env stage

def fakeStage1 (sender : UInt8) : ConsensusM Unit := do
  let s ← get
  if s.smartStageOneStorage.any fun it => it.sender = sender then return ()
  else addSmartStageOne env { StageOneSmarts.new with sender := sender, id := s.id } false

/-! ## Timeouts -/

/-- A confidant is marked if its slot is still empty. -/
def markSilent (fake : UInt8 → ConsensusM Unit) (slot : SmartConsensus → Option UInt8)
    (count : UInt8) : ConsensusM Unit := do
  if slot (← get) = some kUntrustedMarker then
    fake count
    modify fun s => { s with smartUntrusted := s.smartUntrusted.modify count.toNat (· + 1) }

/-- `markSmartOutboundNodes(3)`: the mask loses the confidants that are silent, and the stage starts
again with slots that `resize` has made. -/
def resetStageThree : ConsensusM Unit := do
  let s ← get
  let silent := (List.range s.smartStageThreeStorage.length).filter fun i =>
    (s.smartStageThreeStorage[i]?.map StageThreeSmarts.sender) = some kUntrustedMarker
  silent.forM fun i => do
    let _ ← lift (index (← get).st3.realTrustedMask (i % 256))
    modify fun s => { s with
      st3 := { s.st3 with realTrustedMask := s.st3.realTrustedMask.set (i % 256) kUntrustedMarker }
      trustedChanged := true }
  modify fun s =>
    if s.trustedChanged then
      { s with
        smartStageThreeStorage := List.replicate s.st3.realTrustedMask.length .new
        smartStageThreeTempStorage := []
        st3 := { s.st3 with iteration := s.st3.iteration + 1 } }
    else s

def markSmartOutboundNodes (st : Nat) : ConsensusM Unit := do
  let s ← get
  if st = 1 then
    (List.range s.smartStageOneStorage.length).forM fun i =>
      markSilent (fakeStage1 env) (fun s => s.smartStageOneStorage[i]?.map StageOneSmarts.sender)
        (UInt8.ofNat i)
  else if st = 2 then
    (List.range s.smartStageTwoStorage.length).forM fun i =>
      markSilent (fakeStage2 env) (fun s => s.smartStageTwoStorage[i]?.map StageTwoSmarts.sender)
        (UInt8.ofNat i)
  else if st = 3 then resetStageThree

/-! ## The start -/

/-- What the loop of `initSmartRound` collects from the packet of the execution. -/
structure Preparation where
  smartRoundNumber : Sequence := 0
  smartTransaction : UInt32 := 0xFFFFFFFF
  executorFees : List Amount := []
  tmpPacket : TransactionsPacket := .new
  newStates : List Transaction := []
  lastEmptyNewState : Transaction := .new
  tmpNewStates : List Transaction := []

def feeFreeCopy (tr : Transaction) : Transaction :=
  let stateOnly := UserField.stringValue (tr.userField TrxUf.newStateValue)
  let newStateHash := if stateOnly ≠ [] then env.crypto.calculateHash stateOnly else zeroArray 32
  let tmpNewState : Transaction := { Transaction.new with
    amount := tr.amount
    source := tr.source
    target := tr.target
    currency := tr.currency
    countedFee := tr.countedFee
    innerID := tr.innerID
    maxFee := tr.maxFee }
  let tmpNewState := tmpNewState.addUserField TrxUf.newStateRefStart
    (tr.userField TrxUf.newStateRefStart)
  let tmpNewState := tmpNewState.addUserField TrxUf.newStateRetVal
    (tr.userField TrxUf.newStateRetVal)
  tmpNewState.addUserField TrxUf.newStateHash (some (.string newStateHash.toList))

variable (p : Preparation)

def Preparation.findStart (tr : Transaction) : Except Fault Preparation := do
  if p.smartRoundNumber = 0 ∧ (tr.userField TrxUf.newStateRefStart).isSome then
    let ref ← SmartContractRef.fromUserField (tr.userField TrxUf.newStateRefStart)
    if ref.isValid then
      return { p with
        smartRoundNumber := ref.sequence
        smartTransaction := ref.transaction.toUInt32 }
    else return p
  else return p

def Preparation.add (tr : Transaction) : Except Fault Preparation := do
  if SmartContracts.isNewState tr then
    let p ← p.findStart tr
    let tmpNewState := feeFreeCopy env tr
    return { p with
      executorFees := p.executorFees ++ [UserField.amountValue (tr.userField TrxUf.newStateFee)]
      lastEmptyNewState :=
        if UserField.stringValue (tr.userField TrxUf.newStateValue) = [] then tr
        else p.lastEmptyNewState
      tmpNewStates := p.tmpNewStates ++ [tmpNewState]
      tmpPacket := (p.tmpPacket.addTransaction tmpNewState).1
      newStates := p.newStates ++ [tr] }
  else return { p with tmpPacket := (p.tmpPacket.addTransaction tr).1 }

def calculateSmartsConfNum (smartConfidants : List PublicKey) : UInt8 :=
  (List.range smartConfidants.length).foldl (fun number i =>
    if smartConfidants[i]? = some env.nodeIdKey then UInt8.ofNat i else number) kUntrustedMarker

def refreshSmartStagesStorage (s : SmartConsensus) : SmartConsensus :=
  let cSize := s.smartConfidants.length
  startTimer 1 { s with
    smartStageOneStorage :=
      List.replicate cSize { StageOneSmarts.new with sender := kUntrustedMarker }
    smartStageTwoStorage :=
      List.replicate cSize { StageTwoSmarts.new with sender := kUntrustedMarker }
    smartStageThreeStorage :=
      List.replicate cSize { StageThreeSmarts.new with sender := kUntrustedMarker }
    st2 := { s.st2 with
      signatures := List.replicate cSize (zeroArray 64)
      hashes := List.replicate cSize (zeroArray 32)
      id := 0
      sender := kUntrustedMarker
      signature := zeroArray 64 }
    st3 := { s.st3 with
      realTrustedMask := List.replicate cSize 0
      packageSignature := zeroArray 64
      sender := kUntrustedMarker
      writer := kUntrustedMarker
      id := 0
      signature := zeroArray 64 }
    smartUntrusted := List.replicate cSize 0
    smartConsensusMask := List.replicate cSize kUntrustedMarker }

/-- The state that `initSmartRound` reaches before it connects the signals. -/
def prepareRound (runCounter : UInt8) : SmartConsensus :=
  let smartConfidants := env.retriveSmartConfidants p.smartRoundNumber
  refreshSmartStagesStorage { new with
    smartConfidants
    ownSmartsConfNum := calculateSmartsConfNum env smartConfidants
    smartRoundNumber := p.smartRoundNumber
    smartTransaction := p.smartTransaction
    runCounter
    currentSmartTransactionPack := p.tmpPacket
    tmpNewStates := p.tmpNewStates
    finalStateTransaction := if p.newStates ≠ [] then p.newStates else [p.lastEmptyNewState] }

/-- `fillBinary` of the own stage-1 message: its binary form. -/
def stageOneBinary (stage : StageOneSmarts) : Bytes :=
  putU8 stage.sender ++ (putU64 stage.id ++
    (TransactionsPacket.putVector Amount.put stage.fees ++ stage.hash.toList))

def ownStageOne (s : SmartConsensus) : Option StageOneSmarts :=
  if s.ownSmartsConfNum = kUntrustedMarker ∨ s.id = 0 ∨ p.executorFees = [] then none
  else
    let st1 := { StageOneSmarts.new with
      sender := s.ownSmartsConfNum
      id := s.id
      fees := p.executorFees
      hash := env.crypto.calculateHash (p.tmpPacket.toBinary .transactions) }
    let messageHash := env.crypto.calculateHash (stageOneBinary st1)
    some { st1 with messageHash, signature := env.generateSignature messageHash.toList }

/-- A message of a connected signal. The node drops messages without a signature. -/
def onSignal (connected : SmartConsensus → Bool) (signature : Signature) (add : ConsensusM Unit) :
    ConsensusM Unit := do
  if signature ≠ zeroArray 64 ∧ connected (← get) then add

def initSmartRound (pack : TransactionsPacket) (runCounter : UInt8) (saved : List StageOneSmarts) :
    ConsensusM Bool := do
  let p ← lift (pack.transactions.foldlM (Preparation.add env) {})
  if p.smartRoundNumber = 0 ∨ p.smartTransaction = 0xFFFFFFFF then return false
  else
    set (prepareRound env p runCounter)
    if (← get).ownSmartsConfNum = kUntrustedMarker then return false
    else
      modify fun s => { s with
        stageOneConnected := true, stageTwoConnected := true, stageThreeConnected := true }
      saved.forM fun stage =>
        onSignal stageOneConnected stage.signature (addSmartStageOne env stage false)
      match ownStageOne env p (← get) with
      | none => return false
      | some st1 =>
        addSmartStageOne env st1 true
        return true

/-! ## Runs -/

/-- What happens to the consensus once it has started. -/
inductive Op where
  | stageOne (stage : StageOneSmarts)
  | stageTwo (stage : StageTwoSmarts)
  | stageThree (stage : StageThreeSmarts)
  /-- The last timeout of the stage that is tracked. -/
  | timeout

def onTimeout : ConsensusM Unit := do
  match (← get).timeoutStage with
  | none => return ()
  | some st =>
    modify killTimer
    markSmartOutboundNodes env st

def Op.exec : Op → ConsensusM Unit
  | .stageOne stage => onSignal stageOneConnected stage.signature (addSmartStageOne env stage false)
  | .stageTwo stage => onSignal stageTwoConnected stage.signature (addSmartStageTwo env stage false)
  | .stageThree stage =>
    onSignal stageThreeConnected stage.signature (addSmartStageThree env stage false)
  | .timeout => onTimeout env

/-- An exception leaves the consensus as it is when it is thrown; there is no next state after
undefined behaviour. -/
def step (op : Op) (s : SmartConsensus) : Option SmartConsensus :=
  match op.exec env s with
  | .ok _ t => some t
  | .error (.exception _) t => some t
  | .error _ _ => none

end SmartConsensus

end CreditsNode
