import CreditsNode.Solver.SmartConsensus
import CreditsNode.Lib.EventSystem

/-!
# The third stage of a contract consensus, by itself

What the third stage reads and writes, as a machine of its own with pure steps. A node either
accepts a message, its own one included, or starts the stage again. Nothing else in the consensus
touches these parts.
-/

namespace CreditsNode

open SmartConsensus

/-- The third stage of a consensus on an execution: the messages stored, those kept for later, and
the packets sent. -/
structure ThirdStage where
  smartConfidants : List PublicKey
  ownSmartsConfNum : UInt8
  id : UInt64
  storage : List StageThreeSmarts
  temp : List StageThreeSmarts
  pack : TransactionsPacket
  sent : Bool
  connected : Bool
  packets : List TransactionsPacket

def SmartConsensus.third (s : SmartConsensus) : ThirdStage where
  smartConfidants := s.smartConfidants
  ownSmartsConfNum := s.ownSmartsConfNum
  id := s.id
  storage := s.smartStageThreeStorage
  temp := s.smartStageThreeTempStorage
  pack := s.finalSmartTransactionPack
  sent := s.smartStageThreeSent
  connected := s.stageThreeConnected
  packets := s.separatePackets

namespace ThirdStage

def majority (T : ThirdStage) : Nat := T.smartConfidants.length / 2 + 1

def filled (T : ThirdStage) : Nat := stageSize StageThreeSmarts.sender T.storage

variable (env : ConsensusNode) (T : ThirdStage)

def verified (stage : StageThreeSmarts) : Bool :=
  T.smartConfidants[stage.sender.toNat]?.any fun key =>
    env.crypto.verifySignature stage.packageSignature key
      (T.pack.hash.elim [] fun hash => hash.toList)

/-- The messages that pass are stored, one after the other. -/
def storeAll (passes : StageThreeSmarts → Bool) (stages storage : List StageThreeSmarts) :
    List StageThreeSmarts :=
  stages.foldl (fun storage stage =>
    if passes stage then storage.set stage.sender.toNat stage else storage) storage

def place (stage : StageThreeSmarts) (T : ThirdStage) : ThirdStage :=
  if stage.sender ≠ T.ownSmartsConfNum then
    if T.sent then { T with storage := storeAll (T.verified env) [stage] T.storage }
    else { T with temp := T.temp ++ [stage] }
  else
    { T with storage :=
        storeAll (T.verified env) T.temp (T.storage.set stage.sender.toNat stage) }

def send : ThirdStage :=
  let packet := signFinal T.storage
    ((T.storage[T.ownSmartsConfNum.toNat]?).elim [] StageThreeSmarts.realTrustedMask) T.pack
  { T with connected := false, pack := packet, packets := T.packets ++ [packet] }

def check : ThirdStage :=
  if T.sent && T.filled = T.majority then
    if T.pack.hash.isNone then { T with connected := false } else T.send
  else T

def accept (stage : StageThreeSmarts) (T : ThirdStage) : ThirdStage :=
  match T.storage[stage.sender.toNat]? with
  | none => T
  | some slot => if slot.sender = stage.sender then T else (T.place env stage).check

/-- The own message is made, with the final packet. -/
def produce (pack : TransactionsPacket) (stage : StageThreeSmarts) (T : ThirdStage) : ThirdStage :=
  accept env stage { T with pack, sent := true }

def reset : ThirdStage :=
  { T with storage := List.replicate T.smartConfidants.length .new, temp := [] }

/-! ## What is to hold -/

/-- The confidants with a stored message that is verified; the own one is the node's own. -/
def authentic : Nat :=
  (List.range T.storage.length).countP fun i =>
    isFilled StageThreeSmarts.sender T.storage i &&
      (decide (i = T.ownSmartsConfNum.toNat) || T.storage[i]?.any (T.verified env))

/-- Once the own message is there and a majority is stored, the final packet has been sent once. -/
def SendsOnce : Prop :=
  T.sent = true → T.majority ≤ T.authentic env → T.packets.length = 1

/-- The confidants whose message was kept and is verified when the own one is made. -/
def early : Nat :=
  ((T.temp.filter (T.verified env)).map StageThreeSmarts.sender).dedup.length

/-- No more messages were kept than the majority lacks. -/
def Timely : Prop := T.sent = true → T.early env + 1 ≤ T.majority

instance decidableTimely (T : ThirdStage) : Decidable (T.Timely env) :=
  inferInstanceAs (Decidable (_ → _))

end ThirdStage

end CreditsNode
