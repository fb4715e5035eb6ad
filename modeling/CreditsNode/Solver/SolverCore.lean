import CreditsNode.Csdb.Amount
import CreditsNode.System.Common
import CreditsNode.Lib.OrdMap
import Mathlib.Data.List.Lex

/-!
# The solver core

The stage messages of a consensus round and what the round's states share of `cs::SolverCore`
through `cs::SolverContext`: the stored messages and the marks of untrusted confidants. A confidant
is named by its position in the list.
-/

namespace CreditsNode

open ByteCodec

/-! ## Constants -/

namespace Consensus

def minTrustedNodes : Nat := 3
def maxTrustedNodes : Nat := 25
def minStakeValue : Amount := .ofInt32 50000
def startingDPOS : UInt64 := 10000

end Consensus

def firstWriterIndex : UInt8 := 0

/-! ## Stage messages -/

abbrev TransactionsPacketHash := Bytes

/-- Arrays of bytes are compared as their bytes are. -/
instance byteArrayLinearOrder (n : Nat) : LinearOrder (List.Vector UInt8 n) :=
  LinearOrder.lift' List.Vector.toList List.Vector.toList_injective

/-- The stage-1 message of a confidant. -/
structure StageOne where
  sender : UInt8
  /-- The characteristic hash that the sender computed. -/
  hash : Hash
  trustedCandidates : List PublicKey
  hashesCandidates : List TransactionsPacketHash
  messageHash : Hash := zeroArray 32
  signature : Signature := zeroArray 64
  /-- The time in milliseconds, in decimal. -/
  roundTimeStamp : Bytes := []
deriving DecidableEq

/-- The stage-2 message of a confidant. -/
structure StageTwo where
  sender : UInt8
  /-- The message hashes of the stage-1 messages that the sender received. -/
  hashes : List Hash
  signatures : List Signature
deriving DecidableEq

/-- The stage-3 message of a confidant. -/
structure StageThree where
  sender : UInt8
  writer : UInt8
  iteration : UInt8
  realTrustedMask : Bytes
deriving DecidableEq

/-! ## The core -/

/-- The members of `SolverCore` that the stages share. -/
structure SolverCore where
  markUntrusted : Fin Consensus.maxTrustedNodes → UInt8
  stageOneStorage : List StageOne
  stageTwoStorage : List StageTwo
  realTrustedChanged : Bool
  tempRealTrusted : Bytes
  trustedCandidates : List PublicKey
  hashesCandidates : List TransactionsPacketHash

namespace SolverCore

def findStage1 (core : SolverCore) (sender : UInt8) : Option StageOne :=
  core.stageOneStorage.find? fun st => st.sender = sender

def findStage2 (core : SolverCore) (sender : UInt8) : Option StageTwo :=
  core.stageTwoStorage.find? fun st => st.sender = sender

end SolverCore

/-- A candidate with its stake. -/
structure StakeHolder where
  key : PublicKey
  stake : Amount
deriving DecidableEq

/-- What a state of the round reads through `cs::SolverContext` and does not change: the round, the
chain and the libraries. -/
structure ConsensusContext where
  crypto : Crypto
  /-- `trusted()`, the confidants of the round. -/
  trusted : List PublicKey
  ownConfNumber : UInt8
  currentRoundNumber : UInt64
  subRound : UInt8
  /-- The balance that `findWalletData` finds, zero without a wallet. -/
  balance : PublicKey → Amount
  /-- The hash of the block before the round. -/
  previousHash : Option Hash
  /-- `static_cast<size_t>(4. + 1.85 * log(n / 4.))`. -/
  logConfidants : Nat → Nat
  sortStakers : List StakeHolder → List StakeHolder
  /-- `cs::Random::shuffle` with a generator seeded with the round number. -/
  shuffle : List PublicKey → List PublicKey

namespace ConsensusContext

/-- `mark_untrusted`: one more mark, up to the largest value of a byte. -/
def markUntrusted (core : SolverCore) (sender : UInt8) : SolverCore :=
  if h : sender.toNat < Consensus.maxTrustedNodes then
    if core.markUntrusted ⟨sender.toNat, h⟩ < 255 then
      { core with
        markUntrusted := Function.update core.markUntrusted ⟨sender.toNat, h⟩
          (core.markUntrusted ⟨sender.toNat, h⟩ + 1) }
    else core
  else core

def untrustedValue (core : SolverCore) (sender : UInt8) : UInt8 :=
  if h : sender.toNat < Consensus.maxTrustedNodes then core.markUntrusted ⟨sender.toNat, h⟩ else 0

def cntTrusted (context : ConsensusContext) : Nat := context.trusted.length

def checkNodeCache (context : ConsensusContext) (sender : PublicKey) : Bool :=
  if context.currentRoundNumber < Consensus.startingDPOS then true
  else if (context.balance sender).lt Consensus.minStakeValue then false
  else true

end ConsensusContext

end CreditsNode
