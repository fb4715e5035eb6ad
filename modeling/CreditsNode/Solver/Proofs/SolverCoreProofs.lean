import CreditsNode.Solver.TrustedStage3State
import CreditsNode.Csdb.Proofs.SampleData

/-!
# Marks, masks and reads

What a mark changes, and the rules for the accesses to vectors and to the mask.
-/

namespace CreditsNode

open Effect

namespace ConsensusContext

variable {core : SolverCore} {c d : UInt8}

@[simp] theorem stageOneStorage_markUntrusted :
    (markUntrusted core d).stageOneStorage = core.stageOneStorage := by
  unfold markUntrusted
  split_ifs <;> rfl

theorem untrustedValue_markUntrusted_of_ne (h : c ≠ d) :
    untrustedValue (markUntrusted core d) c = untrustedValue core c := by
  unfold untrustedValue
  by_cases hc : c.toNat < Consensus.maxTrustedNodes
  · unfold markUntrusted
    split_ifs with hd hmarks
    · have hne : (⟨c.toNat, hc⟩ : Fin Consensus.maxTrustedNodes) ≠ ⟨d.toNat, hd⟩ := by
        intro heq
        exact h (UInt8.toNat_inj.mp (Fin.mk.inj heq))
      exact Function.update_of_ne hne _ _
    · rfl
    · rfl
  · rw [dif_neg hc, dif_neg hc]

theorem untrustedValue_markUntrusted_self (hc : c.toNat < Consensus.maxTrustedNodes) :
    untrustedValue (markUntrusted core c) c ≠ 0 := by
  unfold untrustedValue
  unfold markUntrusted
  split_ifs with hmarks
  · grind
  · intro h
    rw [h] at hmarks
    exact hmarks (by decide)

theorem untrustedValue_markUntrusted_ne_zero (h : untrustedValue core c ≠ 0) :
    untrustedValue (markUntrusted core d) c ≠ 0 := by
  by_cases hcd : c = d
  · subst hcd
    have hc : c.toNat < Consensus.maxTrustedNodes := by
      by_contra hc
      exact h (dif_neg hc)
    exact untrustedValue_markUntrusted_self hc
  · rwa [untrustedValue_markUntrusted_of_ne hcd]

end ConsensusContext

namespace TrustedStage3State

variable {α β : Type} {xs : List α} {i : Nat} {s : TrustedStage3State}
  {E : Fault → TrustedStage3State → Prop}

variable {Q : β → TrustedStage3State → Prop}

theorem wp_index_bind {f : α → Stage3M β}
    (hsome : ∀ x, xs[i]? = some x → Wp (f x) E Q s) (hnone : xs[i]? = none → E .undefined s) :
    Wp (lift (index xs i) >>= f) E Q s := by
  unfold index
  cases hx : xs[i]? with
  | some x => exact hsome x hx
  | none => exact hnone hx

theorem wp_atIndex_bind {f : α → Stage3M β} (hsome : ∀ x, xs[i]? = some x → Wp (f x) E Q s)
    (hnone : xs[i]? = none → E (.exception "out_of_range") s) :
    Wp (lift (atIndex xs i) >>= f) E Q s := by
  unfold atIndex
  cases hx : xs[i]? with
  | some x => exact hsome x hx
  | none => exact hnone hx

def marked (s : TrustedStage3State) (c : UInt8) : TrustedStage3State :=
  { s with core := ConsensusContext.markUntrusted s.core c }

theorem wp_mark {Q : Unit → TrustedStage3State → Prop} {c : UInt8} (h : Q () (s.marked c)) :
    Wp (mark c) E Q s := h

theorem wp_mark_bind {f : Unit → Stage3M β} {c : UInt8}
    (h : Wp (f ()) E Q (s.marked c)) : Wp (mark c >>= f) E Q s := h

def withMask (s : TrustedStage3State) (i : Nat) (value : UInt8) : TrustedStage3State :=
  { s with stage := { s.stage with realTrustedMask := s.stage.realTrustedMask.set i value } }

theorem wp_setTrustedMask_bind {f : Unit → Stage3M β} {value : UInt8}
    (h : i < s.stage.realTrustedMask.length →
      Returns (f ()) Q (s.withMask i value)) : Returns (setTrustedMask i value >>= f) Q s := by
  refine .bind (P := fun _ t => t = s.withMask i value ∧ i < s.stage.realTrustedMask.length)
    (.get_bind (wp_atIndex_bind (fun x hx => .set ⟨rfl, ?_⟩) fun _ => trivial)) ?_
  · exact (List.getElem?_eq_some_iff.mp hx).1
  · rintro _ _ ⟨rfl, hi⟩
    exact h hi

theorem wp_electConfidant {votes : Election} {Q : Election → TrustedStage3State → Prop}
    (htrusted : ConsensusContext.untrustedValue s.core (UInt8.ofNat i) = 0 →
      i < s.stage.realTrustedMask.length →
      Q ((s.core.findStage1 (UInt8.ofNat i)).elim votes votes.add) (s.withMask i firstWriterIndex))
    (huntrusted : ConsensusContext.untrustedValue s.core (UInt8.ofNat i) ≠ 0 →
      i < s.stage.realTrustedMask.length → Q votes (s.withMask i kUntrustedMarker)) :
    Returns (electConfidant votes i) Q s := by
  refine .get_bind ?_
  split_ifs with hmarks
  · refine wp_setTrustedMask_bind fun hi => ?_
    have hQ := htrusted hmarks hi
    cases hfind : s.core.findStage1 (UInt8.ofNat i) with
    | none =>
      rw [hfind] at hQ
      exact .pure hQ
    | some st =>
      rw [hfind] at hQ
      exact .pure hQ
  · exact wp_setTrustedMask_bind fun hi => .pure (huntrusted hmarks hi)

def demoCrypto : Crypto where
  calculateHash _ := zeroArray 32
  verifySignature signature key message :=
    signature.toList = List.replicate 64 (key.get 0) && message.drop 9 =
      List.replicate 32 (key.get 0)

/-- Three confidants, the first of them the node itself. -/
def demoContext : ConsensusContext where
  crypto := demoCrypto
  trusted := [sampleKey 1, sampleKey 2, sampleKey 3]
  ownConfNumber := 0
  currentRoundNumber := 7
  subRound := 0
  balance _ := 0
  previousHash := some (zeroArray 32)
  logConfidants n := n
  sortStakers stakers := stakers
  shuffle keys := keys

/-- All confidants agree on the characteristic hash. -/
def demoStageOne (sender : UInt8) : StageOne where
  sender := sender
  hash := sampleHash 9
  trustedCandidates := [sampleKey 1, sampleKey 2, sampleKey 3]
  hashesCandidates := []

def demoStageTwo (sender : UInt8) : StageTwo where
  sender := sender
  hashes := [sampleHash 1, sampleHash 2, sampleHash 3]
  signatures := [sampleSignature 1, sampleSignature 2, sampleSignature 3]

/-- The state when the last stage-2 message has been stored. -/
def demoState (second : StageTwo) : TrustedStage3State where
  cntRecvStages := 2
  stage := ⟨0, 0, 0, [0, 0, 0]⟩
  nextRoundTrust := []
  nextRoundHashes := []
  core :=
    { markUntrusted := fun _ => 0
      stageOneStorage := [demoStageOne 0, demoStageOne 1, demoStageOne 2]
      stageTwoStorage := [demoStageTwo 0, second, demoStageTwo 2]
      realTrustedChanged := false
      tempRealTrusted := []
      trustedCandidates := []
      hashesCandidates := [] }

def finishes (result : EStateM.Result Fault TrustedStage3State StageResult)
    (p : TrustedStage3State → Bool) : Bool :=
  match result with
  | .ok .finish t => p t
  | _ => false

theorem exists_of_finishes {result : EStateM.Result Fault TrustedStage3State StageResult}
    {p : TrustedStage3State → Bool} (h : finishes result p = true) :
    ∃ t, result = .ok .finish t ∧ p t = true := by
  unfold finishes at h
  split at h
  · exact ⟨_, rfl, h⟩
  · exact absurd h Bool.false_ne_true

end TrustedStage3State

end CreditsNode
