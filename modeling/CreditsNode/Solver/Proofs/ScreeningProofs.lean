import CreditsNode.Solver.Proofs.MajorityProofs

/-!
# The screening of the candidates

The loop over the stage-2 messages marks a confidant that proposes no candidates, one of them twice,
or one that `checkNodeCache` refuses. The last candidate of a list is not looked up.
-/

namespace CreditsNode.TrustedStage3State

open Effect ConsensusContext List

variable {context : ConsensusContext} {s t : TrustedStage3State} {ptr it : StageTwo}

def OnlyMarks (s t : TrustedStage3State) : Prop :=
  SameStageOne s t ∧ ∀ c, untrustedValue t.core c = 0 → untrustedValue s.core c = 0

instance instIsPreorderOnlyMarks : IsPreorder TrustedStage3State OnlyMarks where
  refl _ := ⟨rfl, fun _ h => h⟩
  trans _ _ _ hst htu := ⟨htu.1.trans hst.1, fun c h => hst.2 c (htu.2 c h)⟩

theorem onlyMarks_mark (c : UInt8) : Within OnlyMarks (mark c) :=
  .modify fun _ => ⟨stageOneStorage_markUntrusted,
    fun _ => not_imp_not.mp untrustedValue_markUntrusted_ne_zero⟩

/-- The confidant has a stage-1 message with candidates that satisfy `p`. -/
def Proposes (s : TrustedStage3State) (c : UInt8) (p : List PublicKey → Prop) : Prop :=
  ∃ st, s.core.findStage1 c = some st ∧ st.trustedCandidates ≠ [] ∧ p st.trustedCandidates

/-- The candidates are different, and `checkNodeCache` accepts all of them. -/
def Acceptable (context : ConsensusContext) (candidates : List PublicKey) : Prop :=
  candidates.Nodup ∧ ∀ key ∈ candidates, context.checkNodeCache key = true

theorem OnlyMarks.proposes {c : UInt8} {p : List PublicKey → Prop} (h : OnlyMarks s t) :
    Proposes t c p ↔ Proposes s c p := by
  unfold Proposes SolverCore.findStage1
  rw [h.1]

theorem badCandidates_eq_false {candidates : List PublicKey}
    (h : badCandidates context candidates = false) :
    candidates.Nodup ∧ ∀ key ∈ candidates.dropLast, context.checkNodeCache key = true := by
  fun_induction badCandidates context candidates with
  | case1 => exact ⟨nodup_nil, nofun⟩
  | case2 => exact ⟨nodup_singleton _, nofun⟩
  | case3 outer inner rest ih =>
    simp only [Bool.or_eq_false_iff, Bool.not_eq_false', contains_eq_mem,
      decide_eq_false_iff_not] at h
    obtain ⟨⟨houter, hnot⟩, hrest⟩ := h
    obtain ⟨hnodup, hall⟩ := ih hrest
    exact ⟨nodup_cons.mpr ⟨hnot, hnodup⟩, forall_mem_cons.mpr ⟨houter, hall⟩⟩

theorem acceptable_of_getLast {candidates : List PublicKey} (hne : candidates ≠ [])
    (h : badCandidates context candidates = false)
    (hlast : ∀ key ∈ candidates.getLast?, context.checkNodeCache key = true) :
    Acceptable context candidates := by
  obtain ⟨hnodup, hall⟩ := badCandidates_eq_false h
  refine ⟨hnodup, fun key hkey => ?_⟩
  rw [← dropLast_append_getLast hne, mem_append, mem_singleton] at hkey
  rcases hkey with hkey | rfl
  · exact hall key hkey
  · exact hlast _ (List.getLast?_eq_some_getLast hne)

theorem wp_screenCandidates (hsender : it.sender.toNat < Consensus.maxTrustedNodes) :
    Returns (screenCandidates context it) (fun _ t => untrustedValue t.core it.sender = 0 →
      Proposes s it.sender (badCandidates context · = false)) s := by
  have hmarked : ∀ {P : Prop}, untrustedValue (markUntrusted s.core it.sender) it.sender = 0 → P :=
    fun h => absurd h (untrustedValue_markUntrusted_self hsender)
  refine .get_bind ?_
  cases hfind : s.core.findStage1 it.sender with
  | none => exact wp_mark hmarked
  | some st =>
    dsimp only [Option.map_some, Option.getD_some]
    split_ifs with hnil hbad
    · exact wp_mark hmarked
    · exact wp_mark hmarked
    · exact .pure fun _ => ⟨st, hfind, hnil, Bool.eq_false_iff.mpr hbad⟩

theorem wp_checkStage2 (hsender : it.sender.toNat < Consensus.maxTrustedNodes) :
    Returns (checkStage2 context ptr it) (fun _ t => it.sender ≠ context.ownConfNumber →
      untrustedValue t.core it.sender = 0 →
        Proposes s it.sender (badCandidates context · = false)) s := by
  unfold checkStage2
  split_ifs with hown
  · refine ((Within.forM (within_compareSignature onlyMarks_mark ptr it) _).wp s).bind
      fun _ u hu => ?_
    exact (wp_screenCandidates hsender).mono fun _ _ h _ h0 => hu.proposes.mp (h h0)
  · exact Wp.pure fun h => absurd h hown

/-- The senders of the given messages are marked, or their candidates have passed the loop. -/
def ScreenedAll (context : ConsensusContext) (s : TrustedStage3State) (done : List StageTwo)
    (t : TrustedStage3State) : Prop :=
  OnlyMarks s t ∧ ∀ it ∈ done, it.sender.toNat < Consensus.maxTrustedNodes →
    it.sender ≠ context.ownConfNumber → untrustedValue t.core it.sender = 0 →
      Proposes s it.sender (badCandidates context · = false)

theorem ScreenedAll.mark {done : List StageTwo} {u : TrustedStage3State}
    (h : ScreenedAll context s done t) (hu : OnlyMarks t u) : ScreenedAll context s done u :=
  ⟨trans_of OnlyMarks h.1 hu, fun it hit hsmall hown h0 => h.2 it hit hsmall hown (hu.2 _ h0)⟩

theorem ScreenedAll.step {done : List StageTwo} (h : ScreenedAll context s done t) :
    Returns (checkStage2 context ptr it) (fun _ => ScreenedAll context s (done ++ [it])) t := by
  refine Wp.self.imp (fun _ _ _ => trivial) fun _ u hrun => ?_
  have hmarked := h.mark (((within_checkStage2 onlyMarks_mark ptr it).wp t).of_ok hrun)
  refine ⟨hmarked.1, fun it' hit' hsmall hown h0 => ?_⟩
  rcases mem_append.mp hit' with hit' | hit'
  · exact hmarked.2 it' hit' hsmall hown h0
  · rw [mem_singleton.mp hit'] at hsmall hown h0 ⊢
    exact h.1.proposes.mp ((wp_checkStage2 hsmall).of_ok hrun hown h0)

/-! ## What follows the loop -/

theorem onlyMarks_of_core (h : t.core = s.core) : OnlyMarks s t :=
  ⟨congrArg _ h, fun _ h0 => h ▸ h0⟩

theorem within_setTrustedMask (i : Nat) (value : UInt8) :
    Within OnlyMarks (setTrustedMask i value) := by
  refine .get_bind fun s => ?_
  cases atIndex s.stage.realTrustedMask i with
  | error e => exact refl_of OnlyMarks s
  | ok _ => exact onlyMarks_of_core rfl

theorem within_findLiars (hash : Hash) (messages : List StageOne) : ∀ liarNumber,
    Within OnlyMarks (findLiars context hash messages liarNumber) := by
  induction messages with
  | nil => exact fun _ => .pure _
  | cons it rest ih =>
    refine fun liarNumber => Within.get.bind fun s => .ite (.pure _) ?_
    refine (Within.lift _).bind fun value => .ite (ih _) ?_
    refine (onlyMarks_mark _).bind fun _ => (within_setTrustedMask _ _).bind fun _ => ?_
    exact (Within.lift _).bind fun _ => ih _

theorem wp_takeUrgentDecision_core :
    Returns (takeUrgentDecision context) (fun _ t => t.core = s.core) s := by
  unfold takeUrgentDecision
  cases context.previousHash with
  | none => exact Wp.pure rfl
  | some hash =>
    refine Wp.get_bind ?_
    dsimp only
    split_ifs
    · exact Wp.pure rfl
    · exact Returns.lift_bind fun _ _ => Returns.lift_bind fun _ _ => Wp.set_bind (Wp.pure rfl)

theorem wp_decideRound_screens :
    Returns (decideRound context ptr)
      (fun _ t => ScreenedAll context s s.core.stageTwoStorage t) s := by
  refine Wp.get_bind (Wp.bind (P := fun _ => ScreenedAll context s s.core.stageTwoStorage) ?_ ?_)
  · exact .forM ⟨refl_of OnlyMarks s, nofun⟩ fun _ it _ _ ht => ht.step
  intro _ s₁ hs₁
  refine wp_trustedElection.bind ?_
  rintro _ s₂ ⟨-, hcore₂⟩
  have hs₂ := hs₁.mark (onlyMarks_of_core hcore₂)
  refine (Wp.get_bind ((within_findLiars _ _ 0).wp s₂)).bind fun honest s₃ hs₃ => ?_
  have hs₃ := hs₂.mark hs₃
  split_ifs
  · refine wp_takeUrgentDecision_core.bind fun decided s₄ hcore₄ => ?_
    have hs₄ := hs₃.mark (onlyMarks_of_core hcore₄)
    split_ifs
    · exact Wp.modify_bind (Wp.pure (hs₄.mark ⟨rfl, fun _ h0 => h0⟩))
    · exact Wp.pure hs₄
  · exact Wp.pure hs₃

/-- The stage-2 messages of all other confidants are stored. -/
def AllStageTwo (context : ConsensusContext) (core : SolverCore) : Prop :=
  ∀ c : UInt8, c.toNat < context.cntTrusted → c ≠ context.ownConfNumber →
    ∃ it ∈ core.stageTwoStorage, it.sender = c

/-- The last candidate of every other confidant without a mark is accepted, if the loop has nothing
against the candidates. -/
def LastAccepted (context : ConsensusContext) (core : SolverCore) : Prop :=
  ∀ st ∈ core.stageOneStorage, st.sender ≠ context.ownConfNumber →
    untrustedValue core st.sender = 0 → badCandidates context st.trustedCandidates = false →
      ∀ key ∈ st.trustedCandidates.getLast?, context.checkNodeCache key = true

/-- If the last candidates are accepted, then, when `onStage2` has gone through the messages of all,
every other confidant without a mark has proposed candidates, all different and accepted. -/
theorem onStage2_screens (context : ConsensusContext) (s t : TrustedStage3State)
    (result : StageResult)
    (hcnt : context.cntTrusted ≤ Consensus.maxTrustedNodes) (hall : AllStageTwo context s.core)
    (hlast : LastAccepted context s.core) (h : onStage2 context s = .ok result t)
    (hdone : result ≠ .ignore) :
    ∀ c : UInt8, c.toNat < context.cntTrusted → c ≠ context.ownConfNumber →
      untrustedValue t.core c = 0 → Proposes t c (Acceptable context) := by
  have hscreens : Returns (onStage2 context) (fun result t => result ≠ .ignore →
      ScreenedAll context s s.core.stageTwoStorage t) s := by
    refine .modify_bind (.get_bind ?_)
    split
    · exact .pure fun h => absurd rfl h
    · split_ifs
      · exact wp_decideRound_screens.mono fun _ t ht _ => ⟨⟨ht.1.1, ht.1.2⟩, ht.2⟩
      · exact .pure fun h => absurd rfl h
  obtain ⟨hmarks, hpasses⟩ := hscreens.of_ok h hdone
  intro c hc hown h0
  obtain ⟨it, hit, rfl⟩ := hall c hc hown
  obtain ⟨st, hfind, hne, hgood⟩ := hpasses it hit (hc.trans_le hcnt) hown h0
  have hsender : st.sender = it.sender := by simpa using List.find?_some hfind
  refine hmarks.proposes.mpr ⟨st, hfind, hne, acceptable_of_getLast hne hgood ?_⟩
  refine hlast st (List.mem_of_find?_eq_some hfind) (hsender ▸ hown) ?_ hgood
  rw [hsender]
  exact hmarks.2 _ h0

theorem onStage2_screens_three :
    ∃ t, onStage2 demoContext (demoState (demoStageTwo 1)) = .ok .finish t ∧
      Proposes t 2 (Acceptable demoContext) := by
  obtain ⟨t, ht, hmark⟩ := exists_of_finishes (p := fun t => untrustedValue t.core 2 = 0)
    (show finishes (onStage2 demoContext (demoState (demoStageTwo 1))) _ = true by decide +kernel)
  refine ⟨t, ht, onStage2_screens demoContext _ t .finish (by decide) ?_ ?_ ht (by decide) 2
    (by decide) (by decide) (of_decide_eq_true hmark)⟩
  · intro c hc _
    rcases lt_cntTrusted_demo hc with rfl | rfl | rfl <;> decide
  · exact fun st _ _ _ _ key _ => if_pos (by decide)

/-- The third candidate has no stake. -/
def unstakedContext : ConsensusContext :=
  { demoContext with
    currentRoundNumber := Consensus.startingDPOS
    balance := fun key => if key = sampleKey 3 then 0 else Consensus.minStakeValue }

/-- All confidants propose it as their last one, and the round finishes without a mark. -/
theorem onStage2_last_candidate :
    ∃ t, onStage2 unstakedContext (demoState (demoStageTwo 1)) = .ok .finish t ∧
      (untrustedValue t.core 1 = 0 ∧ t.core.findStage1 1 = some (demoStageOne 1)) ∧
      sampleKey 3 ∈ (demoStageOne 1).trustedCandidates ∧
      unstakedContext.checkNodeCache (sampleKey 3) = false := by
  obtain ⟨t, ht, hmarks⟩ := exists_of_finishes
    (p := fun t => untrustedValue t.core 1 = 0 ∧ t.core.findStage1 1 = some (demoStageOne 1))
    (show finishes (onStage2 unstakedContext (demoState (demoStageTwo 1))) _ =
      true by decide +kernel)
  exact ⟨t, ht, of_decide_eq_true hmarks, by decide, by decide⟩

end CreditsNode.TrustedStage3State
