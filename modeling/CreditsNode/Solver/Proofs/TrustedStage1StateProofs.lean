import CreditsNode.Solver.TrustedStage1State
import CreditsNode.Solver.Proofs.TrustedStage2StateProofs

/-!
# Whose hashes are enough

The first stage has enough hashes when three senders have reported the hash of the node itself and
the counter has come to half the confidants. A hash is counted twice when a confidant sends it
again, and when it is reported again after the packets have been synchronised.
-/

namespace CreditsNode

open ByteCodec Effect EventSystem List

namespace Solver

def KeepsRound (s t : Solver) : Prop :=
  t.context = s.context ∧ (t.state = .trusted1 → s.state = .trusted1)

instance isPreorderKeepsRound : IsPreorder Solver KeepsRound where
  refl _ := ⟨rfl, id⟩
  trans _ _ _ h₁ h₂ := ⟨h₂.1.trans h₁.1, fun h => h₁.2 (h₂.2 h)⟩

theorem within_putStage1 (st : StageOne) : Within KeepsRound (putStage1 st) := by
  refine .get_bind fun s => .lift_bind (fun signatures _ => ?_) fun _ _ => refl_of KeepsRound s
  refine .lift_bind (fun hashes _ => .set ⟨rfl, id⟩) fun _ _ => refl_of KeepsRound s

theorem within_countStage1 : Within KeepsRound countStage1 := by
  have hadd : ∀ stage, Within KeepsRound (addStage2 stage) := fun stage => by
    refine .bind (.modify fun s => ⟨rfl, id⟩) fun _ => .modify fun s => ?_
    cases s.core.findStage2 stage.sender with
    | none => exact ⟨rfl, id⟩
    | some _ => exact refl_of KeepsRound s
  refine .bind (.modify fun s => ⟨rfl, id⟩) fun _ => .bind .get fun s => ?_
  exact .ite (.bind (hadd _) fun _ => .pure _) (.pure _)

theorem within_onStage1 (st : StageOne) : Within KeepsRound (onStage1 st) := by
  refine .bind (within_putStage1 st) fun _ => .get_bind fun s => ?_
  split_ifs
  · exact refl_of KeepsRound s
  cases s.core.findStage1 s.context.ownConfNumber with
  | none => exact refl_of KeepsRound s
  | some own =>
    refine .lift_bind (fun myStamp _ => ?_) fun _ _ => refl_of KeepsRound s
    refine .lift_bind (fun otherStamp _ => ?_) fun _ _ => refl_of KeepsRound s
    split_ifs
    · exact .set_bind ((within_countStage1 _).leaves_mono fun _ h => h)
    · exact within_countStage1 s

theorem within_completeStage2 : Within KeepsRound completeStage2 := by
  refine .modify fun s => ?_
  cases hnext : transitions s.state .stage1Enough with
  | none => exact refl_of KeepsRound s
  | some next =>
    refine ⟨rfl, fun (h : next = .trusted1) => ?_⟩
    subst h
    cases hstate : s.state <;> rw [hstate] at hnext <;> cases hnext

theorem within_gotStageOne (st : StageOne) : Within KeepsRound (gotStageOne st) := by
  have hreport : Within KeepsRound (reportStage1 st) := by
    refine .bind .get fun s => .ite (.bind (within_onStage1 st) fun result => ?_) (.pure _)
    exact .ite within_completeStage2 (.pure _)
  have hstore : ∀ taken storage, Within KeepsRound (storeStage1 st taken storage) :=
    fun taken storage => .ite (.bind (.modify fun s => ⟨rfl, id⟩) fun _ => hreport)
      (.modify fun s => ⟨rfl, id⟩)
  refine .bind .get fun s => ?_
  cases s.core.findStage1 st.sender with
  | none => exact hstore _ _
  | some old => exact hstore _ _

theorem within_on : Within KeepsRound on := by
  have hfake : ∀ i, Within KeepsRound (fakeStage1 i) := fun i =>
    .bind .get fun s => .ite (within_gotStageOne _) (.pure _)
  have hinit : Within KeepsRound initStage2 := by
    refine .bind (.modify fun s => ⟨rfl, id⟩) fun _ => .bind .get fun s => ?_
    cases s.core.findStage1 s.context.ownConfNumber with
    | none => exact .pure _
    | some own => exact within_putStage1 own
  have hearly : ∀ finish st, Within KeepsRound (onEarlyStage1 finish st) := fun finish st =>
    .bind (within_onStage1 st) fun _ => .pure _
  have hblack : ∀ i, Within KeepsRound (fakeBlackListed i) := by
    refine fun i => .bind .get fun s => ?_
    cases s.context.trusted[i.toNat]? with
    | none => exact .throw _
    | some key => exact .ite (hfake i) (.pure _)
  refine .bind hinit fun _ => .bind .get fun s => .bind (.foldlM hearly _ _) fun finish => ?_
  exact .ite within_completeStage2 (.forM hblack _)

/-- Whatever an event does, the first stage begins only if the table says so. -/
theorem wp_handleTransitions_keepsRound (evt : CoreEvent) (own : Option StageOne) (s : Solver)
    (hevt : transitions s.state evt ≠ some .trusted1) :
    Leaves (handleTransitions evt own) (KeepsRound s) s := by
  have hoff : Within KeepsRound (off own) := by
    refine .bind .get fun s => ?_
    split
    · exact within_gotStageOne _
    · exact .pure _
  refine .get_bind ?_
  cases hnext : transitions s.state evt with
  | none => exact refl_of KeepsRound s
  | some next =>
    refine .bind (hoff s) fun _ t ht => .modify_bind ?_
    have hset : KeepsRound s { t with state := next } :=
      ⟨ht.1, fun (h : next = .trusted1) => absurd (h ▸ hnext) hevt⟩
    split_ifs
    · exact (within_on { t with state := next }).leaves_mono fun _ hu => trans_of KeepsRound hset hu
    · exact hset

theorem transitions_eq_trusted1 {state : NodeState} {evt : CoreEvent}
    (h : transitions state evt = some .trusted1) : state = .handleRT ∧ evt = .setTrusted := by
  cases state <;> cases evt <;> first | exact ⟨rfl, rfl⟩ | cases h

end Solver

namespace HashSolver

variable {env : FirstStageContext} {s t : HashSolver}

/-- Only the rest of the core has changed. -/
structure Aside (s t : HashSolver) : Prop where
  stage1 : t.stage1 = s.stage1
  recvHash : t.recvHash = s.recvHash
  lastHash : t.lastHash = s.lastHash
  agreements : t.agreements = s.agreements
  solver : Solver.KeepsRound s.solver t.solver

theorem wp_inSolver {α : Type} {m : Solver.SolverM α}
    (h : Leaves m (Solver.KeepsRound s.solver) s.solver) : Leaves (inSolver m) (Aside s) s := by
  unfold Leaves Wp inSolver
  cases hm : m s.solver with
  | ok a u => exact ⟨rfl, rfl, rfl, rfl, h.of_ok hm⟩
  | error e u => exact ⟨rfl, rfl, rfl, rfl, h.of_error hm⟩

theorem wp_handleTransitions_aside {evt : CoreEvent}
    (hevt : transitions s.solver.state evt ≠ some .trusted1) :
    Leaves (handleTransitions env evt) (Aside s) s := by
  refine .get_bind ?_
  rw [if_neg hevt]
  refine .bind (wp_inSolver (Solver.wp_handleTransitions_keepsRound _ _ _ hevt)) fun _ t ht => ?_
  exact .pure ht

section Tally

variable (env) (received : StageHash → Prop) (lasts : PoolHash → Prop) (once : Prop)

def Reported (sender : PublicKey) : Prop :=
  ∃ item, received item ∧ item.sender = sender ∧
    ∃ last, lasts last ∧ spoileHash env last sender = item.hash

def confidantsOf (confidants candidates : List PublicKey) : List PublicKey :=
  candidates.filter confidants.contains

/-- An agreement rests on the reports of different senders, and, if no report is counted twice, of
half the confidants. -/
structure Grounded (a : Agreement) : Prop where
  nodup : a.candidates.Nodup
  enough : Consensus.minTrustedNodes ≤ a.candidates.length
  reported : ∀ k ∈ a.candidates, Reported env received lasts k
  half : once → a.confidants.length / 2 ≤ (confidantsOf a.confidants a.candidates).length

/-- What the first stage has counted. -/
structure Tallied (s : HashSolver) : Prop where
  nodup : s.stage1.stage.trustedCandidates.Nodup
  reported : ∀ k ∈ s.stage1.stage.trustedCandidates, Reported env received lasts k
  kept : ∀ item ∈ s.recvHash, received item
  lastHash : lasts s.lastHash
  count : once → s.solver.state = .trusted1 → s.stage1.likeMineHashes =
    (confidantsOf s.confidants s.stage1.stage.trustedCandidates).length
  agreements : ∀ a ∈ s.agreements, Grounded env received lasts once a

variable {env received lasts once}

theorem confidants_of_keepsRound (h : Solver.KeepsRound s.solver t.solver) :
    t.confidants = s.confidants := by
  unfold confidants
  rw [h.1]

theorem tallied_on (hkept : ∀ item ∈ s.recvHash, received item) (hlast : lasts s.lastHash)
    (hagreements : ∀ a ∈ s.agreements, Grounded env received lasts once a) :
    Tallied env received lasts once s.on :=
  ⟨nodup_nil, nofun, hkept, hlast, fun _ _ => rfl, hagreements⟩

section Counting

variable (h : Tallied env received lasts once s)

include h

theorem Tallied.congr
    (hcandidates : t.stage1.stage.trustedCandidates = s.stage1.stage.trustedCandidates)
    (hcount : t.stage1.likeMineHashes = s.stage1.likeMineHashes) (hkept : t.recvHash ⊆ s.recvHash)
    (hlast : t.lastHash = s.lastHash) (hagreements : t.agreements = s.agreements)
    (hsolver : Solver.KeepsRound s.solver t.solver) : Tallied env received lasts once t := by
  refine ⟨hcandidates ▸ h.nodup, hcandidates ▸ h.reported,
    fun item hitem => h.kept item (hkept hitem),
    hlast ▸ h.lastHash, fun honce hstate => ?_, hagreements ▸ h.agreements⟩
  rw [hcount, hcandidates, confidants_of_keepsRound hsolver]
  exact h.count honce (hsolver.2 hstate)

theorem Tallied.aside (hst : Aside s t) : Tallied env received lasts once t := by
  refine h.congr ?_ ?_ ?_ hst.lastHash hst.agreements hst.solver
  · rw [hst.stage1]
  · rw [hst.stage1]
  · rw [hst.recvHash]
    exact List.Subset.refl _

def Fresh (env : FirstStageContext) (s : HashSolver) (item : StageHash) : Prop :=
  item.sender ∈ s.confidants → spoileHash env s.lastHash item.sender = item.hash →
    item.sender ∉ s.stage1.stage.trustedCandidates

theorem Tallied.matching {item : StageHash}
    (hitem : received item) (hmatch : spoileHash env s.lastHash item.sender = item.hash)
    (hstate : s.solver.state = .trusted1) (hfresh : once → Fresh env s item) :
    Tallied env received lasts once (countMatching item.sender s) := by
  have hreported : Reported env received lasts item.sender :=
    ⟨item, hitem, rfl, s.lastHash, h.lastHash, hmatch⟩
  by_cases hmem : item.sender ∈ s.stage1.stage.trustedCandidates
  · have hsame : (countMatching item.sender s).stage1.stage.trustedCandidates =
        s.stage1.stage.trustedCandidates := if_pos hmem
    refine ⟨hsame ▸ h.nodup, hsame ▸ h.reported, h.kept, h.lastHash, fun honce _ => ?_,
      h.agreements⟩
    -- a sender that is known already is no confidant
    have hnot : item.sender ∉ s.confidants := fun hconf => hfresh honce hconf hmatch hmem
    rw [hsame]
    exact (if_neg hnot).trans (h.count honce hstate)
  · have hadd : (countMatching item.sender s).stage1.stage.trustedCandidates =
        s.stage1.stage.trustedCandidates ++ [item.sender] := if_neg hmem
    refine ⟨?_, ?_, h.kept, h.lastHash, fun honce _ => ?_, h.agreements⟩
    · have hnodup := h.nodup
      grind
    · have hreported' := h.reported
      grind
    · have hcount := h.count honce hstate
      rw [hadd, confidantsOf, filter_append, length_append]
      change (if item.sender ∈ s.confidants then s.stage1.likeMineHashes + 1
        else s.stage1.likeMineHashes) = _
      rw [hcount]
      by_cases hconf : item.sender ∈ s.confidants
      · have hsingle : [item.sender].filter s.confidants.contains = [item.sender] :=
          filter_eq_self.mpr (by simpa using hconf)
        rw [if_pos hconf]
        exact congrArg (_ + ·) (congrArg length hsingle).symm
      · have hsingle : [item.sender].filter s.confidants.contains = [] :=
          filter_eq_nil_iff.mpr (by simpa using hconf)
        rw [if_neg hconf]
        exact congrArg (_ + ·) (congrArg length hsingle).symm

theorem Tallied.agreed (hstate : s.solver.state = .trusted1)
    (henough : Consensus.minTrustedNodes ≤ s.stage1.stage.trustedCandidates.length)
    (hhalf : s.confidants.length / 2 ≤ s.stage1.likeMineHashes) :
    Tallied env received lasts once (agree s) := by
  refine ⟨h.nodup, h.reported, h.kept, h.lastHash, h.count, fun a ha => ?_⟩
  rcases mem_append.mp ha with ha | ha
  · exact h.agreements a ha
  · rw [mem_singleton.mp ha]
    refine ⟨h.nodup, henough, h.reported, fun honce => ?_⟩
    rw [← h.count honce hstate]
    exact hhalf

/-- What handling a hash does beside counting. -/
structure Handles (env : FirstStageContext) (item : StageHash) (s t : HashSolver) : Prop where
  lastHash : t.lastHash = s.lastHash
  solver : Solver.KeepsRound s.solver t.solver
  candidates : ∀ k ∈ t.stage1.stage.trustedCandidates, k ∈ s.stage1.stage.trustedCandidates ∨
    (k = item.sender ∧ spoileHash env s.lastHash k = item.hash)

variable {E : Fault → HashSolver → Prop} {item : StageHash}

theorem wp_checkAgreement
    (hstate : s.solver.state = .trusted1) :
    Wp checkAgreement E (fun _ t => Tallied env received lasts once t ∧ t.solver = s.solver ∧
      t.lastHash = s.lastHash ∧
      t.stage1.stage.trustedCandidates = s.stage1.stage.trustedCandidates) s := by
  refine .get_bind ?_
  refine .ite (fun henough => ?_) fun henough => ?_
  · by_cases hhalf : s.confidants.length / 2 ≤ s.stage1.likeMineHashes
    · rw [if_pos hhalf]
      exact .modify_bind (.pure ⟨h.agreed hstate henough hhalf, rfl, rfl, rfl⟩)
    split_ifs
    · refine .modify_bind (.pure ⟨?_, rfl, rfl, rfl⟩)
      exact h.congr rfl rfl (List.Subset.refl _) rfl rfl (refl_of Solver.KeepsRound _)
    · exact .pure ⟨h, rfl, rfl, rfl⟩
  · exact .pure ⟨h, rfl, rfl, rfl⟩

theorem wp_onHash (hstate : s.solver.state = .trusted1)
    (hitem : received item) (hfresh : once → Fresh env s item) :
    Wp (onHash env item.hash item.sender) E (fun _ t => Tallied env received lasts once t ∧
      t.solver = s.solver ∧ Handles env item s t) s := by
  refine .get_bind ?_
  refine .ite (fun hmatch => ?_) fun hmatch => ?_
  · refine .modify_bind ((wp_checkAgreement (h.matching hitem hmatch hstate hfresh) hstate).mono ?_)
    rintro _ t ⟨ht, hsolver, hlast, hcandidates⟩
    refine ⟨ht, hsolver, hlast, hsolver ▸ refl_of Solver.KeepsRound _, fun k hk => ?_⟩
    rw [hcandidates] at hk
    change k ∈ (if item.sender ∈
      s.stage1.stage.trustedCandidates then s.stage1.stage.trustedCandidates
      else s.stage1.stage.trustedCandidates ++ [item.sender]) at hk
    grind
  · refine .modify_bind (.pure ?_)
    have hcountDifferent : (countDifferent item.hash item.sender s).stage1.stage = s.stage1.stage ∧
        (countDifferent item.hash item.sender s).stage1.likeMineHashes = s.stage1.likeMineHashes ∧
        (countDifferent item.hash item.sender s).recvHash = s.recvHash ∧
        (countDifferent item.hash item.sender s).lastHash = s.lastHash ∧
        (countDifferent item.hash item.sender s).agreements = s.agreements ∧
        (countDifferent item.hash item.sender s).solver = s.solver := by
      grind [countDifferent, askTrustedRound]
    obtain ⟨hstage, hcount, hrecv, hlast, hagreements, hsolver⟩ := hcountDifferent
    have hkeeps : Solver.KeepsRound s.solver (countDifferent item.hash item.sender s).solver :=
      hsolver ▸ refl_of Solver.KeepsRound _
    refine ⟨h.congr (by rw [hstage]) hcount ?_ hlast hagreements hkeeps, hsolver, hlast, hkeeps,
      fun k hk => .inl ?_⟩
    · rw [hrecv]
      exact List.Subset.refl _
    · rwa [hstage] at hk

theorem wp_report {m : HashM StageResult} {evt : CoreEvent} {R : HashSolver → HashSolver → Prop}
    (hevt : transitions .trusted1 evt ≠ some .trusted1) (hs : R s s)
    (haside : ∀ t u, R s t → Aside t u → R s u)
    (hm : s.solver.state = .trusted1 → Wp m (fun _ t => Tallied env received lasts once t)
      (fun _ t => Tallied env received lasts once t ∧ t.solver = s.solver ∧ R s t) s) :
    Wp (do
        if (← get).solver.state = .trusted1 then
          let result ← m
          if result = .finish then handleTransitions env evt)
      (fun _ t => Tallied env received lasts once t)
      (fun _ t => Tallied env received lasts once t ∧ R s t) s := by
  refine .get_bind (.ite (fun hstate => ?_) fun _ => .pure ⟨h, hs⟩)
  refine .bind (hm hstate) ?_
  rintro result t ⟨ht, hsolver, hR⟩
  refine .ite (fun _ => ?_) fun _ => .pure ⟨ht, hR⟩
  have hevt' : transitions t.solver.state evt ≠ some .trusted1 := by rwa [hsolver, hstate]
  exact (wp_handleTransitions_aside hevt').imp (fun _ u hu => ht.aside hu) fun _ u hu =>
    ⟨ht.aside hu, haside t u hR hu⟩

theorem wp_reportHash (hitem : received item)
    (hfresh : once → s.solver.state = .trusted1 → Fresh env s item) :
    Wp (reportHash env item) (fun _ t => Tallied env received lasts once t)
      (fun _ t => Tallied env received lasts once t ∧ Handles env item s t) s := by
  refine wp_report h (by decide) ⟨rfl, refl_of Solver.KeepsRound _, fun k hk => .inl hk⟩
    (fun t u hst htu => ?_) fun hstate => wp_onHash h hstate hitem fun honce => hfresh honce hstate
  refine ⟨htu.lastHash.trans hst.lastHash, trans_of Solver.KeepsRound hst.solver htu.solver, ?_⟩
  rw [htu.stage1]
  exact hst.candidates

def matchingKept (env : FirstStageContext) (s : HashSolver) : List StageHash :=
  s.recvHash.filter fun item =>
    s.confidants.contains item.sender && spoileHash env s.lastHash item.sender = item.hash

/-- No matching hash of a confidant is counted that has been counted before: neither one that
arrives nor one that is reported again. -/
def CountsOnce (env : FirstStageContext) (op : Op) (s : HashSolver) : Prop :=
  match op with
  | .gotHash sHash => s.solver.state = .trusted1 → Fresh env s sHash
  | .gotConveyerSync _ => s.solver.state = .trusted1 →
      (∀ item ∈ s.recvHash, Fresh env s item) ∧ ((matchingKept env s).map StageHash.sender).Nodup
  | _ => True

def Brings (received : StageHash → Prop) (lasts : PoolHash → Prop) : Op → Prop
  | .gotHash sHash => received sHash
  | .setLastBlock hash _ => lasts hash
  | _ => True

theorem wp_gotHash (hitem : received item)
    (hfresh : once → s.solver.state = .trusted1 → Fresh env s item) :
    Leaves (gotHash env item) (Tallied env received lasts once) s := by
  have hkept : Tallied env received lasts once (keepHash item s) := by
    refine ⟨h.nodup, h.reported, fun other hother => ?_, h.lastHash, h.count, h.agreements⟩
    rcases mem_append.mp hother with hother | hother
    · exact h.kept other (eraseP_subset hother)
    · rw [mem_singleton.mp hother]
      exact hitem
  refine .get_bind ?_
  refine .ite (fun hgray => ?_) fun hgray => ?_
  · exact .pure h
  refine .ite (fun hcache => ?_) fun hcache => ?_
  · exact .pure h
  refine .modify_bind ?_
  refine .ite (fun hdelta => ?_) fun hdelta => ?_
  · exact .pure hkept
  · exact (wp_reportHash hkept hitem hfresh).mono fun _ t ht => ht.1

/-- What synchronising the packets leaves alone. -/
structure Syncs (s t : HashSolver) : Prop where
  lastHash : t.lastHash = s.lastHash
  recvHash : t.recvHash = s.recvHash
  solver : Solver.KeepsRound s.solver t.solver
  candidates : t.stage1.stage.trustedCandidates = s.stage1.stage.trustedCandidates

theorem wp_reportSync (rNum : UInt64) :
    Wp (reportSync env rNum) (fun _ t => Tallied env received lasts once t)
      (fun _ t => Tallied env received lasts once t ∧ Syncs s t) s := by
  have hsame := refl_of Solver.KeepsRound s.solver
  refine wp_report h (by decide) ⟨rfl, rfl, hsame, rfl⟩ (fun t u hst htu => ?_) fun _ => ?_
  · exact ⟨htu.lastHash.trans hst.lastHash, htu.recvHash.trans hst.recvHash,
      trans_of Solver.KeepsRound hst.solver htu.solver, by rw [htu.stage1, hst.candidates]⟩
  refine .get_bind ?_
  refine .ite (fun hold => ?_) fun hold => ?_
  · exact .pure ⟨h, rfl, rfl, rfl, hsame, rfl⟩
  cases s.conveyer.createPacket rNum with
  | none => exact .pure ⟨h, rfl, rfl, rfl, hsame, rfl⟩
  | some packets =>
    cases s.conveyer.getMeta s.solver.context.currentRoundNumber with
    | none => exact .throw h
    | some element =>
      refine .set_bind (.pure ⟨?_, rfl, rfl, rfl, hsame, rfl⟩)
      exact h.congr rfl rfl (List.Subset.refl _) rfl rfl hsame

theorem wp_reportKept
    (hfresh : once → s.solver.state = .trusted1 → (∀ item ∈ s.recvHash, Fresh env s item) ∧
      ((matchingKept env s).map StageHash.sender).Nodup) :
    Leaves (s.recvHash.forM (reportHash env)) (Tallied env received lasts once) s := by
  -- what has been handled is the only thing that is counted in addition
  refine (Wp.forM_split (I := fun done t => Tallied env received lasts once t ∧
    t.lastHash = s.lastHash ∧ Solver.KeepsRound s.solver t.solver ∧
    ∀ k ∈ t.stage1.stage.trustedCandidates, k ∈ s.stage1.stage.trustedCandidates ∨
      ∃ item ∈ done, item.sender = k ∧ spoileHash env s.lastHash k = item.hash)
    ⟨h, rfl, refl_of Solver.KeepsRound _, fun k hk => .inl hk⟩ ?_).mono fun _ t ht => ht.1
  rintro done item rest hsplit t ⟨ht, hlast, hkeeps, hcandidates⟩
  have hmem : item ∈ s.recvHash := by simp [← hsplit]
  have hconfidants := confidants_of_keepsRound hkeeps
  have hfresh' : once → t.solver.state = .trusted1 → Fresh env t item := by
    intro honce htrusted hconf hmatch hcand
    obtain ⟨hall, hnodup⟩ := hfresh honce (hkeeps.2 htrusted)
    rw [hconfidants] at hconf
    rw [hlast] at hmatch
    rcases hcandidates _ hcand with hold | ⟨other, hother, hsender, hotherMatch⟩
    · exact hall item hmem hconf hmatch hold
    · -- two matching hashes of one confidant are kept
      have hpred : ∀ x : StageHash, x.sender = item.sender →
          spoileHash env s.lastHash item.sender = x.hash →
          (s.confidants.contains x.sender && spoileHash env s.lastHash x.sender = x.hash) =
            true := by
        intro x hx hxm
        rw [Bool.and_eq_true, contains_iff_mem, decide_eq_true_eq, hx]
        exact ⟨hconf, hxm⟩
      unfold matchingKept at hnodup
      rw [← hsplit, filter_append, map_append, nodup_append] at hnodup
      refine hnodup.2.2 item.sender ?_ item.sender ?_ rfl
      · rw [← hsender]
        exact mem_map_of_mem (mem_filter.mpr ⟨hother, hpred other hsender hotherMatch⟩)
      · exact mem_map_of_mem (mem_filter.mpr
          ⟨mem_cons_self, hpred item rfl hmatch⟩)
  refine (wp_reportHash ht (h.kept item hmem) hfresh').mono ?_
  rintro _ u ⟨hu, hhandles⟩
  refine ⟨hu, hhandles.lastHash.trans hlast, trans_of Solver.KeepsRound hkeeps hhandles.solver,
    fun k hk => ?_⟩
  rcases hhandles.candidates k hk with hold | ⟨rfl, hmatch⟩
  · refine (hcandidates k hold).imp id fun ⟨other, hother, hsender⟩ => ?_
    exact ⟨other, mem_append_left _ hother, hsender⟩
  · rw [hlast] at hmatch
    exact .inr ⟨item, by simp, rfl, hmatch⟩

theorem wp_gotConveyerSync {rNum : UInt64}
    (hfresh : once → CountsOnce env (.gotConveyerSync rNum) s) :
    Leaves (gotConveyerSync env rNum) (Tallied env received lasts once) s := by
  have hreset : Tallied env received lasts once
      { s with solver.core.markUntrusted := fun _ => 0 } :=
    h.congr rfl rfl (List.Subset.refl _) rfl rfl ⟨rfl, id⟩
  refine .modify_bind (.bind (wp_reportSync hreset rNum) ?_)
  rintro _ t ⟨ht, ⟨hlast, hrecv, hkeeps, hcandidates⟩⟩
  refine .get_bind ?_
  split_ifs
  · have hconfidants : t.confidants = s.confidants := confidants_of_keepsRound hkeeps
    have hfresh' : ∀ item, Fresh env s item → Fresh env t item := by
      intro item hitem
      unfold Fresh
      rw [hconfidants, hlast, hcandidates]
      exact hitem
    have hmatching : matchingKept env t = matchingKept env s := by
      unfold matchingKept
      rw [hrecv, hconfidants, hlast]
    refine wp_reportKept ht fun honce hstate => ?_
    obtain ⟨hall, hnodup⟩ := hfresh honce (hkeeps.2 hstate)
    rw [hrecv, hmatching]
    exact ⟨fun item hitem => hfresh' item (hall item hitem), hnodup⟩
  · exact .pure ht

theorem wp_handleTransitions {evt : CoreEvent} :
    Leaves (handleTransitions env evt) (Tallied env received lasts once) s := by
  by_cases hevt : transitions s.solver.state evt = some .trusted1
  · obtain ⟨hstate, rfl⟩ := Solver.transitions_eq_trusted1 hevt
    have hrun : ∀ own, Solver.handleTransitions .setTrusted own s.solver =
        .ok () { s.solver with state := .trusted1 } := by
      intro own
      obtain ⟨solver, _⟩ := s
      obtain ⟨context, core, state, stage2, sent⟩ := solver
      cases hstate
      rfl
    refine .get_bind ?_
    rw [if_pos hevt]
    have hset : Wp (inSolver (Solver.handleTransitions .setTrusted (ownStage env s)))
        (fun _ t => Tallied env received lasts once t)
        (fun _ t => t = { s with solver := { s.solver with state := .trusted1 } }) s := by
      unfold Wp inSolver
      rw [hrun]
    refine .bind hset ?_
    rintro _ _ rfl
    exact .modify (tallied_on h.kept h.lastHash h.agreements)
  · exact (wp_handleTransitions_aside hevt).leaves_mono fun _ ht => h.aside ht

theorem wp_nextRound {context : RoundContext} {conveyer : Conveyer} {updateRound : Bool} :
    Leaves (nextRound context conveyer updateRound) (Tallied env received lasts once) s := by
  have hround : ∃ u, Solver.nextRound context s.solver = .ok () u ∧ u.state ≠ .trusted1 := by
    obtain ⟨context', core, state, stage2, sent⟩ := s.solver
    cases state <;> exact ⟨_, rfl, NodeState.noConfusion⟩
  obtain ⟨u, hu, hstate⟩ := hround
  refine .modify_bind ?_
  unfold Wp inSolver
  dsimp only
  rw [hu]
  refine ⟨h.nodup, h.reported, fun item hitem => ?_, h.lastHash,
    fun _ htrusted => absurd htrusted hstate, h.agreements⟩
  cases updateRound with
  | true => exact h.kept item hitem
  | false => cases hitem

theorem Tallied.exec {op : Op}
    (hbrings : Brings received lasts op) (honce : once → CountsOnce env op s) :
    Leaves (op.exec env) (Tallied env received lasts once) s := by
  have hsame := refl_of Solver.KeepsRound s.solver
  cases op with
  | nextRound context conveyer updateRound => exact wp_nextRound h
  | event evt => exact wp_handleTransitions h
  | setLastBlock hash sequence =>
    exact .modify ⟨h.nodup, h.reported, h.kept, hbrings, h.count, h.agreements⟩
  | setConveyer conveyer =>
    exact .modify (h.congr rfl rfl (List.Subset.refl _) rfl rfl hsame)
  | setGrayList grayList =>
    exact .modify (h.congr rfl rfl (List.Subset.refl _) rfl rfl hsame)
  | gotHash sHash => exact wp_gotHash h hbrings fun honce' => honce honce'
  | gotConveyerSync rNum => exact wp_gotConveyerSync h honce
  | minTimeExpired =>
    have hexpired : Tallied env received lasts once { s with stage1.minTimeExpired := true } :=
      h.congr rfl rfl (List.Subset.refl _) rfl rfl hsame
    refine .modify_bind (.get_bind ?_)
    split_ifs
    · exact wp_handleTransitions hexpired
    · exact .pure hexpired

theorem Tallied.step {op : Op} {shown : List Agreement}
    (hbrings : Brings received lasts op) (honce : once → CountsOnce env op s)
    (hstep : step env op s = some (shown, t)) :
    Tallied env received lasts once t ∧ ∀ a ∈ shown, Grounded env received lasts once a := by
  have hcleared : Tallied env received lasts once { s with agreements := [] } :=
    ⟨h.nodup, h.reported, h.kept, h.lastHash, h.count, nofun⟩
  have honce' : once → CountsOnce env op { s with agreements := [] } := by
    intro hon
    have := honce hon
    cases op <;> exact this
  have hexec := hcleared.exec hbrings honce'
  unfold HashSolver.step at hstep
  cases hrun : op.exec env { s with agreements := [] } with
  | ok result u =>
    rw [hrun] at hstep
    cases hstep
    have hu := hexec.of_ok hrun
    exact ⟨hu, hu.agreements⟩
  | error e u =>
    rw [hrun] at hstep
    cases e with
    | exception what =>
      cases hstep
      have hu := hexec.of_error hrun
      exact ⟨hu, hu.agreements⟩
    | overflow => cases hstep
    | undefined => cases hstep
    | outOfFuel => cases hstep

end Counting

/-- A core that has not got a round yet. -/
def start (context : RoundContext) : HashSolver where
  solver := Solver.start context
  conveyer := ⟨∅, []⟩
  lastHash := none
  lastSeq := 0
  stage1 :=
    { enoughHashes := false
      transactionsChecked := false
      minTimeExpired := false
      stage :=
        { sender := 255, hash := zeroArray 32, trustedCandidates := [], hashesCandidates := [] }
      likeMineHashes := 0
      differentHashes := 0
      differKeys := [] }
  recvHash := []
  grayList := ∅
  requests := []
  agreements := []

def Got (ops : List Op) (item : StageHash) : Prop := Op.gotHash item ∈ ops

def WasLast (ops : List Op) (hash : PoolHash) : Prop :=
  hash = none ∨ ∃ sequence, Op.setLastBlock hash sequence ∈ ops

theorem grounded_of_run {context : RoundContext} {ops : List Op} {events : List Agreement}
    (hrun : run (step env) ops (start context) = some (events, t))
    (honce : Along (step env) (fun op s => once → CountsOnce env op s) ops (start context)) :
    ∀ a ∈ events, Grounded env (Got ops) (WasLast ops) once a := by
  have hbegin : Tallied env (Got ops) (WasLast ops) once (start context) :=
    ⟨nodup_nil, nofun, nofun,
      .inl rfl, fun _ _ => rfl, nofun⟩
  have hbrings : Along (step env) (fun op _ => Brings (Got ops) (WasLast ops) op) ops
      (start context) := by
    refine along_of_forall (fun op hop => ?_) _
    cases op with
    | gotHash sHash => exact hop
    | setLastBlock hash sequence => exact .inr ⟨sequence, hop⟩
    | nextRound _ _ _ | event _ | setConveyer _ | setGrayList _ | gotConveyerSync _
      | minTimeExpired =>
      exact trivial
  have hend := run_invariant (I := fun events s => Tallied env (Got ops) (WasLast ops) once s ∧
    ∀ a ∈ events, Grounded env (Got ops) (WasLast ops) once a) ?_
    ⟨hbegin, fun _ ha => absurd ha not_mem_nil⟩ hrun (hbrings.and honce)
  · exact hend.2
  · rintro op events s shown t ⟨hs, hevents⟩ ⟨hop, honce⟩ hstep
    obtain ⟨ht, hshown⟩ := hs.step hop honce hstep
    grind

end Tally

/-- Whenever `enough_hashes` is set, at least three different senders have reported the hash of the
last block, and, in a run in which no hash is counted twice, at least half the confidants are among
them. -/
theorem enough_hashes_distinct (env : FirstStageContext) (context : RoundContext) (ops : List Op)
    (events : List Agreement) (t : HashSolver)
    (hrun : run (step env) ops (start context) = some (events, t)) :
    ∀ a ∈ events, a.candidates.Nodup ∧ Consensus.minTrustedNodes ≤ a.candidates.length ∧
      (∀ k ∈ a.candidates, Reported env (Got ops) (WasLast ops) k) ∧
      (Along (step env) (CountsOnce env) ops (start context) →
        a.confidants.length / 2 ≤ (confidantsOf a.confidants a.candidates).length) := by
  intro a ha
  have hany : Along (step env) (fun op s => False → CountsOnce env op s) ops (start context) :=
    (along_of_forall (P := fun _ => True) (fun _ _ => trivial) _).mono fun _ _ _ h => h.elim
  have hgrounded := grounded_of_run hrun hany a ha
  refine ⟨hgrounded.nodup, hgrounded.enough, hgrounded.reported, fun honce => ?_⟩
  have honce' : Along (step env) (fun op s => True → CountsOnce env op s) ops (start context) :=
    honce.mono fun _ _ h _ => h
  exact (grounded_of_run hrun honce' a ha).half trivial

section Demo

instance decidableFresh (env : FirstStageContext) (s : HashSolver) (item : StageHash) :
    Decidable (Fresh env s item) :=
  inferInstanceAs (Decidable (_ → _ → _))

instance decidableCountsOnce (env : FirstStageContext) :
    (op : Op) → (s : HashSolver) → Decidable (CountsOnce env op s)
  | .gotHash sHash, s =>
    inferInstanceAs (Decidable (s.solver.state = .trusted1 → Fresh env s sHash))
  | .gotConveyerSync _, s => inferInstanceAs (Decidable (s.solver.state = .trusted1 →
      (∀ item ∈ s.recvHash, Fresh env s item) ∧ ((matchingKept env s).map StageHash.sender).Nodup))
  | .nextRound _ _ _, _ | .event _, _ | .setLastBlock _ _, _ | .setConveyer _, _ | .setGrayList _, _
  | .minTimeExpired, _ => .isTrue trivial

def demoEnv : FirstStageContext where
  calculateHash data key := List.Vector.replicate 32 (data.headD 0 + key.headD 0)
  buildVector _ _ := zeroArray 32
  finalizeStage stage := stage

/-- Five confidants, the first of them the node itself. -/
def demoRound : RoundContext :=
  { Solver.demoRound false with trusted := [1, 2, 3, 4, 5].map sampleKey }

def demoReport (sender : UInt8) : Op :=
  .gotHash
    { hash := some (sampleHash (3 + sender))
      sender := sampleKey sender
      trustedSize := 5, realTrustedSize := 5, timeStamp := 0, round := 7 }

def demoBegin : List Op :=
  [.nextRound demoRound ⟨∅, []⟩ false, .setLastBlock (some (sampleHash 3)) 6,
    .event .setTrusted]

theorem enough_hashes_distinct_two :
    ∃ events t, run (step demoEnv) (demoBegin ++ [demoReport 2, demoReport 9, demoReport 3])
        (start demoRound) = some (events, t) ∧ events.length = 1 ∧
      ∀ a ∈ events, a.confidants.length / 2 ≤ (confidantsOf a.confidants a.candidates).length := by
  have hlength : (run (step demoEnv) (demoBegin ++ [demoReport 2, demoReport 9, demoReport 3])
      (start demoRound)).map (fun result => result.1.length) = some 1 := by decide +kernel
  obtain ⟨⟨events, t⟩, hrun, hone⟩ := Option.map_eq_some_iff.mp hlength
  refine ⟨events, t, hrun, hone, fun a ha => ?_⟩
  exact (enough_hashes_distinct demoEnv demoRound _ events t hrun a ha).2.2.2 (by decide +kernel)

/-- There are enough hashes, but not half the confidants have reported theirs. -/
def AgreesTooEarly (a : Agreement) : Prop :=
  (confidantsOf a.confidants a.candidates).length < a.confidants.length / 2

/-- One of five confidants reports the hash once, with two more nodes, and the packets are
synchronised; or it reports the hash twice. In both cases there are enough hashes, with one
confidant of the two that are asked for. -/
theorem enough_hashes_one_confidant :
    (∃ result ∈ run (step demoEnv) (demoBegin ++ [demoReport 2, demoReport 8, demoReport 9,
        .gotConveyerSync 7]) (start demoRound), ∃ a ∈ result.1, AgreesTooEarly a) ∧
      ∃ result ∈ run (step demoEnv) (demoBegin ++ [demoReport 2, demoReport 2, demoReport 8,
        demoReport 9]) (start demoRound), ∃ a ∈ result.1, AgreesTooEarly a := by
  unfold AgreesTooEarly
  decide +kernel

end Demo

end HashSolver

end CreditsNode
