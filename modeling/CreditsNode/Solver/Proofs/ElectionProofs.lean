import CreditsNode.Solver.Proofs.SolverCoreProofs

/-!
# The vote on the packets of the next round

`trusted_election` counts, in one byte for each packet hash, how often the confidants without a mark
list it, repetitions included. The packets of the next round are those with more than half as many
occurrences, modulo `256`, as there are confidants.
-/

namespace CreditsNode.TrustedStage3State

open Effect ConsensusContext List

variable {context : ConsensusContext} {s t : TrustedStage3State} {hash : TransactionsPacketHash}

section Votes

variable {κ : Type} [LinearOrder κ]

def weight (votes : OrdMap κ UInt8) (key : κ) : UInt8 := (votes.find key).getD 0

theorem weight_countVote (votes : OrdMap κ UInt8) (key k : κ) :
    weight (countVote votes key) k = weight votes k + if k = key then 1 else 0 := by
  unfold weight countVote
  cases hfind : votes.find key with
  | some v =>
    grind [OrdMap.find_modify]
  | none =>
    grind [OrdMap.find_emplace_of_none]

theorem weight_foldl_countVote [BEq κ] [LawfulBEq κ] (keys : List κ) :
    ∀ (votes : OrdMap κ UInt8) (k : κ),
    weight (keys.foldl countVote votes) k = weight votes k + UInt8.ofNat (keys.count k) := by
  induction keys with
  | nil => exact fun votes k => (UInt8.add_zero _).symm
  | cons key keys ih =>
    intro votes k
    rw [foldl_cons, ih, weight_countVote, count_cons, UInt8.add_assoc]
    congr 1
    by_cases hk : k = key
    · rw [if_pos hk, if_pos (by simp [hk]), UInt8.ofNat_add, UInt8.add_comm]
      rfl
    · rw [if_neg hk, if_neg (by simpa using Ne.symm hk), UInt8.zero_add, Nat.add_zero]

theorem lt_weight_iff {votes : OrdMap κ UInt8} {key : κ} {n : Nat} :
    n < (weight votes key).toNat ↔ ∃ v, (key, v) ∈ votes.entries ∧ n < v.toNat := by
  unfold weight
  cases hfind : votes.find key with
  | none =>
    refine ⟨fun h => absurd h (Nat.not_lt_zero n), ?_⟩
    rintro ⟨v, hmem, -⟩
    exact absurd hmem (OrdMap.find_eq_none_iff.mp hfind v)
  | some v =>
    refine ⟨fun h => ⟨v, OrdMap.find_eq_some_iff.mp hfind, h⟩, ?_⟩
    rintro ⟨v', hmem, hlt⟩
    obtain rfl : v' = v := Option.some.inj ((OrdMap.find_eq_some_iff.mpr hmem).symm.trans hfind)
    exact hlt

end Votes

theorem mem_electHashes {cr : Nat} {votes : OrdMap TransactionsPacketHash UInt8} :
    hash ∈ electHashes cr votes ↔ cr < (weight votes hash).toNat := by
  rw [lt_weight_iff]
  unfold electHashes
  simp

def listed (core : SolverCore) (i : Nat) : List TransactionsPacketHash :=
  if untrustedValue core (UInt8.ofNat i) = 0 then
    ((core.findStage1 (UInt8.ofNat i)).map StageOne.hashesCandidates).getD []
  else []

def occurrences (core : SolverCore) (n : Nat) (hash : TransactionsPacketHash) : Nat :=
  ((List.range n).map fun i => (listed core i).count hash).sum

theorem wp_electConfidant_weight {votes : Election} {i : Nat} :
    Returns (electConfidant votes i)
      (fun votes' t => t.core = s.core ∧ ∀ hash, weight votes'.hashesElection hash =
        weight votes.hashesElection hash + UInt8.ofNat ((listed s.core i).count hash)) s := by
  refine wp_electConfidant (fun hmarks _ => ⟨rfl, fun hash => ?_⟩) fun hmarks _ =>
    ⟨rfl, fun hash => ?_⟩
  · unfold listed
    rw [if_pos hmarks]
    cases s.core.findStage1 (UInt8.ofNat i) with
    | none => exact (UInt8.add_zero _).symm
    | some st => exact weight_foldl_countVote _ _ _
  · unfold listed
    rw [if_neg hmarks]
    exact (UInt8.add_zero _).symm

theorem wp_trustedElection_hashes :
    Returns (trustedElection context)
      (fun _ t => ∀ hash, hash ∈ t.nextRoundHashes ↔
        electionSize context / 2 < occurrences s.core (electionSize context) hash % 256) s := by
  refine Wp.modify_bind (Wp.bind (Wp.foldlM (I := fun done votes t => t.core = s.core ∧
    ∀ hash, weight votes.hashesElection hash =
      UInt8.ofNat ((done.map fun i => (listed s.core i).count hash).sum)) ⟨rfl, fun _ =>
        rfl⟩ ?_) ?_)
  · rintro done i - votes t ⟨hcore, hvotes⟩
    refine wp_electConfidant_weight.mono ?_
    simp_all
  · rintro votes t ⟨-, hvotes⟩
    refine Returns.lift_bind fun trust _ => Wp.modify fun hash => ?_
    rw [mem_electHashes, hvotes, UInt8.toNat_ofNat']
    rfl

/-- The number of confidants without a mark that list the packet. -/
def supporters (context : ConsensusContext) (core : SolverCore) (hash : TransactionsPacketHash) :
    Nat :=
  (List.range context.cntTrusted).countP fun i => ∃ st ∈ core.stageOneStorage,
    st.sender.toNat = i ∧ untrustedValue core st.sender = 0 ∧ hash ∈ st.hashesCandidates

theorem mem_listed_iff {core : SolverCore} {i : Nat} (hi : i < 256)
    (hone : (core.stageOneStorage.map StageOne.sender).Nodup) :
    hash ∈ listed core i ↔ ∃ st ∈ core.stageOneStorage,
      st.sender.toNat = i ∧ untrustedValue core st.sender = 0 ∧ hash ∈ st.hashesCandidates := by
  have hfind : ∀ st, core.findStage1 (UInt8.ofNat i) = some st ↔
      st ∈ core.stageOneStorage ∧ st.sender = UInt8.ofNat i := fun st =>
    PairTable.find_key hone
  have hsender : ∀ c : UInt8, c.toNat = i ↔ c = UInt8.ofNat i := by
    intro c
    rw [← UInt8.toNat_inj, UInt8.toNat_ofNat', Nat.mod_eq_of_lt hi]
  unfold listed
  constructor
  · intro hmem
    split_ifs at hmem with hmarks
    · cases hst : core.findStage1 (UInt8.ofNat i) with
      | none =>
        rw [hst] at hmem
        cases hmem
      | some st =>
        grind
    · cases hmem
  · grind

/-- No confidant without a mark lists a packet twice. -/
def ListedOnce (context : ConsensusContext) (core : SolverCore) : Prop :=
  ∀ st ∈ core.stageOneStorage, st.sender.toNat < context.cntTrusted →
    untrustedValue core st.sender = 0 → st.hashesCandidates.Nodup

theorem ListedOnce.nodup_listed {core : SolverCore} (h : ListedOnce context core) {i : Nat}
    (hi : i < context.cntTrusted) (hsmall : i < 256) : (listed core i).Nodup := by
  unfold listed
  split_ifs with hmarks
  · cases hst : core.findStage1 (UInt8.ofNat i) with
    | none => exact nodup_nil
    | some st =>
      have hsender : st.sender = UInt8.ofNat i := by
        simpa using List.find?_some hst
      refine h st (List.mem_of_find?_eq_some hst) ?_ (hsender ▸ hmarks)
      rwa [hsender, UInt8.toNat_ofNat', Nat.mod_eq_of_lt hsmall]
  · exact nodup_nil

/-- Each confidant adds one or nothing to the votes for a packet. -/
theorem ListedOnce.occurrences_eq {core : SolverCore} (h : ListedOnce context core)
    (hone : (core.stageOneStorage.map StageOne.sender).Nodup) (hsmall : context.cntTrusted < 256) :
    occurrences core context.cntTrusted hash = supporters context core hash := by
  have hvotes : ∀ l : List Nat, (∀ i ∈ l, i < context.cntTrusted) →
      (l.map fun i => (listed core i).count hash).sum =
        l.countP fun i => ∃ st ∈ core.stageOneStorage,
          st.sender.toNat = i ∧ untrustedValue core st.sender = 0 ∧ hash ∈ st.hashesCandidates := by
    intro l hl
    induction l with
    | nil => rfl
    | cons i l ih =>
      have hi := hl i mem_cons_self
      have hnodup := h.nodup_listed hi (hi.trans hsmall)
      grind [mem_listed_iff]
  exact hvotes _ fun i hi => mem_range.mp hi

/-- If there are not more confidants than the election looks at, and none without a mark lists a
packet twice, the packets of the next round are those that more than half of the confidants list. -/
theorem trustedElection_hashes_iff (context : ConsensusContext) (s t : TrustedStage3State)
    (h : trustedElection context s = .ok () t)
    (hone : (s.core.stageOneStorage.map StageOne.sender).Nodup)
    (hcnt : context.cntTrusted ≤ Consensus.maxTrustedNodes) (honce : ListedOnce context s.core) :
    ∀ hash, hash ∈ t.nextRoundHashes ↔ context.cntTrusted < 2 * supporters context s.core hash := by
  intro hash
  have hsmall : context.cntTrusted < 256 := hcnt.trans_lt (by decide)
  have hsize : electionSize context = context.cntTrusted := by
    unfold electionSize
    rw [Nat.mod_eq_of_lt hsmall, Nat.min_eq_left hcnt]
  have hle : supporters context s.core hash ≤ context.cntTrusted :=
    countP_le_length.trans_eq length_range
  rw [wp_trustedElection_hashes.of_ok h hash, hsize, honce.occurrences_eq hone hsmall,
    Nat.mod_eq_of_lt (by omega)]
  omega

/-- Three confidants, with the packets that each of them lists. -/
def demoElection (first second third : List TransactionsPacketHash) : TrustedStage3State :=
  { demoState (demoStageTwo 1) with
    core := { (demoState (demoStageTwo 1)).core with
      stageOneStorage :=
        [{ demoStageOne 0 with hashesCandidates := first },
          { demoStageOne 1 with hashesCandidates := second },
          { demoStageOne 2 with hashesCandidates := third }] } }

def electedHashes (s : TrustedStage3State) : Option (List TransactionsPacketHash) :=
  match trustedElection demoContext s with
  | .ok _ t => some t.nextRoundHashes
  | .error _ _ => none

theorem exists_of_electedHashes {hashes : List TransactionsPacketHash}
    (h : electedHashes s = some hashes) :
    ∃ t, trustedElection demoContext s = .ok () t ∧ t.nextRoundHashes = hashes := by
  grind [electedHashes]

/-- Two of three confidants list the first packet, one of them a second one. -/
theorem trustedElection_hashes_iff_two :
    ∃ t, trustedElection demoContext (demoElection [[1]] [[1], [2]] []) = .ok () t ∧
      ∀ hash, hash ∈ t.nextRoundHashes ↔
        3 < 2 * supporters demoContext (demoElection [[1]] [[1], [2]] []).core hash := by
  have helected : electedHashes (demoElection [[1]] [[1], [2]] []) = some [[1]] := by decide +kernel
  obtain ⟨t, ht, -⟩ := exists_of_electedHashes helected
  refine ⟨t, ht, trustedElection_hashes_iff demoContext _ t ht ?_ ?_ ?_⟩
  · decide +kernel
  · decide +kernel
  · unfold ListedOnce
    decide +kernel

/-- A confidant who lists a packet twice gets it through alone, and one who lists it often enough
for the counter to wrap keeps out a packet that all three list. -/
theorem trustedElection_counts_repeats :
    (electedHashes (demoElection [] [[1], [1]] []) = some [[1]] ∧
        supporters demoContext (demoElection [] [[1], [1]] []).core [1] = 1) ∧
      electedHashes (demoElection [[1]] (List.replicate 254 [1]) [[1]]) = some [] ∧
        supporters demoContext (demoElection [[1]] (List.replicate 254 [1]) [[1]]).core
          [1] = 3 := by
  decide +kernel

end CreditsNode.TrustedStage3State
