import CreditsNode.Lib.Lookup
import CreditsNode.Solver.Proofs.SolverCoreProofs

/-!
# The majority behind a finished round

The election sets the trusted mask from the marks, the analysis of the characteristic hashes takes
out those with another hash than the most frequent one, and `take_urgent_decision` numbers those
that are left. One invariant ties the passes together, `Consistent`: a confidant is trusted by the
mask exactly if it has no mark. Two majorities have a confidant in common, who is to blame if they
are for different hashes.
-/

namespace CreditsNode.TrustedStage3State

open Effect ByteCodec ConsensusContext List

variable {context : ConsensusContext} {s t : TrustedStage3State} {mask : Bytes} {i j cnt : Nat}

/-- The mask has a number for confidant `i`. -/
def isTrusted (mask : Bytes) (i : Nat) : Bool := mask[i]?.any (· ≠ kUntrustedMarker)

variable {value : UInt8} {hash : Hash}

theorem isTrusted_set_of_ne (h : j ≠ i) : isTrusted (mask.set j value) i = isTrusted mask i := by
  unfold isTrusted
  rw [List.getElem?_set_ne h]

theorem isTrusted_set_self (h : i < mask.length) :
    isTrusted (mask.set i value) i = decide (value ≠ kUntrustedMarker) := by
  unfold isTrusted
  rw [List.getElem?_set_self h, Option.any_some]

theorem isTrusted_set_marker (hj : j < mask.length) :
    isTrusted (mask.set j kUntrustedMarker) i ↔ i ≠ j ∧ isTrusted mask i := by
  grind [isTrusted_set_self, isTrusted_set_of_ne]

theorem countP_isTrusted (h : cnt ≤ mask.length) :
    cnt ≤ (List.range cnt).countP (isTrusted mask) + mask.count kUntrustedMarker := by
  have hlength : (mask.take cnt).length = cnt := length_take_of_le h
  have htrusted : (range cnt).countP (isTrusted mask) =
      (mask.take cnt).countP (· ≠ kUntrustedMarker) := by
    rw [← countP_range_getElem? _ (mask.take cnt), hlength]
    refine countP_congr fun i hi => ?_
    rw [List.getElem?_take_of_lt (mem_range.mp hi)]
    rfl
  have hprefix := List.Sublist.count_le kUntrustedMarker (take_sublist cnt mask)
  have hsplit := length_eq_countP_add_countP (· ≠ kUntrustedMarker) (l := mask.take cnt)
  have hmarked : (mask.take cnt).countP (fun value => ¬ decide (value ≠ kUntrustedMarker) = true) =
      (mask.take cnt).count kUntrustedMarker := countP_congr fun _ _ => by simp
  omega

theorem toNat_ofNat_of_le (hcnt : cnt ≤ Consensus.maxTrustedNodes) (hi : i < cnt) :
    (UInt8.ofNat i).toNat = i := by
  exact Nat.mod_eq_of_lt ((hi.trans_le hcnt).trans (by decide))

def Consistent (indices : List Nat) (s : TrustedStage3State) : Prop :=
  ∀ i ∈ indices, isTrusted s.stage.realTrustedMask i ↔ untrustedValue s.core (UInt8.ofNat i) = 0

theorem Consistent.withMask {done : List Nat} (hs : Consistent done s)
    (hvalue : value ≠ kUntrustedMarker ↔ untrustedValue s.core (UInt8.ofNat i) = 0)
    (hi : i < s.stage.realTrustedMask.length) : Consistent (done ++ [i]) (s.withMask i value) := by
  intro k hk
  by_cases hik : i = k
  · subst hik
    show isTrusted (s.stage.realTrustedMask.set i value) i ↔ _
    rw [isTrusted_set_self hi, decide_eq_true_eq, hvalue]
    rfl
  · have hdone : k ∈ done := by
      rcases mem_append.mp hk with hk | hk
      · exact hk
      · exact absurd (mem_singleton.mp hk).symm hik
    show isTrusted (s.stage.realTrustedMask.set i value) k ↔ _
    rw [isTrusted_set_of_ne hik]
    exact hs k hdone

theorem wp_trustedElection :
    Returns (trustedElection context)
      (fun _ t => Consistent (List.range (electionSize context)) t ∧ t.core = s.core) s := by
  refine Wp.modify_bind (Wp.bind (Wp.foldlM
    (I := fun done _ t => Consistent done t ∧ t.core = s.core) ⟨?_, rfl⟩ ?_) ?_)
  · exact nofun
  · rintro done i - votes t ⟨ht, hcore⟩
    refine wp_electConfidant (fun hmarks hi => ?_) fun hmarks hi => ?_
    · exact ⟨ht.withMask (iff_of_true (by decide) hmarks) hi, hcore⟩
    · exact ⟨ht.withMask (iff_of_false (by decide) hmarks) hi, hcore⟩
  · rintro votes t ⟨ht, hcore⟩
    exact Returns.lift_bind fun trust _ => Wp.modify ⟨ht, hcore⟩

/-- What the analysis keeps, and what holds of the messages that it has gone through. -/
structure Screened (hash : Hash) (done : List StageOne) (cnt : Nat)
    (s t : TrustedStage3State) : Prop where
  consistent : Consistent (List.range cnt) t
  messages : t.core.stageOneStorage = s.core.stageOneStorage
  fewer : ∀ i, isTrusted t.stage.realTrustedMask i → isTrusted s.stage.realTrustedMask i
  agree : ∀ st ∈ done, isTrusted t.stage.realTrustedMask st.sender.toNat → st.hash = hash

theorem Consistent.takeOut {c : UInt8} (hcnt : cnt ≤ Consensus.maxTrustedNodes)
    (hs : Consistent (List.range cnt) s) (hc : c.toNat < s.stage.realTrustedMask.length) :
    Consistent (List.range cnt) ((s.marked c).withMask c.toNat kUntrustedMarker) := by
  intro i hi
  have hi256 := toNat_ofNat_of_le hcnt (mem_range.mp hi)
  show isTrusted (s.stage.realTrustedMask.set c.toNat kUntrustedMarker) i ↔
    untrustedValue (markUntrusted s.core c) (UInt8.ofNat i) = 0
  by_cases hic : UInt8.ofNat i = c
  · grind [isTrusted_set_self, untrustedValue_markUntrusted_self]
  · have hne : c.toNat ≠ i := fun h => hic (by rw [← h, UInt8.ofNat_toNat])
    rw [isTrusted_set_of_ne hne, untrustedValue_markUntrusted_of_ne hic]
    exact hs i hi

theorem wp_findLiars (hcnt : cnt ≤ Consensus.maxTrustedNodes)
    (messages : List StageOne) : ∀ (liarNumber : UInt8) (s : TrustedStage3State),
    Consistent (List.range cnt) s →
    Returns (findLiars context hash messages liarNumber)
      (fun ok t => ok = true → Screened hash messages cnt s t) s := by
  induction messages with
  | nil =>
    intro liarNumber s hs
    exact .pure fun _ => ⟨hs, rfl, fun _ h => h, nofun⟩
  | cons it rest ih =>
    intro liarNumber s hs
    refine .get_bind ?_
    split_ifs with hsize
    · exact .pure nofun
    refine wp_atIndex_bind (fun value hvalue => ?_) fun _ => trivial
    split_ifs with htruth
    · refine (ih liarNumber s hs).mono fun ok t ht hok => ?_
      obtain ⟨hcons, hmessages, hfewer, hagree⟩ := ht hok
      refine ⟨hcons, hmessages, hfewer, fun st hst htrusted => ?_⟩
      grind
    · -- a liar: what follows starts with a smaller mask, so it stays out
      refine wp_mark_bind (wp_setTrustedMask_bind fun hlt =>
        wp_index_bind (fun key _ => ?_) fun _ => trivial)
      refine (ih _ _ (hs.takeOut hcnt hlt)).mono fun ok t ht hok => ?_
      obtain ⟨hcons, hmessages, hfewer, hagree⟩ := ht hok
      have hleft : ∀ i, isTrusted t.stage.realTrustedMask i →
          i ≠ it.sender.toNat ∧ isTrusted s.stage.realTrustedMask i := fun i htrusted =>
        (isTrusted_set_marker hlt).mp (hfewer i htrusted)
      refine ⟨hcons, hmessages.trans stageOneStorage_markUntrusted, fun i hi => (hleft i hi).2, ?_⟩
      grind

theorem isTrusted_of_getElem? {value : UInt8} (h : mask[i]? = some value) :
    isTrusted mask i = decide (value ≠ kUntrustedMarker) := by
  unfold isTrusted
  rw [h, Option.any_some]

theorem yields_numberTrusted (order : List Nat) : ∀ (idx : Nat) (mask : Bytes),
    idx + order.length ≤ 255 →
    Yields (numberTrusted order idx mask) (fun _ => True)
      (fun numbered => ∀ i, isTrusted numbered i = isTrusted mask i) := by
  induction order with
  | nil => exact fun idx mask _ i => rfl
  | cons c rest ih =>
    intro idx mask hidx
    rw [length_cons] at hidx
    unfold numberTrusted atIndex
    cases hc : mask[c]? with
    | none => trivial
    | some value =>
      show Yields (ite _ _ _) _ _
      split_ifs with htrusted
      · refine (ih (idx + 1) _ (by omega)).mono fun numbered h i => ?_
        rw [h i]
        by_cases hic : c = i
        · subst hic
          have hsmall : UInt8.ofNat idx ≠ kUntrustedMarker := by
            intro heq
            have hval := congrArg UInt8.toNat heq
            rw [UInt8.toNat_ofNat', Nat.mod_eq_of_lt (by omega)] at hval
            exact absurd hval (show idx ≠ 255 by omega)
          rw [isTrusted_set_self (List.getElem?_eq_some_iff.mp hc).1, isTrusted_of_getElem? hc,
            decide_eq_true hsmall, decide_eq_true htrusted]
        · exact isTrusted_set_of_ne hic
      · exact ih idx mask (by omega)

theorem yields_selectWriter (idxWriter : Int) (order : List Nat) : ∀ (idx : Int) (writer : UInt8),
    Yields (selectWriter mask idxWriter order idx writer) (fun _ => True)
      (fun _ => ∀ i ∈ order, i < mask.length) := by
  induction order with
  | nil => exact nofun
  | cons c rest ih =>
    intro idx writer
    unfold selectWriter atIndex
    cases hc : mask[c]? with
    | none => trivial
    | some value =>
      have hlt : c < mask.length := (List.getElem?_eq_some_iff.mp hc).1
      have hcons : ∀ writer : UInt8, (∀ i ∈ rest, i < mask.length) →
          ∀ i ∈ c :: rest, i < mask.length := fun _ h => forall_mem_cons.mpr ⟨hlt, h⟩
      show Yields (ite _ _ _) _ _
      split
      · exact (ih _ _).mono hcons
      · exact (ih _ _).mono hcons

theorem wp_takeUrgentDecision (hcnt : context.cntTrusted ≤ Consensus.maxTrustedNodes) :
    Returns (takeUrgentDecision context)
      (fun ok t => ok = true → t.core = s.core ∧
        (∀ i, isTrusted t.stage.realTrustedMask i = isTrusted s.stage.realTrustedMask i) ∧
        context.cntTrusted <
          2 * (List.range context.cntTrusted).countP (isTrusted s.stage.realTrustedMask)) s := by
  unfold takeUrgentDecision
  cases context.previousHash with
  | none => exact Wp.pure nofun
  | some hash =>
    refine Wp.get_bind ?_
    simp only [Nat.min_eq_left hcnt]
    split_ifs with hfew
    · exact Wp.pure nofun
    refine Returns.lift_bind fun writer hwriter => ?_
    refine Returns.lift_bind fun numbered hnumbered => ?_
    have hread := (yields_selectWriter _ _ _ _).of_ok hwriter
    have hsmall : context.cntTrusted ≤ 255 := hcnt.trans (by decide)
    have hsame := (yields_numberTrusted _ 0 _ (by simpa using hsmall)).of_ok hnumbered
    refine Wp.set_bind (Wp.pure fun _ => ⟨rfl, hsame, ?_⟩)
    have hlength : context.cntTrusted ≤ s.stage.realTrustedMask.length := by
      by_contra hshort
      have := hread s.stage.realTrustedMask.length (mem_range.mpr (by omega))
      omega
    have hcount := countP_isTrusted hlength
    omega

def SameStageOne (s t : TrustedStage3State) : Prop :=
  t.core.stageOneStorage = s.core.stageOneStorage

instance instIsPreorderSameStageOne : IsPreorder TrustedStage3State SameStageOne where
  refl _ := rfl
  trans _ _ _ hst htu := htu.trans hst

theorem within_mark (c : UInt8) : Within SameStageOne (mark c) :=
  .modify fun _ => stageOneStorage_markUntrusted

section Marks

variable {R : TrustedStage3State → TrustedStage3State → Prop} [IsPreorder TrustedStage3State R]
  (hmark : ∀ c, Within R (mark c))

include hmark

theorem within_compareSignature (ptr it : StageTwo) (j : Nat) :
    Within R (compareSignature context ptr it j) := by
  refine (Within.lift _).bind fun mine => (Within.lift _).bind fun theirs => Within.ite ?_ ?_
  · refine (Within.lift _).bind fun hash => Within.ite (hmark _) ?_
    exact (Within.lift _).bind fun key => Within.ite (hmark _) (hmark _)
  · exact Within.pure _

theorem within_checkStage2 (ptr it : StageTwo) : Within R (checkStage2 context ptr it) := by
  refine Within.ite (Within.bind (Within.forM (within_compareSignature hmark ptr it) _) fun _ => ?_)
    (Within.pure _)
  exact Within.get.bind fun s => Within.ite (hmark _) (Within.ite (hmark _) (Within.pure _))

end Marks

def Agrees (core : SolverCore) (hash : Hash) (c : UInt8) : Prop :=
  untrustedValue core c = 0 ∧ ∃ st ∈ core.stageOneStorage, st.sender = c ∧ st.hash = hash

instance instDecidableAgrees (core : SolverCore) (hash : Hash) (c : UInt8) :
    Decidable (Agrees core hash c) :=
  inferInstanceAs (Decidable (_ ∧ _))

/-- More than half of the confidants agree on the hash, and the mask trusts exactly these. -/
def Majority (context : ConsensusContext) (t : TrustedStage3State) (hash : Hash) : Prop :=
  context.cntTrusted <
      2 * (List.range context.cntTrusted).countP (fun i => Agrees t.core hash (UInt8.ofNat i)) ∧
    ∀ i < context.cntTrusted,
      isTrusted t.stage.realTrustedMask i ↔ Agrees t.core hash (UInt8.ofNat i)

/-- One stage-1 message is stored for every confidant. -/
def OneStageOne (context : ConsensusContext) (core : SolverCore) : Prop :=
  ∀ c : UInt8, c.toNat < context.cntTrusted →
    (core.stageOneStorage.filter fun st => st.sender = c).length = 1

theorem OneStageOne.exists_only {core : SolverCore} (hone : OneStageOne context core) {c : UInt8}
    (hc : c.toNat < context.cntTrusted) :
    ∃ st, ∀ st', st' ∈ core.stageOneStorage ∧ st'.sender = c ↔ st' = st := by
  obtain ⟨st, hst⟩ := length_eq_one_iff.mp (hone c hc)
  refine ⟨st, fun st' => ?_⟩
  have hmem : st' ∈ core.stageOneStorage.filter (fun st => st.sender = c) ↔ st' = st := by
    rw [hst, mem_singleton]
  rwa [mem_filter, decide_eq_true_eq] at hmem

section

variable (hcnt : context.cntTrusted ≤ Consensus.maxTrustedNodes)
include hcnt

theorem Screened.isTrusted_iff
    (h : Screened hash s.core.stageOneStorage context.cntTrusted s t)
    (hone : OneStageOne context s.core) (hi : i < context.cntTrusted) :
    isTrusted t.stage.realTrustedMask i ↔ Agrees t.core hash (UInt8.ofNat i) := by
  have hi256 := toNat_ofNat_of_le hcnt hi
  have hmarks := h.consistent i (mem_range.mpr hi)
  constructor
  · intro htrusted
    obtain ⟨st, honly⟩ := hone.exists_only (c := UInt8.ofNat i) (by rwa [hi256])
    obtain ⟨hstored, hsender⟩ := (honly st).mpr rfl
    refine ⟨hmarks.mp htrusted, st, h.messages ▸ hstored, hsender, h.agree st hstored ?_⟩
    rwa [hsender, hi256]
  · exact fun hagrees => hmarks.mpr hagrees.1

theorem wp_decideRound {ptr : StageTwo} (hone : OneStageOne context s.core) :
    Returns (decideRound context ptr)
      (fun result t => result = .finish → SameStageOne s t ∧
        ∃ hash, Majority context t hash) s := by
  have helection : electionSize context = context.cntTrusted := by
    unfold electionSize
    rw [Nat.mod_eq_of_lt (hcnt.trans_lt (by decide)), Nat.min_eq_left hcnt]
  refine Wp.get_bind ((Within.wp (Within.forM (within_checkStage2 within_mark ptr) _) s).bind ?_)
  intro _ s₁ hs₁
  refine wp_trustedElection.bind ?_
  rintro _ s₂ ⟨hconsistent, hcore⟩
  rw [helection] at hconsistent
  refine Wp.bind (Wp.get_bind (wp_findLiars hcnt _ 0 s₂ hconsistent)) ?_
  intro honest s₃ hscreened
  split_ifs with hhonest
  swap
  · exact Wp.pure fun h => nomatch h
  have hscreen := hscreened hhonest
  refine (wp_takeUrgentDecision hcnt).bind ?_
  intro decided s₄ hdecision
  split_ifs with hdecided
  swap
  · exact Wp.pure fun h => nomatch h
  obtain ⟨hcore₄, hsame, hmajority⟩ := hdecision hdecided
  have hone₂ : OneStageOne context s₂.core := by
    unfold OneStageOne
    rwa [hcore, hs₁]
  have htrusted : ∀ i < context.cntTrusted, isTrusted s₄.stage.realTrustedMask i ↔
      Agrees s₄.core (mostFrequentHash s₂.core.stageOneStorage) (UInt8.ofNat i) := by
    intro i hi
    rw [hsame i, hcore₄]
    exact hscreen.isTrusted_iff hcnt hone₂ hi
  refine Wp.modify_bind (Wp.pure
    fun _ => ⟨?_, mostFrequentHash s₂.core.stageOneStorage, ?_, htrusted⟩)
  · show s₄.core.stageOneStorage = s.core.stageOneStorage
    rw [hcore₄, hscreen.messages, hcore, hs₁]
  · refine hmajority.trans_eq (congrArg (2 * ·) (countP_congr fun i hi => ?_))
    rw [← hsame i, htrusted i (mem_range.mp hi), decide_eq_true_eq]
    rfl

theorem Majority.unique {hash' : Hash}
    (hone : OneStageOne context t.core) (h : Majority context t hash)
    (h' : Majority context t hash') : hash' = hash := by
  have hpos : 0 < (range context.cntTrusted).countP
      (fun i => Agrees t.core hash (UInt8.ofNat i)) := by
    have := h.1
    omega
  obtain ⟨i, hi, hagrees⟩ := countP_pos_iff.mp hpos
  rw [decide_eq_true_eq] at hagrees
  have hlt := mem_range.mp hi
  have hagrees' := (h'.2 i hlt).mp ((h.2 i hlt).mpr hagrees)
  obtain ⟨-, st, hst, hsender, rfl⟩ := hagrees
  obtain ⟨-, st', hst', hsender', rfl⟩ := hagrees'
  have hi256 := toNat_ofNat_of_le hcnt hlt
  obtain ⟨only, honly⟩ := hone.exists_only (c := UInt8.ofNat i) (by rwa [hi256])
  rw [(honly st).mp ⟨hst, hsender⟩, (honly st').mp ⟨hst', hsender'⟩]

end

theorem wp_onStage2 (hcnt : context.cntTrusted ≤ Consensus.maxTrustedNodes)
    (hone : OneStageOne context s.core) : Returns (onStage2 context)
      (fun result t => result = .finish → SameStageOne s t ∧
        ∃ hash, Majority context t hash) s := by
  refine .modify_bind (.get_bind ?_)
  split
  · exact .pure fun h => nomatch h
  · split_ifs
    · exact wp_decideRound hcnt hone
    · exact .pure fun h => nomatch h

/-- If the round finishes, more than half of the confidants are without a mark and have sent one and
the same characteristic hash, and the mask trusts exactly these. -/
theorem onStage2_majority (context : ConsensusContext) (s t : TrustedStage3State)
    (hcnt : context.cntTrusted ≤ Consensus.maxTrustedNodes) (hone : OneStageOne context s.core)
    (h : onStage2 context s = .ok .finish t) : ∃! hash, Majority context t hash := by
  obtain ⟨hsame, hash, hmajority⟩ := (wp_onStage2 hcnt hone).of_ok h rfl
  refine ⟨hash, hmajority, fun hash' hmajority' => ?_⟩
  refine hmajority.unique hcnt ?_ hmajority'
  unfold OneStageOne
  rwa [hsame]

theorem lt_cntTrusted_demo {c : UInt8} (hc : c.toNat < demoContext.cntTrusted) :
    c = 0 ∨ c = 1 ∨ c = 2 := by
  have hc3 : c.toNat < 3 := hc
  simp only [← UInt8.toNat_inj, UInt8.reduceToNat]
  omega

theorem oneStageOne_demo (second : StageTwo) : OneStageOne demoContext (demoState second).core := by
  intro c hc
  rcases lt_cntTrusted_demo hc with rfl | rfl | rfl <;> rfl

theorem onStage2_majority_three :
    ∃ t, onStage2 demoContext (demoState (demoStageTwo 1)) = .ok .finish t ∧
      ∃! hash, Majority demoContext t hash := by
  obtain ⟨t, ht, -⟩ := exists_of_finishes (p := fun _ => true)
    (show finishes (onStage2 demoContext (demoState (demoStageTwo 1))) _ = true by decide +kernel)
  exact ⟨t, ht, onStage2_majority demoContext _ t (by decide) (oneStageOne_demo _) ht⟩

/-- Two confidants that finish the round have majorities for the same hash, or some confidant that
both of them trust has sent them stage-1 messages with different hashes. -/
theorem onStage2_accountable (context context' : ConsensusContext) (s t s' t' : TrustedStage3State)
    (hcnt : context.cntTrusted ≤ Consensus.maxTrustedNodes)
    (hcount : context'.cntTrusted = context.cntTrusted)
    (hone : OneStageOne context s.core) (hone' : OneStageOne context' s'.core)
    (h : onStage2 context s = .ok .finish t) (h' : onStage2 context' s' = .ok .finish t') :
    ∃ hash hash', Majority context t hash ∧ Majority context' t' hash' ∧ (hash ≠ hash' →
      ∃ i < context.cntTrusted, isTrusted t.stage.realTrustedMask i ∧
        isTrusted t'.stage.realTrustedMask i ∧
        ∃ st ∈ s.core.stageOneStorage, ∃ st' ∈ s'.core.stageOneStorage,
          st.sender.toNat = i ∧ st'.sender.toNat = i ∧ st.hash = hash ∧ st'.hash = hash') := by
  obtain ⟨hsame, hash, hmajority⟩ := (wp_onStage2 hcnt hone).of_ok h rfl
  obtain ⟨hsame', hash', hmajority'⟩ := (wp_onStage2 (hcount ▸ hcnt) hone').of_ok h' rfl
  refine ⟨hash, hash', hmajority, hmajority', fun _ => ?_⟩
  have hcounted := hmajority.1
  have hcounted' := hmajority'.1
  rw [hcount] at hcounted'
  obtain ⟨i, hi, hagrees, hagrees'⟩ := List.exists_of_countP_majority
    (l := range context.cntTrusted) (by rw [length_range]; exact hcounted)
    (by rw [length_range]; exact hcounted')
  rw [decide_eq_true_eq] at hagrees hagrees'
  have hlt := mem_range.mp hi
  have hi256 := toNat_ofNat_of_le hcnt hlt
  refine ⟨i, hlt, (hmajority.2 i hlt).mpr hagrees, (hmajority'.2 i (hcount ▸ hlt)).mpr hagrees', ?_⟩
  obtain ⟨-, st, hst, hsender, hhash⟩ := hagrees
  obtain ⟨-, st', hst', hsender', hhash'⟩ := hagrees'
  refine ⟨st, hsame ▸ hst, st', hsame' ▸ hst', ?_, ?_, hhash, hhash'⟩
  · rw [hsender, hi256]
  · rw [hsender', hi256]

theorem Majority.hash_eq {hash hash' : Hash} (h : Majority context t hash)
    (hcnt : context.cntTrusted ≤ Consensus.maxTrustedNodes) (hone : OneStageOne context s.core)
    (hrun : onStage2 context s = .ok .finish t)
    (hall : ∀ st ∈ s.core.stageOneStorage, st.hash = hash') : hash = hash' := by
  obtain ⟨hsame, -⟩ := (wp_onStage2 hcnt hone).of_ok hrun rfl
  have hpos : 0 < (range context.cntTrusted).countP
      fun i => Agrees t.core hash (UInt8.ofNat i) := by
    have := h.1
    omega
  obtain ⟨i, -, hagrees⟩ := countP_pos_iff.mp hpos
  obtain ⟨-, st, hst, -, rfl⟩ := of_decide_eq_true hagrees
  exact hall st (hsame ▸ hst)

/-- The state of a confidant to which the others have sent another hash. -/
def demoOther : TrustedStage3State :=
  let s := demoState (demoStageTwo 1)
  { s with core := { s.core with
      stageOneStorage := s.core.stageOneStorage.map ({ · with hash := sampleHash 8 }) } }

theorem onStage2_accountable_three :
    ∃ t t', onStage2 demoContext (demoState (demoStageTwo 1)) = .ok .finish t ∧
      onStage2 demoContext demoOther = .ok .finish t' ∧
      ∃ i < 3, isTrusted t.stage.realTrustedMask i ∧ isTrusted t'.stage.realTrustedMask i := by
  obtain ⟨t, ht, -⟩ := exists_of_finishes (p := fun _ => true)
    (show finishes (onStage2 demoContext (demoState (demoStageTwo 1))) _ = true by decide +kernel)
  obtain ⟨t', ht', -⟩ := exists_of_finishes (p := fun _ => true)
    (show finishes (onStage2 demoContext demoOther) _ = true by decide +kernel)
  have hcnt : demoContext.cntTrusted ≤ Consensus.maxTrustedNodes := by decide
  have hone : OneStageOne demoContext (demoState (demoStageTwo 1)).core := oneStageOne_demo _
  have hone' : OneStageOne demoContext demoOther.core := by
    intro c hc
    unfold demoOther
    dsimp only
    rw [filter_map, length_map]
    exact hone c hc
  obtain ⟨hash, hash', hmajority, hmajority', hboth⟩ :=
    onStage2_accountable demoContext demoContext _ t
    _ t' hcnt rfl hone hone' ht ht'
  have hfirst : hash = sampleHash 9 := hmajority.hash_eq hcnt hone ht (by decide +kernel)
  have hsecond : hash' = sampleHash 8 := hmajority'.hash_eq hcnt hone' ht' (by decide +kernel)
  obtain ⟨i, hi, htrusted, htrusted', -⟩ := hboth (by rw [hfirst, hsecond]; decide)
  exact ⟨t, t', ht, ht', i, hi, htrusted, htrusted'⟩

end CreditsNode.TrustedStage3State
