import CreditsNode.Solver.Proofs.SolverCoreProofs

/-!
# Who is blamed for a difference between stage-2 messages

The stage-2 message of a confidant reports the stage-1 signatures that it received. Where one
differs from the own one, `onStage2` decides who is lying by verifying it, under the key of the
confidant who reports: a liar can put its own signature in the place of another's, and the other one
is marked.
-/

namespace CreditsNode.TrustedStage3State

open Effect ConsensusContext

variable {context : ConsensusContext} {ptr it : StageTwo} {j : Nat} {s : TrustedStage3State}

/-- The entry for confidant `j` in `it` differs from the own one, and has a hash with a signature
that verifies under the key of confidant `k` in this round. -/
def Incriminates (context : ConsensusContext) (ptr it : StageTwo) (j k : Nat) : Prop :=
  ∃ mine theirs hash key, ptr.signatures[j]? = some mine ∧ it.signatures[j]? = some theirs ∧
    mine ≠ theirs ∧ it.hashes[j]? = some hash ∧ hash ≠ zeroArray 32 ∧
    context.trusted[k]? = some key ∧
    context.crypto.verifySignature theirs key (toVerify context hash) = true

/-- The comparison of the entries for confidant `j` reads nothing from outside the messages. -/
def Readable (context : ConsensusContext) (ptr it : StageTwo) (j : Nat) : Prop :=
  ∃ mine theirs, ptr.signatures[j]? = some mine ∧ it.signatures[j]? = some theirs ∧
    (mine ≠ theirs → ∃ hash, it.hashes[j]? = some hash ∧
      (hash ≠ zeroArray 32 → it.sender.toNat < context.cntTrusted))

def Judges (context : ConsensusContext) (ptr it : StageTwo) (j : Nat)
    (s t : TrustedStage3State) : Prop :=
  Incriminates context ptr it j it.sender.toNat ∧ t = s.marked (UInt8.ofNat j) ∨
    ¬Incriminates context ptr it j it.sender.toNat ∧ (t = s ∨ t = s.marked it.sender)

section Entry

variable {mine theirs : Signature} (hmine : ptr.signatures[j]? = some mine)
  (htheirs : it.signatures[j]? = some theirs)

include hmine htheirs

theorem incriminates_iff {k : Nat} :
    Incriminates context ptr it j k ↔ mine ≠ theirs ∧ ∃ hash key, it.hashes[j]? = some hash ∧
      hash ≠ zeroArray 32 ∧ context.trusted[k]? = some key ∧
      context.crypto.verifySignature theirs key (toVerify context hash) = true := by
  constructor
  · rintro ⟨mine', theirs', hash, key, hmine', htheirs', hne, hrest⟩
    grind
  · rintro ⟨hne, hash, key, hrest⟩
    exact ⟨mine, theirs, hash, key, hmine, htheirs, hne, hrest⟩

theorem readable_iff :
    Readable context ptr it j ↔ (mine ≠ theirs → ∃ hash, it.hashes[j]? = some hash ∧
      (hash ≠ zeroArray 32 → it.sender.toNat < context.cntTrusted)) := by
  constructor
  · rintro ⟨mine', theirs', hmine', htheirs', hread⟩
    grind
  · exact fun hread => ⟨mine, theirs, hmine, htheirs, hread⟩

end Entry

theorem wp_compareSignature :
    Wp (compareSignature context ptr it j) (fun _ _ => ¬Readable context ptr it j)
      (fun _ t => Readable context ptr it j ∧ Judges context ptr it j s t) s := by
  refine wp_index_bind (fun mine hmine => wp_index_bind (fun theirs htheirs => ?_) ?_) ?_
  rotate_left
  · rintro hnone ⟨_, theirs, -, htheirs, -⟩
    simp [hnone] at htheirs
  · rintro hnone ⟨mine, _, hmine, -⟩
    simp [hnone] at hmine
  unfold Judges
  rw [incriminates_iff hmine htheirs, readable_iff hmine htheirs]
  split_ifs with hne
  swap
  · exact .pure ⟨fun h => absurd h hne, .inr ⟨fun h => hne h.1, .inl rfl⟩⟩
  refine wp_index_bind (fun hash hhash => ?_) fun hnone hread => ?_
  swap
  · obtain ⟨hash, hhash, -⟩ := hread hne
    simp [hnone] at hhash
  -- `hash` is the only hash that the conditions can speak about
  have honly : ∀ hash', it.hashes[j]? = some hash' → hash' = hash := fun hash' hhash' =>
    Option.some.inj (hhash'.symm.trans hhash)
  split_ifs with hzero
  · refine wp_mark ⟨fun _ => ⟨hash, hhash, fun h => absurd hzero h⟩, .inr ⟨?_, .inr rfl⟩⟩
    rintro ⟨-, hash', key, hhash', hnonzero, -⟩
    exact hnonzero ((honly hash' hhash').trans hzero)
  refine wp_atIndex_bind (fun key hkey => ?_) fun hnone hread => ?_
  swap
  · obtain ⟨hash', hhash', hsender⟩ := hread hne
    rw [honly hash' hhash'] at hsender
    exact absurd (hsender hzero) (List.getElem?_eq_none_iff.mp hnone).not_gt
  have hread : mine ≠ theirs → ∃ hash, it.hashes[j]? = some hash ∧
      (hash ≠ zeroArray 32 → it.sender.toNat < context.cntTrusted) := fun _ =>
    ⟨hash, hhash, fun _ => (List.getElem?_eq_some_iff.mp hkey).1⟩
  split_ifs with hverify
  · exact wp_mark ⟨hread, .inl ⟨⟨hne, hash, key, hhash, hzero, hkey, hverify⟩, rfl⟩⟩
  · refine wp_mark ⟨hread, .inr ⟨?_, .inr rfl⟩⟩
    grind

/-- What the comparison with one message leaves: a confidant other than the sender has other marks
than before only because of its entry, and every incriminated confidant is marked. -/
structure Judged (context : ConsensusContext) (ptr it : StageTwo) (done : List Nat)
    (s t : TrustedStage3State) : Prop where
  readable : ∀ j ∈ done, Readable context ptr it j
  caused : ∀ c ≠ it.sender, untrustedValue t.core c ≠ untrustedValue s.core c →
    ∃ j ∈ done, UInt8.ofNat j = c ∧ Incriminates context ptr it j it.sender.toNat
  marks : ∀ j ∈ done, Incriminates context ptr it j it.sender.toNat →
    (UInt8.ofNat j).toNat < Consensus.maxTrustedNodes → untrustedValue t.core (UInt8.ofNat j) ≠ 0

theorem Judged.step {done : List Nat} {t t' : TrustedStage3State}
    (h : Judged context ptr it done s t) (hread : Readable context ptr it j)
    (hj : Judges context ptr it j t t') : Judged context ptr it (done ++ [j]) s t' := by
  refine ⟨?_, ?_, ?_⟩
  · have hreadable := h.readable
    grind
  · intro c hc hchanged
    by_cases hbefore : untrustedValue t.core c = untrustedValue s.core c
    · -- the change is due to this entry: the sender's own marks do not count
      rcases hj with ⟨hguilty, rfl⟩ | ⟨-, rfl | rfl⟩
      · refine ⟨j, by simp, ?_, hguilty⟩
        by_contra hne
        exact hchanged ((untrustedValue_markUntrusted_of_ne (Ne.symm hne)).trans hbefore)
      · exact absurd hbefore hchanged
      · exact absurd ((untrustedValue_markUntrusted_of_ne hc).trans hbefore) hchanged
    · have hcaused := h.caused
      grind
  · intro i hi hguilty hlt
    rcases List.mem_append.mp hi with hi | hi
    · have hmarked := h.marks i hi hguilty hlt
      rcases hj with ⟨-, rfl⟩ | ⟨-, rfl | rfl⟩
      · exact untrustedValue_markUntrusted_ne_zero hmarked
      · exact hmarked
      · exact untrustedValue_markUntrusted_ne_zero hmarked
    · obtain rfl := List.mem_singleton.mp hi
      rcases hj with ⟨-, rfl⟩ | ⟨hinnocent, -⟩
      · exact untrustedValue_markUntrusted_self hlt
      · exact absurd hguilty hinnocent

theorem wp_compareSignatures :
    Wp (compareSignatures context ptr it)
      (fun _ _ => ¬∀ j < context.cntTrusted, Readable context ptr it j)
      (fun _ t => Judged context ptr it (List.range context.cntTrusted) s t) s := by
  refine .forM (I := fun done t => Judged context ptr it done s t) ⟨?_, ?_, ?_⟩ ?_
  · exact nofun
  · exact fun c _ hchanged => absurd rfl hchanged
  · exact nofun
  · intro done j hj t ht
    refine wp_compareSignature.imp (fun _ _ hfault hall => ?_) fun _ t' h => ht.step h.1 h.2
    exact hfault (hall j (List.mem_range.mp hj))

/-- All that verifies under the key of confidant `j` in this round is one hash with one
signature. -/
def SignedOnce (context : ConsensusContext) (j : Nat) : Prop :=
  ∀ key, context.trusted[j]? = some key → ∀ hash signature hash' signature',
    context.crypto.verifySignature signature key (toVerify context hash) = true →
    context.crypto.verifySignature signature' key (toVerify context hash') = true →
    hash = hash' ∧ signature = signature'

/-- The comparison with the message `it`, whatever marks there are, comes to its end, marks another
confidant than the sender only if `it` has a signature by that confidant other than the own one, and
does not mark a confidant that has signed once. -/
def JudgesFairly (context : ConsensusContext) (ptr it : StageTwo) : Prop :=
  ∀ s, ∃ t, compareSignatures context ptr it s = .ok () t ∧
    ∀ c : UInt8, c.toNat < context.cntTrusted → c ≠ it.sender →
      (untrustedValue t.core c ≠ untrustedValue s.core c →
        Incriminates context ptr it c.toNat c.toNat) ∧
      (SignedOnce context c.toNat → untrustedValue t.core c = untrustedValue s.core c)

def unmarked : TrustedStage3State where
  cntRecvStages := 0
  stage := ⟨0, 0, 0, []⟩
  nextRoundTrust := []
  nextRoundHashes := []
  core := ⟨fun _ => 0, [], [], false, [], [], []⟩

theorem untrustedValue_unmarked (c : UInt8) : untrustedValue unmarked.core c = 0 := by
  unfold untrustedValue
  split_ifs <;> rfl

theorem lt_of_untrustedValue_ne {core core' : SolverCore} {c : UInt8}
    (h : untrustedValue core' c ≠ untrustedValue core c) : c.toNat < Consensus.maxTrustedNodes := by
  by_contra hc
  unfold untrustedValue at h
  rw [dif_neg hc, dif_neg hc] at h
  exact h rfl

/-- The entries of `it` that are accepted under the key of its sender are all by the confidants they
blame, who have signed more than once. -/
def BlamesTruly (context : ConsensusContext) (ptr it : StageTwo) : Prop :=
  ∀ j < context.cntTrusted, UInt8.ofNat j ≠ it.sender →
    (UInt8.ofNat j).toNat < Consensus.maxTrustedNodes →
    Incriminates context ptr it j it.sender.toNat →
    Incriminates context ptr it (UInt8.ofNat j).toNat (UInt8.ofNat j).toNat ∧
      ¬SignedOnce context (UInt8.ofNat j).toNat

theorem JudgesFairly.of_blamesTruly (hread : ∀ j < context.cntTrusted, Readable context ptr it j)
    (htrue : BlamesTruly context ptr it) : JudgesFairly context ptr it := by
  intro s
  obtain ⟨_, t, ht, hjudged⟩ := (wp_compareSignatures (s := s)).exists_ok_of
    fun _ _ hfault => absurd hread hfault
  refine ⟨t, ht, fun c _ hc => ?_⟩
  have hblame : untrustedValue t.core c ≠ untrustedValue s.core c →
      Incriminates context ptr it c.toNat c.toNat ∧ ¬SignedOnce context c.toNat := by
    intro hchanged
    obtain ⟨j, hj, rfl, hguilty⟩ := hjudged.caused c hc hchanged
    exact htrue j (List.mem_range.mp hj) hc (lt_of_untrustedValue_ne hchanged) hguilty
  grind

theorem JudgesFairly.blamesTruly (h : JudgesFairly context ptr it) :
    (∀ j < context.cntTrusted, Readable context ptr it j) ∧ BlamesTruly context ptr it := by
  obtain ⟨t, ht, hfair⟩ := h unmarked
  have hjudged := wp_compareSignatures.of_ok ht
  refine ⟨fun j hj => hjudged.readable j (List.mem_range.mpr hj), fun j hj hne hlt hguilty => ?_⟩
  have hchanged : untrustedValue t.core (UInt8.ofNat j) ≠
      untrustedValue unmarked.core (UInt8.ofNat j) := by
    rw [untrustedValue_unmarked]
    exact hjudged.marks j (List.mem_range.mpr hj) hguilty hlt
  grind [UInt8.toNat_ofNat']

/-- The comparison with the messages of others is fair exactly as long as none of them has an entry
that passes under the key of its sender without being a second signature of the confidant that it
blames. -/
theorem onStage2_judges_fairly_iff (context : ConsensusContext) (ptr : StageTwo)
    (data : List StageTwo) :
    (∀ it ∈ data, it.sender ≠ context.ownConfNumber → JudgesFairly context ptr it) ↔
      ∀ it ∈ data, it.sender ≠ context.ownConfNumber →
        (∀ j < context.cntTrusted, Readable context ptr it j) ∧ BlamesTruly context ptr it := by
  constructor
  · intro h it hit hother
    exact (h it hit hother).blamesTruly
  · intro h it hit hother
    obtain ⟨hread, htrue⟩ := h it hit hother
    exact JudgesFairly.of_blamesTruly hread htrue

/-- The second confidant reports its own hash and signature in the place of the third one's. -/
def demoFraming : StageTwo where
  sender := 1
  hashes := [sampleHash 1, sampleHash 2, sampleHash 2]
  signatures := [sampleSignature 1, sampleSignature 2, sampleSignature 2]

theorem drop_toVerify (hash : Hash) : (toVerify context hash).drop 9 = hash.toList := by
  have hlen : (ByteCodec.putU64 context.currentRoundNumber ++
      ByteCodec.putU8 context.subRound).length = 9 := by
    simp [ByteCodec.putU64, ByteCodec.putU8]
  exact List.drop_left' hlen

theorem signedOnce_demo (j : Nat) : SignedOnce demoContext j := by
  intro key _ hash signature hash' signature' h h'
  simp only [demoContext, demoCrypto, Bool.and_eq_true, decide_eq_true_eq, drop_toVerify] at h h'
  exact ⟨List.Vector.toList_injective (h.2.trans h'.2.symm),
    List.Vector.toList_injective (h.1.trans h'.1.symm)⟩

theorem incriminates_demo : Incriminates demoContext (demoStageTwo 0) demoFraming 2 1 :=
  ⟨sampleSignature 3, sampleSignature 2, sampleHash 2, sampleKey 2, rfl, rfl, by decide,
    rfl, by decide, rfl, by decide⟩

/-- Each confidant has signed one stage-1 message, and the stage-2 message of the second one has no
signature of the third one other than the own one. The third one is marked all the same, and the
round finishes without it. -/
theorem onStage2_frames_honest :
    (∀ j, SignedOnce demoContext j) ∧
      ¬Incriminates demoContext (demoStageTwo 0) demoFraming 2 2 ∧
      ¬JudgesFairly demoContext (demoStageTwo 0) demoFraming ∧
      ∃ t, onStage2 demoContext (demoState demoFraming) = .ok .finish t ∧
        (t.stage.realTrustedMask = [0, 1, kUntrustedMarker] && untrustedValue t.core 2 ≠ 0) := by
  refine ⟨signedOnce_demo, ?_, ?_, exists_of_finishes (by decide +kernel)⟩
  · rintro ⟨mine, theirs, hash, key, -, htheirs, -, -, -, hkey, hverify⟩
    obtain rfl : sampleSignature 2 = theirs := Option.some.inj htheirs
    obtain rfl : sampleKey 3 = key := Option.some.inj hkey
    simp only [demoContext, demoCrypto, Bool.and_eq_true, decide_eq_true_eq] at hverify
    exact absurd hverify.1 (by decide)
  · intro hfair
    obtain ⟨-, htrue⟩ := hfair.blamesTruly
    exact (htrue 2 (by decide) (by decide) (by decide) incriminates_demo).2 (signedOnce_demo 2)

end CreditsNode.TrustedStage3State
