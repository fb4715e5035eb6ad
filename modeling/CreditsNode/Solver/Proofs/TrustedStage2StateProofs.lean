import CreditsNode.Solver.Proofs.SolverCoreProofs
import CreditsNode.Solver.TrustedStage2State
import Mathlib.Data.Finset.Card

/-!
# What is in a stage-2 message

The second stage sends its message when its counter has come to the number of confidants. A
confidant is counted twice when a message that has been counted is replaced by a newer one, or
erased because its time stamp cannot be read.
-/

namespace CreditsNode

open ByteCodec Effect EventSystem List

/-- For every confidant there is a stored stage-1 message, whose signature and hash are in the
stage-2 message. -/
def Sending.Complete (m : Sending) : Prop :=
  ∀ i < m.confidants, ∃ st ∈ m.stageOneStorage, st.sender.toNat = i ∧
    m.stage.signatures[i]? = some st.signature ∧ m.stage.hashes[i]? = some st.messageHash

instance Sending.decidableComplete (m : Sending) : Decidable m.Complete :=
  inferInstanceAs (Decidable (∀ i < m.confidants, ∃ st ∈ m.stageOneStorage, _))

namespace Solver

variable {s t : Solver} {st : StageOne} {senders : Finset UInt8}

abbrev Distinct (storage : List StageOne) : Prop := (storage.map StageOne.sender).Nodup

theorem findStage1_eq (storage : List StageOne) (h : Distinct storage)
    (hmem : st ∈ storage) : storage.find? (fun other => other.sender = st.sender) = some st := by
  induction storage with
  | nil => cases hmem
  | cons first rest ih =>
    grind

theorem find?_eraseStage1 (storage : List StageOne) {i j : UInt8} (hne : i ≠ j) :
    (eraseStage1 j storage).find? (fun other => other.sender = i) =
      storage.find? fun other => other.sender = i := by
  unfold eraseStage1
  induction storage with
  | nil => rfl
  | cons first rest ih =>
    grind

theorem notMem_eraseStage1 (storage : List StageOne) (j : UInt8) (h : Distinct storage) :
    j ∉ (eraseStage1 j storage).map StageOne.sender := by
  unfold eraseStage1
  induction storage with
  | nil => exact not_mem_nil
  | cons first rest ih =>
    grind

theorem nodup_eraseStage1 (storage : List StageOne) (j : UInt8) (h : Distinct storage) :
    Distinct (eraseStage1 j storage) :=
  h.sublist (eraseP_sublist.map StageOne.sender)

theorem notMem_of_find?_eq_none {storage : List StageOne} {j : UInt8}
    (h : storage.find? (fun other => other.sender = j) = none) :
    j ∉ storage.map StageOne.sender := by
  grind

/-- The time stamp does not keep a message from being counted. -/
def Stamped (st : StageOne) : Prop := ∃ stamp, stampOf st.roundTimeStamp = .ok stamp

/-- A new message takes the place of the old one, or the old one is erased. -/
def Replaces (old st : StageOne) : Prop :=
  ∀ last, stoll old.roundTimeStamp = .ok last →
    ∃ current, stoll st.roundTimeStamp = .ok current ∧ last.toUInt64 < current.toUInt64

instance decidableStamped (st : StageOne) : Decidable (Stamped st) :=
  match h : stampOf st.roundTimeStamp with
  | .ok stamp => .isTrue ⟨stamp, h⟩
  | .error _ => .isFalse fun ⟨_, h'⟩ => nomatch h.symm.trans h'

instance decidableReplaces (old st : StageOne) : Decidable (Replaces old st) :=
  match h : stoll old.roundTimeStamp, h' : stoll st.roundTimeStamp with
  | .error _, _ => .isTrue fun _ hlast => nomatch h.symm.trans hlast
  | .ok last, .error _ => .isFalse fun hreplaces =>
    have ⟨_, hcurrent, _⟩ := hreplaces last h
    nomatch h'.symm.trans hcurrent
  | .ok last, .ok current =>
    if hlt : last.toUInt64 < current.toUInt64 then .isTrue fun last' hlast =>
      have heq : last = last' := Except.ok.inj (h.symm.trans hlast)
      ⟨current, h', heq ▸ hlt⟩
    else .isFalse fun hreplaces =>
      have ⟨current', hcurrent, hlt'⟩ := hreplaces last h
      have heq : current = current' := Except.ok.inj (h'.symm.trans hcurrent)
      hlt (heq ▸ hlt')

variable {storage : List StageOne}

theorem resend_of_not_replaces {old : StageOne} (h : ¬ Replaces old st) :
    resend storage old st = (false, storage) := by
  obtain ⟨last, hlast⟩ := not_forall.mp h
  obtain ⟨hlast, hcurrent⟩ := Classical.not_imp.mp hlast
  unfold resend takeNewer
  rw [hlast]
  cases hst : stoll st.roundTimeStamp with
  | error e => rfl
  | ok current =>
    refine if_neg fun hlt => ?_
    exact hcurrent ⟨current, hst, hlt⟩

/-- What becomes of the stored messages when one is sent again: those of the other senders stay, and
the old one is gone if the new one is taken. -/
structure Resent (storage : List StageOne) (sender : UInt8) (taken : Bool)
    (storage' : List StageOne) : Prop where
  others : ∀ i ≠ sender, storage'.find? (fun other => other.sender = i) =
    storage.find? fun other => other.sender = i
  distinct : Distinct storage'
  only : taken = true → sender ∉ storage'.map StageOne.sender

theorem resent_self (h : Distinct storage) (sender : UInt8) : Resent storage sender false storage :=
  ⟨fun _ _ => rfl, h, nofun⟩

theorem resent_eraseStage1 (h : Distinct storage) (sender : UInt8) (taken : Bool) :
    Resent storage sender taken (eraseStage1 sender storage) :=
  ⟨fun _ hne => find?_eraseStage1 storage hne, nodup_eraseStage1 storage sender h,
    fun _ => notMem_eraseStage1 storage sender h⟩

theorem Resent.eraseStage1 {storage' : List StageOne} {sender : UInt8} {taken : Bool}
    (h : Resent storage sender taken storage') (taken' : Bool) :
    Resent storage sender taken' (eraseStage1 sender storage') :=
  have herased := resent_eraseStage1 h.distinct sender taken'
  ⟨fun i hne => (herased.others i hne).trans (h.others i hne), herased.distinct, herased.only⟩

theorem Resent.takeNewer {storage' : List StageOne}
    (h : Resent storage st.sender false storage') (lastTimeStamp : UInt64) :
    Resent storage st.sender (takeNewer storage' lastTimeStamp st).1
      (takeNewer storage' lastTimeStamp st).2 := by
  unfold Solver.takeNewer
  cases stoll st.roundTimeStamp with
  | error e => exact h
  | ok currentTimeStamp =>
    dsimp only
    split_ifs
    · exact h.eraseStage1 true
    · exact h

theorem resent_resend (h : Distinct storage) (old st : StageOne) :
    Resent storage st.sender (resend storage old st).1 (resend storage old st).2 := by
  unfold resend
  cases stoll old.roundTimeStamp with
  | ok lastTimeStamp => exact (resent_self h st.sender).takeNewer lastTimeStamp.toUInt64
  | error e => exact (resent_eraseStage1 h st.sender false).takeNewer 0

def InMessage (s : Solver) (st : StageOne) : Prop :=
  s.stage2.stage.signatures[st.sender.toNat]? = some st.signature ∧
    s.stage2.stage.hashes[st.sender.toNat]? = some st.messageHash

/-- The counter is the number of these senders. A message of each is stored, it is in the stage-2
message and it has a time stamp. -/
structure Counted (s : Solver) (senders : Finset UInt8) : Prop where
  signatures : s.stage2.stage.signatures.length = s.context.cntTrusted
  hashes : s.stage2.stage.hashes.length = s.context.cntTrusted
  card : senders.card = s.stage2.cntRecvStages
  stored : ∀ i ∈ senders, ∃ st, s.core.findStage1 i = some st ∧ Stamped st ∧ InMessage s st

theorem findStage1_eq_some {core : SolverCore} {i : UInt8} (h : core.findStage1 i = some st) :
    st ∈ core.stageOneStorage ∧ st.sender = i :=
  ⟨List.mem_of_find?_eq_some h, by simpa using List.find?_some h⟩

def sending (s : Solver) : Sending :=
  ⟨s.context.cntTrusted, s.stage2.stage, s.core.stageOneStorage⟩

theorem Counted.complete (h : Counted s senders)
    (hall : s.stage2.cntRecvStages = s.context.cntTrusted) : s.sending.Complete := by
  have hsub : senders.image UInt8.toNat ⊆ Finset.range s.context.cntTrusted := by
    intro i hi
    obtain ⟨sender, hsender, rfl⟩ := Finset.mem_image.mp hi
    obtain ⟨st, hfind, -, hmessage⟩ := h.stored sender hsender
    obtain ⟨hlt, -⟩ := List.getElem?_eq_some_iff.mp hmessage.1
    rw [Finset.mem_range, ← h.signatures, ← (findStage1_eq_some hfind).2]
    exact hlt
  have hcard : (Finset.range s.context.cntTrusted).card ≤ (senders.image UInt8.toNat).card := by
    rw [Finset.card_range, Finset.card_image_of_injective _ fun _ _ => UInt8.toNat_inj.mp, h.card,
      hall]
  intro i hi
  have himage : i ∈ senders.image UInt8.toNat := by
    rw [Finset.eq_of_subset_of_card_le hsub hcard, Finset.mem_range]
    exact hi
  obtain ⟨sender, hsender, rfl⟩ := Finset.mem_image.mp himage
  obtain ⟨st, hfind, -, hmessage⟩ := h.stored sender hsender
  obtain ⟨hmem, rfl⟩ := findStage1_eq_some hfind
  exact ⟨st, hmem, rfl, hmessage⟩

def withStage1 (s : Solver) (st : StageOne) : Solver :=
  { s with stage2.stage := { s.stage2.stage with
    signatures := s.stage2.stage.signatures.set st.sender.toNat st.signature
    hashes := s.stage2.stage.hashes.set st.sender.toNat st.messageHash } }

theorem Counted.withStage1 (h : Counted s senders) (hnew : st.sender ∉ senders) :
    Counted (s.withStage1 st) senders where
  signatures := length_set.trans h.signatures
  hashes := length_set.trans h.hashes
  card := h.card
  stored := by
    intro i hi
    obtain ⟨other, hfind, hstamped, hsignature, hhash⟩ := h.stored i hi
    have hne : st.sender.toNat ≠ other.sender.toNat := by
      rw [(findStage1_eq_some hfind).2]
      exact fun heq => hnew (UInt8.toNat_inj.mp heq ▸ hi)
    refine ⟨other, hfind, hstamped, ?_, ?_⟩
    · exact (List.getElem?_set_ne hne).trans hsignature
    · exact (List.getElem?_set_ne hne).trans hhash

theorem wp_putStage1 (h : Counted s senders) :
    Wp (putStage1 st) (fun e _ => e = .undefined)
      (fun _ t => t = s.withStage1 st ∧ t.InMessage st) s := by
  unfold putStage1 assign
  refine .get_bind ?_
  by_cases hlt : st.sender.toNat < s.context.cntTrusted
  · have hsignatures : st.sender.toNat < s.stage2.stage.signatures.length := h.signatures ▸ hlt
    have hhashes : st.sender.toNat < s.stage2.stage.hashes.length := h.hashes ▸ hlt
    rw [if_pos hsignatures, if_pos hhashes]
    exact ⟨rfl, List.getElem?_set_self hsignatures, List.getElem?_set_self hhashes⟩
  · rw [if_neg (h.signatures ▸ hlt)]
    rfl

theorem Counted.count (h : Counted s senders) (hstored : s.core.findStage1 st.sender = some st)
    (hstamped : Stamped st) (hmessage : s.InMessage st) (hnew : st.sender ∉ senders) :
    Counted { s with stage2.cntRecvStages := s.stage2.cntRecvStages + 1 }
      (insert st.sender senders) where
  signatures := h.signatures
  hashes := h.hashes
  card := by
    rw [Finset.card_insert_of_notMem hnew, h.card]
  stored := by
    intro i hi
    rcases Finset.mem_insert.mp hi with rfl | hi
    · exact ⟨st, hstored, hstamped, hmessage⟩
    · exact h.stored i hi

/-- The round, the stage-1 messages and the state of the core stay. -/
structure Kept (s t : Solver) : Prop where
  context : t.context = s.context
  storage : t.core.stageOneStorage = s.core.stageOneStorage
  state : t.state = s.state

theorem Kept.trans {u : Solver} (h : Kept s t) (h' : Kept t u) : Kept s u :=
  ⟨h'.context.trans h.context, h'.storage.trans h.storage, h'.state.trans h.state⟩

def AllComplete (s : Solver) : Prop := ∀ m ∈ s.sent, m.Complete

def Caught (P : Solver → Prop) (e : Fault) (t : Solver) : Prop := ∀ what, e = .exception what → P t

theorem caught_undefined {P : Solver → Prop} : Caught P .undefined t := by
  rintro what ⟨⟩

theorem wp_gotStageTwo (stage : StageTwo) :
    Succeeds (gotStageTwo stage)
      (fun _ t => Kept s t ∧ t.sent = s.sent ∧ t.stage2 = s.stage2) s := by
  unfold gotStageTwo
  refine .modify ?_
  dsimp only
  cases s.core.findStage2 stage.sender with
  | some _ => exact ⟨⟨rfl, rfl, rfl⟩, rfl, rfl⟩
  | none => exact ⟨⟨rfl, rfl, rfl⟩, rfl, rfl⟩

theorem Counted.congr (h : Counted s senders) (hkept : Kept s t) (hstage2 : t.stage2 = s.stage2) :
    Counted t senders := by
  have hfind : ∀ i, t.core.findStage1 i = s.core.findStage1 i := by
    intro i
    unfold SolverCore.findStage1
    rw [hkept.storage]
  constructor
  · rw [hstage2, hkept.context]
    exact h.signatures
  · rw [hstage2, hkept.context]
    exact h.hashes
  · rw [hstage2]
    exact h.card
  · intro i hi
    unfold InMessage
    rw [hfind, hstage2]
    exact h.stored i hi

/-- What holds after a message has been reported. -/
structure Reported (r : Solver) (senders : Finset UInt8) (st : StageOne) (t : Solver) : Prop where
  kept : Kept r t
  complete : AllComplete t
  counted : ∃ senders', Counted t senders' ∧ ∀ i ∈ senders', i ∈ senders ∨ i = st.sender

theorem wp_countStage1 {r : Solver} {E : Fault → Solver → Prop} (hkept : Kept r s)
    (h : Counted s senders) (hcomplete : AllComplete s)
    (hstored : r.core.findStage1 st.sender = some st) (hstamped : Stamped st)
    (hmessage : s.InMessage st) (hnew : st.sender ∉ senders) :
    Wp countStage1 E (fun _ t => Reported r senders st t) s := by
  have hstored' : s.core.findStage1 st.sender = some st := by
    unfold SolverCore.findStage1
    rw [hkept.storage]
    exact hstored
  have hcounted := h.count hstored' hstamped hmessage hnew
  have hinsert : ∀ i ∈ insert st.sender senders, i ∈ senders ∨ i = st.sender := by
    intro i hi
    exact (Finset.mem_insert.mp hi).symm
  refine .modify_bind (.get_bind ?_)
  split_ifs with hall
  · refine .bind (.modify_bind ((wp_gotStageTwo _).imp (fun _ _ hfalse => hfalse.elim) ?_))
      fun _ _ ht => .pure ht
    rintro _ t ⟨ht, hsent, hstage2⟩
    refine ⟨hkept.trans ⟨ht.context, ht.storage, ht.state⟩, fun m hm => ?_, _,
      hcounted.congr ⟨ht.context, ht.storage, ht.state⟩ hstage2, hinsert⟩
    rw [hsent] at hm
    rcases mem_append.mp hm with hm | hm
    · exact hcomplete m hm
    · rw [mem_singleton.mp hm]
      exact hcounted.complete hall
  · exact ⟨hkept.trans ⟨rfl, rfl, rfl⟩, hcomplete, _, hcounted, hinsert⟩

theorem wp_onStage1 (h : Counted s senders) (hcomplete : AllComplete s)
    (hstored : s.core.findStage1 st.sender = some st) (hnew : st.sender ∉ senders) :
    Wp (onStage1 st) (Caught fun t => Reported s senders st t)
      (fun _ t => Reported s senders st t) s := by
  unfold onStage1
  refine ((wp_putStage1 h).imp ?_ fun _ _ ht => ht).bind ?_
  · rintro e t rfl
    exact caught_undefined
  rintro - t ⟨rfl, hmessage⟩
  have hcounted := h.withStage1 hnew
  have hkept : Kept s (s.withStage1 st) := ⟨rfl, rfl, rfl⟩
  have hput : Reported s senders st (s.withStage1 st) :=
    ⟨hkept, hcomplete, senders, hcounted, fun i hi => .inl hi⟩
  refine .get_bind ?_
  split_ifs with hzero
  · exact hput
  cases hown : (s.withStage1 st).core.findStage1 (s.withStage1 st).context.ownConfNumber with
  | none => exact .throw caught_undefined
  | some own =>
    refine .lift_bind (fun myStamp _ => ?_) fun _ _ _ _ => hput
    refine .lift_bind (fun otherStamp hstamp => ?_) fun _ _ _ _ => hput
    split_ifs
    · have hmarked : Kept (s.withStage1 st) { s.withStage1 st with
          core := ConsensusContext.markUntrusted (s.withStage1 st).core st.sender } :=
        ⟨rfl, ConsensusContext.stageOneStorage_markUntrusted, rfl⟩
      exact .set_bind (wp_countStage1 (hkept.trans hmarked) (hcounted.congr hmarked rfl) hcomplete
        hstored ⟨otherStamp, hstamp⟩ hmessage hnew)
    · exact wp_countStage1 hkept hcounted hcomplete hstored ⟨otherStamp, hstamp⟩ hmessage hnew

/-- What holds of the core at any time. -/
structure Sound (s : Solver) : Prop where
  distinct : Distinct s.core.stageOneStorage
  counted : s.state = .trusted2 → ∃ senders, Counted s senders
  complete : AllComplete s

abbrev Upholds {α : Type} (m : SolverM α) (s : Solver) : Prop :=
  Wp m (Caught Sound) (fun _ t => Sound t) s

theorem Reported.sound {r : Solver} (h : Reported r senders st t)
    (hdistinct : Distinct r.core.stageOneStorage) : Sound t where
  distinct := h.kept.storage ▸ hdistinct
  counted := fun _ => h.counted.imp fun _ hsenders => hsenders.1
  complete := h.complete

theorem transitions_stage1Enough {state next : NodeState}
    (h : transitions state .stage1Enough = some next) : next = .trusted3 := by
  cases state <;> cases h
  rfl

theorem sound_completeStage2 {E : Fault → Solver → Prop} (h : Sound s) :
    Wp completeStage2 E (fun _ t => Sound t) s := by
  unfold completeStage2
  refine .modify ?_
  cases hnext : transitions s.state .stage1Enough with
  | none => exact h
  | some next =>
    refine ⟨h.distinct, ?_, h.complete⟩
    rintro (rfl : next = _)
    cases transitions_stage1Enough hnext

theorem sound_reportStage1 (hdistinct : Distinct s.core.stageOneStorage)
    (hcomplete : AllComplete s) (hstored : s.core.findStage1 st.sender = some st)
    (hcounted : s.state = .trusted2 → ∃ senders, Counted s senders ∧ st.sender ∉ senders) :
    Upholds (reportStage1 st) s := by
  refine .get_bind ?_
  split_ifs with hstate
  · obtain ⟨senders, hsenders, hnew⟩ := hcounted hstate
    refine ((wp_onStage1 hsenders hcomplete hstored hnew).imp ?_ fun _ _ ht => ht).bind ?_
    · exact fun e t ht what he => (ht what he).sound hdistinct
    · intro result t ht
      split_ifs
      · exact sound_completeStage2 (ht.sound hdistinct)
      · exact ht.sound hdistinct
  · exact ⟨hdistinct, fun htrusted => absurd htrusted hstate, hcomplete⟩

def Fresh (s : Solver) (st : StageOne) : Prop :=
  s.state = .trusted2 → ∀ old ∈ s.core.findStage1 st.sender, Stamped old → ¬ Replaces old st

theorem Counted.replace (h : Counted s senders) (hnew : st.sender ∉ senders)
    (hothers : ∀ i ≠ st.sender, storage.find? (fun other => other.sender = i) =
      s.core.findStage1 i) :
    Counted { s with core.stageOneStorage := storage } senders where
  signatures := h.signatures
  hashes := h.hashes
  card := h.card
  stored := by
    intro i hi
    have hne : i ≠ st.sender := by
      rintro rfl
      exact hnew hi
    obtain ⟨other, hfind, hother⟩ := h.stored i hi
    exact ⟨other, (hothers i hne).trans hfind, hother⟩

theorem sound_storeStage1 (h : Sound s) {taken : Bool}
    (hresent : Resent s.core.stageOneStorage st.sender taken storage)
    (hcounted : s.state = .trusted2 → ∃ senders, Counted s senders ∧ st.sender ∉ senders) :
    Upholds (storeStage1 st taken storage) s := by
  unfold storeStage1
  split_ifs with htaken
  · have honly := hresent.only htaken
    refine .modify_bind (sound_reportStage1 ?_ h.complete ?_ ?_)
    · have hdistinct := hresent.distinct
      grind
    · show (storage ++ [st]).find? (fun other => other.sender = st.sender) = some st
      grind
    · intro hstate
      obtain ⟨senders, hsenders, hnew⟩ := hcounted hstate
      refine ⟨senders, hsenders.replace hnew fun i hne => ?_, hnew⟩
      rw [List.find?_append, hresent.others i hne]
      have hst : [st].find? (fun other => other.sender = i) = none := by
        simpa using hne.symm
      rw [hst, Option.or_none]
      rfl
  · refine .modify ⟨hresent.distinct, fun hstate => ?_, h.complete⟩
    obtain ⟨senders, hsenders, hnew⟩ := hcounted hstate
    exact ⟨senders, hsenders.replace hnew hresent.others⟩

theorem sound_gotStageOne (h : Sound s) (hfresh : Fresh s st) : Upholds (gotStageOne st) s := by
  unfold gotStageOne
  refine .get_bind ?_
  cases hfind : s.core.findStage1 st.sender with
  | none =>
    refine sound_storeStage1 h ⟨fun _ _ => rfl, h.distinct, fun _ => ?_⟩ fun hstate => ?_
    · exact notMem_of_find?_eq_none hfind
    · obtain ⟨senders, hsenders⟩ := h.counted hstate
      have hstored := hsenders.stored
      grind
  | some old =>
    by_cases hreplaces : Replaces old st
    · refine sound_storeStage1 h (resent_resend h.distinct old st) fun hstate => ?_
      obtain ⟨senders, hsenders⟩ := h.counted hstate
      refine ⟨senders, hsenders, fun hmem => ?_⟩
      -- a message that was counted has a time stamp
      obtain ⟨other, hother, hstamped, -⟩ := hsenders.stored _ hmem
      rw [hfind] at hother
      cases hother
      exact hfresh hstate old hfind hstamped hreplaces
    · dsimp only
      rw [resend_of_not_replaces hreplaces]
      exact .modify h

theorem sound_fakeStage1 (h : Sound s) (sender : UInt8) : Upholds (fakeStage1 sender) s := by
  refine .get_bind ?_
  split_ifs with hnone
  · refine sound_gotStageOne h fun _ old hold _ => ?_
    simp_all
  · exact h

theorem sound_markOutboundNodes (h : Sound s) : Upholds markOutboundNodes s := by
  refine .get_bind ?_
  exact .forM (I := fun _ t => Sound t) h fun _ sender _ t ht => sound_fakeStage1 ht sender

@[simp] theorem length_resize {α : Type} (xs : List α) (n : Nat) (x : α) :
    (resize xs n x).length = n := by
  unfold resize
  rw [length_append, length_take, length_replicate]
  omega

theorem wp_onEarlyStage1 (rest : List StageOne) : ∀ {senders : Finset UInt8} (finish : Bool)
    (s : Solver), Counted s senders → AllComplete s →
    Distinct s.core.stageOneStorage → rest ⊆ s.core.stageOneStorage → Distinct rest →
    (∀ st ∈ rest, st.sender ∉ senders) →
    Wp (rest.foldlM onEarlyStage1 finish) (Caught Sound)
      (fun _ t => t.context = s.context ∧ Sound t) s := by
  induction rest with
  | nil =>
    exact fun _ s hs hcomplete hdistinct _ _ _ => ⟨rfl, hdistinct, fun _ => ⟨_, hs⟩, hcomplete⟩
  | cons st rest ih =>
    intro senders finish s hs hcomplete hdistinct hsub hrest hnew
    obtain ⟨hmem, hsub⟩ := cons_subset.mp hsub
    have hstored : s.core.findStage1 st.sender = some st := findStage1_eq _ hdistinct hmem
    have hfirst : Wp (onEarlyStage1 finish st) (Caught Sound)
        (fun _ t => Reported s senders st t) s := by
      refine .bind ((wp_onStage1 hs hcomplete hstored (hnew st mem_cons_self)).imp ?_
        fun _ _ ht => ht) fun _ _ ht => .pure ht
      exact fun e t ht what he => (ht what he).sound hdistinct
    refine hfirst.bind ?_
    rintro finish t ⟨hkept, hcomplete, senders', hsenders', hmem'⟩
    have hstorage := hkept.storage
    have hcontext := hkept.context
    grind

theorem sound_fakeBlackListed (h : Sound s) (i : UInt8) : Upholds (fakeBlackListed i) s := by
  unfold fakeBlackListed
  refine .get_bind ?_
  cases s.context.trusted[i.toNat]? with
  | none => exact .throw caught_undefined
  | some key =>
    dsimp only
    split_ifs
    · exact sound_fakeStage1 h i
    · exact h

/-- The counter starts at zero, whatever the last round has left in the stage-2 message. -/
theorem wp_initStage2 : Wp initStage2 (fun e _ => e = .undefined)
    (fun _ t => Kept s t ∧ t.sent = s.sent ∧ Counted t ∅) s := by
  unfold initStage2
  refine .modify_bind (.get_bind ?_)
  have hcounted : Counted { s with stage2 :=
      { stage := { initZero s.context.cntTrusted s.stage2.stage with
          sender := s.context.ownConfNumber }
        cntRecvStages := 0 } } ∅ :=
    ⟨length_resize _ _ _, length_resize _ _ _, rfl, fun _ h => absurd h (Finset.notMem_empty _)⟩
  dsimp only
  cases s.core.findStage1 s.context.ownConfNumber with
  | none => exact ⟨⟨rfl, rfl, rfl⟩, rfl, hcounted⟩
  | some own =>
    refine (wp_putStage1 hcounted).mono ?_
    rintro - t ⟨rfl, -⟩
    exact ⟨⟨rfl, rfl, rfl⟩, rfl, hcounted.withStage1 (Finset.notMem_empty _)⟩

theorem sound_on (hdistinct : Distinct s.core.stageOneStorage)
    (hcomplete : AllComplete s) : Upholds on s := by
  refine (wp_initStage2.imp ?_ fun _ _ ht => ht).bind ?_
  · rintro e t rfl
    exact caught_undefined
  rintro - t ⟨hkept, hsent, hcounted⟩
  rw [← hkept.storage] at hdistinct
  refine .get_bind ?_
  refine (wp_onEarlyStage1 t.core.stageOneStorage false t hcounted (fun m hm => ?_) hdistinct
    (List.Subset.refl _) hdistinct fun st _ => Finset.notMem_empty _).bind ?_
  · exact hcomplete m (hsent ▸ hm)
  · rintro finish u ⟨-, hu⟩
    split_ifs
    · exact sound_completeStage2 hu
    · exact .forM (I := fun _ t => Sound t) hu fun _ i _ t ht => sound_fakeBlackListed ht i

theorem sound_off (hdistinct : Distinct s.core.stageOneStorage)
    (hcomplete : AllComplete s) (own : Option StageOne) :
    Wp (off own) (Caught Sound) (fun _ t => Distinct t.core.stageOneStorage ∧ AllComplete t) s := by
  refine .get_bind ?_
  split
  · rename_i stage hstate
    have hsound : Sound s := by
      refine ⟨hdistinct, fun htrusted => ?_, hcomplete⟩
      rw [hstate] at htrusted
      cases htrusted
    refine (sound_gotStageOne hsound fun htrusted => ?_).mono fun _ t ht =>
      ⟨ht.distinct, ht.complete⟩
    rw [hstate] at htrusted
    cases htrusted
  · exact ⟨hdistinct, hcomplete⟩

theorem sound_handleTransitions {evt : CoreEvent} {own : Option StageOne}
    (hdistinct : Distinct s.core.stageOneStorage) (hcomplete : AllComplete s)
    (hcounted : transitions s.state evt = none → s.state = .trusted2 →
    ∃ senders, Counted s senders) :
    Upholds (handleTransitions evt own) s := by
  unfold handleTransitions
  refine .get_bind ?_
  cases hnext : transitions s.state evt with
  | none => exact ⟨hdistinct, hcounted hnext, hcomplete⟩
  | some next =>
    refine (sound_off hdistinct hcomplete own).bind ?_
    rintro - t ⟨hdistinct, hcomplete⟩
    refine .modify_bind ?_
    split_ifs with htrusted
    · exact sound_on hdistinct hcomplete
    · exact ⟨hdistinct, fun hstate => absurd hstate htrusted, hcomplete⟩

theorem sound_nextRound (context : RoundContext) (h : Sound s) : Upholds (nextRound context) s := by
  refine .modify_bind (sound_handleTransitions nodup_nil h.complete ?_)
  -- the second stage is left when the next round begins
  rintro hnone (htrusted : s.state = _)
  rw [htrusted] at hnone
  cases hnone

/-- A stage-1 message does not replace one of its sender that the second stage has counted. -/
def CountsOnce : Op → Solver → Prop
  | .getStageOne st, s => Fresh s st
  | _, _ => True

instance decidableCountsOnce (op : Op) (s : Solver) : Decidable (CountsOnce op s) :=
  match op with
  | .getStageOne st =>
    inferInstanceAs (Decidable (s.state = .trusted2 →
      ∀ old ∈ s.core.findStage1 st.sender, Stamped old → ¬ Replaces old st))
  | .nextRound _ | .event _ _ | .markOutboundNodes => .isTrue trivial

theorem Sound.exec (h : Sound s) {op : Op} (honce : CountsOnce op s) : Upholds op.exec s := by
  cases op with
  | nextRound context => exact sound_nextRound context h
  | event evt own =>
    exact sound_handleTransitions h.distinct h.complete fun _ => h.counted
  | getStageOne st =>
    refine .get_bind ?_
    split_ifs
    · exact sound_gotStageOne h honce
    · exact h
  | markOutboundNodes => exact sound_markOutboundNodes h

theorem Sound.step {op : Op} {shown : List Sending} (h : Sound s) (honce : CountsOnce op s)
    (hstep : step op s = some (shown, t)) : Sound t ∧ ∀ m ∈ shown, m.Complete := by
  have hreset : Sound { s with sent := [] } := by
    refine ⟨h.distinct, fun hstate => ?_, nofun⟩
    obtain ⟨senders, hsenders⟩ := h.counted hstate
    exact ⟨senders, hsenders.congr ⟨rfl, rfl, rfl⟩ rfl⟩
  have hexec : Upholds op.exec { s with sent := [] } := by
    refine hreset.exec ?_
    cases op <;> exact honce
  unfold Solver.step at hstep
  cases hrun : op.exec { s with sent := [] } with
  | ok result u =>
    rw [hrun] at hstep
    cases hstep
    have hu := hexec.of_ok hrun
    exact ⟨hu, hu.complete⟩
  | error e u =>
    have hu := hexec.of_error hrun
    rw [hrun] at hstep
    cases e with
    | exception what =>
      cases hstep
      exact ⟨hu what rfl, (hu what rfl).complete⟩
    | overflow => cases hstep
    | undefined => cases hstep
    | outOfFuel => cases hstep

theorem sound_start (context : RoundContext) : Sound (start context) where
  distinct := nodup_nil
  counted := by
    rintro ⟨⟩
  complete := nofun

/-- In a run in which no message that has been counted is replaced or erased, every stage-2 message
that is sent has the signature and the hash of a stored stage-1 message of every confidant. -/
theorem sent_complete {context : RoundContext} {ops : List Op} {events : List Sending}
    (hrun : run step ops (start context) = some (events, t))
    (honce : Along step CountsOnce ops (start context)) : ∀ m ∈ events, m.Complete := by
  have hbegin : Sound (start context) ∧ ∀ m ∈ ([] : List Sending), m.Complete :=
    ⟨sound_start context, nofun⟩
  have hstep : ∀ op events s shown t, (Sound s ∧ ∀ m ∈ events, m.Complete) → CountsOnce op s →
      step op s = some (shown, t) → Sound t ∧ ∀ m ∈ events ++ shown, m.Complete := by
    rintro op events s shown t ⟨hs, hevents⟩ hop hstep
    obtain ⟨ht, hshown⟩ := hs.step hop hstep
    grind
  have hend := run_invariant (I := fun events s => Sound s ∧ ∀ m ∈ events, m.Complete) hstep hbegin
    hrun honce
  exact hend.2

/-- Three confidants. The second is on the black list if this is asked for. -/
def demoRound (blackListed : Bool) : RoundContext :=
  { TrustedStage3State.demoContext with
    lastTimeStamp := 1
    isBlackListed := fun key => blackListed && key = sampleKey 2 }

def demoMessage (sender : UInt8) (stamp : Bytes) : StageOne :=
  { TrustedStage3State.demoStageOne sender with
    messageHash := sampleHash (sender + 1)
    signature := sampleSignature (sender + 1)
    roundTimeStamp := stamp }

/-- The second stage has begun, with the message of the node itself. -/
def demoOps (blackListed : Bool) : List Op :=
  [.nextRound (demoRound blackListed), .event .setTrusted none,
    .event .hashes (some (demoMessage 0 [53]))]

theorem sent_complete_three : ∃ events t,
    run step (demoOps false ++
      [.getStageOne (demoMessage 1 [53]), .getStageOne (demoMessage 1 [52]),
      .getStageOne (demoMessage 2 [54])]) (start (demoRound false)) = some (events, t) ∧
      events.length = 1 ∧ ∀ m ∈ events, m.Complete := by
  have hlength : (run step (demoOps false ++ [.getStageOne (demoMessage 1 [53]),
      .getStageOne (demoMessage 1 [52]), .getStageOne (demoMessage 2 [54])])
      (start (demoRound false))).map (fun result => result.1.length) = some 1 := by decide +kernel
  obtain ⟨⟨events, t⟩, hrun, hone⟩ := Option.map_eq_some_iff.mp hlength
  exact ⟨events, t, hrun, hone, sent_complete hrun (by decide +kernel)⟩

/-- The second confidant sends two messages and the third none, or the second is on the black list
and sends a message without a time stamp: the stage-2 message is sent, and for one of the three
confidants there is no stage-1 message. -/
theorem sent_without_stage1 :
    (∃ result ∈ run step (demoOps false ++ [.getStageOne (demoMessage 1 [53]),
        .getStageOne (demoMessage 1 [54])]) (start (demoRound false)),
      ∃ m ∈ result.1, m.confidants = 3 ∧ m.stageOneStorage.map StageOne.sender = [0, 1] ∧
        ¬ m.Complete) ∧
    ∃ result ∈ run step (demoOps true ++ [.getStageOne (demoMessage 1 []),
        .getStageOne (demoMessage 2 [54])]) (start (demoRound true)),
      ∃ m ∈ result.1, m.confidants = 3 ∧ m.stageOneStorage.map StageOne.sender = [0, 2] ∧
        ¬ m.Complete := by
  decide +kernel

end Solver

end CreditsNode
