import CreditsNode.Solver.Proofs.ThirdStageProofs
import CreditsNode.Csdb.Proofs.SampleData

/-!
# The final packet of a contract consensus

Every step of the consensus leaves the third stage alone, makes the own message once, accepts a
message, or starts the stage again after a timeout. What holds of the third stage by itself then
holds of every run.
-/

namespace CreditsNode.SmartConsensus

open ByteCodec Effect EventSystem List ThirdStage TrustedStage3State

variable {env : ConsensusNode}

/-- What the third stage does not touch, and the timer, which it can only stop. -/
structure Beside (s t : SmartConsensus) : Prop where
  two : t.smartStageTwoStorage = s.smartStageTwoStorage
  st3 : t.st3 = s.st3
  timer : t.timeoutStage = some 3 → s.timeoutStage = some 3

theorem Beside.refl (s : SmartConsensus) : Beside s s := ⟨rfl, rfl, fun h => h⟩

variable {s t : SmartConsensus} {α : Type} {stage : StageThreeSmarts} {T : ThirdStage} {op : Op}
  {pack : TransactionsPacket} {runCounter : UInt8} {saved : List StageOneSmarts}

theorem Beside.trans {u : SmartConsensus} (h₁ : Beside s t) (h₂ : Beside t u) : Beside s u :=
  ⟨h₂.two.trans h₁.two, h₂.st3.trans h₁.st3, fun h => h₁.timer (h₂.timer h)⟩

theorem atIndex_of_lt {xs : List α} {i : Nat} (h : i < xs.length) :
    atIndex xs i = .ok xs[i] := by
  unfold atIndex
  rw [List.getElem?_eq_getElem h]

theorem index_of_lt {xs : List α} {i : Nat} (h : i < xs.length) :
    index xs i = .ok xs[i] := by
  unfold index
  rw [List.getElem?_eq_getElem h]

def withStorage (s : SmartConsensus) (storage : List StageThreeSmarts) : SmartConsensus :=
  { s with smartStageThreeStorage := storage }

theorem setStageThree_eq (h : stage.sender.toNat < s.smartStageThreeStorage.length) :
    setStageThree stage s =
      .ok () (s.withStorage (s.smartStageThreeStorage.set stage.sender.toNat stage)) := by
  show (lift (atIndex _ _) >>= _) s = _
  rw [atIndex_of_lt h]
  rfl

theorem storeVerified_eq (hs : s.third.Sized) (h : stage.sender.toNat < s.smartConfidants.length) :
    storeVerified env stage s = .ok () (s.withStorage
      (storeAll (s.third.verified env) [stage] s.smartStageThreeStorage)) := by
  have hverified : s.third.verified env stage =
      env.crypto.verifySignature stage.packageSignature s.smartConfidants[stage.sender.toNat]
        s.finalHash := by
    show (s.smartConfidants[stage.sender.toNat]?).any _ = _
    rw [List.getElem?_eq_getElem h]
    rfl
  show (lift (atIndex _ _) >>= _) s = _
  rw [atIndex_of_lt h, lift_ok_bind, ← hverified]
  show (if s.third.verified env stage then _ else _ : ConsensusM Unit) s =
    .ok () (s.withStorage (if s.third.verified env stage then _ else _))
  by_cases hpass : s.third.verified env stage = true
  · rw [if_pos hpass, if_pos hpass]
    exact setStageThree_eq (h.trans_eq hs.storage.symm)
  · rw [if_neg hpass, if_neg hpass]
    rfl

theorem storeKept_eq {stages : List StageThreeSmarts} : ∀ {s : SmartConsensus}, s.third.Sized →
    (∀ stage ∈ stages, stage.sender.toNat < s.smartConfidants.length) →
    stages.forM (storeVerified env) s = .ok () (s.withStorage
      (storeAll (s.third.verified env) stages s.smartStageThreeStorage)) := by
  induction stages with
  | nil => exact fun _ _ => rfl
  | cons stage stages ih =>
    intro s hs h
    refine (bind_eq_of_ok (storeVerified_eq hs (h stage mem_cons_self))).trans ?_
    refine ih ⟨?_, hs.own, hs.temp⟩ fun other hother => h other (mem_cons_of_mem _ hother)
    exact (length_storeAll _ _).trans hs.storage

theorem wp_placeStageThree (hs : s.third.Sized)
    (h : stage.sender.toNat < s.smartConfidants.length) :
    Succeeds (placeStageThree env stage)
      (fun _ t => t.third = s.third.place env stage ∧ Beside s t) s := by
  have hlen : stage.sender.toNat < s.smartStageThreeStorage.length := h.trans_eq hs.storage.symm
  refine .get_bind (.ite (fun hother => .ite (fun hsent => ?_) fun hsent => ?_) fun hown => ?_)
  · have hplace : s.third.place env stage = _ := place_of_sent hother hsent
    rw [hplace]
    exact .of_eq_ok (storeVerified_eq hs h) ⟨rfl, ⟨rfl, rfl, fun h => h⟩⟩
  · have hplace : s.third.place env stage = _ := place_of_waiting hother hsent
    rw [hplace]
    exact ⟨rfl, ⟨rfl, rfl, fun h => h⟩⟩
  · have hplace : s.third.place env stage = _ := if_neg hown
    rw [hplace]
    refine .bind_of_ok (setStageThree_eq hlen) (.of_eq_ok (storeKept_eq ?_ ?_) ?_)
    · exact ⟨length_set.trans hs.storage, hs.own, hs.temp⟩
    · exact fun kept hkept => (hs.temp kept hkept).1
    · exact ⟨rfl, ⟨rfl, rfl, fun h => h⟩⟩

theorem not_tracked {P : Prop} {st : Nat} (h : none = some st) : P := nomatch h

theorem wp_checkStageThree (hs : s.third.Sized) :
    Succeeds checkStageThree (fun _ t => t.third = s.third.check ∧ Beside s t) s := by
  refine .get_bind (.ite (fun hend => .set_bind (.ite (fun hnone => ?_) fun hsome => ?_))
    fun hend => ?_)
  · have hcheck : s.third.check = _ := (if_pos hend).trans (if_pos hnone)
    rw [hcheck]
    exact ⟨rfl, ⟨rfl, rfl, not_tracked⟩⟩
  · have hcheck : s.third.check = s.third.send := (if_pos hend).trans (if_neg hsome)
    have hlen : s.ownSmartsConfNum.toNat < s.smartStageThreeStorage.length :=
      hs.own.trans_eq hs.storage.symm
    have hown : s.third.storage[s.third.ownSmartsConfNum.toNat]? =
        some s.smartStageThreeStorage[s.ownSmartsConfNum.toNat] := List.getElem?_eq_getElem hlen
    rw [hcheck]
    refine .get_bind (.lift_ok_bind (index_of_lt hlen) (.set ⟨?_, rfl, rfl, not_tracked⟩))
    unfold send
    rw [hown]
    rfl
  · have hcheck : s.third.check = s.third := if_neg hend
    rw [hcheck]
    exact ⟨rfl, .refl s⟩

theorem wp_acceptStageThree (hs : s.third.Sized)
    (h : stage.sender.toNat < s.smartConfidants.length) :
    Succeeds (acceptStageThree env stage)
      (fun _ t => t.third = s.third.accept env stage ∧ Beside s t) s := by
  have hlen : stage.sender.toNat < s.smartStageThreeStorage.length := h.trans_eq hs.storage.symm
  have hslot : s.third.storage[stage.sender.toNat]? =
      some s.smartStageThreeStorage[stage.sender.toNat] := List.getElem?_eq_getElem hlen
  refine .get_bind ?_
  unfold accept
  rw [List.getElem?_eq_getElem hlen, hslot]
  dsimp only
  refine .ite (fun hdup => ?_) fun hdup => ?_
  · rw [if_pos hdup]
    exact ⟨rfl, .refl s⟩
  · rw [if_neg hdup]
    refine .bind (wp_placeStageThree hs h) fun _ t ⟨hplace, hbeside⟩ => ?_
    have ht : t.third.Sized := hplace ▸ hs.place h
    refine (wp_checkStageThree ht).mono fun _ u ⟨hcheck, hbeside'⟩ => ?_
    exact ⟨hplace ▸ hcheck, hbeside.trans hbeside'⟩

/-- The sizes of the slots. The third stage is tracked, and its own message made, only after all
stage-2 messages are there. -/
structure Shaped (s : SmartConsensus) : Prop where
  third : s.third.Sized
  two : s.smartStageTwoStorage.length = s.smartConfidants.length
  mask : s.st3.realTrustedMask.length = s.smartConfidants.length
  timer : s.timeoutStage = some 3 → s.smartStageThreeSent = true
  full : s.smartStageThreeSent = true → ∀ i < s.smartConfidants.length,
    isFilled StageTwoSmarts.sender s.smartStageTwoStorage i = true

variable (env) in
def Moves (T U : ThirdStage) : Prop :=
  U = T ∨ ∃ pack stage, T.sent = false ∧ pack.hash.isSome ∧ stage.sender = T.ownSmartsConfNum ∧
    U = T.produce env pack stage

variable (env) in
/-- What the first two stages do: the own stage-3 message is made at most once. -/
def Aside (s t : SmartConsensus) : Prop := s.Shaped → t.Shaped ∧ Moves env s.third t.third

theorem Moves.trans {U V : ThirdStage} (h₁ : Moves env T U) (h₂ : Moves env U V) :
    Moves env T V := by
  rcases h₁ with rfl | ⟨pack, stage, hsent, hpack, hstage, rfl⟩
  · exact h₂
  · rcases h₂ with rfl | ⟨_, _, hsent', _⟩
    · exact .inr ⟨pack, stage, hsent, hpack, hstage, rfl⟩
    · have hround := sameRound_accept env stage { T with pack, sent := true }
      exact absurd (hround.sent.symm.trans hsent').symm Bool.false_ne_true

instance isPreorderAside (env : ConsensusNode) : IsPreorder SmartConsensus (Aside env) where
  refl _ h := ⟨h, Or.inl rfl⟩
  trans _ _ _ h₁ h₂ h := ⟨(h₂ (h₁ h).1).1, (h₁ h).2.trans (h₂ (h₁ h).1).2⟩

theorem Beside.shaped (h : Beside s t) (hs : s.Shaped)
    (hround : ThirdStage.SameRound s.third t.third) (hsized : t.third.Sized) : t.Shaped := by
  have hconfidants : t.smartConfidants = s.smartConfidants := hround.smartConfidants
  have hsent : t.smartStageThreeSent = s.smartStageThreeSent := hround.sent
  refine ⟨hsized, ?_, ?_, fun htimer => ?_, ?_⟩
  · rw [h.two, hconfidants, hs.two]
  · rw [h.st3, hconfidants, hs.mask]
  · rw [hsent]
    exact hs.timer (h.timer htimer)
  · rw [hsent, hconfidants, h.two]
    exact hs.full

theorem Beside.aside (h : Beside s t) (hthird : t.third = s.third) : Aside env s t := fun hs =>
  ⟨h.shaped hs (hthird ▸ .refl _) (hthird ▸ hs.third), .inl hthird⟩

theorem within_of_shaped {m : ConsensusM α}
    (h : ∀ s, s.Shaped → Leaves m (fun t => t.Shaped ∧ Moves env s.third t.third) s) :
    Within (Aside env) m := by
  intro s
  by_cases hs : s.Shaped
  · exact (h s hs).leaves_mono fun _ ht _ => ht
  · exact Wp.any.imp (fun _ _ _ hs' => absurd hs' hs) fun _ _ _ hs' => absurd hs' hs

theorem within_checkSignature {R : SmartConsensus → SmartConsensus → Prop} [IsPreorder _ R]
    (sender : UInt8) (signature : Signature) (message : Bytes) :
    Within R (checkSignature env sender signature message) :=
  .ite (.pure _) (.bind .get fun _ => .bind (.lift _) fun _ => .pure _)

def Judged (s t : SmartConsensus) : Prop :=
  ∃ untrusted st3, t = { s with smartUntrusted := untrusted, st3 := st3 } ∧
    st3.realTrustedMask.length = s.st3.realTrustedMask.length

instance isPreorderJudged : IsPreorder SmartConsensus Judged where
  refl s := ⟨s.smartUntrusted, s.st3, rfl, rfl⟩
  trans := by
    rintro s _ _ ⟨untrusted, st3, rfl, hlen⟩ ⟨untrusted', st3', rfl, hlen'⟩
    exact ⟨untrusted', st3', rfl, hlen'.trans hlen⟩

theorem Judged.shaped (h : Judged s t) (hs : s.Shaped) : t.Shaped ∧ t.third = s.third := by
  obtain ⟨untrusted, st3, rfl, hlen⟩ := h
  exact ⟨⟨hs.third, hs.two, hlen.trans hs.mask, hs.timer, hs.full⟩, rfl⟩

theorem Judged.moves (h : Judged s t) (hs : s.Shaped) : t.Shaped ∧ Moves env s.third t.third :=
  (h.shaped hs).imp_right .inl

theorem within_untrust (i : Nat) : Within Judged (untrust i) :=
  .get_bind fun s => .lift_bind (fun _ _ => .set ⟨_, s.st3, rfl, rfl⟩) fun _ _ => refl_of Judged s

theorem within_setTrustedMask (i : Nat) (value : UInt8) : Within Judged (setTrustedMask i value) :=
  .get_bind fun s => .lift_bind (fun _ _ => .set ⟨s.smartUntrusted, _, rfl, length_set⟩)
    fun _ _ => refl_of Judged s

theorem within_judgeStageOne (own st : StageOneSmarts) : Within Judged (judgeStageOne own st) := by
  have hmark : ∀ value, Within Judged (do
      untrust st.sender.toNat
      setTrustedMask st.sender.toNat value) := fun value =>
    .bind (within_untrust _) fun _ => within_setTrustedMask _ value
  have hfees : Within Judged (judgeFees own st) :=
    .ite (hmark _) (.ite (hmark _) (.pure _))
  have hhash : Within Judged (judgeHash own st) := by
    refine .ite (.bind (within_untrust _) fun _ => ?_) (.pure _)
    exact .ite (within_setTrustedMask _ _) (.pure _)
  exact .bind .get fun _ => .ite (.bind hfees fun _ => hhash) (.pure _)

theorem within_judgeStageTwo (myStage2 st : StageTwoSmarts) :
    Within Judged (judgeStageTwo env myStage2 st) := by
  have hcompare : ∀ i, Within Judged (compareSignature env myStage2 st i) := by
    refine fun i => .bind (.lift _) fun _ => .bind (.lift _) fun _ => .ite ?_ (.pure _)
    refine .bind .get fun _ => .bind (.lift _) fun _ => .bind (.lift _) fun _ => ?_
    exact .ite (within_untrust _) (within_untrust _)
  exact .bind .get fun _ => .ite (.forM hcompare _) (.pure _)

theorem within_activate (cntActive i : Nat) : Within Judged (activate cntActive i) := by
  refine .bind .get fun _ => .bind (.lift _) fun _ => .ite (.pure _) (.bind (.lift _) fun _ => ?_)
  exact .ite (.bind (within_setTrustedMask _ _) fun _ => .pure _)
    (.bind (within_setTrustedMask _ _) fun _ => .pure _)

theorem within_sumFee (idxWriter : Nat) (sum : FeeSum) (i : Nat) :
    Within Judged (sumFee idxWriter sum i) := by
  refine .bind .get fun _ => .bind (.lift _) fun _ => .ite ?_ (.pure _)
  refine .bind (.lift _) fun _ => .bind (.lift _) fun _ =>
    .bind (.modify fun s => ?_) fun _ => .pure _
  split_ifs
  · exact ⟨s.smartUntrusted, _, rfl, rfl⟩
  · exact refl_of Judged s

theorem within_numberTrusted (idx c : Nat) : Within Judged (numberTrusted idx c) :=
  .bind .get fun _ => .bind (.lift _) fun _ =>
    .ite (.bind (within_setTrustedMask _ _) fun _ => .pure _) (.pure _)

theorem isSome_hash_makeHash (crypto : Crypto) (packet : TransactionsPacket) :
    (packet.makeHash crypto).1.hash.isSome := by
  unfold TransactionsPacket.makeHash
  cases h : packet.hash with
  | none => rfl
  | some hash => exact Option.isSome_iff_exists.mpr ⟨hash, h⟩

section

variable (hs : s.Shaped) (hsent : s.smartStageThreeSent = false)
  (hfull : ∀ i < s.smartConfidants.length,
    isFilled StageTwoSmarts.sender s.smartStageTwoStorage i = true)
include hs hsent hfull

theorem wp_sendOwn (finalFees : List Amount) :
    Succeeds (do
      modify (startTimer 3)
      modify (createFinalTransactionSet env finalFees)
      modify (fillStageThree env)
      addSmartStageThree env (← get).st3 true) (fun _ t => t.Shaped ∧
        Moves env s.third t.third) s := by
  let made := fillStageThree env (createFinalTransactionSet env finalFees (startTimer 3 s))
  let ready : SmartConsensus := { made with smartStageThreeSent := true }
  refine .modify_bind (.modify_bind (.modify_bind (.get_bind (.get_bind ?_))))
  have hid : ¬made.st3.id ≠ made.id := not_not.mpr rfl
  have hexist : ¬(!made.smartConfidantExist made.st3.sender) = true := by
    have hown : made.smartConfidantExist made.st3.sender = true := decide_eq_true hs.third.own
    rw [hown]
    exact Bool.false_ne_true
  show Wp (if made.st3.id ≠ made.id then _ else if !made.smartConfidantExist made.st3.sender then _
    else _) _ _ made
  rw [if_neg hid, if_neg hexist, if_pos rfl]
  refine .set_bind ?_
  have hmade : ready.third =
      { s.third with pack := made.finalSmartTransactionPack, sent := true } := rfl
  have hready : ready.third.Sized := by
    rw [hmade]
    exact ⟨hs.third.storage, hs.third.own, hs.third.temp⟩
  have hsender : (signStageThree env made.st3).sender.toNat < ready.smartConfidants.length :=
    hs.third.own
  refine (wp_acceptStageThree hready hsender).mono fun _ t ⟨hthird, hbeside⟩ => ?_
  have hround := sameRound_accept env (signStageThree env made.st3) ready.third
  rw [← hthird] at hround
  have hconfidants : t.smartConfidants = s.smartConfidants := hround.smartConfidants
  have hsized : t.third.Sized := by
    rw [hthird]
    exact hready.accept hsender
  refine ⟨⟨hsized, ?_, ?_, fun _ => hround.sent, fun _ => ?_⟩, .inr ?_⟩
  · rw [hbeside.two, hconfidants]
    exact hs.two
  · rw [hbeside.st3, hconfidants]
    exact hs.mask
  · rw [hbeside.two, hconfidants]
    exact hfull
  · exact ⟨made.finalSmartTransactionPack, signStageThree env made.st3, hsent,
      isSome_hash_makeHash _ _, rfl, hthird⟩

theorem wp_decideSet (own : StageOneSmarts) (cntActive : Nat) :
    Leaves (decideSet env own cntActive) (fun t => t.Shaped ∧ Moves env s.third t.third) s := by
  have hstays : ∀ t, Judged s t → t.Shaped ∧ Moves env s.third t.third := fun t h => h.moves hs
  refine Wp.get_bind ?_
  refine (Within.foldlM (within_sumFee _) _ _).leaves_bind (refl_of Judged s) hstays
    fun _ t ht => ?_
  refine Wp.lift_bind (fun finalFees _ => Wp.get_bind ?_) fun _ _ => hstays t ht
  refine (Within.foldlM within_numberTrusted _ _).leaves_bind ht hstays fun _ u hu => ?_
  obtain ⟨hshaped, hthird⟩ := hu.shaped hs
  obtain ⟨untrusted, st3, rfl, -⟩ := hu
  exact (wp_sendOwn hshaped hsent hfull finalFees).imp (fun _ _ h => h.elim) fun _ _ h => h

theorem wp_processStages :
    Leaves (processStages env) (fun t => t.Shaped ∧ Moves env s.third t.third) s := by
  have hstays : ∀ t, Judged s t → t.Shaped ∧ Moves env s.third t.third := fun t h => h.moves hs
  let resized : SmartConsensus := { s with st3 := { s.st3 with
    realTrustedMask := s.st3.realTrustedMask.takeD s.smartConfidants.length 0 } }
  have hresized : Judged s resized :=
    ⟨s.smartUntrusted, resized.st3, rfl, (takeD_length _ _ _).trans hs.mask.symm⟩
  refine Wp.get_bind (Wp.set_bind ?_)
  cases s.smartStageOneStorage[s.ownSmartsConfNum.toNat]? with
  | none => exact hstays _ hresized
  | some own =>
    refine (Within.forM (within_judgeStageOne own) _).leaves_bind hresized hstays fun _ t ht => ?_
    refine Wp.lift_bind (fun myStage2 _ => ?_) fun _ _ => hstays t ht
    refine (Within.forM (within_judgeStageTwo myStage2) _).leaves_bind ht hstays fun _ u hu => ?_
    refine (Within.foldlM within_activate _ _).leaves_bind hu hstays fun cntActive v hv => ?_
    refine Wp.ite (fun hfew => ?_) fun hfew => ?_
    · exact hstays v hv
    · obtain ⟨hshaped, hthird⟩ := hv.shaped hs
      obtain ⟨untrusted, st3, rfl, -⟩ := hv
      exact wp_decideSet hshaped hsent hfull own cntActive

end

theorem within_acceptStageTwo (stage : StageTwoSmarts) :
    Within (Aside env) (acceptStageTwo env stage) := by
  refine within_of_shaped fun s hs => .get_bind ?_
  cases hslot : s.smartStageTwoStorage[stage.sender.toNat]? with
  | none => exact ⟨hs, .inl rfl⟩
  | some slot =>
    dsimp only
    refine .ite (fun hdup => ?_) fun hdup => ?_
    · exact ⟨hs, .inl rfl⟩
    · have hlen := (List.getElem?_eq_some_iff.mp hslot).1
      -- a slot is still empty, so that the own stage-3 message has not been made
      have hsent : s.smartStageThreeSent = false := by
        by_contra hsent
        have hfilled := hs.full (Bool.not_eq_false _ ▸ hsent) stage.sender.toNat
            (hlen.trans_eq hs.two)
        obtain ⟨other, hother, hnumber⟩ := isFilled_iff.mp hfilled
        grind [UInt8.toNat_inj]
      refine .set_bind (.get_bind ?_)
      have hstored : (s.smartStageTwoStorage.set stage.sender.toNat stage).length =
          s.smartConfidants.length := length_set.trans hs.two
      have hfalse : ∀ {P : Prop}, s.smartStageThreeSent = true → P := fun h =>
        absurd (hsent.symm.trans h) Bool.false_ne_true
      split_ifs with henough
      · refine .modify_bind (wp_processStages ?_ hsent ?_)
        · exact ⟨hs.third, hstored, hs.mask, not_tracked, hfalse⟩
        · have hall : stageSize StageTwoSmarts.sender
              (s.smartStageTwoStorage.set stage.sender.toNat stage) =
              (s.smartStageTwoStorage.set stage.sender.toNat stage).length :=
            (of_decide_eq_true henough).trans hstored.symm
          intro i hi
          exact stageSize_eq_length_iff.mp hall i (hi.trans_eq hstored.symm)
      · exact ⟨⟨hs.third, hstored, hs.mask, hs.timer, hfalse⟩, .inl rfl⟩

theorem within_addSmartStageTwo (stage : StageTwoSmarts) (send : Bool) :
    Within (Aside env) (addSmartStageTwo env stage send) := by
  refine .bind .get fun _ => .ite (.pure _) (.ite (within_acceptStageTwo _) ?_)
  exact .bind (within_checkSignature _ _ _) fun _ => .ite (within_acceptStageTwo _) (.pure _)

theorem within_fakeStage2 (sender : UInt8) : Within (Aside env) (fakeStage2 env sender) :=
  .bind .get fun _ => .ite (.pure _) (within_addSmartStageTwo _ _)

theorem within_finishStageOne : Within (Aside env) (finishStageOne env) := by
  have hsilent : ∀ i, Within (Aside env) (fakeSilent env i) := by
    refine fun i => .bind .get fun s => ?_
    cases s.smartConsensusMask[i]? with
    | none => exact .pure _
    | some value => exact .ite (within_fakeStage2 _) (.pure _)
  refine .bind (.modify fun s => Beside.aside ⟨rfl, rfl, not_tracked⟩ rfl) fun _ => ?_
  refine .bind (.modify fun s => Beside.aside ⟨rfl, rfl, fun h => h⟩ rfl) fun _ => ?_
  refine .bind .get fun _ => .bind (within_addSmartStageTwo _ _) fun _ => .bind .get fun _ => ?_
  refine .bind (.forM hsilent _) fun _ => .modify fun s => Beside.aside ⟨rfl, rfl, fun h => ?_⟩ rfl
  exact absurd (Option.some.inj h) (by decide)

theorem within_addSmartStageOne (stage : StageOneSmarts) (send : Bool) :
    Within (Aside env) (addSmartStageOne env stage send) := by
  have haccept : Within (Aside env) (acceptStageOne env stage) := by
    refine .get_bind fun s => ?_
    cases s.smartStageOneStorage[stage.sender.toNat]? with
    | none => exact refl_of (Aside env) s
    | some slot =>
      dsimp only
      refine .ite (fun hdup => ?_) fun hdup => ?_
      · exact refl_of (Aside env) s
      · have hstore : Aside env s (storeStageOne stage s) :=
          Beside.aside ⟨rfl, rfl, fun h => h⟩ rfl
        have hrest : Within (Aside env)
            (do if (← get).smartStageOneEnough then finishStageOne env) :=
          .bind .get fun _ => .ite within_finishStageOne (.pure _)
        exact .set_bind ((hrest _).leaves_mono fun _ h => trans_of (Aside env) hstore h)
  refine .bind .get fun _ => .ite (.pure _) (.ite (.pure _) (.ite haccept ?_))
  exact .bind (within_checkSignature _ _ _) fun _ => .ite haccept (.pure _)

theorem within_fakeStage1 (sender : UInt8) : Within (Aside env) (fakeStage1 env sender) :=
  .bind .get fun _ => .ite (.pure _) (within_addSmartStageOne _ _)

theorem within_markSilent {fake : UInt8 → ConsensusM Unit}
    (hfake : ∀ i, Within (Aside env) (fake i))
    (slot : SmartConsensus → Option UInt8) (count : UInt8) :
    Within (Aside env) (markSilent fake slot count) := by
  refine .bind .get fun _ => .ite (.bind (hfake count) fun _ => .modify fun s => ?_) (.pure _)
  exact Beside.aside ⟨rfl, rfl, fun h => h⟩ rfl

theorem within_onSignal {R : SmartConsensus → SmartConsensus → Prop} [IsPreorder _ R]
    (connected : SmartConsensus → Bool) (signature : Signature) {add : ConsensusM Unit}
    (hadd : Within R add) : Within R (onSignal connected signature add) :=
  .bind .get fun _ => .ite hadd (.pure _)

variable (env) in
def Signed (s : SmartConsensus) (stage : StageThreeSmarts) : Prop :=
  ∀ key ∈ s.smartConfidants[stage.sender.toNat]?,
    env.crypto.verifySignature stage.signature key stage.message = true

variable (env) in
def Acts (op : Op) (s t : SmartConsensus) : Prop :=
  Moves env s.third t.third ∨
  (∃ stage, op = .stageThree stage ∧ s.stageThreeConnected = true ∧
    stage.sender.toNat < s.smartConfidants.length ∧ Signed env s stage ∧
    t.third = s.third.accept env stage) ∨
  (s.smartStageThreeSent = true ∧ t.third = s.third.reset)

theorem wp_resetStageThree (hs : s.Shaped) :
    Succeeds resetStageThree
      (fun _ t => t.Shaped ∧ (t.third = s.third ∨ t.third = s.third.reset)) s := by
  let Marked (t : SmartConsensus) : Prop := t.third = s.third ∧
    t.smartStageTwoStorage = s.smartStageTwoStorage ∧ t.timeoutStage = s.timeoutStage ∧
    t.st3.realTrustedMask.length = s.smartConfidants.length
  have hshaped : ∀ {t : SmartConsensus}, Marked t → t.Shaped := by
    rintro t ⟨hthird, htwo, htimer, hmask⟩
    have hconfidants : t.smartConfidants = s.smartConfidants :=
      congrArg ThirdStage.smartConfidants hthird
    have hsent : t.smartStageThreeSent = s.smartStageThreeSent := congrArg ThirdStage.sent hthird
    refine ⟨hthird ▸ hs.third, ?_, hmask.trans (congrArg _ hconfidants.symm), ?_, ?_⟩
    · rw [htwo, hconfidants, hs.two]
    · rw [htimer, hsent]
      exact hs.timer
    · rw [hsent, hconfidants, htwo]
      exact hs.full
  refine .get_bind (.bind (P := fun _ t => Marked t) ?_ fun _ t ht => .modify ?_)
  · refine .forM (I := fun _ t => Marked t) ⟨rfl, rfl, rfl, hs.mask⟩ fun _ i hi t ht => ?_
    have hi' : i < s.smartConfidants.length := by
      have hlt := mem_range.mp (mem_filter.mp hi).1
      exact hlt.trans_eq hs.third.storage
    have hlen : i % 256 < t.st3.realTrustedMask.length :=
      ((Nat.mod_le i 256).trans_lt hi').trans_eq ht.2.2.2.symm
    refine .get_bind (.lift_ok_bind (index_of_lt hlen) (.modify ?_))
    exact ⟨ht.1, ht.2.1, ht.2.2.1, length_set.trans ht.2.2.2⟩
  · have htshaped := hshaped ht
    split_ifs
    · refine ⟨⟨?_, htshaped.two, htshaped.mask, htshaped.timer, htshaped.full⟩, .inr ?_⟩
      · refine ⟨length_replicate.trans htshaped.mask, htshaped.third.own, ?_⟩
        exact nofun
      · rw [← ht.1]
        show ({ t.third with
          storage := replicate t.st3.realTrustedMask.length .new
          temp := [] } : ThirdStage) = { t.third with
            storage := replicate t.smartConfidants.length .new
            temp := [] }
        rw [htshaped.mask]
    · exact ⟨htshaped, .inl ht.1⟩

theorem wp_stageThree (hs : s.Shaped) (stage : StageThreeSmarts) :
    Leaves (Op.exec env (.stageThree stage))
      (fun t => t.Shaped ∧ Acts env (.stageThree stage) s t) s := by
  have hstays : s.Shaped ∧ Acts env (.stageThree stage) s s := ⟨hs, .inl (.inl rfl)⟩
  refine .get_bind (.ite (fun hsignal => .get_bind ?_) fun _ => hstays)
  refine .ite (fun _ => hstays) fun _ => .ite (fun _ => hstays) fun hexist => ?_
  rw [if_neg Bool.false_ne_true]
  have hsender : stage.sender.toNat < s.smartConfidants.length := by
    have hexist' : s.smartConfidantExist stage.sender = true := by simpa using hexist
    exact of_decide_eq_true hexist'
  have hcheck : checkSignature env stage.sender stage.signature stage.message s =
      .ok (env.crypto.verifySignature stage.signature s.smartConfidants[stage.sender.toNat]
        stage.message) s := by
    unfold checkSignature
    rw [if_neg hsignal.1]
    show (lift (atIndex _ _) >>= _) s = _
    rw [atIndex_of_lt hsender]
    rfl
  refine .bind_of_ok hcheck (.ite (fun hverify => ?_) fun hverify => ?_)
  · refine (wp_acceptStageThree hs.third hsender).imp (fun _ _ h => h.elim)
      fun _ t ⟨hthird, hbeside⟩ => ⟨?_, .inr (.inl ⟨stage, rfl, hsignal.2, hsender, ?_, hthird⟩)⟩
    · exact hbeside.shaped hs (hthird ▸ sameRound_accept env stage s.third)
        (hthird ▸ hs.third.accept hsender)
    · intro key hkey
      rw [List.getElem?_eq_getElem hsender] at hkey
      exact Option.some.inj hkey ▸ hverify
  · exact hstays

theorem wp_timeout (hs : s.Shaped) :
    Leaves (Op.exec env .timeout) (fun t => t.Shaped ∧ Acts env .timeout s t) s := by
  refine .get_bind ?_
  cases htimer : s.timeoutStage with
  | none => exact ⟨hs, .inl (.inl rfl)⟩
  | some st =>
    have hkill : Aside env s s.killTimer :=
      Beside.aside ⟨rfl, rfl, not_tracked⟩ rfl
    have haside : ∀ {m : ConsensusM Unit}, Within (Aside env) m →
        Leaves m (fun t => t.Shaped ∧ Acts env .timeout s t) s.killTimer := fun hm =>
      (hm _).leaves_mono fun _ h => (trans_of (Aside env) hkill h hs).imp_right .inl
    refine .modify_bind (.get_bind ?_)
    refine .ite (fun _ => ?_) fun _ => .ite (fun _ => ?_) fun _ =>
      .ite (fun hthree => ?_) fun _ => ?_
    · exact haside (.forM (fun _ => within_markSilent within_fakeStage1 _ _) _)
    · exact haside (.forM (fun _ => within_markSilent within_fakeStage2 _ _) _)
    · have hsent := hs.timer (htimer.trans (congrArg some hthree))
      refine (wp_resetStageThree (hkill hs).1).imp (fun _ _ h => h.elim) fun _ t ⟨ht, hthird⟩ => ?_
      exact ⟨ht, hthird.elim (fun h => .inl (.inl h)) fun h => .inr (.inr ⟨hsent, h⟩)⟩
    · exact ⟨(hkill hs).1, .inl (.inl rfl)⟩

theorem step_cases (hs : s.Shaped) (h : step env op s = some t) : t.Shaped ∧ Acts env op s t := by
  have hwp : Leaves (op.exec env) (fun t => t.Shaped ∧ Acts env op s t) s := by
    have haside : ∀ {m : ConsensusM Unit}, Within (Aside env) m →
        Leaves m (fun t => t.Shaped ∧ Acts env op s t) s :=
      fun hm => (hm s).leaves_mono fun _ h => (h hs).imp_right .inl
    cases op with
    | stageOne stage => exact haside (within_onSignal _ _ (within_addSmartStageOne _ _))
    | stageTwo stage => exact haside (within_onSignal _ _ (within_addSmartStageTwo _ _))
    | stageThree stage => exact wp_stageThree hs stage
    | timeout => exact wp_timeout hs
  unfold step at h
  cases hexec : op.exec env s with
  | ok a u =>
    rw [hexec] at h
    exact Option.some.inj h ▸ hwp.of_ok hexec
  | error e u =>
    rw [hexec] at h
    cases e with
    | exception what => exact Option.some.inj h ▸ hwp.of_error hexec
    | overflow => cases h
    | undefined => cases h
    | outOfFuel => cases h

theorem calculateSmartsConfNum_lt {smartConfidants : List PublicKey}
    (h : calculateSmartsConfNum env smartConfidants ≠ kUntrustedMarker) :
    (calculateSmartsConfNum env smartConfidants).toNat < smartConfidants.length := by
  have hfold : ∀ (l : List Nat) (number : UInt8), (∀ i ∈ l, i < smartConfidants.length) →
      (number = kUntrustedMarker ∨ number.toNat < smartConfidants.length) →
      let result := l.foldl (fun number i =>
        if smartConfidants[i]? = some env.nodeIdKey then UInt8.ofNat i else number) number
      result = kUntrustedMarker ∨ result.toNat < smartConfidants.length := by
    intro l
    induction l with
    | nil => exact fun _ _ h => h
    | cons i l ih =>
      intro number hl hnumber
      refine ih _ (fun j hj => hl j (mem_cons_of_mem _ hj)) ?_
      grind [UInt8.toNat_ofNat']
  exact (hfold _ _ (fun i hi => mem_range.mp hi) (.inl rfl)).resolve_left h

/-- The third stage before the first message. -/
structure Fresh (T : ThirdStage) : Prop where
  sized : T.Sized
  sent : T.sent = false
  connected : T.connected = true
  packets : T.packets = []
  temp : T.temp = []
  storage : T.storage =
    List.replicate T.smartConfidants.length { StageThreeSmarts.new with sender := kUntrustedMarker }

theorem Fresh.once (h : Fresh T) : T.Once where
  hash hsent := absurd (h.sent.symm.trans hsent) Bool.false_ne_true
  listening _ := h.packets
  finished hc := absurd (hc.symm.trans h.connected) Bool.false_ne_true

/-- The number of an empty slot is not that of a confidant, unless there are too many of them. -/
theorem Fresh.waiting (h : Fresh T) (hn : T.smartConfidants.length ≤ 255) : T.Waiting := by
  refine ⟨h.sent, h.connected, fun i => Bool.eq_false_iff.mpr fun hfilled => ?_⟩
  obtain ⟨stage, hstage, hi⟩ := isFilled_iff.mp hfilled
  rw [h.storage, List.getElem?_replicate] at hstage
  split_ifs at hstage with hlt
  cases hstage
  have hmarker : kUntrustedMarker.toNat = 255 := rfl
  exact absurd (hi ▸ hlt) (Nat.not_lt.mpr (hmarker ▸ hn))

theorem initSmartRound_ok (h : initSmartRound env pack runCounter saved s = .ok true t) :
    t.Shaped ∧ ∃ T, Fresh T ∧ Moves env T t.third := by
  have hwp : Returns (initSmartRound env pack runCounter saved)
      (fun started t => started = true → t.Shaped ∧ ∃ T, Fresh T ∧ Moves env T t.third) s := by
    refine .lift_bind fun p _ => ?_
    refine .ite (fun hstart => ?_) fun hstart => ?_
    · exact nofun
    refine .set_bind (.get_bind ?_)
    refine .ite (fun hown => ?_) fun hown => ?_
    · exact nofun
    refine .modify_bind ?_
    let start : SmartConsensus := { prepareRound env p runCounter with
      stageOneConnected := true, stageTwoConnected := true, stageThreeConnected := true }
    have hfresh : Fresh start.third := by
      refine ⟨⟨length_replicate, calculateSmartsConfNum_lt hown, ?_⟩, rfl, rfl, rfl, rfl, rfl⟩
      exact nofun
    have hshaped : start.Shaped := by
      refine ⟨hfresh.sized, length_replicate, length_replicate, fun h => ?_, fun h => ?_⟩
      · exact absurd (Option.some.inj h) (by decide)
      · exact absurd h Bool.false_ne_true
    have hsaved : Within (Aside env) (saved.forM fun stage =>
        onSignal stageOneConnected stage.signature (addSmartStageOne env stage false)) :=
      .forM (fun _ => within_onSignal _ _ (within_addSmartStageOne _ _)) _
    refine .bind ((hsaved start).imp (fun _ _ _ => trivial) fun _ _ h => h) fun _ u hu => ?_
    refine .get_bind ?_
    cases ownStageOne env p u with
    | none => exact nofun
    | some st1 =>
      refine .bind ((within_addSmartStageOne st1 true u).imp (fun _ _ _ => trivial) fun _ _ h => h)
        fun _ v hv => ?_
      obtain ⟨hv, hmoves⟩ := trans_of (Aside env) hu hv hshaped
      exact fun _ => ⟨hv, start.third, hfresh, hmoves⟩
  exact hwp.of_ok h rfl

variable (env) in
/-- No message that the node itself has signed comes from the network before the own one is made. -/
def OwnNotEarly (op : Op) (s : SmartConsensus) : Prop :=
  ∀ stage, op = .stageThree stage → stage.sender = s.ownSmartsConfNum → Signed env s stage →
    s.smartStageThreeSent = true

instance decidableOwnNotEarly : (op : Op) → (s : SmartConsensus) → Decidable (OwnNotEarly env op s)
  | .stageThree stage, s =>
    have : Decidable (Signed env s stage) := inferInstanceAs (Decidable (∀ key ∈ _, _))
    decidable_of_iff (stage.sender = s.ownSmartsConfNum → Signed env s stage →
        s.smartStageThreeSent = true)
      ⟨fun h _ hop => Op.stageThree.inj hop ▸ h, fun h => h stage rfl⟩
  | .stageOne _, _ => .isTrue fun _ hop => Op.noConfusion hop
  | .stageTwo _, _ => .isTrue fun _ hop => Op.noConfusion hop
  | .timeout, _ => .isTrue fun _ hop => Op.noConfusion hop

def SentOnce (s : SmartConsensus) : Prop := s.Shaped ∧ s.third.Once

theorem SentOnce.after (h : s.SentOnce) : After (step env) SentOnce op s := by
  intro t ht
  obtain ⟨hshaped, hacts⟩ := step_cases h.1 ht
  refine ⟨hshaped, ?_⟩
  rcases hacts with (hstays | ⟨pack, stage, hsent, hpack, -, hproduce⟩) |
    ⟨stage, -, hconnected, -, -, haccept⟩ | ⟨-, hreset⟩
  · exact hstays ▸ h.2
  · exact hproduce ▸ h.2.produce hsent hpack stage
  · exact haccept ▸ h.2.accept hconnected stage
  · exact hreset ▸ h.2.reset

variable (env) in
def OnTime (s : SmartConsensus) : Prop := s.SentOnce ∧ s.third.Phase ∧ s.third.Timely env

theorem OnTime.sendsOnce (h : s.OnTime env) : s.third.SendsOnce env :=
  h.2.1.sendsOnce h.1.2

theorem onTime_of_produce {U : ThirdStage} (hphase : T.Phase) (honce : T.Once) (hT : T.Sized)
    (hsent : T.sent = false) (hpack : pack.hash.isSome) (hstage : stage.sender = T.ownSmartsConfNum)
    (hU : U = T.produce env pack stage) :
    U.Phase ∧ U.Timely env ∨ ¬U.Timely env ∧ ¬U.SendsOnce env := by
  subst hU
  cases hphase with
  | waiting h => exact h.produce honce hT hpack hstage
  | counting h _ => exact absurd (hsent.symm.trans h.sent) Bool.false_ne_true
  | done h => exact absurd (hsent.symm.trans (honce.finished h).1) Bool.false_ne_true

theorem OnTime.next (h : s.OnTime env) (hown : OwnNotEarly env op s) (ht : step env op s = some t) :
    t.OnTime env ∨ ¬t.third.Timely env ∧ ¬t.third.SendsOnce env := by
  obtain ⟨honce, hphase, htimely⟩ := h
  have hsentOnce : t.SentOnce := honce.after t ht
  obtain ⟨-, hacts⟩ := step_cases honce.1 ht
  rcases hacts with (hstays | ⟨pack, stage, hsent, hpack, hstage, hproduce⟩) |
    ⟨stage, hop, hconnected, hsender, hsigned, haccept⟩ | ⟨hsent, hreset⟩
  · exact .inl ⟨hsentOnce, hstays ▸ hphase, hstays ▸ htimely⟩
  · have hcases := onTime_of_produce hphase honce.2 honce.1.third hsent hpack hstage hproduce
    exact hcases.imp_left fun hboth => ⟨hsentOnce, hboth⟩
  · left
    refine ⟨hsentOnce, ?_, haccept ▸ htimely.accept stage⟩
    rw [haccept]
    refine hphase.accept honce.1.third hconnected hsender fun hnumber => ?_
    exact hown stage hop hnumber hsigned
  · exact .inl ⟨hsentOnce, hreset ▸ hphase.reset hsent, hreset ▸ ThirdStage.Timely.reset _⟩

theorem OnTime.after_iff (h : s.OnTime env) (hown : OwnNotEarly env op s) :
    After (step env) (fun t => t.third.SendsOnce env) op s ↔
      After (step env) (fun t => t.third.Timely env) op s := by
  refine forall₂_congr fun t ht => ?_
  rcases h.next hown ht with hontime | ⟨hnot, hnot'⟩
  · exact iff_of_true hontime.sendsOnce hontime.2.2
  · exact iff_of_false hnot' hnot

theorem sentOnce_of_init (h : initSmartRound env pack runCounter saved s = .ok true t) :
    t.SentOnce := by
  obtain ⟨hshaped, T, hfresh, hmoves⟩ := initSmartRound_ok h
  refine ⟨hshaped, ?_⟩
  rcases hmoves with hstays | ⟨pack, stage, hsent, hpack, -, hproduce⟩
  · exact hstays ▸ hfresh.once
  · exact hproduce ▸ hfresh.once.produce hsent hpack stage

theorem onTime_of_init (h : initSmartRound env pack runCounter saved s = .ok true t)
    (hn : t.smartConfidants.length ≤ 255) : t.OnTime env := by
  have honce := sentOnce_of_init h
  obtain ⟨-, T, hfresh, hmoves⟩ := initSmartRound_ok h
  rcases hmoves with hstays | ⟨pack, stage, hsent, hpack, hstage, hproduce⟩
  · have hwaiting : t.third.Waiting := hstays ▸ hfresh.waiting (hstays ▸ hn)
    refine ⟨honce, .waiting hwaiting, fun hsent => ?_⟩
    exact absurd (hwaiting.sent.symm.trans hsent) Bool.false_ne_true
  · have hround := sameRound_accept env stage { T with pack, sent := true }
    have hconfidants : t.third.smartConfidants = T.smartConfidants :=
      hproduce ▸ hround.smartConfidants
    have hwaiting : T.Waiting := hfresh.waiting (hconfidants ▸ hn)
    -- nothing has been kept yet
    have htimely : t.third.Timely env := by
      rw [hproduce]
      refine ThirdStage.Timely.accept (fun _ => ?_) stage
      rw [hfresh.temp]
      exact Nat.le_add_left 1 _
    have hcases := onTime_of_produce (.waiting hwaiting) hfresh.once hfresh.sized hsent hpack hstage
      hproduce
    exact ⟨honce, hcases.resolve_right fun hnot => hnot.1 htimely⟩

/-- The final packet is never sent twice. If there are at most 255 confidants, and no message of the
node itself comes back too early, then it is sent whenever a majority of the confidants is stored,
if and only if no more messages were kept for the own one than the majority lacked. -/
theorem final_set_sent_once_iff {pack : TransactionsPacket} {runCounter : UInt8}
    {saved : List StageOneSmarts} {s : SmartConsensus}
    (hinit : initSmartRound env pack runCounter saved .new = .ok true s) (ops : List Op) :
    Along (silent (step env)) (After (step env) fun t => t.separatePackets.length ≤ 1) ops s ∧
    (s.smartConfidants.length ≤ 255 → Along (silent (step env)) (OwnNotEarly env) ops s →
      s.third.SendsOnce env ∧
      (Along (silent (step env)) (After (step env) fun t => t.third.SendsOnce env) ops s ↔
        Along (silent (step env)) (After (step env) fun t => t.third.Timely env) ops s)) := by
  refine ⟨along_after (I := SentOnce) (fun t h => h.2.length_le) (fun op s h => h.after)
    (sentOnce_of_init hinit) ops, fun hn hown => ?_⟩
  have hontime : s.OnTime env := onTime_of_init hinit hn
  -- as long as the consensus is on time, a step keeps it so or violates both conditions
  have hiff : Along (silent (step env)) (fun op s => OwnNotEarly env op s ∧
        After (step env) (fun t => t.third.SendsOnce env) op s) ops s ↔
      Along (silent (step env)) (fun op s => OwnNotEarly env op s ∧
        After (step env) (fun t => t.third.Timely env) op s) ops s := by
    refine along_congr (I := OnTime env) (fun op s hs => ?_) (fun op s hs hboth => ?_) ops s hontime
    · exact and_congr_right fun hop => hs.after_iff hop
    · refine forall_mem_silent fun t ht => ?_
      exact (hs.next hboth.1 ht).resolve_right fun hnot => hnot.1 (hboth.2 t ht)
  refine ⟨hontime.sendsOnce, fun hsends => ?_, fun htimely => ?_⟩
  · exact (hiff.mp (hown.and hsends)).mono fun _ _ h => h.2
  · exact (hiff.mpr (hown.and htimely)).mono fun _ _ h => h.2

/-- The first of three confidants, in a world where all signatures are right. -/
def threeNode : ConsensusNode where
  crypto := ⟨fun _ => sampleHash 1, fun _ _ _ => true⟩
  generateSignature _ := sampleSignature 1
  nodeIdKey := sampleKey 0
  retriveSmartConfidants _ := [sampleKey 0, sampleKey 1, sampleKey 2]

def execution : TransactionsPacket :=
  { TransactionsPacket.new with transactions := [{ Transaction.new with
    userFields := (OrdMap.empty.emplace TrxUf.newStateValue (.string [1])).emplace
      TrxUf.newStateRefStart (.string (putU64 0 ++ (putU64 7 ++ putU64 0))) }] }

/-- The consensus on it, when the own stage-1 message has been sent. -/
def started : SmartConsensus :=
  match initSmartRound threeNode execution 0 [] .new with
  | .ok _ s => s
  | .error _ s => s

/-- The messages of the other confidants, all as the node itself would send them. -/
def firstFrom (sender : UInt8) : Op := .stageOne
  { sender, id := started.id, fees := [0], hash := sampleHash 1
    messageHash := zeroArray 32, signature := sampleSignature 1 }

def secondFrom (sender : UInt8) : Op := .stageTwo
  { sender, id := started.id, hashes := List.replicate 3 (zeroArray 32)
    signatures := List.replicate 3 (sampleSignature 1)
    signature := sampleSignature 1, message := [] }

def thirdFrom (sender : UInt8) : Op := .stageThree
  { StageThreeSmarts.new with
    sender, id := started.id, packageSignature := sampleSignature 1
    signature := sampleSignature 1 }

theorem initSmartRound_started :
    initSmartRound threeNode execution 0 [] .new = .ok true started := by
  rfl

theorem final_set_sent_once_three :
    Along (silent (step threeNode)) (After (step threeNode) fun t => t.third.SendsOnce threeNode)
      [firstFrom 1, firstFrom 2, thirdFrom 1, secondFrom 1, secondFrom 2, thirdFrom 2] started := by
  have hiff := final_set_sent_once_iff initSmartRound_started
    [firstFrom 1, firstFrom 2, thirdFrom 1, secondFrom 1, secondFrom 2, thirdFrom 2]
  exact ((hiff.2 (by decide +kernel) (by decide +kernel)).2).mpr (by decide +kernel)

/-- Both other confidants are faster: all three messages are stored at once, and the final packet is
not sent. -/
theorem final_set_not_sent :
    (run (silent (step threeNode))
      [firstFrom 1, firstFrom 2, thirdFrom 1, thirdFrom 2, secondFrom 1, secondFrom 2] started).map
      (fun r => (r.2.smartStageThreeSent, r.2.third.majority, r.2.third.authentic threeNode,
        r.2.separatePackets.length)) = some (true, 2, 3, 0) := by
  decide +kernel

end CreditsNode.SmartConsensus
