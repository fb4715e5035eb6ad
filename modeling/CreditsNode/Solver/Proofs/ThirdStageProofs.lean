import CreditsNode.Solver.ThirdStage
import Mathlib.Data.Finset.Card
import Mathlib.Data.Fintype.Basic

/-!
# How often the final packet is sent

The number of slots is tested for equality with the majority after each accepted message. A message
of another confidant fills one more slot, but the own message brings all those that were kept, and
if they are more than the majority lacks, the number is never equal to it.
-/

namespace CreditsNode

open SmartConsensus List StageThreeSmarts

namespace SmartConsensus

variable {τ : Type} {sender : τ → UInt8} {storage : List τ}

theorem isFilled_iff {i : Nat} :
    isFilled sender storage i = true ↔ ∃ stage, storage[i]? = some stage ∧
      (sender stage).toNat = i := by
  unfold isFilled
  cases storage[i]? with
  | none => simp
  | some stage => simp

theorem isFilled_set {stage : τ} (hlen : (sender stage).toNat < storage.length) {i : Nat} :
    isFilled sender (storage.set (sender stage).toNat stage) i = true ↔
      i = (sender stage).toNat ∨ isFilled sender storage i = true := by
  rw [isFilled_iff, isFilled_iff]
  grind

theorem stageSize_eq_card :
    stageSize sender storage =
      ((Finset.range storage.length).filter fun i => isFilled sender storage i = true).card := by
  unfold stageSize
  rw [countP_eq_length_filter, ← toFinset_card_of_nodup (nodup_range.filter _)]
  congr 1
  ext i
  simp

theorem stageSize_eq_length_iff :
    stageSize sender storage = storage.length ↔
      ∀ i < storage.length, isFilled sender storage i = true := by
  grind [stageSize, countP_eq_length]

theorem stageSize_set {stage : τ} (hlen : (sender stage).toNat < storage.length)
    (hempty : isFilled sender storage (sender stage).toNat = false) :
    stageSize sender (storage.set (sender stage).toNat stage) = stageSize sender storage + 1 := by
  rw [stageSize_eq_card, stageSize_eq_card, length_set]
  have hinsert : ((Finset.range storage.length).filter fun i =>
      isFilled sender (storage.set (sender stage).toNat stage) i = true) =
      insert (sender stage).toNat
        ((Finset.range storage.length).filter fun i => isFilled sender storage i = true) := by
    ext i
    rw [Finset.mem_filter, Finset.mem_insert, Finset.mem_filter, isFilled_set hlen]
    constructor
    · rintro ⟨hi, h | h⟩
      · exact .inl h
      · exact .inr ⟨hi, h⟩
    · rintro (rfl | ⟨hi, h⟩)
      · exact ⟨Finset.mem_range.mpr hlen, .inl rfl⟩
      · exact ⟨hi, .inr h⟩
  rw [hinsert, Finset.card_insert_of_notMem]
  simp [hempty]

end SmartConsensus

namespace ThirdStage

variable {env : ConsensusNode}

theorem authentic_le_filled (T : ThirdStage) : T.authentic env ≤ T.filled := by
  refine countP_mono_left fun i _ h => ?_
  exact (Bool.and_eq_true _ _ ▸ h).1

section StoreAll

variable {passes : StageThreeSmarts → Bool}

theorem length_storeAll (stages : List StageThreeSmarts) :
    ∀ storage, (storeAll passes stages storage).length = storage.length := by
  induction stages with
  | nil => exact fun _ => rfl
  | cons stage stages ih =>
    intro storage
    refine (ih _).trans ?_
    grind

theorem isFilled_storeAll {stages : List StageThreeSmarts} {i : Nat} :
    ∀ {storage : List StageThreeSmarts}, (∀ stage ∈ stages, stage.sender.toNat < storage.length) →
      (isFilled sender (storeAll passes stages storage) i = true ↔
        isFilled sender storage i = true ∨
          ∃ stage ∈ stages, passes stage = true ∧ stage.sender.toNat = i) := by
  induction stages with
  | nil =>
    intro storage _
    simp [storeAll]
  | cons stage stages ih =>
    intro storage hlen
    have hrest : ∀ other ∈ stages, other.sender.toNat < storage.length :=
      fun other hother => hlen other (mem_cons_of_mem _ hother)
    show isFilled _ (storeAll passes stages (if passes stage then _ else storage)) i = true ↔ _
    by_cases hpass : passes stage = true
    · grind [isFilled_set]
    · rw [if_neg hpass, ih hrest]
      simp only [mem_cons, exists_eq_or_imp, hpass]
      tauto

theorem storeAll_slots {P : StageThreeSmarts → Prop}
    (hpass : ∀ stage, passes stage = true → P stage)
    {stages : List StageThreeSmarts} : ∀ {storage : List StageThreeSmarts},
      (∀ i stage, storage[i]? = some stage → stage.sender.toNat = i → P stage) →
      ∀ i stage, (storeAll passes stages storage)[i]? = some stage → stage.sender.toNat = i →
        P stage := by
  induction stages with
  | nil => exact fun h => h
  | cons first stages ih =>
    intro storage h
    refine ih ?_
    grind

end StoreAll

/-- There is a slot for each confidant, and all messages that were kept come from other
confidants. -/
structure Sized (T : ThirdStage) : Prop where
  storage : T.storage.length = T.smartConfidants.length
  own : T.ownSmartsConfNum.toNat < T.smartConfidants.length
  temp : ∀ stage ∈ T.temp, stage.sender.toNat < T.smartConfidants.length ∧
    stage.sender ≠ T.ownSmartsConfNum

theorem hash_signFinal (storage : List StageThreeSmarts) (tMask : ByteCodec.Bytes)
    (packet : TransactionsPacket) : (signFinal storage tMask packet).hash = packet.hash := by
  have hadd : ∀ (packet : TransactionsPacket) index signature,
      (packet.addSignature index signature).1.hash = packet.hash := by
    grind [TransactionsPacket.addSignature]
  have hfold : ∀ {α : Type} (f : TransactionsPacket → α → TransactionsPacket) (l : List α)
      (packet : TransactionsPacket), (∀ packet a, (f packet a).hash = packet.hash) →
      (l.foldl f packet).hash = packet.hash := by
    intro α f l packet hf
    induction l generalizing packet with
    | nil => rfl
    | cons a l ih => exact (ih (f packet a)).trans (hf packet a)
  grind [signFinal]

/-- The round and the hash of the final packet are the same, and so is what has been sent. -/
structure SameRound (T U : ThirdStage) : Prop where
  smartConfidants : U.smartConfidants = T.smartConfidants
  ownSmartsConfNum : U.ownSmartsConfNum = T.ownSmartsConfNum
  id : U.id = T.id
  hash : U.pack.hash = T.pack.hash
  sent : U.sent = T.sent

theorem SameRound.refl (T : ThirdStage) : SameRound T T := ⟨rfl, rfl, rfl, rfl, rfl⟩

variable {T U : ThirdStage} {stage : StageThreeSmarts}

theorem SameRound.trans {V : ThirdStage} (h₁ : SameRound T U) (h₂ : SameRound U V) :
    SameRound T V where
  smartConfidants := h₂.smartConfidants.trans h₁.smartConfidants
  ownSmartsConfNum := h₂.ownSmartsConfNum.trans h₁.ownSmartsConfNum
  id := h₂.id.trans h₁.id
  hash := h₂.hash.trans h₁.hash
  sent := h₂.sent.trans h₁.sent

theorem SameRound.majority (h : SameRound T U) : U.majority = T.majority := by
  unfold ThirdStage.majority
  rw [h.smartConfidants]

theorem SameRound.verified (h : SameRound T U) : U.verified env = T.verified env := by
  unfold ThirdStage.verified
  rw [h.smartConfidants, h.hash]

theorem place_of_waiting (hother : stage.sender ≠ T.ownSmartsConfNum) (hsent : ¬T.sent = true) :
    T.place env stage = { T with temp := T.temp ++ [stage] } :=
  (if_pos hother).trans (if_neg hsent)

theorem place_of_sent (hother : stage.sender ≠ T.ownSmartsConfNum) (hsent : T.sent = true) :
    T.place env stage = { T with storage := storeAll (T.verified env) [stage] T.storage } :=
  (if_pos hother).trans (if_pos hsent)

theorem sameRound_place (stage : StageThreeSmarts) (T : ThirdStage) :
    SameRound T (T.place env stage) := by
  unfold place
  split_ifs <;> exact ⟨rfl, rfl, rfl, rfl, rfl⟩

theorem sameRound_check (T : ThirdStage) : SameRound T T.check := by
  unfold check
  split_ifs
  · exact ⟨rfl, rfl, rfl, rfl, rfl⟩
  · exact ⟨rfl, rfl, rfl, hash_signFinal _ _ _, rfl⟩
  · exact .refl T

theorem accept_cases (env : ConsensusNode) (stage : StageThreeSmarts) (T : ThirdStage) :
    T.accept env stage = T ∨ T.accept env stage = (T.place env stage).check := by
  unfold accept
  cases T.storage[stage.sender.toNat]? with
  | none => exact .inl rfl
  | some slot =>
    dsimp only
    split_ifs
    · exact .inl rfl
    · exact .inr rfl

theorem sameRound_accept (env : ConsensusNode) (stage : StageThreeSmarts) (T : ThirdStage) :
    SameRound T (T.accept env stage) := by
  rcases accept_cases env stage T with h | h <;> rw [h]
  · exact .refl T
  · exact (sameRound_place stage T).trans (sameRound_check _)

theorem accept_eq (hT : Sized T) (hstage : stage.sender.toNat < T.smartConfidants.length) :
    T.accept env stage =
      if isFilled sender T.storage stage.sender.toNat then T
      else (T.place env stage).check := by
  have hlen : stage.sender.toNat < T.storage.length := hT.storage ▸ hstage
  unfold accept isFilled
  rw [List.getElem?_eq_getElem hlen]
  simp only [Option.any_some, decide_eq_true_eq, UInt8.toNat_inj]

@[simp] theorem check_temp (T : ThirdStage) : T.check.temp = T.temp := by
  unfold check
  split_ifs <;> rfl

@[simp] theorem check_storage (T : ThirdStage) : T.check.storage = T.storage := by
  unfold check
  split_ifs <;> rfl

theorem Sized.check (h : Sized T) : Sized T.check where
  storage := by rw [check_storage, (sameRound_check T).smartConfidants, h.storage]
  own := by
    rw [(sameRound_check T).smartConfidants, (sameRound_check T).ownSmartsConfNum]
    exact h.own
  temp := by
    rw [check_temp, (sameRound_check T).smartConfidants, (sameRound_check T).ownSmartsConfNum]
    exact h.temp

theorem Sized.place (h : Sized T)
    (hstage : stage.sender.toNat < T.smartConfidants.length) : Sized (T.place env stage) := by
  unfold ThirdStage.place
  split_ifs with hother hsent
  · exact ⟨(length_storeAll _ _).trans h.storage, h.own, h.temp⟩
  · refine ⟨h.storage, h.own, fun kept hkept => ?_⟩
    have htemp := h.temp
    grind
  · exact ⟨((length_storeAll _ _).trans length_set).trans h.storage, h.own, h.temp⟩

theorem Sized.accept (h : Sized T)
    (hstage : stage.sender.toNat < T.smartConfidants.length) : Sized (T.accept env stage) := by
  rw [accept_eq h hstage]
  split_ifs
  · exact h
  · exact (h.place hstage).check

/-- The stage listens until the packet is sent. -/
structure Once (T : ThirdStage) : Prop where
  hash : T.sent = true → T.pack.hash.isSome
  listening : T.connected = true → T.packets = []
  finished : T.connected = false → T.sent = true ∧ T.packets.length = 1

theorem Once.length_le (h : Once T) : T.packets.length ≤ 1 := by
  cases hconnected : T.connected with
  | true => simp [h.listening hconnected]
  | false => exact (h.finished hconnected).2.le

theorem Once.check (h : Once T) (hconnected : T.connected = true) : Once T.check := by
  unfold ThirdStage.check
  split_ifs with henough hnone
  · obtain ⟨hsent, -⟩ := Bool.and_eq_true _ _ ▸ henough
    exact absurd (h.hash hsent) (by simpa using hnone)
  · obtain ⟨hsent, -⟩ := Bool.and_eq_true _ _ ▸ henough
    refine ⟨fun _ => ?_, fun hc => ?_, fun _ => ⟨hsent, ?_⟩⟩
    · exact (hash_signFinal _ _ _).symm ▸ h.hash hsent
    · exact absurd hc Bool.false_ne_true
    · simp [send, h.listening hconnected]
  · exact h

theorem Once.accept (h : Once T) (hconnected : T.connected = true)
    (stage : StageThreeSmarts) : Once (T.accept env stage) := by
  have hplace : Once (T.place env stage) ∧ (T.place env stage).connected = true := by
    unfold ThirdStage.place
    split_ifs <;> exact ⟨⟨h.hash, h.listening, h.finished⟩, hconnected⟩
  rcases accept_cases env stage T with heq | heq <;> rw [heq]
  · exact h
  · exact hplace.1.check hplace.2

theorem Once.produce (h : Once T) (hsent : T.sent = false)
    {pack : TransactionsPacket} (hpack : pack.hash.isSome) (stage : StageThreeSmarts) :
    Once (T.produce env pack stage) := by
  have hconnected : T.connected = true := by
    have hfinished := h.finished
    grind
  have hready : Once { T with pack, sent := true } :=
    ⟨fun _ => hpack, h.listening, fun hc => ⟨rfl, (h.finished hc).2⟩⟩
  exact hready.accept hconnected stage

theorem Once.reset (h : Once T) : Once T.reset := ⟨h.hash, h.listening, h.finished⟩

/-- The own message has not been made. -/
structure Waiting (T : ThirdStage) : Prop where
  sent : T.sent = false
  connected : T.connected = true
  empty : ∀ i, isFilled StageThreeSmarts.sender T.storage i = false

/-- The own message has been made, and the slots are counted. -/
structure Counting (T : ThirdStage) : Prop where
  sent : T.sent = true
  hash : T.pack.hash.isSome
  connected : T.connected = true
  filled : 1 ≤ T.filled
  /-- What was kept has been looked at. -/
  temp : isFilled StageThreeSmarts.sender T.storage T.ownSmartsConfNum.toNat = true ∨ T.temp = []

/-- The phases of a stage that has not missed the majority. -/
inductive Phase (T : ThirdStage) : Prop where
  | waiting (h : Waiting T)
  | counting (h : Counting T) (hlt : T.filled < T.majority)
  | done (h : T.connected = false)

theorem Phase.sendsOnce (h : Phase T) (honce : Once T) : T.SendsOnce env := by
  intro hsent hmajority
  cases h with
  | waiting h => exact absurd (h.sent ▸ hsent) Bool.false_ne_true
  | counting h hlt => exact absurd (hmajority.trans (T.authentic_le_filled)) (Nat.not_le.mpr hlt)
  | done h => exact (honce.finished h).2

theorem Counting.check (h : Counting T) (hle : T.filled ≤ T.majority) : Phase T.check := by
  unfold ThirdStage.check
  rw [h.sent, Bool.true_and]
  by_cases heq : T.filled = T.majority
  · have hnone : ¬T.pack.hash.isNone = true := by
      rw [Option.isNone_iff_eq_none]
      exact Option.isSome_iff_ne_none.mp h.hash
    rw [if_pos (decide_eq_true heq), if_neg hnone]
    exact .done rfl
  · rw [if_neg (by simpa using heq)]
    exact .counting h (lt_of_le_of_ne hle heq)

theorem Counting.set (h : Counting T) (hT : Sized T)
    (hstage : stage.sender.toNat < T.smartConfidants.length)
    (hempty : isFilled sender T.storage stage.sender.toNat = false)
    (hlt : T.filled < T.majority) :
    Phase { T with storage := T.storage.set stage.sender.toNat stage }.check := by
  have hlen : stage.sender.toNat < T.storage.length := hT.storage ▸ hstage
  have hfilled : stageSize sender (T.storage.set stage.sender.toNat stage) =
      T.filled + 1 := stageSize_set hlen hempty
  refine Counting.check ⟨h.sent, h.hash, h.connected, ?_, ?_⟩ ?_
  · exact (Nat.le_add_left 1 _).trans_eq hfilled.symm
  · exact h.temp.imp (fun hown => (isFilled_set hlen).mpr (.inr hown)) fun hnil => hnil
  · exact hfilled.trans_le hlt

theorem Phase.accept (h : Phase T) (hT : Sized T) (hconnected : T.connected = true)
    (hstage : stage.sender.toNat < T.smartConfidants.length)
    (hown : stage.sender = T.ownSmartsConfNum → T.sent = true) : Phase (T.accept env stage) := by
  rw [accept_eq hT hstage]
  split_ifs with hfilled
  · exact h
  · have hempty := Bool.eq_false_iff.mpr hfilled
    cases h with
    | done h => exact absurd (h.symm.trans hconnected) Bool.false_ne_true
    | waiting h =>
      have hother : stage.sender ≠ T.ownSmartsConfNum := fun heq =>
        absurd (h.sent ▸ hown heq) Bool.false_ne_true
      rw [place_of_waiting hother (Bool.eq_false_iff.mp h.sent)]
      unfold ThirdStage.check
      rw [if_neg (by simp [h.sent])]
      exact .waiting ⟨h.sent, h.connected, h.empty⟩
    | counting h hlt =>
      by_cases hother : stage.sender ≠ T.ownSmartsConfNum
      · rw [place_of_sent hother h.sent]
        by_cases hverified : T.verified env stage = true
        · rw [show storeAll (T.verified env) [stage] T.storage = _ from if_pos hverified]
          exact h.set hT hstage hempty hlt
        · rw [show storeAll (T.verified env) [stage] T.storage = _ from if_neg hverified]
          exact h.check hlt.le
      · have htemp : T.temp = [] := by
          have htemp := h.temp
          grind
        have hplace : T.place env stage =
            { T with storage := T.storage.set stage.sender.toNat stage } := by
          unfold ThirdStage.place
          rw [if_neg hother, htemp]
          rfl
        rw [hplace]
        exact h.set hT hstage hempty hlt

theorem Phase.reset (h : Phase T) (hsent : T.sent = true) : Phase T.reset := by
  cases h with
  | waiting h => exact absurd (h.sent ▸ hsent) Bool.false_ne_true
  | done h => exact .done h
  | counting h hlt =>
    -- the slot of the first confidant has its number, as all numbers are zero
    have hsize : ∀ n, 0 < n → stageSize sender (replicate n .new) = 1 := by
      intro n hn
      rw [stageSize_eq_card, Finset.card_eq_one]
      refine ⟨0, ?_⟩
      ext i
      rw [Finset.mem_filter, isFilled_iff, Finset.mem_singleton, Finset.mem_range, length_replicate]
      constructor
      · rintro ⟨-, stage, hstage, hi⟩
        rw [List.getElem?_replicate] at hstage
        split_ifs at hstage
        cases hstage
        exact hi.symm
      · rintro rfl
        exact ⟨hn, .new, by rw [List.getElem?_replicate, if_pos hn], rfl⟩
    have hmajority : 2 ≤ T.majority := h.filled.trans_lt hlt
    have hn : 0 < T.smartConfidants.length := by
      unfold majority at hmajority
      omega
    have hone : T.reset.filled = 1 := hsize _ hn
    refine .counting ⟨h.sent, h.hash, h.connected, hone.ge, .inr rfl⟩ ?_
    exact hone.trans_lt hmajority

theorem early_congr (h : SameRound T U) (htemp : U.temp = T.temp) : U.early env = T.early env := by
  unfold early
  rw [h.verified, htemp]

theorem Timely.congr (hT : T.Timely env) (h : SameRound T U)
    (htemp : U.temp = T.temp) : U.Timely env := by
  intro hsent
  rw [early_congr h htemp, h.majority]
  exact hT (h.sent ▸ hsent)

theorem filled_produced (hT : Sized T) (hempty : ∀ i,
      isFilled sender T.storage i = false)
    (hstage : stage.sender = T.ownSmartsConfNum) :
    stageSize sender
      (storeAll (T.verified env) T.temp (T.storage.set stage.sender.toNat stage)) =
        T.early env + 1 := by
  have hlen : stage.sender.toNat < T.storage.length := by
    rw [hstage, hT.storage]
    exact hT.own
  have hkept : ∀ kept ∈ T.temp, kept.sender.toNat <
      (T.storage.set stage.sender.toNat stage).length := fun kept hkept => by
    rw [length_set, hT.storage]
    exact (hT.temp kept hkept).1
  -- the numbers of the confidants, the own one first
  set slots := storeAll (T.verified env) T.temp (T.storage.set stage.sender.toNat stage) with hset
  have hslots : ((Finset.range slots.length).filter fun i =>
        isFilled sender slots i = true) =
      insert stage.sender.toNat
        ((((T.temp.filter (T.verified env)).map sender).toFinset).image
          UInt8.toNat) := by
    ext i
    rw [hset, Finset.mem_filter, isFilled_storeAll hkept, isFilled_set hlen, hempty,
      Finset.mem_insert]
    simp only [Finset.mem_range, length_storeAll, length_set, Finset.mem_image, mem_toFinset,
      mem_map, mem_filter, Bool.false_eq_true, or_false]
    constructor
    · rintro ⟨-, h | ⟨kept, hmem, hverified, hi⟩⟩
      · exact .inl h
      · exact .inr ⟨kept.sender, ⟨kept, ⟨hmem, hverified⟩, rfl⟩, hi⟩
    · rintro (rfl | ⟨_, ⟨kept, ⟨hmem, hverified⟩, rfl⟩, rfl⟩)
      · exact ⟨hlen, .inl rfl⟩
      · exact ⟨by simpa using hkept kept hmem, .inr ⟨kept, hmem, hverified, rfl⟩⟩
  have hnotMem : stage.sender.toNat ∉
      (((T.temp.filter (T.verified env)).map sender).toFinset).image UInt8.toNat := by
    intro hmem
    obtain ⟨number, hnumber, heq⟩ := Finset.mem_image.mp hmem
    obtain ⟨kept, hkept, rfl⟩ := mem_map.mp (mem_toFinset.mp hnumber)
    have hne := (hT.temp kept (mem_filter.mp hkept).1).2
    exact hne ((UInt8.toNat_inj.mp heq).trans hstage)
  rw [stageSize_eq_card, hslots, Finset.card_insert_of_notMem hnotMem,
    Finset.card_image_of_injective _ fun _ _ => UInt8.toNat_inj.mp, card_toFinset]
  rfl

theorem authentic_eq_filled (h : ∀ i stage, T.storage[i]? = some stage →
      stage.sender.toNat = i → stage.sender = T.ownSmartsConfNum ∨ T.verified env stage = true) :
    T.authentic env = T.filled := by
  refine countP_congr fun i _ => ?_
  rw [Bool.and_eq_true]
  refine ⟨fun hboth => hboth.1, fun hfilled => ⟨hfilled, ?_⟩⟩
  obtain ⟨stage, hstage, hi⟩ := isFilled_iff.mp hfilled
  grind

theorem Waiting.produce (h : Waiting T) (honce : Once T) (hT : Sized T)
    {pack : TransactionsPacket} (hpack : pack.hash.isSome)
    (hstage : stage.sender = T.ownSmartsConfNum) :
    Phase (T.produce env pack stage) ∧ (T.produce env pack stage).Timely env ∨
      ¬(T.produce env pack stage).Timely env ∧ ¬(T.produce env pack stage).SendsOnce env := by
  let ready : ThirdStage := { T with pack, sent := true }
  have hsized : Sized ready := ⟨hT.storage, hT.own, hT.temp⟩
  have hlen : stage.sender.toNat < ready.storage.length := by
    rw [hstage]
    exact hT.own.trans_eq hT.storage.symm
  let stored : ThirdStage :=
    { ready with
      storage := storeAll (ready.verified env) ready.temp
        (ready.storage.set stage.sender.toNat stage) }
  have hproduce : T.produce env pack stage = stored.check := by
    have hplace : ready.place env stage = stored := if_neg (not_not.mpr hstage)
    show ready.accept env stage = _
    rw [accept_eq hsized (hsized.storage ▸ hlen), if_neg (Bool.eq_false_iff.mp (h.empty _)), hplace]
  have hround : SameRound stored stored.check := sameRound_check stored
  have hfilled : stored.filled = stored.early env + 1 := filled_produced hsized h.empty hstage
  have hkept : ∀ kept ∈ ready.temp, kept.sender.toNat <
      (ready.storage.set stage.sender.toNat stage).length := fun kept hkept => by
    rw [length_set, hsized.storage]
    exact (hsized.temp kept hkept).1
  rw [hproduce]
  by_cases hle : stored.early env + 1 ≤ stored.majority
  · left
    have hcounting : Counting stored := by
      refine ⟨rfl, hpack, h.connected, hfilled.ge.trans' (Nat.le_add_left 1 _), .inl ?_⟩
      refine (isFilled_storeAll hkept).mpr (.inl ((isFilled_set hlen).mpr (.inl ?_)))
      rw [hstage]
    refine ⟨hcounting.check (hfilled.trans_le hle), ?_⟩
    exact Timely.congr (fun _ => hle) hround (check_temp stored)
  · right
    have hcheck : stored.check = stored := by
      refine if_neg fun hboth => hle ?_
      have heq := of_decide_eq_true (Bool.and_eq_true _ _ ▸ hboth).2
      exact hfilled.ge.trans heq.le
    rw [hcheck]
    refine ⟨fun htimely => hle (htimely rfl), fun hsends => ?_⟩
    have hauthentic : stored.authentic env = stored.filled := by
      refine authentic_eq_filled (storeAll_slots (fun _ hpass => .inr hpass) ?_)
      intro i slot hslot hi
      have hfill := (isFilled_set hlen).mp (isFilled_iff.mpr ⟨slot, hslot, hi⟩)
      have hempty := h.empty
      grind
    have hlength := hsends rfl (by rw [hauthentic, hfilled]; exact (Nat.not_le.mp hle).le)
    have hlistening := honce.listening
    have hconnected := h.connected
    grind

theorem Timely.accept (h : T.Timely env) (stage : StageThreeSmarts) :
    (T.accept env stage).Timely env := by
  intro hsent
  have hround := sameRound_accept env stage T
  have hsent' : T.sent = true := hround.sent ▸ hsent
  have htemp : (T.accept env stage).temp = T.temp := by
    have hplace : (T.place env stage).temp = T.temp := by
      unfold ThirdStage.place
      split_ifs
      · rfl
      · rfl
    rcases accept_cases env stage T with heq | heq <;> rw [heq]
    rw [check_temp, hplace]
  exact h.congr hround htemp hsent

theorem Timely.reset (T : ThirdStage) : T.reset.Timely env := fun _ => Nat.le_add_left 1 _

end ThirdStage

end CreditsNode
