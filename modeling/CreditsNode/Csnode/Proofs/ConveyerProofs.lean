import CreditsNode.Csnode.Conveyer
import CreditsNode.Csdb.Proofs.SampleData
import Mathlib.Data.List.TakeWhile

/-!
# The block of a round

What `applyCharacteristic` puts into the block is said by the mask alone. The states are announced
for fewer executions: once one has been rejected, those of the later ones are dropped, because the
flag `isStateRejected` is never taken back.
-/

namespace CreditsNode.Conveyer

open ByteCodec Effect List

variable {mask : Bytes} {packet : TransactionsPacket} {packets : List TransactionsPacket}
  {g g₁ g₂ : Gathered} {uninitialised : Sequence}

def accepted (mask : Bytes) (transactions : List Transaction) : List Transaction :=
  ((transactions.zip mask).filter fun e => e.2 ≠ 0).map Prod.fst

def transactionsOf (packets : List TransactionsPacket) : List Transaction :=
  packets.flatMap (·.transactions)

def verdicts : Bytes → List TransactionsPacket → List (TransactionsPacket × Bool)
  | _, [] => []
  | mask, packet :: packets =>
    (if packet.isSmart then [(packet, decide (mask.headD 0 ≠ 0))] else []) ++
      verdicts (mask.drop packet.transactions.length) packets

/-- The executions whose first transaction is accepted. -/
def acceptedSmart (mask : Bytes) (packets : List TransactionsPacket) : List TransactionsPacket :=
  ((verdicts mask packets).filter (·.2)).map Prod.fst

/-- The signature of the block for an execution. -/
structure SignatureOf (packet : TransactionsPacket) (signature : SmartSignature) : Prop where
  smartKey : packet.transactions.head?.map (·.source.toPublicKey) = some signature.smartKey
  signatures : signature.signatures = packet.signatures

def announce (states : List Transaction) : Option (List Transaction) :=
  if states.isEmpty then none else some states

/-- A block with the accepted transactions and the signatures of the accepted executions, and the
announcement of their states. -/
structure Applies (mask : Bytes) (packets : List TransactionsPacket) (pool : Pool)
    (announced : Option (List Transaction)) : Prop where
  transactions : pool.transactions = accepted mask (transactionsOf packets)
  smartSignatures : List.Forall₂ SignatureOf (acceptedSmart mask packets) pool.smartSignatures
  states : announced = announce ((acceptedSmart mask packets).flatMap (·.stateTransactions))

theorem accepted_append (mask : Bytes) (xs ys : List Transaction) :
    accepted mask (xs ++ ys) = accepted mask xs ++ accepted (mask.drop xs.length) ys := by
  induction xs generalizing mask with
  | nil => rfl
  | cons x xs ih =>
    cases mask with
    | nil => simp [accepted]
    | cons m mask =>
      have htail := ih mask
      unfold accepted at htail ⊢
      by_cases hm : m = 0 <;> simp [hm] at htail ⊢ <;> exact htail

theorem accepted_cons_of_ne {m : UInt8} (hm : m ≠ 0) (mask : Bytes) (t : Transaction)
    (trxs : List Transaction) : accepted (m :: mask) (t :: trxs) = t :: accepted mask trxs := by
  simp [accepted, hm]

theorem accepted_cons_of_eq (mask : Bytes) (t : Transaction) (trxs : List Transaction) :
    accepted (0 :: mask) (t :: trxs) = accepted mask trxs := by
  simp [accepted]

theorem drop_eq_cons {i : Nat} {m : UInt8} (h : mask[i]? = some m) :
    mask.drop i = m :: mask.drop (i + 1) := by
  obtain ⟨hi, rfl⟩ := List.getElem?_eq_some_iff.mp h
  exact drop_eq_getElem_cons hi

/-- What the inner loop does to the local variables. -/
structure Added (mask : Bytes) (trxs : List Transaction) (g₁ g₂ : Gathered) : Prop where
  maskIndex : g₂.maskIndex = g₁.maskIndex + trxs.length
  transactions : g₂.newPool.transactions = g₁.newPool.transactions ++
    (accepted (mask.drop g₁.maskIndex) trxs).filter Transaction.isValid
  smartSignatures : g₂.newPool.smartSignatures = g₁.newPool.smartSignatures
  readOnly : g₂.newPool.readOnly = g₁.newPool.readOnly
  stateTransactions : g₂.stateTransactions = g₁.stateTransactions
  isStateRejected : g₂.isStateRejected = g₁.isStateRejected

theorem Added.nil (mask : Bytes) (g : Gathered) : Added mask [] g g :=
  ⟨rfl, by simp [accepted], rfl, rfl, rfl, rfl⟩

variable {g₃ : Gathered}

theorem Added.cons {t : Transaction} {trxs : List Transaction}
    (h₁ : Added mask [t] g₁ g₂) (h₂ : Added mask trxs g₂ g₃) : Added mask (t :: trxs) g₁ g₃ where
  maskIndex := by
    have hmaskIndex := h₁.maskIndex
    have hmaskIndex' := h₂.maskIndex
    grind
  transactions := by
    have happend := accepted_append (mask.drop g₁.maskIndex) [t] trxs
    rw [drop_drop, length_singleton] at happend
    have hmaskIndex := h₁.maskIndex
    have htransactions := h₂.transactions
    have htransactions' := h₁.transactions
    grind
  smartSignatures := h₂.smartSignatures.trans h₁.smartSignatures
  readOnly := h₂.readOnly.trans h₁.readOnly
  stateTransactions := h₂.stateTransactions.trans h₁.stateTransactions
  isStateRejected := h₂.isStateRejected.trans h₁.isStateRejected

theorem transactions_addTransaction {p : Pool} (hro : p.readOnly = false) (t : Transaction) :
    (p.addTransaction t).transactions = p.transactions ++ [t].filter Transaction.isValid := by
  unfold Pool.addTransaction
  cases hvalid : t.isValid <;> simp [hro, hvalid]

theorem smartSignatures_addTransaction (p : Pool) (t : Transaction) :
    (p.addTransaction t).smartSignatures = p.smartSignatures := by
  unfold Pool.addTransaction
  split_ifs <;> rfl

theorem readOnly_addTransaction (p : Pool) (t : Transaction) :
    (p.addTransaction t).readOnly = p.readOnly := by
  unfold Pool.addTransaction
  split_ifs <;> rfl

theorem added_viewTransaction (hro : g.newPool.readOnly = false) (t : Transaction) :
    Added mask [t] g (viewTransaction mask g t) := by
  unfold viewTransaction
  cases hm : mask[g.maskIndex]? with
  | none =>
    have hend : mask.drop g.maskIndex = [] := drop_eq_nil_iff.mpr (List.getElem?_eq_none_iff.mp hm)
    exact ⟨rfl, by simp [hend, accepted], rfl, rfl, rfl, rfl⟩
  | some m =>
    dsimp only
    have hdrop := drop_eq_cons hm
    by_cases hzero : m = 0
    · subst hzero
      exact ⟨rfl, by rw [hdrop, accepted_cons_of_eq]; simp [accepted], rfl, rfl, rfl, rfl⟩
    · rw [if_pos hzero]
      refine ⟨rfl, ?_, smartSignatures_addTransaction _ _, readOnly_addTransaction _ _, rfl, rfl⟩
      rw [hdrop, accepted_cons_of_ne hzero]
      exact transactions_addTransaction hro t

theorem added_foldl (trxs : List Transaction) (hro : g.newPool.readOnly = false) :
    Added mask trxs g (trxs.foldl (viewTransaction mask) g) := by
  induction trxs generalizing g with
  | nil => exact Added.nil mask g
  | cons t trxs ih =>
    have hfirst : Added mask [t] g (viewTransaction mask g t) := added_viewTransaction hro t
    exact hfirst.cons (ih (hfirst.readOnly.trans hro))

/-- The signature of an execution can be taken: the packet has a transaction, and if it is accepted,
its reference is read without undefined behaviour. -/
def Readable (v : TransactionsPacket × Bool) : Prop :=
  ∃ first rest, v.1.transactions = first :: rest ∧ (v.2 = true →
    ∃ ref, SmartContractRef.fromUserField (first.userField TrxUf.newStateRefStart) = .ok ref)

theorem smartConsensusPool_cases (uninitialised : Sequence) (userField : Option UserField) :
    (∃ sequence ref, smartConsensusPool uninitialised userField = .ok sequence ∧
      SmartContractRef.fromUserField userField = .ok ref) ∨
    (∃ fault, smartConsensusPool uninitialised userField = .error fault ∧
      SmartContractRef.fromUserField userField = .error fault) := by
  unfold smartConsensusPool
  cases userField with
  | none => exact .inl ⟨uninitialised, .invalid, rfl, rfl⟩
  | some field =>
    rw [if_pos Option.isSome_some]
    cases SmartContractRef.fromUserField (some field) with
    | error fault => exact .inr ⟨fault, rfl, rfl⟩
    | ok ref => exact .inl ⟨_, ref, rfl, rfl⟩

theorem smartSignature_cases (uninitialised : Sequence) {first : Transaction}
    {rest : List Transaction} (hfirst : packet.transactions = first :: rest) :
    (∃ signature ref, smartSignature uninitialised packet first = .ok signature ∧
      SignatureOf packet signature ∧
      SmartContractRef.fromUserField (first.userField TrxUf.newStateRefStart) = .ok ref) ∨
    (∃ fault, smartSignature uninitialised packet first = .error fault ∧
      SmartContractRef.fromUserField (first.userField TrxUf.newStateRefStart) = .error fault) := by
  have hkey : packet.transactions.head?.map (·.source.toPublicKey) =
      some first.source.toPublicKey := by rw [hfirst]; rfl
  unfold smartSignature
  rcases smartConsensusPool_cases uninitialised (first.userField TrxUf.newStateRefStart) with
    ⟨sequence, ref, hpool, href⟩ | ⟨fault, hpool, href⟩
  · rw [hpool]
    exact .inl ⟨_, ref, rfl, ⟨hkey, rfl⟩, href⟩
  · rw [hpool]
    exact .inr ⟨fault, rfl, href⟩

/-- What the executions with these verdicts do to the local variables. -/
structure Signed (vs : List (TransactionsPacket × Bool)) (g₁ g₂ : Gathered) : Prop where
  smartSignatures : ∃ signatures, g₂.newPool.smartSignatures =
    g₁.newPool.smartSignatures ++ signatures ∧
      List.Forall₂ SignatureOf ((vs.filter (·.2)).map Prod.fst) signatures
  isStateRejected : g₂.isStateRejected = (g₁.isStateRejected || vs.any (!·.2))
  stateTransactions : g₂.stateTransactions = g₁.stateTransactions ++
    if g₁.isStateRejected then []
    else (vs.takeWhile (·.2)).flatMap (·.1.stateTransactions)

theorem Signed.nil (g : Gathered) : Signed [] g g where
  smartSignatures := ⟨[], (append_nil _).symm, .nil⟩
  isStateRejected := (Bool.or_false _).symm
  stateTransactions := by simp

theorem takeWhile_append_of_any {vs : List (TransactionsPacket × Bool)} (h : vs.any (!·.2) = true)
    (ws : List (TransactionsPacket × Bool)) : (vs ++ ws).takeWhile (·.2) = vs.takeWhile (·.2) := by
  induction vs with
  | nil => cases h
  | cons v vs ih =>
    cases hv : v.2 with
    | false => simp [hv]
    | true =>
      have htail : vs.any (!·.2) = true := by simpa [hv] using h
      rw [cons_append, takeWhile_cons_of_pos hv, takeWhile_cons_of_pos hv, ih htail]

theorem Signed.append {vs ws : List (TransactionsPacket × Bool)}
    (h₁ : Signed vs g₁ g₂) (h₂ : Signed ws g₂ g₃) : Signed (vs ++ ws) g₁ g₃ where
  smartSignatures := by
    obtain ⟨first, hfirst, hvs⟩ := h₁.smartSignatures
    obtain ⟨second, hsecond, hws⟩ := h₂.smartSignatures
    refine ⟨first ++ second, ?_, ?_⟩
    · rw [hsecond, hfirst, append_assoc]
    · rw [filter_append, map_append]
      exact rel_append hvs hws
  isStateRejected := by
    rw [h₂.isStateRejected, h₁.isStateRejected, any_append, Bool.or_assoc]
  stateTransactions := by
    rw [h₂.stateTransactions, h₁.stateTransactions, h₁.isStateRejected, append_assoc]
    cases g₁.isStateRejected with
    | true => rfl
    | false =>
      cases hany : vs.any (!·.2) with
      | true => simp [takeWhile_append_of_any hany]
      | false =>
        grind [takeWhile_eq_self_iff, takeWhile_append_of_pos]

theorem verdicts_cons (mask : Bytes) (packet : TransactionsPacket)
    (packets : List TransactionsPacket) :
    verdicts mask (packet :: packets) =
      verdicts mask [packet] ++ verdicts (mask.drop packet.transactions.length) packets := by
  simp [verdicts]

theorem verdicts_of_smart (hsmart : packet.isSmart = true) :
    verdicts mask [packet] = [(packet, decide (mask.headD 0 ≠ 0))] := by
  simp [verdicts, hsmart]

theorem verdicts_of_not_smart (hsmart : packet.isSmart = false) : verdicts mask [packet] = [] := by
  simp [verdicts, hsmart]

/-- The part of the block that executions leave as it is. -/
structure Frame (g₁ g₂ : Gathered) : Prop where
  maskIndex : g₂.maskIndex = g₁.maskIndex
  transactions : g₂.newPool.transactions = g₁.newPool.transactions
  readOnly : g₂.newPool.readOnly = g₁.newPool.readOnly

theorem viewSmart_cases (uninitialised : Sequence)
    (hrange : g.maskIndex + packet.transactions.length ≤ mask.length) :
    ((∀ v ∈ verdicts (mask.drop g.maskIndex) [packet], Readable v) ∧
      ∃ g', viewSmart uninitialised mask packet g = .ok g' ∧ Frame g g' ∧
        Signed (verdicts (mask.drop g.maskIndex) [packet]) g g') ∨
    (¬ (∀ v ∈ verdicts (mask.drop g.maskIndex) [packet], Readable v) ∧
      ∃ fault, viewSmart uninitialised mask packet g = .error fault) := by
  unfold viewSmart
  cases hsmart : packet.isSmart with
  | false =>
    rw [verdicts_of_not_smart hsmart, if_neg Bool.false_ne_true]
    exact .inl ⟨nofun, g, rfl, ⟨rfl, rfl, rfl⟩, Signed.nil g⟩
  | true =>
    rw [verdicts_of_smart hsmart, if_pos rfl]
    simp only [forall_mem_singleton]
    cases htrxs : packet.transactions with
    | nil =>
      refine .inr ⟨?_, .undefined, rfl⟩
      rintro ⟨first, rest, hcons, -⟩
      rw [htrxs] at hcons
      cases hcons
    | cons first rest =>
      have hin : g.maskIndex < mask.length := by
        rw [htrxs, length_cons] at hrange
        omega
      have hm : mask[g.maskIndex]? = some mask[g.maskIndex] := List.getElem?_eq_getElem hin
      have hhead : (mask.drop g.maskIndex).headD 0 = mask[g.maskIndex] := by
        rw [drop_eq_cons hm]
        rfl
      rw [hm, hhead]
      dsimp only
      by_cases hzero : mask[g.maskIndex] = 0
      · rw [if_neg (not_not_intro hzero), decide_eq_false (not_not_intro hzero)]
        refine .inl ⟨⟨first, rest, htrxs, fun h => nomatch h⟩, _, rfl, ⟨rfl, rfl, rfl⟩, ?_, ?_, ?_⟩
        · exact ⟨[], (append_nil _).symm, .nil⟩
        · simp
        · simp
      · rw [if_pos hzero, decide_eq_true hzero]
        rcases smartSignature_cases uninitialised htrxs with
          ⟨signature, ref, hsignature, hof, href⟩ | ⟨fault, hsignature, href⟩
        · rw [hsignature]
          refine .inl ⟨⟨first, rest, htrxs, fun _ => ⟨ref, href⟩⟩, ?_⟩
          cases hrejected : g.isStateRejected
          all_goals
            exact ⟨_, rfl, ⟨rfl, rfl, rfl⟩, ⟨[signature], rfl, .cons hof .nil⟩, by simp [hrejected],
              by simp [hrejected]⟩
        · rw [hsignature]
          refine .inr ⟨?_, fault, rfl⟩
          rintro ⟨first', rest', hcons, hread⟩
          grind

/-- What the packets do to the local variables. -/
structure Viewed (mask : Bytes) (packets : List TransactionsPacket) (g₁ g₂ : Gathered) : Prop where
  maskIndex : g₂.maskIndex = g₁.maskIndex + (transactionsOf packets).length
  readOnly : g₂.newPool.readOnly = g₁.newPool.readOnly
  transactions : g₂.newPool.transactions = g₁.newPool.transactions ++
    (accepted (mask.drop g₁.maskIndex) (transactionsOf packets)).filter Transaction.isValid
  signed : Signed (verdicts (mask.drop g₁.maskIndex) packets) g₁ g₂

theorem transactionsOf_cons (packet : TransactionsPacket) (packets : List TransactionsPacket) :
    transactionsOf (packet :: packets) = packet.transactions ++ transactionsOf packets :=
  flatMap_cons

theorem transactionsOf_singleton (packet : TransactionsPacket) :
    transactionsOf [packet] = packet.transactions := flatMap_singleton _ _

theorem Viewed.nil (mask : Bytes) (g : Gathered) : Viewed mask [] g g :=
  ⟨rfl, rfl, by simp [transactionsOf, accepted], Signed.nil g⟩

theorem Viewed.cons (h₁ : Viewed mask [packet] g₁ g₂)
    (h₂ : Viewed mask packets g₂ g₃) : Viewed mask (packet :: packets) g₁ g₃ := by
  have hindex : g₂.maskIndex = g₁.maskIndex + packet.transactions.length := by
    rw [h₁.maskIndex, transactionsOf_singleton]
  have hdrop : (mask.drop g₁.maskIndex).drop packet.transactions.length =
      mask.drop g₂.maskIndex := by rw [drop_drop, hindex]
  refine ⟨?_, h₂.readOnly.trans h₁.readOnly, ?_, ?_⟩
  · rw [h₂.maskIndex, hindex, transactionsOf_cons, length_append, Nat.add_assoc]
  · rw [h₂.transactions, h₁.transactions, transactionsOf_singleton, transactionsOf_cons,
      accepted_append, hdrop, filter_append, append_assoc]
  · rw [verdicts_cons, hdrop]
    exact h₁.signed.append h₂.signed

theorem viewPacket_cases (uninitialised : Sequence) (hro : g.newPool.readOnly = false)
    (hrange : g.maskIndex + packet.transactions.length ≤ mask.length) :
    ((∀ v ∈ verdicts (mask.drop g.maskIndex) [packet], Readable v) ∧
      ∃ g', viewPacket uninitialised mask packet g = .ok g' ∧ Viewed mask [packet] g g') ∨
    (¬ (∀ v ∈ verdicts (mask.drop g.maskIndex) [packet], Readable v) ∧
      ∃ fault, viewPacket uninitialised mask packet g = .error fault) := by
  unfold viewPacket
  rcases viewSmart_cases uninitialised hrange with
    ⟨hreadable, g', hview, hframe, hsigned⟩ | ⟨hreadable, fault, hview⟩
  · rw [hview]
    have hadded : Added mask packet.transactions g'
        (packet.transactions.foldl (viewTransaction mask) g') :=
      added_foldl packet.transactions (hframe.readOnly.trans hro)
    refine .inl ⟨hreadable, _, rfl, ?_, hadded.readOnly.trans hframe.readOnly, ?_, ?_⟩
    · rw [transactionsOf_singleton, hadded.maskIndex, hframe.maskIndex]
    · rw [transactionsOf_singleton, hadded.transactions, hframe.transactions, hframe.maskIndex]
    · obtain ⟨signatures, happend, hof⟩ := hsigned.smartSignatures
      exact ⟨⟨signatures, hadded.smartSignatures.trans happend, hof⟩,
        hadded.isStateRejected.trans hsigned.isStateRejected,
        hadded.stateTransactions.trans hsigned.stateTransactions⟩
  · rw [hview]
    exact .inr ⟨hreadable, fault, rfl⟩

theorem viewPackets_cases (uninitialised : Sequence)
    {find : Option Hash → Option TransactionsPacket} {hashes : List (Option Hash)}
    (hfound : hashes.map find = packets.map some) (hro : g.newPool.readOnly = false)
    (hrange : g.maskIndex + (transactionsOf packets).length ≤ mask.length) :
    ((∀ v ∈ verdicts (mask.drop g.maskIndex) packets, Readable v) ∧
      ∃ g', viewPackets uninitialised find mask hashes g = .ok (some g') ∧
        Viewed mask packets g g') ∨
    (¬ (∀ v ∈ verdicts (mask.drop g.maskIndex) packets, Readable v) ∧
      ∃ fault, viewPackets uninitialised find mask hashes g = .error fault) := by
  induction packets generalizing hashes g with
  | nil =>
    rw [map_nil, map_eq_nil_iff] at hfound
    subst hfound
    exact .inl ⟨nofun, g, rfl, Viewed.nil mask g⟩
  | cons packet packets ih =>
    obtain ⟨hash, hashes, rfl, hhash, htail⟩ := map_eq_cons_iff.mp hfound
    rw [transactionsOf_cons, length_append] at hrange
    unfold viewPackets
    rw [hhash, verdicts_cons]
    dsimp only
    have hhead : g.maskIndex + packet.transactions.length ≤ mask.length := by omega
    rcases viewPacket_cases uninitialised hro hhead with
      ⟨hreadable, g', hview, hviewed⟩ | ⟨hreadable, fault, hview⟩
    · have hindex : g'.maskIndex = g.maskIndex + packet.transactions.length := by
        rw [hviewed.maskIndex, transactionsOf_singleton]
      -- the table of the packets of the round is not looked at again
      have htable : ∀ hashTable, Viewed mask [packet] g { g' with hashTable } := fun hashTable =>
        ⟨hviewed.maskIndex, hviewed.readOnly, hviewed.transactions, hviewed.signed.smartSignatures,
          hviewed.signed.isStateRejected, hviewed.signed.stateTransactions⟩
      rw [hview, drop_drop, ← hindex]
      dsimp only [bind, Except.bind]
      rw [if_neg (by omega)]
      generalize (if (g'.hashTable.lookup hash).isSome then g'.hashTable
        else g'.hashTable.insert hash packet) = hashTable
      have hrange' : g'.maskIndex + (transactionsOf packets).length ≤ mask.length := by omega
      rcases ih (g := { g' with hashTable }) htail (hviewed.readOnly.trans hro) hrange' with
        ⟨hrest, g'', hviews, hviewed'⟩ | ⟨hrest, fault, hviews⟩
      · exact .inl ⟨forall_mem_append.mpr ⟨hreadable, hrest⟩, g'', hviews,
          (htable _).cons hviewed'⟩
      · exact .inr ⟨fun hall => hrest (forall_mem_append.mp hall).2, fault, hviews⟩
    · rw [hview]
      exact .inr ⟨fun hall => hreadable (forall_mem_append.mp hall).1, fault, rfl⟩

section Complete

variable (metaPoolInfo : PoolMetaInfo) (p : Pool)

theorem transactions_completePool :
    (completePool metaPoolInfo p).transactions = p.transactions := by
  unfold completePool Pool.setPreviousHash Pool.addRealTrusted Pool.addNumberTrusted
    Pool.addUserField
    Pool.setSequence Pool.assign
  split_ifs <;> rfl

theorem smartSignatures_completePool :
    (completePool metaPoolInfo p).smartSignatures = p.smartSignatures := by
  unfold completePool Pool.setPreviousHash Pool.addRealTrusted Pool.addNumberTrusted
    Pool.addUserField
    Pool.setSequence Pool.assign
  split_ifs <;> rfl

end Complete

def keptStates (mask : Bytes) (packets : List TransactionsPacket) : List Transaction :=
  ((verdicts mask packets).takeWhile (·.2)).flatMap (·.1.stateTransactions)

def droppedStates (mask : Bytes) (packets : List TransactionsPacket) : List Transaction :=
  (((verdicts mask packets).dropWhile (·.2)).filter (·.2)).flatMap (·.1.stateTransactions)

theorem states_eq (mask : Bytes) (packets : List TransactionsPacket) :
    (acceptedSmart mask packets).flatMap (·.stateTransactions) =
      keptStates mask packets ++ droppedStates mask packets := by
  unfold acceptedSmart keptStates droppedStates
  rw [flatMap_map, ← flatMap_append]
  nth_rewrite 1 [← takeWhile_append_dropWhile (p := (·.2)) (l := verdicts mask packets)]
  rw [filter_append, filter_eq_self.mpr fun _ hv => mem_takeWhile_imp hv]

theorem announce_injective : Function.Injective announce := by
  intro xs ys h
  unfold announce at h
  cases xs <;> cases ys <;> simp_all

def AppliedAsMasked (uninitialised : Sequence) (c : Conveyer) (metaPoolInfo : PoolMetaInfo)
    (mask : Bytes) (packets : List TransactionsPacket) : Prop :=
  ∃ applied pool, applyCharacteristic uninitialised c metaPoolInfo = .ok applied ∧
    applied.pool = some pool ∧ Applies mask packets pool applied.statesCreated

/-- The conditions under which this is so. -/
structure Regular (mask : Bytes) (packets : List TransactionsPacket) : Prop where
  /-- No execution is empty, and the reference of an accepted one can be read. -/
  readable : ∀ v ∈ verdicts mask packets, Readable v
  valid : ∀ t ∈ accepted mask (transactionsOf packets), t.isValid = true
  /-- An execution that is accepted after one has been rejected has no states. -/
  states : droppedStates mask packets = []

/-- What is returned and announced in a round whose packets are found, unless the behaviour is
undefined. -/
theorem applyCharacteristic_cases (uninitialised : Sequence) {c : Conveyer}
    {metaPoolInfo : PoolMetaInfo} {element : ConveyerMeta}
    (hmeta : c.getMeta metaPoolInfo.sequenceNumber = some element)
    (hfound : element.hashes.map (c.findPacket · metaPoolInfo.sequenceNumber) = packets.map some)
    (hmask : element.mask.length = (transactionsOf packets).length) :
    ((∀ v ∈ verdicts element.mask packets, Readable v) ∧
      ∃ applied pool, applyCharacteristic uninitialised c metaPoolInfo = .ok applied ∧
        applied.pool = some pool ∧
        pool.transactions =
          (accepted element.mask (transactionsOf packets)).filter Transaction.isValid ∧
        List.Forall₂ SignatureOf (acceptedSmart element.mask packets) pool.smartSignatures ∧
        applied.statesCreated = announce (keptStates element.mask packets)) ∨
    (¬ (∀ v ∈ verdicts element.mask packets, Readable v) ∧
      ∃ fault, applyCharacteristic uninitialised c metaPoolInfo = .error fault) := by
  have hrange : ({} : Gathered).maskIndex + (transactionsOf packets).length ≤
      element.mask.length := by
    rw [hmask]
    exact Nat.le_of_eq (Nat.zero_add _)
  unfold applyCharacteristic
  dsimp only
  rw [hmeta]
  rcases viewPackets_cases uninitialised hfound rfl hrange with
    ⟨hreadable, g, hviews, hviewed⟩ | ⟨hreadable, fault, hviews⟩
  · dsimp only
    rw [hviews]
    refine .inl ⟨hreadable, _, _, rfl, rfl, ?_, ?_, ?_⟩
    · exact (transactions_completePool _ _).trans hviewed.transactions
    · obtain ⟨signatures, happend, hof⟩ := hviewed.signed.smartSignatures
      rw [smartSignatures_completePool, happend]
      exact hof
    · have hstates := hviewed.signed.stateTransactions
      rw [hstates]
      rfl
  · dsimp only
    rw [hviews]
    exact .inr ⟨hreadable, fault, rfl⟩

/-- A round is applied as its mask says exactly if it is regular. -/
theorem appliedAsMasked_iff (uninitialised : Sequence) (c : Conveyer) (metaPoolInfo : PoolMetaInfo)
    (element : ConveyerMeta) (packets : List TransactionsPacket)
    (hmeta : c.getMeta metaPoolInfo.sequenceNumber = some element)
    (hfound : element.hashes.map (c.findPacket · metaPoolInfo.sequenceNumber) = packets.map some)
    (hmask : element.mask.length = (transactionsOf packets).length) :
    AppliedAsMasked uninitialised c metaPoolInfo element.mask packets ↔
      Regular element.mask packets := by
  rcases applyCharacteristic_cases uninitialised hmeta hfound hmask with
    ⟨hreadable, applied, pool, hok, hpool, htrxs, hsignatures, hstates⟩ | ⟨hreadable, fault, herror⟩
  · constructor
    · rintro ⟨applied', pool', hok', hpool', happlies⟩
      obtain rfl : applied = applied' := Except.ok.inj (hok.symm.trans hok')
      obtain rfl : pool = pool' := Option.some.inj (hpool.symm.trans hpool')
      refine ⟨hreadable, ?_, ?_⟩
      · exact filter_eq_self.mp (htrxs.symm.trans happlies.transactions)
      · have hstates' := happlies.states
        grind [announce_injective, states_eq, append_right_eq_self]
    · intro hregular
      refine ⟨applied, pool, hok, hpool, ?_, hsignatures, ?_⟩
      · rw [htrxs, filter_eq_self.mpr hregular.valid]
      · rw [hstates, states_eq, hregular.states, append_nil]
  · constructor
    · rintro ⟨applied, pool, hok, -⟩
      rw [herror] at hok
      cases hok
    · exact fun hregular => absurd hregular.readable hreadable

def demoExecution (innerID : Int64) : TransactionsPacket where
  transactions := [{ Transaction.new with innerID }]
  stateTransactions := [{ Transaction.new with innerID := innerID + 100 }]
  signatures := [(0, zeroArray 64), (1, zeroArray 64)]
  hash := none

def demoConveyer (mask : Bytes) : Conveyer where
  packetsTable := ((∅ : TransactionsPacketTable).insert (some (zeroArray 32))
    (demoExecution 1)).insert
    (some (sampleHash 1)) (demoExecution 2)
  metaStorage := [(1, {
    mask
    hashTable := ∅
    hashes := [some (zeroArray 32), some (sampleHash 1)]
    invalidTransactions := .new })]

def demoInfo : PoolMetaInfo where
  timestamp := []
  previousHash := none
  sequenceNumber := 1
  realTrustedMask := [0, 0, 0]

theorem appliedAsMasked_demo :
    AppliedAsMasked 0 (demoConveyer [1, 1]) demoInfo [1, 1] [demoExecution 1, demoExecution 2] := by
  have hfound : [some (zeroArray 32), some (sampleHash 1)].map
      ((demoConveyer [1, 1]).findPacket · 1) = [demoExecution 1, demoExecution 2].map some := rfl
  refine (appliedAsMasked_iff 0 (demoConveyer [1, 1]) demoInfo _ _ rfl hfound rfl).mpr ⟨?_, ?_, rfl⟩
  · rintro v (_ | ⟨_, _ | ⟨_, hv⟩⟩)
    · exact ⟨_, _, rfl, fun _ => ⟨.invalid, rfl⟩⟩
    · exact ⟨_, _, rfl, fun _ => ⟨.invalid, rfl⟩⟩
    · cases hv
  · decide +kernel

/-- The states of the accepted execution are not announced if the one before it is rejected. -/
theorem states_lost_after_rejection :
    acceptedSmart [0, 1] [demoExecution 1, demoExecution 2] = [demoExecution 2] ∧
      (applyCharacteristic 0 (demoConveyer [0, 1]) demoInfo).map (·.statesCreated) = .ok none ∧
      ¬ AppliedAsMasked 0 (demoConveyer [0, 1]) demoInfo [0, 1]
        [demoExecution 1, demoExecution 2] := by
  have hnone : (applyCharacteristic 0 (demoConveyer [0, 1]) demoInfo).map (·.statesCreated) =
      .ok none := rfl
  refine ⟨rfl, hnone, ?_⟩
  rintro ⟨applied, pool, hok, -, happlies⟩
  have hstates := happlies.states
  rw [hok] at hnone
  rw [show applied.statesCreated = none from Except.ok.inj hnone] at hstates
  cases hstates

end CreditsNode.Conveyer
