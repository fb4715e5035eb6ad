import CreditsNode.Csnode.Proofs.DataStreamProofs
import CreditsNode.Solver.ContractState

/-!
# Which states of contracts are stored

A state from the network is compared with the first transaction that records a state for its
reference, if there is one in the hundred blocks from the reference on and the contract is known.
Otherwise it is stored as it is, and the transaction may be one of another contract.
-/

namespace CreditsNode.ContractStates

open ByteCodec Effect DataStream List

variable {env : ContractEnv} {s t : ContractStates} {addr : Address} {ref : SmartContractRef}
  {state : Bytes} {data : Buffer}

/-- The transaction is a new state of the contract for the reference. -/
structure NewStateOf (env : ContractEnv) (addr : Address) (ref : SmartContractRef)
    (tr : Transaction) : Prop where
  newState : SmartContracts.isNewState tr = true
  refStart : SmartContractRef.fromUserField (tr.userField TrxUf.newStateRefStart) = .ok ref
  target : env.absoluteAddress tr.target = env.absoluteAddress addr

def Records (crypto : Crypto) (tr : Transaction) (state : Bytes) : Prop :=
  tr.userField TrxUf.newStateValue = some (.string state) ∨ recordsHash crypto tr state = true

def Authentic (env : ContractEnv) (addr : Address) (ref : SmartContractRef) (state : Bytes) :
    Prop :=
  ∃ sequence, (env.loadBlock sequence).isValid = true ∧
    ∃ tr ∈ (env.loadBlock sequence).transactions, NewStateOf env addr ref tr ∧
      Records env.crypto tr state

theorem of_refersTo {tr : Transaction} (h : refersTo ref tr = .ok true) :
    SmartContracts.isNewState tr = true ∧
      SmartContractRef.fromUserField (tr.userField TrxUf.newStateRefStart) = .ok ref := by
  unfold refersTo at h
  split_ifs at h with hnew
  · cases hfield : SmartContractRef.fromUserField (tr.userField TrxUf.newStateRefStart) with
    | error fault =>
      rw [hfield] at h
      cases h
    | ok start =>
      simp_all
  · cases h

theorem yields_findNewState (transactions : List Transaction) :
    Yields (findNewState ref transactions) (fun _ => True)
      (fun found => ∀ tr ∈ found, tr ∈ transactions ∧ refersTo ref tr = .ok true) := by
  induction transactions with
  | nil => exact fun _ h => absurd h (by simp)
  | cons tr rest ih =>
    unfold findNewState
    cases hrefers : refersTo ref tr with
    | error fault => trivial
    | ok refers =>
      cases refers with
      | true =>
        rintro _ ⟨⟩
        exact ⟨mem_cons_self, hrefers⟩
      | false => exact ih.mono fun found h tr' hmem =>
          ⟨mem_cons_of_mem tr (h tr' hmem).1, (h tr' hmem).2⟩

theorem yields_searchBlocks (sequences : List Sequence) :
    Yields (searchBlocks env ref sequences) (fun _ => True)
      (fun found => ∀ tr ∈ found, ∃ sequence, (env.loadBlock sequence).isValid = true ∧
        tr ∈ (env.loadBlock sequence).transactions ∧ refersTo ref tr = .ok true) := by
  induction sequences with
  | nil => exact fun _ h => absurd h (by simp)
  | cons sequence rest ih =>
    unfold searchBlocks
    dsimp only
    split_ifs with hvalid
    · refine (yields_findNewState _).bind fun found hfound => ?_
      cases found with
      | some tr => exact fun tr' hmem => ⟨sequence, hvalid, hfound tr' hmem⟩
      | none => exact ih
    · exact ih

theorem parseRef_of_prefix {buffer : Buffer} {rest : Bytes}
    (h : buffer.data = putU64 ref.sequence ++ (putU64 ref.transaction ++ rest)) :
    ∃ stream, parseRef buffer {} = .ok ref stream := by
  have hlength : ∀ x : UInt64, (putU64 x).length = 8 := fun x => length_leBytes 8 x.toNat
  have hvalue : ∀ (x : UInt64) (rest : Bytes),
      UInt64.ofNat (leNat ((putU64 x ++ rest).take 8)) = x := by
    intro x rest
    show UInt64.ofNat (leNat (leBytes 8 x.toNat)) = x
    have hlt : x.toNat < 256 ^ 8 := x.toNat_lt
    rw [leNat_leBytes, Nat.mod_eq_of_lt hlt]
    exact UInt64.ofNat_toNat
  have hsize : buffer.data.length = 16 + rest.length := by
    rw [h, length_append, length_append, hlength, hlength]
    omega
  have hstart : InBounds buffer {} := Nat.zero_le _
  have hfirst : ¬ remaining buffer {} < 8 := by
    show ¬ buffer.data.length - 0 < 8
    omega
  obtain ⟨hsecond, hremaining, -⟩ := behind_size hstart hfirst
  have hagain : ¬ remaining buffer (moved {} 8) < 8 := by
    show ¬ buffer.data.length - 0 - 8 < 8
    omega
  have hsequence := parseSize_eq hstart
  have htransaction := parseSize_eq hsecond
  rw [if_pos (Nat.not_lt.mp hfirst)] at hsequence
  rw [if_pos (Nat.not_lt.mp hagain)] at htransaction
  have href : declared buffer {} = ref.sequence := by
    show UInt64.ofNat (leNat ((buffer.data.drop 0).take 8)) = _
    rw [drop_zero, h]
    exact hvalue _ _
  have hindex : declared buffer (moved {} 8) = ref.transaction := by
    show UInt64.ofNat (leNat ((buffer.data.drop 8).take 8)) = _
    rw [h, drop_left' (hlength _)]
    exact hvalue _ _
  rw [href] at hsequence
  rw [hindex] at htransaction
  exact ⟨_, (bind_eq_of_ok hsequence).trans (bind_eq_of_ok htransaction)⟩

theorem parseRef_encode (ref : SmartContractRef) (state : Bytes) :
    ∃ stream, parseRef (bufferOf (encode ref state)) {} = .ok ref stream := by
  have hprefix : (bufferOf (encode ref state)).data = putU64 ref.sequence ++
      (putU64 ref.transaction ++
        (putU64 (.ofNat state.length) ++ state).take (ptrdiffMax - 16)) := by
    have hlength : (putU64 ref.sequence ++ putU64 ref.transaction).length = 16 := by
      rw [length_append]
      exact congrArg₂ (· + ·) (length_leBytes 8 _) (length_leBytes 8 _)
    show (encode ref state).take ptrdiffMax = _
    unfold encode
    rw [append_assoc _ _ state, take_append, hlength,
      take_of_length_le (by rw [hlength]; decide), append_assoc]
  exact parseRef_of_prefix hprefix

theorem newerThanCached_of_encode {current : SmartContractRef}
    (h : s.contractData.lookup addr.toPublicKey = some (encode current state)) :
    s.newerThanCached addr ref =
      if ref.sequence < current.sequence then false
      else !(current.sequence = ref.sequence && ref.transaction ≤ current.transaction) := by
  obtain ⟨stream, hparse⟩ := parseRef_encode current state
  unfold newerThanCached
  rw [h]
  dsimp only
  rw [hparse]

theorem not_newerThanCached
    (h : s.contractData.lookup addr.toPublicKey = some (encode ref state)) :
    s.newerThanCached addr ref = false := by
  rw [newerThanCached_of_encode h]
  simp

theorem item_setItem (addr addr' : Address) (item : StateItem) :
    (s.setItem addr item).item addr' = if addr' = addr then item else s.item addr' := by
  grind [ContractStates.item, setItem, AList.lookup_insert, AList.lookup_insert_ne]

theorem item_setItem_self (addr addr' : Address) :
    (s.setItem addr (s.item addr)).item addr' = s.item addr' := by
  rw [item_setItem]
  split_ifs with h
  · rw [h]
  · rfl

/-- The database or an item of the table has changed. -/
def Stores (s t : ContractStates) : Prop :=
  t.contractData ≠ s.contractData ∨ ∃ addr, t.item addr ≠ s.item addr

theorem not_stores_of_eq (hdata : t.contractData = s.contractData)
    (hitem : ∀ addr, t.item addr = s.item addr) : ¬ Stores s t := by
  rintro (h | ⟨addr, h⟩)
  · exact h hdata
  · exact h (hitem addr)

def Storable (env : ContractEnv) (s : ContractStates) (addr : Address) (ref : SmartContractRef) :
    Prop :=
  s.newerThanCached addr ref = true ∧ env.writable = true

theorem storeState_of_storable (h : Storable env s addr ref) :
    (s.storeState env addr ref state).2.contractData.lookup addr.toPublicKey =
      some (encode ref state) := by
  unfold storeState dbcacheUpdate
  simp only [h.1, h.2, Bool.not_true, Bool.false_eq_true, if_false]
  split_ifs <;> exact AList.lookup_insert _

theorem storeState_of_not_storable (h : ¬ Storable env s addr ref) :
    (s.storeState env addr ref state).2 = s := by
  unfold storeState dbcacheUpdate
  by_cases hnewer : s.newerThanCached addr ref = true
  · have hwrite : env.writable = false := by
      rw [← Bool.not_eq_true]
      exact fun hwrite => h ⟨hnewer, hwrite⟩
    simp only [hnewer, hwrite, Bool.not_true, Bool.not_false, Bool.false_eq_true, if_false, if_true]
  · simp only [hnewer, Bool.not_false, if_true]

def Compared (env : ContractEnv) (s : ContractStates) (addr : Address) (ref : SmartContractRef)
    (state : Bytes) : Prop :=
  s.inKnownContracts env addr = true → (s.item addr).refExecute.gt ref = false ∧
    ∃ found, searchBlocks env ref (window ref) = .ok found ∧
      ∀ tr ∈ found, recordsHash env.crypto tr state = true

def prepared (env : ContractEnv) (s : ContractStates) (addr : Address) : ContractStates :=
  if s.inKnownContracts env addr then s.setItem addr (s.item addr) else s

theorem prepared_contractData : (s.prepared env addr).contractData = s.contractData := by
  unfold prepared
  split_ifs <;> rfl

theorem prepared_item (addr' : Address) : (s.prepared env addr).item addr' = s.item addr' := by
  unfold prepared
  split_ifs
  · exact item_setItem_self addr addr'
  · rfl

theorem storable_prepared : Storable env (s.prepared env addr) addr ref ↔
    Storable env s addr ref := by
  unfold Storable newerThanCached
  rw [prepared_contractData]

theorem netUpdate_of_compared (hreceived : received data = .ok (some (ref, state)))
    (h : Compared env s addr ref state) :
    netUpdateContractState env s addr data =
      .ok ((s.prepared env addr).storeState env addr ref state) := by
  unfold netUpdateContractState prepared
  rw [hreceived]
  show (if s.inKnownContracts env addr then _ else _) = _
  by_cases hknown : s.inKnownContracts env addr = true
  · obtain ⟨hcurrent, found, hfound, hhash⟩ := h hknown
    have hitem : ¬ ((s.setItem addr (s.item addr)).item addr).refExecute.gt ref = true := by
      rw [item_setItem_self, hcurrent]
      exact Bool.false_ne_true
    rw [if_pos hknown, if_pos hknown, if_neg hitem, hfound]
    cases found with
    | none => rfl
    | some tr =>
      show (if !recordsHash env.crypto tr state then _ else _) = _
      rw [hhash tr rfl]
      rfl
  · rw [if_neg hknown, if_neg hknown]
    rfl

theorem netUpdate_of_not_compared (hreceived : received data = .ok (some (ref, state)))
    (h : ¬ Compared env s addr ref state) :
    Yields (netUpdateContractState env s addr data) (fun _ => True)
      (fun result => ¬ Stores s result.2) := by
  obtain ⟨hknown, hfails⟩ := Classical.not_imp.mp h
  have hunchanged : ¬ Stores s (s.setItem addr (s.item addr)) :=
    not_stores_of_eq rfl (item_setItem_self addr)
  unfold netUpdateContractState
  rw [hreceived]
  show Yields (if s.inKnownContracts env addr then _ else _) _ _
  rw [if_pos hknown]
  show Yields (if ((s.setItem addr (s.item addr)).item addr).refExecute.gt ref then _ else _) _ _
  rw [item_setItem_self]
  cases hcurrent : (s.item addr).refExecute.gt ref with
  | true => exact hunchanged
  | false =>
    cases hfound : searchBlocks env ref (window ref) with
    | error fault => trivial
    | ok found =>
      cases found with
      | none => exact absurd ⟨hcurrent, none, hfound, fun _ hmem => absurd hmem (by simp)⟩ hfails
      | some tr =>
        cases hhash : recordsHash env.crypto tr state with
        | true =>
          grind
        | false =>
          show Yields (if !recordsHash env.crypto tr state then _ else _) _ _
          rw [hhash]
          exact hunchanged

theorem stores_of_netUpdate {outcome : NetUpdate}
    (h : netUpdateContractState env s addr data = .ok (outcome, t)) (hstores : Stores s t) :
    ∃ ref state, received data = .ok (some (ref, state)) ∧ Compared env s addr ref state ∧
      Storable env s addr ref ∧
        t.contractData.lookup addr.toPublicKey = some (encode ref state) := by
  cases hreceived : received data with
  | error fault =>
    unfold netUpdateContractState at h
    rw [hreceived] at h
    cases h
  | ok message =>
    rcases message with - | ⟨ref, state⟩
    · unfold netUpdateContractState at h
      rw [hreceived] at h
      cases h
      exact absurd hstores (not_stores_of_eq rfl fun _ => rfl)
    by_cases hcompared : Compared env s addr ref state
    · have hstate := netUpdate_of_compared hreceived hcompared
      rw [h] at hstate
      have ht : t = ((s.prepared env addr).storeState env addr ref state).2 :=
        congrArg Prod.snd (Except.ok.inj hstate)
      by_cases hstorable : Storable env s addr ref
      · refine ⟨ref, state, rfl, hcompared, hstorable, ?_⟩
        rw [ht]
        exact storeState_of_storable (storable_prepared.mpr hstorable)
      · rw [storeState_of_not_storable (mt storable_prepared.mp hstorable)] at ht
        grind [not_stores_of_eq, prepared_contractData, prepared_item]
    · exact absurd hstores ((netUpdate_of_not_compared hreceived hcompared).of_ok h)

theorem netUpdate_stores (hreceived : received data = .ok (some (ref, state)))
    (hcompared : Compared env s addr ref state) (hstorable : Storable env s addr ref) :
    ∃ outcome t, netUpdateContractState env s addr data = .ok (outcome, t) ∧ Stores s t := by
  refine ⟨_, _, netUpdate_of_compared hreceived hcompared, .inl fun hsame => ?_⟩
  have hlookup : s.contractData.lookup addr.toPublicKey = some (encode ref state) := by
    rw [← hsame]
    exact storeState_of_storable (storable_prepared.mpr hstorable)
  exact Bool.false_ne_true ((not_newerThanCached hlookup).symm.trans hstorable.1)

def Uncompared (env : ContractEnv) (s : ContractStates) (addr : Address) (ref : SmartContractRef) :
    Prop :=
  s.inKnownContracts env addr = true → ∀ tr, searchBlocks env ref (window ref) = .ok (some tr) →
    env.absoluteAddress tr.target ≠ env.absoluteAddress addr

/-- The data are taken, without being compared with a new state of the contract. -/
def Unverified (env : ContractEnv) (s : ContractStates) (addr : Address) (data : Buffer) : Prop :=
  ∃ ref state, received data = .ok (some (ref, state)) ∧ Compared env s addr ref state ∧
    Storable env s addr ref ∧ Uncompared env s addr ref

theorem authentic_of_compared (h : Compared env s addr ref state)
    (hnot : ¬ Uncompared env s addr ref) :
    Authentic env addr ref state := by
  obtain ⟨hknown, hsearch⟩ := Classical.not_imp.mp hnot
  obtain ⟨tr, htr⟩ := not_forall.mp hsearch
  obtain ⟨hfound, htarget⟩ := Classical.not_imp.mp htr
  obtain ⟨-, found, hfound', hhash⟩ := h hknown
  rw [hfound] at hfound'
  cases hfound'
  obtain ⟨sequence, hvalid, hmem, hrefers⟩ := (yields_searchBlocks (window ref)).of_ok hfound tr rfl
  obtain ⟨hnew, hstart⟩ := of_refersTo hrefers
  exact ⟨sequence, hvalid, tr, hmem, ⟨hnew, hstart, not_not.mp htarget⟩, .inr (hhash tr rfl)⟩

/-- A stored state is one the chain records for the contract, unless the data are unverified.
Unverified data are always stored. -/
theorem stored_authentic (env : ContractEnv) (s : ContractStates) (addr : Address) (data : Buffer) :
    (¬ Unverified env s addr data →
      ∀ outcome t, netUpdateContractState env s addr data = .ok (outcome, t) → Stores s t →
        ∃ ref state, received data = .ok (some (ref, state)) ∧
          t.contractData.lookup addr.toPublicKey = some (encode ref state) ∧
            Authentic env addr ref state) ∧
    (Unverified env s addr data →
      ∃ outcome t, netUpdateContractState env s addr data = .ok (outcome, t) ∧ Stores s t) := by
  constructor
  · intro hverified outcome t hupdate hstores
    obtain ⟨ref, state, hreceived, hcompared, hstorable, hlookup⟩ :=
      stores_of_netUpdate hupdate hstores
    refine ⟨ref, state, hreceived, hlookup, authentic_of_compared hcompared fun hcontract => ?_⟩
    exact hverified ⟨ref, state, hreceived, hcompared, hstorable, hcontract⟩
  · rintro ⟨ref, state, hreceived, hcompared, hstorable, -⟩
    exact netUpdate_stores hreceived hcompared hstorable

/-- A chain with blocks that do not have a transaction. -/
def emptyEnv : ContractEnv where
  crypto := .zero
  loadBlock := fun _ => { Pool.new with isValid := true }
  absoluteAddress := id
  writable := true

/-- The state `[7]` for the first transaction of block 5. -/
def sampleAnswer : Buffer := bufferOf (encode ⟨5, 0⟩ [7])

def noContracts : ContractStates := ⟨∅, ∅⟩

/-- A node stores a state for a contract it does not know, and for one it knows, while the chain has
no new state at all. -/
theorem unrecorded_state_is_stored :
    (netUpdateContractState emptyEnv noContracts .new sampleAnswer).toOption.map
        (fun result => result.2.contractData.lookup Address.new.toPublicKey) =
      some (some (encode ⟨5, 0⟩ [7])) ∧
    (netUpdateContractState emptyEnv (noContracts.setItem .new {}) .new sampleAnswer).toOption.map
        (fun result => (result.2.item .new).state) = some [7] ∧
    ¬ Authentic emptyEnv .new ⟨5, 0⟩ [7] := by
  refine ⟨by decide +kernel, by decide +kernel, ?_⟩
  rintro ⟨sequence, -, tr, hmem, -⟩
  exact absurd hmem (not_mem_nil)

end CreditsNode.ContractStates
