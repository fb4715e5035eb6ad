import CreditsNode.Solver.Proofs.ContractStateProofs
import Mathlib.Data.List.MinMax
import Mathlib.Data.Prod.Lex

/-!
# Convergence of contract states

The new states of a contract may reach a node in any order and several times. The one that is kept
is the one whose execution was started last in the order of the chain: `update_contract_state`
computes the maximum of the references it has seen.
-/

namespace CreditsNode

open ByteCodec Effect SmartContractRef

namespace SmartContractRef

variable {l r : SmartContractRef}

def place (ref : SmartContractRef) : ℕ ×ₗ ℕ := toLex (ref.sequence.toNat, ref.transaction.toNat)

theorem place_injective : Function.Injective place := by
  intro l r h
  obtain ⟨hsequence, htransaction⟩ := Prod.mk.inj (toLex_inj.mp h)
  exact congrArg₂ mk (UInt64.toNat_inj.mp hsequence)
    (UInt64.toNat_inj.mp htransaction)

theorem place_lt_iff : l.place < r.place ↔
    l.sequence < r.sequence ∨ (l.sequence = r.sequence ∧ l.transaction < r.transaction) := by
  unfold place
  rw [Prod.Lex.toLex_lt_toLex, UInt64.toNat_inj]
  rfl

theorem lt_iff (hl : l.isValid = true) (hr : r.isValid = true) :
    l.lt r = true ↔ l.place < r.place := by
  rw [place_lt_iff]
  simp [lt, hl, hr]

end SmartContractRef

namespace ContractStates

variable {env : UpdateEnv} {s s' : ContractStates} {addr : Address} {t u : Transaction}

def startRef (t : Transaction) : SmartContractRef :=
  (SmartContractRef.fromUserField (t.userField TrxUf.newStateRefStart)).toOption.getD .invalid

def valueOf (t : Transaction) : Bytes := UserField.stringValue (t.userField TrxUf.newStateValue)

/-- The transaction can be a start: it is valid, and its invocation can be deserialised. -/
structure Startable (env : UpdateEnv) (start : Transaction) : Prop where
  isValid : start.isValid = true
  decodes : ∃ deploy, isDeploy env start = .ok deploy

/-- A new state of the contract with a value, whose start is found. -/
structure NewState (env : UpdateEnv) (addr : Address) (t : Transaction) : Prop where
  isNewState : SmartContracts.isNewState t = true
  target : env.absoluteAddress t.target = addr
  value : valueOf t ≠ []
  valid : (startRef t).isValid = true
  queued : ∀ start ∈ env.queued (startRef t), Startable env start
  loaded : Startable env (SmartContracts.getTransaction env.loadBlock (startRef t))

theorem fromUserField_of_valid (h : (startRef t).isValid = true) :
    fromUserField (t.userField TrxUf.newStateRefStart) = .ok (startRef t) := by
  unfold startRef at h ⊢
  cases href : fromUserField (t.userField TrxUf.newStateRefStart) with
  | ok ref => rfl
  | error fault =>
    rw [href] at h
    cases h

theorem NewState.isValid (h : NewState env addr t) : t.isValid = true := by
  have hisNewState := h.isNewState
  grind [SmartContracts.isNewState]

theorem NewState.getActualState (h : NewState env addr t) (s : ContractStates) (readingDb : Bool) :
    s.getActualState env t readingDb = t := by
  have hsome : (t.userField TrxUf.newStateValue).isSome = true := by
    cases hfield : t.userField TrxUf.newStateValue with
    | none =>
      have hvalue := h.value
      unfold valueOf at hvalue
      rw [hfield] at hvalue
      exact absurd rfl hvalue
    | some field => rfl
  unfold ContractStates.getActualState
  rw [h.isNewState, hsome]
  rfl

/-- The starts that are kept with the contract can be deserialised. -/
def StartsDecode (env : UpdateEnv) (item : StateItem) : Prop :=
  ∀ start ∈ [item.execute, item.deploy], start.isValid = true → Startable env start

theorem NewState.start (h : NewState env addr t) (hstarts : StartsDecode env (s.item addr)) :
    Startable env (s.getTransaction env (startRef t) addr) := by
  unfold ContractStates.getTransaction
  cases hqueued : env.queued (startRef t) with
  | some start => exact h.queued start hqueued
  | none =>
    dsimp only
    cases hlookup : s.knownContracts.lookup addr with
    | none => exact h.loaded
    | some item =>
      have hitem : s.item addr = item := by
        unfold ContractStates.item
        rw [hlookup]
        rfl
      rw [hitem] at hstarts
      have hloaded := h.loaded
      grind [StartsDecode]

/-- Neither the table nor the database has a state of the contract. -/
structure Unset (env : UpdateEnv) (addr : Address) (s : ContractStates) : Prop where
  data : s.contractData.lookup addr.toPublicKey = none
  refExecute : (s.item addr).refExecute.isValid = false
  refCache : (s.item addr).refCache.isValid = false
  starts : StartsDecode env (s.item addr)

/-- The table and the database have the given state of the contract. -/
structure Keeps (env : UpdateEnv) (addr : Address) (t : Transaction) (s : ContractStates) :
    Prop where
  data : s.contractData.lookup addr.toPublicKey = some (encode (startRef t) (valueOf t))
  refExecute : (s.item addr).refExecute = startRef t
  refCache : (s.item addr).refCache = startRef t
  state : (s.item addr).state = valueOf t
  starts : StartsDecode env (s.item addr)

def Kept (env : UpdateEnv) (addr : Address) : Option Transaction → ContractStates → Prop
  | none => Unset env addr
  | some t => Keeps env addr t

theorem newerThanCached_iff (h : Keeps env addr u s) :
    s.newerThanCached addr (startRef t) = true ↔ (startRef u).place < (startRef t).place := by
  rw [newerThanCached_of_encode h.data, place_lt_iff]
  grind

section

variable (refStart : SmartContractRef) (value : Bytes) (start : Transaction) (deploy : Bool)
include refStart value start deploy

theorem refExecute_updatedItem
    (item : StateItem) : (updatedItem t refStart value start deploy item).refExecute = refStart :=
  rfl

theorem refCache_updatedItem (item : StateItem) :
    (updatedItem t refStart value start deploy item).refCache = item.refCache := by
  unfold updatedItem
  split_ifs <;> rfl

theorem state_updatedItem
    (item : StateItem) : (updatedItem t refStart value start deploy item).state = value := by
  unfold updatedItem
  split_ifs <;> rfl

theorem startsDecode_updatedItem {item : StateItem} (hstart : Startable env start)
    (hitem : StartsDecode env item) :
    StartsDecode env (updatedItem t refStart value start deploy item) := by
  unfold StartsDecode updatedItem at *
  grind

end

theorem keeps_takeState (h : NewState env addr t) (hwritable : env.writable = true)
    (hstarts : StartsDecode env (s.item addr))
    (hcache : (s.item addr).refCache.isValid = false ∨
      (s.item addr).refCache.lt (startRef t) = true)
    (hnewer : s.newerThanCached addr (startRef t) = true) :
    ∃ update, s.takeState env t (startRef t) addr false = .ok update ∧
      Keeps env addr t update.states := by
  have hitem : (s.setItem addr (s.item addr)).item addr = s.item addr := item_setItem_self addr addr
  have hguard : (!(s.item addr).refCache.isValid || (s.item addr).refCache.lt (startRef t) ||
      decide ((s.item addr).refCache = startRef t)) = true := by
    rcases hcache with hinvalid | hlt
    · rw [hinvalid]
      rfl
    · rw [hlt, Bool.or_true]
      rfl
  have hnewer' : (s.setItem addr (s.item addr)).newerThanCached addr (startRef t) = true := hnewer
  have hupdate : (s.setItem addr (s.item addr)).dbcacheUpdate env.toContractEnv addr (startRef t)
      (valueOf t) = (true, { s.setItem addr (s.item addr) with
        contractData := s.contractData.insert addr.toPublicKey
          (encode (startRef t) (valueOf t)) }) := by
    unfold dbcacheUpdate
    rw [hnewer', hwritable]
    rfl
  have hvalue : UserField.stringValue (t.userField TrxUf.newStateValue) = valueOf t := rfl
  have hstart := h.start hstarts
  obtain ⟨deploy, hdeploy⟩ := hstart.decodes
  unfold takeState
  dsimp only
  rw [h.getActualState, h.isValid, hstart.isValid, hvalue, if_neg h.value, hdeploy]
  dsimp only [Bool.not_true, Bool.false_eq_true, if_false, ok_bind]
  unfold cacheState
  rw [hitem, if_pos hguard, hupdate]
  refine ⟨_, rfl, AList.lookup_insert _, ?_, ?_, ?_, ?_⟩
  · rw [item_setItem, if_pos rfl, refExecute_updatedItem]
  · rw [item_setItem, if_pos rfl, refCache_updatedItem, item_setItem, if_pos rfl]
  · rw [item_setItem, if_pos rfl, state_updatedItem]
  · rw [item_setItem, if_pos rfl]
    refine startsDecode_updatedItem _ _ _ _ hstart ?_
    rw [item_setItem, if_pos rfl]
    exact hstarts

/-- What is kept after one more new state: the newer one, and the first of two with one
reference. -/
def newest (kept : Option Transaction) (t : Transaction) : Transaction :=
  match kept with
  | none => t
  | some u => if (startRef u).place < (startRef t).place then t else u

theorem keeps_setItem (h : Keeps env addr u s) :
    Keeps env addr u (s.setItem addr (s.item addr)) := by
  refine ⟨h.data, ?_, ?_, ?_, ?_⟩
  · rw [item_setItem_self]
    exact h.refExecute
  · rw [item_setItem_self]
    exact h.refCache
  · rw [item_setItem_self]
    exact h.state
  · rw [item_setItem_self]
    exact h.starts

theorem updateContractState_eq (h : NewState env addr t) (readingDb : Bool) :
    s.updateContractState env t readingDb =
      if s.inKnownContracts env.toContractEnv addr then
        if isOutdated (s.item addr) (startRef t) then
          .ok ⟨true, none, s.setItem addr (s.item addr)⟩
        else (s.setItem addr (s.item addr)).takeState env t (startRef t) addr readingDb
      else s.takeState env t (startRef t) addr readingDb := by
  have href := fromUserField_of_valid h.valid
  have hitem : (s.setItem addr (s.item addr)).item addr = s.item addr := item_setItem_self addr addr
  unfold updateContractState
  cases hfield : t.userField TrxUf.newStateRefStart with
  | none =>
    have hvalid := h.valid
    unfold startRef at hvalid
    rw [hfield] at hvalid
    cases hvalid
  | some fld =>
    rw [hfield] at href
    dsimp only
    rw [href, h.target]
    rw [hitem]
    rfl

theorem Unset.update (hkept : Unset env addr s) (h : NewState env addr t)
    (hwritable : env.writable = true) :
    ∃ update, s.updateContractState env t false = .ok update ∧ Keeps env addr t update.states := by
  have hnewer : s.newerThanCached addr (startRef t) = true := by
    unfold newerThanCached
    rw [hkept.data]
  have houtdated : isOutdated (s.item addr) (startRef t) = false := by
    unfold isOutdated
    rw [hkept.refExecute]
    rfl
  have hcache : ((s.setItem addr (s.item addr)).item addr).refCache.isValid = false := by
    rw [item_setItem_self]
    exact hkept.refCache
  have hstarts : StartsDecode env ((s.setItem addr (s.item addr)).item addr) := by
    rw [item_setItem_self]
    exact hkept.starts
  rw [updateContractState_eq h, houtdated, if_neg Bool.false_ne_true]
  split_ifs
  · exact keeps_takeState h hwritable hstarts (.inl hcache) hnewer
  · exact keeps_takeState h hwritable hkept.starts (.inl hkept.refCache) hnewer

theorem Keeps.update (hkept : Keeps env addr u s) (hu : (startRef u).isValid = true)
    (h : NewState env addr t) (hwritable : env.writable = true)
    (habs : env.absoluteAddress addr = addr) :
    ∃ update, s.updateContractState env t false = .ok update ∧
      Keeps env addr (newest (some u) t) update.states := by
  have hknown : s.inKnownContracts env.toContractEnv addr = true := by
    unfold inKnownContracts
    rw [habs]
    cases hlookup : s.knownContracts.lookup addr with
    | some item => rfl
    | none =>
      have hexecute := hkept.refExecute
      unfold item at hexecute
      rw [hlookup] at hexecute
      rw [← hexecute] at hu
      cases hu
  have houtdated : isOutdated (s.item addr) (startRef t) = true ↔
      ¬ (startRef u).place < (startRef t).place := by
    unfold isOutdated
    rw [hkept.refExecute, hu, Bool.true_and, Bool.or_eq_true, decide_eq_true_iff,
      lt_iff h.valid hu, not_lt, le_iff_eq_or_lt, eq_comm,
      place_injective.eq_iff]
  rw [updateContractState_eq h, if_pos hknown]
  unfold newest
  by_cases hlt : (startRef u).place < (startRef t).place
  · rw [if_neg (fun hold => houtdated.mp hold hlt)]
    dsimp only
    rw [if_pos hlt]
    have hkept' := keeps_setItem hkept
    refine keeps_takeState h hwritable hkept'.starts (.inr ?_)
      ((newerThanCached_iff hkept').mpr hlt)
    rw [hkept'.refCache]
    exact (lt_iff hu h.valid).mpr hlt
  · rw [if_pos (houtdated.mpr hlt)]
    dsimp only
    rw [if_neg hlt]
    exact ⟨_, rfl, keeps_setItem hkept⟩

/-- Calls of `update_contract_state` while the node is running. -/
def updates (env : UpdateEnv) (ts : List Transaction) (s : ContractStates) :
    Except Fault ContractStates :=
  ts.foldlM (fun s t => (·.states) <$> s.updateContractState env t false) s

theorem argmax_concat_newest (ts : List Transaction) (t : Transaction) :
    (ts ++ [t]).argmax (fun t => (startRef t).place) =
      some (newest (ts.argmax fun t => (startRef t).place) t) := by
  rw [List.argmax_concat]
  cases ts.argmax fun t => (startRef t).place with
  | none => rfl
  | some u =>
    unfold newest
    dsimp only
    split_ifs <;> rfl

theorem kept_updates {ts : List Transaction} (hs : Unset env addr s)
    (hts : ∀ t ∈ ts, NewState env addr t) (hwritable : env.writable = true)
    (habs : env.absoluteAddress addr = addr) :
    ∃ s', updates env ts s = .ok s' ∧ Kept env addr (ts.argmax fun t => (startRef t).place) s' := by
  induction ts using List.reverseRecOn with
  | nil => exact ⟨s, rfl, hs⟩
  | append_singleton ts t ih =>
    obtain ⟨htail, ht⟩ := List.forall_mem_append.mp hts
    obtain ⟨s', hrun, hkept⟩ := ih htail
    have hnew := ht t (List.mem_singleton_self t)
    have hlast : updates env (ts ++ [t]) s =
        (·.states) <$> s'.updateContractState env t false := by
      unfold updates at hrun ⊢
      rw [List.foldlM_append, hrun]
      cases hupdate : s'.updateContractState env t false with
      | error fault => simp [hupdate, bind, Except.bind]
      | ok update => simp [hupdate, bind, Except.bind]; rfl
    have hstep : ∃ update, s'.updateContractState env t false = .ok update ∧
        Keeps env addr (newest (ts.argmax fun t => (startRef t).place) t) update.states := by
      cases hmax : ts.argmax fun t => (startRef t).place with
      | none =>
        rw [hmax] at hkept
        exact Unset.update hkept hnew hwritable
      | some u =>
        rw [hmax] at hkept
        exact Keeps.update hkept (htail u (List.argmax_mem hmax)).valid hnew hwritable habs
    obtain ⟨update, hok, hkeeps⟩ := hstep
    rw [hlast, hok, argmax_concat_newest]
    exact ⟨update.states, rfl, hkeeps⟩

/-- The state of a contract converges: after any calls with new states of the contract, the table
and the database have the state whose execution was started last, whatever the order of the calls
and however often they were repeated. -/
theorem updates_converge (env : UpdateEnv) (s : ContractStates) (addr : Address)
    (ts : List Transaction) (hs : Unset env addr s) (hts : ∀ t ∈ ts, NewState env addr t)
    (hwritable : env.writable = true) (habs : env.absoluteAddress addr = addr) :
    ∃ s', updates env ts s = .ok s' ∧
      ∀ t ∈ ts, (∀ u ∈ ts, (startRef u).place ≤ (startRef t).place) →
        (∀ u ∈ ts, startRef u = startRef t → valueOf u = valueOf t) →
        (s'.item addr).state = valueOf t ∧ (s'.item addr).refExecute = startRef t ∧
          s'.contractData.lookup addr.toPublicKey = some (encode (startRef t) (valueOf t)) := by
  obtain ⟨s', hrun, hkept⟩ := kept_updates hs hts hwritable habs
  refine ⟨s', hrun, fun t ht hgreatest hvalues => ?_⟩
  cases hmax : ts.argmax fun t => (startRef t).place with
  | none =>
    rw [List.argmax_eq_none.mp hmax] at ht
    cases ht
  | some m =>
    rw [hmax] at hkept
    have hmem : m ∈ ts := List.argmax_mem hmax
    have hle : (startRef t).place ≤ (startRef m).place :=
      List.le_of_mem_argmax (f := fun t => (startRef t).place) ht hmax
    have hstate := hkept.state
    have hrefExecute := hkept.refExecute
    have hdata := hkept.data
    grind [place_injective, valueOf]

/-- A new state of the contract for an execution that the first transaction of a block started. -/
def demoState (sequence : Sequence) (value : Bytes) : Transaction :=
  { Transaction.new with
    userFields := .ofEntries [(TrxUf.newStateValue, .string value),
      (TrxUf.newStateRefStart, .string (putU64 0 ++ (putU64 sequence ++ putU64 0)))] }

/-- A start transaction that deploys the code `[1]`. -/
def demoStart : Transaction :=
  { Transaction.new with userFields := .ofEntries [(TrxUf.deployCode, .string [1])] }

/-- A node with a queued start whose method is empty. -/
def demoEnv : UpdateEnv where
  toContractEnv := emptyEnv
  queued _ := some demoStart
  methodIsEmpty code := if code = [1] then some true else none
  hashedState _ t _ := t

theorem startable_demoStart : Startable demoEnv demoStart := ⟨rfl, true, by decide +kernel⟩

theorem startable_new : Startable demoEnv .new := ⟨rfl, false, rfl⟩

theorem unset_noContracts : Unset demoEnv .new noContracts where
  data := rfl
  refExecute := rfl
  refCache := rfl
  starts start hstart _ := by
    have hnew : start ∈ [Transaction.new, Transaction.new] := hstart
    obtain rfl : start = .new := by simpa using hnew
    exact startable_new

theorem newState_demoState {sequence : Sequence} {value : Bytes} (hvalue : value ≠ [])
    (hvalid : (startRef (demoState sequence value)).isValid = true) :
    NewState demoEnv .new (demoState sequence value) :=
  ⟨rfl, rfl, hvalue, hvalid, fun _ h => Option.some.inj h ▸ startable_demoStart, startable_new⟩

theorem updates_converge_demo :
    ∃ s', updates demoEnv [demoState 7 [2], demoState 5 [1], demoState 7 [2]] noContracts = .ok s' ∧
      (s'.item .new).state = [2] ∧ (s'.item .new).refExecute = startRef (demoState 7 [2]) := by
  have hlater : NewState demoEnv .new (demoState 7 [2]) :=
    newState_demoState (by decide) (by decide +kernel)
  have hearlier : NewState demoEnv .new (demoState 5 [1]) :=
    newState_demoState (by decide) (by decide +kernel)
  obtain ⟨s', hrun, hlast⟩ := updates_converge demoEnv noContracts .new
    [demoState 7 [2], demoState 5 [1], demoState 7 [2]] unset_noContracts
    (by simp [hlater, hearlier]) rfl rfl
  obtain ⟨hstate, href, -⟩ := hlast (demoState 7 [2]) List.mem_cons_self (by decide +kernel)
    (by decide +kernel)
  exact ⟨s', hrun, hstate, href⟩

end ContractStates

end CreditsNode
