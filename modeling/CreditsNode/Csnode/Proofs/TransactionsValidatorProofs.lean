import CreditsNode.Csdb.Proofs.AmountProofs
import CreditsNode.Csnode.IterValidator
import CreditsNode.Lib.Journal
import CreditsNode.Lib.Settlement
import CreditsNode.Lib.ThreadedList

/-!
# Steps of the validator

The state of the validator as the proofs see it: the wallets, the links of the lists of outgoing
transactions, and the set of accepted transactions. Each function that enters a transaction or takes
one back is described once by what it changes in this view.
-/

namespace CreditsNode.TransactionsValidator

open Effect List Journal ThreadedList

open WalletsState (noInd)

variable (ctx : SolverContext)

section State

variable {ctx} {s : TransactionsValidator} {key k : PublicKey} {data : WalletsState.WalletData}

theorem wallet_setWallet :
    (s.setWallet key data).wallet ctx k = if k = key then data else s.wallet ctx k := by
  unfold wallet setWallet
  by_cases h : k = key
  · subst h
    rw [if_pos rfl, AList.lookup_insert, Option.getD_some]
  · rw [if_neg h, AList.lookup_insert_ne h]

@[simp] theorem wallet_setWallet_self : (s.setWallet key data).wallet ctx key = data := by
  rw [wallet_setWallet, if_pos rfl]

theorem wallet_setWallet_of_ne (h : k ≠ key) :
    (s.setWallet key data).wallet ctx k = s.wallet ctx k := by
  rw [wallet_setWallet, if_neg h]

@[simp] theorem trxList_setWallet : (s.setWallet key data).trxList = s.trxList := rfl

@[simp] theorem maskIncluded_setWallet : (s.setWallet key data).maskIncluded = s.maskIncluded := rfl

@[simp] theorem negativeNodes_setWallet : (s.setWallet key data).negativeNodes = s.negativeNodes :=
  rfl

@[simp] theorem wallet_setWallet_wallet :
    (s.setWallet key (s.wallet ctx key)).wallet ctx k = s.wallet ctx k := by
  rw [wallet_setWallet]
  by_cases h : k = key
  · rw [if_pos h, h]
  · rw [if_neg h]

end State

def entry (index : WalletsState.TransactionIndex) : Option ℕ :=
  if index = noInd then none else some index.toNat

def links (s : TransactionsValidator) (k : PublicKey) (c : Option ℕ) : Option ℕ :=
  (s.pointee ctx k c).bind entry

/-- The accepted transactions among the first `done` ones. -/
def live (s : TransactionsValidator) (done : ℕ) : Finset ℕ :=
  (Finset.range done).filter fun i => s.maskIncluded[i]? = some .none

variable {s : TransactionsValidator}

theorem mem_live {done i : ℕ} : i ∈ s.live done ↔ i < done ∧ s.maskIncluded[i]? = some .none := by
  unfold live
  rw [Finset.mem_filter, Finset.mem_range]

@[simp] theorem entry_noInd : entry noInd = none := rfl

theorem entry_ofNat {i : ℕ} (h : i < 2 ^ 32 - 1) : entry (UInt32.ofNat i) = some i := by
  have htoNat : (UInt32.ofNat i).toNat = i :=
    UInt32.toNat_ofNat_of_lt' (show i < 2 ^ 32 by omega)
  unfold entry
  rw [if_neg, htoNat]
  intro he
  have hmax : (UInt32.ofNat i).toNat = 2 ^ 32 - 1 := by rw [he]; rfl
  omega

section Links

variable {ctx} {s t : TransactionsValidator} {k node : PublicKey}

theorem links_congr (hlist : t.trxList = s.trxList)
    (hlast : (t.wallet ctx k).lastTrxInd = (s.wallet ctx k).lastTrxInd) :
    t.links ctx k = s.links ctx k := by
  funext c
  cases c with
  | none => simp only [links, pointee, hlast]
  | some i => simp only [links, pointee, hlist]

variable {c : Option ℕ} {index : WalletsState.TransactionIndex}

theorem isSome_pointee_of_links {i : ℕ} (h : s.links ctx node c = some i) :
    (s.pointee ctx node c).isSome := by
  cases hp : s.pointee ctx node c with
  | none => simp [links, hp] at h
  | some index => rfl

theorem links_setPointee (hc : (s.pointee ctx node c).isSome) :
    (s.setPointee ctx node c index).links ctx node =
      write (s.links ctx node) c (entry index) := by
  funext d
  cases c with
  | none =>
    cases d with
    | none => simp [links, pointee, setPointee, write]
    | some j => simp [links, pointee, setPointee, write]
  | some i =>
    have hi : i < s.trxList.length := by simpa [pointee] using hc
    cases d with
    | none => simp [links, pointee, setPointee, write, wallet]
    | some j =>
      by_cases hj : j = i
      · subst hj
        simp [links, pointee, setPointee, write, hi]
      · have hne : (some j : Option ℕ) ≠ some i := fun he => hj (Option.some.inj he)
        simp [links, pointee, setPointee, write, Function.update_of_ne hne,
          List.getElem?_set_ne (Ne.symm hj)]

theorem links_none_setPointee_of_ne
    (hk : k ≠ node) : (s.setPointee ctx node c index).links ctx k none = s.links ctx k none := by
  cases c with
  | none => simp only [links, pointee, setPointee, wallet_setWallet_of_ne hk]
  | some i => rfl

@[simp] theorem length_trxList_setPointee :
    (s.setPointee ctx node c index).trxList.length = s.trxList.length := by
  cases c with
  | none => rfl
  | some i => simp [setPointee]

@[simp] theorem maskIncluded_setPointee :
    (s.setPointee ctx node c index).maskIncluded = s.maskIncluded := by
  cases c <;> rfl

@[simp] theorem negativeNodes_setPointee :
    (s.setPointee ctx node c index).negativeNodes = s.negativeNodes := by
  cases c <;> rfl

@[simp] theorem balance_setPointee :
    ((s.setPointee ctx node c index).wallet ctx k).balance = (s.wallet ctx k).balance := by
  cases c with
  | none =>
    by_cases hk : k = node
    · subst hk
      simp [setPointee]
    · simp only [setPointee, wallet_setWallet_of_ne hk]
  | some i => rfl

end Links

/-- Only data of wallets other than their lists may have changed. -/
structure KeepsLists (ctx : SolverContext) (s t : TransactionsValidator) : Prop where
  trxList : t.trxList = s.trxList
  maskIncluded : t.maskIncluded = s.maskIncluded
  negativeNodes : t.negativeNodes = s.negativeNodes
  lastTrxInd : ∀ k, (t.wallet ctx k).lastTrxInd = (s.wallet ctx k).lastTrxInd

theorem KeepsLists.trans {ctx : SolverContext} {t u : TransactionsValidator}
    (h : KeepsLists ctx s t) (h' : KeepsLists ctx t u) : KeepsLists ctx s u :=
  ⟨h'.trxList.trans h.trxList, h'.maskIncluded.trans h.maskIncluded,
    h'.negativeNodes.trans h.negativeNodes, fun k => (h'.lastTrxInd k).trans (h.lastTrxInd k)⟩

theorem KeepsLists.links {ctx : SolverContext} {t : TransactionsValidator}
    (h : KeepsLists ctx s t) (k : PublicKey) : t.links ctx k = s.links ctx k :=
  links_congr h.trxList (h.lastTrxInd k)

section Primitive

variable {ctx} {α : Type} {E : Fault → TransactionsValidator → Prop} {s : TransactionsValidator}
  {Q : α → TransactionsValidator → Prop} {key : PublicKey}

theorem wp_getData_bind {address : Address} {f : PublicKey → ValidatorM α}
    (h : ∀ t, KeepsLists ctx s t → (∀ k, t.wallet ctx k = s.wallet ctx k) →
      Wp (f (ctx.toPublicKey address)) E Q t) : Wp (getData ctx address >>= f) E Q s := by
  refine h (s.setWallet _ (s.wallet ctx _)) ⟨rfl, rfl, rfl, fun k => ?_⟩ fun k => ?_
  · rw [wallet_setWallet_wallet]
  · rw [wallet_setWallet_wallet]

variable {f : Amount → ValidatorM α}

theorem wp_balance_bind
    (h : Wp (f (s.wallet ctx key).balance) E Q s) : Wp (balance ctx key >>= f) E Q s := h

variable {b : Amount}

theorem wp_setBalance_bind {f : Unit → ValidatorM α} (h : ∀ t, KeepsLists ctx s t →
      (∀ k, (t.wallet ctx k).balance = if k = key then b else (s.wallet ctx k).balance) →
      Wp (f ()) E Q t) :
    Wp (setBalance ctx key b >>= f) E Q s := by
  refine h (s.setWallet key { s.wallet ctx key with balance := b }) ⟨rfl, rfl, rfl, fun k => ?_⟩
    fun k => ?_
  all_goals
    rw [wallet_setWallet]
    by_cases hk : k = key
    · subst hk
      simp
    · simp only [if_neg hk]

theorem wp_setMask {Q : Unit → TransactionsValidator → Prop} {i : ℕ} {r : Reason}
    (hi : i < s.maskIncluded.length)
    (h : Q () { s with maskIncluded := s.maskIncluded.set i r }) : Wp (setMask i r) E Q s := by
  refine .get_bind ?_
  rw [if_pos hi]
  exact .modify h

theorem wp_setMask_bind {i : ℕ} {r : Reason} {f : Unit → ValidatorM α}
    (hi : i < s.maskIncluded.length)
    (h : Wp (f ()) E Q { s with maskIncluded := s.maskIncluded.set i r }) :
    Wp (setMask i r >>= f) E Q s :=
  .bind (wp_setMask (Q := fun _ t => Wp (f ()) E Q t) hi h) fun _ _ ht => ht

variable (hoverflow : ∀ t, E .overflow t)

include hoverflow in
theorem wp_add_bind {a : Amount}
    (h : ∀ c, a.add b = .ok c → Wp (f c) E Q s) : Wp (lift (a.add b) >>= f) E Q s :=
  .lift_bind h fun e he => by
    rw [Amount.eq_overflow_of_add he]
    exact hoverflow s

include hoverflow in
theorem wp_sub_bind {a : Amount}
    (h : ∀ c, a.sub b = .ok c → Wp (f c) E Q s) : Wp (lift (a.sub b) >>= f) E Q s :=
  .lift_bind h fun e he => by
    rw [Amount.eq_overflow_of_sub he]
    exact hoverflow s

end Primitive

/-! ## Movements

A balance changes by movements: an amount is added to it or taken from it, with the binary operators
of the amounts. What the validator does to the balances is written down as a journal of
movements. -/

/-- What is added to a balance or taken from it. -/
inductive Movement where
  | credit (x : Amount)
  | debit (x : Amount)
deriving DecidableEq

namespace Movement

def amount : Movement → Amount
  | credit x => x
  | debit x => x

def value : Movement → ℤ
  | credit x => x.value
  | debit x => -x.value

def apply : Movement → Amount → Except Fault Amount
  | credit x, b => b.add x
  | debit x, b => b.sub x

theorem apply_spec {b : Amount} {m : Movement} (hb : b.Proper) (hm : m.amount.Proper) :
    Yields (m.apply b) (· = .overflow) fun c => c.Proper ∧ c.value = b.value + m.value := by
  cases m with
  | credit x => exact Amount.add_spec hb hm
  | debit x =>
    refine (Amount.sub_proper_spec hb hm).mono fun c hc => ⟨hc.1, ?_⟩
    rw [hc.2, sub_eq_add_neg]
    rfl

end Movement

def Replays (ctx : SolverContext) (s t : TransactionsValidator) (es : List (PublicKey × Movement)) :
    Prop :=
  ∀ k, Journal.replay (fun b m => m.apply b) k es (s.wallet ctx k).balance =
    .ok (t.wallet ctx k).balance

section Replays

variable {ctx} {s t u : TransactionsValidator} {key : PublicKey}
  {es fs : List (PublicKey × Movement)}

theorem replays_nil (h : ∀ k, (t.wallet ctx k).balance = (s.wallet ctx k).balance) :
    Replays ctx s t [] := fun k => by rw [h, replay_nil]

theorem Replays.append (h : Replays ctx s t es) (h' : Replays ctx t u fs) :
    Replays ctx s u (es ++ fs) := fun k => replay_append (h k) (h' k)

theorem Replays.congr (h : Replays ctx s t es)
    (hbalance : ∀ k, (u.wallet ctx k).balance = (t.wallet ctx k).balance) : Replays ctx s u es :=
  fun k => by rw [hbalance, h k]

theorem Replays.of_eq (h : Replays ctx t u es)
    (hbalance : ∀ k, (t.wallet ctx k).balance = (s.wallet ctx k).balance) : Replays ctx s u es :=
  fun k => by rw [← hbalance, h k]

theorem replays_setBalance {b : Amount} {m : Movement}
    (h : m.apply (s.wallet ctx key).balance = .ok b)
    (hbalance : ∀ k, (t.wallet ctx k).balance = if k = key then b else (s.wallet ctx k).balance) :
    Replays ctx s t [(key, m)] := by
  intro k
  rw [hbalance]
  by_cases hk : k = key
  · subst hk
    rw [if_pos rfl, replay_singleton_self, h]
  · rw [if_neg hk, replay_singleton_of_ne (Ne.symm hk)]

theorem replays_setBalance_two {b c : Amount} {m m' : Movement}
    (h : m.apply (s.wallet ctx key).balance = .ok b) (h' : m'.apply b = .ok c)
    (hbalance : ∀ k, (t.wallet ctx k).balance = if k = key then c else (s.wallet ctx k).balance) :
    Replays ctx s t [(key, m), (key, m')] := by
  intro k
  rw [hbalance, ← singleton_append]
  grind [replay_append, replay_singleton_self, replay_singleton_of_ne]

section

variable (h : Replays ctx s t es) (hs : ∀ k, (s.wallet ctx k).balance.Proper)
  (hes : ∀ e ∈ es, e.2.amount.Proper)
include h hs hes

theorem Replays.proper (k : PublicKey) : (t.wallet ctx k).balance.Proper := by
  refine invariant (I := fun _ b => b.Proper) (hs k) (fun done m hm b c hb hc => ?_) (h k)
  exact ((Movement.apply_spec hb (hes _ hm)).of_ok hc).1

theorem Replays.value (k : PublicKey) :
    (t.wallet ctx k).balance.value = (s.wallet ctx k).balance.value +
      ((ofAccount k es).map Movement.value).sum := by
  have hinv := invariant
    (I := fun done b => b.Proper ∧
      b.value = (s.wallet ctx k).balance.value + (done.map Movement.value).sum)
    ⟨hs k, by simp⟩ (fun done m hm b c hb hc => ?_) (h k)
  · exact hinv.2
  · obtain ⟨hproper, hvalue⟩ := (Movement.apply_spec hb.1 (hes _ hm)).of_ok hc
    refine ⟨hproper, ?_⟩
    rw [hvalue, hb.2, map_append, sum_append, add_assoc]
    simp

end

end Replays

section TakeBack

variable {ctx} {s t : TransactionsValidator} {node : PublicKey} {prevNext : Option ℕ} {i : ℕ}

theorem deref_eq {index : WalletsState.TransactionIndex}
    (h : s.pointee ctx node prevNext = some index) : deref ctx node prevNext s = .ok index s := by
  unfold deref
  rw [bind_eq_of_ok (m := get) rfl, h]
  rfl

theorem wp_unlinkTransaction_bind {α : Type} {E : Fault → TransactionsValidator → Prop}
    {Q : α → TransactionsValidator → Prop} {f : Unit → ValidatorM α} (hi : i < s.trxList.length)
    (h : ∀ next, s.trxList[i]? = some next → Wp (f ()) E Q
      ((s.setPointee ctx node prevNext next).setPointee ctx node (some i) noInd)) :
    Wp (unlinkTransaction ctx node prevNext i >>= f) E Q s := by
  have hnext : s.trxList[i]? = some s.trxList[i] := List.getElem?_eq_getElem hi
  exact .bind_of_ok (bind_eq_of_ok (deref_eq hnext)) (h _ hnext)

theorem links_unlink {next : WalletsState.TransactionIndex} (hnext : s.trxList[i]? = some next)
    (hprev : s.links ctx node prevNext = some i) :
    ((s.setPointee ctx node prevNext next).setPointee ctx node (some i) noInd).links ctx node =
      unlink (s.links ctx node) prevNext i := by
  have hentry : s.links ctx node (some i) = entry next := by simp [links, pointee, hnext]
  have hi : i < s.trxList.length := (List.getElem?_eq_some_iff.mp hnext).1
  have hsome : ((s.setPointee ctx node prevNext next).pointee ctx node (some i)).isSome := by
    simpa [pointee] using hi
  grind [links_setPointee, isSome_pointee_of_links, entry_noInd, unlink]

/-- The transaction `i` is refused and has left the list of `node`. -/
structure LinkedOut (ctx : SolverContext) (s t : TransactionsValidator) (node : PublicKey)
    (prevNext : Option ℕ) (i : ℕ) : Prop where
  maskIncluded : t.maskIncluded = s.maskIncluded.set i .negativeResult
  length_trxList : t.trxList.length = s.trxList.length
  links_node : t.links ctx node = ThreadedList.unlink (s.links ctx node) prevNext i
  links_head : ∀ k ≠ node, t.links ctx k none = s.links ctx k none

/-- The transaction `i` of `node` has been taken back, with the fee that belongs to it. -/
structure TookBack (ctx : SolverContext) (s t : TransactionsValidator) (node : PublicKey)
    (prevNext : Option ℕ) (i : ℕ) (trx : Transaction) (fee : ℤ) : Prop
    extends LinkedOut ctx s t node prevNext i where
  proper : ∀ k, (t.wallet ctx k).balance.Proper
  value : ∀ k, (t.wallet ctx k).balance.value = (s.wallet ctx k).balance.value +
    (if k = node then trx.amount.value + fee else 0) -
    (if k = ctx.toPublicKey trx.target then trx.amount.value else 0)

/-- What a function of the family leaves on the stack: the target if it is negative now, unless only
targets that can pay back are considered. -/
def Pushed (ctx : SolverContext) (kind : Removal) (s t : TransactionsValidator)
    (trx : Transaction) : Prop :=
  (t.negativeNodes = s.negativeNodes ∧
    (kind.positive = false → 0 ≤ (t.wallet ctx (ctx.toPublicKey trx.target)).balance.value)) ∨
  t.negativeNodes = ctx.toPublicKey trx.target :: s.negativeNodes

def takingBack (ctx : SolverContext) (node : PublicKey) (trx : Transaction) (fee : Amount) :
    List (PublicKey × Movement) :=
  [(node, .credit trx.amount), (node, .credit fee),
    (ctx.toPublicKey trx.target, .debit trx.amount)]

/-- What `takeBack` does to the lists, the mask and the stack. -/
structure Removed (ctx : SolverContext) (kind : Removal) (s t : TransactionsValidator)
    (node : PublicKey) (prevNext : Option ℕ) (i : ℕ) (trx : Transaction) : Prop
    extends LinkedOut ctx s t node prevNext i where
  negativeNodes : (t.negativeNodes = s.negativeNodes ∧ (kind.positive = false →
      (t.wallet ctx (ctx.toPublicKey trx.target)).balance.ge 0 = true)) ∨
    t.negativeNodes = ctx.toPublicKey trx.target :: s.negativeNodes

variable {kind : Removal} {trx : Transaction}

theorem wp_takeBack_replays {E : Fault → TransactionsValidator → Prop}
    (hoverflow : ∀ t, E .overflow t) (hfee : ∀ e, transferFee ctx trx = .error e → ∀ t, E e t)
    (hmask : i < s.maskIncluded.length) (hlist : i < s.trxList.length)
    (hprev : s.links ctx node prevNext = some i) :
    Wp (takeBack ctx kind node prevNext i trx) E
      (fun _ t => Removed ctx kind s t node prevNext i trx ∧
        ∃ fee, transferFee ctx trx = .ok fee ∧
          Replays ctx s t (takingBack ctx node trx fee)) s := by
  set dest := ctx.toPublicKey trx.target with hdest
  refine wp_getData_bind fun s0 hs0 hwallet => ?_
  refine wp_setMask_bind (by rw [hs0.maskIncluded]; exact hmask) ?_
  set s1 : TransactionsValidator :=
    { s0 with maskIncluded := s0.maskIncluded.set i .negativeResult } with hs1
  have hwallet1 : ∀ k, s1.wallet ctx k = s.wallet ctx k := hwallet
  refine .lift_bind (fun fee hfee' => wp_balance_bind ?_) fun e he => hfee e he _
  refine wp_add_bind hoverflow fun x hx => ?_
  refine wp_add_bind hoverflow fun refunded hrefunded => ?_
  refine wp_setBalance_bind fun s2 hs2 hbalance2 => wp_balance_bind ?_
  refine wp_sub_bind hoverflow fun reduced hreduced => ?_
  refine wp_setBalance_bind fun s3 hs3 hbalance3 => ?_
  have hreplays : Replays ctx s s3 (takingBack ctx node trx fee) := by
    have hnode : Replays ctx s1 s2 [(node, .credit trx.amount), (node, .credit fee)] :=
      replays_setBalance_two hx hrefunded hbalance2
    have htarget : Replays ctx s2 s3 [(dest, .debit trx.amount)] :=
      replays_setBalance hreduced hbalance3
    exact (hnode.append htarget).of_eq fun k => by rw [hwallet1]
  have hlist3 : s3.trxList = s.trxList := by rw [hs3.trxList, hs2.trxList, hs1]; exact hs0.trxList
  have hlinks3 : ∀ k, s3.links ctx k = s.links ctx k := fun k => by
    rw [hs3.links, hs2.links]
    exact hs0.links k
  refine wp_unlinkTransaction_bind (by rw [hlist3]; exact hlist) fun next hnext => ?_
  have hprev3 : s3.links ctx node prevNext = some i := by rw [hlinks3]; exact hprev
  generalize hs4 : (s3.setPointee ctx node prevNext next).setPointee ctx node (some i) noInd = s4
  have hbalance4 : ∀ k, (s4.wallet ctx k).balance = (s3.wallet ctx k).balance := fun k => by
    rw [← hs4, balance_setPointee, balance_setPointee]
  have hneg4 : s4.negativeNodes = s.negativeNodes := by
    rw [← hs4, negativeNodes_setPointee, negativeNodes_setPointee, hs3.negativeNodes,
      hs2.negativeNodes]
    exact hs0.negativeNodes
  have hmask4 : s4.maskIncluded = s.maskIncluded.set i .negativeResult := by
    rw [← hs4, maskIncluded_setPointee, maskIncluded_setPointee, hs3.maskIncluded,
      hs2.maskIncluded, hs1, hs0.maskIncluded]
  have hlength4 : s4.trxList.length = s.trxList.length := by
    rw [← hs4, length_trxList_setPointee, length_trxList_setPointee, hlist3]
  have hlinks4 : s4.links ctx node = unlink (s.links ctx node) prevNext i := by
    rw [← hs4, links_unlink hnext hprev3, hlinks3]
  have hhead4 : ∀ k ≠ node, s4.links ctx k none = s.links ctx k none := fun k hk => by
    rw [← hs4, links_none_setPointee_of_ne hk, links_none_setPointee_of_ne hk, hlinks3]
  have hreplays4 := hreplays.congr hbalance4
  refine .modify_bind ?_
  refine .ite (fun hpush => ?_) fun hpush => ?_
  · refine .modify ⟨⟨⟨hmask4, hlength4, hlinks4, hhead4⟩, .inr ?_⟩, fee, hfee', hreplays4⟩
    rw [hneg4]
  · refine .pure ⟨⟨⟨hmask4, hlength4, hlinks4, hhead4⟩, .inl ⟨hneg4, fun hkind => ?_⟩⟩, fee,
      hfee', hreplays4⟩
    show (s4.wallet ctx dest).balance.ge 0 = true
    rw [hbalance4, hbalance3, if_pos rfl]
    simpa [hkind, Amount.ge] using hpush

theorem Removed.tookBack {fee : Amount}
    (hproper : ∀ k, (s.wallet ctx k).balance.Proper) (hamount : trx.amount.Proper)
    (hfee : fee.Proper) (h : Removed ctx kind s t node prevNext i trx)
    (hreplays : Replays ctx s t (takingBack ctx node trx fee)) :
    TookBack ctx s t node prevNext i trx fee.value := by
  have hmoves : ∀ e ∈ takingBack ctx node trx fee, e.2.amount.Proper := by
    unfold takingBack
    simp only [forall_mem_cons]
    exact ⟨hamount, hfee, hamount, forall_mem_nil _⟩
  refine ⟨h.toLinkedOut, hreplays.proper hproper hmoves, fun k => ?_⟩
  rw [hreplays.value hproper hmoves]
  grind [takingBack, ofAccount_cons, ofAccount_nil, Movement.value]

theorem Removed.pushed (h : Removed ctx kind s t node prevNext i trx) :
    Pushed ctx kind s t trx := by
  rcases h.negativeNodes with ⟨hsame, hge⟩ | hpush
  · exact .inl ⟨hsame, fun hkind => Amount.value_nonneg_of_ge_zero (hge hkind)⟩
  · exact .inr hpush

theorem wp_takeBack {fee : Amount}
    (hproper : ∀ k, (s.wallet ctx k).balance.Proper) (hamount : trx.amount.Proper)
    (hfee : transferFee ctx trx = .ok fee) (hfeeProper : fee.Proper)
    (hmask : i < s.maskIncluded.length) (hlist : i < s.trxList.length)
    (hprev : s.links ctx node prevNext = some i) :
    Wp (takeBack ctx kind node prevNext i trx) (fun e _ => e = .overflow)
      (fun _ t => TookBack ctx s t node prevNext i trx fee.value ∧ Pushed ctx kind s t trx) s := by
  refine (wp_takeBack_replays (fun _ => rfl) (fun e he => ?_) hmask hlist hprev).mono ?_
  · rw [hfee] at he
    cases he
  · rintro - t ⟨hremoved, fee', hfee', hreplays⟩
    rw [hfee] at hfee'
    cases hfee'
    have htook := hremoved.tookBack hproper hamount hfeeProper hreplays
    exact ⟨htook, hremoved.pushed⟩

end TakeBack

/-- No contract takes part in the transaction. -/
structure NoContract (ctx : SolverContext) (trx : Transaction) : Prop where
  not_isExecutable : SmartContracts.isExecutable trx = false
  not_isNewState : SmartContracts.isNewState trx = false
  source : ctx.isKnownSmartContract trx.source = false
  target : ctx.isKnownSmartContract trx.target = false

/-- What a plain transfer is: no contract takes part, and the amount and the fees are exact,
non-negative numbers. -/
structure PlainTransfer (ctx : SolverContext) (trx : Transaction) : Prop
    extends NoContract ctx trx where
  amount : trx.amount.Normalized ∧ 0 ≤ trx.amount.value
  ofDouble : ctx.ofDouble trx.amount = some trx.amount
  maxFee : ∃ a, ctx.toAmount trx.maxFee = some a ∧ a.Normalized ∧ 0 ≤ a.value
  countedFee : ∃ a, ctx.toAmount trx.countedFee = some a ∧ a.Normalized ∧ 0 ≤ a.value

section Enter

variable {ctx} {s t : TransactionsValidator} {key : PublicKey} {i : ℕ}

/-- The transaction `i` has become the head of the list of the wallet `key`. -/
structure Enlisted (ctx : SolverContext) (s t : TransactionsValidator) (key : PublicKey) (i : ℕ) :
    Prop where
  maskIncluded : t.maskIncluded = s.maskIncluded
  length_trxList : t.trxList.length = s.trxList.length
  links_head : t.links ctx key none = entry (UInt32.ofNat i)
  links_entry : t.links ctx key (some i) = s.links ctx key none
  links_head_of_ne : ∀ k ≠ key, t.links ctx k none = s.links ctx k none
  links_entry_of_ne : ∀ k, ∀ j ≠ i, t.links ctx k (some j) = s.links ctx k (some j)

/-- The transaction `i` has been entered in the list of the wallet, and no coins have moved. -/
structure LinkedIn (ctx : SolverContext) (s t : TransactionsValidator) (key : PublicKey) (i : ℕ) :
    Prop extends Enlisted ctx s t key i where
  negativeNodes : t.negativeNodes = s.negativeNodes
  balance : ∀ k, (t.wallet ctx k).balance = (s.wallet ctx k).balance

theorem wp_linkTransaction_bind {α : Type} {E : Fault → TransactionsValidator → Prop}
    {Q : α → TransactionsValidator → Prop} {f : Unit → ValidatorM α} {innerID : Int64}
    (hi : i < s.trxList.length) (h : ∀ t, LinkedIn ctx s t key i → Wp (f ()) E Q t) :
    Wp (linkTransaction ctx key innerID i >>= f) E Q s := by
  refine .bind (P := fun _ t => LinkedIn ctx s t key i) ?_ fun _ t ht => h t ht
  refine .get_bind ?_
  rw [if_pos hi]
  refine .modify ⟨⟨rfl, ?_, ?_, ?_, ?_, ?_⟩, rfl, ?_⟩
  · simp
  · simp [links, pointee]
  · simp [links, pointee, hi]
  · intro k hk
    simp only [links, pointee, wallet_setWallet_of_ne hk]
    rfl
  · intro k j hj
    simp [links, pointee, List.getElem?_set_ne (Ne.symm hj)]
  · intro k
    rw [wallet_setWallet]
    by_cases hk : k = key
    · subst hk
      rw [if_pos rfl]
    · rw [if_neg hk]
      rfl

theorem LinkedIn.enlisted {u t' : TransactionsValidator} (h : LinkedIn ctx u t' key i)
    (hmask : u.maskIncluded = s.maskIncluded) (hlength : u.trxList.length = s.trxList.length)
    (hlinks : ∀ k, u.links ctx k = s.links ctx k) (hlists : KeepsLists ctx t' t) :
    Enlisted ctx s t key i := by
  refine ⟨?_, ?_, ?_, ?_, ?_, ?_⟩
  · rw [hlists.maskIncluded, h.maskIncluded, hmask]
  · rw [hlists.trxList, h.length_trxList, hlength]
  · rw [hlists.links, h.links_head]
  · rw [hlists.links, h.links_entry, hlinks]
  · intro k hk
    rw [hlists.links, h.links_head_of_ne k hk, hlinks]
  · intro k j hj
    rw [hlists.links, h.links_entry_of_ne k j hj, hlinks]

/-- The transaction `i` is entered in the list of its source and moves its amount and the fee. -/
structure Booked (ctx : SolverContext) (s t : TransactionsValidator) (i : ℕ) (trx : Transaction)
    (fee : ℤ) : Prop extends Enlisted ctx s t (ctx.toPublicKey trx.source) i where
  proper : ∀ k, (t.wallet ctx k).balance.Proper
  value : ∀ k, (t.wallet ctx k).balance.value = (s.wallet ctx k).balance.value +
    (if k = ctx.toPublicKey trx.target then trx.amount.value else 0) -
    (if k = ctx.toPublicKey trx.source then trx.amount.value + fee else 0)

variable {trx : Transaction} {fee : Amount} {trxs : List Transaction}

/-- The plain transfer `i` has been accepted. -/
structure Entered (ctx : SolverContext) (s t : TransactionsValidator) (i : ℕ) (trx : Transaction)
    (fee : ℤ) : Prop extends Booked ctx s t i trx fee where
  negativeNodes : (t.negativeNodes = s.negativeNodes ∧
      0 ≤ (t.wallet ctx (ctx.toPublicKey trx.source)).balance.value) ∨
    t.negativeNodes = ctx.toPublicKey trx.source :: s.negativeNodes

def entering (ctx : SolverContext) (trx : Transaction) (fee : Amount) :
    List (PublicKey × Movement) :=
  [(ctx.toPublicKey trx.source, .debit trx.amount), (ctx.toPublicKey trx.source, .debit fee),
    (ctx.toPublicKey trx.target, .credit trx.amount)]

variable {E : Fault → TransactionsValidator → Prop} (hoverflow : ∀ t, E .overflow t)

include hoverflow in
theorem wp_spend_replays {amount : Amount} {commission : AmountCommission}
    (hfee : ∀ e, ctx.amount commission = .error e → ∀ t, E e t) :
    Wp (spend ctx key amount commission) E
      (fun r t => r = .none ∧ KeepsLists ctx s t ∧ ∃ fee, ctx.amount commission = .ok fee ∧
        Replays ctx s t [(key, .debit amount), (key, .debit fee)]) s := by
  refine wp_balance_bind ?_
  refine wp_sub_bind hoverflow fun x hx => ?_
  refine .lift_bind (fun fee hfee' => ?_) fun e he => hfee e he s
  refine wp_sub_bind hoverflow fun newBalance hnew => ?_
  refine wp_setBalance_bind fun t hlists hbalance => .pure ⟨rfl, hlists, fee, hfee', ?_⟩
  exact replays_setBalance_two hx hnew hbalance

def Refuses (r : Reason) : Prop := r ≠ .none ∧ r ≠ .negativeResult

include hoverflow in
theorem wp_validateCommonAsSource_replays
    (htrx : NoContract ctx trx) (hmaxFee : ∀ e, ctx.amount trx.maxFee = .error e → ∀ t, E e t)
    (hfee : ∀ e, ctx.amount trx.countedFee = .error e → ∀ t, E e t) :
    Wp (validateCommonAsSource ctx trxs trx key) E
      (fun r t => (Refuses r ∧ t = s) ∨
        (r = .none ∧ KeepsLists ctx s t ∧ ∃ fee, ctx.amount trx.countedFee = .ok fee ∧
          Replays ctx s t [(key, .debit trx.amount), (key, .debit fee)])) s := by
  unfold validateCommonAsSource
  refine .ite (fun hself => ?_) fun hself => ?_
  · exact .pure (.inl ⟨⟨by decide, by decide⟩, rfl⟩)
  refine .lift_bind (fun maxFee _ => ?_) fun e he => hmaxFee e he s
  refine .lift_bind (fun fee _ => ?_) fun e he => hfee e he s
  refine .ite (fun hlt => ?_) fun hlt => ?_
  · exact .pure (.inl ⟨⟨by decide, by decide⟩, rfl⟩)
  simp only [htrx.not_isExecutable, htrx.source, htrx.target, Bool.false_eq_true, if_false]
  exact (wp_spend_replays hoverflow hfee).mono fun _ _ h => .inr h

include hoverflow in
theorem wp_validateTransactionAsTarget_replays :
    Wp (validateTransactionAsTarget ctx trx) E
      (fun r t => r = .none ∧ KeepsLists ctx s t ∧
        Replays ctx s t [(ctx.toPublicKey trx.target, .credit trx.amount)]) s := by
  refine wp_getData_bind fun s0 hs0 hwallet => wp_balance_bind ?_
  refine wp_add_bind hoverflow fun newBalance hnew => ?_
  refine wp_setBalance_bind fun t hlists hbalance => .pure ⟨rfl, hs0.trans hlists, ?_⟩
  have hreplays : Replays ctx s0 t [(ctx.toPublicKey trx.target, .credit trx.amount)] :=
    replays_setBalance hnew hbalance
  exact hreplays.of_eq fun k => by rw [hwallet]

theorem wp_refuseInnerID {tail : TransactionsTail} (htrx : NoContract ctx trx) :
    Wp (refuseInnerID ctx trx i tail) E (fun r t => Refuses r ∧ t = s) s := by
  have hnot_isNewState := htrx.not_isNewState
  grind [refuseInnerID, Wp.pure, Refuses]

theorem wp_acceptAsSource (hi : i < s.trxList.length) :
    Wp (acceptAsSource ctx trx i key) E
      (fun r t => (ctx.isKnownSmartContract trx.source = true ∧ r = .negativeResult ∧ t = s) ∨
        (r = .none ∧ ∃ u, LinkedIn ctx u t key i ∧ u.trxList = s.trxList ∧
          u.maskIncluded = s.maskIncluded ∧ (∀ k, u.wallet ctx k = s.wallet ctx k) ∧
          ((u.negativeNodes = s.negativeNodes ∧ (SmartContracts.isNewState trx = true ∨
              (s.wallet ctx key).balance.ge 0 = true)) ∨
            u.negativeNodes = key :: s.negativeNodes))) s := by
  refine wp_balance_bind ?_
  refine .ite (fun hneg => ?_) fun hneg => ?_
  · refine .ite (fun hknown => ?_) fun hknown => ?_
    · exact .pure (.inl ⟨hknown, rfl, rfl⟩)
    refine .modify_bind (wp_linkTransaction_bind hi fun t ht => .pure (.inr ⟨rfl, _, ht, ?_⟩))
    exact ⟨rfl, rfl, fun k => rfl, .inr rfl⟩
  · refine wp_linkTransaction_bind hi fun t ht => .pure (.inr ⟨rfl, _, ht, ?_⟩)
    refine ⟨rfl, rfl, fun k => rfl, .inl ⟨rfl, ?_⟩⟩
    by_cases hnew : SmartContracts.isNewState trx = true
    · exact .inl hnew
    · refine .inr ?_
      simpa [Amount.ge, hnew] using hneg

/-- Nothing the proofs look at has changed. -/
structure Untouched (ctx : SolverContext) (s t : TransactionsValidator) : Prop where
  keepsLists : KeepsLists ctx s t
  wallet : ∀ k, t.wallet ctx k = s.wallet ctx k

theorem Untouched.refl : Untouched ctx s s := ⟨⟨rfl, rfl, rfl, fun _ => rfl⟩, fun _ => rfl⟩

/-- The wallet has spent the amount and the fee, and the transaction is entered in its list. -/
structure SentOff (ctx : SolverContext) (s t : TransactionsValidator) (i : ℕ) (trx : Transaction)
    (fee : Amount) : Prop where
  linkedIn : ∃ u, LinkedIn ctx u t (ctx.toPublicKey trx.source) i ∧
    u.maskIncluded = s.maskIncluded ∧
    u.trxList.length = s.trxList.length ∧ (∀ k, u.links ctx k = s.links ctx k)
  replays : Replays ctx s t [(ctx.toPublicKey trx.source, .debit trx.amount),
    (ctx.toPublicKey trx.source, .debit fee)]
  negativeNodes : (t.negativeNodes = s.negativeNodes ∧
      (t.wallet ctx (ctx.toPublicKey trx.source)).balance.ge 0 = true) ∨
    t.negativeNodes = ctx.toPublicKey trx.source :: s.negativeNodes

include hoverflow in
theorem wp_validateTransactionAsSource_replays
    (htrx : NoContract ctx trx) (hmaxFee : ∀ e, ctx.amount trx.maxFee = .error e → ∀ t, E e t)
    (hfee : ∀ e, ctx.amount trx.countedFee = .error e → ∀ t, E e t) (hi : i < s.trxList.length) :
    Wp (validateTransactionAsSource ctx trxs trx i) E
      (fun r t => (Refuses r ∧ Untouched ctx s t) ∨
        (r = .none ∧ ∃ fee, ctx.amount trx.countedFee = .ok fee ∧
          SentOff ctx s t i trx fee)) s := by
  set key := ctx.toPublicKey trx.source with hkey
  refine wp_getData_bind fun s0 hs0 hwallet => .get_bind ?_
  have huntouched : Untouched ctx s s0 := ⟨hs0, hwallet⟩
  refine .ite (fun hallowed => ?_) fun hallowed => ?_
  · refine (wp_refuseInnerID htrx).mono ?_
    rintro r t ⟨hr, rfl⟩
    exact .inl ⟨hr, huntouched⟩
  have hcheck : checkAsSource ctx trxs trx i key = validateCommonAsSource ctx trxs trx key := by
    simp only [checkAsSource, htrx.not_isNewState, Bool.false_eq_true, if_false]
  rw [hcheck]
  refine .bind (wp_validateCommonAsSource_replays hoverflow htrx hmaxFee hfee) ?_
  rintro r s1 (⟨hr, rfl⟩ | ⟨rfl, hs1, fee, hfee', hspent⟩)
  · rw [if_pos hr.1]
    exact .pure (.inl ⟨hr, huntouched⟩)
  have hlists := hs0.trans hs1
  refine (wp_acceptAsSource (by rw [hlists.trxList]; exact hi)).mono ?_
  rintro r t (⟨hknown, -⟩ | ⟨hr, u, hu, hlist, hmask, hwalletU, hneg⟩)
  · rw [htrx.source] at hknown
    cases hknown
  simp only [htrx.not_isNewState, Bool.false_eq_true, false_or] at hneg
  have hbalance : ∀ k, (t.wallet ctx k).balance = (s1.wallet ctx k).balance := fun k => by
    rw [hu.balance, hwalletU]
  refine .inr ⟨hr, fee, hfee', ⟨u, hu, hmask.trans hlists.maskIncluded, ?_, fun k => ?_⟩, ?_, ?_⟩
  · rw [hlist, hlists.trxList]
  · rw [← hlists.links k]
    exact links_congr hlist (by rw [hwalletU])
  · exact (hspent.of_eq fun k => by rw [hwallet]).congr hbalance
  · rw [hu.negativeNodes, hbalance, ← hlists.negativeNodes]
    exact hneg

theorem SentOff.booked {t' : TransactionsValidator}
    (hproper : ∀ k, (s.wallet ctx k).balance.Proper) (hamount : trx.amount.Proper)
    (hfee : fee.Proper) (h : SentOff ctx s t' i trx fee) (hlists : KeepsLists ctx t' t)
    (hreplays : Replays ctx s t (entering ctx trx fee)) : Booked ctx s t i trx fee.value := by
  have hmoves : ∀ e ∈ entering ctx trx fee, e.2.amount.Proper := by
    unfold entering
    simp only [forall_mem_cons]
    exact ⟨hamount, hfee, hamount, forall_mem_nil _⟩
  obtain ⟨u, hlinked, hmask, hlength, hulinks⟩ := h.linkedIn
  refine ⟨hlinked.enlisted hmask hlength hulinks hlists, hreplays.proper hproper hmoves,
    fun k => ?_⟩
  rw [hreplays.value hproper hmoves]
  grind [entering, ofAccount_cons, ofAccount_nil, Movement.value]

theorem SentOff.pays (hproper : ∀ k, (s.wallet ctx k).balance.Proper) (hamount : trx.amount.Proper)
    (hfee : fee.Proper) (h : SentOff ctx s t i trx fee) :
    (t.negativeNodes = s.negativeNodes ∧ trx.amount.value + fee.value ≤
        (s.wallet ctx (ctx.toPublicKey trx.source)).balance.value) ∨
      t.negativeNodes = ctx.toPublicKey trx.source :: s.negativeNodes := by
  set key := ctx.toPublicKey trx.source
  have hmoves : ∀ e ∈ [(key, Movement.debit trx.amount), (key, .debit fee)], e.2.amount.Proper := by
    simp only [forall_mem_cons]
    exact ⟨hamount, hfee, forall_mem_nil _⟩
  refine h.negativeNodes.imp (fun hsame => ⟨hsame.1, ?_⟩) id
  have hreplays : Replays ctx s t [(key, .debit trx.amount), (key, .debit fee)] := h.replays
  have hnonneg := Amount.value_nonneg_of_ge_zero hsame.2
  rw [hreplays.value hproper hmoves] at hnonneg
  grind [ofAccount_cons, ofAccount_nil, Movement.value]

theorem wp_validateTransaction_replays
    (hoverflow : ∀ t, E .overflow t) (htrx : NoContract ctx trx) (hget : trxs[i]? = some trx)
    (hmaxFee : ∀ e, ctx.amount trx.maxFee = .error e → ∀ t, E e t)
    (hfee : ∀ e, ctx.amount trx.countedFee = .error e → ∀ t, E e t)
    (hamount : trx.amount.Proper) (hfeeProper : ∀ a, ctx.amount trx.countedFee = .ok a → a.Proper)
    (hproper : ∀ k, (s.wallet ctx k).balance.Proper) (hi : i < s.trxList.length) :
    Wp (validateTransaction ctx trxs i) E
      (fun r t => (Refuses r ∧ Untouched ctx s t) ∨
        (r = .none ∧ ∃ fee, ctx.amount trx.countedFee = .ok fee ∧
          Booked ctx s t i trx fee.value ∧ Replays ctx s t (entering ctx trx fee) ∧
          ((t.negativeNodes = s.negativeNodes ∧ trx.amount.value + fee.value ≤
              (s.wallet ctx (ctx.toPublicKey trx.source)).balance.value) ∨
            t.negativeNodes = ctx.toPublicKey trx.source :: s.negativeNodes))) s := by
  refine .lift_ok_bind (b := trx) (by rw [transactionAt, hget]) ?_
  refine .bind (wp_validateTransactionAsSource_replays hoverflow htrx hmaxFee hfee hi) ?_
  rintro r t (⟨hr, ht⟩ | ⟨rfl, fee, hfee', hsent⟩)
  · rw [if_neg hr.1]
    exact .pure (.inl ⟨hr, ht⟩)
  refine (wp_validateTransactionAsTarget_replays hoverflow).mono ?_
  rintro r u ⟨hr, hlists, hcredited⟩
  have hreplays : Replays ctx s u (entering ctx trx fee) := hsent.replays.append hcredited
  have hfeeProper' := hfeeProper fee hfee'
  refine .inr ⟨hr, fee, hfee', hsent.booked hproper hamount hfeeProper' hlists hreplays,
    hreplays, ?_⟩
  rw [hlists.negativeNodes]
  exact hsent.pays hproper hamount hfeeProper'

theorem wp_validateTransaction (hplain : PlainTransfer ctx trx) (htrx : trxs[i]? = some trx)
    (hfee : ctx.toAmount trx.countedFee = some fee) (hfeeProper : fee.Proper)
    (hproper : ∀ k, (s.wallet ctx k).balance.Proper) (hi : i < s.trxList.length) :
    Wp (validateTransaction ctx trxs i) (fun e _ => e = .overflow)
      (fun r t => (r ≠ .none ∧ Untouched ctx s t) ∨
        (r = .none ∧ Entered ctx s t i trx fee.value)) s := by
  obtain ⟨maxFee, hmaxFee, -, -⟩ := hplain.maxFee
  have hconverted : ∀ {c a}, ctx.toAmount c = some a → ctx.amount c = .ok a := fun h => by
    rw [SolverContext.amount, h]
    rfl
  refine (wp_validateTransaction_replays (fun _ => rfl) hplain.toNoContract htrx (fun e he => ?_)
    (fun e he => ?_) hplain.amount.1.proper (fun a ha => ?_) hproper hi).mono ?_
  · rw [hconverted hmaxFee] at he
    cases he
  · rw [hconverted hfee] at he
    cases he
  · rw [hconverted hfee] at ha
    cases ha
    exact hfeeProper
  · rintro r t (⟨hr, ht⟩ | ⟨hr, fee', hfee', hbooked, -, hneg⟩)
    · exact .inl ⟨hr.1, ht⟩
    rw [hconverted hfee] at hfee'
    cases hfee'
    refine .inr ⟨hr, hbooked, hneg.imp (fun h => ⟨h.1, ?_⟩) id⟩
    rw [hbooked.value, if_pos rfl]
    have := hplain.amount.2
    split_ifs <;> linarith [h.2]

end Enter

end CreditsNode.TransactionsValidator
