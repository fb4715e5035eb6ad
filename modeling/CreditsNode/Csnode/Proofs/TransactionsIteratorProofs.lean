import CreditsNode.Csnode.Proofs.TransactionsIndexProofs
import CreditsNode.Csnode.Proofs.ChainLinkageProofs
import Mathlib.Data.List.TakeWhile

/-!
# The history of an address

Going back along the links, the iterator stands at one transaction of the address after the other,
and comes to an end after the oldest one.
-/

namespace CreditsNode.IndexedChain

open ByteCodec Effect BackLinks List TransactionsIterator

open WalletsIds WalletsCache.Updater

/-- What is in front of an iterator. -/
inductive Denotes (c : IndexedChain) (key : PublicKey) (i : TransactionsIterator) :
    List Transaction → Prop
  | done : i.lapoo.isValid = false → Denotes c key i []
  | inBlock {b : Nat} {pool : Pool} {front back : List Transaction} {tr : Transaction} :
      c.blocks[b]? = some pool → pool.transactions = front ++ tr :: back →
      involves c.walletIds key tr = true → i.addr = .publicKey key → i.lapoo = pool →
      i.it = tr :: front.reverse →
      Denotes c key i (tr :: ((front.filter (involves c.walletIds key)).reverse
        ++ recent (involves c.walletIds key) c.transactions b))

namespace Indexed

variable {c : IndexedChain} (h : c.Indexed)

include h

variable {pool : Pool} {tr : Transaction} {b fuel : Nat} {key : PublicKey}
  {i : TransactionsIterator}

theorem touches_publicKey (hpool : pool ∈ c.blocks)
    (htr : tr ∈ pool.transactions) (key : PublicKey) :
    touches c (.publicKey key) tr = involves c.walletIds key tr := by
  have hkey : c.Known (.publicKey key) := trivial
  exact touches_eq_involves h.ids hkey (h.known pool hpool tr htr)

theorem exists_block (hb : b < c.blocks.length) : ∃ pool, c.blocks[b]? = some pool ∧
    pool.isValid = true ∧ pool.sequence = UInt64.ofNat b ∧ c.loadBlock (UInt64.ofNat b) = pool := by
  obtain ⟨pool, hget⟩ : ∃ pool, c.blocks[b]? = some pool := ⟨_, List.getElem?_eq_getElem hb⟩
  obtain ⟨hvalid, hsequence⟩ := h.valid b pool hget
  refine ⟨pool, hget, hvalid, ?_, ?_⟩
  · rw [← hsequence, UInt64.ofNat_toNat]
  · simp [loadBlock, UInt64.toNat_ofNat_of_lt' (hb.trans h.size), hget]

theorem loadBlock_wrong : (c.loadBlock kWrongSequence).isValid = false := by
  have hwrong : kWrongSequence.toNat = 2 ^ 64 - 1 := by decide
  have hsize := h.size
  unfold loadBlock
  rw [List.getD_eq_getElem?_getD, List.getElem?_eq_none (by omega)]
  rfl

theorem ofNat_ne_wrong (hb : b < c.blocks.length) : UInt64.ofNat b ≠ kWrongSequence := by
  intro heq
  have hnat := congrArg UInt64.toNat heq
  have hwrong : kWrongSequence.toNat = 2 ^ 64 - 1 := by decide
  have hsize := h.size
  rw [UInt64.toNat_ofNat_of_lt' (hb.trans h.size), hwrong] at hnat
  omega

theorem getPreviousPoolSeq_eq (hb : b < c.blocks.length)
    (hany : (c.transactions.getD b []).any (involves c.walletIds key) = true) :
    c.getPreviousPoolSeq (.publicKey key) (UInt64.ofNat b)
      = linkTo (lastBefore (involves c.walletIds key) c.transactions b) := by
  have hprev : c.getPrevTransBlock (.publicKey key) (UInt64.ofNat b)
      = linkTo (lastBefore (involves c.walletIds key) c.transactions b) := by
    show (c.trxIndex.db.lookup (getTrxIndexKey key (UInt64.ofNat b))).getD kWrongSequence = _
    rw [h.links key b hb hany]
    rfl
  unfold getPreviousPoolSeq
  rw [hprev]
  refine if_neg (linkTo_ne (h.ofNat_ne_wrong hb) fun b' hb' => ?_)
  rw [UInt64.toNat_ofNat_of_lt' (hb.trans h.size)]
  exact (recent_of_lastBefore_some hb').1

theorem next_inBlock {front middle back : List Transaction}
    {x : Transaction} (hget : c.blocks[b]? = some pool)
    (hsplit : pool.transactions = front ++ tr :: (middle ++ x :: back))
    (htr : involves c.walletIds key tr = true)
    (hmiddle : ∀ y ∈ middle, involves c.walletIds key y = false) (haddr : i.addr = .publicKey key)
    (hit : i.it = x :: (front ++ tr :: middle).reverse) (fuel : Nat) :
    i.next c (fuel + 1) = .ok { i with it := tr :: front.reverse } := by
  have hpool := mem_of_getElem? hget
  have htouches : ∀ y ∈ pool.transactions, TransactionsIterator.touches c i.addr y
      = involves c.walletIds key y := by
    intro y hy
    rw [haddr, h.touches_publicKey hpool hy]
  have hskip : (front ++ tr :: middle).reverse.dropWhile
      (fun y => !TransactionsIterator.touches c i.addr y) = tr :: front.reverse := by
    simp_all
  unfold TransactionsIterator.next
  rw [hit]
  dsimp only
  rw [hskip]

theorem next_link {front back : List Transaction} (hget : c.blocks[b]? = some pool)
    (hsplit : pool.transactions = front ++ tr :: back) (htr : involves c.walletIds key tr = true)
    (hfront : ∀ y ∈ front, involves c.walletIds key y = false) (haddr : i.addr = .publicKey key)
    (hlapoo : i.lapoo = pool) (hit : i.it = tr :: front.reverse) (fuel : Nat) :
    ∃ i', i.next c (fuel + 2) = .ok i' ∧
      Denotes c key i' (recent (involves c.walletIds key) c.transactions b) := by
  have hb := (List.getElem?_eq_some_iff.mp hget).1
  have hpool := mem_of_getElem? hget
  obtain ⟨-, hseq⟩ := h.valid b pool hget
  have hany : (c.transactions.getD b []).any (involves c.walletIds key) = true := by
    rw [getD_transactions hget, any_eq_true]
    exact ⟨tr, by simp [hsplit], htr⟩
  have hskip : front.reverse.dropWhile
      (fun y => !TransactionsIterator.touches c i.addr y) = [] := by
    rw [dropWhile_eq_nil_iff]
    intro y hy
    have hy := mem_reverse.mp hy
    rw [haddr, h.touches_publicKey hpool (by simp [hsplit, hy]), hfront y hy]
    rfl
  have hprev : c.getPreviousPoolSeq i.addr i.lapoo.sequence
      = linkTo (lastBefore (involves c.walletIds key) c.transactions b) := by
    rw [haddr, hlapoo, ← UInt64.ofNat_toNat (x := pool.sequence), hseq]
    exact h.getPreviousPoolSeq_eq hb hany
  unfold TransactionsIterator.next
  rw [hit]
  dsimp only
  rw [hskip]
  dsimp only
  rw [hprev]
  cases hbefore : lastBefore (involves c.walletIds key) c.transactions b with
  | none =>
    have hinvalid : (c.loadBlock (linkTo none)).isValid = false := h.loadBlock_wrong
    have hempty : TransactionsIterator.skipEmpty c i.addr (fuel + 1) (c.loadBlock (linkTo none))
        = .ok (c.loadBlock (linkTo none)) := by
      unfold TransactionsIterator.skipEmpty
      rw [hinvalid]
      rfl
    rw [hempty, recent_of_lastBefore_none hbefore, ok_bind]
    rw [if_neg (by simp [hinvalid])]
    exact ⟨_, rfl, .done hinvalid⟩
  | some b' =>
    obtain ⟨hlt, hany', hrecent⟩ := recent_of_lastBefore_some hbefore
    obtain ⟨pool', hget', hvalid', -, hload'⟩ := h.exists_block (hlt.trans hb)
    rw [getD_transactions hget'] at hany' hrecent
    obtain ⟨front', tr', back', hsplit', htr', hback'⟩ := exists_last_of_any hany'
    have hempty : TransactionsIterator.skipEmpty c i.addr (fuel + 1) pool' = .ok pool' := by
      unfold TransactionsIterator.skipEmpty
      rw [if_neg (by simp [hsplit'])]
    have hlist : recent (involves c.walletIds key) c.transactions b
        = tr' :: ((front'.filter (involves c.walletIds key)).reverse
          ++ recent (involves c.walletIds key) c.transactions b') := by
      simp_all
    rw [linkTo, hload', hempty, hlist, ok_bind]
    rw [if_pos hvalid']
    -- the newest transaction of the block is one of the key, or `next` is called once more
    rcases eq_nil_or_concat back' with rfl | ⟨middle, x, rfl⟩
    · have hit' : pool'.transactions.reverse = tr' :: front'.reverse := by
        rw [hsplit', reverse_append]
        rfl
      rw [hit']
      dsimp only [TransactionsIterator.current]
      rw [ok_bind, haddr, h.touches_publicKey (mem_of_getElem? hget') (by simp [hsplit']), htr']
      exact ⟨_, rfl, .inBlock hget' hsplit' htr' rfl rfl rfl⟩
    · have hsplit'' : pool'.transactions = front' ++ tr' :: (middle ++ x :: []) := by
        rw [hsplit', concat_eq_append]
      have hit' : pool'.transactions.reverse = x :: (front' ++ tr' :: middle).reverse := by
        rw [hsplit'']
        simp
      have hmem : x ∈ middle.concat x := by simp
      rw [hit']
      dsimp only [TransactionsIterator.current]
      rw [ok_bind, haddr, h.touches_publicKey (mem_of_getElem? hget') (by simp [hsplit']),
        hback' x hmem, Bool.not_false, if_pos rfl]
      refine ⟨_, h.next_inBlock hget' hsplit'' htr'
        (fun y hy => hback' y (by simp [hy])) rfl rfl fuel, .inBlock hget' hsplit' htr' rfl rfl rfl⟩

theorem next_spec {rest : List Transaction} (hi : Denotes c key i (tr :: rest)) (hfuel : 2 ≤ fuel) :
    i.isValid = true ∧ i.current = .ok tr ∧
      ∃ i', i.next c fuel = .ok i' ∧ Denotes c key i' rest := by
  obtain ⟨fuel, rfl⟩ := Nat.exists_eq_add_of_le' hfuel
  cases hi with
  | @inBlock b pool front back tr hget hsplit htr haddr hlapoo hit =>
    refine ⟨?_, ?_, ?_⟩
    · unfold isValid
      rw [hlapoo]
      exact (h.valid b pool hget).1
    · unfold current
      rw [hit]
    · by_cases hany : front.any (involves c.walletIds key) = true
      · obtain ⟨front', tr', middle, rfl, htr', hmiddle⟩ := exists_last_of_any hany
        have hsplit' : pool.transactions = front' ++ tr' :: (middle ++ tr :: back) := by
          rw [hsplit, append_assoc]
          rfl
        have hlist : ((front' ++ tr' :: middle).filter (involves c.walletIds key)).reverse
            = tr' :: (front'.filter (involves c.walletIds key)).reverse := by
          simp_all
        rw [hlist, cons_append]
        exact ⟨_, h.next_inBlock hget hsplit' htr' hmiddle haddr hit _,
          .inBlock hget hsplit' htr' haddr hlapoo rfl⟩
      · have hfront : ∀ y ∈ front, involves c.walletIds key y = false := by
          intro y hy
          rw [← Bool.not_eq_true]
          exact fun hp => hany (any_eq_true.mpr ⟨y, hy, hp⟩)
        rw [filter_eq_nil_of_any hany]
        exact h.next_link hget hsplit htr hfront haddr hlapoo hit fuel

omit h in
theorem Denotes.isValid_of_nil (hi : Denotes c key i []) : i.isValid = false := by
  cases hi with
  | done hinvalid => exact hinvalid

theorem rest_eq (hfuel : 2 ≤ fuel) {trs : List Transaction}
    (hi : Denotes c key i trs) {steps : Nat} (hsteps : trs.length < steps) :
    rest c fuel steps i = .ok trs := by
  induction trs generalizing i steps with
  | nil =>
    obtain ⟨steps, rfl⟩ := Nat.exists_eq_add_of_lt hsteps
    unfold rest
    rw [Denotes.isValid_of_nil hi]
    rfl
  | cons tr trs ih =>
    obtain ⟨steps, rfl⟩ := Nat.exists_eq_succ_of_ne_zero (Nat.ne_zero_of_lt hsteps)
    obtain ⟨hvalid, hcurrent, i', hnext, hi'⟩ := h.next_spec hi hfuel
    simp [rest, hvalid, hcurrent, ok_bind, hnext,
      ih hi' (Nat.lt_of_succ_lt_succ hsteps)]

omit h in
theorem toNat_pred {n : UInt64} (hn : 0 < n.toNat) : n.toNat = (n - 1).toNat + 1 := by
  grind [UInt64.le_iff_toNat_le, UInt64.toNat_sub_of_le]

theorem getTransactionsFrom_eq (hfuel : 2 ≤ fuel)
    {trs : List Transaction} (hi : Denotes c key i trs) {steps : Nat}
    (hsteps : trs.length < steps) (offset : UInt64) {limit : UInt64} (hlimit : limit ≠ 0) :
    c.getTransactionsFrom fuel steps i offset limit
      = .ok ((trs.drop offset.toNat).take limit.toNat) := by
  induction trs generalizing i steps offset limit with
  | nil =>
    obtain ⟨steps, rfl⟩ := Nat.exists_eq_add_of_lt hsteps
    unfold getTransactionsFrom
    rw [Denotes.isValid_of_nil hi, drop_nil, take_nil]
    rfl
  | cons tr trs ih =>
    obtain ⟨steps, rfl⟩ := Nat.exists_eq_succ_of_ne_zero (Nat.ne_zero_of_lt hsteps)
    have hsteps' := Nat.lt_of_succ_lt_succ hsteps
    obtain ⟨hvalid, hcurrent, i', hnext, hi'⟩ := h.next_spec hi hfuel
    unfold getTransactionsFrom
    rw [hvalid, hcurrent]
    by_cases hoffset : offset > 0
    · grind [toNat_pred, ok_bind, UInt64.lt_iff_toNat_lt]
    · have hzero : offset.toNat = 0 := by
        refine Nat.eq_zero_of_not_pos fun hlt => hoffset ?_
        exact UInt64.lt_iff_toNat_lt.mpr hlt
      have hpos := toNat_pred (Nat.pos_of_ne_zero fun heq => hlimit (UInt64.toNat_inj.mp heq))
      rw [if_neg hoffset, hzero, drop_zero, ok_bind, hpos, take_succ_cons]
      by_cases hlast : limit - 1 = 0
      · rw [if_pos hlast, hlast]
        rfl
      · rw [if_neg hlast, hnext, ok_bind, ih hi' hsteps' _ hlast, hzero, drop_zero]
        rfl

theorem new_spec {address : Address} (haddress : c.Known address) :
    ∃ i, TransactionsIterator.new c address = .ok i ∧
      Denotes c (c.walletIds.toPublicKey address) i
        (recent (involves c.walletIds (c.walletIds.toPublicKey address)) c.transactions
          c.blocks.length) := by
  have haddr := getAddressByType_of_known h.ids haddress
  have hlast : c.getLastTransaction address
      = c.wallets.last (c.walletIds.toPublicKey address) := by
    rw [← getLastTransaction_publicKey]
    unfold getLastTransaction
    rw [haddr]
    rfl
  unfold TransactionsIterator.new
  rw [haddr, hlast]
  rcases h.newest (c.walletIds.toPublicKey address) with
    ⟨hnew, hnone⟩ | ⟨b, front, tr, hb, hfront, hnewest, hnew⟩
  · rw [hnew, recent_of_lastBefore_none hnone]
    exact ⟨_, rfl, .done rfl⟩
  · obtain ⟨pool, hget, hvalid, -, hload⟩ := h.exists_block hb
    obtain ⟨back, hblock, -⟩ := hnewest.block
    rw [getD_transactions hget] at hblock
    have hid : TransactionID.isValid ⟨UInt64.ofNat b, UInt64.ofNat front.length⟩ = true :=
      decide_eq_true (h.ofNat_ne_wrong hb)
    have hindex : (UInt64.ofNat front.length).toNat < pool.transactions.length := by
      rw [UInt64.toNat_ofNat_of_lt' hfront, hblock, length_append]
      simp
    have hit : pool.transactions.reverse.drop
        (pool.transactions.length - (UInt64.ofNat front.length).toNat - 1) =
          tr :: front.reverse := by
      simp [UInt64.toNat_ofNat_of_lt' hfront, hblock]
    rw [hnew, if_pos hid, hload, if_pos hindex, hit, hnewest.recent hb]
    exact ⟨_, rfl, .inBlock hget hblock hnewest.holds rfl rfl rfl⟩

theorem history_eq {address : Address} (haddress : c.Known address) :
    c.history address = recent (involves c.walletIds (c.walletIds.toPublicKey address))
      c.transactions c.blocks.length := by
  have hfilter : (c.blocks.flatMap Pool.transactions).filter
      (touches c address)
      = c.transactions.flatten.filter
        (involves c.walletIds (c.walletIds.toPublicKey address)) := by
    refine filter_congr fun tr htr => ?_
    obtain ⟨pool, hpool, htr⟩ := mem_flatMap.mp htr
    exact touches_eq_involves h.ids haddress (h.known pool hpool tr htr)
  unfold history recent
  rw [hfilter, take_of_length_le (by rw [length_transactions])]

end Indexed

/-- On every chain of regular blocks the iterator of a known address goes through the transactions
that the address has sent or received, newest first, and `getTransactions` returns a part of
them. -/
theorem getTransactions_eq_history {env : ChainEnv} {recreate : Bool} {c : IndexedChain}
    (h : Built env recreate Regular c) {address : Address} (haddress : c.Known address) {fuel : Nat}
    (hfuel : (c.history address).length + 2 ≤ fuel) :
    c.enumerate fuel address = .ok (c.history address) ∧
      ∀ offset limit : UInt64, 1 ≤ limit → c.getTransactions fuel address offset limit
        = .ok (((c.history address).drop offset.toNat).take limit.toNat) := by
  have hindexed := h.indexed
  obtain ⟨i, hnew, hi⟩ := hindexed.new_spec haddress
  rw [← hindexed.history_eq haddress] at hi
  have htwo : 2 ≤ fuel := by omega
  have hsteps : (c.history address).length < fuel := by omega
  constructor
  · unfold enumerate
    rw [hnew, ok_bind]
    exact hindexed.rest_eq htwo hi hsteps
  · intro offset limit hlimit
    have hne : limit ≠ 0 := fun heq => absurd (heq ▸ hlimit) (by decide)
    unfold getTransactions
    rw [hnew, ok_bind]
    exact hindexed.getTransactionsFrom_eq htwo hi hsteps offset hne

section Sample

open BlockChain

/-- A transaction of one wallet to another. -/
def demoSent (id : TransactionID) (fields : List (UserFieldId × UserField)) : Transaction :=
  { sampleTransfer 1 2 0 with id, userFields := .ofEntries fields }

def demoPool (sequence : Sequence) (trs : List Transaction) : Pool :=
  { demoBlock sequence none with transactions := trs }

def demoApplied (pool : Pool) (c : IndexedChain) : IndexedChain × Bool :=
  match applyBlock demoEnv pool c with
  | .ok _ d => (d, true)
  | .error _ d => (d, false)

theorem built_demoApplied {P : IndexedChain → Pool → Prop} {c : IndexedChain} {pool : Pool}
    (hc : Built demoEnv false P c) (happends : c.Appends pool) (hP : P c pool)
    (happlied : (demoApplied pool c).2 = true) : Built demoEnv false P (demoApplied pool c).1 := by
  refine .block hc happends hP ?_
  unfold demoApplied at happlied ⊢
  split at happlied
  · next h => exact h
  · cases happlied

theorem regular_demoPool (c : IndexedChain) (sequence : Sequence) (ids : List TransactionID) :
    Regular c (demoPool sequence (ids.map (demoSent · []))) := by
  intro tr htr
  obtain ⟨id, -, rfl⟩ := mem_map.mp htr
  have hplain : SmartContracts.isExecutable (demoSent id []) = false := rfl
  exact ⟨trivial, trivial, by simp [hplain]⟩

def demoFirst : Pool := demoPool 0 [demoSent ⟨0, 0⟩ [], demoSent ⟨0, 1⟩ []]

def demoSecond : Pool := demoPool 1 [demoSent ⟨1, 0⟩ []]

/-- The address has sent two transactions in one block and one in the next. -/
theorem getTransactions_demo : ∃ c, Built demoEnv false Regular c ∧
    c.enumerate 5 (sampleAddress 1) =
      .ok [demoSent ⟨1, 0⟩ [], demoSent ⟨0, 1⟩ [], demoSent ⟨0, 0⟩ []] ∧
    c.getTransactions 5 (sampleAddress 1) 1 1 = .ok [demoSent ⟨0, 1⟩ []] := by
  have hfirst : Built demoEnv false Regular (demoApplied demoFirst (.new false)).1 := by
    refine built_demoApplied .new ⟨rfl, rfl, by decide, by decide, fun i tr hget => ?_⟩
      (regular_demoPool _ 0 [⟨0, 0⟩, ⟨0, 1⟩]) (by decide +kernel)
    match i, hget with
    | 0, rfl => rfl
    | 1, rfl => rfl
  have hblocks : (demoApplied demoFirst (.new false)).1.blocks.length = 1 := by decide +kernel
  have happlied : (demoApplied demoSecond (demoApplied demoFirst (.new false)).1).2 = true := by
    decide +kernel
  have hhistory : (demoApplied demoSecond (demoApplied demoFirst (.new false)).1).1.history
      (sampleAddress 1) = [demoSent ⟨1, 0⟩ [], demoSent ⟨0, 1⟩ [], demoSent ⟨0, 0⟩ []] := by
    decide +kernel
  generalize (demoApplied demoFirst (.new false)).1 = c at *
  have hsecond : Built demoEnv false Regular (demoApplied demoSecond c).1 := by
    refine built_demoApplied hfirst ⟨rfl, hblocks.symm, by decide, by decide, fun i tr hget => ?_⟩
      (regular_demoPool _ 1 [⟨1, 0⟩]) happlied
    match i, hget with
    | 0, rfl => rfl
  have hknown : (demoApplied demoSecond c).1.Known (sampleAddress 1) := trivial
  have hfuel : ((demoApplied demoSecond c).1.history (sampleAddress 1)).length + 2 ≤ 5 := by
    rw [hhistory]
    decide
  obtain ⟨henumerate, hpart⟩ := getTransactions_eq_history hsecond hknown hfuel
  rw [hhistory] at henumerate hpart
  exact ⟨_, hsecond, henumerate, hpart 1 1 (by decide)⟩

def demoBoth : List (UserFieldId × UserField) :=
  [(TrxUf.deployCode, .string []), (TrxUf.newStateRefStart, .string []),
    (TrxUf.newStateHash, .string [])]

/-- The sender of a transaction that is both an execution and a new state does not find it. -/
theorem enumerate_misses_sent : ∃ c, Built demoEnv false (fun _ _ => True) c ∧
    c.Known (sampleAddress 1) ∧ c.history (sampleAddress 1) = [demoSent ⟨0, 0⟩ demoBoth] ∧
    ∀ fuel, c.enumerate (fuel + 1) (sampleAddress 1) = .ok [] := by
  have happends : Appends (.new false) (demoPool 0 [demoSent ⟨0, 0⟩ demoBoth]) := by
    refine ⟨rfl, rfl, by decide, by decide, fun i tr hget => ?_⟩
    match i, hget with
    | 0, rfl => rfl
  have happlied : (demoApplied (demoPool 0 [demoSent ⟨0, 0⟩ demoBoth]) (.new false)).2 = true := by
    decide +kernel
  exact ⟨_, built_demoApplied .new happends trivial happlied, trivial, by decide +kernel,
    fun _ => rfl⟩

end Sample

end CreditsNode.IndexedChain
