import CreditsNode.Csnode.TransactionsIndex
import CreditsNode.Csnode.Proofs.LastTransactionProofs
import CreditsNode.Csnode.Proofs.WalletsIdsProofs
import CreditsNode.Lib.BackLinks

/-!
# What the index has after every block

For every key, the index has a link from each block with a transaction of the key to the last one
before it, and the wallets cache has the newest transaction of the key. New numbers of wallets
change nothing of this.
-/

namespace CreditsNode

open ByteCodec Effect BackLinks List

namespace WalletsIds

/-- More wallets have numbers. -/
def Grows (ids ids' : WalletsIds) : Prop := ids'.WellFormed ∧ ids.data ⊆ ids'.data

variable {ids ids' : WalletsIds} {address : Address} {id : WalletId}

theorem WellFormed.entered (h : ids.WellFormed)
    (hfresh : ¬ ids.Refuses address id) : ids.Grows (ids.entered address id) :=
  ⟨h.cons hfresh _, subset_cons_self _ _⟩

theorem WellFormed.insert (h : ids.WellFormed)
    {r : Bool} (hrun : WalletsIds.insert address id ids = .ok r ids') : ids.Grows ids' := by
  obtain ⟨-, -, rfl⟩ | ⟨-, hfresh, -, rfl⟩ := Wp.of_ok (wp_insert ids address id) hrun
  · exact ⟨h, List.Subset.refl _⟩
  · exact h.entered hfresh

theorem WellFormed.getId (h : ids.WellFormed)
    {r : WalletId × Bool} (hrun : WalletsIds.getId address ids = .ok r ids') : ids.Grows ids' := by
  obtain ⟨-, -, rfl⟩ | ⟨-, hfresh, -, rfl⟩ := Wp.of_ok (wp_getId ids address) hrun
  · exact ⟨h, List.Subset.refl _⟩
  · exact h.entered hfresh

theorem Grows.findaddr (h : ids.WellFormed) (hgrows : ids.Grows ids')
    (hfind : ids.findaddr id = some address) : ids'.findaddr id = some address :=
  hgrows.1.findaddr_eq.mpr (hgrows.2 (h.findaddr_eq.mp hfind))

end WalletsIds

namespace IndexedChain

open WalletsIds WalletsCache.Updater

variable {c : IndexedChain} {addr : Address} {key : PublicKey} {pool : Pool} {env : ChainEnv}

theorem getAddressByType_of_known (hids : c.walletIds.WellFormed)
    (h : c.Known addr) : c.getAddressByType addr = .publicKey (c.walletIds.toPublicKey addr) := by
  cases addr with
  | publicKey key => rfl
  | walletId id =>
    obtain ⟨address, hfind⟩ := Option.isSome_iff_exists.mp h
    have hkey := hids.publicKey _ (hids.findaddr_eq.mp hfind)
    cases address with
    | publicKey key => simp [getAddressByType, WalletsIds.toPublicKey, hfind, Address.toPublicKey]
    | walletId i => cases hkey

theorem Known.grows {ids : WalletsIds}
    (hids : c.walletIds.WellFormed) (hgrows : c.walletIds.Grows ids) (h : c.Known addr) :
    ids.toPublicKey addr = c.walletIds.toPublicKey addr ∧
      Known { c with walletIds := ids } addr := by
  cases addr with
  | publicKey key => exact ⟨rfl, trivial⟩
  | walletId id =>
    obtain ⟨address, hfind⟩ := Option.isSome_iff_exists.mp h
    have hfind' := hgrows.findaddr hids hfind
    exact ⟨by simp only [WalletsIds.toPublicKey, hfind, hfind'],
      Option.isSome_iff_exists.mpr ⟨address, hfind'⟩⟩

theorem touches_eq_involves (hids : c.walletIds.WellFormed)
    (haddr : c.Known addr) {tr : Transaction} (htr : c.Known tr.source ∧ c.Known tr.target) :
    TransactionsIterator.touches c addr tr
      = involves c.walletIds (c.walletIds.toPublicKey addr) tr := by
  grind [TransactionsIterator.touches, isEqual, involves, getAddressByType_of_known]

theorem getLastTransaction_publicKey (c : IndexedChain) (key : PublicKey) :
    c.getLastTransaction (.publicKey key) = c.wallets.last key := by
  unfold getLastTransaction WalletsCache.last WalletsCache.wallet
  cases h : c.wallets.findWallet key <;>
    simp only [getAddressByType, Address.toPublicKey, h] <;> rfl

theorem getTrxIndexKey_inj {key' : PublicKey} {seq seq' : Sequence}
    (h : getTrxIndexKey key seq = getTrxIndexKey key' seq') : key = key' ∧ seq = seq' := by
  obtain ⟨hkey, hseq⟩ := append_inj h (by simp)
  grind [putU64, leNat_leBytes, List.Vector.toList_injective, UInt64.toNat_inj, UInt64.toNat_lt]

def linkTo : Option Nat → Sequence
  | none => kWrongSequence
  | some b => UInt64.ofNat b

def lapoo (c : IndexedChain) (key : Address) : Sequence :=
  if c.trxIndex.recreate then (c.trxIndex.lapoos.lookup key).getD kWrongSequence
  else (c.getLastTransaction key).poolSeq

/-- The index in the middle of a block, when the addresses with these keys have been handled. -/
structure Filed (c : IndexedChain) (pool : Pool) (index : TransactionsIndex) (done : List Address) :
    Prop where
  recreate : index.recreate = c.trxIndex.recreate
  hit : ∀ key, .publicKey key ∈ done →
    index.db.lookup (getTrxIndexKey key pool.sequence) = some (c.lapoo (.publicKey key))
  miss : ∀ key seq, (seq = pool.sequence → .publicKey key ∉ done) →
    index.db.lookup (getTrxIndexKey key seq) = c.trxIndex.db.lookup (getTrxIndexKey key seq)
  lapoos : c.trxIndex.recreate = true → ∀ key, index.lapoos.lookup key
    = if key ∈ done then some pool.sequence else c.trxIndex.lapoos.lookup key

theorem filed_start (c : IndexedChain) (pool : Pool) : Filed c pool c.trxIndex [] :=
  ⟨rfl, nofun, fun _ _ _ => rfl, fun _ _ => rfl⟩

theorem Filed.lapoo_eq {index : TransactionsIndex}
    {done : List Address} (h : Filed c pool index done) {key : Address} (hkey : key ∉ done) :
    (if index.recreate then (index.lapoos.lookup key).getD kWrongSequence
      else (c.getLastTransaction key).poolSeq) = c.lapoo key := by
  have hlapoos := h.lapoos
  unfold lapoo
  grind [h.recreate]

theorem Filed.indexAddress
    {state : TransactionsIndex × List Address} (h : Filed c pool state.1 state.2)
    (haddr : c.getAddressByType addr = .publicKey key)
    (hlapoo : c.lapoo (.publicKey key) ≠ pool.sequence) :
    Filed c pool (c.indexAddress pool state addr).1 (c.indexAddress pool state addr).2 ∧
      ∀ a, a ∈ (c.indexAddress pool state addr).2 ↔ a = .publicKey key ∨ a ∈ state.2 := by
  obtain ⟨index, done⟩ := state
  unfold IndexedChain.indexAddress
  dsimp only
  rw [haddr]
  by_cases hmem : .publicKey key ∈ done
  · grind
  · rw [if_neg hmem, h.lapoo_eq hmem, if_pos hlapoo]
    refine ⟨⟨h.recreate, fun key' hkey' => ?_, fun key' seq hseq => ?_, fun hrecreate key' => ?_⟩,
      fun a => mem_cons⟩
    · by_cases heq : key' = key
      · subst heq
        exact AList.lookup_insert _
      · have hdone : .publicKey key' ∈ done := by
          refine (mem_cons.mp hkey').resolve_left fun hcon => ?_
          exact heq (Address.publicKey.inj hcon)
        refine (AList.lookup_insert_ne fun hcon => ?_).trans (h.hit key' hdone)
        exact heq (getTrxIndexKey_inj hcon).1
    · refine (AList.lookup_insert_ne fun hcon => ?_).trans (h.miss key' seq fun hs hdone => ?_)
      · obtain ⟨rfl, hs⟩ := getTrxIndexKey_inj hcon
        exact hseq hs mem_cons_self
      · exact hseq hs (mem_cons_of_mem _ hdone)
    · rw [h.recreate, if_pos hrecreate]
      by_cases heq : key' = .publicKey key
      · rw [heq, AList.lookup_insert, if_pos mem_cons_self]
      · have hiff : key' ∈ .publicKey key :: done ↔ key' ∈ done := by simp [heq]
        rw [AList.lookup_insert_ne heq, h.lapoos hrecreate]
        simp only [hiff]

theorem Filed.foldl (hids : c.walletIds.WellFormed)
    (hlapoo : ∀ key, c.lapoo (.publicKey key) ≠ pool.sequence) {addresses : List Address}
    (hknown : ∀ addr ∈ addresses, c.Known addr) (state : TransactionsIndex × List Address)
    (h : Filed c pool state.1 state.2) :
    let final := addresses.foldl (c.indexAddress pool) state
    Filed c pool final.1 final.2 ∧ ∀ a, a ∈ final.2 ↔
      (∃ addr ∈ addresses, a = .publicKey (c.walletIds.toPublicKey addr)) ∨ a ∈ state.2 := by
  induction addresses generalizing state with
  | nil => exact ⟨h, fun a => by simp⟩
  | cons addr addresses ih =>
    obtain ⟨hfiled, hmem⟩ := h.indexAddress
      (getAddressByType_of_known hids (hknown addr mem_cons_self)) (hlapoo _)
    grind

def transactions (c : IndexedChain) : List (List Transaction) := c.blocks.map Pool.transactions

def HasNewest (c : IndexedChain) (key : PublicKey) : Prop :=
  (c.wallets.last key = .new ∧
    lastBefore (involves c.walletIds key) c.transactions c.blocks.length = none) ∨
  ∃ b front tr, b < c.blocks.length ∧ front.length < 2 ^ 64 ∧
    Newest (involves c.walletIds key) c.transactions b front tr ∧
    c.wallets.last key = ⟨UInt64.ofNat b, UInt64.ofNat front.length⟩

/-- The invariant of the index: each block of a wallet is linked to the one before. -/
structure Indexed (c : IndexedChain) : Prop where
  ids : c.walletIds.WellFormed
  known : ∀ pool ∈ c.blocks, ∀ tr ∈ pool.transactions, c.Known tr.source ∧ c.Known tr.target
  valid : ∀ b (pool : Pool), c.blocks[b]? = some pool →
    pool.isValid = true ∧ pool.sequence.toNat = b
  size : c.blocks.length < 2 ^ 64
  newest : ∀ key, c.HasNewest key
  links : ∀ key, ∀ b < c.blocks.length,
    (c.transactions.getD b []).any (involves c.walletIds key) = true →
    c.trxIndex.db.lookup (getTrxIndexKey key (UInt64.ofNat b))
      = some (linkTo (lastBefore (involves c.walletIds key) c.transactions b))
  lapoos : c.trxIndex.recreate = true → ∀ key,
    (c.trxIndex.lapoos.lookup (.publicKey key)).getD kWrongSequence
      = linkTo (lastBefore (involves c.walletIds key) c.transactions c.blocks.length)

theorem length_transactions (c : IndexedChain) : c.transactions.length = c.blocks.length :=
  length_map _

theorem getD_transactions {b : Nat} (h : c.blocks[b]? = some pool) :
    c.transactions.getD b [] = pool.transactions := by
  simp [transactions, h]

theorem exists_block_of_mem {b : Nat} {tr : Transaction}
    (h : tr ∈ c.transactions.getD b []) : ∃ pool ∈ c.blocks, tr ∈ pool.transactions := by
  unfold transactions at h
  grind

theorem HasNewest.poolSeq (h : c.HasNewest key) :
    (c.wallets.last key).poolSeq
      = linkTo (lastBefore (involves c.walletIds key) c.transactions c.blocks.length) := by
  obtain ⟨hlast, hnone⟩ | ⟨b, front, tr, hb, -, hnewest, hlast⟩ := h
  · rw [hlast, hnone]
    rfl
  · rw [hlast, hnewest.lastBefore hb]
    rfl

theorem Indexed.lapoo_eq (h : c.Indexed) (key : PublicKey) :
    c.lapoo (.publicKey key)
      = linkTo (lastBefore (involves c.walletIds key) c.transactions c.blocks.length) := by
  unfold lapoo
  split_ifs with hrecreate
  · exact h.lapoos hrecreate key
  · rw [getLastTransaction_publicKey]
    exact (h.newest key).poolSeq

theorem indexed_new (recreate : Bool) : Indexed (.new recreate) where
  ids := WellFormed.new
  known pool h := absurd h not_mem_nil
  valid b pool h := absurd h (by simp [IndexedChain.new])
  size := by simp [IndexedChain.new]
  newest key := .inl ⟨rfl, rfl⟩
  links key b h := absurd h (Nat.not_lt_zero b)
  lapoos _ key := rfl

theorem Indexed.grows (h : c.Indexed) {ids : WalletsIds}
    (hgrows : c.walletIds.Grows ids) : Indexed { c with walletIds := ids } := by
  have hsame : ∀ key b, ∀ tr ∈ c.transactions.getD b [],
      involves c.walletIds key tr = involves ids key tr := by
    intro key b tr htr
    obtain ⟨pool, hpool, htr⟩ := exists_block_of_mem htr
    obtain ⟨hsource, htarget⟩ := h.known pool hpool tr htr
    unfold involves
    rw [(hsource.grows h.ids hgrows).1, (htarget.grows h.ids hgrows).1]
  have hbefore : ∀ key n, lastBefore (involves ids key) c.transactions n
      = lastBefore (involves c.walletIds key) c.transactions n := fun key n =>
    (lastBefore_congr (hsame key) n).symm
  refine ⟨hgrows.1, fun pool hpool tr htr => ?_, h.valid, h.size, fun key => ?_,
    fun key b hb hany => ?_, fun hrecreate key => ?_⟩
  · obtain ⟨hsource, htarget⟩ := h.known pool hpool tr htr
    exact ⟨(hsource.grows h.ids hgrows).2, (htarget.grows h.ids hgrows).2⟩
  · rcases h.newest key with ⟨hlast, hnone⟩ | ⟨b, front, tr, hb, hfront, hnewest, hlast⟩
    · exact .inl ⟨hlast, (hbefore key _).trans hnone⟩
    · exact .inr ⟨b, front, tr, hb, hfront, hnewest.congr (hsame key), hlast⟩
  · refine (h.links key b hb ?_).trans (congrArg (fun n => some (linkTo n)) (hbefore key b).symm)
    obtain ⟨tr, htr, hinvolves⟩ := any_eq_true.mp hany
    exact any_eq_true.mpr ⟨tr, htr, (hsame key b tr htr).trans hinvolves⟩
  · exact (h.lapoos hrecreate key).trans (congrArg linkTo (hbefore key _).symm)

theorem wp_updateWallets (env : ChainEnv) (c : IndexedChain) (hregular : ∀ tr ∈ pool.transactions,
      ¬ (SmartContracts.isExecutable tr = true ∧ SmartContracts.isNewState tr = true)) :
    Returns (updateWallets env pool) (fun _ d => ∃ wallets : WalletsCache,
      d = { c with wallets } ∧ ∀ key, wallets.last key
        = lastOf c.walletIds key (c.wallets.last key) pool.transactions) c := by
  have hwp := wp_loadNextBlock_last (c.ledgerEnv env) pool pool.confidants hregular c.wallets
  refine .get_bind ?_
  cases hload : loadNextBlock (c.ledgerEnv env) pool pool.confidants false c.wallets with
  | ok r wallets => exact ⟨wallets, rfl, hwp.of_ok hload⟩
  | error e wallets => exact trivial

theorem applyBlock_cases {d : IndexedChain} (hregular : c.Regular pool)
    (hrun : applyBlock env pool c = .ok () d) :
    d.blocks = c.blocks ++ [pool] ∧ d.walletIds = c.walletIds ∧
      d.trxIndex = c.updateIndex pool ∧
      ∀ key, d.wallets.last key =
        lastOf c.walletIds key (c.wallets.last key) pool.transactions := by
  obtain ⟨wallets, rfl, hlast⟩ := Wp.of_ok
    (Wp.modify_bind (Wp.modify_bind (wp_updateWallets env _ fun tr htr => (hregular tr htr).2.2)))
      hrun
  exact ⟨rfl, rfl, rfl, hlast⟩

theorem linkTo_ne {o : Option Nat} {seq : Sequence} (hproper : seq ≠ kWrongSequence)
    (h : ∀ b, o = some b → b < seq.toNat) : linkTo o ≠ seq := by
  cases o with
  | none => exact hproper.symm
  | some b =>
    have hlt := seq.toNat_lt
    unfold linkTo
    grind [UInt64.toNat_ofNat_of_lt']

section Block

variable {c d : IndexedChain} {pool : Pool}

theorem Indexed.updateIndex (h : c.Indexed) (happends : c.Appends pool)
    (hregular : c.Regular pool) :
    (c.updateIndex pool).recreate = c.trxIndex.recreate ∧
    (∀ key, pool.transactions.any (involves c.walletIds key) = true →
      (c.updateIndex pool).db.lookup (getTrxIndexKey key pool.sequence)
        = some (linkTo (lastBefore (involves c.walletIds key) c.transactions c.blocks.length))) ∧
    (∀ key seq, seq ≠ pool.sequence → (c.updateIndex pool).db.lookup (getTrxIndexKey key seq)
      = c.trxIndex.db.lookup (getTrxIndexKey key seq)) ∧
    (c.trxIndex.recreate = true → ∀ key, (c.updateIndex pool).lapoos.lookup (.publicKey key)
      = if pool.transactions.any (involves c.walletIds key) = true then some pool.sequence
        else c.trxIndex.lapoos.lookup (.publicKey key)) := by
  have hlapoo : ∀ key, c.lapoo (.publicKey key) ≠ pool.sequence := by
    intro key
    rw [h.lapoo_eq]
    refine linkTo_ne happends.proper fun b hb => ?_
    rw [happends.sequence]
    exact (recent_of_lastBefore_some hb).1
  have hknown : ∀ addr ∈ pool.transactions.flatMap fun tr => [tr.source, tr.target],
      c.Known addr := by
    have hboth := fun tr htr => And.intro (hregular tr htr).1 (hregular tr htr).2.1
    grind
  obtain ⟨hfiled, hmem⟩ := Filed.foldl h.ids hlapoo hknown (c.trxIndex, []) (filed_start c pool)
  -- the keys that are handled are those of the transactions
  have hany : ∀ key, Address.publicKey key ∈ ((pool.transactions.flatMap fun tr =>
      [tr.source, tr.target]).foldl (c.indexAddress pool) (c.trxIndex, [])).2 ↔
      pool.transactions.any (involves c.walletIds key) = true := by
    intro key
    unfold involves
    grind
  refine ⟨hfiled.recreate, fun key hkey => ?_, fun key seq hseq => ?_, fun hrecreate key => ?_⟩
  · rw [← h.lapoo_eq]
    exact hfiled.hit key ((hany key).mpr hkey)
  · exact hfiled.miss key seq fun hs => absurd hs hseq
  · refine (hfiled.lapoos hrecreate _).trans ?_
    simp only [hany]

theorem Indexed.hasNewest_append (h : c.Indexed) (happends : c.Appends pool) {key : PublicKey}
    (hblocks : d.blocks = c.blocks ++ [pool]) (hids : d.walletIds = c.walletIds)
    (hlast : d.wallets.last key = lastOf c.walletIds key (c.wallets.last key) pool.transactions) :
    d.HasNewest key := by
  have htransactions : d.transactions = c.transactions ++ [pool.transactions] := by
    simp [transactions, hblocks]
  have hlength : d.blocks.length = c.blocks.length + 1 := by simp [hblocks]
  unfold HasNewest
  rw [htransactions, hids, hlength, hlast]
  by_cases hany : pool.transactions.any (involves c.walletIds key) = true
  · obtain ⟨front, tr, back, heq, htr, hback⟩ := exists_last_of_any hany
    have hnone : ¬ back.any (involves c.walletIds key) = true := by simpa using hback
    have hfront : front.length < 2 ^ 64 := by grind [happends.size]
    have hid : tr.id = ⟨pool.sequence, UInt64.ofNat front.length⟩ :=
      happends.ids front.length tr (by simp [heq])
    refine .inr ⟨c.blocks.length, front, tr, Nat.lt_succ_self _, hfront, ?_, ?_⟩
    · rw [heq, ← length_transactions]
      exact newest_append htr hback
    · rw [heq, lastOf_append, lastOf, if_pos htr, lastOf_of_not_any hnone, hid,
        ← happends.sequence, UInt64.ofNat_toNat]
  · rw [lastOf_of_not_any hany]
    rcases h.newest key with ⟨hnew, hnone⟩ | ⟨b, front, tr, hb, hfront, hnewest, hnew⟩
    · grind [lastBefore_of_not_any, lastBefore_append, length_transactions]
    · exact .inr ⟨b, front, tr, Nat.lt_succ_of_lt hb, hfront, hnewest.append hany, hnew⟩

end Block

theorem Indexed.applyBlock {d : IndexedChain} (h : c.Indexed)
    (happends : c.Appends pool) (hregular : c.Regular pool)
    (hrun : applyBlock env pool c = .ok () d) : d.Indexed := by
  obtain ⟨hblocks, hids, hindex, hlast⟩ := applyBlock_cases hregular hrun
  obtain ⟨hrecreate, hhit, hmiss, hlapoos⟩ := h.updateIndex happends hregular
  have hseq := happends.sequence
  have hknown : ∀ addr, d.Known addr ↔ c.Known addr := by simp only [Known, hids, implies_true]
  have htransactions : d.transactions = c.transactions ++ [pool.transactions] := by
    simp [transactions, hblocks]
  have hlength : d.blocks.length = c.blocks.length + 1 := by simp [hblocks]
  have hsequence : pool.sequence = UInt64.ofNat c.blocks.length := by
    rw [← hseq, UInt64.ofNat_toNat]
  have hbefore : ∀ key b, b ≤ c.blocks.length →
      lastBefore (involves c.walletIds key) d.transactions b
        = lastBefore (involves c.walletIds key) c.transactions b := by
    intro key b hb
    rw [htransactions]
    exact lastBefore_append _ (by rwa [length_transactions])
  have hblock : d.transactions.getD c.blocks.length [] = pool.transactions := by
    rw [htransactions, ← length_transactions, getD_append_self]
  refine ⟨hids ▸ h.ids, fun p hp tr htr => ?_, fun b p hp => ?_, ?_, fun key => ?_,
    fun key b hb hany => ?_, fun hd key => ?_⟩
  · have hold := h.known p
    have hnew := hregular tr
    grind
  · have hold := h.valid b p
    have hvalid := happends.isValid
    grind
  · have hproper : pool.sequence.toNat ≠ kWrongSequence.toNat := fun heq =>
      happends.proper (UInt64.toNat_inj.mp heq)
    have hlt := pool.sequence.toNat_lt
    have hwrong : kWrongSequence.toNat = 2 ^ 64 - 1 := by decide
    omega
  · exact h.hasNewest_append happends hblocks hids (hlast key)
  · rw [hids] at hany ⊢
    rw [hbefore key b (by omega), hindex]
    rcases Nat.lt_or_ge b c.blocks.length with hlt | hge
    · have hne : UInt64.ofNat b ≠ pool.sequence := by
        have hsize := h.size
        grind [UInt64.toNat_ofNat_of_lt']
      rw [hmiss key _ hne]
      have hlinks := h.links
      grind
    · grind
  · rw [hindex] at hd ⊢
    rw [hrecreate] at hd
    rw [hlapoos hd, hlength, hids]
    split_ifs with hany
    · rw [lastBefore_of_any (hblock.symm ▸ hany), hsequence]
      rfl
    · rw [lastBefore_of_not_any (hblock.symm ▸ hany), hbefore key _ (Nat.le_refl _)]
      exact h.lapoos hd key

theorem Built.indexed {recreate : Bool} (h : Built env recreate Regular c) : c.Indexed := by
  induction h with
  | new => exact indexed_new recreate
  | insertId _ hrun ih => exact ih.grows (ih.ids.insert hrun)
  | getId _ hrun ih => exact ih.grows (ih.ids.getId hrun)
  | block _ happends hregular hrun ih => exact ih.applyBlock happends hregular hrun

end IndexedChain

end CreditsNode
