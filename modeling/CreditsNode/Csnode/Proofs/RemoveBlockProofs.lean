import CreditsNode.Csnode.Proofs.DeferredBlockProofs
import CreditsNode.Csnode.Proofs.NewWalletsProofs
import CreditsNode.Csnode.Proofs.UndoProofs

/-!
# Removing the block that was stored last

`removeLastBlock` takes the effects of a block back: the moved money, the numbers of transactions
and the new wallets. Once the block has been written, though, the storage returns its first fields
only, without transactions and new wallets, and nothing is taken back.
-/

namespace CreditsNode

open ByteCodec Effect List

namespace WalletsCache.Updater

theorem loadTransactions_loadBlock (ledger : LedgerEnv) (loadBlock : Sequence → Pool)
    {trs : List Transaction} (h : ∀ tr ∈ trs, SmartContracts.isNewState tr = false) (inverse : Bool)
    (acc : Amount) : loadTransactions { ledger with loadBlock } inverse trs acc =
      loadTransactions ledger inverse trs acc := by
  induction trs generalizing acc with
  | nil => rfl
  | cons tr trs ih =>
    have hnew := h tr mem_cons_self
    have hload : load { ledger with loadBlock } tr inverse = load ledger tr inverse := by
      unfold load loadTrxForSource
      simp only [hnew, Bool.false_eq_true, if_false, pure_bind]
      rfl
    unfold loadTransactions
    aesop

theorem loadNextBlock_loadBlock (ledger : LedgerEnv) (loadBlock : Sequence → Pool) {pool : Pool}
    (h : ∀ tr ∈ pool.transactions, SmartContracts.isNewState tr = false)
    (confidants : List PublicKey) (inverse : Bool) :
    loadNextBlock { ledger with loadBlock } pool confidants inverse =
      loadNextBlock ledger pool confidants inverse := by
  unfold loadNextBlock
  rw [loadTransactions_loadBlock ledger loadBlock h]

theorem loadNextBlock_empty (ledger : LedgerEnv) {pool : Pool} (h : pool.transactions = [])
    (confidants : List PublicKey) (inverse : Bool) (s : WalletsCache) :
    loadNextBlock ledger pool confidants inverse s = .ok () s := by
  unfold loadNextBlock
  rw [h]
  rfl

end WalletsCache.Updater

namespace BlockChain

open WalletsIds WalletsCache.Updater

/-- Of the wallets listed, some have been entered. -/
structure Entered (s : BlockChain) (wallets : List (Address × WalletId)) (none : Prop)
    (t : BlockChain) : Prop where
  chain : t = { s with walletIds := t.walletIds }
  wellFormed : t.walletIds.WellFormed
  added : ∃ added, t.walletIds.data = added ++ s.walletIds.data ∧ (∀ w ∈ added, w ∈ wallets) ∧
    (added = [] ↔ none)

variable {s : BlockChain}

theorem Entered.refl {wallets : List (Address × WalletId)} {none : Prop}
    (hs : s.walletIds.WellFormed) (hnone : none) : Entered s wallets none s :=
  ⟨rfl, hs, [], rfl, nofun, iff_of_true rfl hnone⟩

section Entered

variable {t u : BlockChain} {wallets : List (Address × WalletId)} {none none' : Prop}
  {w : Address × WalletId}

theorem Entered.refused (hrefused : none') (h : Entered s wallets none t) :
    Entered s (w :: wallets) (none' ∧ none) t := by
  obtain ⟨hchain, hwell, added, hdata, hadded, hnone⟩ := h
  refine ⟨hchain, hwell, added, hdata, fun w hw => mem_cons_of_mem _ (hadded w hw), ?_⟩
  rw [hnone]
  exact (and_iff_right hrefused).symm

theorem Entered.fresh (hfresh : ¬ none') (hchain : t = { s with walletIds := t.walletIds })
    (hdata : t.walletIds.data = w :: s.walletIds.data) (h : Entered t wallets none u) :
    Entered s (w :: wallets) none' u := by
  obtain ⟨hchain', hwell, added, hadded, hmem, -⟩ := h
  refine ⟨by rw [hchain', hchain], hwell, added ++ [w], ?_, ?_, iff_of_false (by simp) hfresh⟩
  · rw [hadded, hdata, append_assoc]
    rfl
  · grind

end Entered

/-- Going over the list stops where an entry names no wallet, or at the limit of the numbers. -/
theorem wp_insertNewWalletIds (pool : Pool) (ws : List NewWalletInfo)
    (hs : s.walletIds.WellFormed) :
    Wp (insertNewWalletIds pool ws)
      (fun e t => (∃ what, e = .exception what) ∧ Entered s (listedWallets pool ws)
        (∀ w ∈ listedWallets pool ws, s.walletIds.Refuses w.1 w.2) t)
      (fun _ t => Entered s (listedWallets pool ws)
        (∀ w ∈ listedWallets pool ws, s.walletIds.Refuses w.1 w.2) t) s := by
  induction ws generalizing s with
  | nil => exact .pure (.refl hs (forall_mem_nil _))
  | cons newWall ws ih =>
    cases haddress : getWalletAddress pool newWall with
    | none =>
      simp only [insertNewWalletIds, listedWallets, haddress]
      exact .pure (.refl hs (forall_mem_nil _))
    | some address =>
      simp only [insertNewWalletIds, listedWallets, haddress, forall_mem_cons]
      refine .bind ((wp_onWalletIds (wp_insert _ address newWall.walletId)).imp ?_
        fun _ _ h => h) ?_
      · rintro e t ⟨⟨hwhat, hfresh, -, hids⟩, hchain⟩
        have ht : Entered t (listedWallets pool ws) True t :=
          .refl (hids ▸ hs.cons hfresh _) trivial
        exact ⟨hwhat, ht.fresh (fun hnone => hfresh hnone.1) hchain (by rw [hids])⟩
      · rintro _ t ⟨⟨-, hrefused, hids⟩ | ⟨-, hfresh, -, hids⟩, hchain⟩
        · have hst : t = s := by rw [hchain, hids]
          rw [hst]
          exact (ih hs).imp (fun _ u h => ⟨h.1, h.2.refused hrefused⟩) fun _ u h =>
            h.refused hrefused
        · have hdata : t.walletIds.data = (address, newWall.walletId) :: s.walletIds.data := by
            rw [hids]
            rfl
          exact (ih (hids ▸ hs.cons hfresh _)).imp
            (fun _ u h => ⟨h.1, h.2.fresh (fun hnone => hfresh hnone.1) hchain hdata⟩)
            fun _ u h => h.fresh (fun hnone => hfresh hnone.1) hchain hdata

theorem wp_updateWalletIds (pool : Pool) (hs : s.walletIds.WellFormed) :
    Succeeds (updateWalletIds pool)
      (fun _ t => Entered s (listedWallets pool pool.newWallets)
        (∀ w ∈ listedWallets pool pool.newWallets, s.walletIds.Refuses w.1 w.2) t) s :=
  wp_catching ((wp_insertNewWalletIds pool pool.newWallets hs).imp (fun _ _ h => .inl h)
    fun _ _ h => h)

theorem removeNewWallets_spec (pool : Pool) (ws : List NewWalletInfo) {ids : WalletsIds}
    (h : ids.WellFormed) : (removeNewWallets pool ids ws).data =
      ids.data.filter fun wallet => wallet.1 ∉ (listedWallets pool ws).map Prod.fst := by
  induction ws generalizing ids with
  | nil => simp [removeNewWallets, listedWallets]
  | cons newWall ws ih =>
    cases haddress : getWalletAddress pool newWall with
    | none => simp [removeNewWallets, listedWallets, haddress]
    | some address =>
      simp only [removeNewWallets, listedWallets, haddress]
      rw [ih (h.remove address), h.data_remove, filter_filter]
      grind

theorem perm_filter_added_iff {data added : List (Address × WalletId)} {addresses : List Address}
    (hadded : ∀ w ∈ added, w.1 ∈ addresses) :
    ((added ++ data).filter fun w => w.1 ∉ addresses).Perm data ↔ ∀ w ∈ data, w.1 ∉ addresses := by
  have hnone : (added.filter fun w => w.1 ∉ addresses) = [] :=
    filter_eq_nil_iff.mpr fun w hw => by simpa using hadded w hw
  rw [filter_append, hnone, nil_append]
  constructor
  · intro hperm w hw
    have hmem := hperm.mem_iff.mpr hw
    simpa using (mem_filter.mp hmem).2
  · intro hall
    rw [filter_eq_self.mpr fun w hw => by simpa using hall w hw]

theorem map_mapIdx_of_invariant {α β : Type} {f : Nat → α → α} {g : α → β} (l : List α)
    (h : ∀ i a, g (f i a) = g a) : (l.mapIdx f).map g = l.map g := by
  refine ext_getElem? fun i => ?_
  rw [List.getElem?_map, List.getElem?_mapIdx, List.getElem?_map]
  cases l[i]? with
  | none => rfl
  | some a => exact congrArg some (h i a)

/-- Setting fees and composing change nothing about who pays what to whom. -/
structure SameTransfers (ts ts' : List Transaction) : Prop where
  addresses : ts'.map (fun t => (t.source, t.target)) = ts.map fun t => (t.source, t.target)
  transfers : ts'.map (fun t => (t.amount, t.userFields)) = ts.map fun t => (t.amount, t.userFields)

namespace SameTransfers

variable {ts ts' ts'' : List Transaction}

theorem refl (ts : List Transaction) : SameTransfers ts ts := ⟨rfl, rfl⟩

theorem trans (h : SameTransfers ts ts') (h' : SameTransfers ts' ts'') : SameTransfers ts ts'' :=
  ⟨h'.addresses.trans h.addresses, h'.transfers.trans h.transfers⟩

theorem length (h : SameTransfers ts ts') : ts'.length = ts.length := by
  simpa using congrArg List.length h.addresses

theorem mem (h : SameTransfers ts ts') {t' : Transaction} (ht' : t' ∈ ts') :
    ∃ t ∈ ts, t.amount = t'.amount ∧ t.userFields = t'.userFields := by
  have hmem := mem_map_of_mem (f := fun t => (t.amount, t.userFields)) ht'
  grind [h.transfers]

theorem setCountedFee (f : Transaction → AmountCommission) :
    SameTransfers ts (ts.map fun t => t.setCountedFee (f t)) := by
  constructor <;>
  · rw [map_map]
    unfold Function.comp Transaction.setCountedFee at *
    grind

theorem compose (crypto : Crypto) (p : Pool) :
    SameTransfers p.transactions (p.compose crypto).transactions := by
  unfold Pool.compose
  split_ifs
  · exact refl _
  · exact refl _
  · exact ⟨map_mapIdx_of_invariant _ fun _ _ => rfl, map_mapIdx_of_invariant _ fun _ _ => rfl⟩

theorem addressesOf (h : SameTransfers ts ts') :
    BlockChain.addressesOf ts' = BlockChain.addressesOf ts := by
  have hflat : ∀ us : List Transaction, BlockChain.addressesOf us =
      (us.map fun t => (t.source, t.target)).flatMap fun p => [p.1, p.2] := by
    intro us
    rw [flatMap_map]
    rfl
  rw [hflat, hflat, h.addresses]

end SameTransfers

theorem getWalletAddress_congr {p q : Pool} (h : SameTransfers p.transactions q.transactions)
    (hconfidants : q.confidants = p.confidants) (newWall : NewWalletInfo) :
    getWalletAddress q newWall = getWalletAddress p newWall := by
  have hidx := congrArg (fun l => l[newWall.trxInd.toNat]?) h.addresses
  simp only [List.getElem?_map] at hidx
  unfold getWalletAddress
  dsimp only
  cases hq : q.transactions[newWall.trxInd.toNat]? with
  | none =>
    have hlength := h.length
    grind
  | some t' =>
    rw [hq] at hidx
    obtain ⟨t, hp, heq⟩ := Option.map_eq_some_iff.mp hidx.symm
    rw [hp]
    obtain ⟨hsource, htarget⟩ := Prod.mk.inj heq
    cases newWall.addressType with
    | addressIsSource => exact congrArg some hsource.symm
    | addressIsTarget => exact congrArg some htarget.symm

def EntersNone (env : ChainEnv) (ids : WalletsIds) (pool : Pool) (bySync : Bool) : Prop :=
  if bySync then ∀ w ∈ listedWallets pool pool.newWallets, ids.Refuses w.1 w.2
  else pool.readOnly = false → ∀ address ∈ scannedAddresses pool, ¬ IsNew env ids address

/-- The block comes with a list of new wallets, which are indeed unknown, or will get one. -/
def ListsUnknown (ids : WalletsIds) (pool : Pool) (bySync : Bool) : Prop :=
  bySync = true ∨ pool.readOnly = true →
    ∀ w ∈ listedWallets pool pool.newWallets, ∀ known ∈ ids.data, known.1 ≠ w.1

/-- The block `p` is `pool` with its fees counted, and its wallets have been entered. -/
structure Completed (env : ChainEnv) (s : BlockChain) (pool : Pool) (bySync : Bool) (p : Pool)
    (t : BlockChain) : Prop where
  transfers : SameTransfers pool.transactions p.transactions
  rest : p = { pool with transactions := p.transactions, newWallets := p.newWallets }
  entered : Entered s (listedWallets p p.newWallets) (EntersNone env s.walletIds pool bySync) t
  unknown : (∀ w ∈ listedWallets p p.newWallets, ∀ known ∈ s.walletIds.data, known.1 ≠ w.1) ↔
    ListsUnknown s.walletIds pool bySync

theorem wp_completeBlock_accounts (env : ChainEnv) {pool : Pool} (bySync : Bool)
    (hs : s.walletIds.WellFormed)
    (hsize : pool.transactions.length + pool.confidants.length ≤ 2 ^ 63) :
    Returns (completeBlock env pool bySync) (fun p t => Completed env s pool bySync p t) s := by
  have htransfers : SameTransfers pool.transactions (setTransactionsFees env pool).transactions :=
    .setCountedFee env.getFee
  have hlisted : ∀ ws, listedWallets (setTransactionsFees env pool) ws = listedWallets pool ws :=
    listedWallets_congr (getWalletAddress_congr htransfers rfl)
  unfold completeBlock
  split_ifs with hsync
  · -- the list that came with the block
    refine .bind ((wp_updateWalletIds _ hs).imp (fun _ _ h => h.elim) fun _ _ h => h) ?_
    intro _ t ht
    refine .pure ⟨htransfers, rfl, ?_, ?_⟩
    · unfold EntersNone
      rw [if_pos hsync, ← hlisted]
      exact ht
    · rw [hlisted]
      exact ⟨fun h _ => h, fun h => h (.inl hsync)⟩
  · by_cases hopen : pool.readOnly = true
    · -- a list of its own, which is not looked at
      have hadd : addNewWalletsToPool env (setTransactionsFees env pool) =
          pure (setTransactionsFees env pool) := if_pos hopen
      rw [hadd]
      refine .pure ⟨htransfers, rfl, .refl hs ?_, ?_⟩
      · unfold EntersNone
        rw [if_neg hsync]
        exact fun h => absurd hopen (by simp [h])
      · rw [hlisted]
        exact ⟨fun h _ => h, fun h => h (.inr hopen)⟩
    · have hopen' : pool.readOnly = false := by simpa using hopen
      have hopenFees : (setTransactionsFees env pool).readOnly = false := hopen'
      have hsize' : (setTransactionsFees env pool).transactions.length +
          (setTransactionsFees env pool).confidants.length ≤ 2 ^ 63 := by
        rw [htransfers.length]
        exact hsize
      refine (wp_addNewWalletsToPool_lists s hopenFees hsize').imp (fun _ _ _ => trivial) ?_
      rintro _ t ⟨ws, rfl, hlists, hnew⟩
      have hws : listedWallets { setTransactionsFees env pool with newWallets := ws } ws =
          listedWallets (setTransactionsFees env pool) ws := by
        refine listedWallets_congr ?_ ws
        exact fun _ => rfl
      refine ⟨htransfers, rfl, ⟨hlists.chain, hlists.enters.wellFormed hs,
        (listedWallets (setTransactionsFees env pool) ws).reverse, ?_⟩, ?_⟩
      · rw [hws]
        refine ⟨hlists.enters.data, fun w hw => mem_reverse.mp hw, ?_⟩
        rw [reverse_eq_nil_iff, listedWallets_eq_nil hlists.names, hnew]
        unfold EntersNone
        rw [if_neg hsync]
        have hscanned : scannedAddresses (setTransactionsFees env pool) =
            scannedAddresses pool := by
          unfold scannedAddresses
          rw [htransfers.addressesOf]
          rfl
        rw [hscanned]
        exact ⟨fun h _ => h, fun h => h hopen'⟩
      · rw [hws]
        refine iff_of_true hlists.enters.unknown ?_
        rintro (h | h)
        · exact absurd h hsync
        · exact absurd h hopen

section Accounts

variable (env : ChainEnv)

def plainLedger (ids : WalletsIds) : LedgerEnv where
  walletsIds := ids
  loadBlock _ := .new
  toAmount := env.toAmount
  toAmount_fraction := env.toAmount_fraction

theorem loadNextBlock_ledgerEnv {s : BlockChain} {pool : Pool}
    (h : ∀ tr ∈ pool.transactions, SmartContracts.isNewState tr = false)
    (confidants : List PublicKey) (inverse : Bool) :
    loadNextBlock (s.ledgerEnv env) pool confidants inverse =
      loadNextBlock (plainLedger env s.walletIds) pool confidants inverse :=
  loadNextBlock_loadBlock (plainLedger env s.walletIds)
    (fun sequence => (s.loadBlock env sequence).1) h
    confidants inverse

theorem wp_onWallets {m : LedgerEnv → WalletsCache.UpdaterM Unit} {s : BlockChain}
    {E : Fault → WalletsCache → Prop} {P : Unit → WalletsCache → Prop}
    (h : Wp (m (s.ledgerEnv env)) E P s.wallets) :
    Wp (onWallets env m) (fun e t => E e t.wallets ∧ t = { s with wallets := t.wallets })
      (fun a t => P a t.wallets ∧ t = { s with wallets := t.wallets }) s := by
  unfold Wp onWallets at *
  cases hm : m (s.ledgerEnv env) s.wallets with
  | ok a wallets =>
    rw [hm] at h
    exact ⟨h, rfl⟩
  | error e wallets =>
    rw [hm] at h
    exact ⟨h, rfl⟩

/-- The block `q` is the deferred block of `t` and its effects are those that were applied. -/
structure Applied (s : BlockChain) (q : Pool) (t : BlockChain) : Prop where
  deferredBlock : t.deferredBlock = q
  walletIds : t.walletIds = s.walletIds
  totalTransactionsCount : t.totalTransactionsCount =
    s.totalTransactionsCount + UInt64.ofNat q.transactions.length
  wallets : ∃ u : BlockChain, u.walletIds = s.walletIds ∧
    loadNextBlock (u.ledgerEnv env) q q.confidants false s.wallets = .ok () t.wallets
  verified : Verified env q

theorem totalTransactionsCount_updateNonEmptyBlocks (pool : Pool) (s : BlockChain) :
    Succeeds (updateNonEmptyBlocks pool) (fun _ t =>
      t.totalTransactionsCount = s.totalTransactionsCount + UInt64.ofNat pool.transactions.length ∧
      t.deferredBlock = s.deferredBlock ∧ t.walletIds = s.walletIds ∧ t.wallets = s.wallets) s := by
  refine .modify ?_
  aesop

theorem wp_finalizeBlock_accounts (isTrusted : Bool) (lastConfidants : List PublicKey)
    (s : BlockChain) :
    Returns (finalizeBlock env isTrusted lastConfidants) (fun ok t => ok = true →
      Applied env s (s.deferredBlock.compose env.crypto) t) s := by
  refine .get_bind (.modify_bind ?_)
  split_ifs with hinvalid hfail
  · exact .pure (by simp)
  · exact .pure (by simp)
  · refine .bind ((totalTransactionsCount_updateNonEmptyBlocks _ _).imp (fun _ _ h => h.elim)
      fun _ _ h => h) ?_
    rintro _ t ⟨htotal, hdeferred, hids, hwallets⟩
    refine wp_catching ?_
    have hfault : ∀ e (u : BlockChain), True → (∃ what, e = Fault.exception what) ∧
        (false = true → Applied env s (s.deferredBlock.compose env.crypto) u) ∨
        (∀ what, e ≠ .exception what) ∧ True := by
      grind
    refine .imp (E := fun _ _ => True) ?_ hfault fun _ _ h => h
    refine .bind ((wp_onWallets env .self).imp (fun _ _ _ => trivial) fun _ _ h => h) ?_
    rintro _ u ⟨hload, hu⟩
    have hverified := verified_of_finalizable (by simpa using hfail)
    rw [hwallets] at hload
    refine .modify_bind (.pure fun _ => ?_)
    rw [hu]
    exact ⟨hdeferred, hids, htotal, ⟨t, hids, hload⟩, hverified⟩

theorem wp_recordBlock_accounts (p : Pool) (isTrusted : Bool) (s : BlockChain) :
    Returns (recordBlock env p isTrusted) (fun r t => r.1 = true →
      Applied env s ((p.setPreviousHash (s.getLastHash env)).compose env.crypto) t) s := by
  refine .get_bind ?_
  by_cases hseq : s.lastSequence + 1 ≠ p.sequence
  · rw [if_pos hseq]
    exact .pure (by simp)
  dsimp only
  split_ifs
  · exact .pure (by simp)
  · exact .pure (by simp)
  · refine .bind (wp_saveDeferredBlock env s) ?_
    rintro _ _ rfl
    have hload : ∀ poolSeq u, Returns (loadLastConfidants env poolSeq)
        (fun _ t => t = { u with storage := t.storage }) u := by
      intro poolSeq u
      unfold Returns Wp loadLastConfidants
      split_ifs <;> rfl
    refine .bind (hload _ _) ?_
    intro keys t ht
    refine .modify_bind (.bind (wp_finalizeBlock_accounts env isTrusted keys _) ?_)
    intro ok u happlied
    split_ifs with hok
    · refine .get_bind (.pure fun _ => ?_)
      obtain ⟨hdeferred, hids, htotal, ⟨v, hv, hload⟩, hsigned⟩ := happlied hok
      refine ⟨hdeferred, ?_, ?_, ⟨v, ?_, ?_⟩, hsigned⟩
      · rw [hids, ht]
      · rw [htotal, ht]
      · rw [hv, ht]
      · rw [ht] at hload
        exact hload
    · exact .skip fun _ _ => .pure (by simp)

theorem wp_removeLastBlock_deferred {t : BlockChain} (hcount : t.blocksToBeRemoved ≠ 0)
    (hvalid : t.deferredBlock.isValid = true) (hseq : t.deferredBlock.sequence ≠ 0)
    (hplain : ∀ tr ∈ t.deferredBlock.transactions, SmartContracts.isNewState tr = false)
    {E : Fault → WalletsCache → Prop} {P : Unit → WalletsCache → Prop}
    (h : Wp (loadNextBlock (plainLedger env t.walletIds) t.deferredBlock t.deferredBlock.confidants
      true) E P t.wallets) :
    Wp (removeLastBlock env) (fun e v => E e v.wallets) (fun _ v => P () v.wallets ∧
      v.walletIds = removeNewWallets t.deferredBlock t.walletIds t.deferredBlock.newWallets ∧
      v.totalTransactionsCount = t.totalTransactionsCount -
        UInt64.ofNat t.deferredBlock.transactions.length) t := by
  refine .get_bind ?_
  rw [if_neg hcount]
  refine .bind_of_ok (takeLastBlock_of_valid hvalid) ?_
  rw [if_neg (by simp [hvalid])]
  unfold dropBlock
  rw [if_neg hseq]
  have hback : ∀ u : BlockChain, u.walletIds = t.walletIds → u.wallets = t.wallets →
      Wp (onWallets env fun ledger => loadNextBlock ledger t.deferredBlock
        t.deferredBlock.confidants true) (fun e v => E e v.wallets)
        (fun _ v => P () v.wallets ∧ v = { u with wallets := v.wallets }) u := by
    intro u hids hwallets
    rw [← hids, ← hwallets, ← loadNextBlock_ledgerEnv env hplain] at h
    exact (wp_onWallets env h).imp (fun _ _ he => he.1) fun _ _ h => h
  refine .modify_bind (.bind (hback _ rfl rfl) ?_)
  rintro _ u ⟨hP, hu⟩
  refine .modify_bind (.modify_bind (.modify ?_))
  grind

theorem poolRemoveLast_bare (st : Storage) :
    st.poolRemoveLast.1.transactions = [] ∧ st.poolRemoveLast.1.newWallets = [] := by
  have hmeta : Ensures Pool.getMeta fun r => r.1.transactions = [] ∧ r.1.newWallets = [] := by
    iterate 6 refine .skip fun _ => ?_
    exact .pure ⟨rfl, rfl⟩
  have hread : ∀ data, (Pool.metaFromBinary data).transactions = [] ∧
      (Pool.metaFromBinary data).newWallets = [] := by
    intro data
    unfold Pool.metaFromBinary
    split
    · exact ⟨rfl, rfl⟩
    · next p cnt rest hget => exact hmeta data _ rest hget
  unfold Storage.poolRemoveLast
  split_ifs
  · exact ⟨rfl, rfl⟩
  · aesop

theorem wp_removeLastBlock_stored {t : BlockChain} (hinvalid : t.deferredBlock.isValid = false) :
    Succeeds (removeLastBlock env) (fun _ v => v.wallets = t.wallets ∧
      v.walletIds = t.walletIds ∧ v.totalTransactionsCount = t.totalTransactionsCount) t := by
  obtain ⟨htransactions, hwallets⟩ := poolRemoveLast_bare t.storage
  refine .get_bind ?_
  split_ifs with hcount
  · exact .pure ⟨rfl, rfl, rfl⟩
  refine .bind_of_ok (takeLastBlock_of_invalid (by simp [hinvalid])) ?_
  generalize t.storage.poolRemoveLast.1 = pool at htransactions hwallets
  split_ifs with hfound hhash
  · exact .pure ⟨rfl, rfl, rfl⟩
  · refine .get_bind ?_
    refine .set_bind ?_
    split_ifs
    · exact .pure ⟨rfl, rfl, rfl⟩
    · exact .modify ⟨rfl, rfl, rfl⟩
  · unfold dropBlock
    split_ifs
    · exact .pure ⟨rfl, rfl, rfl⟩
    · have hload : ∀ ledger w, Succeeds (loadNextBlock ledger pool pool.confidants true)
          (fun _ w' => w' = w) w := by
        exact fun ledger w => .of_eq_ok (loadNextBlock_empty ledger htransactions _ _ w) rfl
      refine .modify_bind (.bind ((wp_onWallets env (hload _ _)).imp (fun _ _ he => he.1)
        fun _ _ h => h) ?_)
      rintro _ u ⟨hw, hu⟩
      have hzero : ∀ n : UInt64, n - UInt64.ofNat pool.transactions.length = n := by
        intro n
        rw [htransactions]
        exact UInt64.sub_zero n
      refine .modify_bind (.modify_bind (.modify ?_))
      rw [hwallets]
      split_ifs
      · exact ⟨hw, by rw [hu]; rfl, by rw [hu]; exact hzero _⟩
      · exact ⟨hw, by rw [hu]; rfl, by rw [hu]; exact hzero _⟩

end Accounts

section StoreRemove

variable {env : ChainEnv} {s t u : BlockChain} {pool : Pool} {bySync flush : Bool}

theorem wp_storeBlock_accounts (hids : s.walletIds.WellFormed)
    (hsize : pool.transactions.length + pool.confidants.length ≤ 2 ^ 63)
    (hnext : pool.sequence.toNat = s.lastSequence.toNat + 1) :
    Returns (storeBlock env pool bySync) (fun r t => r = true →
      ∃ p s₁ t₁, Completed env s pool bySync p s₁ ∧
        Applied env s₁ ((p.setPreviousHash (s₁.getLastHash env)).compose env.crypto) t₁ ∧
        t = { t₁ with blocksToBeRemoved := 1 }) s := by
  have hlt : ¬ pool.sequence ≤ s.lastSequence := by
    rw [UInt64.le_iff_toNat_le]
    omega
  have hseq : pool.sequence = s.lastSequence + 1 := by
    refine UInt64.toNat_inj.mp ?_
    grind [pool.sequence.toNat_lt, UInt64.toNat_add]
  refine .get_bind ?_
  dsimp only
  rw [if_neg hlt]
  split_ifs
  · exact .pure (by simp)
  · exact .pure (by simp)
  · exact .skip fun _ _ => .pure (by simp)
  · refine .bind (wp_completeBlock_accounts env bySync hids hsize) ?_
    intro p s₁ hcompleted
    refine .bind (wp_recordBlock_accounts env p false s₁) ?_
    rintro ⟨recorded, q⟩ t₁ happlied
    split_ifs with hrecorded
    · exact .modify_bind (.pure fun _ => ⟨p, s₁, t₁, hcompleted, happlied hrecorded, rfl⟩)
    · refine .skip fun _ t₂ => .get_bind ?_
      split_ifs
      · exact .modify_bind (.pure (by simp))
      · exact .pure (by simp)

/-- The state of the accounts is the same. -/
structure SameAccountState (s v : BlockChain) : Prop where
  balance : ∀ key, (v.wallets.wallet key).balance = (s.wallets.wallet key).balance
  transNum : ∀ key, (v.wallets.wallet key).transNum = (s.wallets.wallet key).transNum
  totalTransactionsCount : v.totalTransactionsCount = s.totalTransactionsCount
  walletIds : v.walletIds.data.Perm s.walletIds.data

/-- The deferred block of `t` is the stored one, with its effects on the accounts of `s`. -/
structure Deferred (env : ChainEnv) (s : BlockChain) (pool : Pool) (bySync : Bool)
    (t : BlockChain) :
    Prop where
  isValid : t.deferredBlock.isValid = true
  readOnly : t.deferredBlock.readOnly = true
  sequence : t.deferredBlock.sequence ≠ 0
  verified : checkSignatures env.crypto t.deferredBlock = true
  removable : t.blocksToBeRemoved ≠ 0
  transfers : SameTransfers pool.transactions t.deferredBlock.transactions
  totalTransactionsCount : t.totalTransactionsCount =
    s.totalTransactionsCount + UInt64.ofNat pool.transactions.length
  entered : Entered s (listedWallets t.deferredBlock t.deferredBlock.newWallets)
    (EntersNone env s.walletIds pool bySync) { s with walletIds := t.walletIds }
  unknown : (∀ w ∈ listedWallets t.deferredBlock t.deferredBlock.newWallets,
    ∀ known ∈ s.walletIds.data, known.1 ≠ w.1) ↔ ListsUnknown s.walletIds pool bySync
  wallets : ∃ v : BlockChain, v.walletIds = t.walletIds ∧ loadNextBlock (v.ledgerEnv env)
    t.deferredBlock t.deferredBlock.confidants false s.wallets = .ok () t.wallets

theorem compose_spec (crypto : Crypto) {p : Pool} (hvalid : p.isValid = true) :
    (p.compose crypto).isValid = true ∧ (p.compose crypto).readOnly = true ∧
      (p.compose crypto).sequence = p.sequence ∧ (p.compose crypto).newWallets = p.newWallets ∧
      (p.compose crypto).confidants = p.confidants := by
  by_cases hopen : p.readOnly = true
  · rw [Pool.compose, if_pos hopen]
    exact ⟨hvalid, hopen, rfl, rfl, rfl⟩
  · rw [Pool.compose_eq _ hvalid (by simpa using hopen)]
    exact ⟨hvalid, rfl, rfl, rfl, rfl⟩

theorem setPreviousHash_spec (p : Pool) (h : PoolHash) :
    (p.setPreviousHash h).newWallets = p.newWallets ∧
      (p.setPreviousHash h).transactions = p.transactions ∧
      (p.setPreviousHash h).confidants = p.confidants := by
  grind [Pool.setPreviousHash, Pool.assign]

theorem deferred_of_storeBlock (hids : s.walletIds.WellFormed) (hbuilt : Pool.Built env.crypto pool)
    (hsize : pool.transactions.length + pool.confidants.length ≤ 2 ^ 63)
    (hnext : pool.sequence.toNat = s.lastSequence.toNat + 1)
    (hstore : storeBlock env pool bySync s = .ok true t) : Deferred env s pool bySync t := by
  obtain ⟨p, s₁, t₁, hcompleted, happlied, rfl⟩ :=
    (wp_storeBlock_accounts hids hsize hnext).of_ok hstore rfl
  obtain ⟨htransfers, hrest, hentered, hunknown⟩ := hcompleted
  obtain ⟨hdeferred, hids₁, htotal, ⟨v, hv, hload⟩, hverified⟩ := happlied
  generalize hash : s₁.getLastHash env = prev at hdeferred htotal hload hverified
  -- the block that is composed is valid: setting the previous hash sees to it, or it was built so
  have hvalid : (p.setPreviousHash prev).isValid = true := by
    unfold Pool.setPreviousHash Pool.assign
    split_ifs with hsealed
    · rw [hrest] at hsealed ⊢
      exact (hbuilt.sealed hsealed).isValid
    · rfl
  obtain ⟨hnewWallets, htransactions, hconfidants⟩ := setPreviousHash_spec p prev
  obtain ⟨hqvalid, hqsealed, hqseq, hqnew, hqconf⟩ := compose_spec env.crypto hvalid
  have hcompose := SameTransfers.compose env.crypto (p.setPreviousHash prev)
  rw [htransactions] at hcompose
  generalize hq : (p.setPreviousHash prev).compose env.crypto = q at *
  subst hdeferred
  have hseq : t₁.deferredBlock.sequence ≠ 0 := by
    have hpseq : p.sequence = pool.sequence := by rw [hrest]
    rw [hqseq, sequence_setPreviousHash, hpseq]
    intro hzero
    rw [hzero] at hnext
    simp at hnext
  have hlisted : listedWallets t₁.deferredBlock t₁.deferredBlock.newWallets =
      listedWallets p p.newWallets := by
    grind [listedWallets_congr, getWalletAddress_congr]
  have hs₁ : s₁ = { s with walletIds := s₁.walletIds } := hentered.chain
  refine ⟨hqvalid, hqsealed, hseq, hverified hseq, (by decide : (1 : Sequence) ≠ 0),
    htransfers.trans hcompose, ?_, ?_, ?_, v, hv.trans hids₁.symm, ?_⟩
  · rw [htotal, (htransfers.trans hcompose).length, hs₁]
  · rw [hlisted, hids₁, ← hs₁]
    exact hentered
  · rw [hlisted]
    exact hunknown
  · rw [hs₁] at hload
    exact hload

def TransfersOnly (ts : List Transaction) : Prop :=
  ∀ tr ∈ ts, SmartContracts.isNewState tr = false ∧ tr.amount.Normalized

theorem SameTransfers.transfersOnly {ts ts' : List Transaction} (h : SameTransfers ts ts')
    (hts : TransfersOnly ts) : TransfersOnly ts' := by
  intro tr' htr'
  obtain ⟨tr, htr, hamount, hfields⟩ := h.mem htr'
  obtain ⟨hnew, hnorm⟩ := hts tr htr
  grind [SmartContracts.isNewState, Transaction.userField, Transaction.isValid]

theorem wp_removeLastBlock_of_deferred (hwallets : s.wallets.Normalized)
    (hplain : TransfersOnly pool.transactions) (h : Deferred env s pool bySync t) :
    Wp (removeLastBlock env) (fun e _ => e = .overflow) (fun _ v =>
      SameAccountState s v ↔ ListsUnknown s.walletIds pool bySync) t := by
  have honly := h.transfers.transfersOnly hplain
  obtain ⟨v, hv, hload⟩ := h.wallets
  rw [loadNextBlock_ledgerEnv env fun tr htr => (honly tr htr).1, hv] at hload
  have hundo := (undoable_loadNextBlock (plainLedger env t.walletIds) t.deferredBlock.confidants
    (fun tr htr => ⟨(honly tr htr).2, fun hnew => by simp [(honly tr htr).1] at hnew⟩)
    (fun tr htr _ hstart => by simpa [(honly tr htr).1] using hstart.1)).undo hwallets hload
  refine (wp_removeLastBlock_deferred env h.removable h.isValid h.sequence
    (fun tr htr => (honly tr htr).1) hundo).mono ?_
  rintro _ w ⟨⟨-, hnorm, hregisters, haccount⟩, hremoved, htotal⟩
  have haccounts := WalletsCache.sameAccounts_of_account hwallets hnorm hregisters haccount
  have hcount : w.totalTransactionsCount = s.totalTransactionsCount := by
    rw [htotal, h.totalTransactionsCount, h.transfers.length]
    exact UInt64.add_sub_cancel _ _
  obtain ⟨-, hwell, added, hdata, hadded, -⟩ := h.entered
  have hperm : w.walletIds.data.Perm s.walletIds.data ↔ ListsUnknown s.walletIds pool bySync := by
    rw [hremoved, removeNewWallets_spec _ _ hwell, hdata,
      perm_filter_added_iff fun w hw => mem_map_of_mem (hadded w hw), ← h.unknown]
    grind
  rw [← hperm]
  exact ⟨fun hsame => hsame.walletIds,
    fun hperm => ⟨haccounts.balance, haccounts.transNum, hcount, hperm⟩⟩

/-- Once the block has been written, removing it restores nothing, so that it must not have changed
anything. -/
theorem wp_removeLastBlock_of_flushed
    (hsize : pool.transactions.length + pool.confidants.length < 2 ^ 63)
    (h : Deferred env s pool bySync t) (hinvalid : u.deferredBlock.isValid = false)
    (hwallets : u.wallets = t.wallets) (hwalletIds : u.walletIds = t.walletIds)
    (htotal : u.totalTransactionsCount = t.totalTransactionsCount) :
    Succeeds (removeLastBlock env) (fun _ v => SameAccountState s v ↔
      pool.transactions = [] ∧ EntersNone env s.walletIds pool bySync) u := by
  refine (wp_removeLastBlock_stored env hinvalid).mono ?_
  rintro _ v ⟨hv, hvIds, hvTotal⟩
  obtain ⟨-, -, added, hdata, -, hnone⟩ := h.entered
  have hvData : v.walletIds.data = added ++ s.walletIds.data := by rw [hvIds, hwalletIds, hdata]
  have hvCount : v.totalTransactionsCount =
      s.totalTransactionsCount + UInt64.ofNat pool.transactions.length := by
    rw [hvTotal, htotal, h.totalTransactionsCount]
  constructor
  · intro hsame
    constructor
    · have hzero : UInt64.ofNat pool.transactions.length = 0 := by
        have hsum := hvCount.symm.trans hsame.totalTransactionsCount
        exact UInt64.add_eq_left.mp hsum
      have hlength := congrArg UInt64.toNat hzero
      grind [UInt64.toNat_ofNat', length_eq_zero_iff]
    · have hperm := hsame.walletIds
      have hlength_eq := hperm.length_eq
      grind [length_eq_zero_iff]
  · rintro ⟨hempty, hentersNone⟩
    obtain ⟨w, -, hload⟩ := h.wallets
    have htransactions : t.deferredBlock.transactions = [] := by
      have hlength' := h.transfers.length
      grind
    rw [loadNextBlock_empty _ htransactions] at hload
    injection hload with _ hsame
    refine ⟨fun key => ?_, fun key => ?_, ?_, ?_⟩
    · rw [hv, hwallets, hsame]
    · rw [hv, hwallets, hsame]
    · rw [hvCount, hempty]
      exact UInt64.add_zero _
    · rw [hvData, hnone.mpr hentersNone]
      exact .refl _

/-- Storing a block without new states and removing it restores the accounts: as long as the block
has not been written, if the wallets that came with it as new were unknown; after that, if it has no
transactions and has entered no wallets. -/
theorem storeBlock_removeLastBlock_restores_iff (hids : s.walletIds.WellFormed)
    (hwallets : s.wallets.Normalized) (hbuilt : Pool.Built env.crypto pool)
    (hplain : TransfersOnly pool.transactions)
    (hsize : pool.transactions.length + pool.confidants.length < 2 ^ 63)
    (hnext : pool.sequence.toNat = s.lastSequence.toNat + 1)
    (hstore : storeBlock env pool bySync s = .ok true t)
    (hsaved : flush = true → (t.storage.poolSave env.crypto env.evict t.deferredBlock).1 = true)
    (hflush : (if flush then tryFlushDeferredBlock env else pure ()) t = .ok () u)
    (hoverflow : ∀ v, removeLastBlock env u ≠ .error .overflow v) :
    (∃ v, removeLastBlock env u = .ok () v ∧ SameAccountState s v) ↔
      if flush then pool.transactions = [] ∧ EntersNone env s.walletIds pool bySync
      else ListsUnknown s.walletIds pool bySync := by
  have hdeferred := deferred_of_storeBlock hids hbuilt (Nat.le_of_lt hsize) hnext hstore
  have hremoves : Wp (removeLastBlock env) (fun e _ => e = .overflow) (fun _ v =>
      SameAccountState s v ↔ if flush then pool.transactions = [] ∧
        EntersNone env s.walletIds pool bySync else ListsUnknown s.walletIds pool bySync) u := by
    cases flush with
    | false =>
      cases hflush
      exact wp_removeLastBlock_of_deferred hwallets hplain hdeferred
    | true =>
      have hcond : (t.deferredBlock.isValid && t.deferredBlock.readOnly &&
          checkSignatures env.crypto t.deferredBlock) = true := by
        rw [hdeferred.isValid, hdeferred.readOnly, hdeferred.verified]
        rfl
      have hwp : Returns (tryFlushDeferredBlock env) (fun _ u =>
          u.deferredBlock.isValid = false ∧ u.wallets = t.wallets ∧ u.walletIds = t.walletIds ∧
            u.totalTransactionsCount = t.totalTransactionsCount) t := by
        refine .get_bind ?_
        rw [if_pos hcond]
        have hsave : Returns (flushDeferredBlock env) (fun saved u => saved = true ∧
            u = { t with storage := u.storage }) t := ⟨hsaved rfl, rfl⟩
        refine .bind hsave ?_
        rintro _ u ⟨rfl, hu⟩
        rw [if_pos rfl, hu]
        exact .modify ⟨rfl, rfl, rfl, rfl⟩
      obtain ⟨hinvalid, hw, hwIds, htotal⟩ := hwp.of_ok hflush
      exact (wp_removeLastBlock_of_flushed hsize hdeferred hinvalid hw hwIds htotal).imp
        (fun _ _ h => h.elim) fun _ _ h => h
  have hexists_ok_of := hremoves.exists_ok_of
  grind

end StoreRemove

section Sample

def demoWallets : BlockChain := { demoNode with walletIds := ⟨[(sampleAddress 1, 0)], 1⟩ }

/-- The next block, with a transfer of five from the known wallet to an unknown one. -/
def demoTransfer (newWallets : List NewWalletInfo) : Pool :=
  { demoBlock 2 (demoNode.getLastHash demoEnv) with
    numberConfirmations := 1
    roundConfirmationMask := 1
    roundConfirmations := [zeroArray 64]
    transactions := [sampleTransfer 1 2 ⟨5, 0⟩]
    newWallets }

def demoRemoves (pool : Pool) (bySync flush : Bool) (test : BlockChain → Bool) : Bool :=
  match storeBlock demoEnv pool bySync demoWallets with
  | .ok true t =>
    match (if flush then tryFlushDeferredBlock demoEnv else pure ()) t with
    | .ok _ u =>
      match removeLastBlock demoEnv u with
      | .ok _ v => (t.storage.poolSave demoCrypto demoEnv.evict t.deferredBlock).1 &&
        decide (v.storage.errors = []) && test v
      | .error _ _ => false
    | .error _ _ => false
  | _ => false

theorem run_of_demoRemoves (pool : Pool) (bySync flush : Bool) (test : BlockChain → Bool)
    (h : demoRemoves pool bySync flush test = true) :
    ∃ t u v, storeBlock demoEnv pool bySync demoWallets = .ok true t ∧
      (if flush then tryFlushDeferredBlock demoEnv else pure ()) t = .ok () u ∧
      removeLastBlock demoEnv u = .ok () v ∧
      (t.storage.poolSave demoCrypto demoEnv.evict t.deferredBlock).1 = true ∧
      v.storage.errors = [] ∧ test v = true := by
  unfold demoRemoves at h
  split at h
  · next t hstore =>
    split at h
    · next u hflush =>
      split at h
      · next v hremove =>
        simp only [Bool.and_eq_true, decide_eq_true_eq] at h
        exact ⟨t, u, v, hstore, hflush, hremove, h.1.1, h.1.2, h.2⟩
      · cases h
    · cases h
  · cases h

/-- The block is stored, perhaps written, and removed without an error, and the accounts are not as
they were. -/
def NotRestored (pool : Pool) (bySync flush : Bool) : Prop :=
  ∃ t u v, storeBlock demoEnv pool bySync demoWallets = .ok true t ∧
    (if flush then tryFlushDeferredBlock demoEnv else pure ()) t = .ok () u ∧
    removeLastBlock demoEnv u = .ok () v ∧ v.storage.errors = [] ∧ ¬ SameAccountState demoWallets v

/-- The five are not taken back when the block has been written; and a block that lists the known
wallet as new takes it along when it is removed. -/
theorem storeBlock_removeLastBlock_not_restoring :
    Consistent demoEnv demoWallets [⟨demoGenesisHash, demoGenesis.toBinary⟩] ∧
    1 ≤ demoWallets.lastSequence ∧ NotRestored (demoTransfer []) false true ∧
    NotRestored (demoTransfer [⟨0, .addressIsSource, 0⟩]) true false := by
  refine ⟨{ consistent_demoNode with }, by decide, ?_, ?_⟩
  · obtain ⟨t, u, v, hstore, hflush, hremove, -, herrors, htest⟩ := run_of_demoRemoves
      (demoTransfer []) false true (fun v => v.totalTransactionsCount = 1 ∧
        (v.wallets.wallet (sampleKey 2)).balance = ⟨5, 0⟩) (by decide +kernel)
    refine ⟨t, u, v, hstore, hflush, hremove, herrors, fun hsame => ?_⟩
    have hbalance := hsame.balance (sampleKey 2)
    rw [(of_decide_eq_true htest).2] at hbalance
    exact absurd hbalance (by decide)
  · obtain ⟨t, u, v, hstore, hflush, hremove, -, herrors, htest⟩ := run_of_demoRemoves
      (demoTransfer [⟨0, .addressIsSource, 0⟩]) true false (fun v => v.walletIds.data = [])
      (by decide +kernel)
    refine ⟨t, u, v, hstore, hflush, hremove, herrors, fun hsame => ?_⟩
    have hperm := hsame.walletIds
    rw [of_decide_eq_true htest] at hperm
    exact absurd hperm.length_eq (by decide)

/-- Before it is written, the block that this node has made itself is taken back. -/
theorem storeBlock_removeLastBlock_restores_deferred :
    ∃ t v, storeBlock demoEnv (demoTransfer []) false demoWallets = .ok true t ∧
      removeLastBlock demoEnv t = .ok () v ∧ SameAccountState demoWallets v := by
  obtain ⟨t, u, v, hstore, hflush, hremove, -, -, -⟩ := run_of_demoRemoves
    (demoTransfer []) false false (fun _ => true) (by decide +kernel)
  have hids : demoWallets.walletIds.WellFormed := by
    refine ⟨PairTable.OneToOne.nil.cons ?_ ?_, ?_⟩
    · exact nofun
    · exact nofun
    · intro wallet h
      rw [mem_singleton.mp h]
      rfl
  have hwallets : demoWallets.wallets.Normalized := by
    intro key data h
    cases h
  have hplain : TransfersOnly (demoTransfer []).transactions := by
    unfold TransfersOnly
    decide +kernel
  have hopen : (demoTransfer []).readOnly = false := rfl
  have hlists : ListsUnknown demoWallets.walletIds (demoTransfer []) false := by
    rintro (h | h)
    · cases h
    · cases h
  obtain ⟨w, hw, hsame⟩ := (storeBlock_removeLastBlock_restores_iff hids hwallets (.unsealed hopen)
    hplain (by decide) (by decide) hstore (fun h => by cases h) hflush
    (fun w hw => by cases hremove.symm.trans hw)).mpr hlists
  cases hflush
  exact ⟨t, w, hstore, hw, hsame⟩

end Sample

end BlockChain

end CreditsNode
