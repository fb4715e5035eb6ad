import CreditsNode.Csnode.Proofs.ChainLinkageProofs
import CreditsNode.Csnode.Proofs.WalletsIdsProofs

/-!
# The new wallets of a block

The node that makes a block lists the addresses it did not know, each with the number it got, and
the other nodes go over this list. Both come to the same table: a number in the list is the next one
at the moment its wallet is reached.
-/

namespace CreditsNode

open Effect List

namespace WalletsIds

/-- The same wallets and the same next number. -/
structure SameIds (ids r : WalletsIds) : Prop where
  data : r.data.Perm ids.data
  nextId : r.nextId = ids.nextId

theorem SameIds.refl (ids : WalletsIds) : SameIds ids ids := ⟨.refl _, rfl⟩

variable {ids t : WalletsIds} {wallets : List (Address × WalletId)}

theorem SameIds.refuses_iff {r : WalletsIds} (h : SameIds ids r) {address : Address}
    {id : WalletId} : r.Refuses address id ↔ ids.Refuses address id := by
  unfold Refuses
  simp only [h.data.mem_iff]

theorem SameIds.entered {r : WalletsIds} (h : SameIds ids r) (address : Address) (id : WalletId) :
    SameIds (ids.entered address id) (r.entered address id) := by
  refine ⟨h.data.cons _, ?_⟩
  unfold WalletsIds.entered
  rw [h.nextId]

/-- Unknown wallets are entered one after another, each with the next number. -/
inductive Enters : WalletsIds → List (Address × WalletId) → WalletsIds → Prop
  | nil {ids : WalletsIds} : Enters ids [] ids
  | cons {ids t : WalletsIds} {address : Address} {wallets : List (Address × WalletId)} :
      ¬ ids.Refuses address ids.nextId → ids.nextId < idLimit →
      Enters (ids.entered address ids.nextId) wallets t →
      Enters ids ((address, ids.nextId) :: wallets) t

theorem Enters.append {u : WalletsIds} {wallets' : List (Address × WalletId)}
    (h : Enters ids wallets t) (h' : Enters t wallets' u) : Enters ids (wallets ++ wallets') u := by
  induction h with
  | nil => exact h'
  | cons hfresh hlimit _ ih => exact .cons hfresh hlimit (ih h')

theorem Enters.eq_of_nil (h : Enters ids [] t) : t = ids := by
  cases h
  rfl

theorem Enters.data (h : Enters ids wallets t) : t.data = wallets.reverse ++ ids.data := by
  induction h with
  | nil => rfl
  | cons _ _ _ ih =>
    rw [ih, reverse_cons, append_assoc]
    rfl

theorem Enters.wellFormed (h : Enters ids wallets t) (hids : ids.WellFormed) : t.WellFormed := by
  induction h with
  | nil => exact hids
  | cons hfresh _ _ ih => exact ih (hids.cons hfresh _)

theorem Enters.unknown (h : Enters ids wallets t) :
    ∀ wallet ∈ wallets, ∀ known ∈ ids.data, known.1 ≠ wallet.1 := by
  induction h with
  | nil => exact nofun
  | cons hfresh _ _ ih =>
    intro wallet hmem known hknown
    rcases mem_cons.mp hmem with rfl | hmem
    · exact ((not_refuses_iff.mp hfresh).2 known hknown).1
    · exact ih wallet hmem known (mem_cons_of_mem _ hknown)

theorem Enters.nextId
    (h : Enters ids wallets t) : t.nextId.toNat = ids.nextId.toNat + wallets.length := by
  induction h with
  | nil => rfl
  | @cons ids t address wallets _ hlimit _ ih =>
    have hlt := UInt32.lt_iff_toNat_lt.mp hlimit
    rw [ih, length_cons, entered, if_pos (UInt32.le_refl _), UInt32.toNat_add]
    simp only [idLimit, UInt32.reduceToNat] at hlt ⊢
    omega

end WalletsIds

namespace BlockChain

open WalletsIds

/-- The wallets that the entries name, up to the first entry that names none. -/
def listedWallets (pool : Pool) : List NewWalletInfo → List (Address × WalletId)
  | [] => []
  | newWall :: newWallets =>
    match getWalletAddress pool newWall with
    | none => []
    | some address => (address, newWall.walletId) :: listedWallets pool newWallets

def NamesWallets (pool : Pool) (newWallets : List NewWalletInfo) : Prop :=
  ∀ newWall ∈ newWallets, (getWalletAddress pool newWall).isSome = true

theorem wp_onWalletIds {α : Type} {m : EStateM Fault WalletsIds α} {s : BlockChain}
    {E : Fault → WalletsIds → Prop} {P : α → WalletsIds → Prop} (h : Wp m E P s.walletIds) :
    Wp (onWalletIds m) (fun e t => E e t.walletIds ∧ t = { s with walletIds := t.walletIds })
      (fun a t => P a t.walletIds ∧ t = { s with walletIds := t.walletIds }) s := by
  unfold Wp onWalletIds at *
  cases hm : m s.walletIds with
  | ok a ids =>
    rw [hm] at h
    exact ⟨h, rfl⟩
  | error e ids =>
    rw [hm] at h
    exact ⟨h, rfl⟩

theorem length_listedWallets_le (pool : Pool) (ws : List NewWalletInfo) :
    (listedWallets pool ws).length ≤ ws.length := by
  induction ws with
  | nil => exact Nat.le_refl 0
  | cons w ws ih =>
    unfold listedWallets
    split
    · exact Nat.zero_le _
    · exact Nat.succ_le_succ ih

variable {pool : Pool} {ws : List NewWalletInfo} {env : ChainEnv}

theorem listedWallets_append {ws' : List NewWalletInfo} (h : NamesWallets pool ws) :
    listedWallets pool (ws ++ ws') = listedWallets pool ws ++ listedWallets pool ws' := by
  induction ws with
  | nil => rfl
  | cons w ws ih =>
    obtain ⟨address, haddress⟩ := Option.isSome_iff_exists.mp (h w mem_cons_self)
    simp only [cons_append, listedWallets, haddress]
    rw [ih fun w' hw' => h w' (mem_cons_of_mem w hw')]

theorem listedWallets_eq_nil (h : NamesWallets pool ws) : listedWallets pool ws = [] ↔ ws = [] := by
  cases ws with
  | nil => exact iff_of_true rfl rfl
  | cons w ws =>
    obtain ⟨address, haddress⟩ := Option.isSome_iff_exists.mp (h w mem_cons_self)
    simp [listedWallets, haddress]

theorem listedWallets_congr {p q : Pool}
    (h : ∀ newWall, getWalletAddress p newWall = getWalletAddress q newWall)
    (ws : List NewWalletInfo) : listedWallets p ws = listedWallets q ws := by
  induction ws with
  | nil => rfl
  | cons w ws ih =>
    unfold listedWallets
    rw [h w, ih]

/-- The entries are those of the wallets that were entered between `s` and `t`. -/
structure Lists (pool : Pool) (s : BlockChain) (ws : List NewWalletInfo) (t : BlockChain) :
    Prop where
  names : NamesWallets pool ws
  enters : Enters s.walletIds (listedWallets pool ws) t.walletIds
  chain : t = { s with walletIds := t.walletIds }

namespace Lists

variable {pool : Pool} {s t u : BlockChain} {ws ws' : List NewWalletInfo}

theorem nil : Lists pool s [] s := ⟨nofun, .nil, rfl⟩

theorem append (h : Lists pool s ws t) (h' : Lists pool t ws' u) : Lists pool s (ws ++ ws') u := by
  refine ⟨?_, ?_, ?_⟩
  · intro w hw
    rcases mem_append.mp hw with hw | hw
    · exact h.names w hw
    · exact h'.names w hw
  · rw [listedWallets_append h.names]
    exact h.enters.append h'.enters
  · rw [h'.chain, h.chain]

theorem nextId_le (h : Lists pool s ws t) :
    t.walletIds.nextId.toNat ≤ s.walletIds.nextId.toNat + ws.length := by
  rw [h.enters.nextId]
  exact Nat.add_le_add_left (length_listedWallets_le pool ws) _

end Lists

def IsNew (env : ChainEnv) (ids : WalletsIds) (address : Address) : Prop :=
  address ≠ env.genesisAddress ∧ ¬ ids.Refuses address ids.nextId

def Scans (env : ChainEnv) (pool : Pool) (addresses : List Address) (ws : List NewWalletInfo)
    (m : ChainM (List NewWalletInfo)) : Prop :=
  ∀ s, Wp m (fun _ _ => idLimit.toNat < s.walletIds.nextId.toNat + addresses.length)
    (fun ws' t => ∃ added, ws' = ws ++ added ∧ Lists pool s added t ∧
      added.length ≤ addresses.length ∧
      (added = [] ↔ ∀ address ∈ addresses, ¬ IsNew env s.walletIds address)) s

namespace Scans

variable {env : ChainEnv} {pool : Pool} {addresses addresses' : List Address}
  {ws : List NewWalletInfo} {m : ChainM (List NewWalletInfo)}

theorem pure : Scans env pool [] ws (Pure.pure ws) := fun _ =>
  .pure ⟨[], (append_nil ws).symm, .nil, Nat.le_refl 0, by simp⟩

theorem bind {f : List NewWalletInfo → ChainM (List NewWalletInfo)}
    (hm : Scans env pool addresses [] m)
    (hf : ∀ added, Scans env pool addresses' (ws ++ added) (f added)) :
    Scans env pool (addresses ++ addresses') ws (m >>= f) := by
  intro s
  rw [length_append]
  refine .bind ((hm s).imp (fun _ _ h => by omega) fun _ _ h => h) ?_
  rintro added t ⟨_, rfl, hadded, hlength, hnew⟩
  have hnext := hadded.nextId_le
  refine (hf added t).imp (fun _ _ h => by omega) ?_
  rintro _ u ⟨added', rfl, hadded', hlength', hnew'⟩
  refine ⟨added ++ added', append_assoc ws added added', hadded.append hadded', ?_, ?_⟩
  · rw [length_append]
    omega
  · rw [append_eq_nil_iff, hnew', forall_mem_append, ← hnew]
    refine and_congr_right fun hnil => ?_
    -- as long as nothing is entered, the table is the one at the beginning
    have henters := hadded.enters
    rw [hnil] at henters
    rw [henters.eq_of_nil]

end Scans

theorem scans_addNewWalletToPool {address : Address} {trxInd : Nat} {addressType : AddressType}
    (haddress : ∀ id, getWalletAddress pool ⟨BitVec.ofNat 63 trxInd, addressType, id⟩ =
    some address) :
    Scans env pool [address] [] (addNewWalletToPool env address trxInd addressType) := by
  intro s
  unfold addNewWalletToPool
  have hnone : ¬ IsNew env s.walletIds address →
      ∃ added, [] = [] ++ added ∧ Lists pool s added s ∧ added.length ≤ [address].length ∧
        (added = [] ↔ ∀ a ∈ [address], ¬ IsNew env s.walletIds a) :=
    fun hold => ⟨[], rfl, .nil, Nat.zero_le 1, by simpa using hold⟩
  split_ifs with hskip
  · refine .pure (hnone ?_)
    rintro ⟨hgenesis, hfresh⟩
    have hkey := (not_refuses_iff.mp hfresh).1
    simp [hkey, hgenesis] at hskip
  · refine .bind ((wp_onWalletIds (wp_getId _ address)).imp ?_ fun _ _ h => h) ?_
    · intro _ _ h
      exact Nat.lt_succ_of_le (UInt32.le_iff_toNat_le.mp h.1.2.2.1)
    · rintro ⟨id, isNew⟩ t ⟨⟨hr, hrefused, hids⟩ | ⟨hr, hfresh, hlimit, hids⟩, hchain⟩
      · cases hr
        have hst : t = s := by rw [hchain, hids]
        rw [hst]
        exact .pure (hnone fun hnew => hnew.2 hrefused)
      · cases hr
        have hgenesis : address ≠ env.genesisAddress := by
          rintro rfl
          simp at hskip
        refine .pure ⟨_, rfl, ⟨?_, ?_, hchain⟩, Nat.le_refl 1, ?_⟩
        · intro w hw
          rw [mem_singleton.mp hw, haddress]
          rfl
        · simp only [listedWallets, haddress, hids]
          exact .cons hfresh hlimit .nil
        · refine iff_of_false (by simp) fun hold => ?_
          exact hold address (mem_singleton_self address) ⟨hgenesis, hfresh⟩

theorem getWalletAddress_transaction {idx : Nat} {t : Transaction}
    (h : pool.transactions[idx]? = some t) (hidx : idx < 2 ^ 63) (addressType : AddressType)
    (id : WalletId) : getWalletAddress pool ⟨BitVec.ofNat 63 idx, addressType, id⟩ =
      some (if addressType = .addressIsSource then t.source else t.target) := by
  unfold getWalletAddress
  rw [BitVec.toNat_ofNat, Nat.mod_eq_of_lt hidx]
  simp only [h]
  cases addressType <;> rfl

theorem getWalletAddress_confidant {i : Nat} {key : PublicKey}
    (h : pool.confidants[i]? = some key) (hidx : pool.transactions.length + i < 2 ^ 63)
    (addressType : AddressType) (id : WalletId) :
    getWalletAddress pool ⟨BitVec.ofNat 63 (pool.transactions.length + i), addressType, id⟩ =
      some (.publicKey key) := by
  unfold getWalletAddress
  grind

def addressesOf (ts : List Transaction) : List Address := ts.flatMap fun t => [t.source, t.target]

def scannedAddresses (pool : Pool) : List Address :=
  addressesOf pool.transactions ++ pool.confidants.map .publicKey

theorem length_scannedAddresses (pool : Pool) : (scannedAddresses pool).length =
    2 * pool.transactions.length + pool.confidants.length := by
  unfold scannedAddresses addressesOf
  simp [Nat.mul_comm]

theorem scans_newWalletsOfTransactions {ts : List Transaction}
    {idx : Nat} (hts : pool.transactions.drop idx = ts) (hidx : idx + ts.length ≤ 2 ^ 63) :
    Scans env pool (addressesOf ts) [] (newWalletsOfTransactions env idx ts) := by
  induction ts generalizing idx with
  | nil => exact Scans.pure
  | cons t ts ih =>
    rw [length_cons] at hidx
    have hhead : pool.transactions[idx]? = some t := by
      rw [← List.head?_drop, hts]
      rfl
    have htail : pool.transactions.drop (idx + 1) = ts := by
      rw [← drop_drop, hts]
      rfl
    have hentry := getWalletAddress_transaction hhead (by omega)
    have haddresses : addressesOf (t :: ts) = [t.source] ++
        ([t.target] ++ (addressesOf ts ++ [])) := by
      rw [append_nil]
      rfl
    rw [haddresses]
    refine .bind (scans_addNewWalletToPool (hentry .addressIsSource)) fun source => ?_
    refine .bind (scans_addNewWalletToPool (hentry .addressIsTarget)) fun target => ?_
    exact .bind (ih htail (by omega)) fun rest => .pure

theorem scans_newWalletsOfConfidants {keys : List PublicKey} {i : Nat}
    (hkeys : pool.confidants.drop i = keys)
    (hidx : pool.transactions.length + i + keys.length ≤ 2 ^ 63) :
    Scans env pool (keys.map .publicKey) []
      (newWalletsOfConfidants env (pool.transactions.length + i) keys) := by
  induction keys generalizing i with
  | nil => exact Scans.pure
  | cons key keys ih =>
    rw [length_cons] at hidx
    have hhead : pool.confidants[i]? = some key := by
      rw [← List.head?_drop, hkeys]
      rfl
    have htail : pool.confidants.drop (i + 1) = keys := by
      rw [← drop_drop, hkeys]
      rfl
    have hentry := getWalletAddress_confidant hhead (by omega)
    have haddresses : (key :: keys).map Address.publicKey =
        [.publicKey key] ++ (keys.map .publicKey ++ []) := by
      rw [append_nil]
      rfl
    rw [haddresses]
    refine .bind (scans_addNewWalletToPool (hentry .addressIsTarget)) fun wallet => ?_
    exact .bind (ih htail (by omega)) fun rest => .pure

theorem wp_addNewWalletsToPool_lists (s : BlockChain) (hopen : pool.readOnly = false)
    (hsize : pool.transactions.length + pool.confidants.length ≤ 2 ^ 63) :
    Wp (addNewWalletsToPool env pool) (fun _ _ => idLimit.toNat <
        s.walletIds.nextId.toNat + (scannedAddresses pool).length)
      (fun p t => ∃ ws, p = { pool with newWallets := ws } ∧ Lists pool s ws t ∧
        (ws = [] ↔ ∀ address ∈ scannedAddresses pool, ¬ IsNew env s.walletIds address)) s := by
  let scan : ChainM (List NewWalletInfo) := do
    let ofTransactions ← newWalletsOfTransactions env 0 pool.transactions
    let ofConfidants ← newWalletsOfConfidants env pool.transactions.length pool.confidants
    return ofTransactions ++ ofConfidants
  have hscans : Scans env pool (scannedAddresses pool) [] scan := by
    have haddresses : scannedAddresses pool =
        addressesOf pool.transactions ++ (pool.confidants.map .publicKey ++ []) := by
      rw [append_nil]
      rfl
    rw [haddresses]
    refine .bind (scans_newWalletsOfTransactions drop_zero (by omega)) fun ofTransactions => ?_
    exact .bind (scans_newWalletsOfConfidants drop_zero (by omega)) fun ofConfidants => .pure
  have hmake : addNewWalletsToPool env pool =
      scan >>= fun ws => pure { pool with newWallets := ws } := by
    unfold addNewWalletsToPool
    rw [if_neg (by simp [hopen])]
    simp only [scan, bind_assoc, pure_bind]
  rw [hmake]
  refine .bind (hscans s) ?_
  rintro ws t ⟨_, rfl, hlists, -, hnew⟩
  exact .pure ⟨ws, rfl, hlists, hnew⟩

theorem wp_insertNewWalletIds_of_enters {ids t : WalletsIds}
    {r : BlockChain} (hnames : NamesWallets pool ws)
    (henters : Enters ids (listedWallets pool ws) t) (hsame : SameIds ids r.walletIds) :
    Succeeds (insertNewWalletIds pool ws) (fun ok u => ok = true ∧ SameIds t u.walletIds) r := by
  induction ws generalizing ids r with
  | nil =>
    cases henters
    exact .pure ⟨rfl, hsame⟩
  | cons w ws ih =>
    obtain ⟨address, haddress⟩ := Option.isSome_iff_exists.mp (hnames w mem_cons_self)
    simp only [listedWallets, haddress] at henters
    generalize hid : w.walletId = id at henters
    cases henters with
    | cons hfresh hlimit hrest =>
      simp only [insertNewWalletIds, haddress, hid]
      refine .bind ((wp_onWalletIds (wp_insert _ address ids.nextId)).imp ?_ fun _ _ h => h) ?_
      · exact fun _ _ h => absurd hlimit (UInt32.not_lt.mpr h.1.2.2.1)
      · rintro _ u ⟨⟨-, hrefused, -⟩ | ⟨-, -, -, hids⟩, -⟩
        · exact absurd (hsame.refuses_iff.mp hrefused) hfresh
        · refine ih (fun w' hw' => hnames w' (mem_cons_of_mem w hw')) hrest ?_
          rw [hids]
          exact hsame.entered address ids.nextId

theorem wp_catching {m : ChainM Bool} {s : BlockChain} {E : Fault → BlockChain → Prop}
    {Q : Bool → BlockChain → Prop} (h : Wp m (fun e t => (∃ what, e = .exception what) ∧ Q false t ∨
      (∀ what, e ≠ .exception what) ∧ E e t) Q s) : Wp (catching m) E Q s := by
  unfold Wp at h
  cases hm : m s with
  | ok a t =>
    rw [hm] at h
    have hcatch : catching m s = .ok a t := by
      unfold catching
      rw [hm]
    unfold Wp
    rw [hcatch]
    exact h
  | error e t =>
    rw [hm] at h
    obtain ⟨⟨what, rfl⟩, hQ⟩ | ⟨hother, hE⟩ := h
    · have hcatch : catching m s = .ok false t := by
        unfold catching
        rw [hm]
      unfold Wp
      rw [hcatch]
      exact hQ
    · have hcatch : catching m s = .error e t := by
        unfold catching
        rw [hm]
        cases e with
        | exception what => exact absurd rfl (hother what)
        | overflow | undefined | outOfFuel => rfl
      unfold Wp
      rw [hcatch]
      exact hE

/-- A node that goes over the new wallets of a block comes to the table of the node that made the
block. -/
theorem updateWalletIds_agrees {env : ChainEnv} {pool : Pool} {s r : BlockChain}
    (hopen : pool.readOnly = false) (hsame : SameIds s.walletIds r.walletIds)
    (hlimit : s.walletIds.nextId.toNat +
      (2 * pool.transactions.length + pool.confidants.length) ≤ idLimit.toNat) :
    ∃ p s' r', addNewWalletsToPool env pool s = .ok p s' ∧ updateWalletIds p r = .ok true r' ∧
      SameIds s'.walletIds r'.walletIds := by
  have hlt : idLimit.toNat < 2 ^ 63 := by decide
  have hmake : Wp (addNewWalletsToPool env pool) _ _ s :=
    wp_addNewWalletsToPool_lists s hopen (by omega)
  rw [length_scannedAddresses] at hmake
  obtain ⟨p, s', hs', ws, rfl, ⟨hnames, henters, -⟩, -⟩ :=
    (hmake.imp (fun _ _ h => absurd h (by omega)) fun _ _ h => h).exists_ok
  have hlisted : listedWallets { pool with newWallets := ws } ws = listedWallets pool ws := by
    refine listedWallets_congr ?_ ws
    exact fun _ => rfl
  rw [← hlisted] at henters
  have hnames' : NamesWallets { pool with newWallets := ws } ws := hnames
  obtain ⟨_, r', hr', rfl, hagree⟩ :=
    (wp_catching ((wp_insertNewWalletIds_of_enters hnames' henters hsame).imp
      (fun _ _ h => h.elim) fun _ _ h => h)).exists_ok
  exact ⟨_, s', r', hs', hr', hagree⟩

/-- A block with two transfers between unknown wallets, one of them named twice. -/
def demoTransfers : Pool :=
  { demoBlock 2 none with transactions := [sampleTransfer 1 2 0, sampleTransfer 2 3 0] }

theorem updateWalletIds_agrees_transfers :
    ∃ p s' r', addNewWalletsToPool demoEnv demoTransfers demoNode = .ok p s' ∧
      updateWalletIds p demoNode = .ok true r' ∧ SameIds s'.walletIds r'.walletIds :=
  updateWalletIds_agrees rfl (.refl _) (by decide)

end BlockChain

end CreditsNode
