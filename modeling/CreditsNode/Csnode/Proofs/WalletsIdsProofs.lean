import CreditsNode.Csnode.WalletsIds
import CreditsNode.Csdb.Proofs.SampleData

/-!
# The numbers of the wallets

The container refuses a second wallet with the same address or number, so over every run the two are
in one-to-one correspondence. The number for the next new wallet is another matter: `remove` lowers
it, whichever wallet it takes out, so that a wallet may still have it. `get` then returns the number
of the other one.
-/

namespace CreditsNode.WalletsIds

open Effect PairTable

def Refuses (ids : WalletsIds) (address : Address) (id : WalletId) : Prop :=
  address.isPublicKey = false ∨ ∃ wallet ∈ ids.data, wallet.1 = address ∨ wallet.2 = id

instance instDecidableRefuses (ids : WalletsIds) (address : Address) (id : WalletId) :
    Decidable (ids.Refuses address id) := inferInstanceAs (Decidable (_ ∨ _))

def entered (ids : WalletsIds) (address : Address) (id : WalletId) : WalletsIds :=
  { data := (address, id) :: ids.data
    nextId := if id ≥ ids.nextId then id + 1 else ids.nextId }

section Operations

variable {ids : WalletsIds} {address : Address} {id : WalletId}

theorem not_refuses_iff : ¬ ids.Refuses address id ↔
    address.isPublicKey = true ∧ ∀ wallet ∈ ids.data, wallet.1 ≠ address ∧ wallet.2 ≠ id := by
  unfold Refuses
  simp only [not_or, not_exists, not_and, Bool.not_eq_false]

theorem wp_insertWallet (E : Fault → WalletsIds → Prop) (hkey : address.isPublicKey = true) :
    Wp (insertWallet address id) E (fun r t =>
      (r.2 = false ∧ ids.Refuses address id ∧ t = ids) ∨
      (r = (id, true) ∧ ¬ ids.Refuses address id ∧
        t = { ids with data := (address, id) :: ids.data })) ids := by
  unfold Wp insertWallet
  cases hfind : ids.data.find? fun wallet => wallet.1 = address with
  | some wallet =>
    have haddress : wallet.1 = address := by simpa using List.find?_some hfind
    exact .inl ⟨rfl, .inr ⟨wallet, List.mem_of_find?_eq_some hfind, .inl haddress⟩, rfl⟩
  | none =>
    split_ifs with htaken
    · obtain ⟨wallet, hmem, hid⟩ := List.any_eq_true.mp htaken
      exact .inl ⟨rfl, .inr ⟨wallet, hmem, .inr (by simpa using hid)⟩, rfl⟩
    · refine .inr ⟨rfl, not_refuses_iff.mpr ⟨hkey, fun wallet hmem => ⟨?_, fun hid => ?_⟩⟩, rfl⟩
      · simpa using List.find?_eq_none.mp hfind wallet hmem
      · exact htaken (List.any_eq_true.mpr ⟨wallet, hmem, by simpa using hid⟩)

theorem wp_insert (ids : WalletsIds) (address : Address) (id : WalletId) : Wp (insert address id)
    (fun e t => (∃ what, e = .exception what) ∧ ¬ ids.Refuses address id ∧ idLimit ≤ id ∧
      t = { ids with data := (address, id) :: ids.data })
    (fun r t => (r = false ∧ ids.Refuses address id ∧ t = ids) ∨
      (r = true ∧ ¬ ids.Refuses address id ∧ (ids.nextId ≤ id → id < idLimit) ∧
        t = ids.entered address id)) ids := by
  cases address with
  | walletId i => exact .inl ⟨rfl, .inl rfl, rfl⟩
  | publicKey key =>
    refine .bind (wp_insertWallet _ rfl) ?_
    rintro ⟨i, inserted⟩ t (⟨hr, hrefused, rfl⟩ | ⟨hr, hfresh, rfl⟩)
    · cases hr
      exact .inl ⟨rfl, hrefused, rfl⟩
    · cases hr
      refine .get_bind ?_
      by_cases hnext : id ≥ ids.nextId
      · simp only [hnext, decide_true, Bool.and_self, if_true]
        refine .ite (fun hlimit => ?_) fun hlimit => ?_
        · exact ⟨⟨_, rfl⟩, hfresh, hlimit, rfl⟩
        · refine .inr ⟨rfl, hfresh, fun _ => UInt32.not_le.mp hlimit, ?_⟩
          unfold entered
          rw [if_pos hnext]
      · simp only [hnext, decide_false, Bool.and_false, Bool.false_eq_true, if_false]
        refine .inr ⟨rfl, hfresh, fun h => h.elim, ?_⟩
        unfold entered
        rw [if_neg hnext]

theorem wp_getId (ids : WalletsIds) (address : Address) : Wp (getId address)
    (fun e t => (∃ what, e = .exception what) ∧ ¬ ids.Refuses address ids.nextId ∧
      idLimit ≤ ids.nextId ∧ t = { ids with data := (address, ids.nextId) :: ids.data })
    (fun r t => (r.2 = false ∧ ids.Refuses address ids.nextId ∧ t = ids) ∨
      (r = (ids.nextId, true) ∧ ¬ ids.Refuses address ids.nextId ∧ ids.nextId < idLimit ∧
        t = ids.entered address ids.nextId)) ids := by
  cases address with
  | walletId i => exact .inl ⟨rfl, .inl rfl, rfl⟩
  | publicKey key =>
    refine .get_bind (.bind (wp_insertWallet _ rfl) ?_)
    rintro ⟨i, inserted⟩ t (⟨hr, hrefused, rfl⟩ | ⟨hr, hfresh, rfl⟩)
    · cases hr
      exact .inl ⟨rfl, hrefused, rfl⟩
    · cases hr
      dsimp only
      by_cases hlimit : ids.nextId ≥ idLimit
      · rw [if_pos hlimit]
        exact ⟨⟨_, rfl⟩, hfresh, hlimit, rfl⟩
      · rw [if_neg hlimit]
        refine .inr ⟨rfl, hfresh, UInt32.not_le.mp hlimit, ?_⟩
        unfold entered
        rw [if_pos (UInt32.le_refl _)]

theorem getId_of_fresh (h : ¬ ids.Refuses address ids.nextId) (hlimit : ids.nextId < idLimit) :
    getId address ids = .ok (ids.nextId, true) (ids.entered address ids.nextId) := by
  have hwp := wp_getId ids address
  cases hget : getId address ids with
  | error e t => exact absurd hlimit (UInt32.not_lt.mpr (hwp.of_error hget).2.2.1)
  | ok r t =>
    have hok := hwp.of_ok hget
    grind

end Operations

/-- The wallets have keys and distinct numbers. -/
structure WellFormed (ids : WalletsIds) : Prop where
  oneToOne : OneToOne ids.data
  publicKey : ∀ wallet ∈ ids.data, wallet.1.isPublicKey = true

namespace WellFormed

variable {ids : WalletsIds} {address : Address} {id : WalletId}

theorem new : WellFormed .new := ⟨.nil, nofun⟩

theorem cons (h : ids.WellFormed) (hfresh : ¬ ids.Refuses address id) (nextId : WalletId) :
    WellFormed ⟨(address, id) :: ids.data, nextId⟩ := by
  obtain ⟨hkey, htaken⟩ := not_refuses_iff.mp hfresh
  refine ⟨h.oneToOne.cons (fun p hp => (htaken p hp).1) (fun p hp => (htaken p hp).2), ?_⟩
  have hpublicKey := h.publicKey
  grind

theorem data_remove (h : ids.WellFormed) (address : Address) :
    (ids.remove address).data = ids.data.filter fun wallet => wallet.1 ≠ address := by
  have hself : (∀ wallet ∈ ids.data, wallet.1 ≠ address) →
      ids.data = ids.data.filter fun wallet => wallet.1 ≠ address := fun hnone =>
    (List.filter_eq_self.mpr fun wallet hmem => by simpa using hnone wallet hmem).symm
  cases address with
  | walletId i =>
    refine hself fun wallet hmem heq => ?_
    have hkey := h.publicKey wallet hmem
    rw [heq] at hkey
    cases hkey
  | publicKey key =>
    unfold remove
    by_cases hany : (ids.data.any fun wallet => wallet.1 = .publicKey key) = true
    · rw [if_pos hany]
      exact h.oneToOne.eraseP_fst _
    · grind

theorem remove (h : ids.WellFormed) (address : Address) : (ids.remove address).WellFormed := by
  have hsub : (ids.remove address).data.Sublist ids.data := by
    rw [h.data_remove]
    exact List.filter_sublist
  exact ⟨h.oneToOne.sublist hsub, fun wallet hmem => h.publicKey wallet (hsub.subset hmem)⟩

theorem find_eq (h : ids.WellFormed) (hkey : address.isPublicKey = true) :
    ids.find address = some id ↔ (address, id) ∈ ids.data := by
  cases address with
  | walletId i => cases hkey
  | publicKey key =>
    unfold find
    rw [Option.map_eq_some_iff]
    constructor
    · grind
    · exact fun hmem => ⟨_, h.oneToOne.find_fst.mpr ⟨hmem, rfl⟩, rfl⟩

theorem findaddr_eq (h : ids.WellFormed) :
    ids.findaddr id = some address ↔ (address, id) ∈ ids.data := by
  unfold findaddr
  rw [Option.map_eq_some_iff]
  constructor
  · grind
  · exact fun hmem => ⟨_, h.oneToOne.find_snd.mpr ⟨hmem, rfl⟩, rfl⟩

end WellFormed

/-- One call that returns. -/
inductive Step (s : WalletsIds) : WalletsIds → Prop
  | insert {address : Address} {id : WalletId} {r : Bool} {t : WalletsIds} :
      WalletsIds.insert address id s = .ok r t → Step s t
  | get {address : Address} {r : WalletId × Bool} {t : WalletsIds} :
      getId address s = .ok r t → Step s t
  | remove (address : Address) : Step s (s.remove address)

/-- Any number of calls. -/
abbrev Run : WalletsIds → WalletsIds → Prop := Relation.ReflTransGen Step

section Run

variable {s t : WalletsIds}

theorem WellFormed.step (h : s.WellFormed) (hstep : Step s t) : t.WellFormed := by
  cases hstep with
  | insert hrun =>
    obtain ⟨-, -, rfl⟩ | ⟨-, hfresh, -, rfl⟩ := (wp_insert s _ _).of_ok hrun
    · exact h
    · exact h.cons hfresh _
  | get hrun =>
    obtain ⟨-, -, rfl⟩ | ⟨-, hfresh, -, rfl⟩ := (wp_getId s _).of_ok hrun
    · exact h
    · exact h.cons hfresh _
  | remove => exact h.remove _

theorem WellFormed.run (h : s.WellFormed) (hrun : Run s t) : t.WellFormed := by
  induction hrun with
  | refl => exact h
  | tail _ hstep ih => exact ih.step hstep

end Run

/-- `get` enters an unknown address under a number of its own. -/
def GetsFresh (ids : WalletsIds) (address : Address) : Prop :=
  ∃ id r t, getId address ids = .ok (id, r) t ∧ (∀ a, (a, id) ∉ ids.data) ∧ t.find address = some id

theorem getsFresh_iff {ids : WalletsIds} {address : Address} (h : ids.WellFormed)
    (hunknown : ids.find address = none) (hlimit : ids.nextId < idLimit) :
    ids.GetsFresh address ↔ ∀ a, (a, ids.nextId) ∉ ids.data := by
  have hkey : address.isPublicKey = true := by
    cases address with
    | walletId i => cases hunknown
    | publicKey key => rfl
  constructor
  · rintro ⟨id, r, t, hget, hfree, hfind⟩
    obtain ⟨-, -, rfl⟩ | ⟨hr, -, -, -⟩ := (wp_getId ids address).of_ok hget
    · rw [hunknown] at hfind
      cases hfind
    · cases hr
      exact hfree
  · intro hfree
    have hfresh : ¬ ids.Refuses address ids.nextId := by
      refine not_refuses_iff.mpr ⟨hkey, fun wallet hmem => ⟨?_, ?_⟩⟩
      · rintro rfl
        rw [(h.find_eq hkey).mpr hmem] at hunknown
        cases hunknown
      · rintro hid
        rw [← hid] at hfree
        exact hfree wallet.1 hmem
    refine ⟨_, _, _, getId_of_fresh hfresh hlimit, hfree, ?_⟩
    exact ((h.cons hfresh _).find_eq hkey).mpr List.mem_cons_self

/-- In every state that calls can lead to, addresses and numbers correspond to each other, and `get`
gives an unknown address a number of its own exactly if no wallet has the number that comes next. -/
theorem getsFresh_iff_of_run {ids : WalletsIds} (hrun : Run .new ids) :
    OneToOne ids.data ∧
    (∀ address id, ids.findaddr id = some address ↔
      address.isPublicKey = true ∧ ids.find address = some id) ∧
    ∀ address, ids.find address = none → ids.nextId < idLimit →
      (ids.GetsFresh address ↔ ∀ a, (a, ids.nextId) ∉ ids.data) := by
  have h := WellFormed.new.run hrun
  refine ⟨h.oneToOne, fun address id => ?_, fun address => getsFresh_iff h⟩
  rw [h.findaddr_eq]
  constructor
  · intro hmem
    have hkey := h.publicKey _ hmem
    exact ⟨hkey, (h.find_eq hkey).mpr hmem⟩
  · exact fun ⟨hkey, hfind⟩ => (h.find_eq hkey).mp hfind

section Sample

/-- Two wallets get numbers, and the first is removed. -/
def sampleIds : WalletsIds :=
  ((WalletsIds.new.entered (sampleAddress 1) 0).entered (sampleAddress 2) 1).remove
    (sampleAddress 1)

theorem run_sampleIds : Run .new sampleIds := by
  have hfirst : getId (sampleAddress 1) .new = .ok _ (.entered .new (sampleAddress 1) 0) :=
    getId_of_fresh (by decide +kernel) (by decide +kernel)
  have hsecond : getId (sampleAddress 2) (.entered .new (sampleAddress 1) 0) = .ok _ _ :=
    getId_of_fresh (by decide +kernel) (by decide +kernel)
  exact ((Relation.ReflTransGen.single (.get hfirst)).tail (.get hsecond)).tail (.remove _)

/-- The third wallet is told the number of the second one and is not entered. -/
theorem get_returns_taken_id :
    Run .new sampleIds ∧ sampleIds.find (sampleAddress 3) = none ∧
    sampleIds.nextId < idLimit ∧ (sampleAddress 2, 1) ∈ sampleIds.data ∧
    getId (sampleAddress 3) sampleIds = .ok (1, false) sampleIds ∧
    ¬ sampleIds.GetsFresh (sampleAddress 3) := by
  have hmem : (sampleAddress 2, sampleIds.nextId) ∈ sampleIds.data := by decide +kernel
  have hunknown : sampleIds.find (sampleAddress 3) = none := by decide +kernel
  have hlimit : sampleIds.nextId < idLimit := by decide +kernel
  refine ⟨run_sampleIds, hunknown, hlimit, hmem, rfl, fun hfresh => ?_⟩
  grind [getsFresh_iff, WellFormed.new.run, run_sampleIds]

/-- A fourth wallet is entered when the second one is gone too. -/
theorem getsFresh_iff_of_run_removed :
    (sampleIds.remove (sampleAddress 2)).GetsFresh (sampleAddress 4) :=
  ((getsFresh_iff_of_run (run_sampleIds.tail (.remove _))).2.2 (sampleAddress 4) (by decide +kernel)
    (by decide +kernel)).mpr (by
      intro a hmem
      have hnil : (sampleIds.remove (sampleAddress 2)).data = [] := by decide +kernel
      rw [hnil] at hmem
      cases hmem)

end Sample

end CreditsNode.WalletsIds
