import Mathlib.Data.List.Dedup
import Mathlib.Data.List.Perm.Subperm

/-!
# Maps that forget the oldest key

A map with room for a fixed number of keys. Storing a new key in a full map removes the key that was
stored first, so a key is lost only after as many other keys have been stored as the map has room
for.
-/

/-- A map of at most `capacity` keys, the oldest first. -/
structure FifoMap (κ ν : Type) (capacity : Nat) where
  entries : List (κ × ν)
  nodup : (entries.map Prod.fst).Nodup
  bounded : entries.length ≤ capacity

namespace FifoMap

open List

variable {κ ν : Type} {capacity : Nat}

/-- The map without keys. -/
def empty : FifoMap κ ν capacity := ⟨[], List.nodup_nil, Nat.zero_le _⟩

def keys (m : FifoMap κ ν capacity) : List κ := m.entries.map Prod.fst

/-- What stays when one more key is stored. -/
def spared (m : FifoMap κ ν capacity) : List (κ × ν) :=
  if m.entries.length = capacity then m.entries.tail else m.entries

theorem spared_sublist (m : FifoMap κ ν capacity) : m.spared.Sublist m.entries := by
  unfold spared
  split_ifs
  · exact tail_sublist _
  · exact List.Sublist.refl _

theorem length_spared_lt [Fact (0 < capacity)] (m : FifoMap κ ν capacity) :
    m.spared.length < capacity := by
  have hpos : 0 < capacity := Fact.out
  have hle := m.bounded
  unfold spared
  grind

variable [DecidableEq κ]

/-! ## Values -/

/-- The entry with `f` applied to its value, if it has the key. -/
def update (key : κ) (f : ν → ν) (e : κ × ν) : κ × ν := if e.1 = key then (e.1, f e.2) else e

@[simp] theorem update_fst (key : κ) (f : ν → ν) (e : κ × ν) : (update key f e).1 = e.1 := by
  unfold update
  split_ifs <;> rfl

theorem map_update_fst (key : κ) (f : ν → ν) (entries : List (κ × ν)) :
    (entries.map (update key f)).map Prod.fst = entries.map Prod.fst := by
  rw [map_map]
  exact map_congr_left fun e _ => update_fst key f e

/-- `f` is applied to the value of the key. -/
def modify (m : FifoMap κ ν capacity) (key : κ) (f : ν → ν) : FifoMap κ ν capacity where
  entries := m.entries.map (update key f)
  nodup := (map_update_fst key f m.entries).symm ▸ m.nodup
  bounded := Nat.le_trans (Nat.le_of_eq (List.length_map _)) m.bounded

@[simp] theorem keys_modify (m : FifoMap κ ν capacity) (key : κ) (f : ν → ν) :
    (m.modify key f).keys = m.keys := map_update_fst key f m.entries

theorem modify_modify (m : FifoMap κ ν capacity) (key : κ) (f g : ν → ν) :
    (m.modify key f).modify key g = m.modify key (g ∘ f) := by
  unfold modify
  congr 1
  simp only [map_map, map_inj_left, Function.comp_apply, update]
  grind

def find (m : FifoMap κ ν capacity) (key : κ) : Option ν :=
  (m.entries.find? fun e => e.1 = key).map Prod.snd

variable {m : FifoMap κ ν capacity} {key : κ}

theorem find_eq_none_iff : m.find key = none ↔ key ∉ m.keys := by
  unfold find keys
  rw [Option.map_eq_none_iff, List.find?_eq_none]
  grind

theorem find_eq_some_iff {value : ν} : m.find key = some value ↔ (key, value) ∈ m.entries := by
  unfold find
  constructor
  · intro h
    obtain ⟨e, he, rfl⟩ := Option.map_eq_some_iff.mp h
    grind
  · intro hmem
    cases hfind : m.entries.find? fun e => e.1 = key with
    | none =>
      have hne := List.find?_eq_none.mp hfind (key, value) hmem
      simp at hne
    | some e =>
      grind [m.nodup, inj_on_of_nodup_map]

theorem find_modify (m : FifoMap κ ν capacity) (key : κ) (f : ν → ν) (k : κ) :
    (m.modify key f).find k = if k = key then (m.find k).map f else m.find k := by
  unfold find modify
  have hsame : ((fun e : κ × ν => decide (e.1 = k)) ∘ update key f) = fun e =>
      decide (e.1 = k) := by
    funext e
    simp
  rw [List.find?_map, hsame, Option.map_map]
  cases hfind : m.entries.find? fun e => decide (e.1 = k) with
  | none =>
    split_ifs <;> rfl
  | some e =>
    have hkey : e.1 = k := by simpa using List.find?_some hfind
    show some (update key f e).2 = _
    unfold update
    rw [hkey]
    split_ifs <;> rfl

/-! ## Storing -/

def tryStore [Fact (0 < capacity)] (m : FifoMap κ ν capacity) (key : κ) (value : ν) :
    FifoMap κ ν capacity :=
  if h : m.find key = none then
    { entries := m.spared ++ [(key, value)]
      nodup := by
        rw [List.map_append, List.map_singleton]
        refine List.nodup_append.mpr ⟨m.nodup.sublist (m.spared_sublist.map _),
          List.nodup_singleton _, ?_⟩
        rintro k hk _ hk' rfl
        have hmem := (m.spared_sublist.map Prod.fst).subset hk
        rw [List.mem_singleton.mp hk'] at hmem
        exact find_eq_none_iff.mp h hmem
      bounded := by
        rw [List.length_append, List.length_singleton]
        exact m.length_spared_lt }
  else m

section TryStore

variable [Fact (0 < capacity)]

variable {m : FifoMap κ ν capacity} {key : κ}

theorem tryStore_of_find {old : ν} (h : m.find key = some old)
    (value : ν) : m.tryStore key value = m := by
  unfold tryStore
  rw [dif_neg (by rw [h]; exact Option.some_ne_none _)]

theorem entries_tryStore (h : m.find key = none) (value : ν) :
    (m.tryStore key value).entries = m.spared ++ [(key, value)] := by
  unfold tryStore
  rw [dif_pos h]

theorem keys_tryStore (h : m.find key = none) (value : ν) :
    (m.tryStore key value).keys =
      (if m.keys.length = capacity then m.keys.tail else m.keys) ++ [key] := by
  grind [keys, entries_tryStore, spared, map_tail]

theorem mem_entries_of_tryStore {value : ν} {e : κ × ν}
    (h : e ∈ (m.tryStore key value).entries) : e ∈ m.entries ∨ e = (key, value) := by
  have hspared := m.spared_sublist.subset
  cases hfind : m.find key with
  | some old => exact .inl (tryStore_of_find hfind value ▸ h)
  | none => grind [entries_tryStore]

theorem find_tryStore_self (m : FifoMap κ ν capacity) (key : κ) (value : ν) :
    (m.tryStore key value).find key = some ((m.find key).getD value) := by
  cases hfind : m.find key with
  | some old => rw [tryStore_of_find hfind, hfind, Option.getD_some]
  | none => simp [find_eq_some_iff, entries_tryStore hfind]

theorem find_tryStore_of_mem {key k : κ} {value : ν} (hne : k ≠ key)
    (hk : k ∈ (m.tryStore key value).keys) : (m.tryStore key value).find k = m.find k := by
  obtain ⟨e, he, rfl⟩ := mem_map.mp hk
  have hold : e ∈ m.entries := by
    refine (mem_entries_of_tryStore he).resolve_right ?_
    rintro rfl
    exact hne rfl
  rw [find_eq_some_iff.mpr he, find_eq_some_iff.mpr hold]

end TryStore

/-! ## How long a key is kept -/

def Recent (m : FifoMap κ ν capacity) (key : κ) (seen : List κ) : Prop :=
  ∃ old new, m.keys = old ++ key :: new ∧ new ⊆ seen

/-- The keys other than the given one. -/
def others (key : κ) (seen : List κ) : List κ := (seen.filter fun k => k ≠ key).dedup

theorem mem_others {key k : κ} {seen : List κ} : k ∈ others key seen ↔ k ∈ seen ∧ k ≠ key := by
  unfold others
  rw [mem_dedup, mem_filter, decide_eq_true_eq]

variable {seen seen' : List κ}

theorem length_others_le (key : κ) (h : seen ⊆ seen') :
    (others key seen).length ≤ (others key seen').length := by
  refine (List.Nodup.subperm (nodup_dedup _) fun k hk => ?_).length_le
  exact mem_others.mpr ⟨h (mem_others.mp hk).1, (mem_others.mp hk).2⟩

omit [DecidableEq κ] in
theorem Recent.mem {seen : List κ} (h : m.Recent key seen) : key ∈ m.keys := by
  obtain ⟨old, new, hkeys, -⟩ := h
  simp [hkeys]

omit [DecidableEq κ] in
theorem Recent.mono (h : m.Recent key seen) (hseen : seen ⊆ seen') : m.Recent key seen' := by
  obtain ⟨old, new, hkeys, hnew⟩ := h
  exact ⟨old, new, hkeys, List.Subset.trans hnew hseen⟩

theorem Recent.modify {seen : List κ} (h : m.Recent key seen)
    (k : κ) (f : ν → ν) : (m.modify k f).Recent key seen := by
  rwa [Recent, keys_modify]

variable [Fact (0 < capacity)]

theorem recent_tryStore (h : m.find key = none) (value : ν) :
    (m.tryStore key value).Recent key [] :=
  ⟨_, [], keys_tryStore h value, List.Subset.refl _⟩

theorem Recent.tryStore {key k : κ}
    (h : m.Recent key seen) (hfind : m.find k = none) (hseen : seen ⊆ seen') (hk : k ∈ seen')
    (hfew : (others key seen').length < capacity) (value : ν) :
    (m.tryStore k value).Recent key seen' := by
  obtain ⟨old, new, hkeys, hnew⟩ := h
  have hstored : new ++ [k] ⊆ seen' := by grind
  have habsent : k ∉ old ++ key :: new := hkeys ▸ find_eq_none_iff.mp hfind
  have hnodup : (old ++ key :: new).Nodup := hkeys ▸ m.nodup
  unfold Recent
  rw [keys_tryStore hfind, hkeys]
  split_ifs with hfull
  · cases old with
    | cons first old => exact ⟨old, new ++ [k], by simp, hstored⟩
    | nil =>
      -- the key is the oldest one: all the room is taken by keys that have been stored since
      have hsub : k :: new ⊆ others key seen' := fun x hx => mem_others.mpr (by grind)
      have hlen := (List.Nodup.subperm (by grind) hsub).length_le
      grind
  · exact ⟨old, new ++ [k], by simp, hstored⟩

/-! ## Keys that come in turn -/

/-- The keys after one more has been stored. -/
def takeIn (capacity : Nat) (keys : List κ) (k : κ) : List κ :=
  if k ∈ keys then keys else (if keys.length = capacity then keys.tail else keys) ++ [k]

theorem keys_tryStore_eq_takeIn (m : FifoMap κ ν capacity) (k : κ) (value : ν) :
    (m.tryStore k value).keys = takeIn capacity m.keys k := by
  unfold takeIn
  cases hfind : m.find k with
  | none => rw [if_neg (find_eq_none_iff.mp hfind), keys_tryStore hfind]
  | some old => grind [find_eq_none_iff, tryStore_of_find]

omit [Fact (0 < capacity)] in
/-- As long as there is room, all the keys are kept. -/
theorem foldl_takeIn_of_nodup (keys rest : List κ) (hnodup : (keys ++ rest).Nodup)
    (hroom : (keys ++ rest).length ≤ capacity) :
    rest.foldl (takeIn capacity) keys = keys ++ rest := by
  induction rest generalizing keys with
  | nil => exact (append_nil keys).symm
  | cons k rest ih =>
    have hstep : takeIn capacity keys k = keys ++ [k] := by grind [takeIn]
    grind

omit [Fact (0 < capacity)] in
/-- Keys that come once more, each just after it has been forgotten, drive out the key that was
stored after them. -/
theorem foldl_takeIn_rotate (key : κ) (rest done : List κ) (hne : rest ≠ [])
    (hnodup : (rest ++ key :: done).Nodup) (hfull : (rest ++ done).length = capacity) :
    rest.foldl (takeIn capacity) (rest.tail ++ key :: done) = done ++ rest := by
  induction rest generalizing done with
  | nil => exact absurd rfl hne
  | cons k rest ih =>
    have hstep : takeIn capacity (rest ++ key :: done) k =
        (rest ++ key :: done).tail ++ [k] := by grind [takeIn]
    rw [foldl_cons, tail_cons, hstep]
    cases rest with
    | nil => simp
    | cons next rest =>
      have hperm : (next :: rest ++ key :: (done ++ [k])).Perm
          (k :: (next :: rest ++ key :: done)) := by
        rw [← cons_append, ← append_assoc]
        exact perm_append_singleton _ _
      have hrun := ih (done ++ [k]) (cons_ne_nil _ _) (hperm.nodup_iff.mpr hnodup) (by grind)
      simpa using hrun

end FifoMap
