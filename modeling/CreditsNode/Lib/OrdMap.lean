import Mathlib.Data.List.Sort
import Mathlib.Data.List.Pairwise
import CreditsNode.Lib.PairTable

/-!
# Ordered maps

The finite maps of the C++ standard library: `std::map` as the list of its entries in strictly
increasing order of the keys. The order is a field of the structure, so two maps with the same
entries are equal.
-/

/-- `std::map<κ, ν>`, as its entries in increasing order of the keys. -/
@[ext]
structure OrdMap (κ ν : Type) [LT κ] where
  entries : List (κ × ν)
  sorted : entries.Pairwise (fun a b => a.1 < b.1)

namespace OrdMap

open List

variable {κ ν : Type}

instance decidableEq [LT κ] [DecidableEq κ] [DecidableEq ν] : DecidableEq (OrdMap κ ν) := fun a b =>
  decidable_of_iff (a.entries = b.entries) OrdMap.ext_iff.symm

instance instRepr [LT κ] [Repr κ] [Repr ν] : Repr (OrdMap κ ν) := ⟨fun m => reprPrec m.entries⟩

/-- The map without entries. -/
def empty [LT κ] : OrdMap κ ν := ⟨[], List.Pairwise.nil⟩

def size [LT κ] (m : OrdMap κ ν) : Nat := m.entries.length

def find [LT κ] [DecidableEq κ] (m : OrdMap κ ν) (key : κ) : Option ν :=
  (m.entries.find? (fun e => e.1 = key)).map Prod.snd

def lowerBound [LT κ] [DecidableLT κ] (m : OrdMap κ ν) (key : κ) : List (κ × ν) :=
  m.entries.dropWhile (fun e => e.1 < key)

def upperBound [LT κ] [DecidableLT κ] (m : OrdMap κ ν) (key : κ) : List (κ × ν) :=
  m.entries.dropWhile (fun e => ¬ key < e.1)

def eraseBefore [LT κ] [DecidableLT κ] (m : OrdMap κ ν) (key : κ) : OrdMap κ ν :=
  ⟨m.lowerBound key, m.sorted.sublist (List.dropWhile_sublist _)⟩

/-- `erase(begin())`. -/
def eraseFirst [LT κ] (m : OrdMap κ ν) : OrdMap κ ν :=
  ⟨m.entries.tail, m.sorted.sublist (List.tail_sublist _)⟩

/-- `at(key) = f(at(key))` for a key that is present; another key changes nothing. -/
def modify [LT κ] [DecidableEq κ] (m : OrdMap κ ν) (key : κ) (f : ν → ν) : OrdMap κ ν where
  entries := m.entries.map fun e => if e.1 = key then (e.1, f e.2) else e
  sorted := by
    refine m.sorted.map _ fun a b hab => ?_
    split_ifs <;> exact hab

/-- `value = f(value)` for each entry. -/
def mapValues [LT κ] (m : OrdMap κ ν) (f : ν → ν) : OrdMap κ ν where
  entries := m.entries.map fun e => (e.1, f e.2)
  sorted := m.sorted.map _ fun _ _ h => h

theorem find_mapValues [LT κ] [DecidableEq κ] (m : OrdMap κ ν) (f : ν → ν) (k : κ) :
    (m.mapValues f).find k = (m.find k).map f := by
  unfold find mapValues
  rw [List.find?_map, Option.map_map, Option.map_map]
  rfl

section LinearOrder

variable [LinearOrder κ]

/-- Insertion of an entry at its place; an entry with the same key stays as it is. -/
def emplaceEntry (k : κ) (v : ν) : List (κ × ν) → List (κ × ν)
  | [] => [(k, v)]
  | e :: es =>
    if k < e.1 then (k, v) :: e :: es
    else if e.1 < k then e :: emplaceEntry k v es
    else e :: es

variable {es : List (κ × ν)} {k : κ} {v : ν}

theorem mem_emplaceEntry {e : κ × ν} (h : e ∈ emplaceEntry k v es) : e = (k, v) ∨ e ∈ es := by
  induction es with
  | nil => simpa [emplaceEntry] using h
  | cons d es ih =>
    grind [emplaceEntry]

theorem sorted_emplaceEntry
    (h : es.Pairwise (fun a b => a.1 < b.1)) :
    (emplaceEntry k v es).Pairwise (fun a b => a.1 < b.1) := by
  induction es with
  | nil => exact pairwise_singleton _ _
  | cons e es ih =>
    obtain ⟨hhead, htail⟩ := pairwise_cons.mp h
    unfold emplaceEntry
    split_ifs with h1 h2
    · grind
    · refine pairwise_cons.mpr ⟨fun d hd => ?_, ih htail⟩
      rcases mem_emplaceEntry hd with rfl | hd
      · exact h2
      · exact hhead d hd
    · exact h

/-- `emplace(key, value)`: nothing happens when the key is present. -/
def emplace (m : OrdMap κ ν) (k : κ) (v : ν) : OrdMap κ ν :=
  ⟨emplaceEntry k v m.entries, sorted_emplaceEntry m.sorted⟩

def ofEntries (es : List (κ × ν)) : OrdMap κ ν :=
  es.foldl (fun m e => m.emplace e.1 e.2) empty

theorem emplaceEntry_append (h : ∀ e ∈ es, e.1 < k) : emplaceEntry k v es = es ++ [(k, v)] := by
  induction es with
  | nil => rfl
  | cons e es ih =>
    grind [emplaceEntry]

theorem entries_foldl_emplace (es : List (κ × ν)) : ∀ (acc : OrdMap κ ν),
    (acc.entries ++ es).Pairwise (fun a b => a.1 < b.1) →
    (es.foldl (fun m e => m.emplace e.1 e.2) acc).entries = acc.entries ++ es := by
  induction es with
  | nil => intro acc _; simp
  | cons e es ih =>
    intro acc h
    have hlast : ∀ d ∈ acc.entries, d.1 < e.1 := fun d hd =>
      (pairwise_append.mp h).2.2 d hd e mem_cons_self
    have hacc : (acc.emplace e.1 e.2).entries = acc.entries ++ [e] := emplaceEntry_append hlast
    grind

theorem ofEntries_entries (m : OrdMap κ ν) : ofEntries m.entries = m :=
  OrdMap.ext (entries_foldl_emplace m.entries empty m.sorted)

theorem mem_of_mem_foldl_emplace (es : List (κ × ν)) : ∀ (acc : OrdMap κ ν) {e : κ × ν},
    e ∈ (es.foldl (fun m e => m.emplace e.1 e.2) acc).entries → e ∈ acc.entries ∨ e ∈ es := by
  induction es with
  | nil => exact fun acc e h => .inl h
  | cons d es ih =>
    intro acc e h
    rcases ih _ h with hacc | hes
    · rcases mem_emplaceEntry hacc with rfl | hacc
      · exact .inr mem_cons_self
      · exact .inl hacc
    · exact .inr (mem_cons_of_mem d hes)

theorem mem_of_mem_ofEntries {e : κ × ν} (h : e ∈ (ofEntries es).entries) : e ∈ es :=
  (mem_of_mem_foldl_emplace es empty h).resolve_left not_mem_nil

theorem length_emplaceEntry_le (k : κ) (v : ν) (es : List (κ × ν)) :
    (emplaceEntry k v es).length ≤ es.length + 1 := by
  induction es with
  | nil => exact le_rfl
  | cons e es ih =>
    unfold emplaceEntry
    split_ifs <;> simp only [length_cons] <;> omega

theorem size_foldl_emplace_le (es : List (κ × ν)) : ∀ (acc : OrdMap κ ν),
    (es.foldl (fun m e => m.emplace e.1 e.2) acc).size ≤ acc.size + es.length := by
  induction es with
  | nil => exact fun acc => le_rfl
  | cons e es ih =>
    intro acc
    have hfirst : (acc.emplace e.1 e.2).size ≤ acc.size + 1 := length_emplaceEntry_le _ _ _
    have := ih (acc.emplace e.1 e.2)
    rw [foldl_cons, length_cons]
    omega

theorem size_ofEntries_le (es : List (κ × ν)) : (ofEntries es).size ≤ es.length := by
  have h : (ofEntries es).size ≤ 0 + es.length := size_foldl_emplace_le es empty
  omega

/-! ### Lookups -/

variable {m : OrdMap κ ν}

theorem mem_upperBound {key : κ} {e : κ × ν} :
    e ∈ m.upperBound key ↔ e ∈ m.entries ∧ key < e.1 := by
  have hdrop : ∀ es : List (κ × ν), es.Pairwise (fun a b => a.1 < b.1) →
      (e ∈ es.dropWhile (fun e => ¬ key < e.1) ↔ e ∈ es ∧ key < e.1) := by
    intro es hsorted
    induction es with
    | nil => simp
    | cons d es ih =>
      obtain ⟨hd, hes⟩ := pairwise_cons.mp hsorted
      by_cases hlt : key < d.1
      · rw [dropWhile_cons_of_neg (by simpa using hlt)]
        grind
      · grind [dropWhile_cons_of_pos]
  exact hdrop m.entries m.sorted

theorem nodup_keys (m : OrdMap κ ν) : (m.entries.map Prod.fst).Nodup :=
  pairwise_map.mpr (m.sorted.imp fun h => ne_of_lt h)

theorem find_eq_some_iff : m.find k = some v ↔ (k, v) ∈ m.entries := by
  unfold find
  rw [Option.map_eq_some_iff]
  constructor
  · grind
  · intro hmem
    exact ⟨(k, v), (PairTable.find_key m.nodup_keys).mpr ⟨hmem, rfl⟩, rfl⟩

theorem find_eq_none_iff : m.find k = none ↔ ∀ v, (k, v) ∉ m.entries := by
  rw [Option.eq_none_iff_forall_ne_some]
  exact forall_congr' fun v => not_congr find_eq_some_iff

theorem mem_emplaceEntry_iff {e : κ × ν}
    (h : ∀ v', (k, v') ∉ es) : e ∈ emplaceEntry k v es ↔ e = (k, v) ∨ e ∈ es := by
  refine ⟨mem_emplaceEntry, ?_⟩
  induction es with
  | nil =>
    rintro (rfl | he)
    · exact mem_singleton_self _
    · cases he
  | cons d es ih =>
    grind [emplaceEntry]

theorem find_emplace_of_none (v : ν) (h : m.find k = none) (k' : κ) :
    (m.emplace k v).find k' = if k' = k then some v else m.find k' := by
  rw [find_eq_none_iff] at h
  have hmem : ∀ e, e ∈ (m.emplace k v).entries ↔ e = (k, v) ∨ e ∈ m.entries := fun e =>
    mem_emplaceEntry_iff h
  split_ifs with hk
  · rw [find_eq_some_iff, hmem, hk]
    exact .inl rfl
  · refine Option.ext fun w => ?_
    rw [find_eq_some_iff, find_eq_some_iff, hmem]
    exact or_iff_right fun h => hk (Prod.mk.inj h).1

theorem find_modify (m : OrdMap κ ν) (k : κ) (f : ν → ν) (k' : κ) :
    (m.modify k f).find k' = if k' = k then (m.find k).map f else m.find k' := by
  have hmem : ∀ w, (k', w) ∈ (m.modify k f).entries ↔
      ∃ v, (k', v) ∈ m.entries ∧ w = if k' = k then f v else v := by
    intro w
    unfold modify
    rw [mem_map]
    constructor
    · rintro ⟨⟨k'', v⟩, hv, heq⟩
      by_cases hk : k'' = k
      · rw [if_pos hk] at heq
        obtain ⟨rfl, rfl⟩ := Prod.mk.inj heq
        exact ⟨v, hv, (if_pos hk).symm⟩
      · rw [if_neg hk] at heq
        obtain ⟨rfl, rfl⟩ := Prod.mk.inj heq
        exact ⟨v, hv, (if_neg hk).symm⟩
    · rintro ⟨v, hv, rfl⟩
      refine ⟨(k', v), hv, ?_⟩
      split_ifs <;> rfl
  refine Option.ext fun w => ?_
  rw [find_eq_some_iff, hmem]
  split_ifs with hk
  · subst hk
    rw [Option.map_eq_some_iff]
    exact exists_congr fun v => and_congr find_eq_some_iff.symm eq_comm
  · rw [find_eq_some_iff]
    exact ⟨fun ⟨v, hv, hw⟩ => hw ▸ hv, fun hw => ⟨w, hw, rfl⟩⟩

end LinearOrder

end OrdMap
