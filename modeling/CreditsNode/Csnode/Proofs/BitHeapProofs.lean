import CreditsNode.Lib.ReplayWindow
import CreditsNode.Lib.MachineInt
import CreditsNode.Csnode.BitHeap
import Mathlib.Data.List.Basic

/-!
# Replay protection of `TransactionsTail`

The heap is related to the set of ids pushed into it: pushing an id is recording it in the replay
window of `CreditsNode.Lib.ReplayWindow`. The verdict of `isAllowed` is the window's, except where
the lower end `greatest - 1024` leaves `int64_t`.
-/

namespace CreditsNode

open ReplayWindow BitHeap

variable {n : Nat}

def idSet (ids : List Int64) : Set ℤ := {x | ∃ id ∈ ids, id.toInt = x}

variable {ids : List Int64} {id : Int64} {t : TransactionsTail}

theorem toInt_mem_idSet : id.toInt ∈ idSet ids ↔ id ∈ ids := by
  constructor
  · rintro ⟨x, hx, heq⟩
    rwa [← Int64.toInt_inj.mp heq]
  · exact fun h => ⟨id, h, rfl⟩

theorem idSet_append (ids : List Int64) (id : Int64) :
    idSet (ids ++ [id]) = insert id.toInt (idSet ids) := by
  ext x
  simp only [idSet, List.mem_append, List.mem_singleton, Set.mem_insert_iff, Set.mem_ofPred_eq]
  constructor
  · rintro ⟨y, hy | rfl, rfl⟩
    · exact .inr ⟨y, hy, rfl⟩
    · exact .inl rfl
  · rintro (rfl | ⟨y, hy, rfl⟩)
    · exact ⟨id, .inr rfl, rfl⟩
    · exact ⟨y, .inl hy, rfl⟩

theorem idSet_eq_empty : idSet ids = ∅ ↔ ids = [] := by
  constructor
  · intro h
    cases ids with
    | nil => rfl
    | cons id ids => exact absurd (toInt_mem_idSet.mpr List.mem_cons_self) (h ▸ Set.notMem_empty _)
  · rintro rfl
    ext x
    simp [idSet]

/-- The distance of two ids, although computed in wrapping `int64_t`, is exact as a `size_t`. -/
theorem BitHeap.index_sub {a b : Int64} (h : b.toInt ≤ a.toInt) :
    index (a - b) = (a.toInt - b.toInt).toNat := by
  have hidx : (index (a - b) : ℤ) = _ := (a - b).toNat_toUInt64_eq
  rw [Int64.toInt_sub, Int.bmod_emod] at hidx
  have := a.toInt_lt
  have := b.le_toInt
  omega

theorem BitHeap.index_sub_one {a b : Int64} (h : b.toInt < a.toInt) :
    index (a - b - 1) = (a.toInt - b.toInt).toNat - 1 := by
  have hidx : (index (a - b - 1) : ℤ) = _ := (a - b - 1).toNat_toUInt64_eq
  have hone : (1 : Int64).toInt = 1 := rfl
  rw [Int64.toInt_sub, Int64.toInt_sub, Int.bmod_emod, Int.sub_emod, Int.bmod_emod,
    ← Int.sub_emod, hone] at hidx
  have := a.toInt_lt
  have := b.le_toInt
  omega

theorem BitHeap.setBit_eq (bits : BitVec n) (ind : Nat) :
    setBit bits ind = bits ||| BitVec.twoPow n ind := by
  unfold setBit
  split_ifs with h
  · rfl
  · have : BitVec.twoPow n ind = 0#n := by
      ext k hk
      have : k ≠ ind := by omega
      simp [BitVec.getElem_twoPow, this]
    rw [this, BitVec.or_zero]

/-- The heap holds exactly the ids of the history `ids`. -/
structure BitHeap.Holds (h : BitHeap n) (ids : List Int64) : Prop where
  isValueSet : h.isValueSet = true ↔ ids ≠ []
  bits_zero : ids = [] → h.bits = 0#n
  tracks : ids ≠ [] → Tracks h.greatest.toInt h.bits (idSet ids)

theorem BitHeap.new_holds : (new : BitHeap n).Holds [] where
  isValueSet := by simp [new]
  bits_zero _ := rfl
  tracks h := absurd rfl h

variable {h : BitHeap n}

theorem BitHeap.Holds.push (hh : h.Holds ids)
    (val : Int64) : (h.push val).Holds (ids ++ [val]) := by
  have hne : ids ++ [val] ≠ [] := by simp
  unfold BitHeap.push
  by_cases hset : h.isValueSet = true
  · have htr := hh.tracks (hh.isValueSet.mp hset)
    simp only [hset, Bool.not_true, Bool.false_eq_true, ↓reduceIte]
    split_ifs with hgt hlt
    · rw [gt_iff_lt, Int64.lt_iff_toInt_lt] at hgt
      refine ⟨by simp, fun h => absurd h hne, fun _ => ?_⟩
      rw [idSet_append, setBit_eq, index_sub hgt.le, index_sub_one hgt]
      exact htr.raise hgt
    · rw [Int64.lt_iff_toInt_lt] at hlt
      refine ⟨by simp, fun h => absurd h hne, fun _ => ?_⟩
      rw [idSet_append, setBit_eq, index_sub_one hlt]
      exact htr.fill hlt
    · have heq : val.toInt = h.greatest.toInt := by
        rw [gt_iff_lt, Int64.lt_iff_toInt_lt] at hgt
        rw [Int64.lt_iff_toInt_lt] at hlt
        omega
      refine ⟨by simp [hset], fun h => absurd h hne, fun _ => ?_⟩
      rw [idSet_append, heq]
      exact htr.again
  · -- the first push leaves the bitset as the constructor made it
    have hids : ids = [] := not_not.mp fun h => hset (hh.isValueSet.mpr h)
    subst hids
    simp only [Bool.not_eq_true] at hset
    simp only [hset, Bool.not_false, ↓reduceIte]
    refine ⟨by simp, fun h => absurd h hne, fun _ => ?_⟩
    rw [hh.bits_zero rfl, List.nil_append, show idSet [val] = {val.toInt} by
      ext x; simp [idSet, eq_comm]]
    exact tracks_singleton

theorem TransactionsTail.holds_foldl (ids : List Int64) :
    ∀ (t : TransactionsTail) (seen : List Int64),
    t.heap.Holds seen → (ids.foldl push t).heap.Holds (seen ++ ids) := by
  induction ids with
  | nil => intro t seen h; simpa using h
  | cons id ids ih =>
    intro t seen h
    have := ih (t.push id) (seen ++ [id]) (h.push id)
    simpa using this

theorem TransactionsTail.holds_pushAll (ids : List Int64) : (pushAll ids).heap.Holds ids :=
  holds_foldl ids new [] new_holds

theorem BitHeap.Holds.contains_iff (hh : h.Holds ids)
    (hne : ids ≠ []) (hlo : h.greatest.toInt - n ≤ id.toInt) : h.contains id = true ↔ id ∈ ids := by
  have htr := hh.tracks hne
  unfold contains
  split_ifs with hgt heq
  · rw [gt_iff_lt, Int64.lt_iff_toInt_lt] at hgt
    simp only [false_iff]
    intro hmem
    have := htr.isGreatest.2 (toInt_mem_idSet.mpr hmem)
    omega
  · subst heq
    simpa using toInt_mem_idSet.mp htr.isGreatest.1
  · have hlt : id.toInt < h.greatest.toInt := by
      rw [gt_iff_lt, Int64.lt_iff_toInt_lt] at hgt
      have : id.toInt ≠ h.greatest.toInt := fun h' => heq (Int64.toInt_inj.mp h')
      omega
    have hind := index_sub_one hlt
    have hk : index (h.greatest - id - 1) < n := by omega
    rw [if_pos hk, ← toInt_mem_idSet, htr.mem_iff_bit hk (by omega)]

/-- Once an id has been pushed, `isAllowed` compares with the two ends of the window. -/
theorem TransactionsTail.isAllowed_of_isValueSet (hset : t.heap.isValueSet = true) (id : Int64) :
    t.isAllowed id = if t.heap.greatest < id then true
      else if id < t.heap.greatest - Int64.ofNat 1024 then false
      else !t.heap.contains id := by
  simp only [isAllowed, BitHeap.empty, hset, Bool.not_true, Bool.false_eq_true, ↓reduceIte]
  rfl

theorem TransactionsTail.isAllowed_eq (hh : t.heap.Holds ids) (hne : ids ≠ []) (id : Int64) :
    t.isAllowed id = if t.heap.greatest < id then true
      else if id < t.heap.greatest - Int64.ofNat 1024 then false
      else !t.heap.contains id :=
  isAllowed_of_isValueSet (hh.isValueSet.mpr hne) id

theorem TransactionsTail.not_isAllowed_of_mem
    (hh : t.heap.Holds ids) (hmem : id ∈ ids) : t.isAllowed id = false := by
  have hne : ids ≠ [] := List.ne_nil_of_mem hmem
  have hle := (hh.tracks hne).isGreatest.2 (toInt_mem_idSet.mpr hmem)
  rw [isAllowed_eq hh hne]
  split_ifs with hgt hlt
  · rw [Int64.lt_iff_toInt_lt] at hgt
    omega
  · rfl
  · have hlo : t.heap.greatest.toInt - (1024 : Nat) ≤ id.toInt := by
      rw [Int64.lt_iff_toInt_lt, Int64.toInt_sub] at hlt
      have h1024 : (Int64.ofNat 1024).toInt = 1024 := rfl
      have := id.toInt_lt
      have := t.heap.greatest.le_toInt
      have := t.heap.greatest.toInt_lt
      rw [h1024, Int.bmod_def] at hlt
      split at hlt <;> omega
    simp [(hh.contains_iff hne hlo).mpr hmem]

/-! ## Ids that are used up

Whatever the heap held before, an id that has been pushed stays refused. -/

/-- The id is not above the greatest one, and inside the window its bit is set. -/
structure BitHeap.Used (h : BitHeap n) (id : Int64) : Prop where
  isValueSet : h.isValueSet = true
  le_greatest : id.toInt ≤ h.greatest.toInt
  bit : ∀ k < n, h.greatest.toInt - k - 1 = id.toInt → h.bits.getLsbD k = true

theorem BitHeap.used_push_self (h : BitHeap n) (id : Int64) : (h.push id).Used id := by
  unfold push
  split_ifs with hset hgt hlt
  · exact ⟨rfl, le_rfl, fun k _ hk => by dsimp only at hk; omega⟩
  · refine ⟨by simpa using hset, le_rfl, fun k _ hk => ?_⟩
    dsimp only at hk
    omega
  · rw [Int64.lt_iff_toInt_lt] at hlt
    refine ⟨by simpa using hset, hlt.le, fun k hk hid => ?_⟩
    grind [setBit_eq, index_sub_one]
  · rw [gt_iff_lt, Int64.lt_iff_toInt_lt] at hgt
    rw [Int64.lt_iff_toInt_lt] at hlt
    exact ⟨by simpa using hset, by omega, fun k _ hk => by omega⟩

theorem BitHeap.Used.push (hu : h.Used id) (val : Int64) : (h.push val).Used id := by
  have hset := hu.isValueSet
  have hle := hu.le_greatest
  unfold BitHeap.push
  simp only [hset, Bool.not_true, Bool.false_eq_true, ↓reduceIte]
  split_ifs with hgt hlt
  · rw [gt_iff_lt, Int64.lt_iff_toInt_lt] at hgt
    refine ⟨rfl, by dsimp only; omega, fun k hk hid => ?_⟩
    rw [setBit_eq, index_sub hgt.le, index_sub_one hgt, BitVec.getLsbD_or, BitVec.getLsbD_twoPow,
      BitVec.getLsbD_shiftLeft]
    have hbit := hu.bit
    grind
  · refine ⟨rfl, hle, fun k hk hid => ?_⟩
    rw [setBit_eq, BitVec.getLsbD_or, hu.bit k hk hid, Bool.true_or]
  · exact hu

theorem TransactionsTail.not_isAllowed_of_used (hu : t.heap.Used id) : t.isAllowed id = false := by
  have hle := hu.le_greatest
  have hgt : ¬ t.heap.greatest < id := by
    rw [Int64.lt_iff_toInt_lt]
    omega
  rw [isAllowed_of_isValueSet hu.isValueSet, if_neg hgt]
  by_cases hlo : id < t.heap.greatest - Int64.ofNat 1024
  · rw [if_pos hlo]
  · rw [if_neg hlo]
    have hlo' : t.heap.greatest.toInt - 1024 ≤ id.toInt := by
      rw [Int64.lt_iff_toInt_lt, Int64.toInt_sub] at hlo
      have h1024 : (Int64.ofNat 1024).toInt = 1024 := rfl
      have := t.heap.greatest.toInt_lt
      rw [h1024, Int.bmod_def] at hlo
      split at hlo <;> omega
    rw [Bool.not_eq_false']
    unfold contains
    rw [if_neg hgt]
    by_cases heq : id = t.heap.greatest
    · rw [if_pos heq]
    · have hne : id.toInt ≠ t.heap.greatest.toInt := fun h => heq (Int64.toInt_inj.mp h)
      have hind := index_sub_one (lt_of_le_of_ne hle hne)
      have hbit := hu.bit
      grind

theorem TransactionsTail.isAllowed_iff_admits
    (hh : t.heap.Holds ids) (hne : ids ≠ []) (hrange : -2 ^ 63 + 1024 ≤ t.heap.greatest.toInt)
    (id : Int64) : t.isAllowed id = true ↔ Admits BitSize (idSet ids) id.toInt := by
  have htr := hh.tracks hne
  have hfirst : (t.heap.greatest - Int64.ofNat 1024).toInt = t.heap.greatest.toInt - 1024 := by
    have h1024 : (Int64.ofNat 1024).toInt = 1024 := rfl
    have := t.heap.greatest.toInt_lt
    rw [Int64.toInt_sub, h1024, Int.bmod_eq_of_le] <;> omega
  rw [isAllowed_eq hh hne, admits_iff htr.isGreatest]
  simp only [Int64.lt_iff_toInt_lt, hfirst, BitSize]
  split_ifs with hgt hlt
  · simp [hgt]
  · simp only [false_iff]
    omega
  · have hcont : t.heap.contains id = true ↔ id ∈ ids := hh.contains_iff hne (by omega)
    rw [Bool.not_eq_true', ← Bool.not_eq_true, hcont, toInt_mem_idSet]
    constructor
    · intro hout
      have hneq : id.toInt ≠ t.heap.greatest.toInt := fun h =>
        hout (toInt_mem_idSet.mp (h ▸ htr.isGreatest.1))
      exact .inr ⟨by omega, by omega, hout⟩
    · rintro (h | ⟨-, -, hout⟩)
      · exact absurd h hgt
      · exact hout

theorem TransactionsTail.not_isAllowed_of_wrap
    (hh : t.heap.Holds ids) (hne : ids ≠ []) (hrange : t.heap.greatest.toInt < -2 ^ 63 + 1024)
    (hid : id.toInt < t.heap.greatest.toInt) : t.isAllowed id = false := by
  have hfirst : id.toInt < (t.heap.greatest - Int64.ofNat 1024).toInt := by
    have h1024 : (Int64.ofNat 1024).toInt = 1024 := rfl
    rw [Int64.toInt_sub, h1024, Int.bmod_def]
    split <;> omega
  rw [isAllowed_eq hh hne, if_neg (by rw [Int64.lt_iff_toInt_lt]; omega),
    if_pos (Int64.lt_iff_toInt_lt.mpr hfirst)]

end CreditsNode
