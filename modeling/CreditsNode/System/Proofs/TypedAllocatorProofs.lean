import Mathlib.Data.List.Nodup
import CreditsNode.System.TypedAllocator

/-!
# Slots in use

The array holds the free slots in its first entries. Together with those in use they are all slots
of all pages, each of them once, and the array has an entry for every slot.
-/

namespace CreditsNode.TypedAllocator

open Effect List

/-- The slots that the array holds, the next one to be used last. -/
structure Holds (pageSize : UInt32) (a : TypedAllocator) (free used : List TypedSlot) : Prop where
  chunks : ∃ rest, a.freeChunks = free.map some ++ rest
  nextPlace : a.nextPlace = free.length
  length : a.freeChunks.length = pageSize.toNat * a.pages.toNat
  count : free.length + used.length = pageSize.toNat * a.pages.toNat
  nodup : (free ++ used).Nodup
  old : ∀ slot ∈ free ++ used, slot.page.toNat ≤ a.pages.toNat

variable {pageSize : UInt32} {a : TypedAllocator} {free used : List TypedSlot} {slot : TypedSlot}

theorem write_length (slot : TypedSlot) (xs ys : FreeChunks) (old : Option TypedSlot) :
    write (xs ++ old :: ys) xs.length slot = .ok (xs ++ some slot :: ys) := by
  rw [write, if_pos (by simp), set_append_right _ _ le_rfl, Nat.sub_self]
  rfl

def pageSlots (pageSize page : UInt32) (n : Nat) : List TypedSlot :=
  (range n).map fun i => ⟨page, pageSize.toNat - (i + 1)⟩

theorem enterPage_eq (pageSize page : UInt32) (n : Nat) (rest : FreeChunks) :
    enterPage pageSize page n (replicate n none ++ rest) =
      .ok ((pageSlots pageSize page n).map some ++ rest) := by
  induction n generalizing rest with
  | zero => rfl
  | succ n ih =>
    have hwrite := write_length ⟨page, pageSize.toNat - (n + 1)⟩ (replicate n none) rest none
    rw [length_replicate] at hwrite
    rw [enterPage, replicate_succ', append_assoc, singleton_append, hwrite, ok_bind, ih]
    simp [pageSlots, range_succ]

theorem toNat_pages_add_one (h : a.pages ≠ 0xFFFFFFFF) :
    (a.pages + 1).toNat = a.pages.toNat + 1 := by
  have hne : a.pages.toNat ≠ 0xFFFFFFFF := fun heq => h (UInt32.toNat_inj.mp heq)
  have hlt := a.pages.toNat_lt
  rw [UInt32.toNat_add, UInt32.toNat_one]
  omega

theorem Holds.allocateNextPage (h : Holds pageSize a [] used) (hpages : a.pages ≠ 0xFFFFFFFF)
    (hsize : pageSize ≠ 0) : ∃ b free, a.allocateNextPage pageSize = .ok b ∧
      free.length = pageSize.toNat ∧ Holds pageSize b free used := by
  have hnext := toNat_pages_add_one hpages
  have hpos : pageSize.toNat ≠ 0 := fun heq => hsize (UInt32.toNat_inj.mp heq)
  have hcount : used.length = pageSize.toNat * a.pages.toNat := (Nat.zero_add _).symm.trans h.count
  obtain ⟨slots, hslots⟩ : ∃ slots, slots = pageSlots pageSize (a.pages + 1) pageSize.toNat :=
    ⟨_, rfl⟩
  have harray := enterPage_eq pageSize (a.pages + 1) pageSize.toNat
    (replicate (pageSize.toNat * a.pages.toNat) none)
  rw [replicate_append_replicate, Nat.add_comm, ← Nat.mul_add_one, ← hnext, ← hslots] at harray
  have hlength : slots.length = pageSize.toNat := by simp [hslots, pageSlots]
  have hpage : ∀ slot ∈ slots, slot.page = a.pages + 1 := by simp [hslots, pageSlots]
  refine ⟨⟨a.pages + 1, slots.map some ++ _, some (pageSize.toNat - 1)⟩, slots, ?_, hlength,
    ⟨replicate (pageSize.toNat * a.pages.toNat) none, rfl⟩, ?_, ?_, ?_, ?_, ?_⟩
  · rw [TypedAllocator.allocateNextPage, harray, ok_bind, if_neg hsize]
    rfl
  · exact (Nat.succ_pred hpos).trans hlength.symm
  · simp [hlength, hnext, Nat.mul_add, Nat.add_comm]
  · simp [hlength, hnext, hcount, Nat.mul_add, Nat.add_comm]
  · -- no slot had the number of the new page before
    refine nodup_append'.mpr ⟨?_, h.nodup, fun slot hnew hused => ?_⟩
    · rw [hslots]
      refine nodup_range.map_on fun i hi j hj hij => ?_
      have hplace := congrArg TypedSlot.place hij
      simp only [mem_range] at hi hj hplace
      omega
    · have hold := h.old slot hused
      rw [hpage slot hnew, hnext] at hold
      omega
  · intro slot hslot
    rcases mem_append.mp hslot with hnew | hused
    · rw [hpage slot hnew]
    · exact (h.old slot hused).trans (hnext ▸ Nat.le_succ _)

theorem Holds.takeLast {place : Nat} (h : Holds pageSize a free used)
    (hplace : free.length = place + 1) : ∃ slot b left, a.takeLast place = .ok (slot, b) ∧
      slot ∉ used ∧ Holds pageSize b left (slot :: used) := by
  obtain ⟨left, slot, rfl⟩ :=
    (eq_nil_or_concat' free).resolve_left (ne_nil_of_length_eq_add_one hplace)
  obtain rfl : left.length = place := Nat.succ_inj.mp (length_append.symm.trans hplace)
  obtain ⟨rest, hchunks⟩ := h.chunks
  have hread : a.freeChunks[left.length]? = some (some slot) := by simp [hchunks]
  have hall : left ++ [slot] ++ used = left ++ slot :: used := append_assoc left [slot] used
  have hnodup := hall ▸ h.nodup
  have hcount := h.count
  rw [← length_append, hall, length_append] at hcount
  refine ⟨slot,
    { a with freeChunksLast := if left.length = 0 then none else some (left.length - 1) },
    left, ?_, (nodup_cons.mp (nodup_append'.mp hnodup).2.1).1, ⟨some slot :: rest, ?_⟩, ?_,
      h.length, hcount, hnodup, hall ▸ h.old⟩
  · rw [TypedAllocator.takeLast, hread]
  · simp [hchunks]
  · cases left <;> rfl

theorem Holds.emplace (h : Holds pageSize a free used) (hsize : pageSize ≠ 0)
    (hpages : a.freeChunksLast = none → a.pages ≠ 0xFFFFFFFF) :
    ∃ slot b left, a.emplace pageSize = .ok (slot, b) ∧ slot ∉ used ∧
      Holds pageSize b left (slot :: used) := by
  have hnext := h.nextPlace
  unfold TypedAllocator.emplace
  unfold TypedAllocator.nextPlace at hnext
  cases hlast : a.freeChunksLast with
  | some place =>
    rw [hlast] at hnext
    exact h.takeLast hnext.symm
  | none =>
    rw [hlast] at hnext
    cases length_eq_zero_iff.mp hnext.symm
    obtain ⟨b, free, hpage, hlength, hb⟩ := h.allocateNextPage (hpages hlast) hsize
    have hpos : pageSize.toNat ≠ 0 := fun heq => hsize (UInt32.toNat_inj.mp heq)
    simp only [hpage, ok_bind]
    exact hb.takeLast (hlength.trans (Nat.succ_pred hpos).symm)

theorem Holds.remove (h : Holds pageSize a free used) (hslot : slot ∈ used) :
    ∃ b, a.remove slot = .ok b ∧ Holds pageSize b (free ++ [slot]) (used.erase slot) := by
  obtain ⟨rest, hchunks⟩ := h.chunks
  have hperm : (free ++ [slot] ++ used.erase slot).Perm (free ++ used) := by
    rw [append_assoc]
    exact (perm_cons_erase hslot).symm.append_left free
  have hcount := hperm.length_eq
  have hused := length_pos_of_mem hslot
  have hlength := h.length
  -- a slot is in use, so that the array has an entry left
  cases rest with
  | nil =>
    have := h.count
    rw [hchunks, append_nil, length_map] at hlength
    omega
  | cons old rest =>
    have hwrite := write_length slot (free.map some) rest old
    rw [length_map, ← hchunks, ← h.nextPlace] at hwrite
    refine ⟨_, (congrArg (· >>= _) hwrite).trans rfl, ⟨rest, by simp⟩, ?_, ?_, ?_,
      hperm.nodup_iff.mpr h.nodup, fun other hother => h.old other (hperm.mem_iff.mp hother)⟩
    · rw [length_append]
      exact congrArg (· + 1) h.nextPlace
    · rw [← hlength, hchunks]
      simp
    · rw [← length_append, hcount, length_append]
      exact h.count

theorem Reached.holds (hsize : pageSize ≠ 0) (h : Reached pageSize a used) :
    ∃ free, Holds pageSize a free used := by
  induction h with
  | new hnew =>
    have hstart : Holds pageSize ⟨0, [], none⟩ [] [] :=
      ⟨⟨[], rfl⟩, rfl, rfl, rfl, .nil, forall_mem_nil _⟩
    obtain ⟨b, free, hpage, -, hb⟩ :=
      hstart.allocateNextPage (show (0 : UInt32) ≠ _ by decide) hsize
    cases hnew.symm.trans hpage
    exact ⟨free, hb⟩
  | emplace _ hpages hemplace ih =>
    obtain ⟨free, hfree⟩ := ih
    obtain ⟨slot, b, left, hb, -, hholds⟩ := hfree.emplace hsize hpages
    cases hemplace.symm.trans hb
    exact ⟨left, hholds⟩
  | remove _ hslot hremove ih =>
    obtain ⟨free, hfree⟩ := ih
    obtain ⟨b, hb, hholds⟩ := hfree.remove hslot
    cases hremove.symm.trans hb
    exact ⟨_, hholds⟩

/-- If pages are not empty, the next slot is not in use, no write leaves the array, and every slot
is either free or in use. -/
theorem slots_distinct (hsize : pageSize ≠ 0) (h : Reached pageSize a used) :
    ((a.freeChunksLast = none → a.pages ≠ 0xFFFFFFFF) →
      ∃ slot b, a.emplace pageSize = .ok (slot, b) ∧ slot ∉ used) ∧
    (∀ slot ∈ used, ∃ b, a.remove slot = .ok b) ∧
    a.nextPlace + used.length = pageSize.toNat * a.pages.toNat := by
  obtain ⟨free, hfree⟩ := h.holds hsize
  refine ⟨fun hpages => ?_, fun slot hslot => ?_, hfree.nextPlace ▸ hfree.count⟩
  · obtain ⟨slot, b, -, hb, hslot, -⟩ := hfree.emplace hsize hpages
    exact ⟨slot, b, hb, hslot⟩
  · exact (hfree.remove hslot).imp fun b hb => hb.1

/-- Three slots from pages of two, of which the first is given back. -/
theorem slots_distinct_three :
    ∃ a used, Reached 2 a used ∧ a.pages = 2 ∧ used = [⟨2, 0⟩, ⟨1, 1⟩] ∧
      (∃ slot b, a.emplace 2 = .ok (slot, b) ∧ slot ∉ used) ∧
        a.nextPlace + used.length = 2 * 2 := by
  have hnew : Reached 2 ⟨1, [some ⟨1, 1⟩, some ⟨1, 0⟩], some 1⟩ [] := .new rfl
  have htwo : Reached 2 ⟨1, [some ⟨1, 1⟩, some ⟨1, 0⟩], none⟩ [⟨1, 1⟩, ⟨1, 0⟩] :=
    .emplace (.emplace hnew (by decide) rfl) (by decide) rfl
  have hthree : Reached 2 ⟨2, [some ⟨2, 1⟩, some ⟨2, 0⟩, none, none], some 0⟩
      [⟨2, 0⟩, ⟨1, 1⟩, ⟨1, 0⟩] := htwo.emplace (by decide) rfl
  have hreached : Reached 2 ⟨2, [some ⟨2, 1⟩, some ⟨1, 0⟩, none, none], some 1⟩
      [⟨2, 0⟩, ⟨1, 1⟩] := hthree.remove (show (⟨1, 0⟩ : TypedSlot) ∈ _ by decide) rfl
  obtain ⟨hemplace, -, hcount⟩ := slots_distinct (by decide) hreached
  exact ⟨_, _, hreached, rfl, rfl, hemplace (by decide), hcount⟩

/-- Without slots in a page there is no last entry to point to, and when the number of pages has
wrapped around there is no entry to write to. -/
theorem undefined_of_empty_or_wrapped : new 0 = .error .undefined ∧
    ∀ freeChunks, emplace 1 ⟨0xFFFFFFFF, freeChunks, none⟩ = .error .undefined := by
  refine ⟨rfl, fun freeChunks => ?_⟩
  simp [emplace, allocateNextPage, enterPage, write]
  rfl

end CreditsNode.TypedAllocator
