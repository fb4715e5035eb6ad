import CreditsNode.Csdb.Proofs.StorageCacheProofs

/-!
# Sequences and hashes of stored blocks

A block is written as the record whose number is its sequence plus one, and this number is written
under its hash. `pool_hash` takes the shift into account, `pool_sequence` returns the record number
itself.
-/

namespace CreditsNode.Storage

open ByteCodec List

variable {crypto : Crypto} {evict : List PoolElement → Nat} {st : Storage} {pool : Pool}

/-- A storage with the blocks that have been saved and not been removed. -/
structure Shelf where
  storage : Storage
  stored : List Pool

/-- The operations that write. -/
inductive Write where
  | save (pool : Pool)
  | removeLast

namespace Shelf

section

variable (crypto : Crypto) (evict : List PoolElement → Nat)

def write (s : Shelf) : Write → Shelf
  | .save pool =>
    { storage := (s.storage.poolSave crypto evict pool).2
      stored := if (s.storage.poolSave crypto evict pool).1 then s.stored ++ [pool] else s.stored }
  | .removeLast =>
    { storage := s.storage.poolRemoveLast.2
      stored :=
        if s.storage.poolRemoveLast.1.isValid then
          s.stored.filter fun p => p.hash crypto ≠ s.storage.lastHash
        else s.stored }

def run (s : Shelf) (writes : List Write) : Shelf := writes.foldl (write crypto evict) s

/-- No block is saved over the record of another one. -/
def Separate : Shelf → List Write → Prop
  | _, [] => True
  | s, w :: writes =>
    (∀ pool, w = .save pool → ∀ p ∈ s.stored, p.sequence.toUInt32 ≠ pool.sequence.toUInt32) ∧
      Separate (s.write crypto evict w) writes

/-- The lookups are inverse to each other on the stored blocks. -/
def Inverse (s : Shelf) : Prop :=
  ∀ p ∈ s.stored, (s.storage.poolSequence (p.hash crypto)).1 = p.sequence ∧
    (s.storage.poolHash crypto p.sequence).1 = p.hash crypto

/-- The number of each stored block is found under its hash, and nothing else is. -/
structure Listed (s : Shelf) : Prop where
  listed : ∀ p ∈ s.stored,
    s.storage.db.seqNo.lookup (p.hash crypto) = some (p.sequence.toUInt32 + 1)
  only : ∀ hash recno, s.storage.db.seqNo.lookup hash = some recno →
    ∃ p ∈ s.stored, p.hash crypto = hash
  nonzero : ∀ p ∈ s.stored, p.sequence.toUInt32 + 1 ≠ 0

/-- Each stored block has a record of its own. -/
structure Recorded (s : Shelf) : Prop where
  recorded : ∀ p ∈ s.stored,
    s.storage.db.blocks.lookup (p.sequence.toUInt32 + 1) = some p.toBinary
  distinct : ∀ p ∈ s.stored, ∀ q ∈ s.stored, p.sequence.toUInt32 = q.sequence.toUInt32 →
    p.hash crypto = q.hash crypto

/-- A storage with nothing in it. -/
def new : Shelf := ⟨.empty, []⟩

end

end Shelf

namespace Shelf

variable {s : Shelf}

theorem write_save_cases (hok : .databaseError ∉
    (s.write crypto evict (.save pool)).storage.errors) :
    ∃ st, (st.db = s.storage.db ∧ s.write crypto evict (.save pool) = ⟨st, s.stored⟩) ∨
      (s.storage.db.seqNo.lookup (pool.hash crypto) = none ∧ pool.sequence.toUInt32 + 1 ≠ 0 ∧
        st.db = putPool crypto s.storage.db pool ∧
        s.write crypto evict (.save pool) = ⟨st, s.stored ++ [pool]⟩) := by
  unfold write at hok ⊢
  dsimp only at hok ⊢
  rcases poolSave_cases crypto evict s.storage pool with
    ⟨-, heq⟩ | ⟨-, hnew, ⟨-, heq⟩ | ⟨hzero, heq⟩⟩ <;> rw [heq] at hok ⊢
  · exact ⟨s.storage.report _, .inl ⟨rfl, rfl⟩⟩
  · rw [errors_saved] at hok
    exact absurd mem_cons_self hok
  · exact ⟨_, .inr ⟨lookup_eq_none hnew, hzero, db_saved _, rfl⟩⟩

theorem write_removeLast_cases (crypto : Crypto) (evict : List PoolElement → Nat) (s : Shelf) :
    ∃ st, (st.db = s.storage.db ∧ s.write crypto evict .removeLast = ⟨st, s.stored⟩) ∨
      (∃ recno, s.storage.db.seqNo.lookup s.storage.lastHash = some recno ∧
        st.db = ⟨s.storage.db.seqNo.erase s.storage.lastHash, s.storage.db.blocks.erase recno⟩ ∧
        s.write crypto evict .removeLast =
          ⟨st, s.stored.filter fun p => p.hash crypto ≠ s.storage.lastHash⟩) := by
  unfold write
  dsimp only
  rcases poolRemoveLast_cases s.storage with ⟨⟨_, heq⟩, -⟩ | ⟨-, recno, _, hrecno, -, hvalid, heq⟩
  · rw [heq]
    exact ⟨s.storage.report _, .inl ⟨rfl, rfl⟩⟩
  · rw [heq, if_pos hvalid]
    exact ⟨_, .inr ⟨recno, hrecno, rfl, rfl⟩⟩

theorem errors_subset_write (w : Write) :
    s.storage.errors ⊆ (s.write crypto evict w).storage.errors := by
  cases w with
  | save pool => exact errors_subset_poolSave
  | removeLast => exact errors_subset_poolRemoveLast

theorem errors_subset_run (writes : List Write) :
    s.storage.errors ⊆ (s.run crypto evict writes).storage.errors := by
  induction writes generalizing s with
  | nil => exact List.Subset.refl _
  | cons w writes ih => exact List.Subset.trans (errors_subset_write w) ih

theorem Listed.save (h : s.Listed crypto)
    (hok : .databaseError ∉ (s.write crypto evict (.save pool)).storage.errors) :
    (s.write crypto evict (.save pool)).Listed crypto := by
  obtain ⟨st, ⟨hdb, heq⟩ | ⟨hnew, hzero, hdb, heq⟩⟩ := write_save_cases hok <;> rw [heq]
  · exact ⟨hdb ▸ h.listed, hdb ▸ h.only, h.nonzero⟩
  · refine ⟨fun p hp => ?_, fun hash recno hlookup => ?_, fun p hp => ?_⟩
    · rw [hdb]
      rcases mem_append.mp hp with hp | hp
      · have hne : p.hash crypto ≠ pool.hash crypto := by
          intro heq
          have hlisted := h.listed p hp
          rw [heq, hnew] at hlisted
          cases hlisted
        exact (AList.lookup_insert_ne hne).trans (h.listed p hp)
      · rw [mem_singleton.mp hp]
        exact AList.lookup_insert _
    · rw [hdb] at hlookup
      by_cases heq : hash = pool.hash crypto
      · exact ⟨pool, mem_append_right _ (mem_singleton_self _), heq.symm⟩
      · obtain ⟨p, hp, hhash⟩ := h.only hash recno ((AList.lookup_insert_ne heq).symm.trans hlookup)
        exact ⟨p, mem_append_left _ hp, hhash⟩
    · have hnonzero := h.nonzero
      grind

theorem Listed.removeLast (h : s.Listed crypto) :
    (s.write crypto evict .removeLast).Listed crypto := by
  obtain ⟨st, ⟨hdb, heq⟩ | ⟨recno, hrecno, hdb, heq⟩⟩ :=
    s.write_removeLast_cases crypto evict <;> rw [heq]
  · exact ⟨hdb ▸ h.listed, hdb ▸ h.only, h.nonzero⟩
  · have hstays : ∀ p ∈ s.stored.filter fun p => p.hash crypto ≠ s.storage.lastHash,
        p ∈ s.stored ∧ p.hash crypto ≠ s.storage.lastHash := by
      intro p hp
      simpa using mem_filter.mp hp
    refine ⟨fun p hp => ?_, fun hash recno' hlookup => ?_, fun p hp => ?_⟩
    · obtain ⟨hp, hne⟩ := hstays p hp
      rw [hdb]
      exact (AList.lookup_erase_ne hne).trans (h.listed p hp)
    · rw [hdb] at hlookup
      have hne : hash ≠ s.storage.lastHash := by
        intro heq
        rw [heq, AList.lookup_erase] at hlookup
        cases hlookup
      obtain ⟨p, hp, rfl⟩ := h.only hash recno' ((AList.lookup_erase_ne hne).symm.trans hlookup)
      exact ⟨p, mem_filter.mpr ⟨hp, by simpa using hne⟩, rfl⟩
    · exact h.nonzero p (hstays p hp).1

theorem Listed.run (h : s.Listed crypto) (writes : List Write)
    (hok : .databaseError ∉ (s.run crypto evict writes).storage.errors) :
    (s.run crypto evict writes).Listed crypto := by
  induction writes generalizing s with
  | nil => exact h
  | cons w writes ih =>
    refine ih ?_ hok
    have hok' : .databaseError ∉ (s.write crypto evict w).storage.errors := fun herror =>
      hok (errors_subset_run writes herror)
    cases w with
    | save pool => exact h.save hok'
    | removeLast => exact h.removeLast

theorem Recorded.save (h : s.Recorded crypto)
    (hok : .databaseError ∉ (s.write crypto evict (.save pool)).storage.errors)
    (hfree : ∀ p ∈ s.stored, p.sequence.toUInt32 ≠ pool.sequence.toUInt32) :
    (s.write crypto evict (.save pool)).Recorded crypto := by
  obtain ⟨st, ⟨hdb, heq⟩ | ⟨-, -, hdb, heq⟩⟩ := write_save_cases hok <;> rw [heq]
  · exact ⟨hdb ▸ h.recorded, h.distinct⟩
  · refine ⟨fun p hp => ?_, fun p hp q hq heq => ?_⟩
    · rw [hdb]
      rcases mem_append.mp hp with hp | hp
      · have hne : p.sequence.toUInt32 + 1 ≠ pool.sequence.toUInt32 + 1 := fun heq =>
          hfree p hp ((UInt32.add_left_inj 1).mp heq)
        exact (AList.lookup_insert_ne hne).trans (h.recorded p hp)
      · rw [mem_singleton.mp hp]
        exact AList.lookup_insert _
    · have hdistinct := h.distinct
      grind

theorem Recorded.removeLast (h : s.Recorded crypto) (hlisted : s.Listed crypto) :
    (s.write crypto evict .removeLast).Recorded crypto := by
  obtain ⟨st, ⟨hdb, heq⟩ | ⟨recno, hrecno, hdb, heq⟩⟩ :=
    s.write_removeLast_cases crypto evict <;> rw [heq]
  · exact ⟨hdb ▸ h.recorded, h.distinct⟩
  · obtain ⟨last, hlast, hhash⟩ := hlisted.only _ recno hrecno
    have hnumber : recno = last.sequence.toUInt32 + 1 := by
      have hlisted' := hlisted.listed
      grind
    refine ⟨fun p hp => ?_, fun p hp q hq heq => ?_⟩
    · obtain ⟨hp, hne⟩ := mem_filter.mp hp
      rw [hdb]
      refine (AList.lookup_erase_ne fun heq => ?_).trans (h.recorded p hp)
      have hdistinct := h.distinct
      grind
    · exact h.distinct p (mem_filter.mp hp).1 q (mem_filter.mp hq).1 heq

theorem Recorded.run (h : s.Recorded crypto) (hlisted : s.Listed crypto) (writes : List Write)
    (hok : .databaseError ∉ (s.run crypto evict writes).storage.errors)
    (hseparate : s.Separate crypto evict writes) : (s.run crypto evict writes).Recorded crypto := by
  induction writes generalizing s with
  | nil => exact h
  | cons w writes ih =>
    have hok' : .databaseError ∉ (s.write crypto evict w).storage.errors := fun herror =>
      hok (errors_subset_run writes herror)
    cases w with
    | save pool => exact ih (h.save hok' (hseparate.1 pool rfl)) (hlisted.save hok') hok hseparate.2
    | removeLast => exact ih (h.removeLast hlisted) hlisted.removeLast hok hseparate.2

theorem listed_new : new.Listed crypto where
  listed _ hp := absurd hp not_mem_nil
  only _ _ hlookup := absurd (hlookup : none = some _) (Option.some_ne_none _).symm
  nonzero _ hp := absurd hp not_mem_nil

theorem recorded_new : new.Recorded crypto where
  recorded _ hp := absurd hp not_mem_nil
  distinct _ hp := absurd hp not_mem_nil

theorem poolSequence_of_listed (h : s.Listed crypto) {p : Pool} (hp : p ∈ s.stored) :
    (s.storage.poolSequence (p.hash crypto)).1 = p.sequence.toUInt32.toUInt64 + 1 := by
  unfold poolSequence
  rw [if_neg (hash_ne_none crypto p), h.listed p hp]
  have hne : (p.sequence.toUInt32 + 1).toNat ≠ 0 := fun hzero =>
    h.nonzero p hp (UInt32.toNat_inj.mp hzero)
  refine UInt64.toNat_inj.mp ?_
  grind [p.sequence.toUInt32.toNat_lt, UInt32.toNat_add, UInt32.toNat_toUInt64, UInt64.toNat_add]

theorem poolSequence_ne (h : s.Listed crypto) {p : Pool} (hp : p ∈ s.stored) :
    (s.storage.poolSequence (p.hash crypto)).1 ≠ p.sequence := by
  rw [poolSequence_of_listed h hp]
  grind [UInt32.toNat_add, UInt64.toNat_toUInt32, UInt64.toNat_add, UInt32.toNat_toUInt64]

/-- The record of the block is read as a block with its hash. -/
def ReadsBack (crypto : Crypto) (p : Pool) : Prop :=
  (Pool.fromBinary crypto p.toBinary).isValid = true ∧
    (Pool.fromBinary crypto p.toBinary).hash crypto = p.hash crypto

theorem poolHash_of_recorded (h : s.Recorded crypto) {p : Pool} (hp : p ∈ s.stored)
    (hreads : ReadsBack crypto p) : (s.storage.poolHash crypto p.sequence).1 = p.hash crypto := by
  unfold poolHash Database.getSeq
  rw [h.recorded p hp]
  dsimp only
  rw [if_neg (by rw [hreads.1]; exact Bool.false_ne_true)]
  exact hreads.2

/-- In a run in which the database does not fail, the sequence that is found for a stored block is
off by one, and the hash that is found is right as long as no record is written over. So the lookups
are inverse to each other only if nothing is stored. -/
theorem lookups_of_stored (crypto : Crypto) (evict : List PoolElement → Nat) (writes : List Write)
    (hok : .databaseError ∉ (new.run crypto evict writes).storage.errors) :
    (∀ p ∈ (new.run crypto evict writes).stored,
      ((new.run crypto evict writes).storage.poolSequence (p.hash crypto)).1 =
        p.sequence.toUInt32.toUInt64 + 1) ∧
    (new.Separate crypto evict writes → ∀ p ∈ (new.run crypto evict writes).stored,
      ReadsBack crypto p →
        ((new.run crypto evict writes).storage.poolHash crypto p.sequence).1 = p.hash crypto) ∧
    ((new.run crypto evict writes).Inverse crypto ↔ (new.run crypto evict writes).stored = []) := by
  have hlisted : (new.run crypto evict writes).Listed crypto := listed_new.run writes hok
  refine ⟨fun p hp => poolSequence_of_listed hlisted hp, fun hseparate p hp hreads => ?_,
    fun hinverse => ?_, fun hempty p hp => ?_⟩
  · exact poolHash_of_recorded (recorded_new.run listed_new writes hok hseparate) hp hreads
  · refine eq_nil_iff_forall_not_mem.mpr fun p hp => ?_
    exact poolSequence_ne hlisted hp (hinverse p hp).1
  · rw [hempty] at hp
    cases hp

/-- A run that removes a first block and saves another one. -/
def demoWrites : List Write := [.save (demoBlock 0), .removeLast, .save (demoBlock 1)]

theorem separate_demoWrites : new.Separate demoHashing (fun _ => 0) demoWrites := by
  refine ⟨fun _ _ => forall_mem_nil _, ⟨fun _ hw => ?_, ?_, trivial⟩⟩
  · cases hw
  · exact fun _ _ => forall_mem_nil _

theorem lookups_of_stored_demo :
    .databaseError ∉ (new.run demoHashing (fun _ => 0) demoWrites).storage.errors ∧
    ((new.run demoHashing (fun _ => 0) demoWrites).storage.poolSequence
      ((demoBlock 1).hash demoHashing)).1 = (demoBlock 1).sequence.toUInt32.toUInt64 + 1 ∧
    ((new.run demoHashing (fun _ => 0) demoWrites).storage.poolHash demoHashing
      (demoBlock 1).sequence).1 = (demoBlock 1).hash demoHashing := by
  have hok : .databaseError ∉ (new.run demoHashing (fun _ => 0) demoWrites).storage.errors := by
    decide +kernel
  have hstored : demoBlock 1 ∈ (new.run demoHashing (fun _ => 0) demoWrites).stored := by
    exact mem_singleton_self _
  have hreads : ReadsBack demoHashing (demoBlock 1) := ⟨by decide +kernel, by decide +kernel⟩
  obtain ⟨hsequence, hhash, -⟩ := lookups_of_stored demoHashing (fun _ => 0) demoWrites hok
  exact ⟨hok, hsequence _ hstored, hhash separate_demoWrites _ hstored hreads⟩

/-- The first block of a chain is found with the sequence one. -/
theorem sequence_of_first_block :
    (new.run demoHashing (fun _ => 0) [.save (demoBlock 0)]).storage.errors = [] ∧
    demoBlock 0 ∈ (new.run demoHashing (fun _ => 0) [.save (demoBlock 0)]).stored ∧
    (demoBlock 0).sequence = 0 ∧
    ((new.run demoHashing (fun _ => 0) [.save (demoBlock 0)]).storage.poolSequence
      ((demoBlock 0).hash demoHashing)).1 = 1 ∧
    ((new.run demoHashing (fun _ => 0) [.save (demoBlock 0)]).storage.poolHash demoHashing 0).1 =
      (demoBlock 0).hash demoHashing := by
  refine ⟨by decide +kernel, ?_, rfl, by decide +kernel, by decide +kernel⟩
  exact mem_singleton_self _

end Shelf

end CreditsNode.Storage
