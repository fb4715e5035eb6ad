import CreditsNode.Csdb.DatabaseFaults
import CreditsNode.Csdb.Proofs.StorageProofs
import CreditsNode.Lib.EventSystem
import CreditsNode.Lib.Lookup

/-!
# What is left when a database operation fails

`put` writes both tables or none, but `pool_save` does not look at its result. `remove` that stops
between the two tables leaves a record that no hash leads to.
-/

namespace CreditsNode

open ByteCodec EventSystem Database

namespace Database

variable {db db' : Database}

/-- The tables have the same blocks. -/
structure Consistent (db : Database) : Prop where
  record : ∀ key recno, db.seqNo.lookup key = some recno → (db.blocks.lookup recno).isSome
  hash : ∀ recno, (db.blocks.lookup recno).isSome → ∃ key, db.seqNo.lookup key = some recno
  unique : ∀ key key' recno, db.seqNo.lookup key = some recno → db.seqNo.lookup key' = some recno →
    key = key'

theorem Consistent.put (h : db.Consistent) {key : PoolHash} {seqNo : UInt32} {value : Bytes}
    (hkey : db.seqNo.lookup key = none) (hrecno : db.blocks.lookup (seqNo + 1) = none)
    (hput : db.put key seqNo value = some db') : db'.Consistent := by
  obtain ⟨hrecord, hhash, hunique⟩ := h
  unfold Database.put at hput
  split_ifs at hput
  cases hput
  constructor
  · grind
  · intro recno
    simp only [AList.lookup_insert_eq_ite]
    grind
  · grind

theorem Consistent.remove (h : db.Consistent) (key : PoolHash) : (db.remove key).Consistent := by
  obtain ⟨hrecord, hhash, hunique⟩ := h
  unfold Database.remove
  split
  · exact ⟨hrecord, hhash, hunique⟩
  · constructor <;> intro <;> simp only [AList.lookup_erase_eq_ite] <;> grind

theorem Consistent.putWith (h : db.Consistent) (fault : Option PutFault) {key : PoolHash}
    {seqNo : UInt32} {value : Bytes} (hkey : db.seqNo.lookup key = none)
    (hrecno : db.blocks.lookup (seqNo + 1) = none) :
    (db.putWith fault key seqNo value).2.Consistent := by
  unfold Database.putWith
  cases hput : db.put key seqNo value with
  | none => exact h
  | some db' =>
    rcases fault with _ | _ | _ | _ | _
    · exact h.put hkey hrecno hput
    all_goals exact h

/-- The call does not stop between the two deletions of a block. -/
def Completes (call : Call) (db : Database) : Prop :=
  ∀ key, call = .remove (some .blocksDel) key → db.seqNo.lookup key = none

theorem Consistent.call_iff (h : db.Consistent) (c : Call) :
    After call Consistent c db ↔ Completes c db := by
  cases c with
  | put fault key seqNo value =>
    refine ⟨fun _ _ heq => (nomatch heq), fun _ t ht => ?_⟩
    simp only [call, Option.mem_def, Option.ite_none_right_eq_some, Option.some.injEq] at ht
    obtain ⟨hnew, rfl⟩ := ht
    exact h.putWith fault hnew.1 hnew.2
  | remove fault key =>
    constructor
    · rintro hafter _ ⟨rfl⟩
      by_contra hknown
      obtain ⟨recno, hlookup⟩ := Option.ne_none_iff_exists'.mp hknown
      -- the record stays, and only the hash that has gone led to it
      obtain ⟨-, hhash, -⟩ := hafter _ rfl
      obtain ⟨key', hkey'⟩ := hhash recno (by
        simpa only [removeWith, hlookup] using h.record key recno hlookup)
      have hunique := h.unique key key' recno hlookup
      simp only [removeWith, hlookup, AList.lookup_erase_eq_ite] at hkey'
      grind
    · intro hcompletes t ht
      cases ht
      unfold removeWith
      cases hlookup : db.seqNo.lookup key with
      | none => exact h
      | some recno =>
        rcases fault with _ | _ | _ | _
        · exact h.remove key
        · exact h
        · exact h
        · exact absurd (hcompletes key rfl) (by simp [hlookup])

/-- The tables have the same blocks after every call of a run exactly if no removal stops between
them. -/
theorem consistent_along_iff (h : db.Consistent) (calls : List Call) :
    Along (silent call) (After call Consistent) calls db ↔ Along (silent call) Completes calls db :=
  along_congr (I := Consistent) (fun c _ hdb => hdb.call_iff c)
    (fun c _ hdb hc => forall_mem_silent ((hdb.call_iff c).mpr hc)) calls db h

theorem consistent_empty : (⟨∅, ∅⟩ : Database).Consistent := by
  constructor <;> simp

theorem consistent_along_iff_removed : Along (silent call) (After call Consistent)
    [.put none none 0 [], .put (some .seqNoPut) (some (sampleHash 1)) 1 [], .remove none none]
    ⟨∅, ∅⟩ := by
  refine (consistent_along_iff consistent_empty _).mpr ⟨?_, ?_⟩
  · rintro key ⟨⟩
  · intro first _
    refine ⟨fun key => nofun, fun first _ => ⟨fun key => nofun, fun first _ => trivial⟩⟩

/-- A removal stops between the tables: the record stays, and no hash leads to it. -/
theorem remove_leaves_record : ∃ db,
    run (silent call) [.put none none 0 [], .remove (some .blocksDel) none] ⟨∅, ∅⟩ = some ([], db) ∧
      db.blocks.lookup 1 = some [] ∧ db.seqNo.entries = [] :=
  ⟨_, rfl, rfl, rfl⟩

end Database

namespace Storage

variable {crypto : Crypto} {evict : List PoolElement → Nat} {s : Storage} {pool : Pool}

/-- A failure of the database is reported and changes nothing; after success the block is there. -/
def SaveReported (crypto : Crypto) (evict : List PoolElement → Nat) (fault : Option PutFault)
    (s : Storage) (pool : Pool) : Prop :=
  let after := s.poolSaveWith crypto evict fault pool
  ((s.db.putWith fault (pool.hash crypto) pool.sequence.toUInt32 pool.toBinary).1 = false →
    after.1 = false ∧ after.2.countPool = s.countPool ∧ after.2.lastHash = s.lastHash ∧
      after.2.poolsCache = s.poolsCache) ∧
  (after.1 = true → after.2.db.get (pool.hash crypto) = some pool.toBinary ∧
    after.2.db.getSeq pool.sequence.toUInt32 = some pool.toBinary)

/-- `pool_save` does not get as far as the database. -/
def Refuses (crypto : Crypto) (s : Storage) (pool : Pool) : Prop :=
  pool.isValid = false ∨ s.db.contains (pool.hash crypto) = true

theorem poolSaveWith_of_refuses (fault : Option PutFault) (h : s.Refuses crypto pool) :
    s.poolSaveWith crypto evict fault pool = (false, s.report .invalidParameter) := by
  unfold poolSaveWith
  rcases h with hinvalid | hknown
  · simp [hinvalid]
  · simp [hknown]

theorem poolSaveWith_of_not_refuses (evict : List PoolElement → Nat) (fault : Option PutFault)
    (h : ¬ s.Refuses crypto pool) :
    (s.poolSaveWith crypto evict fault pool).1 = true ∧
      (s.poolSaveWith crypto evict fault pool).2.db =
        if (s.db.putWith fault (pool.hash crypto) pool.sequence.toUInt32 pool.toBinary).1 then
          (s.db.putWith fault (pool.hash crypto) pool.sequence.toUInt32 pool.toBinary).2
        else s.db := by
  unfold Refuses at h
  unfold poolSaveWith
  rw [if_neg (by simpa using fun hf => h (.inl hf)), if_neg fun hk => h (.inr hk)]
  refine ⟨rfl, ?_⟩
  rw [db_poolsCacheInsert]
  split_ifs <;> rfl

/-- A failure is reported as it should be exactly if `pool_save` does not ask the database or the
database does not fail. -/
theorem saveReported_iff (crypto : Crypto) (evict : List PoolElement → Nat)
    (fault : Option PutFault)
    (s : Storage) (pool : Pool) : SaveReported crypto evict fault s pool ↔
      s.Refuses crypto pool ∨ fault = none ∧ pool.sequence.toUInt32 + 1 ≠ 0 := by
  by_cases hrefuses : s.Refuses crypto pool
  · simp [SaveReported, poolSaveWith_of_refuses fault hrefuses, hrefuses, report]
  obtain ⟨hsaved, hdb⟩ := poolSaveWith_of_not_refuses evict fault hrefuses
  have hnew : s.db.seqNo.lookup (pool.hash crypto) = none := by
    simpa [Refuses, Database.contains] using fun h => hrefuses (.inr h)
  unfold SaveReported
  simp only [hsaved, hdb, hrefuses, false_or, Bool.true_eq_false, false_and, imp_false,
    forall_const, Bool.not_eq_false]
  by_cases hrecno : pool.sequence.toUInt32 + 1 = 0
  · simp [Database.putWith, Database.put, hrecno]
  · rcases fault with _ | _ | _ | _ | _ <;>
      simp [Database.putWith, Database.put, hrecno, Database.get, Database.getSeq, hnew]

/-- The index of hashes could not be written, and the block is counted and cached as saved. -/
theorem poolSaveWith_seqNoPut :
    let after :=
      ({ db := ⟨∅, ∅⟩, lastHash := none, countPool := 0, poolsCache := [], errors := [] } :
        Storage).poolSaveWith Crypto.zero (fun _ => 0) (some .seqNoPut)
        { Pool.new with isValid := true }
    after.1 = true ∧ after.2.countPool = 1 ∧ after.2.poolsCache.length = 1 ∧
      after.2.db.getSeq 0 = none := by
  decide +kernel

theorem poolLoad_frame (crypto : Crypto) (evict : List PoolElement → Nat) (s : Storage)
    (sequence : Sequence) : (s.poolLoad crypto evict sequence).2.db = s.db ∧
      (s.poolLoad crypto evict sequence).2.countPool = s.countPool := by
  unfold poolLoad poolsCacheInsert report
  grind

variable {n : Sequence} {h : PoolHash}

/-- `pool_remove_last_repair` succeeds exactly if the table has the sequence itself for the hash and
the block before can be loaded. The table has the record number, which is one more: the removal is
refused. -/
theorem poolRemoveLastRepair_iff (crypto : Crypto) (evict : List PoolElement → Nat) (s : Storage)
    (hn : n ≠ 0) (hh : h ≠ none) (hcount : n + 1 = s.countPool) :
    ((s.poolRemoveLastRepair crypto evict n h).1 = true ↔
      ∃ recno, s.db.seqNo.lookup h = some recno ∧
      recno.toUInt64 = n ∧ (({ s with db := s.db.remove h, countPool := s.countPool - 1 } :
        Storage).poolLoad crypto evict (n - 1)).1.isValid = true) ∧
    ((s.poolRemoveLastRepair crypto evict n h).1 = true →
      (s.poolRemoveLastRepair crypto evict n h).2.countPool = s.countPool - 1 ∧
      (s.poolRemoveLastRepair crypto evict n h).2.db.seqNo.lookup h = none ∧
      (∀ recno, s.db.seqNo.lookup h = some recno →
        (s.poolRemoveLastRepair crypto evict n h).2.db.blocks.lookup recno = none) ∧
      (s.poolRemoveLastRepair crypto evict n h).2.lastHash =
        (({ s with db := s.db.remove h, countPool := s.countPool - 1 } :
          Storage).poolLoad crypto evict (n - 1)).1.hash crypto) ∧
    (∀ recno, s.db.seqNo.lookup h = some recno → recno.toUInt64 = n + 1 →
      s.poolRemoveLastRepair crypto evict n h = (false, s.report .invalidParameter)) := by
  unfold poolRemoveLastRepair
  rw [if_neg (by simp [hn, hh, hcount])]
  cases hlookup : s.db.seqNo.lookup h with
  | none => simp
  | some recno =>
    have hkey : (s.db.remove h).seqNo.lookup h = none := by simp [remove, hlookup]
    have hrecno : (s.db.remove h).blocks.lookup recno = none := by simp [remove, hlookup]
    by_cases hr : recno.toUInt64 = n
    · obtain ⟨hdb, hload⟩ := poolLoad_frame crypto evict
        { s with db := s.db.remove h, countPool := s.countPool - 1 } (n - 1)
      simp only [hr, ne_eq, not_true_eq_false, if_false]
      split_ifs with hvalid
      · simp [hr, hvalid, hdb, hload, hkey, hrecno]
      · simp [hr, hvalid]
    · simp [hr]

/-- A storage of two blocks, with the given numbers in the table of hashes. -/
def demoRepair (first second : UInt32) : Storage where
  db :=
    { seqNo := (AList.insert (some (sampleHash 1)) second ∅).insert
        (some (sampleHash 0)) first
      blocks := (AList.insert 1 (({ Pool.new with isValid := true } : Pool).compose
        Crypto.zero).toBinary ∅).insert 2 (({ Pool.new with
          isValid := true, sequence := 1, previousHash := some (sampleHash 0) } : Pool).compose
            Crypto.zero).toBinary }
  lastHash := some (sampleHash 1)
  countPool := 2
  poolsCache := [⟨0, some (sampleHash 0), { Pool.new with isValid := true }⟩]
  errors := []

theorem poolRemoveLastRepair_iff_sequences :
    ((demoRepair 0 1).poolRemoveLastRepair Crypto.zero (fun _ => 0) 1
      (some (sampleHash 1))).1 = true :=
  (poolRemoveLastRepair_iff Crypto.zero (fun _ => 0) (demoRepair 0 1) (by decide) (by decide)
    rfl).1.mpr ⟨1, by decide +kernel, rfl, rfl⟩

/-- The last of two blocks is in both tables, and the repair refuses to remove it. -/
theorem poolRemoveLastRepair_refuses :
    (demoRepair 1 2).db.seqNo.lookup (some (sampleHash 1)) = some 2 ∧
      ((demoRepair 1 2).db.getSeq 1).isSome = true ∧
      ((demoRepair 1 2).poolRemoveLastRepair Crypto.zero (fun _ => 0) 1
        (some (sampleHash 1))).1 = false ∧
      ((demoRepair 1 2).poolRemoveLastRepair Crypto.zero (fun _ => 0) 1
        (some (sampleHash 1))).2.countPool = 2 := by
  decide +kernel

end Storage

end CreditsNode
