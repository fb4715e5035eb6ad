import CreditsNode.Csdb.Proofs.StorageProofs
import CreditsNode.Lib.EventSystem

/-!
# The cache of the storage

A load asks the cache first, and nothing is taken out of it when a block is removed or replaced. The
loads of a run show what the database holds exactly as long as no removed or replaced block is in
the cache.
-/

namespace CreditsNode.Storage

open ByteCodec EventSystem List AList

variable {crypto : Crypto} {evict : List PoolElement → Nat} {st : Storage} {pool : Pool}

section

variable (crypto : Crypto)

def heldSeq (db : Database) (sequence : Sequence) : Pool :=
  (db.getSeq sequence.toUInt32).elim .new (Pool.fromBinary crypto)

def heldHash (db : Database) (hash : PoolHash) : Pool :=
  (db.get hash).elim .new (Pool.fromBinary crypto)

/-- Every block would be loaded as the database has it. -/
def Faithful (evict : List PoolElement → Nat) (st : Storage) : Prop :=
  (∀ sequence, (st.poolLoad crypto evict sequence).1 = heldSeq crypto st.db sequence) ∧
    ∀ hash, (st.poolLoadHash crypto evict hash).1 = heldHash crypto st.db hash

/-- Each record is a block, which has the number of the record and is found under its hash. -/
structure Filed (db : Database) : Prop where
  valid : ∀ recno data, db.blocks.lookup recno = some data →
    (Pool.fromBinary crypto data).isValid = true
  recno : ∀ recno data, db.blocks.lookup recno = some data →
    (Pool.fromBinary crypto data).sequence.toUInt32 + 1 = recno
  hash : ∀ recno data, db.blocks.lookup recno = some data →
    db.seqNo.lookup ((Pool.fromBinary crypto data).hash crypto) = some recno
  zero : db.blocks.lookup 0 = none
  named : db.seqNo.lookup none = none

/-- The element is the record that the database has. -/
structure Current (db : Database) (e : PoolElement) : Prop where
  record : ∃ data, db.blocks.lookup (e.seq.toUInt32 + 1) = some data ∧
    e.pool = Pool.fromBinary crypto data
  seq : e.seq = e.pool.sequence
  hash : e.hash = e.pool.hash crypto

/-- Each cached block is the record that the database has. -/
structure Coherent (st : Storage) : Prop where
  filed : Filed crypto st.db
  current : ∀ e ∈ st.poolsCache, Current crypto st.db e

end

variable {db : Database} {recno : UInt32} {data : Bytes} {e : PoolElement} {hash : PoolHash}

theorem Filed.current (h : Filed crypto db) (hdata : db.blocks.lookup recno = some data) :
    Current crypto db ⟨(Pool.fromBinary crypto data).sequence,
      (Pool.fromBinary crypto data).hash crypto, Pool.fromBinary crypto data⟩ := by
  refine ⟨⟨data, ?_, rfl⟩, rfl, rfl⟩
  have hrecno := h.recno
  grind

theorem Current.isValid (hdb : Filed crypto db) (h : Current crypto db e) :
    e.pool.isValid = true := by
  obtain ⟨data, hdata, hpool⟩ := h.record
  rw [hpool]
  exact hdb.valid _ data hdata

theorem Current.lookup_hash (hdb : Filed crypto db)
    (h : Current crypto db e) : db.seqNo.lookup e.hash = some (e.seq.toUInt32 + 1) := by
  obtain ⟨data, hdata, hpool⟩ := h.record
  rw [h.hash, hpool]
  exact hdb.hash _ data hdata

theorem Current.heldSeq (h : Current crypto db e) : heldSeq crypto db e.seq = e.pool := by
  obtain ⟨data, hdata, hpool⟩ := h.record
  unfold Storage.heldSeq Database.getSeq
  rw [hdata, hpool]
  rfl

theorem Current.heldHash (hdb : Filed crypto db)
    (h : Current crypto db e) : heldHash crypto db e.hash = e.pool := by
  obtain ⟨data, hdata, hpool⟩ := h.record
  simp [Database.get, Storage.heldHash, h.lookup_hash hdb, hdata, hpool]

theorem poolLoad_of_cached {sequence : Sequence}
    (h : st.poolsCache.find? (fun e => e.seq = sequence) = some e) :
    (st.poolLoad crypto evict sequence).1 = if e.pool.isValid then e.pool else .new := by
  unfold poolLoad
  rw [h]
  dsimp only
  split_ifs <;> rfl

theorem poolLoadHash_of_cached (hhash : hash ≠ none)
    (h : st.poolsCache.find? (fun e => e.hash = hash) = some e) :
    (st.poolLoadHash crypto evict hash).1 = if e.pool.isValid then e.pool else .new := by
  unfold poolLoadHash
  rw [if_neg hhash, h]
  dsimp only
  split_ifs <;> rfl

theorem Coherent.faithful (h : st.Coherent crypto) : st.Faithful crypto evict := by
  constructor
  · intro sequence
    cases hfind : st.poolsCache.find? fun e => e.seq = sequence with
    | some e =>
      have hcurrent := h.current e (List.mem_of_find?_eq_some hfind)
      have hseq : e.seq = sequence := by simpa using List.find?_some hfind
      rw [poolLoad_of_cached hfind, if_pos (hcurrent.isValid h.filed), ← hseq]
      exact hcurrent.heldSeq.symm
    | none =>
      unfold poolLoad heldSeq
      rw [hfind]
      cases st.db.getSeq sequence.toUInt32 with
      | none => rfl
      | some data =>
        dsimp only
        split_ifs <;> rfl
  · intro hash
    by_cases hnone : hash = none
    · unfold poolLoadHash heldHash Database.get
      rw [if_pos hnone, hnone, h.filed.named]
      rfl
    cases hfind : st.poolsCache.find? fun e => e.hash = hash with
    | some e =>
      have hcurrent := h.current e (List.mem_of_find?_eq_some hfind)
      have hhash : e.hash = hash := by simpa using List.find?_some hfind
      rw [poolLoadHash_of_cached hnone hfind, if_pos (hcurrent.isValid h.filed), ← hhash]
      exact (hcurrent.heldHash h.filed).symm
    | none =>
      unfold poolLoadHash heldHash
      rw [if_neg hnone, hfind]
      cases hget : st.db.get hash with
      | none => rfl
      | some data =>
        obtain ⟨recno, -, hdata⟩ := Option.bind_eq_some_iff.mp hget
        dsimp only
        rw [if_pos (h.filed.valid recno data hdata)]
        rfl

/-- What is left of a full cache when something is to be inserted. -/
def kept (evict : List PoolElement → Nat) (st : Storage) : List PoolElement :=
  if st.poolsCache.length = 10000 then st.poolsCache.eraseIdx (evict st.poolsCache)
  else st.poolsCache

theorem mem_of_mem_kept (h : e ∈ st.kept evict) : e ∈ st.poolsCache := by
  unfold kept at h
  split_ifs at h
  · exact (eraseIdx_sublist _ _).subset h
  · exact h

theorem poolsCache_poolsCacheInsert (seq : Sequence) (hash : PoolHash) :
    (st.poolsCacheInsert evict seq hash pool).poolsCache =
      if (st.kept evict).any fun e => e.seq = seq || e.hash = hash then st.kept evict
      else ⟨seq, hash, pool⟩ :: st.kept evict := by
  unfold poolsCacheInsert kept
  dsimp only
  split_ifs <;> rfl

theorem poolsCache_saved (db : Database) : (st.saved crypto evict pool db).poolsCache =
    if (st.kept evict).any fun e => e.seq = pool.sequence || e.hash = pool.hash crypto then
      st.kept evict
    else ⟨pool.sequence, pool.hash crypto, pool⟩ :: st.kept evict :=
  poolsCache_poolsCacheInsert _ _

theorem mem_poolsCacheInsert {seq : Sequence}
    (h : e ∈ (st.poolsCacheInsert evict seq hash pool).poolsCache) :
    e ∈ st.kept evict ∨ e = ⟨seq, hash, pool⟩ := by
  grind [poolsCache_poolsCacheInsert]

theorem Coherent.poolsCacheInsert (h : st.Coherent crypto) {seq : Sequence}
    (hcurrent : Current crypto st.db ⟨seq, hash, pool⟩) :
    (st.poolsCacheInsert evict seq hash pool).Coherent crypto := by
  constructor
  · rw [db_poolsCacheInsert]
    exact h.filed
  · rw [db_poolsCacheInsert]
    intro e he
    rcases mem_poolsCacheInsert he with he | rfl
    · exact h.current e (mem_of_mem_kept he)
    · exact hcurrent

theorem Coherent.of_eq {st' : Storage} (h : st.Coherent crypto) (hdb : st'.db = st.db)
    (hcache : st'.poolsCache = st.poolsCache) : st'.Coherent crypto :=
  ⟨hdb ▸ h.filed, fun e he => hdb ▸ h.current e (hcache ▸ he)⟩

/-- A record that is read is cached, and reported if it is not a block. -/
theorem Coherent.readRecord {recno : UInt32} {data : Bytes} (h : st.Coherent crypto)
    (hdata : st.db.blocks.lookup recno = some data) (found other : Pool) :
    let res := Pool.fromBinary crypto data
    let read := st.poolsCacheInsert evict res.sequence (res.hash crypto) res
    (if res.isValid then (found, read)
      else (other, read.report .dataIntegrityError)).2.Coherent crypto := by
  have hinserted : (st.poolsCacheInsert evict _ _ _).Coherent crypto :=
    h.poolsCacheInsert (h.filed.current hdata)
  dsimp only
  split_ifs
  · exact hinserted
  · exact hinserted.of_eq rfl rfl

theorem Coherent.poolLoad (h : st.Coherent crypto) (sequence : Sequence) :
    (st.poolLoad crypto evict sequence).2.Coherent crypto := by
  unfold Storage.poolLoad
  split
  · split_ifs
    · exact h
    · exact h.of_eq rfl rfl
  · split
    · exact h.of_eq rfl rfl
    · next data hdata => exact h.readRecord hdata _ _

theorem Coherent.poolLoadHash (h : st.Coherent crypto) (hash : PoolHash) :
    (st.poolLoadHash crypto evict hash).2.Coherent crypto := by
  unfold Storage.poolLoadHash
  split_ifs
  · exact h.of_eq rfl rfl
  split
  · split_ifs
    · exact h
    · exact h.of_eq rfl rfl
  split
  · exact h.of_eq rfl rfl
  · next data hget =>
    obtain ⟨recno, -, hdata⟩ := Option.bind_eq_some_iff.mp hget
    exact h.readRecord hdata _ _

theorem Coherent.rescanRecords (records : List Bytes) : ∀ {st : Storage}, st.Coherent crypto →
    (∀ data ∈ records, ∃ recno, st.db.blocks.lookup recno = some data) →
    (Storage.rescanRecords crypto evict records st).2.Coherent crypto := by
  induction records with
  | nil => exact fun h _ => h
  | cons data records ih =>
    intro st h hrecords
    obtain ⟨recno, hdata⟩ := hrecords data mem_cons_self
    unfold Storage.rescanRecords
    dsimp only
    split_ifs
    · exact h.of_eq rfl rfl
    · refine ih ?_ ?_
      · refine Coherent.poolsCacheInsert ?_ (h.filed.current hdata)
        exact h.of_eq rfl rfl
      · simp_all

theorem Coherent.rescan (h : st.Coherent crypto) : (st.rescan crypto evict).2.Coherent crypto := by
  refine Coherent.rescanRecords _ (h.of_eq rfl rfl) fun data hdata => ?_
  obtain ⟨⟨recno, record⟩, hrecord, rfl⟩ := mem_map.mp hdata
  exact ⟨recno, mem_lookup_iff.mpr (mem_mergeSort.mp hrecord)⟩

theorem hash_ne_none (crypto : Crypto) (pool : Pool) : pool.hash crypto ≠ none := by
  unfold Pool.hash
  split <;> simp [Pool.updateHash]

theorem exists_poolLoad_eq (crypto : Crypto) (evict : List PoolElement → Nat)
    (he : e ∈ st.poolsCache) :
    ∃ found ∈ st.poolsCache, found.seq = e.seq ∧
      (st.poolLoad crypto evict e.seq).1 = if found.pool.isValid then found.pool else .new := by
  cases hfind : st.poolsCache.find? fun found => found.seq = e.seq with
  | none => exact absurd (List.find?_eq_none.mp hfind e he) (by simp)
  | some found =>
    refine ⟨found, List.mem_of_find?_eq_some hfind, by simpa using List.find?_some hfind, ?_⟩
    rw [poolLoad_of_cached hfind]

/-- What saving asks of a block that it accepts: the write succeeds, the block is read back as it
is, and no other block with its record number is in the cache. -/
structure Fresh (crypto : Crypto) (evict : List PoolElement → Nat) (st : Storage) (pool : Pool) :
    Prop where
  written : pool.sequence.toUInt32 + 1 ≠ 0
  kept : ∀ e ∈ st.kept evict, e.seq.toUInt32 = pool.sequence.toUInt32 →
    Pool.fromBinary crypto pool.toBinary = e.pool
  inserted : (∀ e ∈ st.kept evict, e.seq ≠ pool.sequence) →
    Pool.fromBinary crypto pool.toBinary = pool

section Save

variable (h : st.Coherent crypto) (hvalid : pool.isValid = true)
  (hnew : st.db.contains (pool.hash crypto) = false)

include hnew in
theorem lookup_eq_none : st.db.seqNo.lookup (pool.hash crypto) = none := by
  unfold Database.contains at hnew
  rwa [Option.isSome_eq_false_iff, Option.isNone_iff_eq_none] at hnew

include h hnew in
theorem Coherent.hash_ne {e : PoolElement} (he : e ∈ st.poolsCache) :
    e.hash ≠ pool.hash crypto := by
  intro heq
  have hlookup := (h.current e he).lookup_hash h.filed
  rw [heq, lookup_eq_none hnew] at hlookup
  cases hlookup

include h hnew in
theorem Coherent.poolsCache_saved_of_ne (db : Database)
    (hseq : ∀ e ∈ st.kept evict, e.seq ≠ pool.sequence) :
    (st.saved crypto evict pool db).poolsCache =
      ⟨pool.sequence, pool.hash crypto, pool⟩ :: st.kept evict := by
  rw [poolsCache_saved, if_neg]
  rw [any_eq_true]
  rintro ⟨e, he, hboth⟩
  rw [Bool.or_eq_true, decide_eq_true_iff, decide_eq_true_iff] at hboth
  exact hboth.elim (hseq e he) (h.hash_ne hnew (mem_of_mem_kept he))

theorem poolLoad_of_head (hvalid : pool.isValid = true) {hash : PoolHash} {rest : List PoolElement}
    (hcache : st.poolsCache = ⟨pool.sequence, hash, pool⟩ :: rest) :
    (st.poolLoad crypto evict pool.sequence).1 = pool := by
  have hfind : st.poolsCache.find? (fun e => e.seq = pool.sequence) =
      some ⟨pool.sequence, hash, pool⟩ := by
    rw [hcache]
    exact List.find?_cons_of_pos (by simp)
  rw [poolLoad_of_cached hfind, if_pos hvalid]

theorem isValid_new : Pool.new.isValid = false := rfl

include h hvalid hnew in
theorem Coherent.not_faithful_of_zero (hzero : pool.sequence.toUInt32 + 1 = 0) :
    ¬ ((st.report .databaseError).saved crypto evict pool st.db).Faithful crypto evict := by
  have hseq : ∀ e ∈ st.kept evict, e.seq ≠ pool.sequence := by
    intro e he heq
    obtain ⟨data, hdata, -⟩ := (h.current e (mem_of_mem_kept he)).record
    rw [heq, hzero, h.filed.zero] at hdata
    cases hdata
  have hreported : (st.report .databaseError).Coherent crypto := h.of_eq rfl rfl
  intro hfaithful
  have hload := hfaithful.1 pool.sequence
  rw [poolLoad_of_head hvalid (hreported.poolsCache_saved_of_ne hnew _ hseq), db_saved] at hload
  have hheld : heldSeq crypto st.db pool.sequence = .new := by
    unfold heldSeq Database.getSeq
    rw [hzero, h.filed.zero]
    rfl
  rw [hload, hheld, isValid_new] at hvalid
  cases hvalid

theorem heldSeq_putPool {sequence : Sequence}
    (hseq : sequence.toUInt32 = pool.sequence.toUInt32) (db : Database) :
    heldSeq crypto (putPool crypto db pool) sequence = Pool.fromBinary crypto pool.toBinary := by
  unfold heldSeq Database.getSeq putPool
  rw [hseq, lookup_insert]
  rfl

include h hvalid hnew in
theorem Coherent.fresh_of_faithful (hwritten : pool.sequence.toUInt32 + 1 ≠ 0)
    (hfaithful : (st.saved crypto evict pool (putPool crypto st.db pool)).Faithful crypto evict) :
    st.Fresh crypto evict pool := by
  have hload := hfaithful.1
  rw [db_saved] at hload
  refine ⟨hwritten, fun e he hsame => ?_, fun hseq => ?_⟩
  · -- the element that a load of the sequence finds is not the new one
    have hmem : e ∈ (st.saved crypto evict pool (putPool crypto st.db pool)).poolsCache := by
      rw [poolsCache_saved]
      split_ifs
      · exact he
      · exact mem_cons_of_mem _ he
    obtain ⟨found, hfound, hseq, heq⟩ := exists_poolLoad_eq crypto evict hmem
    have hkept : found ∈ st.kept evict := by
      rw [poolsCache_saved] at hfound
      split_ifs at hfound with hany
      · exact hfound
      · rcases mem_cons.mp hfound with rfl | hfound
        · refine absurd (any_eq_true.mpr ⟨e, he, ?_⟩) hany
          rw [Bool.or_eq_true, decide_eq_true_iff]
          exact .inl hseq.symm
        · exact hfound
    have hcurrent := h.current found (mem_of_mem_kept hkept)
    have hpool : found.pool = e.pool := by
      rw [← hcurrent.heldSeq, hseq]
      exact (h.current e (mem_of_mem_kept he)).heldSeq
    rw [if_pos (hcurrent.isValid h.filed), hload, heldSeq_putPool hsame, hpool] at heq
    exact heq
  · have hcached := hload pool.sequence
    rw [poolLoad_of_head hvalid (h.poolsCache_saved_of_ne hnew _ hseq),
      heldSeq_putPool rfl] at hcached
    exact hcached.symm

include h hvalid hnew in
/-- What the record of the block says, whether the block itself or an element with its bytes is in
the cache. -/
theorem Coherent.current_putPool (hfresh : st.Fresh crypto evict pool) :
    (Pool.fromBinary crypto pool.toBinary).isValid = true ∧
      (Pool.fromBinary crypto pool.toBinary).sequence.toUInt32 = pool.sequence.toUInt32 ∧
      (putPool crypto st.db pool).seqNo.lookup
        ((Pool.fromBinary crypto pool.toBinary).hash crypto) =
          some (pool.sequence.toUInt32 + 1) := by
  by_cases hseq : ∀ e ∈ st.kept evict, e.seq ≠ pool.sequence
  · rw [hfresh.inserted hseq]
    exact ⟨hvalid, rfl, lookup_insert _⟩
  · push Not at hseq
    obtain ⟨e, he, heq⟩ := hseq
    have hmem := mem_of_mem_kept he
    have hcurrent := h.current e hmem
    rw [hfresh.kept e he (by rw [heq]), ← hcurrent.seq, ← hcurrent.hash, heq]
    refine ⟨hcurrent.isValid h.filed, rfl, ?_⟩
    have hlookup := hcurrent.lookup_hash h.filed
    rw [heq] at hlookup
    unfold putPool
    rw [lookup_insert_ne (h.hash_ne hnew hmem)]
    exact hlookup

include h hvalid hnew in
theorem Coherent.filed_putPool (hfresh : st.Fresh crypto evict pool) :
    Filed crypto (putPool crypto st.db pool) := by
  obtain ⟨hok, hrecno, hhash⟩ := h.current_putPool hvalid hnew hfresh
  have hother : ∀ {recno data}, recno ≠ pool.sequence.toUInt32 + 1 →
      (putPool crypto st.db pool).blocks.lookup recno = some data →
      st.db.blocks.lookup recno = some data := by
    intro recno data hne hdata
    unfold putPool at hdata
    rwa [lookup_insert_ne hne] at hdata
  have hself : ∀ {data}, (putPool crypto st.db pool).blocks.lookup (pool.sequence.toUInt32 + 1) =
      some data → data = pool.toBinary := by
    simp [putPool]
  constructor
  · have hvalid := h.filed.valid
    grind
  · have hrecno' := h.filed.recno
    grind
  · intro recno data hdata
    by_cases hne : recno = pool.sequence.toUInt32 + 1
    · subst hne
      rw [hself hdata]
      exact hhash
    · have hlookup := h.filed.hash recno data (hother hne hdata)
      grind [putPool, lookup_eq_none, lookup_insert_ne]
  · unfold putPool
    rw [lookup_insert_ne hfresh.written.symm]
    exact h.filed.zero
  · unfold putPool
    rw [lookup_insert_ne (hash_ne_none crypto pool).symm]
    exact h.filed.named

include h hvalid hnew in
theorem Coherent.poolSave_of_fresh (hfresh : st.Fresh crypto evict pool) :
    (st.saved crypto evict pool (putPool crypto st.db pool)).Coherent crypto := by
  constructor
  · rw [db_saved]
    exact h.filed_putPool hvalid hnew hfresh
  rw [db_saved]
  have hkept : ∀ e ∈ st.kept evict, Current crypto (putPool crypto st.db pool) e := by
    intro e he
    obtain ⟨⟨data, hdata, hpool⟩, hseq, hhash⟩ := h.current e (mem_of_mem_kept he)
    refine ⟨?_, hseq, hhash⟩
    unfold putPool
    by_cases hsame : e.seq.toUInt32 = pool.sequence.toUInt32
    · refine ⟨pool.toBinary, ?_, (hfresh.kept e he hsame).symm⟩
      rw [hsame, lookup_insert]
    · simp_all
  intro e he
  rw [poolsCache_saved] at he
  split_ifs at he with hany
  · exact hkept e he
  · rcases mem_cons.mp he with rfl | he
    · have hpool := hfresh.inserted fun e he heq => hany (any_eq_true.mpr ⟨e, he, by simp [heq]⟩)
      refine ⟨⟨pool.toBinary, ?_, hpool.symm⟩, rfl, rfl⟩
      unfold putPool
      rw [lookup_insert]
    · exact hkept e he

end Save

theorem isValid_metaFromBinary (h : (Pool.fromBinary crypto data).isValid = true) :
    (Pool.metaFromBinary data).isValid = true := by
  unfold Pool.fromBinary at h
  split at h
  · cases h
  · next p rest hget =>
    obtain ⟨q, cnt, r, hmeta, -, -⟩ := Pool.getMeta_of_get hget
    unfold Pool.metaFromBinary
    rw [hmeta]
    exact Pool.ensures_getMeta_isValid data _ r hmeta

def LastEvicted (st : Storage) : Prop :=
  st.lastHash ≠ none →
    ∀ e ∈ st.poolsCache, st.db.seqNo.lookup st.lastHash ≠ some (e.seq.toUInt32 + 1)

theorem Filed.erase (h : Filed crypto db) (hrecno : db.seqNo.lookup hash = some recno) :
    Filed crypto ⟨db.seqNo.erase hash, db.blocks.erase recno⟩ := by
  have hlookup : ∀ {recno' data}, (db.blocks.erase recno).lookup recno' = some data →
      recno' ≠ recno ∧ db.blocks.lookup recno' = some data := by
    intro recno' data hdata
    grind [lookup_erase, lookup_erase_ne]
  constructor
  · exact fun recno' data hdata => h.valid recno' data (hlookup hdata).2
  · exact fun recno' data hdata => h.recno recno' data (hlookup hdata).2
  · intro recno' data hdata
    obtain ⟨hne, hdata⟩ := hlookup hdata
    have hhash := h.hash recno' data hdata
    grind [lookup_erase_ne]
  · by_cases heq : 0 = recno
    · rw [heq, lookup_erase]
    · rw [lookup_erase_ne heq]
      exact h.zero
  · have hnamed := h.named
    grind [lookup_erase_ne]

theorem Coherent.poolRemoveLast_iff (h : st.Coherent crypto) :
    (st.poolRemoveLast.2.Faithful crypto evict ↔ st.LastEvicted) ∧
      (st.LastEvicted → st.poolRemoveLast.2.Coherent crypto) := by
  rcases poolRemoveLast_cases st with ⟨⟨error, hst⟩, hinvalid⟩ | ⟨hhash, recno, data, hrecno,
    -, -, hst⟩
  · rw [hst]
    have hafter : (st.report error).Coherent crypto := h.of_eq rfl rfl
    refine ⟨iff_of_true hafter.faithful fun hhash e he heq => ?_, fun _ => hafter⟩
    obtain ⟨data, hdata, -⟩ := (h.current e he).record
    have hvalid := isValid_metaFromBinary (h.filed.valid _ data hdata)
    rw [hinvalid hhash _ data heq hdata] at hvalid
    cases hvalid
  · have hdb : st.poolRemoveLast.2.db =
        ⟨st.db.seqNo.erase st.lastHash, st.db.blocks.erase recno⟩ := by
      rw [hst]
    have hcache : st.poolRemoveLast.2.poolsCache = st.poolsCache := by rw [hst]
    have hcoherent : st.LastEvicted → st.poolRemoveLast.2.Coherent crypto := by
      intro hevicted
      constructor
      · rw [hdb]
        exact h.filed.erase hrecno
      · rw [hdb, hcache]
        intro e he
        obtain ⟨⟨data', hdata', hpool⟩, hseq, hkey⟩ := h.current e he
        refine ⟨⟨data', ?_, hpool⟩, hseq, hkey⟩
        show (st.db.blocks.erase recno).lookup _ = _
        rw [lookup_erase_ne]
        · exact hdata'
        · rintro rfl
          exact hevicted hhash e he hrecno
    refine ⟨⟨fun hfaithful _ e he heq => ?_, fun hevicted => (hcoherent hevicted).faithful⟩,
      hcoherent⟩
    -- the removed block is still loaded
    obtain ⟨found, hfound, hseq, hload⟩ := exists_poolLoad_eq crypto evict (hcache ▸ he)
    have hvalid := (h.current found (hcache ▸ hfound)).isValid h.filed
    have hrec : recno = e.seq.toUInt32 + 1 := by
      rw [hrecno] at heq
      exact Option.some.inj heq
    have hheld : heldSeq crypto st.poolRemoveLast.2.db e.seq = .new := by
      unfold heldSeq Database.getSeq
      rw [hdb, hrec]
      show ((st.db.blocks.erase _).lookup _).elim _ _ = _
      rw [lookup_erase]
      rfl
    rw [if_pos hvalid, hfaithful.1, hheld] at hload
    rw [← hload] at hvalid
    cases hvalid

/-- The operations of a storage. -/
inductive Op where
  | open
  | save (pool : Pool)
  | removeLast
  | load (sequence : Sequence)
  | loadHash (hash : PoolHash)

section

variable (crypto : Crypto) (evict : List PoolElement → Nat)

def reopen (st : Storage) : Bool × Storage := rescan crypto evict { st with poolsCache := [] }

/-- An operation, with what a load has returned and what the database held. A storage whose blocks
cannot be read is not opened. -/
def step : Op → Storage → Option (List (Pool × Pool) × Storage)
  | .open, st => if (st.reopen crypto evict).1 then some ([], (st.reopen crypto evict).2) else none
  | .save pool, st => some ([], (st.poolSave crypto evict pool).2)
  | .removeLast, st => some ([], st.poolRemoveLast.2)
  | .load sequence, st =>
    some ([((st.poolLoad crypto evict sequence).1, heldSeq crypto st.db sequence)],
      (st.poolLoad crypto evict sequence).2)
  | .loadHash hash, st =>
    some ([((st.poolLoadHash crypto evict hash).1, heldHash crypto st.db hash)],
      (st.poolLoadHash crypto evict hash).2)

/-- The operation leaves no block in the cache that the database does not have. -/
def KeepsCurrent : Op → Storage → Prop
  | .save pool, st => pool.isValid = true → st.db.contains (pool.hash crypto) = false →
      st.Fresh crypto evict pool
  | .removeLast, st => st.LastEvicted
  | _, _ => True

end

section

variable (crypto : Crypto) (evict : List PoolElement → Nat) (op : Op) (st : Storage)

abbrev KeepsCoherent : Prop := ∀ after ∈ step crypto evict op st,
  after.2.Coherent crypto ∧ ∀ loaded ∈ after.1, loaded.1 = loaded.2

abbrev Decides : Prop :=
  ((∀ after ∈ step crypto evict op st, after.2.Faithful crypto evict) ↔
    KeepsCurrent crypto evict op st) ∧
      (KeepsCurrent crypto evict op st → KeepsCoherent crypto evict op st)

end

theorem step_of_keepsCurrent {op : Op} (hkeeps : KeepsCurrent crypto evict op st)
    (h : KeepsCoherent crypto evict op st) : Decides crypto evict op st :=
  ⟨iff_of_true (fun after hmem => (h after hmem).1.faithful) hkeeps, fun _ => h⟩

theorem Coherent.step (h : st.Coherent crypto) (op : Op) :
    Decides crypto evict op st := by
  have hshown : st.Faithful crypto evict := h.faithful
  cases op with
  | «open» =>
    refine step_of_keepsCurrent trivial fun after hafter => ?_
    change after ∈ (if (st.reopen crypto evict).1 then _ else _ : Option _) at hafter
    split_ifs at hafter
    · cases hafter
      have hclosed : Coherent crypto { st with poolsCache := [] } :=
        ⟨h.filed, forall_mem_nil _⟩
      exact ⟨hclosed.rescan, forall_mem_nil _⟩
    · cases hafter
  | save pool =>
    rcases poolSave_cases crypto evict st pool with
      ⟨hrefused, heq⟩ | ⟨hvalid, hnew, ⟨hzero, heq⟩ | ⟨hwritten, heq⟩⟩
    · refine step_of_keepsCurrent (fun hvalid hnew => absurd ⟨hvalid, hnew⟩ hrefused) ?_
      rintro _ ⟨⟩
      refine ⟨?_, forall_mem_nil _⟩
      rw [heq]
      exact h.of_eq rfl rfl
    · refine ⟨iff_of_false (fun hfaithful => ?_) fun hfresh => ?_, fun hfresh => ?_⟩
      · have hafter := hfaithful _ rfl
        rw [heq] at hafter
        exact h.not_faithful_of_zero hvalid hnew hzero hafter
      · exact (hfresh hvalid hnew).written hzero
      · exact absurd hzero (hfresh hvalid hnew).written
    · have hafter : (st.poolSave crypto evict pool).2 = _ := congrArg Prod.snd heq
      refine ⟨⟨fun hfaithful _ _ => ?_, ?_⟩, ?_⟩
      · have hfaithful' := hfaithful _ rfl
        rw [heq] at hfaithful'
        exact h.fresh_of_faithful hvalid hnew hwritten hfaithful'
      · rintro hfresh _ ⟨⟩
        rw [hafter]
        exact (h.poolSave_of_fresh hvalid hnew (hfresh hvalid hnew)).faithful
      · rintro hfresh _ ⟨⟩
        rw [hafter]
        exact ⟨h.poolSave_of_fresh hvalid hnew (hfresh hvalid hnew),
          fun _ hmem => absurd hmem not_mem_nil⟩
  | removeLast =>
    obtain ⟨hiff, hcoherent⟩ : (st.poolRemoveLast.2.Faithful crypto evict ↔ _) ∧ _ :=
      h.poolRemoveLast_iff
    refine ⟨⟨fun hfaithful => hiff.mp (hfaithful _ rfl), ?_⟩, ?_⟩
    · rintro hevicted _ ⟨⟩
      exact hiff.mpr hevicted
    · rintro hevicted _ ⟨⟩
      exact ⟨hcoherent hevicted, fun _ hmem => absurd hmem not_mem_nil⟩
  | load sequence =>
    refine step_of_keepsCurrent trivial ?_
    rintro _ ⟨⟩
    exact ⟨h.poolLoad sequence, forall_mem_singleton.mpr (hshown.1 sequence)⟩
  | loadHash hash =>
    refine step_of_keepsCurrent trivial ?_
    rintro _ ⟨⟩
    exact ⟨h.poolLoadHash hash, forall_mem_singleton.mpr (hshown.2 hash)⟩

def empty : Storage := ⟨⟨∅, ∅⟩, none, 0, [], []⟩

theorem coherent_empty (crypto : Crypto) : empty.Coherent crypto := by
  have hnone : ∀ recno data, empty.db.blocks.lookup recno = some data → False := by
    intro recno data h
    cases h
  refine ⟨⟨?_, ?_, ?_, rfl, rfl⟩, forall_mem_nil _⟩
  · exact fun recno data h => (hnone recno data h).elim
  · exact fun recno data h => (hnone recno data h).elim
  · exact fun recno data h => (hnone recno data h).elim

/-- After each operation of a run every load would show what the database holds, exactly if each
operation meets the condition; and then every load of the run has shown it. -/
theorem loads_current_iff (crypto : Crypto) (evict : List PoolElement → Nat) (ops : List Op) :
    (Along (step crypto evict)
        (fun op st => ∀ after ∈ step crypto evict op st, after.2.Faithful crypto evict) ops empty ↔
      Along (step crypto evict) (KeepsCurrent crypto evict) ops empty) ∧
    (Along (step crypto evict) (KeepsCurrent crypto evict) ops empty → ∀ loads st,
      run (step crypto evict) ops empty = some (loads, st) →
        ∀ loaded ∈ loads, loaded.1 = loaded.2) := by
  have hempty := coherent_empty crypto
  constructor
  · refine along_congr (fun op st h => (h.step op).1) (fun op st h hop after hafter => ?_) ops empty
      hempty
    exact ((h.step op).2 hop after hafter).1
  · intro halong loads st hrun
    have hend : st.Coherent crypto ∧ ∀ loaded ∈ [] ++ loads, loaded.1 = loaded.2 := by
      refine run_invariant (I := fun loads st => st.Coherent crypto ∧
        ∀ loaded ∈ loads, loaded.1 = loaded.2) ?_ ⟨hempty, ?_⟩ hrun halong
      · rintro op before st shown after ⟨h, hbefore⟩ hop hstep
        obtain ⟨hafter, hshown⟩ := (h.step op).2 hop _ hstep
        grind
      · exact forall_mem_nil _
    exact hend.2

/-- Hashes that tell versions apart. -/
def demoHashing : Crypto where
  calculateHash data := sampleHash (data.headD 0)
  verifySignature _ _ _ := true

def demoBlock (version : UInt8) : Pool :=
  Pool.compose demoHashing { Pool.new with isValid := true, version }

/-- What the loads of a run have returned and what the database held, as the validity and the
version of the blocks. -/
def demoLoads (ops : List Op) : Option (List ((Bool × UInt8) × (Bool × UInt8))) :=
  (run (step demoHashing fun _ => 0) ops empty).map fun result =>
    result.1.map fun loaded =>
      ((loaded.1.isValid, loaded.1.version), (loaded.2.isValid, loaded.2.version))

/-- A block that has been removed is loaded, also when another one has taken its place. -/
theorem removed_block_is_loaded :
    demoLoads [.save (demoBlock 0), .removeLast, .load 0,
        .loadHash (some (sampleHash 0))] =
      some [((true, 0), (false, 0)), ((true, 0), (false, 0))] ∧
    demoLoads [.save (demoBlock 0), .removeLast, .save (demoBlock 1), .load 0] =
      some [((true, 0), (true, 1))] := by
  decide +kernel

end CreditsNode.Storage
