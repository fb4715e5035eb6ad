import CreditsNode.Csdb.Proofs.SealedPoolProofs
import CreditsNode.Csdb.Storage
import CreditsNode.Lib.HashChain

/-!
# The storage as a chain of blocks

`Storage.Holds st chain` says that the two tables are exactly the chain: the block at position `i`
is the record `i + 1`, found under its hash. Saving the next block extends the chain, removing the
last one shortens it, and loading leaves it alone, unless an error is reported.
-/

namespace CreditsNode

open ByteCodec List

/-- A block as the tables have it. -/
structure StoredBlock where
  hash : Hash
  data : Bytes

/-- How a stored block shows its place in the chain: what is read back from its record. -/
def storedChain (crypto : Crypto) : HashChain StoredBlock Hash where
  seq b := (Pool.fromBinary crypto b.data).sequence.toNat
  hash := StoredBlock.hash
  prev b := (Pool.fromBinary crypto b.data).previousHash

namespace Database

/-- The tables are exactly the blocks of `chain`, numbered from one. -/
structure Holds (db : Database) (chain : List StoredBlock) : Prop where
  length_lt : chain.length < 2 ^ 32
  blocks : ∀ recno data, db.blocks.lookup recno = some data ↔
    ∃ i b, chain[i]? = some b ∧ recno.toNat = i + 1 ∧ data = b.data
  seqNo : ∀ hash recno, db.seqNo.lookup hash = some recno ↔
    ∃ i b, chain[i]? = some b ∧ recno.toNat = i + 1 ∧ hash = some b.hash

variable {db : Database} {chain front : List StoredBlock} {b : StoredBlock}

theorem holds_empty : (⟨∅, ∅⟩ : Database).Holds [] :=
  ⟨by decide, by simp, by simp⟩

theorem Holds.exists_recno (h : db.Holds chain) {i : Nat} (hi : chain[i]? = some b) :
    ∃ recno : UInt32, recno.toNat = i + 1 := by
  have hlt := (List.getElem?_eq_some_iff.mp hi).1
  have := h.length_lt
  exact ⟨UInt32.ofNat (i + 1), by rw [UInt32.toNat_ofNat']; exact Nat.mod_eq_of_lt (by omega)⟩

theorem Holds.lookup_hash (h : db.Holds chain) {i : Nat} (hi : chain[i]? = some b) :
    ∃ recno : UInt32, recno.toNat = i + 1 ∧ db.seqNo.lookup (some b.hash) = some recno ∧
      db.blocks.lookup recno = some b.data := by
  obtain ⟨recno, hrecno⟩ := h.exists_recno hi
  have hseqNo := h.seqNo
  have hblocks := h.blocks
  grind

theorem Holds.hash_injective (h : db.Holds chain) {i j : Nat} {a : StoredBlock}
    (hi : chain[i]? = some a) (hj : chain[j]? = some b) (hhash : a.hash = b.hash) : i = j := by
  obtain ⟨r, hr, hlookup, -⟩ := h.lookup_hash hi
  obtain ⟨r', hr', hlookup', -⟩ := h.lookup_hash hj
  rw [hhash, hlookup'] at hlookup
  cases hlookup
  omega

theorem Holds.put (h : db.Holds chain) {hash : Hash} {seqNo : UInt32} (data : Bytes)
    (hseq : seqNo.toNat = chain.length) (hnew : db.contains (some hash) = false)
    (hzero : seqNo + 1 ≠ 0) :
    Holds ⟨db.seqNo.insert (some hash) (seqNo + 1), db.blocks.insert (seqNo + 1) data⟩
      (chain ++ [⟨hash, data⟩]) := by
  have hnone : db.seqNo.lookup (some hash) = none := by
    simpa [Database.contains] using hnew
  have hrecno : (seqNo + 1).toNat = chain.length + 1 := by
    have hne : (seqNo + 1).toNat ≠ 0 := fun h0 => hzero (UInt32.toNat_inj.mp h0)
    rw [UInt32.toNat_add] at hne ⊢
    have := seqNo.toNat_lt
    simp only [UInt32.reduceToNat] at hne ⊢
    omega
  have hnumber : ∀ recno : UInt32, recno.toNat = chain.length + 1 ↔ recno = seqNo + 1 := by
    intro recno
    rw [← hrecno, UInt32.toNat_inj]
  refine ⟨?_, AList.Tabulates.insert h.blocks (fun recno d => ?_) fun i c d hi hic => ?_,
    AList.Tabulates.insert h.seqNo (fun key recno => ?_) fun i c recno hi hic => ?_⟩
  · have := (seqNo + 1).toNat_lt
    simp only [length_append, length_singleton]
    omega
  · rw [hnumber]
  · have := (List.getElem?_eq_some_iff.mp hi).1
    omega
  · rw [hnumber]
    exact and_comm
  · rw [(h.seqNo _ _).mpr ⟨i, c, hi, hic⟩] at hnone
    cases hnone

theorem Holds.remove (h : db.Holds (front ++ [b])) : (db.remove (some b.hash)).Holds front := by
  have hlast : (front ++ [b])[front.length]? = some b := by simp
  obtain ⟨last, hrecno, hlookup, -⟩ := h.lookup_hash hlast
  have hremove : db.remove (some b.hash) =
      { seqNo := db.seqNo.erase (some b.hash), blocks := db.blocks.erase last } := by
    rw [Database.remove, hlookup]
  rw [hremove]
  refine ⟨?_, AList.Tabulates.erase h.blocks (fun recno _ hic => ?_) fun i c _ hi hic => ?_,
    AList.Tabulates.erase h.seqNo (fun _ _ hic => hic.2) fun i c _ hi hic => ?_⟩
  · have := h.length_lt
    simp only [length_append, length_singleton] at this
    omega
  · exact UInt32.toNat_inj.mp (hic.1.trans hrecno.symm)
  · have := (List.getElem?_eq_some_iff.mp hi).1
    omega
  · have hin : (front ++ [b])[i]? = some c := List.getElem?_concat_eq_some.mpr (.inl hi)
    have := h.hash_injective hin hlast (Option.some.inj hic.2).symm
    have := (List.getElem?_eq_some_iff.mp hi).1
    omega

theorem lookup_blocks_remove {key : PoolHash} {recno : UInt32} {data : Bytes}
    (h : (db.remove key).blocks.lookup recno = some data) : db.blocks.lookup recno = some data := by
  unfold Database.remove at h
  split at h
  · exact h
  · next last _ =>
    by_cases hr : recno = last
    · rw [hr] at h
      simp at h
    · rwa [AList.lookup_erase_ne hr] at h

end Database

namespace Storage

/-- The tables are exactly a linked chain, and the last hash is that of its last block. -/
structure Holds (crypto : Crypto) (st : Storage) (chain : List StoredBlock) : Prop where
  db : st.db.Holds chain
  linked : (storedChain crypto).Linked chain
  lastHash : st.lastHash = (storedChain crypto).tip chain

/-- `pool` is a sealed block that continues the chain. -/
structure Continues (crypto : Crypto) (chain : List StoredBlock) (pool : Pool) : Prop where
  isSealed : pool.Sealed
  sequence : pool.sequence.toNat = chain.length
  previousHash : pool.previousHash = (storedChain crypto).tip chain
  decodes : (Pool.fromBinary crypto pool.binaryRepresentation).sequence ≠ 0

variable {crypto : Crypto} {evict : List PoolElement → Nat} {st : Storage}
  {chain front : List StoredBlock} {pool : Pool}

theorem Holds.of_agree {st' : Storage} (h : st.Holds crypto chain) (hdb : st'.db = st.db)
    (hlast : st'.lastHash = st.lastHash) : st'.Holds crypto chain :=
  ⟨hdb ▸ h.db, h.linked, hlast ▸ h.lastHash⟩

@[simp] theorem db_poolsCacheInsert (seq : Sequence) (hash : PoolHash) :
    (st.poolsCacheInsert evict seq hash pool).db = st.db := by
  unfold poolsCacheInsert
  dsimp only
  split_ifs <;> rfl

@[simp] theorem lastHash_poolsCacheInsert (seq : Sequence) (hash : PoolHash) :
    (st.poolsCacheInsert evict seq hash pool).lastHash = st.lastHash := by
  unfold poolsCacheInsert
  dsimp only
  split_ifs <;> rfl

@[simp] theorem errors_poolsCacheInsert (seq : Sequence) (hash : PoolHash) :
    (st.poolsCacheInsert evict seq hash pool).errors = st.errors := by
  unfold poolsCacheInsert
  dsimp only
  split_ifs <;> rfl

def putPool (crypto : Crypto) (db : Database) (pool : Pool) : Database where
  seqNo := db.seqNo.insert (pool.hash crypto) (pool.sequence.toUInt32 + 1)
  blocks := db.blocks.insert (pool.sequence.toUInt32 + 1) pool.toBinary

def saved (crypto : Crypto) (evict : List PoolElement → Nat) (st : Storage) (pool : Pool)
    (db : Database) : Storage :=
  { st with
    db
    countPool := st.countPool + 1
    lastHash := if st.lastHash = pool.previousHash then pool.hash crypto else
      st.lastHash }.poolsCacheInsert evict pool.sequence (pool.hash crypto) pool

@[simp] theorem db_saved (db : Database) : (st.saved crypto evict pool db).db = db :=
  db_poolsCacheInsert _ _

@[simp] theorem errors_saved (db : Database) : (st.saved crypto evict pool db).errors = st.errors :=
  errors_poolsCacheInsert _ _

/-- A block is refused, or it cannot be written because its record number is zero, or it is
written. -/
theorem poolSave_cases (crypto : Crypto) (evict : List PoolElement → Nat) (st : Storage)
    (pool : Pool) :
    (¬(pool.isValid = true ∧ st.db.contains (pool.hash crypto) = false) ∧
      st.poolSave crypto evict pool = (false, st.report .invalidParameter)) ∨
    (pool.isValid = true ∧ st.db.contains (pool.hash crypto) = false ∧
      (pool.sequence.toUInt32 + 1 = 0 ∧ st.poolSave crypto evict pool =
          (true, (st.report .databaseError).saved crypto evict pool st.db) ∨
        pool.sequence.toUInt32 + 1 ≠ 0 ∧ st.poolSave crypto evict pool =
          (true, st.saved crypto evict pool (putPool crypto st.db pool)))) := by
  unfold poolSave
  by_cases hvalid : pool.isValid = true
  · cases hnew : st.db.contains (pool.hash crypto) with
    | false =>
      refine .inr ⟨hvalid, rfl, ?_⟩
      rw [if_neg (by simp [hvalid]), if_neg (by simp [hnew])]
      by_cases hzero : pool.sequence.toUInt32 + 1 = 0
      · have hput : st.db.put (pool.hash crypto) pool.sequence.toUInt32 pool.toBinary = none :=
          if_pos hzero
        rw [hput]
        exact .inl ⟨hzero, rfl⟩
      · have hput : st.db.put (pool.hash crypto) pool.sequence.toUInt32 pool.toBinary =
            some (putPool crypto st.db pool) := if_neg hzero
        rw [hput]
        exact .inr ⟨hzero, rfl⟩
    | true =>
      rw [if_neg (by simp [hvalid]), if_pos hnew]
      exact .inl ⟨by simp, rfl⟩
  · rw [if_pos (by simpa using hvalid)]
    exact .inl ⟨fun h => hvalid h.1, rfl⟩

theorem poolRemoveLast_cases (st : Storage) :
    ((∃ e, st.poolRemoveLast = (.new, st.report e)) ∧ (st.lastHash ≠ none → ∀ recno data,
      st.db.seqNo.lookup st.lastHash = some recno → st.db.blocks.lookup recno = some data →
        (Pool.metaFromBinary data).isValid = false)) ∨
    (st.lastHash ≠ none ∧ ∃ recno data, st.db.seqNo.lookup st.lastHash = some recno ∧
      st.db.blocks.lookup recno = some data ∧ (Pool.metaFromBinary data).isValid = true ∧
      st.poolRemoveLast = (Pool.metaFromBinary data, { st with
        db := ⟨st.db.seqNo.erase st.lastHash, st.db.blocks.erase recno⟩
        countPool := st.countPool - 1
        lastHash := (Pool.metaFromBinary data).previousHash })) := by
  unfold poolRemoveLast
  split_ifs with hnone
  · exact .inl ⟨⟨_, rfl⟩, fun h => absurd hnone h⟩
  cases hget : st.db.get st.lastHash with
  | none =>
    refine .inl ⟨⟨_, rfl⟩, fun _ recno data hrecno hdata => ?_⟩
    simp [Database.get, hrecno, hdata] at hget
  | some data =>
    obtain ⟨recno, hrecno, hdata⟩ := Option.bind_eq_some_iff.mp hget
    dsimp only
    split_ifs with hinvalid
    · refine .inl ⟨⟨_, rfl⟩, fun _ recno' data' hrecno' hdata' => ?_⟩
      rw [hrecno] at hrecno'
      cases hrecno'
      rw [hdata] at hdata'
      cases hdata'
      simpa using hinvalid
    · refine .inr ⟨hnone, recno, data, hrecno, hdata, by simpa using hinvalid, ?_⟩
      simp only [Database.remove, hrecno]

theorem poolLoad_spec (sequence : Sequence) :
    (st.poolLoad crypto evict sequence).2.db = st.db ∧
      (st.poolLoad crypto evict sequence).2.lastHash = st.lastHash ∧
      st.errors <:+ (st.poolLoad crypto evict sequence).2.errors := by
  have hreport : ∀ (u : Storage) (error : StorageError), u.errors <:+ (u.report error).errors :=
    fun u error => List.suffix_cons error u.errors
  unfold poolLoad
  split
  · split_ifs
    · exact ⟨rfl, rfl, List.suffix_rfl⟩
    · exact ⟨rfl, rfl, hreport st _⟩
  · split
    · exact ⟨rfl, rfl, hreport st _⟩
    · dsimp only
      split_ifs
      · simp
      · exact ⟨by simp [report], by simp [report], by simp [report]⟩

theorem Continues.decoded (h : Continues crypto chain pool) :
    (Pool.fromBinary crypto pool.binaryRepresentation).sequence = pool.sequence ∧
      (Pool.fromBinary crypto pool.binaryRepresentation).previousHash = pool.previousHash := by
  have hdecodes := h.decodes
  unfold Pool.fromBinary at hdecodes ⊢
  split at hdecodes
  · exact absurd rfl hdecodes
  · next q rest hget => exact h.isSealed.encoding q rest hget

theorem Continues.linked (h : Continues crypto chain pool)
    (hlinked : (storedChain crypto).Linked chain) (hash : Hash) :
    (storedChain crypto).Linked (chain ++ [⟨hash, pool.binaryRepresentation⟩]) := by
  obtain ⟨hseq, hprev⟩ := h.decoded
  refine hlinked.snoc ?_ ?_
  · exact (congrArg UInt64.toNat hseq).trans h.sequence
  · exact hprev.trans h.previousHash

theorem Holds.poolSave (h : st.Holds crypto chain) (hnext : Continues crypto chain pool)
    (hok : (st.poolSave crypto evict pool).2.errors = []) :
    (st.poolSave crypto evict pool).1 = true ∧ ∃ hash, pool.hash crypto = some hash ∧
      (st.poolSave crypto evict pool).2.Holds crypto
        (chain ++ [⟨hash, pool.binaryRepresentation⟩]) := by
  obtain ⟨hash, hcached⟩ := hnext.isSealed.hash
  have hhash : pool.hash crypto = some hash := by rw [Pool.hash, hcached]
  rcases poolSave_cases crypto evict st pool with ⟨-, heq⟩ | ⟨-, hnew, ⟨-, heq⟩ | ⟨hzero, heq⟩⟩
  · rw [heq] at hok
    cases hok
  · rw [heq, errors_saved] at hok
    cases hok
  have hrecno : pool.sequence.toUInt32.toNat = chain.length := by
    rw [UInt64.toNat_toUInt32, hnext.sequence]
    exact Nat.mod_eq_of_lt h.db.length_lt
  rw [heq]
  refine ⟨rfl, hash, hhash, ?_, hnext.linked h.linked hash, ?_⟩
  · rw [hhash] at hnew
    rw [db_saved, putPool, hhash]
    exact h.db.put pool.toBinary hrecno hnew hzero
  · simp [saved, h.lastHash, hnext.previousHash, storedChain, hhash]

theorem Holds.poolRemoveLast (h : st.Holds crypto chain) (hlen : 2 ≤ chain.length) :
    ∃ front, chain.length = front.length + 1 ∧ st.poolRemoveLast.2.Holds crypto front ∧
      st.poolRemoveLast.2.errors = st.errors ∧ st.poolRemoveLast.1.isValid = true ∧
      st.poolRemoveLast.1.sequence ≠ 0 := by
  obtain ⟨front, b, rfl, hlinked, hseq, hprev⟩ := h.linked.exists_snoc hlen
  have hlast : st.lastHash = some b.hash := by rw [h.lastHash]; simp [storedChain]
  obtain ⟨recno, hrecno, hlookup, hblock⟩ := h.db.lookup_hash (by simp :
    (front ++ [b])[front.length]? = some b)
  have hget : st.db.get (some b.hash) = some b.data := by
    simp [Database.get, hlookup, hblock]
  -- the removed block is not the first one, so it decodes
  have hpos : (Pool.fromBinary crypto b.data).sequence ≠ 0 := by
    intro hzero
    have hnat : (Pool.fromBinary crypto b.data).sequence.toNat = front.length := hseq
    rw [hzero] at hnat
    simp at hlen hnat
    omega
  obtain ⟨hvalid, hmetaSeq, hmetaPrev⟩ := Pool.metaFromBinary_agrees hpos
  have hremoved : st.poolRemoveLast = (Pool.metaFromBinary b.data, { st with
      db := st.db.remove (some b.hash), countPool := st.countPool - 1
      lastHash := (Pool.metaFromBinary b.data).previousHash }) := by
    grind [Storage.poolRemoveLast]
  rw [hremoved]
  exact ⟨front, by simp, ⟨h.db.remove, hlinked, hmetaPrev.trans hprev⟩, rfl, hvalid,
    hmetaSeq ▸ hpos⟩

/-- A removal that returns no block has reported an error and changed nothing else. -/
theorem poolRemoveLast_of_invalid (h : st.poolRemoveLast.1.isValid = false) :
    st.poolRemoveLast.2.db = st.db ∧ st.poolRemoveLast.2.errors ≠ [] := by
  rcases poolRemoveLast_cases st with ⟨⟨e, heq⟩, -⟩ | ⟨-, recno, data, -, -, hvalid, heq⟩
  · rw [heq]
    exact ⟨rfl, cons_ne_nil _ _⟩
  · rw [heq] at h
    cases hvalid.symm.trans h

theorem lookup_poolRemoveLast {recno : UInt32} {data : Bytes}
    (h : st.poolRemoveLast.2.db.blocks.lookup recno = some data) :
    st.db.blocks.lookup recno = some data := by
  rcases poolRemoveLast_cases st with ⟨⟨e, heq⟩, -⟩ | ⟨-, last, _, -, -, -, heq⟩
  · rwa [heq] at h
  · rw [heq, AList.lookup_erase_eq_ite] at h
    split_ifs at h
    exact h

theorem errors_subset_poolSave : st.errors ⊆ (st.poolSave crypto evict pool).2.errors := by
  rcases poolSave_cases crypto evict st pool with ⟨-, heq⟩ | ⟨-, -, ⟨-, heq⟩ | ⟨-, heq⟩⟩
  · rw [heq]
    exact subset_cons_self _ _
  · rw [heq, errors_saved]
    exact subset_cons_self _ _
  · rw [heq, errors_saved]
    exact List.Subset.refl _

theorem errors_poolSave (h : st.errors ≠ []) : (st.poolSave crypto evict pool).2.errors ≠ [] :=
  fun hnil => h (subset_nil.mp (hnil ▸ errors_subset_poolSave))

theorem errors_subset_poolRemoveLast : st.errors ⊆ st.poolRemoveLast.2.errors := by
  rcases poolRemoveLast_cases st with ⟨⟨e, heq⟩, -⟩ | ⟨-, _, _, -, -, -, heq⟩
  · rw [heq]
    exact subset_cons_self _ _
  · rw [heq]
    exact List.Subset.refl _

theorem errors_poolRemoveLast (h : st.errors ≠ []) : st.poolRemoveLast.2.errors ≠ [] :=
  fun hnil => h (subset_nil.mp (hnil ▸ errors_subset_poolRemoveLast))

theorem poolRemoveLastRepair_spec (crypto : Crypto) (evict : List PoolElement → Nat)
    (h : st.errors ≠ []) (seq : Sequence) (hash : PoolHash) :
    (st.poolRemoveLastRepair crypto evict seq hash).2.errors ≠ [] ∧
      ∀ recno data, (st.poolRemoveLastRepair crypto evict seq hash).2.db.blocks.lookup recno =
        some data → st.db.blocks.lookup recno = some data := by
  unfold Storage.poolRemoveLastRepair
  split_ifs
  · exact ⟨by simp [report], fun _ _ h => h⟩
  · split
    · exact ⟨by simp [report], fun _ _ h => h⟩
    · split_ifs
      · exact ⟨by simp [report], fun _ _ h => h⟩
      · generalize hst : ({ st with db := st.db.remove hash, countPool := st.countPool - 1 } :
          Storage) = st'
        have hload : (st'.poolLoad crypto evict (seq - 1)).2.db = st'.db ∧ _ :=
          poolLoad_spec (seq - 1)
        obtain ⟨hdb, -, herrors⟩ := hload
        have hsub : ∀ recno data, st'.db.blocks.lookup recno = some data →
            st.db.blocks.lookup recno = some data := by
          rw [← hst]
          exact fun _ _ => Database.lookup_blocks_remove
        grind [report]

end Storage

end CreditsNode
