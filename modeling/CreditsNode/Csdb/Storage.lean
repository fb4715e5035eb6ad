import CreditsNode.Csdb.Pool
import Mathlib.Data.List.AList

/-!
# The block storage

`csdb::Storage` keeps the blocks in two Berkeley DB tables: the blocks by record number, which is
the sequence plus one, and the record numbers by hash (`csdb::DatabaseBerkeleyDB`). Blocks that were
saved or loaded stay in a cache that is asked first.

The storage is open, and its writes and deletions take effect; a record number of zero is refused.
`Storage.errors` collects the reported errors.
-/

namespace CreditsNode

open ByteCodec

/-! ## The database -/

/-- `DatabaseBerkeleyDB`. -/
structure Database where
  /-- `sequence.db`: record numbers by hash. -/
  seqNo : AList fun _ : PoolHash => UInt32
  /-- `blockchain.db`: blocks by record number. -/
  blocks : AList fun _ : UInt32 => Bytes

namespace Database

variable (db : Database)

/-- `put`: `none` if a write fails, and then neither takes effect. -/
def put (key : PoolHash) (seqNo : UInt32) (value : Bytes) : Option Database :=
  if seqNo + 1 = 0 then none
  else
    some { seqNo := db.seqNo.insert key (seqNo + 1), blocks := db.blocks.insert (seqNo + 1) value }

/-- `get(key)` without a value: whether the key is there. -/
def contains (key : PoolHash) : Bool := (db.seqNo.lookup key).isSome

def get (key : PoolHash) : Option Bytes := do
  let recno ← db.seqNo.lookup key
  db.blocks.lookup recno

def getSeq (seqNo : UInt32) : Option Bytes := db.blocks.lookup (seqNo + 1)

def remove (key : PoolHash) : Database :=
  match db.seqNo.lookup key with
  | none => db
  | some recno => { seqNo := db.seqNo.erase key, blocks := db.blocks.erase recno }

def records : List Bytes :=
  (db.blocks.entries.mergeSort fun a b => a.1 ≤ b.1).map fun record => record.2

end Database

/-! ## The storage -/

/-- `Storage::Error`, those that the modelled operations report. -/
inductive StorageError where
  | databaseError
  | dataIntegrityError
  | invalidParameter
deriving DecidableEq, Repr

/-- `Storage::priv::PoolElement`. -/
structure PoolElement where
  seq : Sequence
  hash : PoolHash
  pool : Pool

/-- `csdb::Storage`, with the errors it has reported, the newest first. -/
structure Storage where
  db : Database
  lastHash : PoolHash
  countPool : UInt64
  poolsCache : List PoolElement
  errors : List StorageError

namespace Storage

/-- `set_last_error`. -/
def report (s : Storage) (error : StorageError) : Storage := { s with errors := error :: s.errors }

/-- `pools_cache_insert`. The container is unique in both keys; which element leaves a full cache is
up to the hash table, and `evict` names it. -/
def poolsCacheInsert (evict : List PoolElement → Nat) (s : Storage) (seq : Sequence)
    (hash : PoolHash) (pool : Pool) : Storage :=
  let cache := if s.poolsCache.length = 10000 then s.poolsCache.eraseIdx (evict s.poolsCache)
    else s.poolsCache
  if cache.any fun e => e.seq = seq || e.hash = hash then { s with poolsCache := cache }
  else { s with poolsCache := ⟨seq, hash, pool⟩ :: cache }

section

variable (crypto : Crypto) (evict : List PoolElement → Nat) (s : Storage)

def poolSave (pool : Pool) : Bool × Storage :=
  let hash := pool.hash crypto
  if !pool.isValid then (false, s.report .invalidParameter)
  else if s.db.contains hash then (false, s.report .invalidParameter)
  else
    let s :=
      match s.db.put hash pool.sequence.toUInt32 pool.toBinary with
      | some db => { s with db }
      | none => s.report .databaseError
    let s := { s with
      countPool := s.countPool + 1
      lastHash := if s.lastHash = pool.previousHash then hash else s.lastHash }
    (true, s.poolsCacheInsert evict pool.sequence hash pool)

/-- `pool_load(sequence)`. What has been read is cached before it is looked at, and returned also if
it is not valid. -/
def poolLoad (sequence : Sequence) : Pool × Storage :=
  match s.poolsCache.find? fun e => e.seq = sequence with
  | some e => if e.pool.isValid then (e.pool, s) else (.new, s.report .dataIntegrityError)
  | none =>
    match s.db.getSeq sequence.toUInt32 with
    | none => (.new, s.report .databaseError)
    | some data =>
      let res := Pool.fromBinary crypto data
      let s := s.poolsCacheInsert evict res.sequence (res.hash crypto) res
      if res.isValid then (res, s) else (res, s.report .dataIntegrityError)

/-- `pool_load(hash)`. What has been read is cached before it is looked at. -/
def poolLoadHash (hash : PoolHash) : Pool × Storage :=
  if hash = none then (.new, s.report .invalidParameter)
  else
    match s.poolsCache.find? fun e => e.hash = hash with
    | some e => if e.pool.isValid then (e.pool, s) else (.new, s.report .dataIntegrityError)
    | none =>
      match s.db.get hash with
      | none => (.new, s.report .databaseError)
      | some data =>
        let res := Pool.fromBinary crypto data
        let s := s.poolsCacheInsert evict res.sequence (res.hash crypto) res
        if res.isValid then (res, s) else (.new, s.report .dataIntegrityError)

def poolHash (sequence : Sequence) : PoolHash × Storage :=
  match s.db.getSeq sequence.toUInt32 with
  | none => (none, s.report .databaseError)
  | some data =>
    let res := Pool.fromBinary crypto data
    if !res.isValid then (none, s.report .dataIntegrityError) else (res.hash crypto, s)

/-- The loop of `rescan`, for receivers that accept every block. -/
def rescanRecords : List Bytes → Storage → Bool × Storage
  | [], s => (true, s)
  | data :: records, s =>
    let p := Pool.fromBinary crypto data
    if !p.isValid then (false, s.report .dataIntegrityError)
    else
      rescanRecords records ({ s with
        lastHash := p.hash crypto
        countPool := s.countPool + 1 }.poolsCacheInsert evict p.sequence (p.hash crypto) p)

/-- `rescan`, which `open` ends with. -/
def rescan : Bool × Storage :=
  rescanRecords crypto evict s.db.records { s with lastHash := none, countPool := 0 }

end

/-- `pool_sequence`, which returns what `seq_no` finds in the table. -/
def poolSequence (s : Storage) (hash : PoolHash) : Sequence × Storage :=
  if hash = none then (kWrongSequence, s.report .invalidParameter)
  else
    match s.db.seqNo.lookup hash with
    | none => (kWrongSequence, s)
    | some value => (value.toUInt64, s)

/-- `pool_remove_last`. What it returns is decoded up to the number of transactions only. -/
def poolRemoveLast (s : Storage) : Pool × Storage :=
  if s.lastHash = none then (.new, s.report .invalidParameter)
  else
    match s.db.get s.lastHash with
    | none => (.new, s.report .databaseError)
    | some data =>
      let res := Pool.metaFromBinary data
      if !res.isValid then (.new, s.report .dataIntegrityError)
      else
        (res, { s with
          db := s.db.remove s.lastHash
          countPool := s.countPool - 1
          lastHash := res.previousHash })

/-- `pool_remove_last_repair`. The table has record numbers, which are compared with the sequence
as they are. -/
def poolRemoveLastRepair (crypto : Crypto) (evict : List PoolElement → Nat) (s : Storage)
    (testSequence : Sequence) (testHash : PoolHash) : Bool × Storage :=
  if testSequence = 0 || testHash = none || testSequence + 1 ≠ s.countPool then
    (false, s.report .invalidParameter)
  else
    match s.db.seqNo.lookup testHash with
    | none => (false, s.report .databaseError)
    | some recno =>
      if recno.toUInt64 ≠ testSequence then (false, s.report .invalidParameter)
      else
        let s := { s with db := s.db.remove testHash, countPool := s.countPool - 1 }
        let (last, s) := s.poolLoad crypto evict (testSequence - 1)
        if last.isValid then (true, { s with lastHash := last.hash crypto })
        else (false, { s with lastHash := none }.report .dataIntegrityError)

end Storage

end CreditsNode
