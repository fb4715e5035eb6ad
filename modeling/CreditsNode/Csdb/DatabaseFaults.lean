import CreditsNode.Csdb.Storage

/-!
# Failing database operations

`DatabaseBerkeleyDB::put` writes both tables in one transaction, `remove` deletes from one after the
other without a transaction. Each of the Berkeley DB operations in them may fail.
-/

namespace CreditsNode

open ByteCodec

/-- The operation of `put` that fails. -/
inductive PutFault where
  | txnBegin
  | blocksPut
  | seqNoPut
  | commit
deriving DecidableEq, Repr

/-- The operation of `remove` that fails. -/
inductive RemoveFault where
  | seqNoGet
  | seqNoDel
  | blocksDel
deriving DecidableEq, Repr

namespace Database

/-- `put`: the transaction is undone when a write fails. Nobody asks whether it could be
committed. -/
def putWith (db : Database) (fault : Option PutFault) (key : PoolHash) (seqNo : UInt32)
    (value : Bytes) : Bool × Database :=
  match db.put key seqNo value with
  | none => (false, db)
  | some db' =>
    match fault with
    | none => (true, db')
    | some .commit => (true, db)
    | some _ => (false, db)

def removeWith (db : Database) (fault : Option RemoveFault) (key : PoolHash) : Bool × Database :=
  match db.seqNo.lookup key with
  | none => (false, db)
  | some recno =>
    match fault with
    | some .seqNoGet | some .seqNoDel => (false, db)
    | some .blocksDel => (false, { db with seqNo := db.seqNo.erase key })
    | none => ((db.blocks.lookup recno).isSome, db.remove key)

/-- A call on the database. -/
inductive Call where
  | put (fault : Option PutFault) (key : PoolHash) (seqNo : UInt32) (value : Bytes)
  | remove (fault : Option RemoveFault) (key : PoolHash)

/-- The call, if what it puts is new. -/
def call : Call → Database → Option Database
  | .put fault key seqNo value, db =>
    if db.seqNo.lookup key = none ∧ db.blocks.lookup (seqNo + 1) = none then
      some (db.putWith fault key seqNo value).2
    else none
  | .remove fault key, db => some (db.removeWith fault key).2

end Database

namespace Storage

def poolSaveWith (crypto : Crypto) (evict : List PoolElement → Nat) (fault : Option PutFault)
    (s : Storage) (pool : Pool) : Bool × Storage :=
  let hash := pool.hash crypto
  if !pool.isValid then (false, s.report .invalidParameter)
  else if s.db.contains hash then (false, s.report .invalidParameter)
  else
    let (done, db) := s.db.putWith fault hash pool.sequence.toUInt32 pool.toBinary
    let s := if done then { s with db } else s.report .databaseError
    let s := { s with
      countPool := s.countPool + 1
      lastHash := if s.lastHash = pool.previousHash then hash else s.lastHash }
    (true, s.poolsCacheInsert evict pool.sequence hash pool)

end Storage

end CreditsNode
