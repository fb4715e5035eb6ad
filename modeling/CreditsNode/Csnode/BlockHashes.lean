import CreditsNode.Csdb.Pool
import Mathlib.Data.List.AList

/-!
# The cache of block hashes

`cs::BlockHashes` maps sequences to hashes and hashes to sequences, in two tables of a key-value
store whose writes replace what was there.
-/

namespace CreditsNode

/-- `BlockHashes`: the hashes by sequence and the sequences by hash. -/
structure BlockHashes where
  seqDb : AList fun _ : Sequence => PoolHash
  hashDb : AList fun _ : PoolHash => Sequence

namespace BlockHashes

def new : BlockHashes := ⟨∅, ∅⟩

def find (s : BlockHashes) (seq : Sequence) : PoolHash := (s.seqDb.lookup seq).getD none

def findHash (s : BlockHashes) (hash : PoolHash) : Sequence :=
  if hash = none then kWrongSequence else (s.hashDb.lookup hash).getD kWrongSequence

def update (s : BlockHashes) (seq : Sequence) (hash : PoolHash) : BlockHashes :=
  if s.find seq = hash then s
  else { seqDb := s.seqDb.insert seq hash, hashDb := s.hashDb.insert hash seq }

def remove (s : BlockHashes) (sequence : Sequence) : Option BlockHashes :=
  let hash := s.find sequence
  if hash = none then none
  else some { seqDb := s.seqDb.erase sequence, hashDb := s.hashDb.erase hash }

def removeHash (s : BlockHashes) (hash : PoolHash) : Option BlockHashes :=
  let sequence := s.findHash hash
  if sequence = kWrongSequence then none
  else some { seqDb := s.seqDb.erase sequence, hashDb := s.hashDb.erase hash }

end BlockHashes

end CreditsNode
