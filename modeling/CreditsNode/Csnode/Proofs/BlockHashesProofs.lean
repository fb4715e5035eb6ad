import CreditsNode.Csnode.BlockHashes
import CreditsNode.Lib.EventSystem
import CreditsNode.Lib.Lookup
import CreditsNode.Csdb.Proofs.SampleData

/-!
# The two tables of block hashes

The tables are the two directions of one relation as long as no block is put in the place of another
and no hash is given a second sequence: `update` writes the new pair and leaves the old ones.
-/

namespace CreditsNode.BlockHashes

open EventSystem BlockHashes

variable {s t : BlockHashes}

/-- The calls on the cache. `onNextBlock` is `update`. -/
inductive Call where
  | update (seq : Sequence) (hash : PoolHash)
  | remove (seq : Sequence)
  | removeHash (hash : PoolHash)

/-- A block has a hash and a sequence. A removal of what is not there changes nothing. -/
def call : Call → BlockHashes → Option BlockHashes
  | .update seq hash, s => if seq = kWrongSequence ∨ hash = none then none else s.update seq hash
  | .remove seq, s => some ((s.remove seq).getD s)
  | .removeHash hash, s => some ((s.removeHash hash).getD s)

def Inverse (s : BlockHashes) : Prop :=
  ∀ seq hash, seq ≠ kWrongSequence → hash ≠ none → (s.find seq = hash ↔ s.findHash hash = seq)

/-- After the call the tables are inverse, and a block that has been replaced or removed is not
found. -/
def Forgets (c : Call) (s : BlockHashes) : Prop :=
  After call (fun t => t.Inverse ∧ ∀ seq hash, seq ≠ kWrongSequence → hash ≠ none →
    s.find seq = hash → t.find seq ≠ hash → t.findHash hash = kWrongSequence) c s

def Enters : Call → BlockHashes → Prop
  | .update seq hash, s => seq ≠ kWrongSequence → hash ≠ none →
    s.find seq = hash ∨ s.find seq = none ∧ s.findHash hash = kWrongSequence
  | _, _ => True

/-- The tables have the same pairs, of sequences and hashes of blocks. -/
structure Paired (s : BlockHashes) : Prop where
  proper : ∀ seq hash, s.seqDb.lookup seq = some hash → seq ≠ kWrongSequence ∧ hash ≠ none
  pairs : ∀ seq hash, s.seqDb.lookup seq = some hash ↔ s.hashDb.lookup hash = some seq

theorem paired_new : new.Paired := by
  constructor <;> simp [new]

variable {seq : Sequence} {hash : PoolHash}

theorem find_eq_iff (hhash : hash ≠ none) : s.find seq = hash ↔ s.seqDb.lookup seq = some hash := by
  unfold find
  cases s.seqDb.lookup seq <;> simp [hhash.symm]

theorem Paired.findHash_eq (h : s.Paired)
    (hseq : seq ≠ kWrongSequence) : s.findHash hash = seq ↔ s.hashDb.lookup hash = some seq := by
  unfold findHash
  by_cases hnone : hash = none
  · have hproper := h.proper seq hash
    grind [h.pairs seq hash]
  · rw [if_neg hnone]
    cases s.hashDb.lookup hash <;> simp [hseq.symm]

theorem Paired.inverse (h : s.Paired) : s.Inverse := by
  intro seq hash hseq hhash
  rw [find_eq_iff hhash, h.findHash_eq hseq, h.pairs]

section Update

variable {seq : Sequence} {hash : PoolHash}

theorem find_update (hnew : s.find seq ≠ hash) (seq' : Sequence) :
    (s.update seq hash).find seq' = if seq' = seq then hash else s.find seq' := by
  rw [update, if_neg hnew]
  grind [find]

theorem findHash_update (hnew : s.find seq ≠ hash) (hhash : hash ≠ none) (hash' : PoolHash) :
    (s.update seq hash).findHash hash' = if hash' = hash then seq else s.findHash hash' := by
  rw [update, if_neg hnew]
  grind [findHash]

end Update

theorem Paired.update (h : s.Paired) (hseq : seq ≠ kWrongSequence)
    (hhash : hash ≠ none) (henters : Enters (.update seq hash) s) : (s.update seq hash).Paired := by
  obtain ⟨hproper, hpairs⟩ := h
  unfold BlockHashes.update
  split_ifs with hsame
  · exact ⟨hproper, hpairs⟩
  · obtain ⟨hnone, hwrong⟩ := (henters hseq hhash).resolve_left hsame
    unfold find at hnone
    unfold findHash at hwrong
    constructor <;> grind

theorem Paired.erase (h : s.Paired) (hmem : s.seqDb.lookup seq = some hash) :
    Paired { seqDb := s.seqDb.erase seq, hashDb := s.hashDb.erase hash } := by
  obtain ⟨hproper, hpairs⟩ := h
  constructor <;> grind

theorem Paired.removal (h : s.Paired) {c : Call} (hc : ∀ seq hash, c ≠ .update seq hash)
    (ht : call c s = some t) : t = s ∨ ∃ seq hash, s.seqDb.lookup seq = some hash ∧
      t = { seqDb := s.seqDb.erase seq, hashDb := s.hashDb.erase hash } := by
  cases c with
  | update seq hash => exact absurd rfl (hc seq hash)
  | remove seq =>
    by_cases hnone : s.find seq = none
    · simp_all [call, remove]
    · have hmem := (find_eq_iff hnone).mp rfl
      simp only [call, remove, hnone, if_false, Option.getD_some, Option.some.injEq] at ht
      exact .inr ⟨seq, _, hmem, ht.symm⟩
  | removeHash hash =>
    by_cases hnone : s.findHash hash = kWrongSequence
    · simp_all [call, removeHash]
    · have hmem := (h.pairs _ _).mpr ((h.findHash_eq hnone).mp rfl)
      simp only [call, removeHash, hnone, if_false, Option.getD_some,
        Option.some.injEq] at ht
      exact .inr ⟨_, hash, hmem, ht.symm⟩

theorem Paired.forgets_of_erase (h : s.Paired)
    (hmem : s.seqDb.lookup seq = some hash) (seq' : Sequence) (hash' : PoolHash)
    (hhash' : hash' ≠ none) (hold : s.find seq' = hash')
    (hnew : ({ seqDb := s.seqDb.erase seq, hashDb := s.hashDb.erase hash } : BlockHashes).find seq'
      ≠ hash') :
    ({ seqDb := s.seqDb.erase seq, hashDb := s.hashDb.erase hash } : BlockHashes).findHash hash'
      = kWrongSequence := by
  have hpairs := h.pairs
  unfold find at hold hnew
  unfold findHash
  grind

theorem Paired.call (h : s.Paired) {c : Call} (hc : Enters c s) (ht : call c s = some t) :
    t.Paired := by
  cases c with
  | remove _ | removeHash _ =>
    obtain rfl | ⟨seq, hash, hmem, rfl⟩ := h.removal (fun _ _ => by simp) ht
    · exact h
    · exact h.erase hmem
  | update seq hash =>
    simp only [BlockHashes.call, Option.ite_none_left_eq_some, not_or, Option.some.injEq] at ht
    obtain ⟨⟨hseq, hhash⟩, rfl⟩ := ht
    exact h.update hseq hhash hc

theorem Paired.call_iff (h : s.Paired) (c : Call) : Forgets c s ↔ Enters c s := by
  cases c with
  | remove _ | removeHash _ =>
    refine iff_of_true (fun t ht => ?_) trivial
    obtain rfl | ⟨seq, hash, hmem, rfl⟩ := h.removal (fun _ _ => by simp) ht
    · exact ⟨h.inverse, fun _ _ _ _ hold hnew => absurd hold hnew⟩
    · exact ⟨(h.erase hmem).inverse, fun seq' hash' _ => h.forgets_of_erase hmem seq' hash'⟩
  | update seq hash =>
    constructor
    · intro hforgets hseq hhash
      obtain ⟨hinverse, -⟩ := hforgets (s.update seq hash) (by simp [BlockHashes.call, hseq, hhash])
      by_contra hreplaces
      obtain ⟨hnew, hreplaces⟩ := not_or.mp hreplaces
      by_cases hold : s.find seq = none
      · -- the hash has another sequence, which still leads to it
        have hknown : s.findHash hash ≠ kWrongSequence := fun h => hreplaces ⟨hold, h⟩
        have hother := hinverse (s.findHash hash) hash hknown hhash
        have hback := (h.inverse (s.findHash hash) hash hknown hhash).mpr rfl
        grind [find_update, findHash_update]
      · -- the hash of the block before still leads to the sequence
        have hother := hinverse seq (s.find seq) hseq hold
        have hback := (h.inverse seq (s.find seq) hseq hold).mp rfl
        grind [find_update, findHash_update]
    · intro henters t ht
      simp only [Option.mem_def, BlockHashes.call, Option.ite_none_left_eq_some, not_or,
        Option.some.injEq] at ht
      obtain ⟨⟨hseq, hhash⟩, rfl⟩ := ht
      refine ⟨(h.update hseq hhash henters).inverse, fun seq' hash' _ hhash' hold hnew => ?_⟩
      by_cases hsame : s.find seq = hash
      · rw [BlockHashes.update, if_pos hsame] at hnew
        exact absurd hold hnew
      · grind [find_update, henters hseq hhash]

/-- After every call of a run the tables are inverse and forget what was replaced or removed,
exactly if no block of the run comes in the place of another. -/
theorem forgets_along_iff (calls : List Call) :
    Along (silent call) Forgets calls new ↔ Along (silent call) Enters calls new :=
  along_congr (fun c _ hs => hs.call_iff c) (fun _ _ hs hc => forall_mem_silent fun _ => hs.call hc)
    calls new paired_new

/-- The block with sequence 1 is replaced; the hash of the old one still leads to it. -/
theorem replaced_hash_found : ∃ s,
    run (silent call) [.update 1 (some (sampleHash 1)), .update 1 (some (sampleHash 2))] new =
      some ([], s) ∧ s.find 1 = some (sampleHash 2) ∧ s.findHash (some (sampleHash 1)) = 1 :=
  ⟨_, rfl, by decide +kernel, by decide +kernel⟩

end CreditsNode.BlockHashes
