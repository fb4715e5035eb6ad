import CreditsNode.Csnode.BlockChain
import CreditsNode.Lib.Gaps

/-!
# The blocks that are asked for

The intervals of `getRequiredBlocks` are the gaps between the cached blocks, from the next block on
to the current round. The two ends are not treated alike: the next block is asked for even if it is
cached, and the interval behind the last cached block begins with this block itself.
-/

namespace CreditsNode.BlockChain

open Gaps List OrdMap

variable {s : BlockChain} {currentRoundNumber : UInt64}

/-- A plan for the synchronisation: intervals in ascending order that do not meet, with sequences
behind the last block that are not cached, and with all of them before the current round. -/
structure IsPlan (s : BlockChain) (currentRoundNumber : UInt64) (plan : List SequenceInterval) :
    Prop where
  ascending : Ascending plan
  required : ∀ x, Covers plan x → s.lastSequence < x ∧ s.cachedBlocks.find x = none
  complete : ∀ x, s.lastSequence < x → x < currentRoundNumber → s.cachedBlocks.find x = none →
    Covers plan x

def Aligned (s : BlockChain) (currentRoundNumber : UInt64) : Prop :=
  currentRoundNumber ≤ s.lastSequence + 1 ∨
    (s.lastSequence < s.lastSequence + 1 ∧ s.cachedBlocks.find (s.lastSequence + 1) = none ∧
      ∀ last ∈ s.cachedBlocks.entries.getLast?, currentRoundNumber - 1 ≤ last.1)

variable {x : Sequence} {plan : List SequenceInterval}

theorem toNat_succ {y : Sequence} (h : x < y) : (x + 1).toNat = x.toNat + 1 := by
  have hlt := UInt64.lt_iff_toNat_lt.mp h
  have := y.toNat_lt
  rw [UInt64.toNat_add, UInt64.toNat_one]
  omega

theorem toNat_pred {y : Sequence} (h : x < y) : (y - 1).toNat = y.toNat - 1 := by
  grind [UInt64.toNat_sub_of_le, UInt64.toNat_one]

def numbers (plan : List SequenceInterval) : List (ℕ × ℕ) :=
  plan.map fun i => (i.1.toNat, i.2.toNat)

def keys (cached : List (Sequence × BlockMeta)) : List ℕ := cached.map fun e => e.1.toNat

theorem ascending_numbers : Ascending (numbers plan) ↔ Ascending plan :=
  ascending_map (fun _ _ => UInt64.le_iff_toNat_le.symm) fun _ _ => UInt64.lt_iff_toNat_lt.symm

theorem covers_numbers (x : Sequence) : Covers (numbers plan) x.toNat ↔ Covers plan x :=
  covers_map (fun _ _ => UInt64.le_iff_toNat_le.symm) x

theorem mem_keys {cached : List (Sequence × BlockMeta)} :
    x.toNat ∈ keys cached ↔ ∃ block, (x, block) ∈ cached := by
  unfold keys
  rw [mem_map]
  constructor
  · rintro ⟨⟨y, block⟩, hmem, heq⟩
    exact ⟨block, UInt64.toNat_inj.mp heq ▸ hmem⟩
  · rintro ⟨block, hmem⟩
    exact ⟨(x, block), hmem, rfl⟩

theorem from_keys {sequence : Sequence} {cached : List (Sequence × BlockMeta)}
    (hsorted : cached.Pairwise fun a b => a.1 < b.1) (hlt : ∀ e ∈ cached, sequence < e.1) :
    From (sequence.toNat + 1) (keys cached) := by
  constructor
  · exact pairwise_map.mpr (hsorted.imp fun hab => UInt64.lt_iff_toNat_lt.mp hab)
  · intro k hk
    obtain ⟨e, he, rfl⟩ := mem_map.mp hk
    exact UInt64.lt_iff_toNat_lt.mp (hlt e he)

theorem sorted_upperBound (sequence : Sequence) :
    (s.cachedBlocks.upperBound sequence).Pairwise fun a b => a.1 < b.1 :=
  s.cachedBlocks.sorted.sublist (dropWhile_sublist _)

theorem numbers_intervalsBetween (sequence : Sequence) (rest : List (Sequence × BlockMeta))
    (h : From (sequence.toNat + 1) (keys rest)) :
    numbers (intervalsBetween sequence rest) = gaps (sequence.toNat + 1) (keys rest) := by
  induction rest generalizing sequence with
  | nil => rfl
  | cons e rest ih =>
    obtain ⟨cached, block⟩ := e
    have hle : sequence.toNat + 1 ≤ cached.toNat := h.le _ mem_cons_self
    have hlt : sequence < cached := UInt64.lt_iff_toNat_lt.mpr hle
    have hsucc := toNat_succ hlt
    have htail := ih cached h.tail
    show numbers (if cached ≠ sequence + 1 then _ else _) =
      (if sequence.toNat + 1 < cached.toNat then _ else _)
    by_cases hnext : cached = sequence + 1
    · rw [if_neg (not_not.mpr hnext), if_neg (by rw [hnext, hsucc]; exact lt_irrefl _), ← hnext]
      exact htail
    · have hne : sequence.toNat + 1 ≠ cached.toNat := fun heq =>
        hnext (UInt64.toNat_inj.mp (hsucc.trans heq)).symm
      rw [if_pos hnext, if_pos (lt_of_le_of_ne hle hne)]
      show ((sequence + 1).toNat, (cached - 1).toNat) :: numbers (intervalsBetween cached rest) =
        (sequence.toNat + 1, cached.toNat - 1) :: gaps (cached.toNat + 1) (keys rest)
      rw [hsucc, toNat_pred hlt, htail]

def innerIntervals (s : BlockChain) (roundNumber : UInt64) : List SequenceInterval :=
  match s.cachedBlocks.upperBound (s.lastSequence + 1) with
  | [] => [(s.lastSequence + 1, roundNumber)]
  | (sequence, _) :: rest => (s.lastSequence + 1, sequence - 1) :: intervalsBetween sequence rest

theorem getRequiredBlocks_eq (h : s.lastSequence + 1 < currentRoundNumber) :
    s.getRequiredBlocks currentRoundNumber =
      match s.cachedBlocks.entries.getLast? with
      | some (lastCachedBlock, _) =>
        if currentRoundNumber - 1 > lastCachedBlock then
          s.innerIntervals (currentRoundNumber - 1) ++ [(lastCachedBlock, currentRoundNumber - 1)]
        else s.innerIntervals (currentRoundNumber - 1)
      | none => s.innerIntervals (currentRoundNumber - 1) := by
  have hlt := UInt64.lt_iff_toNat_lt.mp h
  have hpred := toNat_pred h
  have hround : (if currentRoundNumber > 0 then max (s.lastSequence + 1) (currentRoundNumber - 1)
      else 0) = currentRoundNumber - 1 := by
    have hpos : currentRoundNumber > 0 := UInt64.lt_iff_toNat_lt.mpr (by
      rw [UInt64.toNat_zero]
      omega)
    have hle : s.lastSequence + 1 ≤ currentRoundNumber - 1 := UInt64.le_iff_toNat_le.mpr (by omega)
    rw [if_pos hpos]
    exact max_eq_right hle
  unfold getRequiredBlocks innerIntervals
  dsimp only
  refine (if_neg (UInt64.not_le.mpr h)).trans ?_
  generalize (if currentRoundNumber > 0 then max (s.lastSequence + 1) (currentRoundNumber - 1)
    else 0) = roundNumber at hround ⊢
  subst hround
  rfl

theorem numbers_innerIntervals {roundNumber : UInt64}
    (h : s.cachedBlocks.upperBound (s.lastSequence + 1) ≠ []) :
    numbers (s.innerIntervals roundNumber) = gaps (s.lastSequence + 1).toNat
      (keys (s.cachedBlocks.upperBound (s.lastSequence + 1))) := by
  unfold innerIntervals
  have hsorted := sorted_upperBound (s := s) (s.lastSequence + 1)
  have hmem : ∀ e ∈ s.cachedBlocks.upperBound (s.lastSequence + 1), s.lastSequence + 1 < e.1 :=
    fun e he => (mem_upperBound.mp he).2
  cases hupper : s.cachedBlocks.upperBound (s.lastSequence + 1) with
  | nil => exact absurd hupper h
  | cons e rest =>
    obtain ⟨sequence, block⟩ := e
    rw [hupper] at hsorted hmem
    have hlt : s.lastSequence + 1 < sequence := hmem _ mem_cons_self
    obtain ⟨hhead, htail⟩ := pairwise_cons.mp hsorted
    show ((s.lastSequence + 1).toNat, (sequence - 1).toNat) ::
        numbers (intervalsBetween sequence rest) =
      if (s.lastSequence + 1).toNat < sequence.toNat then _ else _
    rw [if_pos (UInt64.lt_iff_toNat_lt.mp hlt), toNat_pred hlt,
      numbers_intervalsBetween _ _ (from_keys htail hhead)]
    rfl

section

variable (h : s.lastSequence + 1 < currentRoundNumber)
include h

theorem innerIntervals_sublist :
    (s.innerIntervals (currentRoundNumber - 1)).Sublist
      (s.getRequiredBlocks currentRoundNumber) := by
  rw [getRequiredBlocks_eq h]
  cases s.cachedBlocks.entries.getLast? with
  | none => exact List.Sublist.refl _
  | some last =>
    dsimp only
    split_ifs
    · exact sublist_append_left _ _
    · exact List.Sublist.refl _

theorem covers_next : Covers (s.getRequiredBlocks currentRoundNumber) (s.lastSequence + 1) := by
  have hinner : Covers (s.innerIntervals (currentRoundNumber - 1)) (s.lastSequence + 1) := by
    unfold innerIntervals
    cases hupper : s.cachedBlocks.upperBound (s.lastSequence + 1) with
    | nil =>
      refine ⟨_, mem_cons_self, UInt64.le_refl _, UInt64.le_iff_toNat_le.mpr ?_⟩
      have := UInt64.lt_iff_toNat_lt.mp h
      rw [toNat_pred h]
      omega
    | cons e rest =>
      obtain ⟨sequence, block⟩ := e
      have hmem : (sequence, block) ∈ s.cachedBlocks.upperBound (s.lastSequence + 1) := by
        rw [hupper]
        exact mem_cons_self
      have hlt : s.lastSequence + 1 < sequence := (mem_upperBound.mp hmem).2
      refine ⟨_, mem_cons_self, UInt64.le_refl _, UInt64.le_iff_toNat_le.mpr ?_⟩
      have := UInt64.lt_iff_toNat_lt.mp hlt
      rw [toNat_pred hlt]
      omega
  obtain ⟨i, hi, hbounds⟩ := hinner
  exact ⟨i, (innerIntervals_sublist h).subset hi, hbounds⟩

theorem covers_lastCached {last : Sequence × BlockMeta}
    (hlast : s.cachedBlocks.entries.getLast? = some last) (hlt : last.1 < currentRoundNumber - 1) :
    Covers (s.getRequiredBlocks currentRoundNumber) last.1 := by
  rw [getRequiredBlocks_eq h, hlast]
  dsimp only
  rw [if_pos hlt]
  exact ⟨_, mem_append_right _ mem_cons_self, UInt64.le_refl _, UInt64.le_of_lt hlt⟩

end

theorem isPlan_nil (h : currentRoundNumber ≤ s.lastSequence + 1) :
    s.IsPlan currentRoundNumber (s.getRequiredBlocks currentRoundNumber) := by
  have hnil : s.getRequiredBlocks currentRoundNumber = [] := if_pos h
  rw [hnil]
  refine ⟨ascending_nil, fun x hx => ?_, fun x hlast hround _ => ?_⟩
  · obtain ⟨i, hi, -⟩ := hx
    cases hi
  · grind

theorem isPlan_single (hnext : s.lastSequence < s.lastSequence + 1)
    (h : s.lastSequence + 1 < currentRoundNumber) (hempty : s.cachedBlocks.entries = []) :
    s.IsPlan currentRoundNumber [(s.lastSequence + 1, currentRoundNumber - 1)] := by
  have hlt := UInt64.lt_iff_toNat_lt.mp h
  have hpred := toNat_pred h
  have hsucc := toNat_succ hnext
  have hfree : ∀ x, s.cachedBlocks.find x = none := fun x =>
    find_eq_none_iff.mpr fun block => hempty ▸ not_mem_nil
  refine ⟨?_, fun x hx => ⟨?_, hfree x⟩, fun x hlast hround _ => ?_⟩
  · have hle : s.lastSequence + 1 ≤ currentRoundNumber - 1 := UInt64.le_iff_toNat_le.mpr (by omega)
    exact ascending_nil.cons hle nofun
  · obtain ⟨i, hi, hle, -⟩ := hx
    rw [mem_singleton.mp hi] at hle
    exact UInt64.lt_of_lt_of_le hnext hle
  · have hlast' := UInt64.lt_iff_toNat_lt.mp hlast
    have hround' := UInt64.lt_iff_toNat_lt.mp hround
    refine ⟨_, mem_cons_self, UInt64.le_iff_toNat_le.mpr ?_, UInt64.le_iff_toNat_le.mpr ?_⟩
    · rw [hsucc]
      omega
    · rw [hpred]
      omega

theorem isPlan_gaps (hnext : s.lastSequence < s.lastSequence + 1)
    (hfree : s.cachedBlocks.find (s.lastSequence + 1) = none)
    {last : Sequence × BlockMeta} (hlast : last ∈ s.cachedBlocks.entries)
    (hround : currentRoundNumber - 1 ≤ last.1) (h : s.lastSequence + 1 < currentRoundNumber)
    (hplan : numbers plan = gaps (s.lastSequence + 1).toNat
      (keys (s.cachedBlocks.upperBound (s.lastSequence + 1)))) :
    s.IsPlan currentRoundNumber plan := by
  set upper := s.cachedBlocks.upperBound (s.lastSequence + 1) with hupper
  have hfrom : From (s.lastSequence + 1).toNat (keys upper) :=
    (from_keys (sorted_upperBound _) fun e he => (mem_upperBound.mp he).2).mono
      (Nat.le_succ _)
  have hcovers : ∀ x : Sequence, Covers plan x ↔ (s.lastSequence + 1).toNat ≤ x.toNat ∧
      x.toNat ∉ keys upper ∧ ∃ k ∈ keys upper, x.toNat < k := by
    intro x
    rw [← covers_numbers, hplan]
    exact covers_gaps hfrom
  -- from the next block on, what is cached is among the blocks gone through
  have hcached : ∀ x : Sequence, (s.lastSequence + 1).toNat ≤ x.toNat →
      (s.cachedBlocks.find x = none ↔ x.toNat ∉ keys upper) := by
    intro x hx
    rw [find_eq_none_iff, mem_keys, not_exists]
    refine forall_congr' fun block => not_congr ?_
    rw [hupper, mem_upperBound]
    refine (and_iff_left_of_imp fun hmem => UInt64.lt_iff_toNat_lt.mpr ?_).symm
    refine lt_of_le_of_ne hx fun heq => ?_
    have hnextx : s.lastSequence + 1 = x := UInt64.toNat_inj.mp heq
    exact find_eq_none_iff.mp hfree block (hnextx ▸ hmem)
  have hsucc := toNat_succ hnext
  refine ⟨?_, fun x hx => ?_, fun x hx hlt hnone => ?_⟩
  · rw [← ascending_numbers, hplan]
    exact ascending_gaps hfrom
  · grind [UInt64.lt_iff_toNat_lt]
  · have hle : (s.lastSequence + 1).toNat ≤ x.toNat := by
      have := UInt64.lt_iff_toNat_lt.mp hx
      omega
    have hlastle : x.toNat ≤ last.1.toNat := by
      grind [toNat_pred, UInt64.le_iff_toNat_le, UInt64.lt_iff_toNat_lt]
    have hne : x.toNat ≠ last.1.toNat := by
      intro heq
      rw [UInt64.toNat_inj.mp heq] at hnone
      exact find_eq_none_iff.mp hnone last.2 hlast
    have hxlast : x.toNat < last.1.toNat := lt_of_le_of_ne hlastle hne
    refine (hcovers x).mpr ⟨hle, (hcached x hle).mp hnone, last.1.toNat, ?_, hxlast⟩
    refine mem_map_of_mem (mem_upperBound.mpr ⟨hlast, ?_⟩)
    exact UInt64.lt_iff_toNat_lt.mpr (lt_of_le_of_lt hle hxlast)

theorem isPlan_of_aligned (h : s.Aligned currentRoundNumber) :
    s.IsPlan currentRoundNumber (s.getRequiredBlocks currentRoundNumber) := by
  rcases UInt64.le_or_lt currentRoundNumber (s.lastSequence + 1) with hreached | hlt
  · exact isPlan_nil hreached
  obtain ⟨hnext, hfree, hends⟩ := h.resolve_left (UInt64.not_le.mpr hlt)
  rw [getRequiredBlocks_eq hlt]
  cases hlast : s.cachedBlocks.entries.getLast? with
  | none =>
    have hempty : s.cachedBlocks.entries = [] := List.getLast?_eq_none_iff.mp hlast
    have hupper : s.cachedBlocks.upperBound (s.lastSequence + 1) = [] := by
      unfold upperBound
      rw [hempty]
      rfl
    unfold innerIntervals
    rw [hupper]
    exact isPlan_single hnext hlt hempty
  | some last =>
    have hround := hends last hlast
    have hmem := mem_of_getLast? hlast
    dsimp only
    rw [if_neg (UInt64.not_lt.mpr hround)]
    refine isPlan_gaps hnext hfree hmem hround hlt (numbers_innerIntervals fun hupper => ?_)
    -- the last cached block is not the next one
    have hlastmem : last ∈ s.cachedBlocks.upperBound (s.lastSequence + 1) := by
      refine mem_upperBound.mpr ⟨hmem, UInt64.lt_iff_toNat_lt.mpr ?_⟩
      have hne : (s.lastSequence + 1).toNat ≠ last.1.toNat := by
        intro heq
        rw [UInt64.toNat_inj.mp heq] at hfree
        exact find_eq_none_iff.mp hfree last.2 hmem
      have := UInt64.le_iff_toNat_le.mp hround
      have := UInt64.lt_iff_toNat_lt.mp hlt
      have := toNat_pred hlt
      omega
    rw [hupper] at hlastmem
    cases hlastmem

/-- The intervals are a plan exactly if the chain is aligned with its cache and the round. -/
theorem getRequiredBlocks_isPlan_iff (s : BlockChain) (currentRoundNumber : UInt64) :
    s.IsPlan currentRoundNumber (s.getRequiredBlocks currentRoundNumber) ↔
      s.Aligned currentRoundNumber := by
  refine ⟨fun hplan => ?_, isPlan_of_aligned⟩
  rcases UInt64.le_or_lt currentRoundNumber (s.lastSequence + 1) with hreached | hlt
  · exact .inl hreached
  · obtain ⟨hnext, hfree⟩ := hplan.required _ (covers_next hlt)
    refine .inr ⟨hnext, hfree, fun last hlast => ?_⟩
    by_contra hround
    obtain ⟨-, hnone⟩ := hplan.required _ (covers_lastCached hlt hlast (UInt64.not_le.mp hround))
    exact find_eq_none_iff.mp hnone last.2 (mem_of_getLast? hlast)

/-- A chain that ends with block 0, with the given blocks in its cache. -/
def cachingChain (cached : List Sequence) : BlockChain where
  storage := ⟨⟨∅, ∅⟩, none, 0, [], []⟩
  deferredBlock := .new
  lastSequence := 0
  blocksToBeRemoved := 0
  cachedBlocks := .ofEntries (cached.map fun sequence => (sequence, ⟨.new, true⟩))
  blockHashes := .new
  walletIds := .new
  wallets := .new
  totalTransactionsCount := 0
  lastNonEmptyBlock := .new
  previousNonEmpty := ∅

/-- In round 6 a chain with block 3 in its cache asks for it again, and one with block 1 asks twice
for all that is missing, block 1 included. -/
theorem cached_block_required :
    (cachingChain [3]).getRequiredBlocks 6 = [(1, 2), (3, 5)] ∧
    ¬ (cachingChain [3]).IsPlan 6 [(1, 2), (3, 5)] ∧
    (cachingChain [1]).getRequiredBlocks 6 = [(1, 5), (1, 5)] ∧
    ¬ (cachingChain [1]).IsPlan 6 [(1, 5), (1, 5)] := by
  refine ⟨by decide, fun h => ?_, by decide, fun h => ?_⟩
  · obtain ⟨-, hfree⟩ := h.required 3 ⟨(3, 5), by decide, by decide, by decide⟩
    exact absurd (congrArg Option.isSome hfree) (by decide)
  · exact absurd h.ascending.disjoint (by decide)

end CreditsNode.BlockChain
