import CreditsNode.Solver.GrayList
import CreditsNode.Csdb.Proofs.SampleData
import Mathlib.Tactic.Linarith

/-!
# How long a node stays in the gray list

What is left of a penalty is a 16-bit number, and so is the number of rounds between two updates. As
long as neither is cut off, a penalty ends at a round that does not depend on the updates in
between.
-/

namespace CreditsNode.GrayList

/-- The round in which the penalty of each node ends, and the round of the last update. -/
@[ext] structure Penalties where
  ends : PublicKey → Option Nat
  last : Nat

/-- A penalty starts with the last update and is prolonged by twice the rounds of a later one; an
update releases those whose penalties have ended. -/
def Penalties.step (p : Penalties) : Op → Penalties
  | .add sender rounds => { p with ends := Function.update p.ends sender (some
      ((p.ends sender).elim (p.last + rounds.toNat) (· + 2 * rounds.toNat))) }
  | .update round =>
    if round.toNat ≤ p.last then p
    else ⟨fun key => (p.ends key).filter fun finish => round.toNat < finish, round.toNat⟩

/-- Nothing is cut off: neither what is left of a penalty nor the rounds since the last update. -/
def Penalties.Fits (p : Penalties) : Op → Prop
  | .add sender rounds => ∀ finish ∈ (p.step (.add sender rounds)).ends sender,
      finish < p.last + 2 ^ 16
  | .update round => round.toNat < p.last + 2 ^ 16

/-- Each call of the run fits. -/
def Penalties.FitsAll : Penalties → List Op → Prop
  | _, [] => True
  | p, op :: ops => p.Fits op ∧ (p.step op).FitsAll ops

/-- The penalties that a gray list stands for. -/
def penalties (s : GrayList) : Penalties where
  ends key := (s.grayList key).map fun left => s.lastGrayUpdated.toNat + left.toNat
  last := s.lastGrayUpdated.toNat

variable {s : GrayList}

theorem penalties_addToGraylist {sender : PublicKey} {rounds : UInt32}
    (h : s.penalties.Fits (.add sender rounds)) :
    (s.addToGraylist sender rounds).penalties = s.penalties.step (.add sender rounds) := by
  refine Penalties.ext (funext fun key => ?_) rfl
  have hfits := h _ (Function.update_self _ _ _)
  simp only [penalties, addToGraylist, Penalties.step] at hfits ⊢
  by_cases hkey : key = sender
  · subst hkey
    rw [Function.update_self, Function.update_self]
    cases hleft : s.grayList key with
    | none =>
      rw [hleft] at hfits
      simp only [Option.map_none, Option.elim_none] at hfits
      have hrounds : rounds.toUInt16.toNat = rounds.toNat := by
        rw [UInt32.toNat_toUInt16]
        exact Nat.mod_eq_of_lt (by omega)
      simp [hrounds]
    | some left =>
      rw [hleft] at hfits
      simp only [Option.map_some, Option.elim_some] at hfits
      have hsum : (left + (rounds * 2).toUInt16).toNat = left.toNat + 2 * rounds.toNat := by
        rw [UInt16.toNat_add, UInt32.toNat_toUInt16, UInt32.toNat_mul]
        simp only [UInt32.reduceToNat]
        omega
      simp only [Option.map_some, Option.elim_some, hsum, Nat.add_assoc]
  · rw [Function.update_of_ne hkey, Function.update_of_ne hkey]

theorem penalties_updateGrayList {round : UInt64} (h : s.penalties.Fits (.update round)) :
    (s.updateGrayList round).penalties = s.penalties.step (.update round) := by
  have hfits : round.toNat < s.lastGrayUpdated.toNat + 2 ^ 16 := h
  have hlast : s.penalties.last = s.lastGrayUpdated.toNat := rfl
  unfold updateGrayList
  simp only [Penalties.step, ge_iff_le, UInt64.le_iff_toNat_le, hlast]
  by_cases hle : round.toNat ≤ s.lastGrayUpdated.toNat
  · rw [if_pos hle, if_pos hle]
  have hdelta : (round - s.lastGrayUpdated).toUInt16.toNat =
      round.toNat - s.lastGrayUpdated.toNat := by
    rw [UInt64.toNat_toUInt16, UInt64.toNat_sub_of_le _ _ (UInt64.le_iff_toNat_le.mpr (by omega))]
    exact Nat.mod_eq_of_lt (by omega)
  rw [if_neg hle, if_neg hle]
  refine Penalties.ext (funext fun key => ?_) rfl
  simp only [penalties]
  cases s.grayList key with
  | none => rfl
  | some left =>
    simp only [Option.bind_some, Option.map_some, UInt16.le_iff_toNat_le, hdelta,
      Option.filter_some]
    split_ifs with hended hlater hlater
    · exact absurd (of_decide_eq_true hlater) (by omega)
    · rfl
    · have hleft : (left - (round - s.lastGrayUpdated).toUInt16).toNat =
          left.toNat - (round.toNat - s.lastGrayUpdated.toNat) := by
        rw [UInt16.toNat_sub_of_le _ _ (UInt16.le_iff_toNat_le.mpr (by omega)), hdelta]
      rw [Option.map_some, hleft]
      exact congrArg some (by omega)
    · exact absurd (decide_eq_true (by omega)) hlater

theorem penalties_foldl (ops : List Op) (h : s.penalties.FitsAll ops) :
    (ops.foldl step s).penalties = ops.foldl Penalties.step s.penalties := by
  induction ops generalizing s with
  | nil => rfl
  | cons op ops ih =>
    have hop : (s.step op).penalties = s.penalties.step op := by
      cases op with
      | add sender rounds => exact penalties_addToGraylist h.1
      | update round => exact penalties_updateGrayList h.1
    rw [List.foldl_cons, List.foldl_cons, ← hop]
    exact ih (hop ▸ h.2)

/-- As long as nothing is cut off, a node is released by the first update whose round is at least
the one in which it was listed plus its penalties, however the rounds are divided. -/
theorem released_iff (s : GrayList) (ops : List Op) (h : s.penalties.FitsAll ops)
    (key : PublicKey) :
    (ops.foldl step s).grayList key = none ↔
      (ops.foldl Penalties.step s.penalties).ends key = none := by
  rw [← penalties_foldl ops h]
  exact Option.map_eq_none_iff.symm

/-- A penalty of three rounds is prolonged by two after the second one. -/
def demoOps : List Op := [.add (sampleKey 1) 3, .update 2, .add (sampleKey 1) 1, .update 5]

theorem released_iff_prolonged : (demoOps.foldl step new).grayList (sampleKey 1) = none := by
  refine (released_iff new demoOps ⟨?_, ?_, ?_, ?_, trivial⟩ (sampleKey 1)).mpr rfl
  · rintro _ ⟨⟩
    decide
  · exact (by decide : 2 < 0 + 2 ^ 16)
  · rintro _ ⟨⟩
    decide
  · exact (by decide : 5 < 2 + 2 ^ 16)

/-- A node is listed for a hundred rounds, and is not released 65586 rounds later. -/
theorem not_released :
    ([.add (sampleKey 1) 100, .update 65586].foldl step new).grayList (sampleKey 1) = some 50 ∧
      ([.add (sampleKey 1) 100, .update 65586].foldl Penalties.step new.penalties).ends
        (sampleKey 1) =
        none :=
  ⟨rfl, rfl⟩

end CreditsNode.GrayList
