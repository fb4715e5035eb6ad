import CreditsNode.System.Common
import Mathlib.Logic.Function.Basic

/-!
# The gray list of a solver

Nodes that are punished, with the number of rounds that each of them has left.
-/

namespace CreditsNode

/-- What `SolverCore` keeps of the gray list. -/
structure GrayList where
  grayList : PublicKey → Option UInt16
  lastGrayUpdated : UInt64

namespace GrayList

def new : GrayList := ⟨fun _ => none, 0⟩

def addToGraylist (sender : PublicKey) (rounds : UInt32) (s : GrayList) : GrayList :=
  { s with grayList := Function.update s.grayList sender (some
      ((s.grayList sender).elim rounds.toUInt16 fun left => left + (rounds * 2).toUInt16)) }

def updateGrayList (round : UInt64) (s : GrayList) : GrayList :=
  if s.lastGrayUpdated ≥ round then s
  else
    let delta := (round - s.lastGrayUpdated).toUInt16
    { grayList := fun key => (s.grayList key).bind fun left =>
        if left ≤ delta then none else some (left - delta)
      lastGrayUpdated := round }

/-- A call. -/
inductive Op where
  | add (sender : PublicKey) (rounds : UInt32)
  | update (round : UInt64)

def step (s : GrayList) : Op → GrayList
  | .add sender rounds => s.addToGraylist sender rounds
  | .update round => s.updateGrayList round

end GrayList

end CreditsNode
