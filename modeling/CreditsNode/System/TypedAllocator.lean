import CreditsNode.Lib.Effect

/-!
# Slots of one type

`TypedAllocator` gives out slots from pages of `PageSize` slots each. The free slots stand in an
array that is used as a stack; when it is empty, a page and an array for all slots so far are
allocated. `PageSize` is a parameter, a pointer into the array is a number, and the operations come
one after another.
-/

namespace CreditsNode

open Effect List

/-- A slot: its page and its place in it. -/
structure TypedSlot where
  page : UInt32
  place : Nat
deriving DecidableEq

/-- `freeChunks_`. An entry that has not been written is `none`. -/
abbrev FreeChunks := List (Option TypedSlot)

/-- `TypedAllocator`: the pages and the stack of the chunks that are free. -/
structure TypedAllocator where
  pages : UInt32
  freeChunks : FreeChunks
  freeChunksLast : Option Nat

namespace TypedAllocator

/-- `*place = slot`. -/
def write (chunks : FreeChunks) (place : Nat) (slot : TypedSlot) : Except Fault FreeChunks :=
  if place < chunks.length then .ok (chunks.set place slot) else .error .undefined

variable (pageSize : UInt32) (a : TypedAllocator)

/-- The loop of `allocateNextPage`, from `chunkPtr` down to the first entry. -/
def enterPage (page : UInt32) : Nat → FreeChunks → Except Fault FreeChunks
  | 0, chunks => .ok chunks
  | chunkPtr + 1, chunks => do
    enterPage page chunkPtr (← write chunks chunkPtr ⟨page, pageSize.toNat - (chunkPtr + 1)⟩)

/-- The slots of a page are new memory. A pointer to the entry before the first one is undefined. -/
def allocateNextPage : Except Fault TypedAllocator := do
  let pages := a.pages + 1
  let freeChunks ← enterPage pageSize pages pageSize.toNat
    (replicate (pageSize.toNat * pages.toNat) none)
  if pageSize = 0 then .error .undefined
  else return ⟨pages, freeChunks, some (pageSize.toNat - 1)⟩

def new : Except Fault TypedAllocator := allocateNextPage pageSize ⟨0, [], none⟩

/-- The end of `emplace`: `compare_exchange_strong` and `*place`. -/
def takeLast (place : Nat) : Except Fault (TypedSlot × TypedAllocator) :=
  match a.freeChunks[place]? with
  | some (some slot) =>
    .ok (slot, { a with freeChunksLast := if place = 0 then none else some (place - 1) })
  | _ => .error .undefined

def emplace : Except Fault (TypedSlot × TypedAllocator) :=
  match a.freeChunksLast with
  | some place => a.takeLast place
  | none => do (← a.allocateNextPage pageSize).takeLast (pageSize.toNat - 1)

/-- The place behind the last free entry, which is the number of free entries. -/
def nextPlace : Nat := a.freeChunksLast.elim 0 (· + 1)

def remove (toFree : TypedSlot) : Except Fault TypedAllocator := do
  let freeChunks ← write a.freeChunks a.nextPlace toFree
  return { a with freeChunks, freeChunksLast := some a.nextPlace }

/-- The states that an allocator comes to, with the slots in use, while the number of pages does not
wrap around. -/
inductive Reached : TypedAllocator → List TypedSlot → Prop
  | new {s} : new pageSize = .ok s → Reached s []
  | emplace {s t used slot} : Reached s used →
      (s.freeChunksLast = none → s.pages ≠ 0xFFFFFFFF) →
      s.emplace pageSize = .ok (slot, t) → Reached t (slot :: used)
  | remove {s t used slot} : Reached s used → slot ∈ used → s.remove slot = .ok t →
      Reached t (used.erase slot)

end TypedAllocator

end CreditsNode
