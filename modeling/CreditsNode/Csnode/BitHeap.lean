import Mathlib.Tactic.Ring
import Mathlib.Tactic.Linarith

/-!
# `BitHeap` and `TransactionsTail`

The replay protection of a wallet: a `BitHeap` keeps the greatest inner id seen and a bitset of the
ids below it; a `TransactionsTail` is a heap of 1024 bits over `int64_t` ids. Differences of ids and
the lower end of the window wrap modulo `2 ^ 64`, as `size_t` does.
-/

namespace CreditsNode

/-- `BitHeap<int64_t, BitSize>`. -/
structure BitHeap (BitSize : Nat) where
  /-- The greatest value, once there is one. -/
  greatest : Int64
  /-- Whether a value has been pushed. -/
  isValueSet : Bool
  /-- Bit `k` stands for the value `greatest - k - 1`. -/
  bits : BitVec BitSize
deriving DecidableEq, Repr

namespace BitHeap

variable {BitSize : Nat}

def new : BitHeap BitSize := ⟨Int64.maxValue, false, BitVec.ofNat BitSize 0⟩

/-- A difference of two ids as the `size_t` that indexes the bitset. -/
def index (d : Int64) : Nat := d.toUInt64.toNat

def setBit (bits : BitVec BitSize) (ind : Nat) : BitVec BitSize :=
  if ind < BitSize then bits ||| BitVec.twoPow BitSize ind else bits

def push (h : BitHeap BitSize) (val : Int64) : BitHeap BitSize :=
  if !h.isValueSet then
    { h with greatest := val, isValueSet := true }
  else if val > h.greatest then
    let shift := val - h.greatest
    { h with
      bits := setBit (h.bits <<< index shift) (index (shift - 1))
      greatest := val }
  else if val < h.greatest then
    { h with bits := setBit h.bits (index (h.greatest - val - 1)) }
  else h

def empty (h : BitHeap BitSize) : Bool := !h.isValueSet

def minMaxRange (h : BitHeap BitSize) : Int64 × Int64 :=
  (h.greatest - Int64.ofNat BitSize, h.greatest)

def contains (h : BitHeap BitSize) (val : Int64) : Bool :=
  if val > h.greatest then false
  else if val = h.greatest then true
  else
    let ind := index (h.greatest - val - 1)
    if ind < BitSize then h.bits.getLsbD ind else false

end BitHeap

/-- The ids a wallet has used, as a window of `TransactionsTail::BitSize` bits. -/
structure TransactionsTail where
  heap : BitHeap 1024
deriving DecidableEq, Repr

namespace TransactionsTail

/-- `TransactionsTail::BitSize`. -/
def BitSize : Nat := 1024

def new : TransactionsTail := ⟨BitHeap.new⟩

def push (t : TransactionsTail) (trxId : Int64) : TransactionsTail := ⟨t.heap.push trxId⟩

def isAllowed (t : TransactionsTail) (trxId : Int64) : Bool :=
  if t.heap.empty then true
  else
    let range := t.heap.minMaxRange
    if trxId > range.2 then true
    else if trxId < range.1 then false
    else !t.heap.contains trxId

def isDuplicated (t : TransactionsTail) (trxId : Int64) : Bool :=
  if !t.heap.empty then t.heap.contains trxId else false

def pushAll (ids : List Int64) : TransactionsTail := ids.foldl push new

end TransactionsTail

end CreditsNode
