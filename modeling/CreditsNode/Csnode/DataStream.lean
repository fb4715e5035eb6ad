import CreditsNode.Lib.ByteCodec
import CreditsNode.Lib.Effect

/-!
# Reading from a buffer

The reading half of `cs::DataStream`: an index into a buffer, and a state that turns bad once
something could not be read. Every read asks `isAvailable` whether so many bytes are left, with a
sum of `std::size_t`, and sizes come from the buffer.

The buffer is a parameter. A read of a byte outside of it is undefined behaviour.
-/

namespace CreditsNode

open ByteCodec Effect

/-- `PTRDIFF_MAX`, the largest size of an object and of a `std::vector` of bytes. -/
def ptrdiffMax : Nat := 2 ^ 63 - 1

/-- What `data_` and `dataSize_` stand for. -/
structure Buffer where
  data : Bytes
  small : data.length ≤ ptrdiffMax

/-- The size of a C++ object. -/
structure ObjectSize where
  value : UInt64
  small : value.toNat ≤ ptrdiffMax

namespace Buffer

def dataSize (buffer : Buffer) : UInt64 := .ofNat buffer.data.length

def range (buffer : Buffer) (offset size : UInt64) : Except Fault Bytes :=
  if offset.toNat + size.toNat ≤ buffer.data.length then
    .ok ((buffer.data.drop offset.toNat).take size.toNat)
  else .error .undefined

end Buffer

/-- `cs::BytesView`: bytes of the buffer that have not been copied. -/
structure BytesView where
  offset : Nat := 0
  size : UInt64 := 0
deriving DecidableEq, Repr

/-- What moves in a `cs::DataStream` that reads. -/
structure DataStream where
  index : UInt64 := 0
  state : Bool := true
deriving DecidableEq, Repr

namespace DataStream

abbrev Parse := EStateM Fault DataStream

variable (buffer : Buffer)

def isValid (s : DataStream) : Bool :=
  if buffer.dataSize < s.index then false else s.state

def isAvailable (size : UInt64) (s : DataStream) : Bool := s.index + size ≤ buffer.dataSize

def badState : Parse Unit := modify fun s => { s with state := false }

def advance (size : UInt64) : Parse Unit := modify fun s => { s with index := s.index + size }

/-! ## Things of a fixed size -/

/-- The common body of the reads of a fixed size. What cannot be read is zero. -/
def parseFixed (size : ObjectSize) : Parse Bytes := do
  let s ← get
  if !isAvailable buffer size.value s then
    badState
    return List.replicate size.value.toNat 0
  else
    let field ← buffer.range s.index size.value
    advance size.value
    return field

def parseValue (size : ObjectSize) : Parse Bytes := parseFixed buffer size

def parseArray (size : ObjectSize) : Parse Bytes := parseFixed buffer size

def parseFixedString (size : ObjectSize) : Parse Bytes := parseFixed buffer size

def skip (size : UInt64) : Parse Unit := do
  let s ← get
  if !isAvailable buffer size s then badState else advance size

/-! ## Things with their size before them -/

def sizeofSize : ObjectSize := ⟨8, by decide⟩

def parseSize : Parse UInt64 := do
  let field ← parseValue buffer sizeofSize
  return .ofNat (leNat field)

def parseContainer (maxSize : Nat) (what : String) : Parse Bytes := do
  let s ← get
  if !isAvailable buffer sizeofSize.value s then
    badState
    return []
  else
    let size ← parseSize buffer
    let s ← get
    if isAvailable buffer size s then
      if maxSize < size.toNat then throw (.exception what)
      else
        let result ← buffer.range s.index size
        advance size
        return result
    else
      badState
      return []

def parseVector : Parse Bytes :=
  parseContainer buffer ptrdiffMax "cannot create std::vector larger than max_size()"

def parseString : Parse Bytes := parseContainer buffer (ptrdiffMax - 1) "basic_string::_M_create"

def parseBytesView : Parse BytesView := do
  let size ← parseSize buffer
  let s ← get
  if isAvailable buffer size s then
    advance size
    return { size }
  else
    badState
    return {}

/-! ## Vectors -/

/-- The beginning of `operator>>` for a vector of entities of `sizeof` bytes: the number of entities
to read, if any are read. -/
def parseCount (sizeof : Nat) : Parse (Option Nat) := do
  let size ← parseSize buffer
  if size = 0 then return none
  else
    let s ← get
    if !isAvailable buffer size s then return none
    else if ptrdiffMax / sizeof < size.toNat then throw (.exception "vector::reserve")
    else return some size.toNat

/-- The loop of `operator>>` for a vector. -/
def parseMany {α : Type} (parseEntity : Parse α) : Nat → Parse (List α)
  | 0 => return []
  | n + 1 => do
    let entity ← parseEntity
    let rest ← parseMany parseEntity n
    return entity :: rest

/-- `operator>>` for a vector; `none` if it is left alone. -/
def parseEntities {α : Type} (sizeof : Nat) (parseEntity : Parse α) : Parse (Option (List α)) := do
  match ← parseCount buffer sizeof with
  | none => return none
  | some n =>
    let entities ← parseMany parseEntity n
    return some entities

/-! ## Sequences of reads -/

/-- What can be read from a stream. -/
inductive Read where
  | value (size : ObjectSize)
  | array (size : ObjectSize)
  | fixedString (size : ObjectSize)
  | skip (size : UInt64)
  | bytes
  | string
  | bytesView
  | pair (first second : Read)
  | vector (sizeof : Nat) (entity : Read)

namespace Read

/-- What a read returns. -/
def Result : Read → Type
  | value _ | array _ | fixedString _ | bytes | string => Bytes
  | skip _ => Unit
  | bytesView => BytesView
  | pair first second => first.Result × second.Result
  | vector _ entity => Option (List entity.Result)

/-- `operator>>`. -/
def parse : (read : Read) → Parse read.Result
  | value size => parseValue buffer size
  | array size => parseArray buffer size
  | fixedString size => parseFixedString buffer size
  | skip size => DataStream.skip buffer size
  | bytes => parseVector buffer
  | string => parseString buffer
  | bytesView => parseBytesView buffer
  | pair first second => do
    let a ← first.parse
    let b ← second.parse
    return (a, b)
  | vector sizeof entity => parseEntities buffer sizeof entity.parse

def after (read : Read) (s : DataStream) : DataStream :=
  match read.parse buffer s with
  | .ok _ t => t
  | .error _ t => t

end Read

end DataStream

end CreditsNode
