import CreditsNode.Csnode.DataStream

/-!
# Reading a message

`cs::IPackStream`: a pointer into the bytes of a message, their end, and whether everything could be
extracted since `init`. A value that cannot be extracted leaves the variable alone, and no operator
asks first whether the stream is good. Beside each operator stands what it is to extract, as a
parser of a list of bytes.
-/

namespace CreditsNode

open ByteCodec Effect

/-- What moves in a `cs::IPackStream`. The pointer is given by its distance from the beginning of
the buffer. -/
structure IPackStream where
  ptr : UInt64 := 0
  good : Bool := true
deriving DecidableEq, Repr

namespace IPackStream

abbrev Extract := EStateM Fault IPackStream

/-! ## Bytes -/

section Bytes

variable (buffer : Buffer)

def remainsBytes (s : IPackStream) : UInt64 := buffer.dataSize - s.ptr

def isBytesAvailable (bytes : UInt64) (s : IPackStream) : Bool := bytes ≤ remainsBytes buffer s

/-- `canPeek`. The number of bytes left is cast to 32 bits. -/
def canPeek (size : ObjectSize) (s : IPackStream) : Bool :=
  size.value ≤ (remainsBytes buffer s).toUInt32.toUInt64

def fail : Extract Unit := modify fun s => { s with good := false }

/-- The bytes at the pointer, which moves behind them. -/
def take (size : UInt64) : Extract Bytes := do
  let s ← get
  let bytes ← buffer.range s.ptr size
  set { s with ptr := s.ptr + size }
  return bytes

/-- `operator>>` for a type of the given size. -/
def extractValue (size : ObjectSize) : Extract (Option Bytes) := do
  if !canPeek buffer size (← get) then
    fail
    return none
  else
    let bytes ← take buffer size.value
    return some bytes

/-- `operator>>` for `FixedString`, `ByteArray` and `RegionPtr`. -/
def extractArray (size : UInt64) : Extract (Option Bytes) := do
  if !isBytesAvailable buffer size (← get) then
    fail
    return none
  else
    let bytes ← take buffer size
    return some bytes

/-- `sizeof(T) * num` bytes are left out. -/
def safeSkip (size : ObjectSize) (num : UInt32) : Extract Unit := do
  let size := size.value * num.toUInt64
  if !isBytesAvailable buffer size (← get) then fail
  else modify fun s => { s with ptr := s.ptr + size }

def extractSize : Extract UInt64 := do
  let size ← extractValue buffer DataStream.sizeofSize
  return size.elim 0 fun bytes => .ofNat (leNat bytes)

/-- `operator>>` for `std::string`, `cs::Bytes` and `cs::BytesView`. -/
def extractBytes : Extract (Option Bytes) := do
  let size ← extractSize buffer
  if !(← get).good then return none
  else extractArray buffer size

/-! ## Addresses and regions -/

def sizeofByte : ObjectSize := ⟨1, by decide⟩

/-- Single bytes one after the other. Where there is none, the variable was not set. -/
def extractEach : Nat → Extract Bytes
  | 0 => return []
  | n + 1 => do
    let byte ← extractValue buffer sizeofByte
    let rest ← extractEach n
    return byte.getD [0] ++ rest

/-- `operator>>` for `ip::address`: whether it is of version 6, and its bytes. -/
def extractAddress : Extract (Option (Bool × Bytes)) := do
  if !canPeek buffer sizeofByte (← get) then
    fail
    return none
  else
    let flags ← take buffer 1
    if flags.getD 0 0 &&& 1 ≠ 0 then
      if (remainsBytes buffer (← get)).toUInt32 < 16 then
        fail
        return none
      else
        let bytes ← extractEach buffer 16
        return some (true, bytes)
    else
      let bytes ← extractEach buffer 4
      return some (false, bytes)

def sizeofSizeType : ObjectSize := ⟨4, by decide⟩

def extractCompressedRegion : Extract (Option (UInt64 × Bytes)) := do
  let binarySize ← extractSize buffer
  let size ← extractValue buffer sizeofSizeType
  let size : UInt64 := size.elim 0 fun bytes => .ofNat (leNat bytes)
  if !isBytesAvailable buffer size (← get) then
    fail
    return none
  else
    let region ← take buffer size
    return some (binarySize, region)

end Bytes

/-! ## Vectors and pairs -/

section Containers

variable {α β : Type}

/-- The loop of `operator>>` for a vector, which ends at the first element that is not good. -/
def extractElements (extract : Extract (Option α)) (default : α) : Nat → Extract (List α)
  | 0 => return []
  | n + 1 => do
    let element ← extract
    if !(← get).good then return []
    else
      let rest ← extractElements extract default n
      return element.getD default :: rest

def extractVector (buffer : Buffer) (sizeof : Nat) (extract : Extract (Option α)) (default : α) :
    Extract (Option (List α)) := do
  let size ← extractSize buffer
  if size = 0 then return none
  else if !isBytesAvailable buffer size (← get) then
    fail
    return none
  else if ptrdiffMax / sizeof < size.toNat then throw (.exception "vector::reserve")
  else
    let elements ← extractElements extract default size.toNat
    if elements.length ≠ size.toNat then return none else return some elements

def extractPair (extractFirst : Extract (Option α)) (extractSecond : Extract (Option β))
    (first : α) (second : β) : Extract (Option (α × β)) := do
  let a ← extractFirst
  if !(← get).good then return none
  else
    let b ← extractSecond
    if !(← get).good then return none
    else return some (a.getD first, b.getD second)

end Containers

/-! ## All operators -/

/-- The types with an `operator>>`. -/
inductive Entity where
  | value (size : ObjectSize)
  | fixedString (length : UInt64)
  | byteArray (length : UInt64)
  | vector (sizeof : Nat) (element : Entity)
  | pair (first second : Entity)
  | string
  | bytes
  | pool
  | address
  | transactionsPacketHash
  | transactionsPacket
  | poolHash
  | bytesView
  | regionPtr (size : UInt32)
  | compressedRegion

namespace Entity

/-- What is extracted. Pools, packets and hashes are given by the bytes that they are made from. -/
def Value : Entity → Type
  | vector _ element => List element.Value
  | pair first second => first.Value × second.Value
  | address => Bool × Bytes
  | compressedRegion => UInt64 × Bytes
  | _ => Bytes

/-- A variable that has just been declared. -/
def default : (entity : Entity) → entity.Value
  | vector _ element => ([] : List element.Value)
  | pair first second => (first.default, second.default)
  | address => (false, [0, 0, 0, 0])
  | compressedRegion => (0, [])
  | value size => List.replicate size.value.toNat (0 : UInt8)
  | fixedString length | byteArray length => List.replicate length.toNat (0 : UInt8)
  | regionPtr size => List.replicate size.toNat (0 : UInt8)
  | string | bytes | pool | transactionsPacketHash | transactionsPacket | poolHash | bytesView =>
    ([] : Bytes)

/-- `operator>>`: what the variable is set to, if it is set. -/
def extract (buffer : Buffer) : (entity : Entity) → Extract (Option entity.Value)
  | value size => extractValue buffer size
  | fixedString length | byteArray length => extractArray buffer length
  | vector sizeof element =>
    extractVector buffer sizeof (element.extract buffer) element.default
  | pair first second =>
    extractPair (first.extract buffer) (second.extract buffer) first.default second.default
  | string | bytes | bytesView => extractBytes buffer
  | address => extractAddress buffer
  | transactionsPacketHash => extractBytes buffer
  -- These are set also if there are no bytes for them.
  | pool | transactionsPacket | poolHash => do
    let bytes ← extractBytes buffer
    return some (bytes.getD [])
  | regionPtr size => extractArray buffer size.toUInt64
  | compressedRegion => extractCompressedRegion buffer

def decodeBytes : Get Bytes := do
  let size ← getLe 8
  getBytes size

def decodeAddress : Get (Bool × Bytes) := do
  let flags ← getBytes 1
  if flags.getD 0 0 &&& 1 ≠ 0 then
    let bytes ← getBytes 16
    return (true, bytes)
  else
    let bytes ← getBytes 4
    return (false, bytes)

def decodeCompressedRegion : Get (UInt64 × Bytes) := do
  let binarySize ← getLe 8
  let size ← getLe 4
  let region ← getBytes size
  return (.ofNat binarySize, region)

def decode : (entity : Entity) → Get entity.Value
  | value size => getBytes size.value.toNat
  | fixedString length | byteArray length => getBytes length.toNat
  | vector _ element => do
    let size ← getLe 8
    getMany element.decode size
  | pair first second => do
    let a ← first.decode
    let b ← second.decode
    return (a, b)
  | string | bytes | bytesView | pool | transactionsPacketHash | transactionsPacket | poolHash =>
    decodeBytes
  | address => decodeAddress
  | regionPtr size => getBytes size.toNat
  | compressedRegion => decodeCompressedRegion

end Entity

/-! ## Sequences of operations -/

/-- A stream with the buffer of its last `init`. -/
structure Session where
  buffer : Buffer
  stream : IPackStream

/-- The calls on a stream. -/
inductive Operation where
  | init (buffer : Buffer)
  | extract (entity : Entity)
  | safeSkip (size : ObjectSize) (num : UInt32)

/-- `IPackStream()`. -/
def Session.new : Session := ⟨⟨[], Nat.zero_le _⟩, { good := false }⟩

namespace Operation

def execute (buffer : Buffer) : Operation → Extract Unit
  | init _ => set ({} : IPackStream)
  | extract entity => do
    let _ ← entity.extract buffer
  | safeSkip size num => IPackStream.safeSkip buffer size num

/-- The stream after an operation, also if it ended with an exception. -/
def step (op : Operation) (session : Session) : Session where
  buffer := match op with
    | init buffer => buffer
    | _ => session.buffer
  stream := match op.execute session.buffer session.stream with
    | .ok _ t => t
    | .error _ t => t

end Operation

def run (ops : List Operation) (session : Session) : Session :=
  ops.foldl (fun session op => op.step session) session

end IPackStream

end CreditsNode
