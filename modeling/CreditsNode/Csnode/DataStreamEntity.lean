import CreditsNode.Csnode.DataStream

/-!
# What is written to a stream

The writing half of `cs::DataStream`: `operator<<` appends the bytes of a value to a vector, and
`operator>>` for the same type takes them back. `operator>>` assigns to a variable that exists
already, and does not always do so.
-/

namespace CreditsNode

open ByteCodec Effect

/-- The first `n` bytes of a buffer. -/
def Buffer.truncated (buffer : Buffer) (n : Nat) : Buffer :=
  ⟨buffer.data.take n, (List.length_take_le' _ _).trans buffer.small⟩

namespace DataStream

/-- The size of a type. -/
structure TypeSize extends ObjectSize where
  pos : 0 < value.toNat

/-- The types with an operator of their own. The others are written as a byte vector. -/
inductive Entity where
  | value (size : TypeSize)
  | array (size : TypeSize)
  | fixedString (size : TypeSize)
  | bytes
  | string
  | bytesView
  | pair (first second : Entity)
  | vector (sizeof : Nat) (entity : Entity)

namespace Entity

def read : Entity → Read
  | value size => .value size.toObjectSize
  | array size => .array size.toObjectSize
  | fixedString size => .fixedString size.toObjectSize
  | bytes => .bytes
  | string => .string
  | bytesView => .bytesView
  | pair first second => .pair first.read second.read
  | vector sizeof entity => .vector sizeof entity.read

def Value : Entity → Type
  | value _ | array _ | fixedString _ | bytes | string | bytesView => Bytes
  | pair first second => first.Value × second.Value
  | vector _ entity => List entity.Value

/-- The value of a variable that has just been declared. -/
def default : (entity : Entity) → entity.Value
  | value size | array size | fixedString size => List.replicate size.value.toNat (0 : UInt8)
  | bytes | string | bytesView => ([] : Bytes)
  | pair first second => (first.default, second.default)
  | vector _ entity => ([] : List entity.Value)

def Fits : (entity : Entity) → entity.Value → Prop
  | value size, v | array size, v | fixedString size, v => List.length v = size.value.toNat
  | bytes, _ | string, _ | bytesView, _ => True
  | pair first second, v => first.Fits v.1 ∧ second.Fits v.2
  | vector sizeof entity, vs => List.length vs ≤ ptrdiffMax / sizeof ∧ List.Forall entity.Fits vs

def addSize (size : Nat) : Bytes := putU64 (.ofNat size)

def addVector (data : Bytes) : Bytes := addSize data.length ++ data

/-- `operator<<`. -/
def put : (entity : Entity) → entity.Value → Bytes
  | value _, v | array _, v | fixedString _, v => v
  | bytes, v | string, v | bytesView, v => addVector v
  | pair first second, v => first.put v.1 ++ second.put v.2
  | vector _ entity, vs => addSize (List.length vs) ++ List.flatMap entity.put vs

def assign (buffer : Buffer) :
    (entity : Entity) → entity.Value → entity.read.Result → entity.Value
  | value _, _, result | array _, _, result | fixedString _, _, result => result
  | bytes, _, result | string, _, result => result
  | bytesView, _, view => (buffer.data.drop view.offset).take view.size.toNat
  | pair first second, target, result =>
    (first.assign buffer target.1 result.1, second.assign buffer target.2 result.2)
  -- Each entity is a variable of the loop.
  | vector _ entity, target, result =>
    Option.elim result target fun entities =>
      entities.map fun entity' => entity.assign buffer entity.default entity'

end Entity

/-- A value of some type. -/
structure Field where
  entity : Entity
  value : entity.Value

/-- A value that is written, and the variable that it is read into. -/
structure Item extends Field where
  target : entity.Value
  fits : entity.Fits value

/-- `stream << a << b << …`. -/
def putAll (items : List Item) : Bytes := items.flatMap fun item => item.entity.put item.value

/-- `stream >> a >> b >> …`: the variables afterwards. -/
def readAll (buffer : Buffer) : List Item → Parse (List Field)
  | [] => return []
  | item :: rest => do
    let result ← item.entity.read.parse buffer
    let fields ← readAll buffer rest
    return ⟨item.entity, item.entity.assign buffer item.target result⟩ :: fields

/-- The stream after all reads, also if one of them ended with an exception. -/
def afterAll (buffer : Buffer) (items : List Item) : DataStream :=
  match readAll buffer items {} with
  | .ok _ t => t
  | .error _ t => t

end DataStream

end CreditsNode
