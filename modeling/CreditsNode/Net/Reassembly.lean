import CreditsNode.Net.PacketCollector

/-!
# Messages that are split into fragments

What the sender of a message does with it, and the packets as they come to the collector: in any
order, each any number of times, and those of different messages among each other.
-/

namespace CreditsNode

open ByteCodec Effect

/-- A message that is split into fragments. The part of the header from the number of fragments on
that is hashed is the same in all of them, and so are the flags. -/
structure Split where
  flags : UInt8
  header : Bytes
  /-- The rest of each fragment: what there is left of the headers, and the payload. -/
  bodies : List Bytes
  fragmented : flags &&& BaseFlags.fragmented ≠ 0
  length_header : header.length = fragmentedHeader
  count_header : leNat (header.take 2) = bodies.length
  nonempty : bodies ≠ []
  headed : ∀ body ∈ bodies, (Packet.headersLength flags).toNat ≤ 3 + fragmentedHeader + body.length
  /-- The size of the fragments together is a size that a region can have. -/
  small : (bodies.map fun body => 3 + fragmentedHeader + body.length).sum < 2 ^ 32

namespace Split

/-- The number of fragments. -/
def count (m : Split) : Nat := m.bodies.length

def fragment (m : Split) (i : Nat) : Packet :=
  ⟨m.flags :: (leBytes 2 i ++ (m.header ++ m.bodies.getD i []))⟩

def headersLength (m : Split) : Nat := (Packet.headersLength m.flags).toNat

def payload (m : Split) (i : Nat) : Bytes := (m.fragment i).region.drop m.headersLength

/-- The first fragment and the payloads of the others in the order of their numbers. -/
def whole (m : Split) : Bytes :=
  (m.fragment 0).region ++ (List.range' 1 (m.count - 1)).flatMap m.payload

def hash (crypto : Crypto) (m : Split) : Hash := crypto.calculateHash m.header

end Split

/-- A fragment of a message that comes to the collector. -/
structure Delivery where
  message : Split
  id : Fin message.count

namespace Delivery

def packet (d : Delivery) : Packet := d.message.fragment d.id

def hash (crypto : Crypto) (d : Delivery) : Hash := d.message.hash crypto

/-- The fragment has come at least once. -/
def Arrived (ds : List Delivery) (m : Split) (i : Nat) : Prop :=
  ∃ d ∈ ds, d.message = m ∧ d.id.val = i

/-- Different messages have different hashes. -/
def Distinct (crypto : Crypto) (ds : List Delivery) : Prop :=
  ∀ x ∈ ds, ∀ y ∈ ds, x.hash crypto = y.hash crypto → x.message = y.message

end Delivery

namespace PacketCollector

/-- The packets come one after another. What is kept of each is the hash of its message and whether
the collector took the message for a new one. -/
def collect (crypto : Crypto) (ds : List Delivery) : CollectorM (List (Hash × Bool)) :=
  ds.foldlM (fun log d => do
    let found ← getMessage crypto d.packet
    return log ++ [(d.hash crypto, found.any Prod.snd)]) []

/-- The messages that have been taken for new ones since the first packet of the given one. -/
def startedSince (key : Hash) (log : List (Hash × Bool)) : List Hash :=
  ((log.dropWhile fun e => e.1 ≠ key).filter Prod.snd).map Prod.fst

/-- Fewer than `MaxParallelCollections` other messages have been taken for new ones since the first
packet. -/
def Few (key : Hash) (log : List (Hash × Bool)) : Prop :=
  (FifoMap.others key (startedSince key log)).length < maxParallelCollections

/-- The messages whose first packet came after the first packet of the given one. -/
def firstSeenSince (key : Hash) (hashes : List Hash) : List Hash :=
  (hashes.dropWhile fun k => k ≠ key).filter fun k => k ∉ hashes.takeWhile fun k => k ≠ key

end PacketCollector

end CreditsNode
