import CreditsNode.Csnode.TransactionsPacket
import CreditsNode.Csdb.Proofs.TransactionProofs
import CreditsNode.Csdb.Proofs.SampleData

/-!
# The binary form of packets

A packet that is written with all its sections is read back with them, and its hash, which is made
anew from the transactions that were read, is the one it had. A packet that is written without the
states and the signatures is read back without them.
-/

namespace CreditsNode

open ByteCodec

/-- The transaction is read back from what is written of it, whatever follows. -/
def Transaction.RoundTrips (t : Transaction) : Prop := Reads Transaction.get t.put t.unplaced

theorem Transaction.Fits.roundTrips {t : Transaction} (h : t.Fits) : t.RoundTrips :=
  reads_get h.innerID h.userFields_size h.userFields

namespace TransactionsPacket

variable {crypto : Crypto} {packet : TransactionsPacket}

/-- The packet as it is read, its transactions not yet part of a pool. -/
def unplaced (packet : TransactionsPacket) : TransactionsPacket :=
  { packet with
    transactions := packet.transactions.map Transaction.unplaced
    stateTransactions := packet.stateTransactions.map Transaction.unplaced }

/-- The sizes of the vectors are of type `size_t`. -/
structure Sized (packet : TransactionsPacket) : Prop where
  transactions : packet.transactions.length < 2 ^ 64
  stateTransactions : packet.stateTransactions.length < 2 ^ 64
  signatures : packet.signatures.length < 2 ^ 64

def HashMade (crypto : Crypto) (packet : TransactionsPacket) : Prop :=
  packet.hash = some (crypto.calculateHash (packet.toBinary .transactions))

theorem makeHash_of_none (h : packet.hash = none) :
    packet.makeHash crypto =
      ({ packet with hash := some (crypto.calculateHash (packet.toBinary .transactions)) },
        true) := by
  unfold makeHash
  rw [h]

theorem hashMade_makeHash (h : packet.hash = none) :
    HashMade crypto (packet.makeHash crypto).1 := by
  rw [makeHash_of_none h]
  rfl

theorem toBinary_transactions (packet : TransactionsPacket) :
    packet.toBinary .transactions = putVector Transaction.put packet.transactions :=
  List.append_nil _

theorem toBinary_all (packet : TransactionsPacket) :
    packet.toBinary .all = putVector Transaction.put packet.transactions ++
      (putVector Transaction.put packet.stateTransactions ++
        putVector putSignature packet.signatures) := rfl

section Vector

variable {α : Type} {g : Get α} {put : α → Bytes} {f : α → α} {elements : List α}

theorem reads_elements (hsize : elements.length < 2 ^ 64)
    (h : ∀ a ∈ elements, Reads g (put a) (f a)) :
    Reads (getMany g (UInt64.ofNat elements.length).toNat) (elements.flatMap put)
      (elements.map f) := by
  rw [UInt64.toNat_ofNat_of_lt' hsize]
  exact reads_getMany_map elements h

theorem reads_getSection (hsize : elements.length < 2 ^ 64)
    (h : ∀ a ∈ elements, Reads g (put a) (f a)) :
    Reads (getSection g) (putVector put elements) (elements.map f) :=
  (reads_getU64 _).optional.bind (reads_elements hsize h)

end Vector

theorem reads_getSignature (it : UInt8 × Signature) : Reads getSignature (putSignature it) it :=
  (reads_getU8 it.1).bind ((reads_getArray it.2).bind_pure (Reads.pure _))

theorem putVector_map_unplaced (trxs : List Transaction) :
    putVector Transaction.put (trxs.map Transaction.unplaced) = putVector Transaction.put trxs := by
  unfold putVector
  rw [List.length_map, List.flatMap_map]
  rfl

theorem reads_get (htrxs : ∀ t ∈ packet.transactions, t.RoundTrips)
    (hstates : ∀ t ∈ packet.stateTransactions, t.RoundTrips) (hsized : packet.Sized) :
    Reads get (packet.toBinary .all) { packet.unplaced with hash := none } := by
  have hsignatures : Reads (getSection getSignature) (putVector putSignature packet.signatures)
      packet.signatures := by
    simpa using reads_getSection (f := id) hsized.signatures fun it _ => reads_getSignature it
  rw [toBinary_all]
  unfold putVector at *
  refine (reads_getU64 _).bind ((reads_elements hsized.transactions htrxs).bind ?_)
  refine (reads_getSection hsized.stateTransactions hstates).bind ?_
  exact hsignatures.bind_pure (Reads.pure _)

theorem makeHash_unplaced (h : HashMade crypto packet) :
    ({ packet.unplaced with hash := none } : TransactionsPacket).makeHash crypto =
      (packet.unplaced, true) := by
  rw [makeHash_of_none rfl, toBinary_transactions]
  show (({ packet.unplaced with hash := some (crypto.calculateHash
    (putVector Transaction.put (packet.transactions.map Transaction.unplaced))) } :
      TransactionsPacket), true) = _
  rw [putVector_map_unplaced, ← toBinary_transactions, ← h]
  rfl

/-- A packet is read back from its binary form with the transactions, the states and the
signatures in their order and with its hash. -/
theorem packet_fromBinary_toBinary (crypto : Crypto) (packet : TransactionsPacket)
    (htrxs : ∀ t ∈ packet.transactions, t.RoundTrips)
    (hstates : ∀ t ∈ packet.stateTransactions, t.RoundTrips) (hsized : packet.Sized)
    (hhash : HashMade crypto packet) :
    fromBinary crypto (packet.toBinary .all) = packet.unplaced := by
  have hget := reads_get htrxs hstates hsized []
  rw [List.append_nil] at hget
  unfold fromBinary
  rw [hget]
  dsimp only
  rw [makeHash_unplaced hhash]

/-- A transfer of a numbered wallet, a state and the signatures of two confidants. -/
def demoExecution : TransactionsPacket :=
  (makeHash .zero
    { transactions := [{ Transaction.new with innerID := 5, source := .walletId 3 }]
      stateTransactions := [.withFields [(-2, .string [1, 2, 3])]]
      signatures := [(1, zeroArray 64), (0, sampleSignature 7)]
      hash := none }).1

theorem packet_fromBinary_toBinary_demo :
    demoExecution.hash.isSome = true ∧ demoExecution.signatures.length = 2 ∧
      fromBinary .zero (demoExecution.toBinary .all) = demoExecution.unplaced := by
  have htrxs : ∀ t ∈ demoExecution.transactions, t.RoundTrips := by
    intro t ht
    rw [List.mem_singleton.mp ht]
    exact Transaction.Fits.roundTrips ⟨by decide, by decide, by decide⟩
  have hstates : ∀ t ∈ demoExecution.stateTransactions, t.RoundTrips := by
    intro t ht
    rw [List.mem_singleton.mp ht]
    exact Transaction.Fits.roundTrips ⟨by decide, by decide, by decide⟩
  have hsized : demoExecution.Sized := ⟨by decide, by decide, by decide⟩
  exact ⟨rfl, rfl, packet_fromBinary_toBinary _ _ htrxs hstates hsized (hashMade_makeHash rfl)⟩

end TransactionsPacket

end CreditsNode
