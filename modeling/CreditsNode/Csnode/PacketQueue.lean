import CreditsNode.Csnode.TransactionsPacket
import CreditsNode.Lib.EventSystem

/-!
# The queue of packets

`cs::PacketQueue` collects the transactions of a node in packets before they are sent. A transaction
is added to the last packet, or to a new one if that is full; a packet that is pushed as a whole is
followed by an empty one. In one round only some packets are popped.
-/

namespace CreditsNode

/-- `PacketQueue` with its limits. -/
structure PacketQueue where
  queue : List TransactionsPacket
  maxQueueSize : Nat
  maxTransactionsSize : Nat
  maxPacketsPerRound : Nat
  cachedRound : Sequence
  cachedPackets : Nat

namespace PacketQueue

def new (queueSize transactionsSize packetsPerRound : Nat) : PacketQueue where
  queue := []
  maxQueueSize := queueSize
  maxTransactionsSize := transactionsSize
  maxPacketsPerRound := packetsPerRound
  cachedRound := 0
  cachedPackets := 0

/-- `queue_`, with a packet at its end that has room. -/
def opened (q : PacketQueue) : List TransactionsPacket :=
  match q.queue.getLast? with
  | none => [.new]
  | some back =>
    if back.transactions.length ≥ q.maxTransactionsSize then q.queue ++ [.new] else q.queue

/-- `push(transaction)`, and whether the transaction has been taken. -/
def push (q : PacketQueue) (transaction : Transaction) : PacketQueue × Bool :=
  if q.queue.length ≥ q.maxQueueSize then (q, false)
  else
    let (back, added) := (q.opened.getLastD .new).addTransaction transaction
    ({ q with queue := q.opened.dropLast ++ [back] }, added)

def pushPacket (q : PacketQueue) (packet : TransactionsPacket) : PacketQueue :=
  { q with queue := q.queue ++ [packet, .new] }

/-- The loop of `pop`: the packets that are taken, those that are left, and the counter. -/
def popLoop (maxPacketsPerRound : Nat) : List TransactionsPacket → Nat →
    List TransactionsPacket × List TransactionsPacket × Nat
  | [], cachedPackets => ([], [], cachedPackets)
  | packet :: queue, cachedPackets =>
    if cachedPackets < maxPacketsPerRound then
      let (block, rest, cachedPackets) := popLoop maxPacketsPerRound queue (cachedPackets + 1)
      (packet :: block, rest, cachedPackets)
    else ([], packet :: queue, cachedPackets)

/-- `pop`, in the given round of the conveyer. -/
def pop (q : PacketQueue) (round : Sequence) : List TransactionsPacket × PacketQueue :=
  if round = q.cachedRound ∧ q.cachedPackets ≥ q.maxPacketsPerRound then ([], q)
  else
    let cachedPackets := if round ≠ q.cachedRound then 0 else q.cachedPackets
    let (block, queue, cachedPackets) := popLoop q.maxPacketsPerRound q.queue cachedPackets
    (block, { q with queue, cachedPackets, cachedRound := round })

/-! ## Runs -/

/-- What has been pushed. -/
inductive Item where
  | single (transaction : Transaction)
  | separate (packet : TransactionsPacket)

def Item.transactions : Item → List Transaction
  | single transaction => [transaction]
  | separate packet => packet.transactions

/-- The calls on a queue. -/
inductive Operation where
  | push (transaction : Transaction)
  | pushPacket (packet : TransactionsPacket)
  | pop (round : Sequence)

/-- What was accepted by the queue and what was taken out. -/
inductive Event where
  | pushed (item : Item)
  | popped (round : Sequence) (block : List TransactionsPacket)

/-- What `push` adds: nothing, if the transaction is refused. -/
def added (transaction : Transaction) (taken : Bool) : List Item :=
  if taken then [.single transaction] else []

def step (op : Operation) (q : PacketQueue) : Option (List Event × PacketQueue) :=
  match op with
  | .push transaction =>
    let result := q.push transaction
    some ((added transaction result.2).map .pushed, result.1)
  | .pushPacket packet => some ([Item.separate packet].map .pushed, q.pushPacket packet)
  | .pop round =>
    let result := q.pop round
    some ([.popped round result.1], result.2)

/-- The rounds of the pops. -/
def rounds (ops : List Operation) : List Sequence :=
  ops.filterMap fun op => match op with
    | .pop round => some round
    | _ => none

/-- All that has been pushed. -/
def pushed (events : List Event) : List Item :=
  events.filterMap fun event => match event with
    | .pushed item => some item
    | .popped _ _ => none

def popped (events : List Event) : List TransactionsPacket :=
  events.flatMap fun event => match event with
    | .pushed _ => []
    | .popped _ block => block

def poppedIn (round : Sequence) (events : List Event) : List TransactionsPacket :=
  events.flatMap fun event => match event with
    | .pushed _ => []
    | .popped round' block => if round' = round then block else []

def built (transactions : List Transaction) : TransactionsPacket :=
  { TransactionsPacket.new with transactions }

/-- The packets are, in order, what has been pushed: each packet that was pushed as a whole is there
as it was, and the single transactions are in packets of their own, which keep to the limit. -/
inductive Groups (limit : Nat) : List TransactionsPacket → List Item → Prop
  | nil : Groups limit [] []
  | separate {packets : List TransactionsPacket} {items : List Item} (packet : TransactionsPacket) :
      Groups limit packets items → Groups limit (packets ++ [packet]) (items ++ [.separate packet])
  | built {packets : List TransactionsPacket} {items : List Item}
      {transactions : List Transaction} :
      Groups limit packets items → transactions.length ≤ limit →
      Groups limit (packets ++ [built transactions]) (items ++ transactions.map .single)

end PacketQueue

end CreditsNode
