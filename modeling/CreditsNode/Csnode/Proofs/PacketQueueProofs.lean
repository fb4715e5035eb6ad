import CreditsNode.Csnode.PacketQueue

/-!
# The queue of packets is a bounded queue

Nothing that has been pushed is lost, doubled or moved, whole packets are popped as they were, and
in each round only the permitted number of packets. A packet of single transactions keeps to the
limit, or has one transaction if the limit is zero.
-/

namespace CreditsNode.PacketQueue

open EventSystem List

variable {items : List Item}

theorem Groups.transactions_eq {limit : Nat} {packets : List TransactionsPacket}
    (h : Groups limit packets items) :
    packets.flatMap TransactionsPacket.transactions = items.flatMap Item.transactions := by
  induction h with
  | nil => rfl
  | separate packet _ ih =>
    rw [flatMap_append, flatMap_append, ih]
    rfl
  | @built packets items transactions _ _ ih =>
    have hsingle : (transactions.map Item.single).flatMap Item.transactions = transactions := by
      rw [flatMap_map]
      exact flatMap_singleton' transactions
    rw [flatMap_append, flatMap_append, ih, hsingle, flatMap_singleton]
    rfl

/-- The queue ends with a packet of single transactions, if it is not empty, so that transactions
can be added to it. -/
inductive Grouped (limit : Nat) (popped : List TransactionsPacket) :
    List TransactionsPacket → List Item → Prop
  | empty {items : List Item} : Groups limit popped items → Grouped limit popped [] items
  | back {front : List TransactionsPacket} {items : List Item} {transactions : List Transaction} :
      Groups limit (popped ++ front) items → transactions.length ≤ limit →
      Grouped limit popped (front ++ [built transactions]) (items ++ transactions.map .single)

namespace Grouped

variable {limit : Nat} {popped queue : List TransactionsPacket} {items : List Item}

theorem groups (h : Grouped limit popped queue items) : Groups limit (popped ++ queue) items := by
  cases h with
  | empty hgroups =>
    rw [append_nil]
    exact hgroups
  | back hgroups hlimit =>
    rw [← append_assoc]
    exact .built hgroups hlimit

theorem open_new (h : Grouped limit popped queue items) {transactions : List Transaction}
    (hlimit : transactions.length ≤ limit) :
    Grouped limit popped (queue ++ [built transactions]) (items ++ transactions.map .single) :=
  .back h.groups hlimit

theorem pushPacket (h : Grouped limit popped queue items) (packet : TransactionsPacket) :
    Grouped limit popped (queue ++ [packet, .new]) (items ++ [.separate packet]) := by
  have hgroups : Groups limit (popped ++ (queue ++ [packet])) (items ++ [.separate packet]) := by
    rw [← append_assoc]
    exact .separate packet h.groups
  have hempty : ([] : List Transaction).length ≤ limit := Nat.zero_le limit
  have hback := Grouped.back hgroups hempty
  rw [append_assoc, map_nil, append_nil] at hback
  exact hback

theorem pop {block rest : List TransactionsPacket}
    (h : Grouped limit popped (block ++ rest) items) :
    Grouped limit (popped ++ block) rest items := by
  rcases eq_nil_or_concat rest with rfl | ⟨front, packet, rfl⟩
  · have hgroups := h.groups
    rw [append_nil] at hgroups
    exact .empty hgroups
  · generalize hqueue : block ++ front.concat packet = queue at h
    cases h with
    | empty =>
      simp_all
    | @back front' items transactions hgroups hlimit =>
      grind [back, append_assoc, append_inj', singleton_inj]

end Grouped

theorem addTransaction_built (transactions : List Transaction) (transaction : Transaction) :
    (built transactions).addTransaction transaction
      = if transaction.isValid then (built (transactions ++ [transaction]), true)
        else (built transactions, false) := by
  unfold TransactionsPacket.addTransaction
  cases transaction.isValid <;> rfl

theorem Grouped.push {q : PacketQueue} {popped : List TransactionsPacket}
    (h : Grouped (max 1 q.maxTransactionsSize) popped q.queue items) (transaction : Transaction) :
    Grouped (max 1 q.maxTransactionsSize) popped (q.push transaction).1.queue
      (items ++ added transaction (q.push transaction).2) := by
  -- a new packet, with the transaction if it is valid
  have hnew : ∀ back taken, TransactionsPacket.addTransaction .new transaction = (back, taken) →
      Grouped (max 1 q.maxTransactionsSize) popped (q.queue ++ [back])
        (items ++ added transaction taken) := by
    intro back taken hadd
    have hadd' := (addTransaction_built [] transaction).symm.trans hadd
    split_ifs at hadd'
    · obtain ⟨rfl, rfl⟩ := Prod.mk.inj hadd'
      exact h.open_new (Nat.le_max_left 1 _)
    · obtain ⟨rfl, rfl⟩ := Prod.mk.inj hadd'
      exact h.open_new (Nat.zero_le _)
  unfold PacketQueue.push
  split_ifs with hfull
  · show Grouped _ popped q.queue (items ++ [])
    rw [append_nil]
    exact h
  dsimp only
  generalize hqueue : q.queue = queue at h hnew
  cases h with
  | empty hgroups =>
    have hopened : q.opened = [.new] := by
      unfold opened
      rw [hqueue]
      rfl
    rw [hopened]
    exact hnew _ _ rfl
  | @back front items transactions hgroups hlimit =>
    have hlast : q.queue.getLast? = some (built transactions) := by
      rw [hqueue, List.getLast?_append]
      rfl
    by_cases hroom : transactions.length ≥ q.maxTransactionsSize
    · have hopened : q.opened = front ++ [built transactions] ++ [.new] := by
        unfold opened
        rw [hlast, hqueue]
        exact if_pos hroom
      rw [hopened, getLastD_concat, dropLast_concat]
      exact hnew _ _ rfl
    · have hopened : q.opened = front ++ [built transactions] := by
        unfold opened
        rw [hlast, hqueue]
        exact if_neg hroom
      rw [hopened, getLastD_concat, dropLast_concat, addTransaction_built]
      split_ifs with hvalid
      · have hmore : (transactions ++ [transaction]).length ≤ max 1 q.maxTransactionsSize := by
          rw [length_append, length_singleton]
          omega
        have hback := Grouped.back hgroups hmore
        rw [map_append, ← append_assoc] at hback
        exact hback
      · show Grouped _ popped _ (_ ++ [])
        rw [append_nil]
        exact .back hgroups hlimit

theorem popLoop_spec (max : Nat) (queue : List TransactionsPacket) (cachedPackets : Nat) :
    ∃ block rest, popLoop max queue cachedPackets = (block, rest, cachedPackets + block.length) ∧
      queue = block ++ rest ∧ block.length ≤ max - cachedPackets ∧
      (cachedPackets < max → queue ≠ [] → block ≠ []) := by
  induction queue generalizing cachedPackets with
  | nil => exact ⟨[], [], rfl, rfl, Nat.zero_le _, fun _ h => absurd rfl h⟩
  | cons packet queue ih =>
    unfold popLoop
    by_cases hroom : cachedPackets < max
    · obtain ⟨block, rest, hloop, rfl, hlength, -⟩ := ih (cachedPackets + 1)
      grind
    · simp_all

theorem pop_spec (q : PacketQueue) (round : Sequence) :
    ∃ block rest before, q.pop round = (block,
        { q with
          queue := rest
          cachedRound := round
          cachedPackets := before + block.length }) ∧
      before = (if round ≠ q.cachedRound then 0 else q.cachedPackets) ∧ q.queue = block ++ rest ∧
      block.length ≤ q.maxPacketsPerRound - before ∧
      (before < q.maxPacketsPerRound → q.queue ≠ [] → block ≠ []) := by
  unfold pop
  by_cases hdone : round = q.cachedRound ∧ q.cachedPackets ≥ q.maxPacketsPerRound
  · simp_all
  · rw [if_neg hdone]
    obtain ⟨block, rest, hloop, hqueue, hlength, hsome⟩ := popLoop_spec q.maxPacketsPerRound q.queue
      (if round ≠ q.cachedRound then 0 else q.cachedPackets)
    dsimp only
    rw [hloop]
    exact ⟨block, rest, _, rfl, rfl, hqueue, hlength, hsome⟩

theorem pushed_append (events events' : List Event) :
    pushed (events ++ events') = pushed events ++ pushed events' := filterMap_append

theorem popped_append (events events' : List Event) :
    popped (events ++ events') = popped events ++ popped events' := flatMap_append

theorem poppedIn_append (round : Sequence) (events events' : List Event) :
    poppedIn round (events ++ events') = poppedIn round events ++ poppedIn round events' :=
  flatMap_append

theorem pushed_map (items : List Item) : pushed (items.map .pushed) = items := by
  induction items with
  | nil => rfl
  | cons item items ih => exact congrArg (item :: ·) ih

theorem popped_map (items : List Item) : popped (items.map .pushed) = [] := by
  induction items with
  | nil => rfl
  | cons item items ih => exact ih

theorem poppedIn_map (round : Sequence) (items : List Item) :
    poppedIn round (items.map .pushed) = [] := by
  induction items with
  | nil => rfl
  | cons item items ih => exact ih

/-- The invariant of the runs from an empty queue. -/
structure Sound (maxTransactionsSize maxPacketsPerRound : Nat) (events : List Event)
    (q : PacketQueue) : Prop where
  transactionsSize : q.maxTransactionsSize = maxTransactionsSize
  packetsPerRound : q.maxPacketsPerRound = maxPacketsPerRound
  grouped : Grouped (max 1 maxTransactionsSize) (popped events) q.queue (pushed events)
  counted : (poppedIn q.cachedRound events).length = q.cachedPackets
  later : ∀ round, q.cachedRound < round → poppedIn round events = []
  bounded : ∀ round, (poppedIn round events).length ≤ maxPacketsPerRound

theorem sound_new (queueSize transactionsSize packetsPerRound : Nat) :
    Sound transactionsSize packetsPerRound []
      (.new queueSize transactionsSize packetsPerRound) where
  transactionsSize := rfl
  packetsPerRound := rfl
  grouped := .empty .nil
  counted := rfl
  later _ _ := rfl
  bounded _ := Nat.zero_le _

theorem Sound.of_push {maxT maxP : Nat} {events : List Event} {q q' : PacketQueue}
    (h : Sound maxT maxP events q) (hconfig : q' = { q with queue := q'.queue })
    (hgrouped : Grouped (max 1 maxT) (popped events) q'.queue (pushed events ++ items)) :
    Sound maxT maxP (events ++ items.map .pushed) q' := by
  have hin : ∀ round, poppedIn round (events ++ items.map .pushed) = poppedIn round events := by
    intro round
    rw [poppedIn_append, poppedIn_map, append_nil]
  rw [hconfig]
  refine ⟨h.transactionsSize, h.packetsPerRound, ?_, ?_, fun round hround => ?_, fun round => ?_⟩
  · rw [popped_append, pushed_append, popped_map, pushed_map, append_nil]
    exact hgrouped
  · rw [hin]
    exact h.counted
  · rw [hin]
    exact h.later round hround
  · rw [hin]
    exact h.bounded round

theorem push_config (q : PacketQueue) (transaction : Transaction) :
    (q.push transaction).1 = { q with queue := (q.push transaction).1.queue } := by
  unfold push
  split_ifs <;> rfl

def Forward (op : Operation) (q : PacketQueue) : Prop :=
  ∀ round, op = .pop round → q.cachedRound ≤ round

theorem Sound.step {maxT maxP : Nat} {events shown : List Event} {q t : PacketQueue}
    {op : Operation}
    (h : Sound maxT maxP events q) (hforward : Forward op q) (hstep : step op q = some (shown, t)) :
    Sound maxT maxP (events ++ shown) t := by
  cases op with
  | push transaction =>
    cases hstep
    have hgrouped := Grouped.push (h.transactionsSize.symm ▸ h.grouped) transaction
    rw [h.transactionsSize] at hgrouped
    exact h.of_push (push_config q transaction) hgrouped
  | pushPacket packet =>
    cases hstep
    exact h.of_push rfl (h.grouped.pushPacket packet)
  | pop round =>
    obtain ⟨block, rest, before, hpop, hbefore, hqueue, hlength, -⟩ := pop_spec q round
    unfold PacketQueue.step at hstep
    dsimp only at hstep
    rw [hpop] at hstep
    cases hstep
    have hle : q.cachedRound ≤ round := hforward round rfl
    have hself : poppedIn round [.popped round block] = block := by
      unfold poppedIn
      rw [flatMap_singleton]
      exact if_pos rfl
    have hother : ∀ round', round' ≠ round → poppedIn round' [.popped round block] = [] := by
      intro round' hne
      unfold poppedIn
      rw [flatMap_singleton]
      exact if_neg hne.symm
    -- what has been popped in this round before
    have hcount : (poppedIn round events).length = before := by
      have hlater := h.later
      have hcounted := h.counted
      grind
    refine ⟨h.transactionsSize, h.packetsPerRound, ?_, ?_, fun round' hround' => ?_,
      fun round' => ?_⟩
    · rw [popped_append, pushed_append]
      have hgrouped := Grouped.pop (hqueue ▸ h.grouped)
      have hblock : popped [.popped round block] = block := flatMap_singleton _ _
      rw [hblock]
      show Grouped _ _ rest (pushed events ++ [])
      rw [append_nil]
      exact hgrouped
    · rw [poppedIn_append, hself, length_append, hcount]
    · have hlater := h.later
      grind [poppedIn_append]
    · rw [poppedIn_append, length_append]
      have hbounded' := h.bounded
      have hpacketsPerRound := h.packetsPerRound
      grind

theorem cachedRound_push (q : PacketQueue) (transaction : Transaction) :
    (q.push transaction).1.cachedRound = q.cachedRound := by
  rw [push_config]

theorem cachedRound_pop (q : PacketQueue) (round : Sequence) :
    (q.pop round).2.cachedRound = round := by
  obtain ⟨block, rest, before, hpop, -⟩ := pop_spec q round
  rw [hpop]

theorem along_forward {ops : List Operation} : ∀ {q : PacketQueue},
    (q.cachedRound :: rounds ops).Pairwise (· ≤ ·) → Along step Forward ops q := by
  induction ops with
  | nil => exact fun _ => trivial
  | cons op ops ih =>
    intro q hrounds
    obtain ⟨hfirst, hrest⟩ := pairwise_cons.mp hrounds
    cases op with
    | push transaction =>
      refine ⟨fun round hop => ?_, fun first hstep => ?_⟩
      · cases hop
      · cases Option.some.inj hstep
        exact ih ((cachedRound_push q transaction).symm ▸ hrounds)
    | pushPacket packet =>
      refine ⟨fun round hop => ?_, fun first hstep => ?_⟩
      · cases hop
      · cases Option.some.inj hstep
        exact ih hrounds
    | pop round =>
      refine ⟨fun round' hop => ?_, fun first hstep => ?_⟩
      · cases hop
        exact hfirst round mem_cons_self
      · cases Option.some.inj hstep
        exact ih ((cachedRound_pop q round).symm ▸ hrest)

/-- The queue after pops in the given rounds. -/
def popAll (q : PacketQueue) (rounds : List Sequence) : PacketQueue :=
  rounds.foldl (fun q round => (q.pop round).2) q

theorem popAll_eq_nil {later : List Sequence} : ∀ {q : PacketQueue}, 0 < q.maxPacketsPerRound →
    (q.cachedRound :: later).Pairwise (· < ·) → q.queue.length ≤ later.length →
    (q.popAll later).queue = [] := by
  induction later with
  | nil =>
    intro q _ _ hlength
    exact eq_nil_of_length_eq_zero (Nat.le_zero.mp hlength)
  | cons round later ih =>
    intro q hmax hrounds hlength
    obtain ⟨hfirst, hrest⟩ := pairwise_cons.mp hrounds
    have hne : round ≠ q.cachedRound := (UInt64.ne_of_lt (hfirst round mem_cons_self)).symm
    obtain ⟨block, rest, before, hpop, hbefore, hqueue, -, hsome⟩ := pop_spec q round
    show (popAll (q.pop round).2 later).queue = []
    rw [hpop]
    refine ih hmax hrest ?_
    rw [if_pos hne] at hbefore
    have hsome := hsome (hbefore ▸ hmax)
    rw [hqueue, length_append, length_cons] at hlength
    show rest.length ≤ later.length
    by_cases hempty : q.queue = []
    · rw [hqueue] at hempty
      rw [(append_eq_nil_iff.mp hempty).2]
      exact Nat.zero_le _
    · have hpos := length_pos_of_ne_nil (hsome hempty)
      omega

/-- Over every run the packets popped and those still in the queue are what has been pushed, in
order, and no round pops more packets than permitted; and the queue is emptied by pops in as many
new rounds as it has packets. -/
theorem run_groups {queueSize transactionsSize packetsPerRound : Nat} {ops : List Operation}
    {events : List Event} {q : PacketQueue}
    (hrun : run step ops (.new queueSize transactionsSize packetsPerRound) = some (events, q))
    (hrounds : (rounds ops).Pairwise (· ≤ ·)) :
    Groups (max 1 transactionsSize) (popped events ++ q.queue) (pushed events) ∧
    (popped events ++ q.queue).flatMap TransactionsPacket.transactions
      = (pushed events).flatMap Item.transactions ∧
    (∀ round, (poppedIn round events).length ≤ packetsPerRound) ∧
    (0 < packetsPerRound → ∀ later, (q.cachedRound :: later).Pairwise (· < ·) →
      q.queue.length ≤ later.length → (q.popAll later).queue = []) := by
  have hstart : ((PacketQueue.new queueSize transactionsSize packetsPerRound).cachedRound ::
      rounds ops).Pairwise (· ≤ ·) :=
    pairwise_cons.mpr ⟨fun round _ => UInt64.zero_le, hrounds⟩
  have hsound := run_invariant (fun _ _ _ _ _ h hop hstep => h.step hop hstep)
    (sound_new queueSize transactionsSize packetsPerRound) hrun (along_forward hstart)
  refine ⟨hsound.grouped.groups, hsound.grouped.groups.transactions_eq, hsound.bounded, ?_⟩
  intro hmax later hlater hlength
  exact popAll_eq_nil (hsound.packetsPerRound ▸ hmax) hlater hlength

section Sample

/-- Two transactions, with a separate packet between them. -/
def sampleOperations : List Operation :=
  [.push .new, .pushPacket .new, .push .new, .pop 1, .pop 2]

theorem run_groups_sample : ∃ events q,
    run step sampleOperations (.new 4 1 2) = some (events, q) ∧
    popped events = [built [.new], .new, built [.new]] ∧
    Groups 1 (popped events ++ q.queue) (pushed events) := by
  have hrun : run step sampleOperations (.new 4 1 2) = some (_, _) := rfl
  have hrounds : (rounds sampleOperations).Pairwise (· ≤ ·) := by decide
  exact ⟨_, _, hrun, rfl, (run_groups hrun hrounds).1⟩

/-- With the limit zero, every packet has one transaction. -/
theorem limit_zero_exceeded : ∃ events q,
    run step [.push .new, .pop 1] (.new 4 0 2) = some (events, q) ∧
    pushed events = [.single .new] ∧ popped events = [built [.new]] ∧
    0 < (built [.new]).transactions.length :=
  ⟨_, _, rfl, rfl, rfl, Nat.one_pos⟩

end Sample

end CreditsNode.PacketQueue
