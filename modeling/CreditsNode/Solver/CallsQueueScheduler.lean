import CreditsNode.Lib.EventSystem
import CreditsNode.Lib.MachineInt
import CreditsNode.Lib.OrdMap

/-!
# Calls that are made later

`CallsQueueScheduler` keeps calls until their time has come. Its worker then puts a lambda into the
`CallsQueue`, from which another thread runs it. All threads meet only in the critical sections of
one mutex, so a run is any sequence of these. Two counters for each tag say how many lambdas have
been put into the queue and how many are done.
-/

namespace CreditsNode

abbrev CallTag := UInt64

/-- `CallsQueueScheduler::Launch`. -/
inductive Launch where
  | once
  | periodic
deriving DecidableEq, Repr

/-- A call, with the procedure as a value of `π`. Times are nanoseconds, the period is
milliseconds. -/
structure CallContext (π : Type) where
  id : CallTag
  tp : Int
  dt : Int
  proc : π
deriving DecidableEq, Repr

/-- `CallsQueueScheduler::ExeSync`: how often a call was queued and done. -/
structure ExeSync where
  queued : UInt32
  done : UInt32
deriving DecidableEq, Repr

/-- What `_mtx_queue` protects. -/
structure CallsQueueScheduler (π : Type) where
  /-- The calls in the order of their times. -/
  queue : List (CallContext π) := []
  exeSync : OrdMap CallTag ExeSync := .empty

namespace CallsQueueScheduler

variable {π : Type}

def minWaitFor : Int := 5

/-- `std::multiset::insert`: behind the calls for the same time. -/
def insertContext (context : CallContext π) : List (CallContext π) → List (CallContext π)
  | [] => [context]
  | other :: rest =>
    if context.tp < other.tp then context :: other :: rest else other :: insertContext context rest

/-! ## The counters -/

def onExeQueued (id : CallTag) (s : CallsQueueScheduler π) : CallsQueueScheduler π :=
  match s.exeSync.find id with
  | none => { s with exeSync := s.exeSync.emplace id { queued := 1, done := 0 } }
  | some _ =>
    { s with exeSync := s.exeSync.modify id fun it => { it with queued := it.queued + 1 } }

def onExeDone (id : CallTag) (s : CallsQueueScheduler π) : CallsQueueScheduler π :=
  { s with exeSync := s.exeSync.modify id fun it => { it with done := it.done + 1 } }

def canExe (s : CallsQueueScheduler π) (id : CallTag) : Bool :=
  match s.exeSync.find id with
  | some it => it.done = it.queued
  | none => true

def confirmExe (s : CallsQueueScheduler π) (id : CallTag) : Bool :=
  match s.exeSync.find id with
  | some it => it.queued - it.done = 1
  | none => false

/-! ## The callers -/

/-- The context that `Insert` makes at the time `now`. -/
def newContext (now waitFor : Int) (proc : π) (scheme : Launch) (id : CallTag) : CallContext π where
  id
  tp := now + waitFor
  dt := match scheme with
    | .once => 0
    | .periodic => waitFor.tdiv 1000000
  proc

/-- `Insert` at the time `now`; the tag has been chosen. -/
def insert (now waitFor : Int) (proc : π) (scheme : Launch) (replaceExisting : Bool) (id : CallTag)
    (s : CallsQueueScheduler π) : CallTag × CallsQueueScheduler π :=
  if s.queue.any (fun it => it.id = id) && !replaceExisting then (id, s)
  else
    -- `eraseP` changes nothing if there is no call under the tag
    (id, { s with
      queue := insertContext (newContext now waitFor proc scheme id)
        (s.queue.eraseP fun it => it.id = id) })

def remove (id : CallTag) (s : CallsQueueScheduler π) : Bool × CallsQueueScheduler π :=
  (s.queue.any fun it => it.id = id,
    { queue := s.queue.eraseP fun it => it.id = id
      exeSync := s.exeSync.modify id fun it => { it with queued := it.done } })

def removeAll (s : CallsQueueScheduler π) : CallsQueueScheduler π where
  queue := []
  exeSync := s.exeSync.mapValues fun it => { it with queued := it.done }

/-! ## The worker -/

def launch (run : CallContext π) (later : Int) (s : CallsQueueScheduler π) :
    CallsQueueScheduler π :=
  let counted := if s.canExe run.id then s.onExeQueued run.id else s
  if 0 < run.dt then
    { counted with
      queue := insertContext { run with tp := later + run.dt * 1000000 } counted.queue }
  else counted

/-- The section of `SchedulerProc` in which it takes the calls whose time has come, with the lambdas
that it puts into the `CallsQueue`. Each round reads the clock before a call is taken and again to
schedule it for the next time; the result is `none` if there are more rounds than readings. -/
def schedulerProc : List (Int × Int) → CallsQueueScheduler π →
    Option (List (CallContext π) × CallsQueueScheduler π)
  | [], s => if s.queue.isEmpty then some ([], s) else none
  | (now, later) :: readings, s =>
    match s.queue with
    | [] => some ([], s)
    | run :: queue =>
      if minWaitFor ≤ run.tp - now then some ([], s)
      else
        (schedulerProc readings (launch run later { s with queue })).map fun rest =>
          ((if s.canExe run.id then [run] else []) ++ rest.1, rest.2)

/-! ## All parties -/

/-- The scheduler, with the lambdas that are in the `CallsQueue` and those that are being run. The
procedure of a call is the number of the call of `Insert`. -/
structure System where
  scheduler : CallsQueueScheduler Nat := {}
  callsQueue : List (CallContext Nat) := []
  running : List (CallContext Nat) := []
  /-- The tags of all calls of `Insert` so far. -/
  calls : List CallTag := []

/-- The critical sections. -/
inductive Op where
  | insert (now waitFor : Int) (scheme : Launch) (replaceExisting : Bool) (id : CallTag)
  | remove (id : CallTag)
  | removeAll
  /-- The worker takes calls, reading the clock as given. -/
  | fire (readings : List (Int × Int))
  /-- A lambda of the `CallsQueue` begins, up to the call of its procedure. -/
  | start (index : Nat)
  /-- A procedure has returned. -/
  | finish (index : Nat)

/-- What can be seen of a run. -/
inductive Event where
  /-- A call was in the queue or in the `CallsQueue` when its tag was removed. -/
  | cancelled (call : Nat)
  /-- A lambda for the call was put into the `CallsQueue`. -/
  | fired (call : Nat)
  /-- The procedure of the call was started. -/
  | executed (call : Nat)
deriving DecidableEq, Repr

namespace System

/-- The calls that a removal of the tags with `p` cancels. -/
def waiting (p : CallTag → Bool) (s : System) : List (CallContext Nat) :=
  (s.scheduler.queue ++ s.callsQueue).filter fun context => p context.id

def step : Op → System → Option (List Event × System)
  | .insert now waitFor scheme replaceExisting id, s =>
    some ([],
      { s with
        scheduler := (s.scheduler.insert now waitFor s.calls.length scheme replaceExisting id).2
        calls := s.calls ++ [id] })
  | .remove id, s =>
    some ((s.waiting (· = id)).map fun context => .cancelled context.proc,
      { s with scheduler := (s.scheduler.remove id).2 })
  | .removeAll, s =>
    some ((s.waiting fun _ => true).map fun context => .cancelled context.proc,
      { s with scheduler := s.scheduler.removeAll })
  | .fire readings, s =>
    (s.scheduler.schedulerProc readings).map fun fired =>
      (fired.1.map fun run => .fired run.proc,
        { s with scheduler := fired.2, callsQueue := s.callsQueue ++ fired.1 })
  | .start index, s =>
    s.callsQueue[index]?.map fun run =>
      if s.scheduler.confirmExe run.id then
        ([.executed run.proc],
          { s with callsQueue := s.callsQueue.eraseIdx index, running := s.running ++ [run] })
      else ([], { s with callsQueue := s.callsQueue.eraseIdx index })
  | .finish index, s =>
    s.running[index]?.map fun run =>
      ([], { s with
        scheduler := s.scheduler.onExeDone run.id
        running := s.running.eraseIdx index })

end System

end CallsQueueScheduler

end CreditsNode
