import CreditsNode.Solver.CallsQueueScheduler
import Mathlib.Data.List.Perm.Basic

/-!
# Calls that have been cancelled

A removal sets the number of queued lambdas of a tag back to the number of those that are done. If a
call is fired under the tag before the old lambda has been dropped, the old one is confirmed in
place of the new one, and if the procedure runs during the removal, the counters stay apart. In
other runs no cancelled call is executed, and no other call is lost.
-/

namespace CreditsNode.CallsQueueScheduler

open EventSystem List

variable {π : Type} {s : CallsQueueScheduler π} {id : CallTag}

def ahead (s : CallsQueueScheduler π) (id : CallTag) : UInt32 :=
  (s.exeSync.find id).elim 0 fun it => it.queued - it.done

theorem canExe_iff : s.canExe id = true ↔ s.ahead id = 0 := by
  unfold canExe ahead
  cases s.exeSync.find id with
  | none => simp
  | some it =>
    grind

theorem confirmExe_iff : s.confirmExe id = true ↔ s.ahead id = 1 := by
  unfold confirmExe ahead
  cases s.exeSync.find id with
  | none => simp
  | some it =>
    show decide (it.queued - it.done = 1) = true ↔ it.queued - it.done = 1
    rw [decide_eq_true_iff]

@[simp, grind =] theorem queue_onExeQueued : (s.onExeQueued id).queue = s.queue := by
  unfold onExeQueued
  split <;> rfl

@[grind =] theorem ahead_onExeQueued (id' : CallTag) :
    (s.onExeQueued id).ahead id' = if id' = id then s.ahead id + 1 else s.ahead id' := by
  unfold onExeQueued ahead
  cases hfind : s.exeSync.find id with
  | none =>
    rw [OrdMap.find_emplace_of_none _ hfind]
    split_ifs <;> rfl
  | some it =>
    rw [OrdMap.find_modify, hfind]
    split_ifs with hid
    · grind
    · rfl

theorem ahead_onExeDone (h : s.ahead id ≠ 0) (id' : CallTag) :
    (s.onExeDone id).ahead id' = if id' = id then s.ahead id - 1 else s.ahead id' := by
  unfold ahead at h
  unfold onExeDone ahead
  cases hfind : s.exeSync.find id with
  | none =>
    rw [hfind] at h
    exact absurd rfl h
  | some it =>
    rw [OrdMap.find_modify, hfind]
    grind

theorem ahead_remove (id' : CallTag) :
    (s.remove id).2.ahead id' = if id' = id then 0 else s.ahead id' := by
  show ((s.exeSync.modify id _).find id').elim _ _ = _
  rw [OrdMap.find_modify]
  split_ifs with hid
  · cases s.exeSync.find id with
    | none => rfl
    | some it => exact UInt32.sub_self it.done
  · rfl

theorem ahead_removeAll (id : CallTag) : s.removeAll.ahead id = 0 := by
  show ((s.exeSync.mapValues _).find id).elim _ _ = _
  rw [OrdMap.find_mapValues]
  cases s.exeSync.find id with
  | none => rfl
  | some it => exact UInt32.sub_self it.done

theorem perm_insertContext (context : CallContext π) (queue : List (CallContext π)) :
    (insertContext context queue).Perm (context :: queue) := by
  induction queue with
  | nil => exact List.Perm.refl _
  | cons other rest ih =>
    unfold insertContext
    split_ifs
    · exact List.Perm.refl _
    · exact (ih.cons other).trans (List.Perm.swap _ _ _)

variable {queue : List (CallContext π)}

@[grind =] theorem mem_insertContext {context other : CallContext π} :
    other ∈ insertContext context queue ↔ other = context ∨ other ∈ queue :=
  (perm_insertContext context queue).mem_iff.trans mem_cons

/-- Where each tag occurs once, none of its calls is left when one has been erased. -/
theorem ne_of_mem_eraseP (h : (queue.map CallContext.id).Nodup)
    {context : CallContext π} (hmem : context ∈ queue.eraseP fun it => it.id = id) :
    context.id ≠ id := by
  induction queue with
  | nil => cases hmem
  | cons other rest ih => grind

def requeued (run : CallContext π) (later : Int) (queue : List (CallContext π)) :
    List (CallContext π) :=
  if 0 < run.dt then insertContext { run with tp := later + run.dt * 1000000 } queue else queue

theorem launch_eq (run : CallContext π) (later : Int) (queue : List (CallContext π)) :
    launch run later { s with queue } =
      { (if s.canExe run.id then s.onExeQueued run.id else s) with
        queue := requeued run later queue } := by
  have hcan : canExe { s with queue } run.id = s.canExe run.id := rfl
  unfold launch requeued
  rw [hcan]
  by_cases hexe : s.canExe run.id = true
  · have hqueued : onExeQueued run.id { s with queue } = { s.onExeQueued run.id with queue } := by
      cases hfind : s.exeSync.find run.id <;> simp only [onExeQueued, hfind]
    rw [if_pos hexe, if_pos hexe, hqueued]
    split_ifs <;> rfl
  · split_ifs <;> rfl

theorem ahead_launch (run : CallContext π) (later : Int) (queue : List (CallContext π))
    (id' : CallTag) :
    (launch run later { s with queue }).ahead id' =
      if id' = run.id ∧ s.ahead run.id = 0 then 1 else s.ahead id' := by
  rw [launch_eq]
  show (if s.canExe run.id then s.onExeQueued run.id else s).ahead id' = _
  grind [canExe_iff]

theorem mem_requeued {run context : CallContext π} {later : Int}
    (h : context ∈ requeued run later queue) :
    context ∈ queue ∨ run.id = context.id ∧ run.proc = context.proc := by
  grind [requeued]

theorem nodup_requeued {run : CallContext π} {later : Int}
    (h : ((run :: queue).map CallContext.id).Nodup) :
    ((requeued run later queue).map CallContext.id).Nodup := by
  unfold requeued
  split_ifs
  · exact ((perm_insertContext _ _).map CallContext.id).nodup_iff.mpr h
  · exact (nodup_cons.mp h).2

namespace System

variable {events : List Event} {s : System}

def Obeyed (events : List Event) : Prop :=
  events.Pairwise fun first second => ∀ call, first = .cancelled call → second ≠ .executed call

/-- The state after the events. A tag is idle, and its lambdas have all been cancelled, or busy with
the one lambda that has not. -/
structure Sound (events : List Event) (s : System) : Prop where
  known : ∀ context ∈ s.scheduler.queue ++ s.callsQueue, s.calls[context.proc]? = some context.id
  old : ∀ call, .cancelled call ∈ events → call < s.calls.length
  tags : (s.scheduler.queue.map CallContext.id).Nodup
  gone : ∀ context ∈ s.scheduler.queue, .cancelled context.proc ∉ events
  stale : ∀ context ∈ s.callsQueue,
    (s.scheduler.ahead context.id = 0 ↔ .cancelled context.proc ∈ events)
  counters : ∀ id,
    (s.scheduler.ahead id = 0 ∧ ∀ context ∈ s.running, context.id ≠ id) ∨
    (s.scheduler.ahead id = 1 ∧
      (s.callsQueue ++ s.running).countP (fun context => context.id = id) = 1)
  obeyed : Obeyed events
  counts : ∀ call, .cancelled call ∉ events → events.count (.fired call) =
    events.count (.executed call) + (s.callsQueue.map CallContext.proc).count call

theorem sound_start : Sound [] {} where
  known := nofun
  old := nofun
  tags := nodup_nil
  gone := nofun
  stale := nofun
  counters := fun _ => .inl ⟨rfl, nofun⟩
  obeyed := List.Pairwise.nil
  counts := fun _ _ => rfl

section

variable (h : Sound events s)

include h

theorem Sound.requeue {queue : List (CallContext Nat)}
    (hmem : ∀ context ∈ queue, ∃ before ∈ s.scheduler.queue,
      before.id = context.id ∧ before.proc = context.proc)
    (htags : (queue.map CallContext.id).Nodup) :
    Sound events { s with scheduler := { s.scheduler with queue } } := by
  refine { h with known := ?_, tags := htags, gone := ?_ }
  · have hknown := h.known
    grind
  · have hgone := h.gone
    grind

theorem Sound.call (id : CallTag) :
    Sound events { s with calls := s.calls ++ [id] } := by
  refine { h with known := ?_, old := ?_ }
  · have hknown := h.known
    grind
  · have hold := h.old
    grind

theorem Sound.schedule {context : CallContext Nat}
    (hknown : s.calls[context.proc]? = some context.id) (hnew : .cancelled context.proc ∉ events)
    (hid : ∀ other ∈ s.scheduler.queue, other.id ≠ context.id) :
    Sound events { s with scheduler :=
      { s.scheduler with queue := insertContext context s.scheduler.queue } } := by
  refine { h with known := ?_, tags := ?_, gone := ?_ }
  · have hknown := h.known
    grind
  · refine ((perm_insertContext _ _).map CallContext.id).nodup_iff.mpr ?_
    have htags := h.tags
    grind
  · have hgone := h.gone
    grind

theorem Sound.insert (now waitFor : Int) (scheme : Launch)
    (replaceExisting : Bool) (id : CallTag) :
    Sound events { s with
      scheduler := (s.scheduler.insert now waitFor s.calls.length scheme replaceExisting id).2
      calls := s.calls ++ [id] } := by
  have hcalled := h.call id
  unfold CallsQueueScheduler.insert
  split_ifs
  · exact hcalled
  · have hsub : s.scheduler.queue.eraseP (fun it => it.id = id) ⊆ s.scheduler.queue :=
      eraseP_sublist.subset
    have herased := hcalled.requeue (fun context hcontext => ⟨context, hsub hcontext, rfl, rfl⟩)
      (h.tags.sublist (eraseP_sublist.map _))
    refine herased.schedule ?_ ?_ ?_
    · exact List.getElem?_concat_length
    · exact fun hcancelled => Nat.lt_irrefl _ (h.old _ hcancelled)
    · exact fun other hother => ne_of_mem_eraseP h.tags hother

theorem Sound.cancel {p : CallTag → Bool} {scheduler : CallsQueueScheduler Nat}
    (hqueue : scheduler.queue.Sublist s.scheduler.queue)
    (hleft : ∀ context ∈ scheduler.queue, p context.id = false)
    (hahead : ∀ id, scheduler.ahead id = if p id then 0 else s.scheduler.ahead id)
    (hidle : ∀ context ∈ s.running, p context.id = false) :
    Sound (events ++ (s.waiting p).map fun context => .cancelled context.proc)
      { s with scheduler } := by
  have hknown := h.known
  have hsub := hqueue.subset
  -- the calls that are cancelled now are those under the tags
  have hnew : ∀ context ∈ s.scheduler.queue ++ s.callsQueue,
      (.cancelled context.proc ∈ (s.waiting p).map fun context => Event.cancelled context.proc) ↔
        p context.id = true := by
    grind [waiting]
  have hcount : ∀ e : Event, (∀ call, e ≠ .cancelled call) →
      ((s.waiting p).map fun context => Event.cancelled context.proc).count e = 0 := by
    grind [count_eq_zero]
  constructor
  · grind
  · have hold := h.old
    grind [waiting]
  · exact h.tags.sublist (hqueue.map _)
  · have hgone := h.gone
    grind
  · have hstale := h.stale
    grind
  · have hcounters := h.counters
    grind
  · refine pairwise_append.mpr ⟨h.obeyed, ?_, ?_⟩
    · refine pairwise_map.mpr (pairwise_of_forall fun _ _ => ?_)
      exact fun call _ heq => Event.noConfusion heq
    · grind
  · have hcounts := h.counts
    grind

theorem Sound.remove (id : CallTag)
    (hidle : ∀ context ∈ s.running, context.id ≠ id) :
    Sound (events ++ (s.waiting (· = id)).map fun context => .cancelled context.proc)
      { s with scheduler := (s.scheduler.remove id).2 } := by
  refine h.cancel eraseP_sublist ?_ ?_ ?_
  · intro context hcontext
    exact decide_eq_false (ne_of_mem_eraseP h.tags hcontext)
  · intro id'
    rw [ahead_remove]
    simp only [decide_eq_true_eq]
  · intro context hcontext
    exact decide_eq_false (hidle context hcontext)

theorem Sound.removeAll (hidle : s.running = []) :
    Sound (events ++ (s.waiting fun _ => true).map fun context => .cancelled context.proc)
      { s with scheduler := s.scheduler.removeAll } := by
  refine h.cancel (nil_sublist _) ?_ ?_ ?_
  · exact nofun
  · exact fun id => ahead_removeAll id
  · rw [hidle]
    exact nofun

theorem Sound.push {run : CallContext Nat} (hrun : run ∈ s.scheduler.queue)
    (hcan : s.scheduler.ahead run.id = 0) (hfree : ∀ context ∈ s.callsQueue, context.id ≠ run.id) :
    Sound (events ++ [.fired run.proc])
      { s with
        scheduler := s.scheduler.onExeQueued run.id
        callsQueue := s.callsQueue ++ [run] } := by
  constructor
  · have hknown := h.known
    grind
  · have hold := h.old
    grind
  · rw [queue_onExeQueued]
    exact h.tags
  · have hgone := h.gone
    grind
  · have hstale := h.stale
    have hgone := h.gone
    grind
  · have hcounters := h.counters
    grind [countP_eq_zero]
  · refine pairwise_append.mpr ⟨h.obeyed, pairwise_singleton _ _, ?_⟩
    grind
  · have hcounts := h.counts
    grind

end

/-- No lambda waits under a tag that could be executed, among the calls whose time has come at one
of the readings. -/
def FreshTags (readings : List (Int × Int)) (s : System) : Prop :=
  ∀ context ∈ s.scheduler.queue, (∃ reading ∈ readings, context.tp - reading.1 < minWaitFor) →
    s.scheduler.canExe context.id = true → ∀ other ∈ s.callsQueue, other.id ≠ context.id

theorem Sound.launch (h : Sound events s) {run : CallContext Nat} {queue : List (CallContext Nat)}
    (hqueue : s.scheduler.queue = run :: queue) (later : Int)
    (hfree : s.scheduler.canExe run.id = true → ∀ other ∈ s.callsQueue, other.id ≠ run.id) :
    Sound (events ++ (if s.scheduler.canExe run.id then [run] else []).map fun c => .fired c.proc)
      { s with
        scheduler := CallsQueueScheduler.launch run later { s.scheduler with queue }
        callsQueue := s.callsQueue ++ if s.scheduler.canExe run.id then [run] else [] } := by
  have hrun : run ∈ s.scheduler.queue := hqueue ▸ mem_cons_self
  have hmem : ∀ context ∈ requeued run later queue, ∃ before ∈ s.scheduler.queue,
      before.id = context.id ∧ before.proc = context.proc := by
    intro context hcontext
    rcases mem_requeued hcontext with hmem | hsame
    · exact ⟨context, hqueue ▸ mem_cons_of_mem run hmem, rfl, rfl⟩
    · exact ⟨run, hrun, hsame⟩
  have htags : ((requeued run later queue).map CallContext.id).Nodup := by
    have hnodup := h.tags
    rw [hqueue] at hnodup
    exact nodup_requeued hnodup
  rw [launch_eq]
  by_cases hcan : s.scheduler.canExe run.id = true
  · rw [if_pos hcan, if_pos hcan]
    refine (h.push hrun (canExe_iff.mp hcan) (hfree hcan)).requeue ?_ htags
    rw [queue_onExeQueued]
    exact hmem
  · rw [if_neg hcan, if_neg hcan, map_nil, append_nil, append_nil]
    exact h.requeue hmem htags

theorem FreshTags.launch (h : Sound events s) {now later : Int} {readings : List (Int × Int)}
    (hfresh : FreshTags ((now, later) :: readings) s) {run : CallContext Nat}
    {queue : List (CallContext Nat)} (hqueue : s.scheduler.queue = run :: queue) :
    FreshTags readings { s with
      scheduler := CallsQueueScheduler.launch run later { s.scheduler with queue }
      callsQueue := s.callsQueue ++ if s.scheduler.canExe run.id then [run] else [] } := by
  have htags := h.tags
  rw [hqueue] at htags
  intro context hcontext hdue hcan other hother
  rw [canExe_iff] at hcan
  rw [ahead_launch] at hcan
  rw [launch_eq] at hcontext
  split_ifs at hcan with hboth
  · exact absurd hcan (by decide)
  rcases mem_requeued hcontext with hmem | ⟨hid, -⟩
  · have hne : run.id ≠ context.id := fun heq =>
      (nodup_cons.mp htags).1 (heq ▸ mem_map_of_mem hmem)
    obtain ⟨reading, hreading, hlt⟩ := hdue
    rcases mem_append.mp hother with hother | hother
    · exact hfresh context (hqueue ▸ mem_cons_of_mem run hmem)
        ⟨reading, mem_cons_of_mem _ hreading, hlt⟩ (canExe_iff.mpr hcan) other hother
    · split_ifs at hother
      · rw [mem_singleton.mp hother]
        exact hne
      · cases hother
  · exact absurd ⟨hid.symm, hid ▸ hcan⟩ hboth

theorem Sound.fire (readings : List (Int × Int)) : ∀ {events : List Event} {s : System}
    {fired : List (CallContext Nat)} {scheduler : CallsQueueScheduler Nat}, Sound events s →
    FreshTags readings s → s.scheduler.schedulerProc readings = some (fired, scheduler) →
    Sound (events ++ fired.map fun run => .fired run.proc)
      { s with scheduler, callsQueue := s.callsQueue ++ fired } := by
  induction readings with
  | nil =>
    intro events s fired scheduler h _ hproc
    unfold schedulerProc at hproc
    split_ifs at hproc
    cases hproc
    rw [map_nil, append_nil, append_nil]
    exact h
  | cons reading readings ih =>
    intro events s fired scheduler h hfresh hproc
    obtain ⟨now, later⟩ := reading
    unfold schedulerProc at hproc
    cases hqueue : s.scheduler.queue with
    | nil =>
      rw [hqueue] at hproc
      cases hproc
      rw [map_nil, append_nil, append_nil]
      exact h
    | cons run queue =>
      rw [hqueue] at hproc
      dsimp only at hproc
      by_cases hearly : minWaitFor ≤ run.tp - now
      · rw [if_pos hearly] at hproc
        cases hproc
        rw [map_nil, append_nil, append_nil]
        exact h
      · rw [if_neg hearly] at hproc
        obtain ⟨⟨rest, scheduler'⟩, hrest, heq⟩ := Option.map_eq_some_iff.mp hproc
        cases heq
        have hrun : s.scheduler.canExe run.id = true → ∀ other ∈ s.callsQueue, other.id ≠ run.id :=
          hfresh run (hqueue ▸ mem_cons_self)
            ⟨(now, later), mem_cons_self, Int.not_le.mp hearly⟩
        have hround := ih (h.launch hqueue later hrun) (hfresh.launch h hqueue) hrest
        rw [map_append, ← append_assoc, ← append_assoc]
        exact hround

theorem perm_eraseIdx {α : Type} {l : List α} {i : Nat} {a : α} (h : l[i]? = some a) :
    l.Perm (a :: l.eraseIdx i) := by
  obtain ⟨hlt, rfl⟩ := List.getElem?_eq_some_iff.mp h
  exact (getElem_cons_eraseIdx_perm hlt).symm

variable {index : Nat}

theorem Sound.confirm (h : Sound events s) {run : CallContext Nat}
    (hrun : s.callsQueue[index]? = some run) (hahead : s.scheduler.ahead run.id = 1) :
    Sound (events ++ [.executed run.proc])
      { s with callsQueue := s.callsQueue.eraseIdx index, running := s.running ++ [run] } := by
  have hperm := perm_eraseIdx hrun
  have hsub := eraseIdx_sublist s.callsQueue index
  have hlive : .cancelled run.proc ∉ events := by
    rw [← h.stale run (hperm.mem_iff.mpr mem_cons_self), hahead]
    decide
  constructor
  · have hknown := h.known
    grind
  · have hold := h.old
    grind
  · exact h.tags
  · have hgone := h.gone
    grind
  · have hstale := h.stale
    grind
  · intro id
    have hbefore := h.counters id
    have hcount := hperm.countP_eq fun context => context.id = id
    grind
  · refine pairwise_append.mpr ⟨h.obeyed, pairwise_singleton _ _, ?_⟩
    grind
  · intro call hcall
    have hcounts := h.counts call
    grind

theorem Sound.drop (h : Sound events s) {run : CallContext Nat}
    (hrun : s.callsQueue[index]? = some run) (hahead : s.scheduler.ahead run.id ≠ 1) :
    Sound events { s with callsQueue := s.callsQueue.eraseIdx index } := by
  have hperm := perm_eraseIdx hrun
  have hcancelled : .cancelled run.proc ∈ events := by
    have hcounters := h.counters run.id
    have hstale := h.stale run
    grind
  refine { h with known := ?_, stale := ?_, counters := ?_, counts := ?_ }
  · have hknown := h.known
    grind
  · have hstale := h.stale
    grind
  · have hcounters := h.counters
    have hcountP_eq := hperm.countP_eq
    grind
  · intro call hcall
    have hcounts := h.counts call hcall
    grind

theorem Sound.finish (h : Sound events s) {run : CallContext Nat}
    (hrun : s.running[index]? = some run) :
    Sound events { s with
      scheduler := s.scheduler.onExeDone run.id
      running := s.running.eraseIdx index } := by
  have hperm := perm_eraseIdx hrun
  have hsub := eraseIdx_sublist s.running index
  obtain ⟨hahead, hcount⟩ : s.scheduler.ahead run.id = 1 ∧ _ := (h.counters run.id).resolve_left
    fun hidle => hidle.2 run (hperm.mem_iff.mpr mem_cons_self) rfl
  rw [countP_append, hperm.countP_eq, countP_cons, if_pos (decide_eq_true rfl)] at hcount
  have hdone : ∀ id, (s.scheduler.onExeDone run.id).ahead id = _ :=
    ahead_onExeDone (by rw [hahead]; decide)
  rw [hahead] at hdone
  -- the procedure was the only one under its tag
  have hcalls : ∀ context ∈ s.callsQueue, context.id ≠ run.id := by
    have hzero : s.callsQueue.countP (fun context => context.id = run.id) = 0 := by omega
    exact fun context hcontext => by simpa using countP_eq_zero.mp hzero context hcontext
  have hrunning : ∀ context ∈ s.running.eraseIdx index, context.id ≠ run.id := by
    have hzero : (s.running.eraseIdx index).countP (fun context => context.id = run.id) = 0 := by
      omega
    exact fun context hcontext => by simpa using countP_eq_zero.mp hzero context hcontext
  refine { h with stale := ?_, counters := ?_ }
  · have hstale := h.stale
    grind
  · intro id
    have hbefore := h.counters id
    have hcount := hperm.countP_eq fun context => context.id = id
    grind

/-- A tag is removed while none of its procedures is running, and the worker finds no lambda under a
tag that can be executed. -/
def Undisturbed : Op → System → Prop
  | .remove id, s => ∀ context ∈ s.running, context.id ≠ id
  | .removeAll, s => s.running = []
  | .fire readings, s => FreshTags readings s
  | _, _ => True

theorem Sound.step {op : Op} {shown : List Event} {t : System} (h : Sound events s)
    (hop : Undisturbed op s) (hstep : step op s = some (shown, t)) : Sound (events ++ shown) t := by
  cases op with
  | insert now waitFor scheme replaceExisting id =>
    cases hstep
    rw [append_nil]
    exact h.insert now waitFor scheme replaceExisting id
  | remove id =>
    cases hstep
    exact h.remove id hop
  | removeAll =>
    cases hstep
    exact h.removeAll hop
  | fire readings =>
    obtain ⟨⟨fired, scheduler⟩, hproc, heq⟩ := Option.map_eq_some_iff.mp hstep
    cases heq
    exact h.fire readings hop hproc
  | start index =>
    obtain ⟨run, hrun, heq⟩ := Option.map_eq_some_iff.mp hstep
    split_ifs at heq with hconfirm
    · cases heq
      exact h.confirm hrun (confirmExe_iff.mp hconfirm)
    · cases heq
      rw [append_nil]
      exact h.drop hrun (confirmExe_iff.not.mp hconfirm)
  | finish index =>
    obtain ⟨run, hrun, heq⟩ := Option.map_eq_some_iff.mp hstep
    cases heq
    rw [append_nil]
    exact h.finish hrun

theorem Sound.exists_of_busy (h : Sound events s) {id : CallTag}
    (hcan : s.scheduler.canExe id = false) :
    ∃ context ∈ s.callsQueue ++ s.running, context.id = id := by
  have hahead : s.scheduler.ahead id ≠ 0 := by
    rw [ne_eq, ← canExe_iff, hcan]
    decide
  obtain ⟨hbusy, hcount⟩ := (h.counters id).resolve_left fun hidle => hahead hidle.1
  obtain ⟨context, hmem, hid⟩ := countP_pos_iff.mp (hcount ▸ Nat.one_pos)
  exact ⟨context, hmem, of_decide_eq_true hid⟩

/-- In a run that is not disturbed no call is executed once it has been cancelled, a tag is held up
only by a lambda of its own that has not been cancelled, and as soon as the `CallsQueue` is empty
all lambdas of the calls that have not been cancelled have been executed. -/
theorem cancelled_never_executed {ops : List Op} (hrun : run step ops {} = some (events, s))
    (hops : Along step Undisturbed ops {}) :
    Obeyed events ∧
      (∀ id, s.scheduler.canExe id = false → ∃ context : CallContext Nat, context.id = id ∧
        (context ∈ s.running ∨ context ∈ s.callsQueue ∧ .cancelled context.proc ∉ events)) ∧
      (s.callsQueue = [] → ∀ call, .cancelled call ∉ events →
        events.count (.executed call) = events.count (.fired call)) := by
  have h : Sound ([] ++ events) s :=
    run_invariant (fun _ _ _ _ _ h hop hstep => h.step hop hstep) sound_start hrun hops
  refine ⟨h.obeyed, fun id hcan => ?_, fun hempty call hcall => ?_⟩
  · obtain ⟨context, hmem, hid⟩ := h.exists_of_busy hcan
    have hstale := h.stale
    grind [canExe_iff]
  · have hcounts := h.counts call hcall
    rw [hempty] at hcounts
    exact hcounts.symm

instance instDecidableUndisturbed : ∀ op s, Decidable (Undisturbed op s)
  | .remove id, s => inferInstanceAs (Decidable (∀ context ∈ s.running, context.id ≠ id))
  | .removeAll, s => inferInstanceAs (Decidable (s.running = []))
  | .fire _, s => inferInstanceAs (Decidable (∀ context ∈ s.scheduler.queue, _))
  | .insert .., _ | .start _, _ | .finish _, _ => .isTrue trivial

/-- The first call is cancelled when it has been fired; its lambda is dropped before the second call
is fired. -/
def demoOps : List Op :=
  [.insert 0 10 .once false 7, .fire [(10, 10)], .remove 7, .start 0,
    .insert 20 10 .once false 7, .fire [(30, 30)], .start 0, .finish 0]

theorem cancelled_never_executed_two :
    ∃ events s, run step demoOps {} = some (events, s) ∧ Obeyed events ∧
      (∀ id, s.scheduler.canExe id = false → ∃ context : CallContext Nat, context.id = id ∧
        (context ∈ s.running ∨ context ∈ s.callsQueue ∧ .cancelled context.proc ∉ events)) ∧
      (s.callsQueue = [] → ∀ call, .cancelled call ∉ events →
        events.count (.executed call) = events.count (.fired call)) := by
  have hsome : (run step demoOps {}).isSome = true := by decide +kernel
  obtain ⟨⟨events, s⟩, hrun⟩ := Option.isSome_iff_exists.mp hsome
  exact ⟨events, s, hrun, cancelled_never_executed hrun (by decide +kernel)⟩

/-- A tag whose lambdas have all been executed can be executed again. -/
theorem canExe_of_executed {ops : List Op} (hrun : run step ops {} = some (events, s))
    (hops : Along step Undisturbed ops {}) (id : CallTag)
    (hexecuted : ∀ context ∈ s.callsQueue ++ s.running, context.id ≠ id) :
    s.scheduler.canExe id = true := by
  have h : Sound ([] ++ events) s :=
    run_invariant (fun _ _ _ _ _ h hop hstep => h.step hop hstep) sound_start hrun hops
  by_contra hcan
  obtain ⟨context, hmem, hid⟩ := h.exists_of_busy (Bool.not_eq_true _ ▸ hcan)
  exact hexecuted context hmem hid

theorem canExe_of_executed_demo :
    ∃ events s, run step demoOps {} = some (events, s) ∧ s.scheduler.canExe 7 = true := by
  have hsome : (run step demoOps {}).isSome = true := by decide +kernel
  have hnone : ∀ result ∈ run step demoOps {}, result.2.callsQueue ++ result.2.running = [] := by
    decide +kernel
  obtain ⟨⟨events, s⟩, hrun⟩ := Option.isSome_iff_exists.mp hsome
  refine ⟨events, s, hrun, canExe_of_executed hrun (by decide +kernel) 7 ?_⟩
  rw [hnone (events, s) hrun]
  exact nofun

/-- The procedure of a tag removes its tag and schedules itself again: when it has returned no
lambda is left, and the call that waits is never executed, whenever the worker takes it. -/
theorem reentrant_removal_blocks :
    (run step [.insert 0 10 .once false 7, .fire [(10, 10)], .start 0, .remove 7,
        .insert 20 10 .once false 7, .finish 0] {}).map
        (fun result => (result.2.scheduler.queue.map CallContext.id, result.2.callsQueue,
          result.2.running, result.2.scheduler.canExe 7)) = some ([7], [], [], false) := by
  decide +kernel

/-- If the second call is fired while the lambda of the first one waits, the first is executed and
the second is not. If the tag is removed while the procedure of the first runs, a later call is
taken and no lambda is made for it. -/
theorem stale_lambda_executed :
    (run step [.insert 0 10 .once false 7, .fire [(10, 10)], .remove 7,
        .insert 20 10 .once false 7, .fire [(30, 30)], .start 0, .finish 0, .start 0] {}).map
        (fun result => (result.1, result.2.callsQueue)) =
      some ([.fired 0, .cancelled 0, .fired 1, .executed 0], []) ∧
    (run step [.insert 0 10 .once false 7, .fire [(10, 10)], .start 0, .remove 7, .finish 0,
        .insert 20 10 .once false 7, .fire [(30, 30)]] {}).map
        (fun result => (result.1, result.2.scheduler.queue, result.2.callsQueue)) =
      some ([.fired 0, .executed 0], [], []) := by
  decide +kernel

end System

end CreditsNode.CallsQueueScheduler
