import Mathlib.Tactic.Ring
import Mathlib.Tactic.Linarith

/-!
# Systems that show events

A system takes one operation after the other; each is enabled or not, and shows some events. A run
is given by its operations, so that every interleaving of several parties is one list. `Along` says
that a condition holds of each operation in the state that it meets.
-/

namespace EventSystem

variable {ω ε σ : Type}

/-- The events of a run and the state it leads to, unless an operation is not enabled. -/
def run (step : ω → σ → Option (List ε × σ)) : List ω → σ → Option (List ε × σ)
  | [], s => some ([], s)
  | op :: ops, s =>
    (step op s).bind fun first => (run step ops first.2).map fun rest => (first.1 ++ rest.1, rest.2)

/-- Each operation of the run meets the condition. -/
def Along (step : ω → σ → Option (List ε × σ)) (condition : ω → σ → Prop) : List ω → σ → Prop
  | [], _ => True
  | op :: ops, s => condition op s ∧ ∀ first ∈ step op s, Along step condition ops first.2

variable {step : ω → σ → Option (List ε × σ)} {condition : ω → σ → Prop}

instance decidableAlong [∀ op s, Decidable (condition op s)] :
    (ops : List ω) → (s : σ) → Decidable (Along step condition ops s)
  | [], _ => .isTrue trivial
  | op :: ops, s =>
    have : ∀ first : List ε × σ, Decidable (Along step condition ops first.2) := fun first =>
      decidableAlong ops first.2
    inferInstanceAs (Decidable (condition op s ∧ ∀ first ∈ step op s, _))

theorem run_cons_eq_some {op : ω} {ops : List ω} {s t : σ} {events : List ε}
    (h : run step (op :: ops) s = some (events, t)) :
    ∃ first u rest, step op s = some (first, u) ∧ run step ops u = some (rest, t) ∧
      events = first ++ rest := by
  obtain ⟨⟨first, u⟩, hfirst, h⟩ := Option.bind_eq_some_iff.mp h
  obtain ⟨⟨rest, v⟩, hrest, h⟩ := Option.map_eq_some_iff.mp h
  cases h
  exact ⟨first, u, rest, hfirst, hrest, rfl⟩

theorem run_invariant {I : List ε → σ → Prop}
    (hstep : ∀ op events s shown t, I events s → condition op s → step op s = some (shown, t) →
      I (events ++ shown) t) {ops : List ω} : ∀ {before s events t}, I before s →
      run step ops s = some (events, t) → Along step condition ops s → I (before ++ events) t := by
  induction ops with
  | nil =>
    intro before s events t hs hrun _
    cases hrun
    rw [List.append_nil]
    exact hs
  | cons op ops ih =>
    intro before s events t hs hrun halong
    obtain ⟨first, u, rest, hfirst, hrest, rfl⟩ := run_cons_eq_some hrun
    rw [← List.append_assoc]
    exact ih (hstep op before s first u hs halong.1 hfirst) hrest (halong.2 _ hfirst)

/-- A condition on the operations alone holds along every run of operations that meet it. -/
theorem along_of_forall {P : ω → Prop} {ops : List ω} (h : ∀ op ∈ ops, P op) :
    ∀ s, Along step (fun op _ => P op) ops s := by
  induction ops with
  | nil => exact fun _ => trivial
  | cons op ops ih =>
    intro s
    refine ⟨h op List.mem_cons_self, fun first _ => ?_⟩
    exact ih (fun op' hmem => h op' (List.mem_cons_of_mem _ hmem)) first.2

variable {condition' : ω → σ → Prop}

theorem Along.mono (himp : ∀ op s, condition op s → condition' op s)
    {ops : List ω} : ∀ {s}, Along step condition ops s → Along step condition' ops s := by
  induction ops with
  | nil => exact fun _ => trivial
  | cons op ops ih =>
    rintro s ⟨hop, hrest⟩
    exact ⟨himp op s hop, fun first hfirst => ih (hrest first hfirst)⟩

theorem Along.and {ops : List ω} : ∀ {s}, Along step condition ops s →
    Along step condition' ops s →
      Along step (fun op s => condition op s ∧ condition' op s) ops s := by
  induction ops with
  | nil => exact fun _ _ => trivial
  | cons op ops ih =>
    rintro s ⟨hop, hrest⟩ ⟨hop', hrest'⟩
    exact ⟨⟨hop, hop'⟩, fun first hfirst => ih (hrest first hfirst) (hrest' first hfirst)⟩

/-- Two conditions that agree where the invariant holds agree along every run, if the operations
that meet the second keep the invariant. -/
theorem along_congr {I : σ → Prop} (hiff : ∀ op s, I s → (condition op s ↔ condition' op s))
    (hstep : ∀ op s, I s → condition' op s → ∀ first ∈ step op s, I first.2) (ops : List ω) :
    ∀ s, I s → (Along step condition ops s ↔ Along step condition' ops s) := by
  induction ops with
  | nil => exact fun _ _ => Iff.rfl
  | cons op ops ih =>
    intro s hs
    constructor
    · rintro ⟨hop, hrest⟩
      have hop' := (hiff op s hs).mp hop
      exact ⟨hop', fun first hfirst =>
        (ih first.2 (hstep op s hs hop' first hfirst)).mp (hrest first hfirst)⟩
    · rintro ⟨hop, hrest⟩
      exact ⟨(hiff op s hs).mpr hop, fun first hfirst =>
        (ih first.2 (hstep op s hs hop first hfirst)).mpr (hrest first hfirst)⟩

/-! ## Systems that show nothing -/

/-- The system whose operations show no events. -/
def silent (step : ω → σ → Option σ) (op : ω) (s : σ) : Option (List Empty × σ) :=
  (step op s).map fun t => ([], t)

/-- The condition on the state that an operation leads to. -/
def After (step : ω → σ → Option σ) (P : σ → Prop) (op : ω) (s : σ) : Prop := ∀ t ∈ step op s, P t

instance decidableAfter {step : ω → σ → Option σ} {P : σ → Prop} [DecidablePred P] (op : ω)
    (s : σ) :
    Decidable (After step P op s) :=
  inferInstanceAs (Decidable (∀ t ∈ step op s, P t))

variable {step : ω → σ → Option σ}

theorem forall_mem_silent {op : ω} {s : σ} {P : σ → Prop}
    (h : After step P op s) : ∀ first ∈ silent step op s, P first.2 := by
  intro first hfirst
  obtain ⟨t, ht, rfl⟩ := Option.map_eq_some_iff.mp hfirst
  exact h t ht

theorem silent_invariant {condition : ω → σ → Prop} {I : σ → Prop}
    (hstep : ∀ op s t, I s → condition op s → step op s = some t → I t) {ops : List ω}
    {events : List Empty} {s t : σ} (hs : I s) (hrun : run (silent step) ops s = some (events, t))
    (halong : Along (silent step) condition ops s) : I t := by
  have hshown : ∀ op (before : List Empty) s shown t, I s → condition op s →
      silent step op s = some (shown, t) → I t := by
    intro op _ s shown t hs hop hsilent
    obtain ⟨u, hu, heq⟩ := Option.map_eq_some_iff.mp hsilent
    obtain ⟨-, rfl⟩ := Prod.mk.inj heq
    exact hstep op s u hs hop hu
  exact @run_invariant ω Empty σ (silent step) condition (fun _ s => I s) hshown ops
    [] s events t hs
    hrun halong

/-- What follows from an invariant holds after every operation of a run. -/
theorem along_after {I P : σ → Prop} (himp : ∀ s, I s → P s)
    (hstep : ∀ op s, I s → After step I op s) {s : σ} (hs : I s) (ops : List ω) :
    Along (silent step) (After step P) ops s := by
  have htrue : Along (silent step) (fun _ _ => True) ops s := along_of_forall (fun _ _ => trivial) s
  refine (along_congr (I := I) (fun op s hs => ?_) (fun op s hs _ => ?_) ops s hs).mpr htrue
  · exact iff_true_intro fun t ht => himp t (hstep op s hs t ht)
  · exact forall_mem_silent (hstep op s hs)

end EventSystem
