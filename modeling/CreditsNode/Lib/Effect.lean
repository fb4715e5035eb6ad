import Mathlib.Tactic.Ring
import Mathlib.Tactic.Linarith

/-!
# Computations that can stop

A C++ computation on a state either returns or stops, at undefined behaviour or with an exception
that leaves the state as it was then. It is modelled in `EStateM Fault σ`, and a pure computation in
`Except Fault`. `Yields` and `Wp` state what holds of the result and which faults are allowed; each
construct of a `do` block has its rule.
-/

namespace Effect

/-- Why a computation has no result. -/
inductive Fault where
  /-- Overflow of a signed integer. -/
  | overflow
  | undefined
  /-- A thrown exception, with its text. -/
  | exception (what : String)
  /-- The bound on the number of loop iterations was reached. -/
  | outOfFuel
deriving DecidableEq, Repr

variable {ε σ α β : Type}

/-! ## Pure computations -/

/-- `x` returns a value with `Q`, or stops with a fault that `E` allows. -/
def Yields (x : Except ε α) (E : ε → Prop) (Q : α → Prop) : Prop :=
  match x with
  | .ok a => Q a
  | .error e => E e

namespace Yields

variable {E : ε → Prop} {x : Except ε α}

variable {Q : α → Prop}

theorem pure {a : α} (h : Q a) : Yields (Pure.pure a : Except ε α) E Q := h

theorem bind {P : α → Prop} {Q : β → Prop} {f : α → Except ε β} (hx : Yields x E P)
    (hf : ∀ a, P a → Yields (f a) E Q) : Yields (x >>= f) E Q := by
  cases x with
  | ok a => exact hf a hx
  | error e => exact hx

theorem mono {P Q : α → Prop} (hx : Yields x E P) (h : ∀ a, P a → Q a) : Yields x E Q := by
  cases x with
  | ok a => exact h a hx
  | error e => exact hx

theorem ite {c : Prop} [Decidable c] {y : Except ε α} (hpos : c → Yields x E Q)
    (hneg : ¬c → Yields y E Q) : Yields (if c then x else y) E Q := by
  split_ifs with h
  · exact hpos h
  · exact hneg h

/-- An invariant of the body of a loop. -/
theorem foldlM {γ : Type} {f : β → γ → Except ε β} {I : β → Prop} {cs : List γ}
    (hstep : ∀ c ∈ cs, ∀ b, I b → Yields (f b c) E I) {b : β} (hb : I b) :
    Yields (cs.foldlM f b) E I := by
  induction cs generalizing b with
  | nil => exact hb
  | cons c cs ih =>
    refine (hstep c List.mem_cons_self b hb).bind fun _ => ih ?_
    exact fun c' h => hstep c' (List.mem_cons_of_mem c h)

/-- More faults may be allowed. -/
theorem imp {E' : ε → Prop} (hx : Yields x E Q) (h : ∀ e, E e → E' e) : Yields x E' Q := by
  cases x with
  | ok a => exact hx
  | error e => exact h e hx

/-- A value that has been computed has the property. -/
theorem of_ok {a : α} (hx : Yields x E Q) (h : x = .ok a) : Q a := by
  rw [h] at hx
  exact hx

theorem of_error {e : ε} (hx : Yields x E Q) (h : x = .error e) : E e := by
  rw [h] at hx
  exact hx

/-- A computation that cannot stop has a result. -/
theorem exists_ok (hx : Yields x E Q) (hE : ∀ e, ¬E e) : ∃ a, x = .ok a ∧ Q a := by
  cases x with
  | ok a => exact ⟨a, rfl, hx⟩
  | error e => exact absurd hx (hE e)

end Yields

theorem ok_bind (a : α) (f : α → Except ε β) : ((.ok a : Except ε α) >>= f) = f a := rfl

/-- A sequence that succeeds, taken apart. -/
theorem bind_eq_ok {x : Except ε α} {f : α → Except ε β} {b : β} (h : (x >>= f) = .ok b) :
    ∃ a, x = .ok a ∧ f a = .ok b := by
  cases x with
  | error e => cases h
  | ok a => exact ⟨a, rfl, h⟩

/-! ## Computations on a state -/

/-- Run a pure computation. -/
def lift (x : Except ε α) : EStateM ε σ α := fun s =>
  match x with
  | .ok a => .ok a s
  | .error e => .error e s

theorem lift_ok_bind (a : α) (f : α → EStateM ε σ β) : (lift (.ok a) >>= f) = f a := rfl

/-- A computation goes on from what its first part returns. -/
theorem bind_eq_of_ok {m : EStateM ε σ α} {f : α → EStateM ε σ β} {s t : σ} {a : α}
    (h : m s = .ok a t) : (m >>= f) s = f a t := by
  show EStateM.bind m f s = f a t
  unfold EStateM.bind
  rw [h]

theorem bind_eq_of_error {m : EStateM ε σ α} {f : α → EStateM ε σ β} {s t : σ} {e : ε}
    (h : m s = .error e t) : (m >>= f) s = .error e t := by
  show EStateM.bind m f s = .error e t
  unfold EStateM.bind
  rw [h]

instance monadLiftExcept : MonadLift (Except ε) (EStateM ε σ) := ⟨lift⟩

/-- Started in `s`, the computation `m` returns with `Q`, or stops with a fault that `E` allows. -/
def Wp (m : EStateM ε σ α) (E : ε → σ → Prop) (Q : α → σ → Prop) (s : σ) : Prop :=
  match m s with
  | .ok a t => Q a t
  | .error e t => E e t

/-- What holds of the state, whether `m` returns or stops. -/
abbrev Leaves (m : EStateM ε σ α) (P : σ → Prop) (s : σ) : Prop :=
  Wp m (fun _ t => P t) (fun _ t => P t) s

/-- What holds if `m` returns. -/
abbrev Returns (m : EStateM ε σ α) (Q : α → σ → Prop) (s : σ) : Prop := Wp m (fun _ _ => True) Q s

/-- The computation returns, with `Q`. -/
abbrev Succeeds (m : EStateM ε σ α) (Q : α → σ → Prop) (s : σ) : Prop := Wp m (fun _ _ => False) Q s

namespace Wp

variable {E : ε → σ → Prop} {m : EStateM ε σ α} {s : σ}

variable {Q : α → σ → Prop} {a : α}

theorem pure (h : Q a s) : Wp (Pure.pure a : EStateM ε σ α) E Q s := h

variable {f : α → EStateM ε σ β}

theorem bind {P : α → σ → Prop} {Q : β → σ → Prop} (hm : Wp m E P s)
    (hf : ∀ a t, P a t → Wp (f a) E Q t) : Wp (m >>= f) E Q s := by
  change (match EStateM.bind m f s with | .ok a t => Q a t | .error e t => E e t)
  unfold Wp at hm
  unfold EStateM.bind
  cases h : m s with
  | ok a t =>
    rw [h] at hm
    exact hf a t hm
  | error e t =>
    rw [h] at hm
    exact hm

theorem imp {E' : ε → σ → Prop} {P Q : α → σ → Prop} (hm : Wp m E P s) (hE : ∀ e t, E e t → E' e t)
    (hQ : ∀ a t, P a t → Q a t) : Wp m E' Q s := by
  unfold Wp at hm ⊢
  cases hs : m s with
  | ok a t =>
    rw [hs] at hm
    exact hQ a t hm
  | error e t =>
    rw [hs] at hm
    exact hE e t hm

theorem mono {P Q : α → σ → Prop} (hm : Wp m E P s) (h : ∀ a t, P a t → Q a t) : Wp m E Q s :=
  hm.imp (fun _ _ he => he) h

theorem leaves_mono {P Q : σ → Prop} (hm : Leaves m P s) (h : ∀ t, P t → Q t) : Leaves m Q s :=
  hm.imp (fun _ => h) fun _ => h

variable {t : σ}

/-- A computation whose outcome is known. -/
theorem of_eq_ok (h : m s = .ok a t) (hQ : Q a t) : Wp m E Q s := by
  unfold Wp
  rw [h]
  exact hQ

theorem bind_of_ok {Q : β → σ → Prop} (h : m s = .ok a t)
    (hf : Wp (f a) E Q t) : Wp (m >>= f) E Q s := by
  unfold Wp
  rw [bind_eq_of_ok h]
  exact hf

/-- What is known of the result from two arguments. -/
theorem and {P Q : α → σ → Prop} (hm : Wp m E P s) (hm' : Wp m (fun _ _ => True) Q s) :
    Wp m E (fun a t => P a t ∧ Q a t) s := by
  unfold Wp at hm hm' ⊢
  cases hs : m s with
  | ok a t =>
    rw [hs] at hm hm'
    exact ⟨hm, hm'⟩
  | error e t =>
    rw [hs] at hm
    exact hm

theorem modify {Q : PUnit → σ → Prop} {f : σ → σ} (h : Q ⟨⟩ (f s)) :
    Wp (modifyGet fun s => (PUnit.unit, f s) : EStateM ε σ PUnit) E Q s := h

theorem set {Q : PUnit → σ → Prop} (h : Q ⟨⟩ t) :
    Wp (MonadStateOf.set t : EStateM ε σ PUnit) E Q s := h

theorem set_bind {Q : β → σ → Prop} {f : PUnit → EStateM ε σ β} (h : Wp (f ⟨⟩) E Q t) :
    Wp ((MonadStateOf.set t : EStateM ε σ PUnit) >>= f) E Q s := h

theorem get_bind {Q : β → σ → Prop} {f : σ → EStateM ε σ β} (h : Wp (f s) E Q s) :
    Wp (MonadState.get >>= f) E Q s := h

theorem modify_bind {Q : β → σ → Prop} {g : σ → σ} {f : PUnit → EStateM ε σ β}
    (h : Wp (f ⟨⟩) E Q (g s)) :
    Wp ((modifyGet fun s => (PUnit.unit, g s) : EStateM ε σ PUnit) >>= f) E Q s := h

theorem throw {e : ε} (h : E e s) : Wp (MonadExcept.throw e : EStateM ε σ α) E Q s := h

theorem ite {c : Prop} [Decidable c] {m' : EStateM ε σ α} (hpos : c → Wp m E Q s)
    (hneg : ¬c → Wp m' E Q s) : Wp (if c then m else m') E Q s := by
  split_ifs with h
  · exact hpos h
  · exact hneg h

variable {x : Except ε α}

theorem lift (hx : Yields x (fun e => E e s) (fun a => Q a s)) :
    Wp (Effect.lift x : EStateM ε σ α) E Q s := by
  cases x with
  | ok a => exact hx
  | error e => exact hx

/-- A pure computation, by its outcome. -/
theorem lift_bind {Q : β → σ → Prop}
    (hok : ∀ a, x = .ok a → Wp (f a) E Q s) (herror : ∀ e, x = .error e → E e s) :
    Wp (Effect.lift x >>= f) E Q s := by
  cases x with
  | ok a => exact hok a rfl
  | error e => exact herror e rfl

/-- A pure computation, by what is known of its result. -/
theorem yields_bind {P : α → Prop} {Q : β → σ → Prop} (hx : Yields x (fun e => E e s) P)
    (hf : ∀ a, P a → Wp (f a) E Q s) : Wp (Effect.lift x >>= f) E Q s :=
  lift_bind (fun a ha => hf a (hx.of_ok ha)) fun _ he => hx.of_error he

/-- A pure computation whose result is known. -/
theorem lift_ok_bind {Q : β → σ → Prop} {b : α}
    (hx : x = .ok b) (h : Wp (f b) E Q s) : Wp (Effect.lift x >>= f) E Q s := by
  rw [hx]
  exact h

theorem forM_split {γ : Type} {f : γ → EStateM ε σ PUnit} {I : List γ → σ → Prop} {cs : List γ}
    (hs : I [] s) (hstep : ∀ done c rest, done ++ c :: rest = cs → ∀ s, I done s →
      Wp (f c) E (fun _ t => I (done ++ [c]) t) s) : Wp (cs.forM f) E (fun _ t => I cs t) s := by
  -- the induction is on what is left of the loop, with what has been done beside it
  have hrest : ∀ rest done, done ++ rest = cs → ∀ s, I done s →
      Wp (rest.forM f) E (fun _ t => I cs t) s := by
    intro rest
    induction rest with
    | nil =>
      intro done hsplit s hs
      rw [List.append_nil] at hsplit
      exact hsplit ▸ hs
    | cons c rest ih =>
      intro done hsplit s hs
      refine (hstep done c rest hsplit s hs).bind fun _ t ht => ?_
      exact ih (done ++ [c]) (by rw [List.append_assoc]; exact hsplit) t ht
  exact hrest cs [] rfl s hs

theorem forM {γ : Type} {f : γ → EStateM ε σ PUnit} {I : List γ → σ → Prop} {cs : List γ}
    (hs : I [] s)
    (hstep : ∀ done, ∀ c ∈ cs, ∀ s, I done s → Wp (f c) E (fun _ t => I (done ++ [c]) t) s) :
    Wp (cs.forM f) E (fun _ t => I cs t) s :=
  forM_split hs fun done c rest hsplit s => hstep done c (by simp [← hsplit]) s

/-- A loop with an accumulator. -/
theorem foldlM {γ : Type} {f : β → γ → EStateM ε σ β} {I : List γ → β → σ → Prop} {cs : List γ}
    {b : β} (hs : I [] b s) (hstep : ∀ done, ∀ c ∈ cs, ∀ b s, I done b s →
      Wp (f b c) E (fun a t => I (done ++ [c]) a t) s) :
    Wp (cs.foldlM f b) E (fun a t => I cs a t) s := by
  have hrest : ∀ rest done, rest ⊆ cs → ∀ b s, I done b s →
      Wp (rest.foldlM f b) E (fun a t => I (done ++ rest) a t) s := by
    intro rest
    induction rest with
    | nil =>
      intro done _ b s hs
      rw [List.append_nil]
      exact hs
    | cons c rest ih =>
      intro done hsub b s hs
      obtain ⟨hc, hsub⟩ := List.cons_subset.mp hsub
      rw [List.foldlM_cons, List.append_cons]
      exact (hstep done c hc b s hs).bind fun a t ht => ih (done ++ [c]) hsub a t ht
  exact hrest cs [] (List.Subset.refl cs) b s hs

theorem any : Wp m (fun _ _ => True) (fun _ _ => True) s := by
  unfold Wp
  cases m s <;> trivial

/-- A part of which nothing needs to be known. -/
theorem skip {Q : β → σ → Prop}
    (hf : ∀ a t, Wp (f a) (fun _ _ => True) Q t) : Wp (m >>= f) (fun _ _ => True) Q s :=
  any.bind fun a t _ => hf a t

/-- The outcome itself, as the strongest property. -/
theorem self : Wp m (fun e t => m s = .error e t) (fun a t => m s = .ok a t) s := by
  unfold Wp
  cases m s <;> rfl

/-- A computation that does not stop has a result. -/
theorem exists_ok_of (hm : Wp m E Q s) (hE : ∀ e t, E e t → m s ≠ .error e t) :
    ∃ a t, m s = .ok a t ∧ Q a t := by
  unfold Wp at hm
  cases hs : m s with
  | ok a t =>
    rw [hs] at hm
    exact ⟨a, t, rfl, hm⟩
  | error e t =>
    rw [hs] at hm
    exact absurd hs (hE e t hm)

theorem exists_ok (hm : Wp m (fun _ _ => False) Q s) :
    ∃ a t, m s = .ok a t ∧ Q a t := hm.exists_ok_of fun _ _ h => h.elim

/-- A result that has been computed has the property. -/
theorem of_ok (hm : Wp m E Q s) (h : m s = .ok a t) : Q a t := by
  unfold Wp at hm
  rwa [h] at hm

theorem of_error {e : ε} (hm : Wp m E Q s) (h : m s = .error e t) : E e t := by
  unfold Wp at hm
  rwa [h] at hm

end Wp

/-- A pure computation, if only what holds after it returns matters. -/
theorem Returns.lift_bind {x : Except ε α} {f : α → EStateM ε σ β} {Q : β → σ → Prop} {s : σ}
    (h : ∀ a, x = .ok a → Returns (f a) Q s) : Returns (lift x >>= f) Q s :=
  Wp.lift_bind h fun _ _ => trivial

/-! ## What a computation keeps -/

/-- Whether `m` returns or stops, the state is related to the one it was started in. -/
def Within (R : σ → σ → Prop) (m : EStateM ε σ α) : Prop := ∀ s, Leaves m (R s) s

namespace Within

variable {R : σ → σ → Prop} {m : EStateM ε σ α}

theorem wp (hm : Within R m) (s : σ) : Wp m (fun _ _ => True) (fun _ t => R s t) s :=
  (hm s).imp (fun _ _ _ => trivial) fun _ _ h => h

theorem modify {f : σ → σ} (h : ∀ s, R s (f s)) :
    Within R (modifyGet fun s => (PUnit.unit, f s) : EStateM ε σ PUnit) := h

/-- A part that depends on the state it starts in. -/
theorem get_bind {f : σ → EStateM ε σ β} (h : ∀ s, Leaves (f s) (R s) s) :
    Within R (MonadState.get >>= f) := h

theorem ite {c : Prop} [Decidable c] {m' : EStateM ε σ α} (hm : Within R m) (hm' : Within R m') :
    Within R (if c then m else m') := by
  split_ifs
  · exact hm
  · exact hm'

variable [IsPreorder σ R]

theorem pure (a : α) : Within R (Pure.pure a : EStateM ε σ α) := fun s => refl_of R s

theorem bind {f : α → EStateM ε σ β} (hm : Within R m) (hf : ∀ a, Within R (f a)) :
    Within R (m >>= f) := fun s =>
  .bind (hm s) fun a t hst => (hf a t).leaves_mono fun _ h => trans_of R hst h

/-- A part is run in a state that has been reached within `R`. -/
theorem leaves_bind {f : α → EStateM ε σ β} {P : σ → Prop} {s t : σ} (hm : Within R m) (hst : R s t)
    (hP : ∀ u, R s u → P u) (hf : ∀ a u, R s u → Leaves (f a) P u) : Leaves (m >>= f) P t :=
  .bind ((hm t).imp (fun _ _ h => hP _ (trans_of R hst h)) fun _ _ h => trans_of R hst h) hf

theorem get : Within R (MonadState.get : EStateM ε σ σ) := fun s => refl_of R s

theorem throw (e : ε) : Within R (MonadExcept.throw e : EStateM ε σ α) := fun s => refl_of R s

theorem lift (x : Except ε α) : Within R (Effect.lift x : EStateM ε σ α) := fun s => by
  cases x <;> exact refl_of R s

theorem forM {γ : Type} {f : γ → EStateM ε σ PUnit} (hf : ∀ c, Within R (f c)) (cs : List γ) :
    Within R (cs.forM f) := by
  induction cs with
  | nil => exact pure _
  | cons c cs ih => exact (hf c).bind fun _ => ih

theorem foldlM {γ : Type} {f : β → γ → EStateM ε σ β} (hf : ∀ b c, Within R (f b c)) (cs : List γ) :
    ∀ b, Within R (cs.foldlM f b) := by
  induction cs with
  | nil => exact fun b => pure b
  | cons c cs ih => exact fun b => (hf b c).bind fun b' => ih b'

end Within

end Effect
