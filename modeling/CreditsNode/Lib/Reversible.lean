import CreditsNode.Lib.Effect

/-!
# Computations that add to an account

`Shifts` says that a computation adds a fixed amount to a quantity of the state, an element of a
commutative group, and keeps an invariant. A computation with a flag is `Reversible` when the flag
turns the added amount into its negative: running it both ways leaves the quantity as it was.
-/

namespace Effect

variable {ε σ α β V F : Type} [AddCommGroup V]

/-! ## Shifts -/

/-- From a state with `I`, the computation adds `d` to the quantity `v`, keeps `I` and returns a
result with `Q`; only faults in `E` stop it. -/
def Shifts (v : σ → V) (I : σ → Prop) (E : ε → Prop) (m : EStateM ε σ α) (d : V)
    (Q : α → Prop) : Prop :=
  ∀ s, I s → Wp m (fun e _ => E e) (fun a t => Q a ∧ I t ∧ v t = v s + d) s

namespace Shifts

variable {v : σ → V} {I : σ → Prop} {E : ε → Prop} {m : EStateM ε σ α} {d d' : V}

theorem pure {Q : α → Prop} {a : α} (h : Q a) : Shifts v I E (Pure.pure a) 0 Q := fun s hs =>
  .pure ⟨h, hs, (add_zero (v s)).symm⟩

theorem bind {P : α → Prop} {Q : β → Prop} {f : α → EStateM ε σ β} (hm : Shifts v I E m d P)
    (hf : ∀ a, P a → Shifts v I E (f a) d' Q) : Shifts v I E (m >>= f) (d + d') Q := by
  intro s hs
  refine .bind (hm s hs) ?_
  rintro a t ⟨ha, ht, hshift⟩
  refine .mono (hf a ha t ht) ?_
  rintro b u ⟨hb, hu, hshift'⟩
  exact ⟨hb, hu, by rw [hshift', hshift, add_assoc]⟩

theorem lift {x : Except ε α} {Q : α → Prop} (h : Yields x E Q) :
    Shifts v I E (Effect.lift x) 0 Q := fun s hs =>
  .lift (h.mono fun _ ha => ⟨ha, hs, (add_zero (v s)).symm⟩)

/-- More faults may be allowed. -/
theorem imp {E' : ε → Prop} {P Q : α → Prop} (hm : Shifts v I E m d P) (hE : ∀ e, E e → E' e)
    (hQ : ∀ a, P a → Q a) : Shifts v I E' m d Q := fun s hs =>
  (hm s hs).imp (fun e _ he => hE e he) fun a _ h => ⟨hQ a h.1, h.2⟩

end Shifts

/-! ## Reversible computations -/

/-- The amount that is added, or taken away by the inverse. -/
def signed (inverse : Bool) (d : V) : V := if inverse then -d else d

theorem signed_zero (inverse : Bool) : signed inverse (0 : V) = 0 := by
  cases inverse with
  | false => rfl
  | true => exact neg_zero

theorem signed_add (inverse : Bool) (d d' : V) :
    signed inverse (d + d') = signed inverse d + signed inverse d' := by
  cases inverse with
  | false => rfl
  | true => exact neg_add d d'

/-- Both directions of `m` return `r`, keep `I` and `frame`, and shift `v` by opposite amounts.
Where `r` is nothing, neither returns. -/
def Reversible (v : σ → V) (frame : σ → F) (I : σ → Prop) (E : ε → Prop)
    (m : Bool → EStateM ε σ α) : Prop :=
  ∃ (d : V) (r : Option α), ∀ inverse f, Shifts v (fun s => I s ∧ frame s = f)
    (fun e => r = none ∨ E e) (m inverse) (signed inverse d) (r = some ·)

namespace Reversible

variable {v : σ → V} {frame : σ → F} {I : σ → Prop} {E : ε → Prop} {m : Bool → EStateM ε σ α}

theorem pure (a : α) : Reversible v frame I E fun _ => (Pure.pure a : EStateM ε σ α) :=
  ⟨0, some a, fun inverse f => by rw [signed_zero]; exact .pure rfl⟩

/-- A computation that never returns, in either direction. -/
theorem never (h : ∀ inverse s, Returns (m inverse) (fun _ _ => False) s) :
    Reversible v frame I E m :=
  ⟨0, none, fun inverse _ s _ => (h inverse s).imp (fun _ _ _ => .inl rfl) fun _ _ h => h.elim⟩

variable {f : Bool → α → EStateM ε σ β}

theorem bind_of {P : α → Prop} (hm : Reversible v frame I E m)
    (hP : ∀ inverse s, Returns (m inverse) (fun a _ => P a) s)
    (hf : ∀ a, P a → Reversible v frame I E fun inverse => f inverse a) :
    Reversible v frame I E fun inverse => m inverse >>= f inverse := by
  obtain ⟨d, r, hm⟩ := hm
  by_cases hr : ∃ a, r = some a ∧ P a
  · obtain ⟨a, rfl, ha⟩ := hr
    obtain ⟨d', r', hf⟩ := hf a ha
    refine ⟨d + d', r', fun inverse g => ?_⟩
    rw [signed_add]
    have hfault : ∀ e, some a = none ∨ E e → r' = none ∨ E e := fun e he =>
      .inr (he.resolve_left (Option.some_ne_none a))
    refine ((hm inverse g).imp hfault fun _ h => h).bind fun b hb => ?_
    cases hb
    exact hf inverse g
  · -- no result has the property, so there is none
    refine ⟨d, none, fun inverse g s hs =>
      .bind ((((hm inverse g s hs).imp (fun _ _ _ => .inl rfl) fun _ _ h => h).and
        (hP inverse s))) ?_⟩
    rintro a t ⟨⟨ha, -⟩, hPa⟩
    exact absurd ⟨a, ha, hPa⟩ hr

theorem bind (hm : Reversible v frame I E m)
    (hf : ∀ a, Reversible v frame I E fun inverse => f inverse a) :
    Reversible v frame I E fun inverse => m inverse >>= f inverse :=
  hm.bind_of (P := fun _ => True) (fun _ _ => .any) fun a _ => hf a

/-- A step without a result. -/
theorem seq {m : Bool → EStateM ε σ Unit} {f : Bool → Unit → EStateM ε σ β}
    (hm : Reversible v frame I E m) (hf : Reversible v frame I E fun inverse => f inverse ()) :
    Reversible v frame I E fun inverse => m inverse >>= f inverse := hm.bind fun _ => hf

/-- A pure computation, which both directions run, and which stops both if it stops. -/
theorem lift_bind {x : Except ε α}
    (hf : ∀ a, x = .ok a → Reversible v frame I E fun inverse => f inverse a) :
    Reversible v frame I E fun inverse => Effect.lift x >>= f inverse := by
  cases x with
  | ok a => exact hf a rfl
  | error e => exact never fun _ _ => trivial

theorem ite {c : Prop} [Decidable c] {m' : Bool → EStateM ε σ α}
    (hm : c → Reversible v frame I E m) (hm' : ¬ c → Reversible v frame I E m') :
    Reversible v frame I E fun inverse => if c then m inverse else m' inverse := by
  by_cases h : c
  · simpa only [if_pos h] using hm h
  · simpa only [if_neg h] using hm' h

/-- After a run that has returned, the inverse returns with everything as it was before, unless it
stops with a fault in `E`. -/
theorem undo (hm : Reversible v frame I E m) {s t : σ} {a : α} (hs : I s)
    (hrun : m false s = .ok a t) : Wp (m true) (fun e _ => E e)
      (fun b u => b = a ∧ I u ∧ frame u = frame s ∧ v u = v s) t := by
  obtain ⟨d, r, hm⟩ := hm
  obtain ⟨hr, ⟨ht, hframe⟩, hshift⟩ := (hm false (frame s) s ⟨hs, rfl⟩).of_ok hrun
  refine (hm true (frame s) t ⟨ht, hframe⟩).imp ?_ ?_
  · intro e _ he
    exact he.resolve_left (hr ▸ Option.some_ne_none a)
  · rintro b u ⟨hb, ⟨hu, hframe'⟩, hshift'⟩
    refine ⟨Option.some.inj (hb.symm.trans hr), hu, hframe', ?_⟩
    rw [hshift', hshift]
    exact add_neg_cancel_right (v s) d

end Reversible

end Effect
