import CreditsNode.Lib.Reversible
import Mathlib.Tactic.Abel

/-!
# Money that is held back

Some of the money that leaves the accounts of a state comes back in a later computation; what is
held back in between belongs to a record kept beside the state. `Carries` says that a computation
leads from one record to another, and what it adds to the quantity of the state and to the money
held back together.
-/

namespace Effect

variable {ε σ α β γ G V : Type} [AddCommGroup V]

/-- From a state with `I g`, the computation leads to one with `I g'`, and adds `d` to the quantity
and what is held together; only faults in `E` stop it. -/
def Carries (v : σ → V) (held : G → V) (I : G → σ → Prop) (E : ε → Prop) (m : EStateM ε σ α)
    (g g' : G) (d : V) (Q : α → Prop) : Prop :=
  ∀ s, I g s → Wp m (fun e _ => E e)
    (fun a t => Q a ∧ I g' t ∧ v t + held g' = v s + held g + d) s

/-- A sequence of steps, each with a label. -/
inductive Steps (step : G → γ → G → Prop) : G → List γ → G → Prop
  | nil (g : G) : Steps step g [] g
  | cons {g g' g'' : G} {c : γ} {cs : List γ} (head : step g c g') (tail : Steps step g' cs g'') :
      Steps step g (c :: cs) g''

theorem Steps.map {G' : Type} {step : G → γ → G → Prop} {step' : G' → γ → G' → Prop} (f : G → G')
    {g g' : G} {cs : List γ} (hstep : ∀ g c g', step g c g' → step' (f g) c (f g'))
    (h : Steps step g cs g') : Steps step' (f g) cs (f g') := by
  induction h with
  | nil g => exact .nil (f g)
  | cons head tail ih => exact .cons (hstep _ _ _ head) ih

namespace Carries

variable {v : σ → V} {held : G → V} {I : G → σ → Prop} {E : ε → Prop} {m : EStateM ε σ α}
  {g g' g'' : G} {d d' : V}

variable {Q : α → Prop}

/-- A computation that holds nothing back and releases nothing. -/
theorem of_shifts (hm : Shifts v (I g) E m d Q) : Carries v held I E m g g d Q := by
  intro s hs
  refine (hm s hs).mono ?_
  rintro a t ⟨ha, ht, hshift⟩
  exact ⟨ha, ht, by rw [hshift, add_right_comm]⟩

theorem bind {P : α → Prop} {Q : β → Prop} {f : α → EStateM ε σ β}
    (hm : Carries v held I E m g g' d P) (hf : ∀ a, P a → Carries v held I E (f a) g' g'' d' Q) :
    Carries v held I E (m >>= f) g g'' (d + d') Q := by
  intro s hs
  refine .bind (hm s hs) ?_
  rintro a t ⟨ha, ht, hmoved⟩
  refine (hf a ha t ht).mono ?_
  rintro b u ⟨hb, hu, hmoved'⟩
  exact ⟨hb, hu, by rw [hmoved', hmoved, add_assoc]⟩

/-- A step that adds nothing. -/
theorem bind_zero {P : α → Prop} {Q : β → Prop} {f : α → EStateM ε σ β}
    (hm : Carries v held I E m g g' 0 P) (hf : ∀ a, P a → Carries v held I E (f a) g' g'' d Q) :
    Carries v held I E (m >>= f) g g'' d Q := by
  have h := hm.bind hf
  rwa [zero_add] at h

theorem congr (hm : Carries v held I E m g g' d Q) (h : d = d') :
    Carries v held I E m g g' d' Q := h ▸ hm

/-- A computation that reads the state first. -/
theorem get_bind {Q : β → Prop} {f : σ → EStateM ε σ β}
    (hf : ∀ s, I g s → Carries v held I E (f s) g g' d Q) :
    Carries v held I E (MonadState.get >>= f) g g' d Q := fun s hs => .get_bind (hf s hs s hs)

/-- The record is brought up to date. -/
theorem relabel (hm : Carries v held I E m g g' d Q) (hI : ∀ s, I g' s → I g'' s) :
    Carries v held I E m g g'' (d + (held g'' - held g')) Q := by
  intro s hs
  refine (hm s hs).mono ?_
  rintro a t ⟨ha, ht, hmoved⟩
  refine ⟨ha, hI t ht, ?_⟩
  rw [← add_assoc, ← hmoved]
  abel

/-- Along a whole sequence of steps that add nothing. -/
theorem forM {step : G → γ → G → Prop} {f : γ → EStateM ε σ PUnit} {cs : List γ}
    (hstep : ∀ g c g', step g c g' → Carries v held I E (f c) g g' 0 fun _ => True)
    (h : Steps step g cs g') : Carries v held I E (cs.forM f) g g' 0 fun _ => True := by
  induction h with
  | nil g => exact of_shifts (.pure trivial)
  | cons head tail ih => exact (hstep _ _ _ head).bind_zero fun _ _ => ih

end Carries

end Effect
