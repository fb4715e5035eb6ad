import Mathlib.Tactic.Ring
import Mathlib.Tactic.Linarith
import Mathlib.Data.List.Induction

/-!
# Journals

A journal lists movements of accounts in the order in which they were made. What becomes of an
account depends on its own movements only: they are applied one after another, and each can fail.
-/

namespace Journal

variable {κ α β ε : Type} [DecidableEq κ]

/-- The movements of the account `k`, in order. -/
def ofAccount (k : κ) (es : List (κ × α)) : List α := (es.filter fun e => e.1 = k).map Prod.snd

section OfAccount

variable {k : κ} {es fs : List (κ × α)} {e : κ × α}

@[simp] theorem ofAccount_nil : ofAccount k ([] : List (κ × α)) = [] := rfl

@[simp] theorem ofAccount_append : ofAccount k (es ++ fs) = ofAccount k es ++ ofAccount k fs := by
  unfold ofAccount
  rw [List.filter_append, List.map_append]

theorem ofAccount_cons :
    ofAccount k (e :: es) = if e.1 = k then e.2 :: ofAccount k es else ofAccount k es := by
  grind [ofAccount]

theorem mem_of_mem_ofAccount {a : α} (h : a ∈ ofAccount k es) : (k, a) ∈ es := by
  obtain ⟨e, he, rfl⟩ := List.mem_map.mp h
  obtain ⟨hmem, hk⟩ := List.mem_filter.mp he
  rw [decide_eq_true_eq] at hk
  subst hk
  exact hmem

end OfAccount

/-- What the journal makes of the account `k`, which is `b` at first. -/
def replay (op : β → α → Except ε β) (k : κ) (es : List (κ × α)) (b : β) : Except ε β :=
  (ofAccount k es).foldlM op b

section Replay

variable {op : β → α → Except ε β} {k : κ} {es fs : List (κ × α)} {b c d : β}

@[simp] theorem replay_nil : replay op k [] b = .ok b := rfl

theorem replay_singleton_self {a : α} : replay op k [(k, a)] b = op b a := by
  simp [replay, ofAccount_cons, ofAccount_nil]

theorem replay_singleton_of_ne {j : κ} {a : α} (h : j ≠ k) : replay op k [(j, a)] b = .ok b := by
  unfold replay
  rw [ofAccount_cons, if_neg h]
  rfl

/-- A journal goes on where another one has ended. -/
theorem replay_append (hes : replay op k es b = .ok c) (hfs : replay op k fs c = .ok d) :
    replay op k (es ++ fs) b = .ok d := by
  unfold replay at hes hfs ⊢
  rw [ofAccount_append, List.foldlM_append, hes]
  exact hfs

/-- An invariant of the movements of an account: `I` says what holds once some of them have been
applied. -/
theorem invariant_of_foldlM {I : List α → β → Prop} {as : List α} (hnil : I [] b)
    (hstep : ∀ done, ∀ a ∈ as, ∀ b c, I done b → op b a = .ok c → I (done ++ [a]) c)
    (h : as.foldlM op b = .ok c) : I as c := by
  induction as using List.reverseRecOn generalizing c with
  | nil =>
    cases h
    exact hnil
  | append_singleton as a ih =>
    rw [List.foldlM_append] at h
    cases hinit : as.foldlM op b with
    | error e =>
      rw [hinit] at h
      cases h
    | ok b' =>
      rw [hinit] at h
      have hlast : op b' a = .ok c := by
        have hone : [a].foldlM op b' = .ok c := h
        simpa only [List.foldlM_cons, List.foldlM_nil, bind_pure] using hone
      grind

theorem invariant {I : List α → β → Prop} (hnil : I [] b)
    (hstep : ∀ done a, (k, a) ∈ es → ∀ b c, I done b → op b a = .ok c → I (done ++ [a]) c)
    (h : replay op k es b = .ok c) : I (ofAccount k es) c :=
  invariant_of_foldlM hnil (fun done a ha => hstep done a (mem_of_mem_ofAccount ha)) h

end Replay

end Journal
