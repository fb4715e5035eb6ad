import Mathlib.Tactic.Ring
import Mathlib.Tactic.Linarith
import Mathlib.Algebra.Order.BigOperators.Group.Finset

/-!
# Settlement of a set of transfers

The balance of an account under a set of transfers is what it had at first, less the costs of its
outgoing transfers, plus the amounts of its incoming ones. An account can be its own target.
-/

namespace Settlement

variable {κ : Type} [DecidableEq κ]

/-- Transfers, numbered. -/
structure Transfers (κ : Type) where
  source : ℕ → κ
  target : ℕ → κ
  amount : ℕ → ℤ
  cost : ℕ → ℤ

variable (ts : Transfers κ) (initial : κ → ℤ)

/-- What the transfer `i` changes for the account `k`. -/
def Transfers.effect (i : ℕ) (k : κ) : ℤ :=
  (if ts.target i = k then ts.amount i else 0) - (if ts.source i = k then ts.cost i else 0)

/-- The balance of the account `k` after the transfers of the set. -/
def balance (live : Finset ℕ) (k : κ) : ℤ := initial k + ∑ i ∈ live, ts.effect i k

variable {ts initial} {live : Finset ℕ} {i : ℕ}

theorem balance_insert (hi : i ∉ live) (k : κ) :
    balance ts initial (insert i live) k = balance ts initial live k + ts.effect i k := by
  unfold balance
  rw [Finset.sum_insert hi]
  ring

theorem balance_erase (hi : i ∈ live) (k : κ) :
    balance ts initial (live.erase i) k = balance ts initial live k - ts.effect i k := by
  unfold balance
  rw [← Finset.add_sum_erase live _ hi]
  ring

/-- An account without outgoing transfers has at least what it had at first. -/
theorem balance_nonneg {k : κ} (hinitial : 0 ≤ initial k) (hamount : ∀ i ∈ live, 0 ≤ ts.amount i)
    (hsource : ∀ i ∈ live, ts.source i ≠ k) : 0 ≤ balance ts initial live k := by
  refine add_nonneg hinitial (Finset.sum_nonneg fun i hi => ?_)
  unfold Transfers.effect
  grind

end Settlement
