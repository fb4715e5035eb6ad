import Mathlib.Tactic.Ring
import Mathlib.Tactic.Linarith
import Mathlib.Data.List.AList
import Mathlib.Data.Finsupp.Weight

/-!
# Ledgers

A table of accounts gives a book: the finitely supported function from keys to balances. A posting
adds an amount to one account. The book after a computation is the book before it plus its postings,
and the total changes by the sum of the posted amounts.
-/

namespace Ledger

variable {κ ν : Type}

/-! ## Tables -/

section Tables

variable (v : ν → Int)

/-- The sum of all balances. -/
def total (m : AList fun _ : κ => ν) : Int := (m.entries.map fun e => v e.2).sum

/-- The balance of a key, zero if it has no account. -/
def balance [DecidableEq κ] (m : AList fun _ : κ => ν) (k : κ) : Int := ((m.lookup k).map v).getD 0

/-- The book of the entries of a table. -/
noncomputable def bookOf (l : List (Sigma fun _ : κ => ν)) : κ →₀ Int :=
  (l.map fun e => Finsupp.single e.1 (v e.2)).sum

noncomputable def book (m : AList fun _ : κ => ν) : κ →₀ Int := bookOf v m.entries

theorem degree_book (m : AList fun _ : κ => ν) : (book v m).degree = total v m := by
  unfold book bookOf total
  rw [map_list_sum, List.map_map]
  congr 1
  apply List.map_congr_left
  intro e _
  exact Finsupp.degree_single _ _

theorem bookOf_apply_of_notMem {l : List (Sigma fun _ : κ => ν)} {k : κ} (h : k ∉ l.keys) :
    bookOf v l k = 0 := by
  induction l with
  | nil => rfl
  | cons e l ih =>
    grind [bookOf, Finsupp.add_apply, Finsupp.single_eq_of_ne']

theorem book_apply [DecidableEq κ] (m : AList fun _ : κ => ν) (k : κ) :
    book v m k = balance v m k := by
  obtain ⟨l, hl⟩ := m
  change bookOf v l k = ((l.dlookup k).map v).getD 0
  induction l with
  | nil => rfl
  | cons e l ih =>
    grind [bookOf_apply_of_notMem, bookOf, Finsupp.add_apply, Finsupp.single_eq_same]

/-- Writing an account posts the difference to its old balance. -/
theorem book_insert [DecidableEq κ] (m : AList fun _ : κ => ν) (k : κ) (w : ν) :
    book v (m.insert k w) = book v m + Finsupp.single k (v w - balance v m k) := by
  ext j
  rw [Finsupp.add_apply, book_apply, book_apply, Finsupp.single_apply]
  by_cases h : k = j
  · subst h
    simp [balance]
  · rw [if_neg h, add_zero]
    unfold balance
    rw [AList.lookup_insert_ne (Ne.symm h)]

end Tables

/-! ## Postings -/

/-- The book of a list of postings. -/
noncomputable def post (ps : List (κ × Int)) : κ →₀ Int :=
  (ps.map fun p => Finsupp.single p.1 p.2).sum

@[simp] theorem post_nil : post ([] : List (κ × Int)) = 0 := rfl

@[simp] theorem post_cons (p : κ × Int) (ps : List (κ × Int)) :
    post (p :: ps) = Finsupp.single p.1 p.2 + post ps := rfl

@[simp] theorem post_append (ps qs : List (κ × Int)) : post (ps ++ qs) = post ps + post qs := by
  unfold post
  rw [List.map_append, List.sum_append]

theorem degree_post (ps : List (κ × Int)) : (post ps).degree = (ps.map Prod.snd).sum := by
  unfold post
  rw [map_list_sum, List.map_map]
  congr 1
  apply List.map_congr_left
  intro p _
  exact Finsupp.degree_single _ _

theorem post_apply [DecidableEq κ] (ps : List (κ × Int)) (k : κ) :
    post ps k = (ps.map fun p => if p.1 = k then p.2 else 0).sum := by
  induction ps with
  | nil => rfl
  | cons p ps ih => rw [post_cons, Finsupp.add_apply, Finsupp.single_apply, ih]; rfl

/-- Postings of nothing. -/
theorem post_zip_replicate_zero (ks : List κ) : post (ks.zip (List.replicate ks.length 0)) = 0 := by
  induction ks with
  | nil => rfl
  | cons k ks ih =>
    grind [post_cons]

end Ledger
