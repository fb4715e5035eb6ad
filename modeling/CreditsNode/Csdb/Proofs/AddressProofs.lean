import Mathlib.Data.List.Lex
import Mathlib.Data.UInt
import CreditsNode.Csdb.Transaction

/-!
# The order of addresses

`operator<` compares two wallet ids as numbers and every other pair by the bytes of the union, where
an id lies with its low byte first. The two ways agree on keys alone and on ids alone; a key among
ids can close a circle.
-/

namespace CreditsNode.Address

open ByteCodec

def bytes (a : Address) : Bytes := a.toPublicKey.toList

variable {a b : Address} {i j : WalletId} {key k : PublicKey}

@[simp] theorem lt_walletId : lt (walletId i) (walletId j) ↔ i.toNat < j.toNat :=
  decide_eq_true_iff.trans UInt32.lt_iff_toNat_lt

@[simp] theorem lt_publicKey : lt (publicKey key) b ↔ key.toList < b.bytes := by
  cases b <;> exact decide_eq_true_iff

@[simp] theorem lt_publicKey_right : lt a (publicKey key) ↔ a.bytes < key.toList := by
  cases a <;> exact decide_eq_true_iff

theorem eq_iff : eq a b ↔ a = b := by
  cases a with
  | publicKey key =>
    cases b with
    | publicKey k => rw [publicKey.injEq]; exact decide_eq_true_iff
    | walletId i => simp [eq, isPublicKey, isWalletId]
  | walletId i =>
    cases b with
    | publicKey k => simp [eq, isPublicKey, isWalletId]
    | walletId j => rw [walletId.injEq]; exact decide_eq_true_iff

/-- What a container keyed by addresses of `s` needs of the order: a strict weak order whose
equivalence is equality. -/
structure Ordered (s : Set Address) : Prop where
  irrefl : ∀ a ∈ s, ¬ lt a a
  trans : ∀ a ∈ s, ∀ b ∈ s, ∀ c ∈ s, lt a b → lt b c → lt a c
  incomparable : ∀ a ∈ s, ∀ b ∈ s, ¬ lt a b ∧ ¬ lt b a ↔ eq a b

/-- No key has the bytes of a number, and none stands between two numbers whose bytes are ordered
the other way round. -/
def Separated (s : Set Address) : Prop :=
  ∀ key i, publicKey key ∈ s → walletId i ∈ s → (walletId i).bytes ≠ key.toList ∧
    ∀ j, walletId j ∈ s → i.toNat < j.toNat → (walletId j).bytes < key.toList →
      ¬ key.toList < (walletId i).bytes

theorem Separated.trans {s : Set Address} (h : Separated s) :
    ∀ a ∈ s, ∀ b ∈ s, ∀ c ∈ s, lt a b → lt b c → lt a c := by
  -- a number enters a comparison in two ways only where it stands beside another number
  rintro (k₁ | i₁) h₁ (k₂ | i₂) h₂ (k₃ | i₃) h₃ hab hbc <;>
    simp only [lt_walletId, lt_publicKey, lt_publicKey_right] at hab hbc ⊢
  · exact hab.trans hbc
  · exact hab.trans hbc
  · exact hab.trans hbc
  · by_contra hnot
    have hbelow := (not_lt.mp hnot).lt_of_ne (h k₁ i₃ h₁ h₃).1
    exact (h k₁ i₂ h₁ h₂).2 i₃ h₃ hbc hbelow hab
  · exact hab.trans hbc
  · by_contra hnot
    have hne : i₃.toNat ≠ i₁.toNat :=
      fun heq => (hab.trans hbc).ne (UInt32.toNat_inj.mp heq ▸ rfl)
    exact (h k₂ i₃ h₂ h₃).2 i₁ h₁ ((not_lt.mp hnot).lt_of_ne hne) hab hbc
  · by_contra hnot
    have habove := (not_lt.mp hnot).lt_of_ne (h k₃ i₁ h₃ h₁).1.symm
    exact (h k₃ i₁ h₃ h₁).2 i₂ h₂ hab hbc habove
  · exact hab.trans hbc

theorem Separated.incomparable {s : Set Address} (h : Separated s) :
    ∀ a ∈ s, ∀ b ∈ s, ¬ lt a b ∧ ¬ lt b a ↔ eq a b := by
  rintro (k₁ | i₁) h₁ (k₂ | i₂) h₂ <;>
    simp only [eq_iff, lt_walletId, lt_publicKey, lt_publicKey_right, not_lt, and_comm]
  · rw [publicKey.injEq, ← List.Vector.toList_injective.eq_iff, le_antisymm_iff]
    rfl
  · simpa [← le_antisymm_iff] using (h k₁ i₂ h₁ h₂).1
  · simpa [← le_antisymm_iff] using (h k₂ i₁ h₂ h₁).1
  · rw [walletId.injEq, ← UInt32.toNat_inj, le_antisymm_iff]

/-- The order is one for a container keyed by addresses of `s` just when they are separated. -/
theorem ordered_iff (s : Set Address) : Ordered s ↔ Separated s := by
  constructor
  · intro h key i hkey hi
    refine ⟨fun heq => ?_, fun j hj hlt hbelow habove => ?_⟩
    · have hequal := (h.incomparable _ hkey _ hi).mp (by simp [heq])
      simp [eq_iff] at hequal
    · have hlow := h.trans _ hi _ hj _ hkey (lt_walletId.mpr hlt) (lt_publicKey_right.mpr hbelow)
      exact absurd (lt_publicKey_right.mp hlow) (lt_asymm habove)
  · intro h
    refine ⟨fun a ha => ?_, h.trans, h.incomparable⟩
    exact ((h.incomparable a ha a ha).mpr (eq_iff.mpr rfl)).1

/-- The numbers 1 and 256 are ordered as such, and a key between their bytes closes a circle. -/
theorem not_ordered : ¬ Ordered Set.univ := by
  intro h
  have hlow := h.trans (walletId 1) trivial (walletId 256) trivial
    (publicKey ⟨0 :: 2 :: List.replicate 30 0, rfl⟩) trivial (by decide) (by decide)
  exact absurd hlow (by decide)

end CreditsNode.Address
