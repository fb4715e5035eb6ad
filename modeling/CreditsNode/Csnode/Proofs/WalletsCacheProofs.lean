import CreditsNode.Lib.Ledger
import CreditsNode.System.Proofs.CommonProofs
import CreditsNode.Csdb.Proofs.AmountDivisionProofs
import CreditsNode.Csnode.WalletsCache
import CreditsNode.Csdb.Proofs.SampleData

/-!
# What a block does to the balances

`Posts` describes a computation of the updater by the postings it makes to the ledger of the wallets
cache: while all amounts are normalised, it makes exactly these or stops at an `int` overflow. A
plain transfer posts its amount twice with opposite signs and takes the counted fee from the source;
the fees of a block are posted to the marked confidants, the last of whom gets what the division has
left over.
-/

namespace CreditsNode.WalletsCache

open ByteCodec Effect List Ledger

open AmountCommission (converted)

/-- The exact sum of all balances. -/
def total (s : WalletsCache) : Int := Ledger.total (fun data => data.balance.value) s.wallets

/-- The exact balance of a wallet, zero if there is none. -/
def balance (s : WalletsCache) (key : PublicKey) : Int :=
  Ledger.balance (fun data : WalletData => data.balance.value) s.wallets key

noncomputable def book (s : WalletsCache) : PublicKey →₀ Int :=
  Ledger.book (fun data => data.balance.value) s.wallets

def Normalized (s : WalletsCache) : Prop :=
  ∀ key data, s.findWallet key = some data → data.balance.Normalized

theorem balance_eq (s : WalletsCache) (key : PublicKey) :
    s.balance key = (s.wallet key).balance.value := by
  unfold balance Ledger.balance wallet findWallet
  cases s.wallets.lookup key with
  | none => rfl
  | some data => rfl

theorem Normalized.wallet {s : WalletsCache} (hs : s.Normalized) (key : PublicKey) :
    (s.wallet key).balance.Normalized := by
  unfold WalletsCache.wallet
  cases h : s.findWallet key with
  | none => exact Amount.normalized_zero
  | some data => exact hs key data h

theorem Normalized.setWallet {s : WalletsCache} (hs : s.Normalized) {key : PublicKey}
    {data : WalletData} (hd : data.balance.Normalized) : (s.setWallet key data).Normalized := by
  intro k d h
  unfold WalletsCache.setWallet findWallet at h
  by_cases hk : k = key
  · subst hk
    rw [AList.lookup_insert, Option.some.injEq] at h
    exact h ▸ hd
  · rw [AList.lookup_insert_ne hk] at h
    exact hs k d h

theorem book_setWallet (s : WalletsCache) (key : PublicKey) (data : WalletData) :
    (s.setWallet key data).book =
      s.book + Finsupp.single key (data.balance.value - (s.wallet key).balance.value) := by
  rw [← balance_eq]
  exact book_insert _ _ _ _

namespace Updater

/-- Only an overflow stops the computation. -/
def OnlyOverflow (e : Fault) (_ : WalletsCache) : Prop := e = .overflow

def Posts {α : Type} (m : UpdaterM α) (ps : List (PublicKey × Int)) (Q : α → Prop) : Prop :=
  ∀ s : WalletsCache, s.Normalized →
    Wp m OnlyOverflow (fun a t => Q a ∧ t.Normalized ∧ t.book = s.book + Ledger.post ps) s

namespace Posts

variable {α β : Type} {ps qs : List (PublicKey × Int)}

theorem pure {Q : α → Prop} {a : α} (h : Q a) : Posts (Pure.pure a) [] Q := by
  intro s hs
  exact .pure ⟨h, hs, by simp⟩

variable {Q : β → Prop} {f : α → UpdaterM β} {P : α → Prop}

theorem bind {m : UpdaterM α}
    (hm : Posts m ps P) (hf : ∀ a, P a → Posts (f a) qs Q) : Posts (m >>= f) (ps ++ qs) Q := by
  intro s hs
  refine .bind (hm s hs) ?_
  rintro a t ⟨ha, ht, hbook⟩
  refine .mono (hf a ha t ht) ?_
  grind [post_append]

theorem cons {m : UpdaterM α}
    {p : PublicKey × Int} (hm : Posts m [p] P) (hf : ∀ a, P a → Posts (f a) qs Q) :
    Posts (m >>= f) (p :: qs) Q := bind hm hf

theorem seq {m : UpdaterM Unit} {f : Unit → UpdaterM β}
    (hm : Posts m [] fun _ => True) (hf : Posts (f ()) qs Q) : Posts (m >>= f) qs Q :=
  bind hm fun _ _ => hf

theorem lift {x : Except Fault α} {Q : α → Prop} (h : Yields x (· = .overflow) Q) :
    Posts (Effect.lift x) [] Q := by
  intro s hs
  refine .lift ?_
  exact h.mono fun a ha => ⟨ha, hs, by simp⟩

theorem lift_bind {x : Except Fault α}
    (hx : Yields x (· = .overflow) P) (hf : ∀ a, P a → Posts (f a) qs Q) :
    Posts (Effect.lift x >>= f) qs Q := bind (lift hx) hf

theorem lift_ok {a : α} (h : Posts (f a) ps Q) : Posts (Effect.lift (.ok a) >>= f) ps Q := h

theorem get_bind {f : WalletsCache → UpdaterM β} (h : ∀ s, Posts (f s) ps Q) :
    Posts (MonadState.get >>= f) ps Q := fun s hs => .get_bind (h s s hs)

end Posts

variable {key : PublicKey} {env : LedgerEnv} {tr : Transaction} {n : Nat}

theorem posts_modifyWallet {f : WalletData → WalletData}
    (hf : ∀ data, (f data).balance = data.balance) :
    Posts (modifyWallet key f) [] fun _ => True := by
  intro s hs
  refine .modify ⟨trivial, ?_, ?_⟩
  · refine hs.setWallet ?_
    rw [hf]
    exact hs.wallet key
  · rw [book_setWallet, hf, sub_self, Finsupp.single_zero, post_nil]

theorem posts_getWalletData (key : PublicKey) :
    Posts (getWalletData key) [] fun _ => True := posts_modifyWallet fun _ => rfl

theorem posts_balance {op : Amount → Except Fault Amount} {x : Int} (hop : ∀ b, b.Normalized →
      Yields (op b) (· = .overflow) fun c => c.Normalized ∧ c.value = b.value + x) :
    Posts (do
      let s ← get
      let balance ← Effect.lift (op (s.wallet key).balance)
      modifyWallet key fun data => { data with balance }) [(key, x)] fun _ => True := by
  intro s hs
  refine .get_bind (.yields_bind (hop _ (hs.wallet key)) fun b ⟨hb, hval⟩ => ?_)
  refine .modify ⟨trivial, hs.setWallet hb, ?_⟩
  rw [book_setWallet, hval, add_sub_cancel_left, post_cons, post_nil, add_zero]

theorem posts_credit {x : Amount} (hx : x.Normalized) :
    Posts (credit false key x) [(key, x.value)] fun _ => True := by
  exact posts_balance fun _ hb => Amount.addAssign_spec hb (Amount.normalized_iff.mp hx).le

theorem posts_debit {x : Amount} (hx : x.Normalized) :
    Posts (debit false key x) [(key, -x.value)] fun _ => True := by
  exact posts_balance fun _ hb => Amount.subAssign_spec hb (Amount.normalized_iff.mp hx).le

/-- The conversion of the fee to an `Amount` succeeds. -/
def Converts (env : LedgerEnv) (fee : AmountCommission) : Prop := ∃ a, env.toAmount fee = some a

theorem Converts.amount {fee : AmountCommission} (h : Converts env fee) :
    ∃ a, env.amount fee = .ok a ∧ a.Normalized ∧ a.value = converted env.toAmount fee := by
  obtain ⟨a, ha⟩ := h
  refine ⟨a, ?_, env.toAmount_fraction _ a ha, ?_⟩
  · unfold LedgerEnv.amount
    rw [ha]
  · unfold converted
    rw [ha]
    rfl

/-- The exact fee that is counted for a transaction. -/
def feeValue (env : LedgerEnv) (tr : Transaction) : Int := converted env.toAmount tr.countedFee

/-- A transfer without contract fields, with a normalised amount. -/
structure IsTransfer (env : LedgerEnv) (tr : Transaction) : Prop where
  notExecutable : SmartContracts.isExecutable tr = false
  notNewState : SmartContracts.isNewState tr = false
  amount : tr.amount.Normalized
  fee : Converts env tr.countedFee

/-- Besides, its fee is not negative. -/
structure PlainTransfer (env : LedgerEnv) (tr : Transaction) : Prop extends IsTransfer env tr where
  fee_nonneg : 0 ≤ feeValue env tr

/-- What a transfer moves on the two wallets. -/
def transferPostings (env : LedgerEnv) (tr : Transaction) : List (PublicKey × Int) :=
  [(env.walletsIds.toPublicKey tr.target, tr.amount.value),
    (env.walletsIds.toPublicKey tr.source, -feeValue env tr),
    (env.walletsIds.toPublicKey tr.source, -tr.amount.value)]

theorem posts_loadTrxForTarget (h : tr.amount.Normalized) :
    Posts (loadTrxForTarget env tr false)
      [(env.walletsIds.toPublicKey tr.target, tr.amount.value)] fun _ => True := by
  refine .seq (posts_getWalletData _) ?_
  refine .cons (posts_credit h) fun _ _ => ?_
  refine .seq (posts_modifyWallet fun _ => rfl) ?_
  by_cases hne : tr.source = tr.target
  · simp only [hne, ne_eq, not_true_eq_false, if_false]
    exact .pure trivial
  · simp only [hne, ne_eq, not_false_eq_true, if_true]
    exact posts_modifyWallet fun _ => rfl

theorem posts_countSent :
    Posts (countSent key tr false) [] fun _ => True := posts_modifyWallet fun _ => rfl

theorem posts_loadTrxForSource_of {fee : Amount} (hnew : SmartContracts.isNewState tr = false)
    (hfee : env.amount (if SmartContracts.isExecutable tr then tr.maxFee else tr.countedFee) =
    .ok fee) (hnorm : fee.Normalized) (hamount : tr.amount.Normalized) :
    Posts (loadTrxForSource env tr false) [(env.walletsIds.toPublicKey tr.source, -fee.value),
        (env.walletsIds.toPublicKey tr.source, -tr.amount.value)] (· = tr.countedFee) := by
  have htail : Posts (do
      debit false (env.walletsIds.toPublicKey tr.source) fee
      debit false (env.walletsIds.toPublicKey tr.source) tr.amount
      countSent (env.walletsIds.toPublicKey tr.source) tr false
      pure tr.countedFee) [_, _] (· = tr.countedFee) :=
    .cons (posts_debit hnorm) fun _ _ => .cons (posts_debit hamount) fun _ _ =>
      .seq posts_countSent (.pure rfl)
  unfold loadTrxForSource
  simp only [hnew, Bool.false_eq_true, if_false, Bool.not_false, if_true, pure_bind]
  refine .seq (posts_getWalletData _) ?_
  split_ifs at hfee ⊢
  all_goals
    rw [hfee]
    exact .lift_ok htail

theorem posts_loadTrxForSource (h : IsTransfer env tr) :
    Posts (loadTrxForSource env tr false) [(env.walletsIds.toPublicKey tr.source, -feeValue env tr),
        (env.walletsIds.toPublicKey tr.source, -tr.amount.value)] (· = tr.countedFee) := by
  obtain ⟨fee, hfee, hnorm, hval⟩ := h.fee.amount
  change fee.value = feeValue env tr at hval
  rw [← hval]
  exact posts_loadTrxForSource_of h.notNewState (by rw [h.notExecutable]; exact hfee) hnorm h.amount

theorem posts_load (h : IsTransfer env tr) :
    Posts (load env tr false) (transferPostings env tr) (· = tr.countedFee) := by
  exact .cons (posts_loadTrxForTarget h.amount) fun _ _ => posts_loadTrxForSource h

theorem posts_loadTransactions {trs : List Transaction} {acc : Amount}
    (h : ∀ tr ∈ trs, IsTransfer env tr) (hacc : acc.Normalized) :
    Posts (loadTransactions env false trs acc) (trs.flatMap (transferPostings env)) fun fees =>
      fees.Normalized ∧ fees.value = acc.value + (trs.map (feeValue env)).sum := by
  induction trs generalizing acc with
  | nil => exact .pure ⟨hacc, by simp⟩
  | cons tr trs ih =>
    have htr := h tr mem_cons_self
    obtain ⟨fee, hfee, hnorm, hval⟩ := htr.fee.amount
    change fee.value = feeValue env tr at hval
    have hadd := Amount.addAssign_spec hacc (Amount.normalized_iff.mp hnorm).le
    unfold loadTransactions
    rw [flatMap_cons]
    refine .bind (posts_load htr) ?_
    rintro _ rfl
    rw [hfee]
    refine .lift_bind hadd ?_
    rintro acc' ⟨hacc', hsum⟩
    simp only [htr.notNewState, Bool.false_eq_true, if_false]
    have hrest := ih (fun tr' htr' => h tr' (mem_cons_of_mem _ htr')) hacc'
    rw [hsum, hval] at hrest
    rw [map_cons, sum_cons, ← add_assoc]
    exact hrest

def markedConfidants (confidants : List PublicKey) (realTrusted : Bytes) : List PublicKey :=
  match confidants, realTrusted with
  | confidant :: confidants, marker :: realTrusted =>
    if marker ≠ kUntrustedMarker then confidant :: markedConfidants confidants realTrusted
    else markedConfidants confidants realTrusted
  | _, _ => []

def shares (fee rest : Int) : Nat → List Int
  | 0 => []
  | 1 => [rest]
  | n + 2 => fee :: shares fee (rest - fee) (n + 1)

theorem length_shares (fee rest : Int) (n : Nat) : (shares fee rest n).length = n := by
  induction n generalizing rest with
  | zero => rfl
  | succ n ih =>
    cases n with
    | zero => rfl
    | succ n => rw [shares, length_cons, ih]

theorem sum_shares (fee rest : Int) (n : Nat) : (shares fee rest (n + 1)).sum = rest := by
  induction n generalizing rest with
  | zero => exact add_zero rest
  | succ n ih =>
    rw [shares, sum_cons, ih]
    ring

theorem shares_nonneg {fee rest : Int} (hfee : 0 ≤ fee) (h : fee * n ≤ rest) :
    ∀ x ∈ shares fee rest n, 0 ≤ x := by
  induction n generalizing rest with
  | zero =>
    intro x hx
    cases hx
  | succ n ih =>
    intro x hx
    push_cast at h
    have hn : 0 ≤ fee * n := by positivity
    cases n with
    | zero =>
      rw [shares, mem_singleton] at hx
      linarith
    | succ n =>
      grind [shares]

theorem shares_succ {fee rest : Int} (h : n = 0 → fee = rest) :
    shares fee rest (n + 1) = fee :: shares fee (rest - fee) n := by
  cases n with
  | zero => rw [h rfl]; rfl
  | succ n => rfl

theorem ofNat_succ_eq_iff {num : Nat} (hn : n ≤ 255) (h : num < n) :
    Int32.ofNat num + 1 = Int32.ofNat n - 1 ↔ num + 2 = n := by
  have hcast : ∀ k : Nat, k ≤ 255 → (Int32.ofNat k).toInt = k := fun k hk =>
    Int32.toInt_ofNat_of_lt (by omega)
  have hone : (1 : Int32).toInt = 1 := rfl
  have hl : (Int32.ofNat num + 1).toInt = num + 1 := by
    rw [Int32.toInt_add, hcast num (by omega), hone, Int.bmod_eq_of_le (by omega) (by omega)]
  have hr : (Int32.ofNat n - 1).toInt = n - 1 := by
    rw [Int32.toInt_sub, hcast n hn, hone, Int.bmod_eq_of_le (by omega) (by omega)]
  rw [← Int32.toInt_inj, hl, hr]
  omega

theorem posts_payConfidants {totalFee fee payed : Amount} {num : Nat}
    {confidants : List PublicKey} {realTrusted : Bytes} (hn : n ≤ 255)
    (htotal : totalFee.Normalized) (hfee : fee.Normalized) (hpayed : payed.Normalized)
    (hcount : num + (markedConfidants confidants realTrusted).length = n)
    (hlast : num + 1 = n → fee.value = totalFee.value - payed.value) :
    Posts (payConfidants totalFee (Int32.ofNat n) false confidants realTrusted fee payed
        (Int32.ofNat num)) ((markedConfidants confidants realTrusted).zip
        (shares fee.value (totalFee.value - payed.value)
          (markedConfidants confidants realTrusted).length)) fun _ => True := by
  induction confidants generalizing realTrusted fee payed num with
  | nil =>
    exact .pure trivial
  | cons confidant confidants ih =>
    cases realTrusted with
    | nil =>
      exact .pure trivial
    | cons marker realTrusted =>
      unfold payConfidants
      by_cases hm : marker ≠ kUntrustedMarker
      · have hmarked : markedConfidants (confidant :: confidants) (marker :: realTrusted) =
            confidant :: markedConfidants confidants realTrusted := by
          rw [markedConfidants, if_pos hm]
        rw [hmarked, length_cons] at hcount ⊢
        rw [if_pos hm, shares_succ (fun h0 => hlast (by omega)), zip_cons_cons]
        refine .seq (posts_getWalletData _) ?_
        refine .cons (posts_credit hfee) fun _ _ => ?_
        have hadd := Amount.addAssign_spec hpayed (Amount.normalized_iff.mp hfee).le
        refine .lift_bind hadd ?_
        rintro payed' ⟨hpayed', hval⟩
        have hstep : Int32.ofNat num + 1 = Int32.ofNat (num + 1) := by
          rw [Int32.ofNat_add]
          rfl
        have hrest : totalFee.value - payed.value - fee.value = totalFee.value - payed'.value := by
          rw [hval]
          ring
        rw [hrest]
        by_cases hl : num + 2 = n
        · -- the next confidant is the last one and gets the rest
          simp only [(ofNat_succ_eq_iff hn (by omega)).mpr hl, if_true]
          have hsub := Amount.sub_spec htotal (Amount.normalized_iff.mp hpayed').le
          refine .lift_bind hsub ?_
          rintro fee' ⟨hfee', hval'⟩
          have hone : (markedConfidants confidants realTrusted).length = 1 := by omega
          have hcount' : num + 1 + (markedConfidants confidants realTrusted).length = n := by omega
          have hih := ih hfee' hpayed' hcount' (fun _ => hval')
          rw [hone] at hih ⊢
          rw [← (ofNat_succ_eq_iff hn (by omega)).mpr hl, hstep]
          exact hih
        · have hne := (ofNat_succ_eq_iff hn (show num < n by omega)).not.mpr hl
          grind
      · have hmarked : markedConfidants (confidant :: confidants) (marker :: realTrusted) =
            markedConfidants confidants realTrusted := by
          rw [markedConfidants, if_neg hm]
        rw [hmarked] at hcount ⊢
        rw [if_neg hm]
        exact ih hfee hpayed hcount hlast

theorem length_markedConfidants {confidants : List PublicKey} {realTrusted : Bytes}
    (h : ∀ i marker, realTrusted[i]? = some marker → marker ≠ kUntrustedMarker →
      i < confidants.length) :
    (markedConfidants confidants realTrusted).length =
      realTrusted.countP fun marker => marker ≠ kUntrustedMarker := by
  induction confidants generalizing realTrusted with
  | nil =>
    have hnone : realTrusted.countP (fun marker => marker ≠ kUntrustedMarker) = 0 := by
      rw [countP_eq_zero]
      intro marker hmem
      obtain ⟨i, hi⟩ := mem_iff_getElem?.mp hmem
      grind
    rw [hnone]
    rfl
  | cons confidant confidants ih =>
    cases realTrusted with
    | nil =>
      rfl
    | cons marker realTrusted =>
      have hrec : (markedConfidants confidants realTrusted).length =
          realTrusted.countP fun marker => marker ≠ kUntrustedMarker :=
        ih fun i m hi hm => Nat.lt_of_succ_lt_succ (h (i + 1) m hi hm)
      grind [markedConfidants]

section Block

variable {env : LedgerEnv} {pool : Pool} {confidants : List PublicKey}

def paidConfidants (pool : Pool) (confidants : List PublicKey) : List PublicKey :=
  markedConfidants confidants (bitsToMask pool.numberTrusted pool.realTrusted)

/-- Some of the counted bits of the mask is set, and those that are stand beside a confidant. -/
structure HasPayees (pool : Pool) (confidants : List PublicKey) : Prop where
  marked : ∃ i < pool.numberTrusted.toNat, pool.realTrusted.toNat.testBit i
  inside : ∀ i < pool.numberTrusted.toNat, pool.realTrusted.toNat.testBit i → i < confidants.length

section

variable (h : HasPayees pool confidants)
include h

theorem length_paidConfidants :
    (paidConfidants pool confidants).length =
      (bitsToMask pool.numberTrusted pool.realTrusted).countP
        fun marker => marker ≠ kUntrustedMarker :=
  length_markedConfidants fun i marker hi hm => by
    have hlt : i < (bitsToMask pool.numberTrusted pool.realTrusted).length :=
      (List.getElem?_eq_some_iff.mp hi).1
    rw [length_bitsToMask] at hlt
    exact h.inside i hlt (testBit_of_getElem?_bitsToMask hi hm)

theorem length_paidConfidants_le : (paidConfidants pool confidants).length ≤ 255 := by
  have hle := countP_le_length (p := fun marker => marker ≠ kUntrustedMarker)
    (l := bitsToMask pool.numberTrusted pool.realTrusted)
  have hlt := pool.numberTrusted.toNat_lt
  rw [← length_paidConfidants h, length_bitsToMask] at hle
  omega

theorem length_paidConfidants_pos : 0 < (paidConfidants pool confidants).length := by
  obtain ⟨i, hi, hbit⟩ := h.marked
  rw [length_paidConfidants h, countP_pos_iff]
  refine ⟨0, ?_, by decide⟩
  rw [mem_iff_getElem?]
  refine ⟨i, ?_⟩
  rw [getElem?_bitsToMask hi, if_pos hbit]

theorem getRealTrustedNum_eq :
    getRealTrustedNum (bitsToMask pool.numberTrusted pool.realTrusted) =
      Int32.ofNat (paidConfidants pool confidants).length := by
  unfold getRealTrustedNum
  rw [length_paidConfidants h]

theorem toInt_getRealTrustedNum :
    (getRealTrustedNum (bitsToMask pool.numberTrusted pool.realTrusted)).toInt =
      (paidConfidants pool confidants).length := by
  have hle := length_paidConfidants_le h
  rw [getRealTrustedNum_eq h]
  exact Int32.toInt_ofNat_of_lt (by omega)

end

theorem posts_payConfidants_shares {totalFee fee : Amount} (htotal : totalFee.Normalized)
    (hfee : fee.Normalized) (h : HasPayees pool confidants)
    (hone : (paidConfidants pool confidants).length = 1 → fee = totalFee) :
    Posts (payConfidants totalFee
      (getRealTrustedNum (bitsToMask pool.numberTrusted pool.realTrusted))
        false confidants (bitsToMask pool.numberTrusted pool.realTrusted) fee 0 0)
      ((paidConfidants pool confidants).zip
        (shares fee.value totalFee.value (paidConfidants pool confidants).length))
          fun _ => True := by
  have hpay := posts_payConfidants (length_paidConfidants_le h) htotal hfee
    Amount.normalized_zero (Nat.zero_add _) (fun h1 => by
      rw [hone (h1.symm.trans (Nat.zero_add 1)), Amount.value_zero, sub_zero])
  rw [Amount.value_zero, sub_zero] at hpay
  rw [getRealTrustedNum_eq h]
  exact hpay

theorem posts_fundConfidantsWalletsWithFee {totalFee : Amount} (htotal : totalFee.Normalized)
    (hpos : 0 ≤ totalFee.value) (h : HasPayees pool confidants) :
    ∃ paid : List Int, paid.length = (paidConfidants pool confidants).length ∧
      (∀ x ∈ paid, 0 ≤ x) ∧ paid.sum = totalFee.value ∧
      Posts (fundConfidantsWalletsWithFee totalFee confidants
          (bitsToMask pool.numberTrusted pool.realTrusted) false)
        ((paidConfidants pool confidants).zip paid) fun _ => True := by
  obtain ⟨n, hn⟩ : ∃ n, (paidConfidants pool confidants).length = n + 1 :=
    Nat.exists_eq_succ_of_ne_zero (length_paidConfidants_pos h).ne'
  have hint := toInt_getRealTrustedNum h
  obtain ⟨fee, hdiv, hfee, hfee0, hmul, -, hone⟩ := Amount.div_spec
    (n := getRealTrustedNum (bitsToMask pool.numberTrusted pool.realTrusted)) (by omega) htotal hpos
  rw [hint] at hmul hone
  refine ⟨shares fee.value totalFee.value (paidConfidants pool confidants).length,
    length_shares _ _ _, shares_nonneg hfee0 hmul, ?_, ?_⟩
  · rw [hn]
    exact sum_shares _ _ _
  · have hne : ¬ confidants.length = 0 := by
      intro h0
      obtain ⟨i, hi, hbit⟩ := h.marked
      have := h.inside i hi hbit
      omega
    unfold fundConfidantsWalletsWithFee
    rw [if_neg hne]
    dsimp only
    rw [hdiv]
    exact .lift_ok (posts_payConfidants_shares htotal hfee h fun h1 => hone (by omega))

/-- What the marked confidants are paid: non-negative shares of the fees, none of which is left. -/
def PaysFees (env : LedgerEnv) (pool : Pool) (confidants : List PublicKey) (paid : List Int) :
    Prop :=
  paid.length = (paidConfidants pool confidants).length ∧ (∀ x ∈ paid, 0 ≤ x) ∧
    paid.sum = (pool.transactions.map (feeValue env)).sum

theorem wp_loadNextBlock {s : WalletsCache} (hs : s.Normalized)
    (hplain : ∀ tr ∈ pool.transactions, PlainTransfer env tr) (hpay : HasPayees pool confidants) :
    Wp (loadNextBlock env pool confidants false) OnlyOverflow (fun _ t => ∃ paid,
      PaysFees env pool confidants paid ∧ t.book = s.book +
        post (pool.transactions.flatMap (transferPostings env) ++
          (paidConfidants pool confidants).zip paid)) s := by
  refine .bind (posts_loadTransactions (fun tr htr => (hplain tr htr).toIsTransfer)
    Amount.normalized_zero s hs) ?_
  rintro fees t ⟨⟨hnorm, hval⟩, ht, hbook⟩
  rw [Amount.value_zero, zero_add] at hval
  have hpos : 0 ≤ fees.value := by
    rw [hval]
    apply sum_nonneg
    intro x hx
    obtain ⟨tr, htr, rfl⟩ := mem_map.mp hx
    exact (hplain tr htr).fee_nonneg
  by_cases hfees : fees.gt 0 = true
  · rw [if_pos hfees]
    obtain ⟨paid, hlen, hnonneg, hsum, hposts⟩ :=
      posts_fundConfidantsWalletsWithFee hnorm hpos hpay
    refine .mono (hposts t ht) ?_
    rintro _ u ⟨-, -, hbook'⟩
    refine ⟨paid, ⟨hlen, hnonneg, hsum.trans hval⟩, ?_⟩
    rw [hbook', hbook, post_append, add_assoc]
  · -- without fees nothing is distributed, as if every share were zero
    rw [if_neg hfees]
    have hzero : fees.value = 0 := by
      rw [Amount.gt_iff hnorm Amount.normalized_zero, Amount.value_zero, not_lt] at hfees
      omega
    have hpaid : ∀ x ∈ replicate (paidConfidants pool confidants).length (0 : Int), x = 0 :=
      fun x hx => eq_of_mem_replicate hx
    refine .pure ⟨replicate _ 0, ⟨length_replicate, ?_, ?_⟩, ?_⟩
    · intro x hx
      exact (hpaid x hx).ge
    · rw [sum_eq_zero hpaid, ← hval, hzero]
    · rw [hbook, post_append, post_zip_replicate_zero, add_zero]

/-- What a wallet receives in the transfers of a block. -/
def received (env : LedgerEnv) (trs : List Transaction) (key : PublicKey) : Int :=
  (trs.map fun tr =>
    if env.walletsIds.toPublicKey tr.target = key then tr.amount.value else 0).sum

/-- What a wallet spends in the transfers of a block: amounts and counted fees. -/
def spent (env : LedgerEnv) (trs : List Transaction) (key : PublicKey) : Int :=
  (trs.map fun tr =>
    if env.walletsIds.toPublicKey tr.source = key then tr.amount.value + feeValue env tr else 0).sum

def earned (pool : Pool) (confidants : List PublicKey) (paid : List Int) (key : PublicKey) : Int :=
  (((paidConfidants pool confidants).zip paid).map fun p => if p.1 = key then p.2 else 0).sum

theorem post_transfers_apply (trs : List Transaction) (key : PublicKey) :
    post (trs.flatMap (transferPostings env)) key =
      received env trs key - spent env trs key := by
  induction trs with
  | nil => rfl
  | cons tr trs ih =>
    grind [received, spent, transferPostings, post_apply]

theorem degree_post_transfers (trs : List Transaction) :
    (post (trs.flatMap (transferPostings env))).degree = -(trs.map (feeValue env)).sum := by
  induction trs with
  | nil => rfl
  | cons tr trs ih =>
    grind [degree_post, transferPostings]

/-- A block of plain transfers moves money and makes none: the transfers and the fees are booked
exactly, and the sum of all balances stays the same. -/
theorem loadNextBlock_conserves {s : WalletsCache} (hs : s.Normalized)
    (hplain : ∀ tr ∈ pool.transactions, PlainTransfer env tr)
    (hmark : ∃ i < pool.numberTrusted.toNat, pool.realTrusted.toNat.testBit i)
    (hinside : ∀ i, pool.realTrusted.toNat.testBit i → i < confidants.length)
    (hoverflow : ∀ t, loadNextBlock env pool confidants false s ≠ .error .overflow t) :
    ∃ t, loadNextBlock env pool confidants false s = .ok () t ∧ t.total = s.total ∧
      ∃ paid, PaysFees env pool confidants paid ∧ ∀ key, t.balance key =
        s.balance key + received env pool.transactions key - spent env pool.transactions key +
          earned pool confidants paid key := by
  have hwp := wp_loadNextBlock hs hplain ⟨hmark, fun i _ => hinside i⟩
  cases hrun : loadNextBlock env pool confidants false s with
  | error e t => exact absurd (hwp.of_error hrun ▸ hrun) (hoverflow t)
  | ok a t =>
    obtain ⟨paid, hpaid, hbook⟩ := hwp.of_ok hrun
    refine ⟨t, rfl, ?_, paid, hpaid, ?_⟩
    · have hdeg := congrArg Finsupp.degree hbook
      rw [post_append, map_add, map_add, degree_post_transfers, degree_post,
        map_snd_zip hpaid.1.le, hpaid.2.2, neg_add_cancel, add_zero] at hdeg
      unfold total
      rwa [← degree_book, ← degree_book]
    · intro key
      have hkey := congrArg (fun f => f key) hbook
      grind [post_transfers_apply, post_apply, balance, earned, book_apply, book,
        Finsupp.add_apply]

end Block

section Sample

/-- A node on which every fee is converted to `fee`. -/
def sampleEnv (fee : Amount) (h : fee.fraction < Amount.maxFraction) : LedgerEnv where
  walletsIds := .new
  loadBlock _ := .new
  toAmount _ := some fee
  toAmount_fraction _ _ ha := Option.some.inj ha ▸ h

def sampleBlock (transactions : List Transaction) (numberTrusted : UInt8) (realTrusted : UInt64) :
    Pool :=
  { Pool.new with transactions, numberTrusted, realTrusted }

/-- The sum of the balances after a run that returns. -/
def outcome (r : EStateM.Result Fault WalletsCache Unit) : Except Fault Int :=
  match r with
  | .ok _ t => .ok t.total
  | .error e _ => .error e

/-- The cache a run ends with. -/
def final (r : EStateM.Result Fault WalletsCache Unit) : WalletsCache :=
  match r with
  | .ok _ t => t
  | .error _ t => t

/-- Both parties of a transfer are confidants and share its fee of three units. -/
def sharedRun : EStateM.Result Fault WalletsCache Unit :=
  loadNextBlock (sampleEnv ⟨0, 3⟩ (by decide)) (sampleBlock [sampleTransfer 1 2 ⟨5, 0⟩] 2 3)
    [sampleKey 1, sampleKey 2] false .new

theorem outcome_sharedRun : outcome sharedRun = .ok 0 := by decide +kernel

theorem loadNextBlock_conserves_shared :
    ∃ t, sharedRun = .ok () t ∧ t.total = WalletsCache.new.total ∧
      ∃ paid, PaysFees (sampleEnv ⟨0, 3⟩ (by decide)) (sampleBlock [sampleTransfer 1 2 ⟨5, 0⟩] 2 3)
        [sampleKey 1, sampleKey 2] paid ∧ ∀ key, t.balance key = WalletsCache.new.balance key +
          received (sampleEnv ⟨0, 3⟩ (by decide)) [sampleTransfer 1 2 ⟨5, 0⟩] key -
          spent (sampleEnv ⟨0, 3⟩ (by decide)) [sampleTransfer 1 2 ⟨5, 0⟩] key +
          earned (sampleBlock [sampleTransfer 1 2 ⟨5, 0⟩] 2 3) [sampleKey 1,
            sampleKey 2] paid key := by
  apply loadNextBlock_conserves
  · intro key data h
    cases h
  · intro tr htr
    rw [mem_singleton.mp htr]
    exact ⟨⟨by decide, by decide, by decide, ⟨0, 3⟩, rfl⟩, by decide⟩
  · exact ⟨0, by decide, by decide⟩
  · intro i hi
    by_contra hle
    have hpow : 2 ^ 2 ≤ 2 ^ i := Nat.pow_le_pow_right (by decide) (Nat.le_of_not_lt hle)
    have hbit : Nat.testBit 3 i = false := Nat.testBit_lt_two_pow (by omega)
    exact absurd (hbit.symm.trans hi) (by decide)
  · intro t ht
    grind [outcome, sharedRun, outcome_sharedRun]

/-- A transfer of an amount whose fraction is not below one. -/
def improperRun : EStateM.Result Fault WalletsCache Unit :=
  loadNextBlock (sampleEnv 0 (by decide))
    (sampleBlock [sampleTransfer 1 2 ⟨0, 0xFFFFFFFFFFFFFFFF⟩] 1 1) [sampleKey 3] false .new

/-- A block that counts no trusted confidants, though its mask marks one. -/
def uncountedRun : EStateM.Result Fault WalletsCache Unit :=
  loadNextBlock (sampleEnv ⟨0, 3⟩ (by decide)) (sampleBlock [sampleTransfer 1 2 ⟨5, 0⟩] 0 1)
    [sampleKey 3] false .new

/-- Three wallets pay a fee of a billion each. -/
def expensiveRun : EStateM.Result Fault WalletsCache Unit :=
  loadNextBlock (sampleEnv ⟨1000000000, 0⟩ (by decide))
    (sampleBlock [sampleTransfer 1 4 0, sampleTransfer 2 4 0, sampleTransfer 3 4 0] 1 1)
    [sampleKey 5] false .new

/-- Improper fractions change the sum of the balances, a mask that is longer than the number of
trusted confidants leaves nobody to pay, and the sum of the fees can overflow while no balance
does. -/
theorem loadNextBlock_not_conserving :
    WalletsCache.new.total = 0 ∧ outcome improperRun = .ok 18446744073709551616 ∧
      outcome uncountedRun = .error (.exception "Amount division by zero") ∧
      outcome expensiveRun = .error .overflow ∧
      ∀ e ∈ (final expensiveRun).wallets.entries,
        -1000000000 * Amount.unit ≤ e.2.balance.value ∧ e.2.balance.value ≤ 0 := by
  decide +kernel

end Sample

end Updater

end CreditsNode.WalletsCache
