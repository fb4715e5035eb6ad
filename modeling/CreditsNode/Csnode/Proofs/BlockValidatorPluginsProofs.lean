import CreditsNode.Csnode.BlockValidatorPlugins
import CreditsNode.System.Proofs.CommonProofs
import CreditsNode.Csdb.Proofs.SampleData
import Mathlib.Data.List.Dedup
import Mathlib.Data.List.Perm.Subperm

/-!
# What the checks of received blocks say

The two checks of the signatures of a block agree where the mask and its length fit the confidants.
The check of contract signatures counts neither the signatures nor their confidants.
-/

namespace CreditsNode

open ByteCodec NodeUtils List

namespace BlockSignaturesValidator

variable {crypto : Crypto} {block : Pool}

def groupSigned (crypto : Crypto) (block : Pool) : Bool :=
  checkGroupSignature crypto block.confidants (bitsToMask block.numberTrusted block.realTrusted)
    block.signatures (signedData crypto block)

/-- The mask has its bits within the confidants, and is as long as their list. -/
structure Fits (block : Pool) : Prop where
  confidants : block.confidants ≠ []
  atMost : block.confidants.length ≤ 64
  number : block.confidants.length = block.numberTrusted.toNat
  bits : popcount block.realTrusted =
    (List.range block.confidants.length).countP fun i => block.realTrusted.toNat.testBit i

theorem verifyMarked_eq (hash : Hash) (mask : UInt64) (confidants : List PublicKey) :
    ∀ (i : Nat) (signatures : List Signature), verifyMarked crypto hash confidants
      ((List.range' i confidants.length).map fun j =>
        if mask.toNat.testBit j then 0 else kUntrustedMarker) signatures =
      verifySigned crypto hash mask i confidants signatures := by
  induction confidants with
  | nil => exact fun i signatures => rfl
  | cons confidant confidants ih =>
    intro i signatures
    have hzero : (0 : UInt8) ≠ kUntrustedMarker := by decide
    by_cases hbit : mask.toNat.testBit i = true <;> cases signatures <;>
      simp [List.range'_succ, verifyMarked, verifySigned, hbit, hzero, ih]

theorem realTrustedValue_bitsToMask (size : UInt8) (value : UInt64) :
    realTrustedValue (bitsToMask size value) =
      (List.range size.toNat).countP fun i => value.toNat.testBit i := by
  have hzero : (0 : UInt8) ≠ kUntrustedMarker := by decide
  unfold realTrustedValue
  rw [bitsToMask_eq, countP_map]
  refine countP_congr fun i _ => ?_
  grind

theorem validateBlock_eq_noError : validateBlock crypto block = .noError ↔
    block.signatures.length = popcount block.realTrusted ∧ block.confidants.length ≤ 64 ∧
      verifySigned crypto (signedData crypto block) block.realTrusted 0 block.confidants
        block.signatures = true := by
  unfold validateBlock
  grind

theorem groupSigned_eq_true : groupSigned crypto block = true ↔
    block.confidants ≠ [] ∧ block.confidants.length = block.numberTrusted.toNat ∧
      block.signatures.length = ((List.range block.confidants.length).countP fun i =>
        block.realTrusted.toNat.testBit i) ∧
      verifySigned crypto (signedData crypto block) block.realTrusted 0 block.confidants
        block.signatures = true := by
  unfold groupSigned checkGroupSignature
  rw [realTrustedValue_bitsToMask, length_bitsToMask]
  by_cases hnumber : block.confidants.length = block.numberTrusted.toNat
  · rw [bitsToMask_eq, ← hnumber, range_eq_range', verifyMarked_eq]
    simp
    tauto
  · simp [hnumber]

theorem verifySigned_zero (hash : Hash) (mask : UInt64) (confidants : List PublicKey) :
    ∀ (i : Nat) (signatures : List Signature),
      ((List.range' i confidants.length).countP fun j => mask.toNat.testBit j) ≤ signatures.length →
      verifySigned Crypto.zero hash mask i confidants signatures = true := by
  induction confidants with
  | nil => exact fun _ _ _ => rfl
  | cons confidant confidants ih =>
    intro i signatures hlength
    rw [length_cons, range'_succ, countP_cons] at hlength
    unfold verifySigned
    split_ifs with hbit
    · rw [if_pos hbit] at hlength
      cases signatures with
      | nil => exact absurd hlength (Nat.not_succ_le_zero _)
      | cons s signatures =>
        exact ih (i + 1) signatures (Nat.le_of_succ_le_succ hlength)
    · rw [if_neg hbit] at hlength
      exact ih (i + 1) signatures hlength

/-- There are more than `64` confidants, and another number of them is announced. -/
def RefusedByBoth (block : Pool) : Prop :=
  64 < block.confidants.length ∧ block.confidants.length ≠ block.numberTrusted.toNat

def Agree (crypto : Crypto) (block : Pool) : Prop :=
  validateBlock crypto block = .noError ↔ groupSigned crypto block = true

theorem Fits.agree (h : Fits block) : Agree crypto block := by
  obtain ⟨hnonempty, hmost, hnumber, hbits⟩ := h
  unfold Agree
  rw [validateBlock_eq_noError, groupSigned_eq_true, hbits]
  tauto

theorem RefusedByBoth.agree (h : RefusedByBoth block) : Agree crypto block := by
  unfold Agree
  rw [validateBlock_eq_noError, groupSigned_eq_true]
  exact iff_of_false (fun hblock => absurd h.1 (Nat.not_lt.mpr hblock.2.1))
    fun hgroup => h.2 hgroup.2.1

/-- A block with the given number of signatures, for a scheme that accepts every signature. -/
def signedBy (block : Pool) (count : Nat) : Pool :=
  { block with signatures := List.replicate count (zeroArray 64) }

theorem validateBlock_signedBy (hmost : block.confidants.length ≤ 64) :
    validateBlock Crypto.zero (signedBy block (popcount block.realTrusted)) = .noError := by
  refine validateBlock_eq_noError.mpr ⟨length_replicate, hmost, verifySigned_zero _ _ _ 0 _ ?_⟩
  rw [signedBy, length_replicate, ← range_eq_range']
  exact (range_sublist.mpr hmost).countP_le

theorem fits_of_agree (hmost : block.confidants.length ≤ 64)
    (h : Agree Crypto.zero (signedBy block (popcount block.realTrusted))) : Fits block := by
  obtain ⟨hnonempty, hnumber, hcount, -⟩ :=
    groupSigned_eq_true.mp (h.mp (validateBlock_signedBy hmost))
  exact ⟨hnonempty, hmost, hnumber, length_replicate.symm.trans hcount⟩

theorem refusedByBoth_of_agree (hmany : 64 < block.confidants.length)
    (h : Agree Crypto.zero (signedBy block ((List.range block.confidants.length).countP fun i =>
      block.realTrusted.toNat.testBit i))) : RefusedByBoth block := by
  refine ⟨hmany, fun hnumber => ?_⟩
  have hblock := validateBlock_eq_noError.mp (h.mpr (groupSigned_eq_true.mpr
    ⟨ne_nil_of_length_pos (Nat.zero_lt_of_lt hmany), hnumber, length_replicate,
      verifySigned_zero _ _ _ 0 _ (by rw [signedBy, length_replicate, ← range_eq_range'])⟩))
  exact absurd hmany (Nat.not_lt.mpr hblock.2.1)

end BlockSignaturesValidator

namespace SmartSourceSignaturesValidator

variable (env : Env) {block : Pool} {t : Transaction} {pack : TransactionsPacket}

def startConfidants (t : Transaction) : List PublicKey :=
  match SmartContractRef.fromUserField (t.userField TrxUf.newStateRefStart) with
  | .ok ref => (env.loadBlock ref.sequence).confidants
  | .error _ => []

/-- What the confidants of a contract sign. -/
def packData (pack : TransactionsPacket) : Bytes := (pack.hash.map List.Vector.toList).getD []

/-- More than half of the distinct confidants of the start have the property. -/
def Majority (t : Transaction) (p : PublicKey → Prop) : Prop :=
  ∃ keys : List PublicKey, keys.Nodup ∧ keys ⊆ startConfidants env t ∧ (∀ key ∈ keys, p key) ∧
    (startConfidants env t).dedup.length < 2 * keys.length

/-- The block has a right signature of the packet by this key. -/
def Signed (block : Pool) (pack : TransactionsPacket) (key : PublicKey) : Prop :=
  ∃ group ∈ block.smartSignatures, ∃ s ∈ group.signatures,
    env.crypto.verifySignature s.2 key (packData pack) = true

/-- The signature is listed for a packet with these data, under the index of this key. -/
def Listed (block : Pool) (signature : Signature) (key : PublicKey) (data : Bytes) : Prop :=
  ∃ new ∈ smartPacks env block, packData new.2 = data ∧
    ∃ group, groupOf block.smartSignatures new.2 = some group ∧ ∃ s ∈ group.signatures,
      s.2 = signature ∧ (env.loadBlock group.smartConsensusPool).confidants[s.1.toNat]? = some key

/-- Only a wrong signature can make the check refuse the block. -/
structure WellFormed (block : Pool) : Prop where
  count : block.smartSignatures.length = (smartPacks env block).length
  groups : ∀ new ∈ smartPacks env block, ∃ group, groupOf block.smartSignatures new.2 = some group ∧
    ∀ s ∈ group.signatures,
      s.1.toNat < (env.loadBlock group.smartConsensusPool).confidants.length

def Env.withScheme (verify : Signature → PublicKey → Bytes → Bool) : Env :=
  { env with crypto := { env.crypto with verifySignature := verify } }

variable {env}

theorem Majority.mono {p q : PublicKey → Prop} (h : Majority env t p) (hpq : ∀ key, p key → q key) :
    Majority env t q := by
  obtain ⟨keys, hnodup, hstart, hkeys, hmajority⟩ := h
  exact ⟨keys, hnodup, hstart, fun key hkey => hpq key (hkeys key hkey), hmajority⟩

theorem grepNewStatesPacks_eq_nil {switchFees : Bool} {trxs : List Transaction} :
    grepNewStatesPacks env switchFees trxs = [] ↔ trxs.any SmartContracts.isNewState = false := by
  induction trxs with
  | nil => exact iff_of_true rfl rfl
  | cons t trxs ih =>
    unfold grepNewStatesPacks
    by_cases hnew : SmartContracts.isNewState t = true <;> simp [hnew, ih]

theorem smartPacks_withScheme (verify : Signature → PublicKey → Bytes → Bool) :
    smartPacks (env.withScheme verify) block = smartPacks env block := by
  unfold smartPacks
  induction block.transactions with
  | nil => rfl
  | cons t trxs ih =>
    unfold grepNewStatesPacks
    rw [ih]
    rfl

theorem verifySmart_eq_true {confidants : List PublicKey} {s : UInt8 × Signature} :
    verifySmart env confidants pack s = true ↔ ∃ key, confidants[s.1.toNat]? = some key ∧
      env.crypto.verifySignature s.2 key (packData pack) = true := by
  unfold verifySmart packData
  cases confidants[s.1.toNat]? <;> simp

theorem checkSignatures_eq_true {sigs : List SmartSignature} {packs : List TransactionsPacket} :
    checkSignatures env sigs packs = true ↔ sigs.length = packs.length ∧
      ∀ pack ∈ packs, ∃ group, groupOf sigs pack = some group ∧ ∀ s ∈ group.signatures,
        verifySmart env (env.loadBlock group.smartConsensusPool).confidants pack s = true := by
  unfold checkSignatures
  rw [Bool.and_eq_true, decide_eq_true_eq, all_eq_true]
  refine and_congr_right fun _ => forall₂_congr fun pack _ => ?_
  cases groupOf sigs pack <;> simp

theorem validateBlock_eq_noError_iff : validateBlock env block = .noError ↔
    checkSignatures env block.smartSignatures ((smartPacks env block).map Prod.snd) = true := by
  unfold validateBlock
  by_cases hempty : block.smartSignatures.length = 0
  · rw [if_pos hempty, checkSignatures_eq_true, length_map, hempty, eq_comm (a := 0),
      length_eq_zero_iff]
    unfold smartPacks
    rw [grepNewStatesPacks_eq_nil]
    cases hnew : block.transactions.any SmartContracts.isNewState with
    | true => simp
    | false =>
      rw [grepNewStatesPacks_eq_nil.mpr hnew]
      simp
  · rw [if_neg hempty]
    cases checkSignatures env block.smartSignatures ((smartPacks env block).map Prod.snd) <;> simp

/-- The check accepts the well-formed blocks all of whose listed signatures are right. -/
theorem validateBlock_eq_noError : validateBlock env block = .noError ↔ WellFormed env block ∧
    ∀ signature key data, Listed env block signature key data →
      env.crypto.verifySignature signature key data = true := by
  rw [validateBlock_eq_noError_iff, checkSignatures_eq_true, length_map]
  constructor
  · rintro ⟨hcount, hpacks⟩
    refine ⟨⟨hcount, fun new hnew => ?_⟩, ?_⟩
    · obtain ⟨group, hgroup, hverify⟩ := hpacks new.2 (mem_map_of_mem hnew)
      refine ⟨group, hgroup, fun s hs => ?_⟩
      obtain ⟨key, hkey, -⟩ := verifySmart_eq_true.mp (hverify s hs)
      exact (List.getElem?_eq_some_iff.mp hkey).1
    · rintro signature key data ⟨new, hnew, rfl, group, hgroup, s, hs, rfl, hkey⟩
      obtain ⟨group', hgroup', hverify⟩ := hpacks new.2 (mem_map_of_mem hnew)
      obtain rfl := Option.some.inj (hgroup.symm.trans hgroup')
      obtain ⟨key', hkey', hright⟩ := verifySmart_eq_true.mp (hverify s hs)
      rwa [Option.some.inj (hkey.symm.trans hkey')]
  · rintro ⟨⟨hcount, hgroups⟩, hright⟩
    refine ⟨hcount, fun pack hpack => ?_⟩
    obtain ⟨new, hnew, rfl⟩ := mem_map.mp hpack
    obtain ⟨group, hgroup, hindices⟩ := hgroups new hnew
    refine ⟨group, hgroup, fun s hs => verifySmart_eq_true.mpr ?_⟩
    have hkey := getElem?_eq_getElem (hindices s hs)
    exact ⟨_, hkey, hright _ _ _ ⟨new, hnew, rfl, group, hgroup, s, hs, rfl, hkey⟩⟩

theorem wellFormed_withScheme (verify : Signature → PublicKey → Bytes → Bool) :
    WellFormed (env.withScheme verify) block ↔ WellFormed env block := by
  have hpacks : smartPacks (env.withScheme verify) block = smartPacks env block :=
    smartPacks_withScheme verify
  constructor <;> rintro ⟨hcount, hgroups⟩
  · rw [hpacks] at hcount hgroups
    exact ⟨hcount, hgroups⟩
  · rw [← hpacks] at hcount hgroups
    exact ⟨hcount, hgroups⟩

theorem listed_withScheme (verify : Signature → PublicKey → Bytes → Bool) {signature : Signature}
    {key : PublicKey} {data : Bytes} :
    Listed (env.withScheme verify) block signature key data ↔
      Listed env block signature key data := by
  unfold Listed
  rw [smartPacks_withScheme]
  rfl

/-- Whatever the signature scheme, in a block that is accepted more than half of the confidants of
the start have signed every new state, exactly if the signatures listed in a well-formed block name
that many. -/
theorem endorsed_iff_listed (env : Env) (block : Pool) :
    (∀ verify, validateBlock (env.withScheme verify) block = .noError →
      ∀ new ∈ smartPacks env block,
        Majority env new.1 (Signed (env.withScheme verify) block new.2)) ↔
    (WellFormed env block → ∀ new ∈ smartPacks env block,
      Majority env new.1 fun key =>
        ∃ signature, Listed env block signature key (packData new.2)) := by
  classical
  constructor
  · intro h hformed new hnew
    -- a scheme that accepts the listed signatures and no other
    have hsigned := h (fun signature key data => Listed env block signature key data)
      (validateBlock_eq_noError.mpr ⟨(wellFormed_withScheme _).mpr hformed, fun _ _ _ hlisted =>
        decide_eq_true ((listed_withScheme _).mp hlisted)⟩) new hnew
    refine hsigned.mono fun key => ?_
    rintro ⟨group, -, s, -, hlisted⟩
    exact ⟨s.2, of_decide_eq_true hlisted⟩
  · intro h verify hvalid new hnew
    obtain ⟨hformed, hright⟩ := validateBlock_eq_noError.mp hvalid
    refine (h ((wellFormed_withScheme verify).mp hformed) new hnew).mono fun key => ?_
    rintro ⟨signature, hlisted⟩
    have hverify := hright _ _ _ ((listed_withScheme verify).mpr hlisted)
    obtain ⟨_, _, _, group, hgroup, s, hs, rfl, _⟩ := hlisted
    exact ⟨group, List.mem_of_find?_eq_some hgroup, s, hs, hverify⟩

def demoEnv : Env where
  crypto := .zero
  loadBlock _ := { Pool.new with confidants := [sampleKey 1, sampleKey 2, sampleKey 3] }
  getTransaction t := t

def demoBlock (signatures : List (UInt8 × Signature)) : Pool :=
  { Pool.new with
    version := 1
    transactions := [{ Transaction.new with
      source := sampleAddress 9
      userFields := .ofEntries [(TrxUf.newStateRefStart, .string []),
        (TrxUf.newStateHash, .string [])] }]
    smartSignatures := [⟨sampleKey 9, 5, signatures⟩] }

/-- Nobody has signed, and the block is accepted. -/
theorem noError_without_signatures : validateBlock demoEnv (demoBlock []) = .noError ∧
    (smartPacks demoEnv (demoBlock [])).length = 1 ∧
    ∀ new ∈ smartPacks demoEnv (demoBlock []),
      ¬ Majority demoEnv new.1 (Signed demoEnv (demoBlock []) new.2) := by
  refine ⟨by decide +kernel, by decide +kernel, ?_⟩
  rintro new - ⟨signers, -, -, hsigned, hmajority⟩
  cases signers with
  | nil => simp at hmajority
  | cons key _ =>
    obtain ⟨group, hgroup, s, hs, -⟩ := hsigned key mem_cons_self
    obtain rfl := mem_singleton.mp hgroup
    cases hs

end SmartSourceSignaturesValidator

end CreditsNode
