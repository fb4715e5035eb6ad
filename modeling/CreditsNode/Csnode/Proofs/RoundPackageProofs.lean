import CreditsNode.Csnode.RoundPackage

/-!
# The bytes that a round package keeps

`bytesToSign` always writes the bytes of the fields. `toBinary` writes them only if there are none,
and adds the signatures only to bytes that have none yet: it returns the bytes of the fields as long
as no field has been set after the bytes were written, apart from signatures that have not been
added.
-/

namespace CreditsNode.Round

open ByteCodec

namespace RoundPackage

variable {p : RoundPackage}

def encoding (p : RoundPackage) : Bytes := p.toSign ++ p.signatures

/-- The bytes that are kept are those of the fields, with or without the signatures. -/
def Current (p : RoundPackage) : Prop :=
  p.binaryRepresentation = [] ∨
    if p.binaryRepresentation.length = p.messageSize then p.binaryRepresentation = p.toSign
    else p.binaryRepresentation = p.encoding

theorem toSign_ne_nil (p : RoundPackage) : p.toSign ≠ [] := by
  unfold toSign
  simp

theorem addSignatures_refillToSign (p : RoundPackage) :
    p.refillToSign.addSignatures =
      { p with binaryRepresentation := p.encoding, messageSize := p.toSign.length } :=
  if_pos rfl

theorem filled_eq (p : RoundPackage) :
    p.filled =
      if p.binaryRepresentation = [] then
        { p with binaryRepresentation := p.encoding, messageSize := p.toSign.length }
      else if p.binaryRepresentation.length = p.messageSize then
        { p with binaryRepresentation := p.binaryRepresentation ++ p.signatures }
      else p := by
  unfold filled
  by_cases hnil : p.binaryRepresentation = []
  · rw [if_pos hnil, if_pos (List.length_eq_zero_iff.mpr hnil), addSignatures_refillToSign]
  · rw [if_neg hnil, if_neg (mt List.length_eq_zero_iff.mp hnil)]
    rfl

theorem toBinary_eq_encoding_iff (p : RoundPackage) : p.toBinary.1 = p.encoding ↔ p.Current := by
  show p.filled.binaryRepresentation = _ ↔ _
  unfold Current
  rw [filled_eq]
  by_cases hnil : p.binaryRepresentation = []
  · rw [if_pos hnil]
    exact iff_of_true rfl (.inl hnil)
  · rw [if_neg hnil, or_iff_right hnil]
    by_cases hsize : p.binaryRepresentation.length = p.messageSize
    · rw [if_pos hsize, if_pos hsize]
      exact List.append_left_inj _
    · rw [if_neg hsize, if_neg hsize]

theorem bytesToSign_eq (p : RoundPackage) : p.bytesToSign.1 = p.toSign := List.take_length

end RoundPackage

/-- The calls of the setters and of the two functions that return bytes. -/
inductive Operation where
  | updatePoolMeta (info : PoolMetaInfo)
  | updateRoundTable (rt : RoundTable)
  | updateRoundSignatures (signatures : List Signature)
  | updatePoolSignatures (signatures : List Signature)
  | updateTrustedSignatures (signatures : List Signature)
  | bytesToSign
  | toBinary

namespace Operation

def execute : Operation → RoundPackage → RoundPackage
  | updatePoolMeta info, p => p.updatePoolMeta info
  | updateRoundTable rt, p => p.updateRoundTable rt
  | updateRoundSignatures signatures, p => p.updateRoundSignatures signatures
  | updatePoolSignatures signatures, p => p.updatePoolSignatures signatures
  | updateTrustedSignatures signatures, p => p.updateTrustedSignatures signatures
  | bytesToSign, p => p.bytesToSign.2
  | toBinary, p => p.toBinary.2

end Operation

/-- What the bytes that are kept have been written from. -/
inductive Kept where
  | nothing
  | unsigned
  | signed
  /-- A field of the bytes has been set since. -/
  | outdated
deriving DecidableEq

namespace Kept

def setField : Kept → Kept
  | nothing => nothing
  | _ => outdated

def setSignatures : Kept → Kept
  | nothing => nothing
  | unsigned => unsigned
  | _ => outdated

def fill (added : Bool) : Kept → Kept
  | nothing | unsigned => if added then signed else unsigned
  | signed => signed
  | outdated => outdated

def Holds (p : RoundPackage) : Kept → Prop
  | nothing => p.binaryRepresentation = []
  | unsigned => p.binaryRepresentation = p.toSign ∧ p.messageSize = p.toSign.length
  | signed => p.binaryRepresentation = p.encoding ∧ p.encoding.length ≠ p.messageSize
  | outdated => True

variable {p : RoundPackage} {kept : Kept}

theorem Holds.current (h : kept.Holds p) (hkept : kept ≠ outdated) : p.Current := by
  cases kept with
  | nothing => exact .inl h
  | unsigned =>
    right
    rw [if_pos (by rw [h.1, h.2])]
    exact h.1
  | signed =>
    right
    rw [if_neg (by rw [h.1]; exact h.2)]
    exact h.1
  | outdated => exact absurd rfl hkept

theorem holds_fill_of_eq {added : Bool} (hadded : added = true ↔ p.signatures ≠ [])
    (hbytes : p.binaryRepresentation = p.encoding) (hsize : p.messageSize = p.toSign.length) :
    (if added then signed else unsigned : Kept).Holds p := by
  cases added with
  | false =>
    have hnone : p.signatures = [] := by
      by_contra hsome
      exact Bool.false_ne_true (hadded.mpr hsome)
    have hencoding : p.encoding = p.toSign := by
      unfold RoundPackage.encoding
      rw [hnone, List.append_nil]
    exact ⟨hbytes.trans hencoding, hsize⟩
  | true =>
    refine ⟨hbytes, ?_⟩
    grind [RoundPackage.encoding, List.length_pos_iff]

theorem Holds.fill (h : kept.Holds p) : (kept.fill (!p.signatures.isEmpty)).Holds p.filled := by
  have hadded : (!p.signatures.isEmpty) = true ↔ p.signatures ≠ [] := by
    rw [Bool.not_eq_true', ← Bool.not_eq_true, List.isEmpty_iff]
  cases kept with
  | nothing =>
    have hfilled := p.filled_eq
    rw [if_pos (show p.binaryRepresentation = [] from h)] at hfilled
    rw [hfilled]
    exact holds_fill_of_eq hadded rfl rfl
  | unsigned =>
    obtain ⟨hbytes, hsize⟩ := h
    have hfilled := p.filled_eq
    rw [if_neg (hbytes ▸ p.toSign_ne_nil), if_pos (by rw [hbytes, hsize])] at hfilled
    rw [hfilled, hbytes]
    exact holds_fill_of_eq hadded rfl hsize
  | signed =>
    obtain ⟨hbytes, hsize⟩ := h
    have hne : p.binaryRepresentation ≠ [] := by
      rw [hbytes]
      exact List.append_ne_nil_of_left_ne_nil p.toSign_ne_nil _
    have hfilled := p.filled_eq
    rw [if_neg hne, if_neg (by rw [hbytes]; exact hsize)] at hfilled
    rw [hfilled]
    exact ⟨hbytes, hsize⟩
  | outdated => trivial

def after (p : RoundPackage) (kept : Kept) : Operation → Kept
  | .updatePoolMeta _ | .updateRoundTable _ => kept.setField
  | .updateRoundSignatures _ | .updatePoolSignatures _ | .updateTrustedSignatures _ =>
    kept.setSignatures
  | .bytesToSign => unsigned
  | .toBinary => kept.fill (!p.signatures.isEmpty)

theorem Holds.setField (h : kept.Holds p) {q : RoundPackage}
    (hbytes : q.binaryRepresentation = p.binaryRepresentation) : kept.setField.Holds q := by
  cases kept with
  | nothing => exact hbytes.trans h
  | unsigned | signed | outdated => trivial

theorem Holds.setSignatures (h : kept.Holds p) {q : RoundPackage}
    (hbytes : q.binaryRepresentation = p.binaryRepresentation)
    (hsize : q.messageSize = p.messageSize)
    (htoSign : q.toSign = p.toSign) : kept.setSignatures.Holds q := by
  cases kept with
  | nothing => exact hbytes.trans h
  | unsigned => exact ⟨hbytes.trans (h.1.trans htoSign.symm), by rw [hsize, htoSign, h.2]⟩
  | signed | outdated => trivial

theorem Holds.after (h : kept.Holds p) (op : Operation) :
    (kept.after p op).Holds (op.execute p) := by
  cases op with
  | updatePoolMeta info => exact h.setField rfl
  | updateRoundTable rt => exact h.setField rfl
  | updateRoundSignatures signatures => exact h.setSignatures rfl rfl rfl
  | updatePoolSignatures signatures => exact h.setSignatures rfl rfl rfl
  | updateTrustedSignatures signatures => exact h.setSignatures rfl rfl rfl
  | bytesToSign => exact ⟨rfl, rfl⟩
  | toBinary => exact h.fill

end Kept

/-- The package after the calls, and what it keeps. -/
def run (ops : List Operation) (p : RoundPackage) (kept : Kept) : RoundPackage × Kept :=
  ops.foldl (fun s op => (op.execute s.1, s.2.after s.1 op)) (p, kept)

theorem holds_run (ops : List Operation) {p : RoundPackage} {kept : Kept} (h : kept.Holds p) :
    (run ops p kept).2.Holds (run ops p kept).1 := by
  unfold run
  induction ops generalizing p kept with
  | nil => exact h
  | cons op ops ih => exact ih (h.after op)

/-- After any calls, the bytes to sign are those of the fields, and the bytes of `toBinary` are so
exactly when those that are kept are. This is the case if no field has been set since they were
written, apart from signatures that have not been added to them. -/
theorem bytes_current (sequenceNumber : Sequence) (ops : List Operation) :
    let s := run ops (.new sequenceNumber) .nothing
    s.1 = ops.foldl (fun p op => op.execute p) (.new sequenceNumber) ∧
      s.1.bytesToSign.1 = s.1.toSign ∧
      (s.1.toBinary.1 = s.1.encoding ↔ s.1.Current) ∧
      (s.2 ≠ .outdated → s.1.Current) := by
  intro s
  have hholds : s.2.Holds s.1 := holds_run ops rfl
  have hrun : ∀ (ops : List Operation) (p : RoundPackage) (kept : Kept),
      (run ops p kept).1 = ops.foldl (fun p op => op.execute p) p := by
    intro ops
    induction ops with
    | nil => exact fun _ _ => rfl
    | cons op ops ih => exact fun p kept => ih _ _
  exact ⟨hrun ops _ _, s.1.bytesToSign_eq, s.1.toBinary_eq_encoding_iff, hholds.current⟩

/-- The table is set after the bytes have been written: `toBinary` returns those of the table
before. -/
theorem toBinary_outdated :
    let p := [Operation.toBinary,
      .updateRoundTable { round := 1, confidants := [zeroArray 32] }].foldl
      (fun p op => op.execute p) (.new 0)
    p.toBinary.1 ≠ p.encoding ∧ p.toBinary.1 = (RoundPackage.new 0).encoding := by
  decide

end CreditsNode.Round
