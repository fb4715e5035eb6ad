import CreditsNode.Csnode.DataStream

/-!
# What a stream reads

A stream never reads outside of its buffer and its index never leaves the buffer. The sum in
`isAvailable` can wrap around, though, and `operator>>` for a vector goes on if there are fewer
bytes than entities: then a read asks for more than there is and the stream stays valid.
-/

namespace CreditsNode.DataStream

open ByteCodec Effect

variable {buffer : Buffer} {s t : DataStream}

def InBounds (buffer : Buffer) (s : DataStream) : Prop := s.index.toNat ≤ buffer.data.length

def remaining (buffer : Buffer) (s : DataStream) : Nat := buffer.data.length - s.index.toNat

def declared (buffer : Buffer) (s : DataStream) : UInt64 :=
  .ofNat (leNat ((buffer.data.drop s.index.toNat).take 8))

def moved (s : DataStream) (size : UInt64) : DataStream := { s with index := s.index + size }

def bad (s : DataStream) : DataStream := { s with state := false }

@[simp] theorem inBounds_bad : InBounds buffer s.bad ↔ InBounds buffer s := Iff.rfl

theorem length_lt (buffer : Buffer) : buffer.data.length < 2 ^ 63 := by
  have hsmall := buffer.small
  unfold ptrdiffMax at hsmall
  omega

theorem toNat_dataSize (buffer : Buffer) : buffer.dataSize.toNat = buffer.data.length := by
  have hlt := length_lt buffer
  exact UInt64.toNat_ofNat_of_lt' (by show buffer.data.length < 2 ^ 64; omega)

def Wraps (s : DataStream) (size : UInt64) : Prop := 2 ^ 64 ≤ s.index.toNat + size.toNat

instance instDecidableWraps (s : DataStream) (size : UInt64) : Decidable (s.Wraps size) :=
  inferInstanceAs (Decidable (_ ≤ _))

theorem isAvailable_iff (h : InBounds buffer s) (size : UInt64) :
    isAvailable buffer size s = true ↔ size.toNat ≤ remaining buffer s ∨ s.Wraps size := by
  grind [size.toNat_lt, InBounds, isAvailable, remaining, Wraps, toNat_dataSize,
    UInt64.le_iff_toNat_le, UInt64.toNat_add]

variable {size : UInt64} {maxSize : Nat} {what : String} {α : Type}

section

variable (h : InBounds buffer s)

include h

theorem not_wraps_of_le (hsize : size.toNat ≤ ptrdiffMax) : ¬ s.Wraps size := by
  have hlt := length_lt buffer
  unfold InBounds at h
  unfold Wraps
  unfold ptrdiffMax at hsize
  omega

theorem isAvailable_object (size : ObjectSize) :
    isAvailable buffer size.value s = true ↔ size.value.toNat ≤ remaining buffer s := by
  rw [isAvailable_iff h]
  exact or_iff_left (not_wraps_of_le h size.small)

theorem lt_of_wraps (hwraps : s.Wraps size) : ptrdiffMax < size.toNat := by
  have hlt := length_lt buffer
  unfold InBounds at h
  unfold Wraps at hwraps
  unfold ptrdiffMax
  omega

theorem toNat_index_moved (hsize : size.toNat ≤ remaining buffer s) :
    (s.moved size).index.toNat = s.index.toNat + size.toNat := by
  have hlt := length_lt buffer
  unfold InBounds at h
  unfold remaining at hsize
  show (s.index + size).toNat = _
  rw [UInt64.toNat_add]
  omega

theorem inBounds_moved
    (hsize : size.toNat ≤ remaining buffer s) : InBounds buffer (s.moved size) := by
  have hindex := toNat_index_moved h hsize
  unfold InBounds at h ⊢
  unfold remaining at hsize
  omega

theorem inBounds_moved_of_wraps (hwraps : s.Wraps size) : InBounds buffer (s.moved size) := by
  have hsize := size.toNat_lt
  unfold InBounds at h ⊢
  unfold Wraps at hwraps
  show (s.index + size).toNat ≤ _
  rw [UInt64.toNat_add]
  omega

theorem inBounds_moved_of_available
    (havailable : isAvailable buffer size s = true) : InBounds buffer (s.moved size) :=
  ((isAvailable_iff h size).mp havailable).elim (inBounds_moved h) (inBounds_moved_of_wraps h)

theorem remaining_moved (hsize : size.toNat ≤ remaining buffer s) :
    remaining buffer (s.moved size) = remaining buffer s - size.toNat := by
  have hindex := toNat_index_moved h hsize
  unfold remaining at hsize ⊢
  omega

theorem range_eq (hsize : size.toNat ≤ remaining buffer s) :
    buffer.range s.index size = .ok ((buffer.data.drop s.index.toNat).take size.toNat) := by
  unfold InBounds at h
  unfold remaining at hsize
  unfold Buffer.range
  rw [if_pos (by omega)]

theorem parseFixed_eq (size : ObjectSize) :
    parseFixed buffer size s =
      if size.value.toNat ≤ remaining buffer s then
        .ok ((buffer.data.drop s.index.toNat).take size.value.toNat) (s.moved size.value)
      else .ok (List.replicate size.value.toNat 0) s.bad := by
  have havailable := isAvailable_object h size
  show (if !isAvailable buffer size.value s then _ else _ : Parse Bytes) s = _
  split_ifs with hno hle hle
  · rw [havailable.mpr hle] at hno
    cases hno
  · rfl
  · rw [range_eq h hle]
    rfl
  · rw [Bool.not_eq_true', Bool.not_eq_false, havailable] at hno
    exact absurd hno hle

theorem parseSize_eq :
    parseSize buffer s =
      if 8 ≤ remaining buffer s then .ok (declared buffer s) (s.moved 8) else .ok 0 s.bad := by
  have hfixed : parseFixed buffer sizeofSize s = if 8 ≤ remaining buffer s then _ else _ :=
    parseFixed_eq h sizeofSize
  split_ifs at hfixed ⊢ with hle
  · exact bind_eq_of_ok hfixed
  · exact bind_eq_of_ok hfixed

theorem behind_size (hlt : ¬ remaining buffer s < 8) :
    InBounds buffer (s.moved 8) ∧ remaining buffer (s.moved 8) = remaining buffer s - 8 ∧
      (isAvailable buffer (declared buffer s) (s.moved 8) = true ↔
        (declared buffer s).toNat ≤ remaining buffer s - 8 ∨
          (s.moved 8).Wraps (declared buffer s)) := by
  have hle : (8 : UInt64).toNat ≤ remaining buffer s := Nat.not_lt.mp hlt
  have h8 := inBounds_moved h hle
  have hremaining : remaining buffer (s.moved 8) = remaining buffer s - 8 := remaining_moved h hle
  refine ⟨h8, hremaining, ?_⟩
  rw [isAvailable_iff h8, hremaining]

theorem parseContainer_of_lt
    (hlt : remaining buffer s < 8) : parseContainer buffer maxSize what s = .ok [] s.bad := by
  have havailable := (isAvailable_object h sizeofSize).not.mpr (Nat.not_le.mpr hlt)
  show (if !isAvailable buffer sizeofSize.value s then _ else _ : Parse Bytes) s = _
  rw [if_pos (by rw [Bool.not_eq_true', ← Bool.not_eq_true]; exact havailable)]
  rfl

theorem parseContainer_of_le (hle : 8 ≤ remaining buffer s) :
    parseContainer buffer maxSize what s =
      (if isAvailable buffer (declared buffer s) (s.moved 8) then
        if maxSize < (declared buffer s).toNat then throw (.exception what)
        else do
          let result ← buffer.range (s.moved 8).index (declared buffer s)
          advance (declared buffer s)
          return result
      else do
        badState
        return [] : Parse Bytes) (s.moved 8) := by
  have havailable := (isAvailable_object h sizeofSize).mpr hle
  have hsize : parseSize buffer s = .ok (declared buffer s) (s.moved 8) := by
    rw [parseSize_eq h, if_pos hle]
  show (if !isAvailable buffer sizeofSize.value s then _ else _ : Parse Bytes) s = _
  rw [if_neg (by rw [havailable]; decide)]
  exact bind_eq_of_ok hsize

end

theorem parseContainer_eq (hmin : ptrdiffMax - 8 ≤ maxSize)
    (hmax : maxSize ≤ ptrdiffMax) (h : InBounds buffer s) :
    parseContainer buffer maxSize what s =
      if remaining buffer s < 8 then .ok [] s.bad
      else if (declared buffer s).toNat ≤ remaining buffer s - 8 then
        .ok ((buffer.data.drop (s.moved 8).index.toNat).take (declared buffer s).toNat)
          ((s.moved 8).moved (declared buffer s))
      else if (s.moved 8).Wraps (declared buffer s) then .error (.exception what) (s.moved 8)
      else .ok [] (s.moved 8).bad := by
  by_cases hlt : remaining buffer s < 8
  · rw [if_pos hlt]
    exact parseContainer_of_lt h hlt
  · obtain ⟨h8, hremaining, havailable⟩ := behind_size h hlt
    rw [if_neg hlt, parseContainer_of_le h (Nat.not_lt.mp hlt)]
    split_ifs with htest htoo hfits hwraps hfits hwraps hfits hwraps
    · have hsmall := buffer.small
      unfold remaining at hfits
      omega
    · rfl
    · exact absurd (havailable.mp htest) (not_or.mpr ⟨hfits, hwraps⟩)
    · rw [range_eq h8 (hremaining.symm ▸ hfits)]
      rfl
    · have hlarge := lt_of_wraps h8 hwraps
      omega
    · exact absurd (havailable.mp htest) (not_or.mpr ⟨hfits, hwraps⟩)
    · exact absurd (havailable.mpr (.inl hfits)) htest
    · exact absurd (havailable.mpr (.inr hwraps)) htest
    · rfl

theorem parseBytesView_eq (h : InBounds buffer s) :
    parseBytesView buffer s =
      if remaining buffer s < 8 then .ok {} (s.bad.moved 0)
      else if isAvailable buffer (declared buffer s) (s.moved 8) then
        .ok { size := declared buffer s } ((s.moved 8).moved (declared buffer s))
      else .ok {} (s.moved 8).bad := by
  have hsize := parseSize_eq h
  by_cases hlt : remaining buffer s < 8
  · rw [if_neg (Nat.not_le.mpr hlt)] at hsize
    have havailable : isAvailable buffer 0 s.bad = true :=
      (isAvailable_iff (inBounds_bad.mpr h) 0).mpr (.inl (Nat.zero_le _))
    rw [if_pos hlt]
    show (parseSize buffer >>= _) s = _
    rw [bind_eq_of_ok hsize]
    show (if isAvailable buffer 0 s.bad then _ else _ : Parse BytesView) s.bad = _
    rw [if_pos havailable]
    rfl
  · rw [if_pos (Nat.not_lt.mp hlt)] at hsize
    show (parseSize buffer >>= _) s = _
    rw [bind_eq_of_ok hsize]
    show (if isAvailable buffer (declared buffer s) (s.moved 8) then _ else _ : Parse BytesView)
      (s.moved 8) = _
    split_ifs <;> rfl

/-- The stream is left alone, unless all entities can have a byte each. A count that wraps around is
larger than any vector. -/
theorem parseCount_eq (h : InBounds buffer s) (sizeof : Nat) :
    parseCount buffer sizeof s =
      if remaining buffer s < 8 then .ok none s.bad
      else if declared buffer s = 0 then .ok none (s.moved 8)
      else if (s.moved 8).Wraps (declared buffer s) then
        .error (.exception "vector::reserve") (s.moved 8)
      else if remaining buffer s - 8 < (declared buffer s).toNat then .ok none (s.moved 8)
      else if ptrdiffMax / sizeof < (declared buffer s).toNat then
        .error (.exception "vector::reserve") (s.moved 8)
      else .ok (some (declared buffer s).toNat) (s.moved 8) := by
  have hsize := parseSize_eq h
  by_cases hlt : remaining buffer s < 8
  · rw [if_neg (Nat.not_le.mpr hlt)] at hsize
    rw [if_pos hlt]
    show (parseSize buffer >>= _) s = _
    rw [bind_eq_of_ok hsize]
    rfl
  · obtain ⟨h8, -, havailable⟩ := behind_size h hlt
    rw [if_pos (Nat.not_lt.mp hlt)] at hsize
    rw [if_neg hlt]
    show (parseSize buffer >>= _) s = _
    rw [bind_eq_of_ok hsize]
    by_cases hzero : declared buffer s = 0
    · rw [if_pos hzero, if_pos hzero]
      rfl
    rw [if_neg hzero, if_neg hzero]
    show (if !isAvailable buffer (declared buffer s) (s.moved 8) then _ else _ : Parse (Option Nat))
      (s.moved 8) = _
    by_cases hwraps : (s.moved 8).Wraps (declared buffer s)
    · have hlarge : ptrdiffMax / sizeof < (declared buffer s).toNat :=
        (Nat.div_le_self _ _).trans_lt (lt_of_wraps h8 hwraps)
      rw [if_pos hwraps, if_neg (by rw [havailable.mpr (.inr hwraps)]; decide), if_pos hlarge]
      rfl
    rw [if_neg hwraps]
    by_cases hmany : remaining buffer s - 8 < (declared buffer s).toNat
    · have hno : ¬ isAvailable buffer (declared buffer s) (s.moved 8) = true := by
        rw [havailable]
        exact not_or.mpr ⟨Nat.not_le.mpr hmany, hwraps⟩
      rw [if_pos hmany, if_pos (by rw [Bool.not_eq_true', ← Bool.not_eq_true]; exact hno)]
      rfl
    · rw [if_neg hmany, if_neg (by rw [havailable.mpr (.inl (Nat.not_lt.mp hmany))]; decide)]
      split_ifs <;> rfl

/-- What a read keeps: the index stays in the buffer, and a bad stream stays bad. -/
structure Follows (buffer : Buffer) (s t : DataStream) : Prop where
  inBounds : InBounds buffer t
  bad : s.state = false → t.state = false

theorem Follows.trans {s t u : DataStream} (h : Follows buffer s t) (h' : Follows buffer t u) :
    Follows buffer s u :=
  ⟨h'.inBounds, fun hbad => h'.bad (h.bad hbad)⟩

theorem Follows.refl (h : InBounds buffer s) : Follows buffer s s := ⟨h, id⟩

theorem follows_bad (h : InBounds buffer s) : Follows buffer s s.bad := ⟨h, fun _ => rfl⟩

theorem follows_moved (h : InBounds buffer (s.moved size)) :
    Follows buffer s (s.moved size) := ⟨h, id⟩

def Safe (buffer : Buffer) {α : Type} (m : Parse α) : Prop :=
  ∀ s, InBounds buffer s →
    Wp m (fun e t => e ≠ .undefined ∧ Follows buffer s t) (fun _ t => Follows buffer s t) s

section Safe

variable {α β : Type}

theorem Safe.pure (a : α) : Safe buffer (Pure.pure a : Parse α) := fun _ h => Follows.refl h

theorem Safe.bind {m : Parse α} {f : α → Parse β} (hm : Safe buffer m)
    (hf : ∀ a, Safe buffer (f a)) :
    Safe buffer (m >>= f) := by
  intro s h
  refine .bind (hm s h) fun a t hst => ?_
  refine (hf a t hst.inBounds).imp ?_ fun b u htu => hst.trans htu
  rintro e u ⟨he, htu⟩
  exact ⟨he, hst.trans htu⟩

theorem safe_parseFixed (size : ObjectSize) : Safe buffer (parseFixed buffer size) := by
  intro s h
  unfold Wp
  grind [parseFixed_eq, follows_moved, inBounds_moved, follows_bad]

theorem safe_skip (size : UInt64) : Safe buffer (skip buffer size) := by
  intro s h
  show Wp (if !isAvailable buffer size s then badState else advance size) _ _ s
  split_ifs with hno
  · exact follows_bad h
  · rw [Bool.not_eq_true', Bool.not_eq_false] at hno
    exact follows_moved (inBounds_moved_of_available h hno)

theorem safe_parseContainer {maxSize : Nat} {what : String} (hmin : ptrdiffMax - 8 ≤ maxSize)
    (hmax : maxSize ≤ ptrdiffMax) : Safe buffer (parseContainer buffer maxSize what) := by
  intro s h
  unfold Wp
  rw [parseContainer_eq hmin hmax h]
  split_ifs with hlt hfits hwraps
  · exact follows_bad h
  all_goals obtain ⟨h8, hremaining, -⟩ := behind_size h hlt
  · exact (follows_moved h8).trans (follows_moved (inBounds_moved h8 (hremaining.symm ▸ hfits)))
  · exact ⟨by simp, follows_moved h8⟩
  · exact (follows_moved h8).trans (follows_bad h8)

theorem safe_parseBytesView : Safe buffer (parseBytesView buffer) := by
  intro s h
  unfold Wp
  rw [parseBytesView_eq h]
  split_ifs with hlt havailable
  · have hzero : InBounds buffer (s.bad.moved 0) := inBounds_moved h (Nat.zero_le _)
    exact (follows_bad h).trans (follows_moved hzero)
  all_goals obtain ⟨h8, -, -⟩ := behind_size h hlt
  · exact (follows_moved h8).trans (follows_moved (inBounds_moved_of_available h8 havailable))
  · exact (follows_moved h8).trans (follows_bad h8)

theorem safe_parseCount (sizeof : Nat) : Safe buffer (parseCount buffer sizeof) := by
  intro s h
  unfold Wp
  grind [parseCount_eq, follows_bad, follows_moved, behind_size]

theorem safe_parseMany {parseEntity : Parse α} (hentity : Safe buffer parseEntity) (n : Nat) :
    Safe buffer (parseMany parseEntity n) := by
  induction n with
  | zero => exact Safe.pure _
  | succ n ih => exact hentity.bind fun entity => ih.bind fun rest => Safe.pure _

theorem safe_parseEntities {parseEntity : Parse α} (hentity : Safe buffer parseEntity)
    (sizeof : Nat) : Safe buffer (parseEntities buffer sizeof parseEntity) := by
  refine (safe_parseCount sizeof).bind fun count => ?_
  cases count with
  | none => exact Safe.pure _
  | some n => exact (safe_parseMany hentity n).bind fun entities => Safe.pure _

end Safe

theorem Read.safe_parse (read : Read) : Safe buffer (read.parse buffer) := by
  induction read with
  | value size => exact safe_parseFixed size
  | array size => exact safe_parseFixed size
  | fixedString size => exact safe_parseFixed size
  | skip size => exact safe_skip size
  | bytes => exact safe_parseContainer (Nat.sub_le _ _) le_rfl
  | string => exact safe_parseContainer (Nat.sub_le_sub_left (by decide) _) (Nat.sub_le _ _)
  | bytesView => exact safe_parseBytesView
  | pair first second ihFirst ihSecond =>
    exact ihFirst.bind fun a => ihSecond.bind fun b => Safe.pure _
  | vector sizeof entity ih => exact safe_parseEntities ih sizeof

/-- The eight bytes of a size, or what the size says, are more than is left. -/
def SizeOversized (buffer : Buffer) (s : DataStream) : Prop :=
  remaining buffer s < 8 ∨ remaining buffer s - 8 < (declared buffer s).toNat

namespace Read

def Oversized (buffer : Buffer) (s : DataStream) : Read → Prop
  | value size | array size | fixedString size => remaining buffer s < size.value.toNat
  | skip size => remaining buffer s < size.toNat
  | bytes | string | bytesView | vector _ _ => SizeOversized buffer s
  | pair _ _ => False

def Inside (buffer : Buffer) : (read : Read) → read.Result → Prop
  | bytesView, view => view.offset + view.size.toNat ≤ buffer.data.length
  | _, _ => True

/-- The read stays in the buffer, and leaves the stream invalid if it asks for more than is left. -/
def Bounded (buffer : Buffer) (read : Read) (s : DataStream) : Prop :=
  Wp (read.parse buffer)
    (fun e t => (e ≠ .undefined ∧ InBounds buffer t) ∧
      (read.Oversized buffer s → isValid buffer t = false))
    (fun result t => (read.Inside buffer result ∧ InBounds buffer t) ∧
      (read.Oversized buffer s → isValid buffer t = false)) s

/-- The sum in the test does not wrap around, and a vector has no more entities than there are
bytes. On a stream that is bad already, only a view can be wrong. -/
def Fits (buffer : Buffer) (s : DataStream) : Read → Prop
  | value _ | array _ | fixedString _ | pair _ _ => True
  | skip size => s.state = true → ¬ s.Wraps size
  | bytes | string =>
    s.state = true → 8 ≤ remaining buffer s → ¬ (s.moved 8).Wraps (declared buffer s)
  | bytesView => 8 ≤ remaining buffer s → ¬ (s.moved 8).Wraps (declared buffer s)
  | vector _ _ =>
    s.state = true → 8 ≤ remaining buffer s → (declared buffer s).toNat ≤ remaining buffer s - 8

end Read

theorem isValid_of_bad (h : s.state = false) : isValid buffer s = false := by
  unfold isValid
  split_ifs
  · rfl
  · exact h

theorem isValid_eq (h : InBounds buffer s) : isValid buffer s = s.state := by
  unfold isValid
  rw [if_neg]
  rw [UInt64.lt_iff_toNat_lt, toNat_dataSize]
  exact Nat.not_lt.mpr h

theorem lt_remaining_of_wraps (h : InBounds buffer s) (hwraps : s.Wraps size) :
    remaining buffer s < size.toNat := by
  have hlt := length_lt buffer
  unfold InBounds at h
  unfold Wraps at hwraps
  unfold remaining
  omega

def Refuses (buffer : Buffer) {α : Type} (m : Parse α) (bad : Prop) (s : DataStream) : Prop :=
  Wp m (fun _ t => bad → isValid buffer t = false) (fun _ t => bad → isValid buffer t = false) s

section Refuses

variable {α : Type} {m : Parse α} {bad : Prop}

theorem refuses_of_bad (hm : Safe buffer m) (h : InBounds buffer s) (hbad : s.state = false) :
    Refuses buffer m bad s := by
  refine (hm s h).imp ?_ ?_
  · rintro e t ⟨-, hst⟩ -
    exact isValid_of_bad (hst.bad hbad)
  · rintro result t hst -
    exact isValid_of_bad (hst.bad hbad)

theorem refuses_of_not (hover : ¬ bad) : Refuses buffer m bad s :=
  Wp.any.imp (fun _ _ _ h => absurd h hover) fun _ _ _ h => absurd h hover

theorem refuses_of_ok {a : α} (hrun : m s = .ok a t) (hbad : t.state = false) :
    Refuses buffer m bad s := .of_eq_ok hrun fun _ => isValid_of_bad hbad

theorem not_refuses_of_ok {a : α} (hover : bad) (ht : InBounds buffer t) (hrun : m s = .ok a t)
    (hgood : t.state = true) : ¬ Refuses buffer m bad s := by
  intro hrefuses
  have hfalse := hrefuses.of_ok hrun hover
  rw [isValid_eq ht, hgood] at hfalse
  cases hfalse

theorem not_refuses_of_error {e : Fault} (hover : bad) (ht : InBounds buffer t)
    (hrun : m s = .error e t) (hgood : t.state = true) : ¬ Refuses buffer m bad s := by
  intro hrefuses
  have hfalse := hrefuses.of_error hrun hover
  rw [isValid_eq ht, hgood] at hfalse
  cases hfalse

end Refuses

theorem refuses_parseFixed (h : InBounds buffer s) (size : ObjectSize) :
    Refuses buffer (parseFixed buffer size) (remaining buffer s < size.value.toNat) s := by
  by_cases hle : size.value.toNat ≤ remaining buffer s
  · exact refuses_of_not (Nat.not_lt.mpr hle)
  · have hrun := parseFixed_eq h size
    rw [if_neg hle] at hrun
    exact refuses_of_ok hrun rfl

theorem refuses_skip_iff (h : InBounds buffer s) (hgood : s.state = true) (size : UInt64) :
    Refuses buffer (skip buffer size) (remaining buffer s < size.toNat) s ↔ ¬ s.Wraps size := by
  have havailable := isAvailable_iff h size
  have hrun : skip buffer size s =
      (if !isAvailable buffer size s then badState else advance size : Parse Unit) s := rfl
  by_cases hwraps : s.Wraps size
  · refine iff_of_false ?_ (not_not_intro hwraps)
    rw [havailable.mpr (.inr hwraps)] at hrun
    exact not_refuses_of_ok (t := s.moved size) (lt_remaining_of_wraps h hwraps)
      (inBounds_moved_of_wraps h hwraps) hrun hgood
  · refine iff_of_true ?_ hwraps
    by_cases hle : size.toNat ≤ remaining buffer s
    · exact refuses_of_not (Nat.not_lt.mpr hle)
    · have hno : isAvailable buffer size s = false := by
        rw [← Bool.not_eq_true, havailable]
        exact not_or.mpr ⟨hle, hwraps⟩
      rw [hno] at hrun
      exact refuses_of_ok (t := s.bad) hrun rfl

theorem refuses_parseContainer_iff (hmin : ptrdiffMax - 8 ≤ maxSize)
    (hmax : maxSize ≤ ptrdiffMax) (h : InBounds buffer s) (hgood : s.state = true) :
    Refuses buffer (parseContainer buffer maxSize what) (SizeOversized buffer s) s ↔
      (8 ≤ remaining buffer s → ¬ (s.moved 8).Wraps (declared buffer s)) := by
  have hrun : parseContainer buffer maxSize what s = _ := parseContainer_eq hmin hmax h
  split_ifs at hrun with hlt hfits hwraps
  · exact iff_of_true (refuses_of_ok hrun rfl) fun hle => absurd hlt (Nat.not_lt.mpr hle)
  all_goals obtain ⟨h8, hremaining, -⟩ := behind_size h hlt
  · refine iff_of_true (refuses_of_not (not_or.mpr ⟨hlt, Nat.not_lt.mpr hfits⟩)) fun _ hwraps => ?_
    have hmany := lt_remaining_of_wraps h8 hwraps
    omega
  · refine iff_of_false ?_ fun hno => hno (Nat.not_lt.mp hlt) hwraps
    exact not_refuses_of_error (.inr (Nat.lt_of_not_le hfits)) h8 hrun hgood
  · exact iff_of_true (refuses_of_ok hrun rfl) fun _ => hwraps

theorem refuses_parseEntities_iff {parseEntity : Parse α} {sizeof : Nat}
    (h : InBounds buffer s) (hgood : s.state = true) :
    Refuses buffer (parseEntities buffer sizeof parseEntity) (SizeOversized buffer s) s ↔
      (8 ≤ remaining buffer s → (declared buffer s).toNat ≤ remaining buffer s - 8) := by
  by_cases hlt : remaining buffer s < 8
  · have hcount := parseCount_eq h sizeof
    rw [if_pos hlt] at hcount
    have hrun : parseEntities buffer sizeof parseEntity s = .ok none s.bad := bind_eq_of_ok hcount
    exact iff_of_true (refuses_of_ok hrun rfl) fun hle => absurd hlt (Nat.not_lt.mpr hle)
  · obtain ⟨h8, hremaining, -⟩ := behind_size h hlt
    by_cases hfits : (declared buffer s).toNat ≤ remaining buffer s - 8
    · exact iff_of_true (refuses_of_not (not_or.mpr ⟨hlt, Nat.not_lt.mpr hfits⟩)) fun _ => hfits
    · refine iff_of_false ?_ fun hle => hfits (hle (Nat.not_lt.mp hlt))
      have hmany := Nat.lt_of_not_le hfits
      have hcount := parseCount_eq h sizeof
      have hzero : declared buffer s ≠ 0 := by
        intro hzero
        rw [hzero] at hmany
        exact Nat.not_lt_zero _ hmany
      split_ifs at hcount with hwraps
      · exact not_refuses_of_error (.inr hmany) h8 (bind_eq_of_error hcount) hgood
      · exact not_refuses_of_ok (a := none) (.inr hmany) h8 (bind_eq_of_ok hcount) hgood

namespace Read

theorem bounded_iff_refuses {read : Read} (h : InBounds buffer s)
    (hinside : ∀ result, read.Inside buffer result) :
    read.Bounded buffer s ↔ Refuses buffer (read.parse buffer) (read.Oversized buffer s) s := by
  have hsafe : Wp (read.parse buffer) _ _ s := read.safe_parse s h
  constructor
  · exact fun hbounded => hbounded.imp (fun _ _ h => h.2) fun _ _ h => h.2
  · intro hrefuses
    unfold Refuses at hrefuses
    unfold Bounded
    unfold Wp
    cases hrun : read.parse buffer s with
    | ok result t =>
      exact ⟨⟨hinside result, (hsafe.of_ok hrun).inBounds⟩, hrefuses.of_ok hrun⟩
    | error e t =>
      obtain ⟨hdefined, hfollows⟩ := hsafe.of_error hrun
      exact ⟨⟨hdefined, hfollows.inBounds⟩, hrefuses.of_error hrun⟩

theorem bounded_iff_of_good {read : Read} {fits : Prop} (h : InBounds buffer s)
    (hinside : ∀ result, read.Inside buffer result) (hgood : s.state = true →
      (Refuses buffer (read.parse buffer) (read.Oversized buffer s) s ↔ fits)) :
    read.Bounded buffer s ↔ (s.state = true → fits) := by
  rw [bounded_iff_refuses h hinside]
  by_cases hstate : s.state = true
  · rw [hgood hstate]
    exact ⟨fun hfits _ => hfits, fun hfits => hfits hstate⟩
  · grind [refuses_of_bad, read.safe_parse]

theorem bounded_bytesView_iff (h : InBounds buffer s) :
    bytesView.Bounded buffer s ↔ bytesView.Fits buffer s := by
  have hrun := parseBytesView_eq h
  unfold Bounded Wp
  rw [show bytesView.parse buffer s = _ from hrun]
  split_ifs with hlt havailable
  · refine iff_of_true ⟨⟨Nat.zero_le _, inBounds_moved h (Nat.zero_le _)⟩, fun _ => ?_⟩
      fun hle => absurd hlt (Nat.not_lt.mpr hle)
    exact isValid_of_bad rfl
  all_goals obtain ⟨h8, hremaining, htest⟩ := behind_size h hlt
  · by_cases hwraps : (s.moved 8).Wraps (declared buffer s)
    · refine iff_of_false ?_ fun hfits => hfits (Nat.not_lt.mp hlt) hwraps
      rintro ⟨⟨hinside, -⟩, -⟩
      have hlarge := lt_of_wraps h8 hwraps
      have hsmall := buffer.small
      change 0 + (declared buffer s).toNat ≤ buffer.data.length at hinside
      omega
    · have hfits := (htest.mp havailable).resolve_right hwraps
      refine iff_of_true ⟨⟨?_, inBounds_moved h8 (hremaining.symm ▸ hfits)⟩, fun hover => ?_⟩
        fun _ => hwraps
      · show 0 + (declared buffer s).toNat ≤ buffer.data.length
        unfold remaining at hfits
        omega
      · exact absurd hover (not_or.mpr ⟨hlt, Nat.not_lt.mpr hfits⟩)
  · refine iff_of_true ⟨⟨Nat.zero_le _, h8⟩, fun _ => isValid_of_bad rfl⟩ fun _ hwraps => ?_
    exact havailable (htest.mpr (.inr hwraps))

theorem bounded_iff_fits (h : InBounds buffer s) (read : Read) :
    read.Bounded buffer s ↔ read.Fits buffer s := by
  cases read with
  | value size | array size | fixedString size =>
    refine iff_of_true ((bounded_iff_refuses h fun _ => ?_).mpr (refuses_parseFixed h size)) trivial
    trivial
  | pair first second =>
    refine iff_of_true ((bounded_iff_refuses h fun _ => ?_).mpr (refuses_of_not id)) trivial
    trivial
  | skip size =>
    exact bounded_iff_of_good h (fun _ => trivial) fun hgood => refuses_skip_iff h hgood size
  | bytes =>
    exact bounded_iff_of_good h (fun _ => trivial)
      (refuses_parseContainer_iff (Nat.sub_le _ _) le_rfl h)
  | string =>
    exact bounded_iff_of_good h (fun _ => trivial)
      (refuses_parseContainer_iff (Nat.sub_le_sub_left (by decide) _) (Nat.sub_le _ _) h)
  | bytesView => exact bounded_bytesView_iff h
  | vector sizeof entity =>
    exact bounded_iff_of_good h (fun _ => trivial) (refuses_parseEntities_iff h)

end Read

def following {α γ : Type} (result : EStateM.Result Fault DataStream α)
    (next : α → DataStream → List γ) : List γ :=
  match result with
  | .ok a t => next a t
  | .error _ _ => []

theorem mem_following {γ : Type} {m : Parse α} {next : α → DataStream → List γ} {c : γ}
    {E : Fault → DataStream → Prop} {Q : α → DataStream → Prop} (hm : Wp m E Q s)
    (h : c ∈ following (m s) next) : ∃ a t, Q a t ∧ c ∈ next a t := by
  cases hrun : m s with
  | ok a t =>
    rw [hrun] at h
    exact ⟨a, t, hm.of_ok hrun, h⟩
  | error e t =>
    rw [hrun] at h
    cases h

def entityStreams {α : Type} (parseEntity : Parse α) : Nat → DataStream → List DataStream
  | 0, _ => []
  | n + 1, s => s :: following (parseEntity s) fun _ t => entityStreams parseEntity n t

theorem inBounds_entityStreams {parseEntity : Parse α} (hentity : Safe buffer parseEntity)
    (n : Nat) : ∀ s, InBounds buffer s →
    ∀ t ∈ entityStreams parseEntity n s, InBounds buffer t := by
  induction n with
  | zero =>
    intro s _ t ht
    cases ht
  | succ n ih =>
    intro s h t ht
    rcases List.mem_cons.mp ht with rfl | ht
    · exact h
    · obtain ⟨_, u, hsu, ht⟩ := mem_following (hentity s h) ht
      exact ih u hsu.inBounds t ht

def Read.calls (buffer : Buffer) : Read → DataStream → List (Read × DataStream)
  | .pair first second, s => (.pair first second, s) ::
      (first.calls buffer s ++
        following (first.parse buffer s) fun _ t => second.calls buffer t)
  | .vector sizeof entity, s => (.vector sizeof entity, s) ::
      following (parseCount buffer sizeof s) fun count t =>
        (entityStreams (entity.parse buffer) (count.getD 0) t).flatMap (entity.calls buffer)
  | read, s => [(read, s)]

/-- The reads of a sequence. The caller may go on after an exception. -/
def callsOf (buffer : Buffer) : List Read → DataStream → List (Read × DataStream)
  | [], _ => []
  | read :: reads, s => read.calls buffer s ++ callsOf buffer reads (read.after buffer s)

theorem Read.inBounds_after (h : InBounds buffer s) (read : Read) :
    InBounds buffer (read.after buffer s) := by
  have hsafe : Wp (read.parse buffer) _ _ s := read.safe_parse s h
  unfold after
  cases hrun : read.parse buffer s with
  | ok result t => exact (hsafe.of_ok hrun).inBounds
  | error e t => exact (hsafe.of_error hrun).2.inBounds

theorem Read.inBounds_calls (read : Read) : ∀ s, InBounds buffer s →
    ∀ call ∈ read.calls buffer s, InBounds buffer call.2 := by
  induction read with
  | pair first second ihFirst ihSecond =>
    intro s h call hcall
    rcases List.mem_cons.mp hcall with rfl | hcall
    · exact h
    · rcases List.mem_append.mp hcall with hcall | hcall
      · exact ihFirst s h call hcall
      · obtain ⟨_, t, hst, hcall⟩ := mem_following (first.safe_parse s h) hcall
        exact ihSecond t hst.inBounds call hcall
  | vector sizeof entity ih =>
    intro s h call hcall
    rcases List.mem_cons.mp hcall with rfl | hcall
    · exact h
    · obtain ⟨count, t, hst, hcall⟩ := mem_following (safe_parseCount sizeof s h) hcall
      obtain ⟨u, hu, hcall⟩ := List.mem_flatMap.mp hcall
      exact ih u (inBounds_entityStreams entity.safe_parse _ t hst.inBounds u hu) call hcall
  | _ =>
    intro s h call hcall
    rw [List.mem_singleton.mp hcall]
    exact h

theorem inBounds_callsOf (reads : List Read) : ∀ s, InBounds buffer s →
    ∀ call ∈ callsOf buffer reads s, InBounds buffer call.2 := by
  induction reads with
  | nil =>
    intro s _ call hcall
    cases hcall
  | cons read reads ih =>
    intro s h call hcall
    rcases List.mem_append.mp hcall with hcall | hcall
    · exact read.inBounds_calls s h call hcall
    · exact ih _ (read.inBounds_after h) call hcall

/-- Whatever is read from a buffer, no read leaves it. All reads leave the stream invalid when they
ask for too much, and hand out views of the buffer only, exactly if the sizes in the buffer fit. -/
theorem parse_bounded_iff (buffer : Buffer) (reads : List Read) :
    (∀ call ∈ callsOf buffer reads {},
      Wp (call.1.parse buffer) (fun e t => e ≠ .undefined ∧ t.index ≤ buffer.dataSize)
        (fun _ t => t.index ≤ buffer.dataSize) call.2) ∧
    ((∀ call ∈ callsOf buffer reads {}, call.1.Bounded buffer call.2) ↔
      ∀ call ∈ callsOf buffer reads {}, call.1.Fits buffer call.2) := by
  have hstart : InBounds buffer {} := Nat.zero_le _
  have hindex : ∀ t, InBounds buffer t → t.index ≤ buffer.dataSize := by
    intro t ht
    rw [UInt64.le_iff_toNat_le, toNat_dataSize]
    exact ht
  have hcalls := inBounds_callsOf reads {} hstart
  constructor
  · intro call hcall
    refine (call.1.safe_parse call.2 (hcalls call hcall)).imp ?_ fun _ t hst =>
      hindex t hst.inBounds
    exact fun e t h => ⟨h.1, hindex t h.2.inBounds⟩
  · exact forall₂_congr fun call hcall => Read.bounded_iff_fits (hcalls call hcall) call.1

/-- A buffer with a size and nothing behind it. -/
def demoBuffer (size : UInt64) : Buffer where
  data := leBytes 8 size.toNat
  small := by rw [length_leBytes]; decide

/-- A vector of one entity where there is no byte for it, and sizes with which the sum wraps around:
no read is refused, the vector is left alone, the container throws and the view is as large as the
address space. -/
theorem oversized_reads_stay_valid :
    (∃ t, (Read.vector 8 .string).parse (demoBuffer 1) {} = .ok none t ∧
        isValid (demoBuffer 1) t = true) ∧
      (∃ e t, Read.bytes.parse (demoBuffer 0xFFFFFFFFFFFFFFFF) {} = .error e t ∧
        isValid (demoBuffer 0xFFFFFFFFFFFFFFFF) t = true) ∧
      (∃ t, Read.bytesView.parse (demoBuffer 0xFFFFFFFFFFFFFFF8) {} =
          .ok { size := 0xFFFFFFFFFFFFFFF8 } t ∧
        isValid (demoBuffer 0xFFFFFFFFFFFFFFF8) t = true) ∧
      ¬ (Read.vector 8 .string).Bounded (demoBuffer 1) {} ∧
      ¬ Read.bytes.Bounded (demoBuffer 0xFFFFFFFFFFFFFFFF) {} ∧
      ¬ Read.bytesView.Bounded (demoBuffer 0xFFFFFFFFFFFFFFF8) {} := by
  have hstart : ∀ size, InBounds (demoBuffer size) {} := fun _ => Nat.zero_le _
  refine ⟨⟨{ index := 8 }, rfl, by decide⟩, ⟨_, { index := 8 }, rfl, by decide⟩,
    ⟨{ index := 0 }, rfl, by decide⟩, ?_, ?_, ?_⟩
  · rw [Read.bounded_iff_fits (hstart _)]
    exact fun hfits => absurd (hfits rfl (by decide)) (by decide)
  · rw [Read.bounded_iff_fits (hstart _)]
    exact fun hfits => hfits rfl (by decide) (by decide)
  · rw [Read.bounded_iff_fits (hstart _)]
    exact fun hfits => hfits (by decide) (by decide)

end CreditsNode.DataStream
