import Mathlib.Tactic.Ring
import Mathlib.Tactic.Linarith
import Mathlib.Data.Vector.Basic

/-!
# Little-endian byte codecs

Readers of byte strings and the relation `Reads` between a reader, the bytes it consumes and the
value it yields, whatever follows. `Reads.bind` composes such facts along a `do` block, and
`Reads.unique` turns them into unique decodability.
-/

namespace ByteCodec

abbrev Bytes := List UInt8

/-- A reader consumes a part from the front of a byte string, or fails. -/
abbrev Get (α : Type) := StateT Bytes Option α

variable {α β γ : Type}

/-- The reader `g` consumes exactly `bs` and yields `a`, whatever follows. -/
def Reads (g : Get α) (bs : Bytes) (a : α) : Prop :=
  ∀ rest, g (bs ++ rest) = some (a, rest)

namespace Reads

theorem pure (a : α) : Reads (Pure.pure a) [] a := fun _ => rfl

variable {g : Get α} {a : α} {bs : Bytes}

theorem bind_apply (hg : Reads g bs a) (f : α → Get β)
    (rest : Bytes) : (g >>= f) (bs ++ rest) = f a rest := by
  change (g (bs ++ rest)).bind (fun p => f p.1 p.2) = _
  rw [hg]
  rfl

theorem bind {f : α → Get β} {bs cs : Bytes} {b : β} (hg : Reads g bs a)
    (hf : Reads (f a) cs b) : Reads (g >>= f) (bs ++ cs) b := by
  intro rest
  rw [List.append_assoc, hg.bind_apply]
  exact hf rest

theorem map (h : Reads g bs a) (f : α → β) : Reads (f <$> g) bs (f a) := by
  intro rest
  change (g (bs ++ rest)).bind (fun p => some (f p.1, p.2)) = _
  rw [h]
  rfl

/-- A reader that runs after the last byte has been consumed. -/
theorem bind_pure {f : α → Get β} {b : β} (hg : Reads g bs a)
    (hf : Reads (f a) [] b) : Reads (g >>= f) bs b := by
  simpa using hg.bind hf

/-- What a reader yields, and where it stops, is determined by the byte string. -/
theorem unique {bs cs r s : Bytes} {a b : α} (ha : Reads g bs a) (hb : Reads g cs b)
    (h : bs ++ r = cs ++ s) : a = b ∧ r = s := by
  have heq : some (a, r) = some (b, s) := by rw [← ha r, ← hb s, h]
  simpa using heq

end Reads

/-- Whatever the reader accepts has the property. -/
def Ensures (g : Get α) (P : α → Prop) : Prop :=
  ∀ bs a rest, g bs = some (a, rest) → P a

namespace Ensures

variable {P : α → Prop}

theorem pure {a : α} (h : P a) : Ensures (Pure.pure a) P := by
  intro bs b rest hb
  cases hb
  exact h

variable {Q : β → Prop} {g : Get α}

theorem bind {f : α → Get β} (hg : Ensures g P)
    (hf : ∀ a, P a → Ensures (f a) Q) : Ensures (g >>= f) Q := by
  intro bs b rest hb
  obtain ⟨⟨a, r⟩, ha, hb⟩ := Option.bind_eq_some_iff.mp hb
  exact hf a (hg bs a r ha) r b rest hb

theorem map {f : α → β} (hg : Ensures g P) (hf : ∀ a, P a → Q (f a)) : Ensures (f <$> g) Q := by
  intro bs b rest hb
  obtain ⟨⟨a, r⟩, ha, hb⟩ := Option.bind_eq_some_iff.mp hb
  cases hb
  exact hf a (hg bs a _ ha)

theorem trivial (g : Get α) : Ensures g fun _ => True := fun _ _ _ _ => True.intro

/-- A reader whose value does not matter. -/
theorem skip {f : α → Get β} (hf : ∀ a, Ensures (f a) Q) :
    Ensures (g >>= f) Q := (trivial g).bind fun a _ => hf a

theorem failure : Ensures (Alternative.failure : Get α) P := fun _ _ _ h => nomatch h

end Ensures

/-- Whatever the reader accepts begins with the bytes that it reads, and these and the value are
related by `R`. -/
def Consumes (g : Get α) (R : Bytes → α → Prop) : Prop :=
  ∀ bs a rest, g bs = some (a, rest) → ∃ used, bs = used ++ rest ∧ Reads g used a ∧ R used a

/-- What the reader yields depends on the bytes that it reads alone. -/
abbrev Local (g : Get α) : Prop := Consumes g fun _ _ => True

namespace Consumes

variable {R : Bytes → α → Prop}

theorem pure {a : α} (h : R [] a) : Consumes (Pure.pure a) R := by
  intro bs b rest hb
  cases hb
  exact ⟨[], rfl, Reads.pure a, h⟩

variable {g : Get α}

theorem bind {R S : Bytes → β → Prop} {Q : Bytes → α → Prop} {f : α → Get β}
    (hg : Consumes g Q) (hf : ∀ a, Consumes (f a) R)
    (h : ∀ front back b, R back b → S (front ++ back) b) : Consumes (g >>= f) S := by
  intro bs b rest hb
  obtain ⟨⟨a, r⟩, ha, hr⟩ := Option.bind_eq_some_iff.mp hb
  obtain ⟨front, rfl, hfront, -⟩ := hg bs a r ha
  obtain ⟨back, rfl, hback, hR⟩ := hf a r b rest hr
  exact ⟨front ++ back, (List.append_assoc _ _ _).symm, hfront.bind hback, h front back b hR⟩

theorem map {S : Bytes → β → Prop} {f : α → β}
    (hg : Consumes g R) (h : ∀ used a, R used a → S used (f a)) : Consumes (f <$> g) S := by
  intro bs b rest hb
  obtain ⟨⟨a, r⟩, ha, hb⟩ := Option.bind_eq_some_iff.mp hb
  cases hb
  obtain ⟨used, rfl, hused, hR⟩ := hg bs a _ ha
  exact ⟨used, rfl, hused.map f, h used a hR⟩

theorem bind_pure {S : Bytes → β → Prop} {f : α → β}
    (hg : Consumes g R) (h : ∀ used a, R used a → S used (f a)) :
    Consumes (g >>= fun a => Pure.pure (f a)) S := hg.map h

theorem failure : Consumes (Alternative.failure : Get α) R :=
  fun _ _ _ h => nomatch h

theorem toLocal (hg : Consumes g R) : Local g :=
  fun bs a rest h => (hg bs a rest h).imp fun _ hused => ⟨hused.1, hused.2.1, trivial⟩

end Consumes

variable {g : Get α}

theorem Local.bind {f : α → Get β} (hg : Local g) (hf : ∀ a, Local (f a)) :
    Local (g >>= f) := Consumes.bind hg hf fun _ _ _ h => h

theorem Local.map {f : α → β} (hg : Local g) : Local (f <$> g) :=
  Consumes.map hg fun _ _ h => h

/-! ## Little-endian numbers -/

/-- The `k` low bytes of a number, least significant first. -/
def leBytes : Nat → Nat → Bytes
  | 0, _ => []
  | k + 1, x => UInt8.ofNat (x % 256) :: leBytes k (x / 256)

/-- The number with the given little-endian bytes. -/
def leNat : Bytes → Nat
  | [] => 0
  | b :: bs => b.toNat + 256 * leNat bs

@[simp] theorem length_leBytes (k x : Nat) : (leBytes k x).length = k := by
  induction k generalizing x with
  | zero => rfl
  | succ k ih => simp [leBytes, ih]

theorem leNat_leBytes (k x : Nat) : leNat (leBytes k x) = x % 256 ^ k := by
  induction k generalizing x with
  | zero => simp [leBytes, leNat, Nat.mod_one]
  | succ k ih =>
    have hlow : (UInt8.ofNat (x % 256)).toNat = x % 256 := by
      rw [UInt8.toNat_ofNat']
      omega
    rw [leBytes, leNat, ih, hlow, Nat.pow_succ', Nat.mod_mul]

theorem leNat_lt (bs : Bytes) : leNat bs < 256 ^ bs.length := by
  induction bs with
  | nil => exact Nat.one_pos
  | cons b bs ih =>
    have hb := b.toNat_lt
    show b.toNat + 256 * leNat bs < 256 ^ (bs.length + 1)
    omega

theorem leBytes_leNat (bs : Bytes) : leBytes bs.length (leNat bs) = bs := by
  induction bs with
  | nil => rfl
  | cons b bs ih =>
    have hb := b.toNat_lt
    have hlow : (b.toNat + 256 * leNat bs) % 256 = b.toNat := by omega
    have hhigh : (b.toNat + 256 * leNat bs) / 256 = leNat bs := by omega
    show UInt8.ofNat ((b.toNat + 256 * leNat bs) % 256) ::
      leBytes bs.length ((b.toNat + 256 * leNat bs) / 256) = _
    rw [hlow, hhigh, UInt8.ofNat_toNat, ih]

/-! ## Primitive readers -/

/-- Read `n` bytes. -/
def getBytes (n : Nat) : Get Bytes := fun bs =>
  if n ≤ bs.length then some (bs.take n, bs.drop n) else none

theorem reads_getBytes (bs : Bytes) : Reads (getBytes bs.length) bs bs := by
  intro rest
  simp [getBytes]

theorem ensures_getBytes (n : Nat) : Ensures (getBytes n) fun bs => bs.length = n := by
  intro bs a rest h
  unfold getBytes at h
  split_ifs at h with hn
  cases h
  simp [hn]

theorem consumes_getBytes (n : Nat) :
    Consumes (getBytes n) fun used a => used = a ∧ used.length = n := by
  intro bs a rest h
  have hlength := ensures_getBytes n bs a rest h
  unfold getBytes at h
  split_ifs at h with hn
  cases h
  refine ⟨bs.take n, (List.take_append_drop n bs).symm, ?_, rfl, hlength⟩
  have hreads := reads_getBytes (bs.take n)
  rwa [hlength] at hreads

theorem getBytes_succ (n : Nat) :
    getBytes (n + 1) = (do let a ← getBytes 1; let rest ← getBytes n; return a ++ rest) := by
  funext bs
  cases bs with
  | nil => rfl
  | cons b bs =>
    show getBytes (n + 1) (b :: bs) = (getBytes n bs).bind fun rest => some ([b] ++ rest.1, rest.2)
    grind [getBytes]

/-- Read a little-endian number of `k` bytes. -/
def getLe (k : Nat) : Get Nat := leNat <$> getBytes k

theorem reads_getLe (k x : Nat) : Reads (getLe k) (leBytes k x) (x % 256 ^ k) := by
  have h := reads_getBytes (leBytes k x)
  rw [length_leBytes] at h
  rw [← leNat_leBytes]
  exact h.map leNat

theorem reads_getLe_of_lt {k x : Nat} (h : x < 256 ^ k) : Reads (getLe k) (leBytes k x) x := by
  have := reads_getLe k x
  rwa [Nat.mod_eq_of_lt h] at this

/-- Read a byte array of fixed size. -/
def getArray (n : Nat) : Get (List.Vector UInt8 n) := fun bs =>
  if h : n ≤ bs.length then some (⟨bs.take n, by simp [h]⟩, bs.drop n) else none

theorem reads_getArray {n : Nat} (v : List.Vector UInt8 n) : Reads (getArray n) v.toList v := by
  obtain ⟨l, rfl⟩ := v
  intro rest
  have htake : (l ++ rest).take l.length = l := List.take_left
  simp [getArray]

theorem local_getArray (n : Nat) : Local (getArray n) := by
  intro bs a rest h
  unfold getArray at h
  split_ifs at h with hn
  cases h
  exact ⟨bs.take n, (List.take_append_drop n bs).symm, reads_getArray ⟨bs.take n, _⟩, trivial⟩

/-- Read a value if there is one, and nothing otherwise. -/
def getOptional (g : Get α) : Get (Option α) := fun bs =>
  match g bs with
  | some (a, rest) => some (some a, rest)
  | none => some (none, bs)

theorem Reads.optional {bs : Bytes} {a : α} (h : Reads g bs a) :
    Reads (getOptional g) bs (some a) := by
  intro rest
  unfold getOptional
  rw [h rest]

/-! ## Repetition -/

/-- Read `n` values one after the other. -/
def getMany (g : Get α) : Nat → Get (List α)
  | 0 => pure []
  | n + 1 => do
    let a ← g
    let as ← getMany g n
    return a :: as

/-- Reading a list written value by value, when the reader yields `f a` for what `a` was written
as. -/
theorem reads_getMany_map {g : Get β} {put : α → Bytes} {f : α → β} (as : List α)
    (h : ∀ a ∈ as, Reads g (put a) (f a)) :
    Reads (getMany g as.length) (as.flatMap put) (as.map f) := by
  induction as with
  | nil => exact Reads.pure []
  | cons a as ih =>
    have htail := ih fun b hb => h b (List.mem_cons_of_mem a hb)
    exact (h a List.mem_cons_self).bind (htail.bind_pure (Reads.pure _))

theorem reads_getMany {put : α → Bytes} (as : List α)
    (h : ∀ a ∈ as, Reads g (put a) a) : Reads (getMany g as.length) (as.flatMap put) as := by
  simpa using reads_getMany_map (f := id) as h

theorem ensures_getMany {P : α → Prop} (h : Ensures g P) (n : Nat) :
    Ensures (getMany g n) fun as => as.length = n ∧ ∀ a ∈ as, P a := by
  induction n with
  | zero => exact .pure (by simp)
  | succ n ih =>
    refine h.bind fun a ha => ih.bind fun as has => .pure ?_
    exact ⟨by simp [has.1], List.forall_mem_cons.mpr ⟨ha, has.2⟩⟩

theorem local_getMany (h : Local g) (n : Nat) : Local (getMany g n) := by
  induction n with
  | zero => exact .pure trivial
  | succ n ih => exact h.bind fun _ => ih.bind fun _ => .pure trivial

/-! ## Fixed-width integers -/

def putU8 (x : UInt8) : Bytes := leBytes 1 x.toNat
def putU16 (x : UInt16) : Bytes := leBytes 2 x.toNat
def putU32 (x : UInt32) : Bytes := leBytes 4 x.toNat
def putU64 (x : UInt64) : Bytes := leBytes 8 x.toNat
def putI32 (x : Int32) : Bytes := putU32 x.toUInt32

def getU8 : Get UInt8 := UInt8.ofNat <$> getLe 1
def getU16 : Get UInt16 := UInt16.ofNat <$> getLe 2
def getU32 : Get UInt32 := UInt32.ofNat <$> getLe 4
def getU64 : Get UInt64 := UInt64.ofNat <$> getLe 8
def getI32 : Get Int32 := UInt32.toInt32 <$> getU32

theorem reads_getU8 (x : UInt8) : Reads getU8 (putU8 x) x := by
  simpa [getU8, putU8] using (reads_getLe_of_lt (k := 1) x.toNat_lt).map UInt8.ofNat

theorem reads_getU16 (x : UInt16) : Reads getU16 (putU16 x) x := by
  simpa [getU16, putU16] using (reads_getLe_of_lt (k := 2) x.toNat_lt).map UInt16.ofNat

theorem reads_getU32 (x : UInt32) : Reads getU32 (putU32 x) x := by
  simpa [getU32, putU32] using (reads_getLe_of_lt (k := 4) x.toNat_lt).map UInt32.ofNat

theorem reads_getU64 (x : UInt64) : Reads getU64 (putU64 x) x := by
  simpa [getU64, putU64] using (reads_getLe_of_lt (k := 8) x.toNat_lt).map UInt64.ofNat

theorem reads_getI32 (x : Int32) : Reads getI32 (putI32 x) x := by
  simpa [getI32, putI32] using (reads_getU32 x.toUInt32).map UInt32.toInt32

theorem local_getLe (k : Nat) : Local (getLe k) := (consumes_getBytes k).toLocal.map

theorem local_getU8 : Local getU8 := (local_getLe 1).map

theorem local_getU16 : Local getU16 := (local_getLe 2).map

theorem local_getU32 : Local getU32 := (local_getLe 4).map

theorem local_getI32 : Local getI32 := local_getU32.map

theorem consumes_getU64 : Consumes getU64 fun used x => used = putU64 x := by
  have hle : Consumes (getLe 8) fun used n => used.length = 8 ∧ n = leNat used :=
    .map (consumes_getBytes 8) fun used a h => ⟨h.2, by rw [h.1]⟩
  refine hle.map ?_
  rintro used n ⟨hlength, rfl⟩
  have hlt : leNat used < 2 ^ 64 := by
    have h := leNat_lt used
    rwa [hlength] at h
  show used = leBytes 8 (UInt64.ofNat (leNat used)).toNat
  rw [UInt64.toNat_ofNat_of_lt' hlt]
  conv_rhs => rw [← hlength]
  exact (leBytes_leNat used).symm

theorem local_getU64 : Local getU64 := consumes_getU64.toLocal

end ByteCodec
