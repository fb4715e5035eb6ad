import CreditsNode.Csnode.DataStreamEntity
import CreditsNode.Csnode.Proofs.DataStreamProofs

/-!
# What a stream gives back

Each `operator>>` takes exactly the bytes of `operator<<`, but the values need not come back: a view
is made of the first bytes of the buffer, and an empty vector is not assigned. If the buffer ends
too early, the stream turns bad, unless the end is met by a vector with fewer bytes left than it has
entities.
-/

namespace CreditsNode.DataStream

open ByteCodec Effect List Entity

variable {buffer : Buffer} {s t : DataStream}

def left (buffer : Buffer) (s : DataStream) : Bytes := buffer.data.drop s.index.toNat

@[simp] theorem length_left : (left buffer s).length = remaining buffer s := length_drop

theorem left_moved (h : InBounds buffer s) {size : UInt64}
    (hsize : size.toNat ≤ remaining buffer s) :
    left buffer (s.moved size) = (left buffer s).drop size.toNat := by
  unfold left
  rw [toNat_index_moved h hsize, drop_drop]

theorem remaining_le (buffer : Buffer) (s : DataStream) : remaining buffer s ≤ ptrdiffMax :=
  (Nat.sub_le _ _).trans buffer.small

theorem moved_moved (s : DataStream) (m n : Nat) :
    (s.moved (.ofNat m)).moved (.ofNat n) = s.moved (.ofNat (m + n)) := by
  unfold moved
  rw [UInt64.ofNat_add, UInt64.add_assoc]

theorem moved_zero (s : DataStream) : s.moved 0 = s := by
  unfold moved
  rw [UInt64.add_zero]

variable {n : Nat} {bs data : Bytes}

theorem toNat_ofNat_of_le (h : n ≤ ptrdiffMax) : (UInt64.ofNat n).toNat = n := by
  unfold ptrdiffMax at h
  exact UInt64.toNat_ofNat_of_lt' (by show n < 2 ^ 64; omega)

section Takes

variable {α β : Type}

def Takes (buffer : Buffer) (m : Parse α) (bs : Bytes) (Q : α → Prop) : Prop :=
  ∀ s, InBounds buffer s → bs <+: left buffer s →
    ∃ a, m s = .ok a (s.moved (.ofNat bs.length)) ∧ Q a

variable {bs : Bytes}

theorem inBounds_behind (h : InBounds buffer s) {cs : Bytes} (hleft : left buffer s = bs ++ cs) :
    InBounds buffer (s.moved (.ofNat bs.length)) ∧
      left buffer (s.moved (.ofNat bs.length)) = cs := by
  have hlength : bs.length ≤ remaining buffer s := by
    rw [← length_left, hleft, length_append]
    exact Nat.le_add_right _ _
  have hnat := toNat_ofNat_of_le (hlength.trans (remaining_le buffer s))
  grind [inBounds_moved, left_moved]

theorem Takes.pure {Q : α → Prop} {a : α} (h : Q a) :
    Takes buffer (Pure.pure a : Parse α) [] Q := by
  intro s _ _
  refine ⟨a, ?_, h⟩
  show _ = EStateM.Result.ok a (s.moved 0)
  rw [moved_zero]
  rfl

variable {m : Parse α}

theorem Takes.bind {f : α → Parse β} {cs : Bytes} {P : α → Prop} {Q : β → Prop}
    (hm : Takes buffer m bs P) (hf : ∀ a, P a → Takes buffer (f a) cs Q) :
    Takes buffer (m >>= f) (bs ++ cs) Q := by
  rintro s h ⟨rest, hrest⟩
  rw [append_assoc] at hrest
  obtain ⟨a, hrun, ha⟩ := hm s h ⟨_, hrest⟩
  obtain ⟨h', hleft⟩ := inBounds_behind h hrest.symm
  obtain ⟨b, hrun', hb⟩ := hf a ha _ h' ⟨rest, hleft.symm⟩
  refine ⟨b, ?_, hb⟩
  rw [bind_eq_of_ok hrun, hrun', moved_moved, length_append]

theorem Takes.imp {P Q : α → Prop} (hm : Takes buffer m bs P)
    (h : ∀ a, P a → Q a) : Takes buffer m bs Q := by
  intro s hs hpre
  obtain ⟨a, hrun, ha⟩ := hm s hs hpre
  exact ⟨a, hrun, h a ha⟩

theorem Takes.map {g : α → β} {P : α → Prop} {Q : β → Prop}
    (hm : Takes buffer m bs P) (hg : ∀ a, P a → Q (g a)) :
    Takes buffer (m >>= fun a => Pure.pure (g a)) bs Q := by
  have htakes : Takes buffer (m >>= fun a => Pure.pure (g a)) (bs ++ []) Q :=
    hm.bind fun a ha => Takes.pure (hg a ha)
  rwa [append_nil] at htakes

end Takes

@[simp] theorem length_addSize (n : Nat) : (addSize n).length = 8 := rfl

theorem length_addVector (data : Bytes) : (addVector data).length = 8 + data.length := by
  unfold addVector
  rw [length_append, length_addSize]

theorem takes_parseFixed {size : ObjectSize} (hsize : bs.length = size.value.toNat) :
    Takes buffer (parseFixed buffer size) bs (· = bs) := by
  intro s h hpre
  have hle : size.value.toNat ≤ remaining buffer s := by
    rw [← hsize, ← length_left]
    exact hpre.length_le
  refine ⟨bs, ?_, rfl⟩
  rw [parseFixed_eq h, if_pos hle, hsize, UInt64.ofNat_toNat]
  congr 1
  rw [← hsize]
  exact (prefix_iff_eq_take.mp hpre).symm

theorem declared_of_prefix (hpre : addSize n <+: left buffer s) :
    declared buffer s = .ofNat n := by
  have htake : (left buffer s).take 8 = addSize n :=
    (prefix_iff_eq_take.mp hpre).symm
  show UInt64.ofNat (leNat ((left buffer s).take 8)) = _
  rw [htake]
  show UInt64.ofNat (leNat (leBytes 8 (UInt64.ofNat n).toNat)) = _
  rw [leNat_leBytes, Nat.mod_eq_of_lt (by exact UInt64.toNat_lt _), UInt64.ofNat_toNat]

theorem le_remaining_of_prefix (hpre : addSize n ++ bs <+: left buffer s) :
    8 + bs.length ≤ remaining buffer s := by
  have hle := hpre.length_le
  rwa [length_append, length_addSize, length_left] at hle

theorem left_moved_eight (h : InBounds buffer s)
    (hpre : addSize n ++ bs <+: left buffer s) : bs <+: left buffer (s.moved 8) := by
  obtain ⟨rest, hrest⟩ := hpre
  rw [append_assoc] at hrest
  have hbehind : left buffer (s.moved 8) = bs ++ rest := (inBounds_behind h hrest.symm).2
  exact ⟨rest, hbehind.symm⟩

theorem moved_eight (s : DataStream) (n : Nat) :
    (s.moved 8).moved (.ofNat n) = s.moved (.ofNat (8 + n)) :=
  moved_moved s 8 n

theorem declared_addVector (hpre : addVector data <+: left buffer s) :
    declared buffer s = .ofNat data.length ∧ (declared buffer s).toNat = data.length ∧
      8 + data.length ≤ remaining buffer s := by
  have hle := le_remaining_of_prefix hpre
  have hdeclared : declared buffer s = .ofNat data.length :=
    declared_of_prefix ((prefix_append _ _).trans hpre)
  refine ⟨hdeclared, ?_, hle⟩
  have hsmall := remaining_le buffer s
  rw [hdeclared]
  exact toNat_ofNat_of_le (by omega)

theorem takes_parseContainer {maxSize : Nat} {what : String} (hmin : ptrdiffMax - 8 ≤ maxSize)
    (hmax : maxSize ≤ ptrdiffMax) (data : Bytes) :
    Takes buffer (parseContainer buffer maxSize what) (addVector data) (· = data) := by
  intro s h hpre
  obtain ⟨hdeclared, hnat, hle⟩ := declared_addVector hpre
  have hdata := prefix_iff_eq_take.mp (left_moved_eight h hpre)
  refine ⟨data, ?_, rfl⟩
  rw [parseContainer_eq hmin hmax h, if_neg (by omega), if_pos (by omega), hnat, hdeclared,
    moved_eight, length_addVector]
  congr 1
  exact hdata.symm

theorem takes_parseBytesView (data : Bytes) :
    Takes buffer (parseBytesView buffer) (addVector data)
      (fun view => view.offset = 0 ∧ view.size.toNat = data.length) := by
  intro s h hpre
  obtain ⟨hdeclared, hnat, hle⟩ := declared_addVector hpre
  have hlt : ¬ remaining buffer s < 8 := by omega
  obtain ⟨-, -, havailable⟩ := behind_size h hlt
  refine ⟨{ size := declared buffer s }, ?_, rfl, hnat⟩
  grind [parseBytesView_eq, moved_eight, length_addVector]

theorem parseCount_of_le (h : InBounds buffer s) {sizeof : Nat} (hn : n ≠ 0)
    (hdeclared : declared buffer s = .ofNat n) (hmax : n ≤ ptrdiffMax / sizeof)
    (hle : 8 + n ≤ remaining buffer s) : parseCount buffer sizeof s = .ok (some n) (s.moved 8) := by
  have hnat : (declared buffer s).toNat = n := by
    have hsmall := remaining_le buffer s
    rw [hdeclared]
    exact toNat_ofNat_of_le (by omega)
  have hlt : ¬ remaining buffer s < 8 := by omega
  obtain ⟨h8, hremaining, -⟩ := behind_size h hlt
  have hzero : declared buffer s ≠ 0 := by
    intro hzero
    rw [hzero] at hnat
    exact hn hnat.symm
  have hwraps : ¬ (s.moved 8).Wraps (declared buffer s) := by
    refine not_wraps_of_le h8 ?_
    have hsmall := remaining_le buffer s
    omega
  grind [parseCount_eq]

theorem parseCount_zero (h : InBounds buffer s) {sizeof : Nat} (hdeclared : declared buffer s = 0)
    (hle : 8 ≤ remaining buffer s) : parseCount buffer sizeof s = .ok none (s.moved 8) := by
  rw [parseCount_eq h, if_neg (Nat.not_lt.mpr hle), if_pos hdeclared]

section Many

variable {α β γ : Type} {parseEntity : Parse α} {put : β → Bytes} {f : α → γ} {g : β → γ}

theorem takes_parseMany (vs : List β)
    (hentity : ∀ v ∈ vs, Takes buffer parseEntity (put v) fun a => f a = g v) :
    Takes buffer (parseMany parseEntity vs.length) (vs.flatMap put)
      fun entities => entities.map f = vs.map g := by
  induction vs with
  | nil => exact Takes.pure rfl
  | cons v vs ih =>
    refine (hentity v mem_cons_self).bind fun a ha => ?_
    refine (ih fun w hw => hentity w (mem_cons_of_mem _ hw)).map fun rest hrest => ?_
    rw [map_cons, map_cons, ha, hrest]

theorem length_le_flatMap (vs : List β) (hpos : ∀ v ∈ vs, 0 < (put v).length) :
    vs.length ≤ (vs.flatMap put).length := by
  induction vs with
  | nil => exact le_rfl
  | cons v vs ih =>
    grind

theorem length_le_length_flatMap {v : β} {vs : List β} (hv : v ∈ vs) :
    (put v).length ≤ (vs.flatMap put).length := by
  obtain ⟨before, behind, rfl⟩ := append_of_mem hv
  rw [flatMap_append, flatMap_cons, length_append, length_append]
  omega

theorem takes_parseEntities {sizeof : Nat} (vs : List β) (hmax : vs.length ≤ ptrdiffMax / sizeof)
    (hpos : ∀ v ∈ vs, 0 < (put v).length)
    (hentity : ∀ v ∈ vs, Takes buffer parseEntity (put v) fun a => f a = g v) :
    Takes buffer (parseEntities buffer sizeof parseEntity)
      (addSize vs.length ++ vs.flatMap put)
      fun result => result.map (·.map f) = if vs = [] then none else some (vs.map g) := by
  intro s h hpre
  have hle := le_remaining_of_prefix hpre
  have hlength := length_le_flatMap vs hpos
  have hdeclared := declared_of_prefix ((prefix_append _ _).trans hpre)
  show ∃ a, (parseCount buffer sizeof >>= _) s = _ ∧ _
  cases vs with
  | nil =>
    refine ⟨none, ?_, rfl⟩
    rw [bind_eq_of_ok (parseCount_zero h hdeclared (by omega))]
    rfl
  | cons v vs =>
    have hlt : ¬ remaining buffer s < 8 := by omega
    obtain ⟨h8, -, -⟩ := behind_size h hlt
    obtain ⟨entities, hrun, hentities⟩ :=
      takes_parseMany _ hentity _ h8 (left_moved_eight h hpre)
    refine ⟨some entities, ?_, ?_⟩
    · rw [bind_eq_of_ok (parseCount_of_le h (length_cons ▸ Nat.succ_ne_zero _) hdeclared hmax
        (by omega))]
      show (parseMany parseEntity _ >>= _) _ = _
      rw [bind_eq_of_ok hrun, moved_eight, length_append, length_addSize]
      rfl
    · exact congrArg some hentities

theorem elim_eq_of_map {target : List γ} {vs : List β} {result : Option (List α)}
    (h : result.map (·.map f) = if vs = [] then none else some (vs.map g)) :
    result.elim target (·.map f) = if vs.isEmpty then target else vs.map g := by
  cases vs with
  | nil =>
    rw [if_pos rfl, Option.map_eq_none_iff] at h
    rw [h]
    rfl
  | cons v vs =>
    grind [Option.map_eq_some_iff]

theorem ite_map_eq_self_iff {f : α → α} (target vs : List α) :
    (if vs.isEmpty then target else vs.map f) = vs ↔
      (vs = [] → target = []) ∧ ∀ v ∈ vs, f v = v := by
  cases vs with
  | nil => simp
  | cons v vs =>
    rw [isEmpty_cons, if_neg Bool.false_ne_true]
    have hself : (v :: vs).map f = v :: vs ↔ (v :: vs).map f = (v :: vs).map id := by
      rw [map_id]
    rw [hself, map_inj_left]
    exact (and_iff_right fun h => absurd h (cons_ne_nil _ _)).symm

end Many

namespace Entity

theorem put_pos (entity : Entity) (v : entity.Value) (hfits : entity.Fits v) :
    0 < (entity.put v).length := by
  induction entity with
  | value size | array size | fixedString size => exact size.pos.trans_eq hfits.symm
  | bytes | string | bytesView =>
    exact (Nat.add_pos_left (by decide) _).trans_eq (length_addVector v).symm
  | pair first second ihFirst _ =>
    exact (Nat.add_pos_left (ihFirst v.1 hfits.1) _).trans_eq length_append.symm
  | vector sizeof entity _ =>
    have hsize : 0 < (addSize (length v)).length :=
      Nat.lt_of_lt_of_eq (by decide) (length_addSize _).symm
    exact (Nat.add_pos_left hsize _).trans_eq length_append.symm

def stored (buffer : Buffer) : (entity : Entity) → entity.Value → entity.Value → entity.Value
  | value _, _, v | array _, _, v | fixedString _, _, v | bytes, _, v | string, _, v => v
  | bytesView, _, v => buffer.data.take (List.length v)
  | pair first second, target, v =>
    (first.stored buffer target.1 v.1, second.stored buffer target.2 v.2)
  | vector _ entity, target, vs =>
    if List.isEmpty vs then target else List.map (entity.stored buffer entity.default) vs

theorem takes_parse (entity : Entity) (v : entity.Value) (hfits : entity.Fits v) :
    Takes buffer (entity.read.parse buffer) (entity.put v) fun result =>
      ∀ target, entity.assign buffer target result = entity.stored buffer target v := by
  induction entity with
  | value size | array size | fixedString size =>
    exact (takes_parseFixed hfits).imp fun result hresult _ => hresult
  | bytes =>
    exact (takes_parseContainer (Nat.sub_le _ _) le_rfl v).imp fun result hresult _ => hresult
  | string =>
    have hmin : ptrdiffMax - 8 ≤ ptrdiffMax - 1 := Nat.sub_le_sub_left (by decide) _
    exact (takes_parseContainer hmin (Nat.sub_le _ _) v).imp fun result hresult _ => hresult
  | bytesView =>
    refine (takes_parseBytesView v).imp ?_
    rintro view ⟨hoffset, hsize⟩ _
    show (buffer.data.drop view.offset).take view.size.toNat = buffer.data.take (length v)
    rw [hoffset, hsize, drop_zero]
  | pair first second ihFirst ihSecond =>
    refine (ihFirst v.1 hfits.1).bind fun a ha => ?_
    refine (ihSecond v.2 hfits.2).map fun b hb target => ?_
    exact Prod.ext (ha target.1) (hb target.2)
  | vector sizeof entity ih =>
    obtain ⟨hmax, hall⟩ := hfits
    have hentities := forall_iff_forall_mem.mp hall
    refine (takes_parseEntities v hmax (fun w hw => entity.put_pos w (hentities w hw))
      (fun w hw => ?_)).imp fun result hresult target => elim_eq_of_map hresult
    exact (ih w (hentities w hw)).imp fun a ha => ha entity.default

def Restored (buffer : Buffer) : (entity : Entity) → entity.Value → entity.Value → Prop
  | value _, _, _ | array _, _, _ | fixedString _, _, _ | bytes, _, _ | string, _, _ => True
  | bytesView, _, v => v <+: buffer.data
  | pair first second, target, v =>
    first.Restored buffer target.1 v.1 ∧ second.Restored buffer target.2 v.2
  | vector _ entity, target, vs =>
    (vs = ([] : List entity.Value) → target = ([] : List entity.Value)) ∧
      List.Forall (entity.Restored buffer entity.default) vs

theorem stored_eq_iff (entity : Entity) (target v : entity.Value) :
    entity.stored buffer target v = v ↔ entity.Restored buffer target v := by
  induction entity with
  | value size | array size | fixedString size => exact iff_of_true rfl trivial
  | bytes | string => exact iff_of_true rfl trivial
  | bytesView => exact eq_comm.trans prefix_iff_eq_take.symm
  | pair first second ihFirst ihSecond =>
    exact Prod.ext_iff.trans (and_congr (ihFirst target.1 v.1) (ihSecond target.2 v.2))
  | vector sizeof entity ih =>
    refine (ite_map_eq_self_iff target v).trans (and_congr Iff.rfl ?_)
    exact (forall₂_congr fun w _ => ih entity.default w).trans forall_iff_forall_mem.symm

end Entity

section Misses

variable {α β : Type}

def Spoils (m : Parse α) (s : DataStream) : Prop :=
  Wp m (fun _ t => t.state = false) (fun _ t => t.state = false) s

def Misses (buffer : Buffer) (m : Parse α) (bs : Bytes) (caught : Nat → Prop) : Prop :=
  ∀ s, InBounds buffer s → left buffer s <+: bs → remaining buffer s < bs.length →
    caught (remaining buffer s) → Spoils m s

variable {m : Parse α}

theorem spoils_of_bad (hm : Safe buffer m) (h : InBounds buffer s)
    (hbad : s.state = false) : Spoils m s :=
  (hm s h).imp (fun _ _ ht => ht.2.bad hbad) fun _ _ ht => ht.bad hbad

theorem Spoils.bind {f : α → Parse β} (hs : Spoils m s) (h : InBounds buffer s)
    (hm : Safe buffer m) (hf : ∀ a, Safe buffer (f a)) : Spoils (m >>= f) s := by
  have hinside : Returns m (fun _ t => InBounds buffer t) s :=
    (hm s h).imp (fun _ _ _ => trivial) fun _ _ ht => ht.inBounds
  refine Wp.bind (hs.and hinside) ?_
  rintro a t ⟨hbad, ht⟩
  exact spoils_of_bad (hf a) ht hbad

theorem Misses.pure {caught : Nat → Prop} (a : α) :
    Misses buffer (Pure.pure a : Parse α) [] caught :=
  fun _ _ _ hlt _ => absurd hlt (Nat.not_lt_zero _)

theorem Misses.bind {f : α → Parse β} {bs cs : Bytes} {P : α → Prop}
    {caught caught' : Nat → Prop} (hm : Misses buffer m bs caught) (hsafe : Safe buffer m)
    (htakes : Takes buffer m bs P) (hf : ∀ a, P a → Misses buffer (f a) cs caught')
    (hsafe' : ∀ a, Safe buffer (f a)) :
    Misses buffer (m >>= f) (bs ++ cs)
      fun n => if n < bs.length then caught n else caught' (n - bs.length) := by
  intro s h hpre hlt hcaught
  by_cases hcut : remaining buffer s < bs.length
  · rw [if_pos hcut] at hcaught
    have hbs : left buffer s <+: bs :=
      prefix_of_prefix_length_le hpre (prefix_append _ _) (length_left ▸ hcut.le)
    exact (hm s h hbs hcut hcaught).bind h hsafe hsafe'
  · rw [if_neg hcut] at hcaught
    have hbs : bs <+: left buffer s :=
      prefix_of_prefix_length_le (prefix_append _ _) hpre
        (length_left.symm ▸ Nat.not_lt.mp hcut)
    obtain ⟨a, hrun, ha⟩ := htakes s h hbs
    obtain ⟨rest, hrest⟩ := hbs
    obtain ⟨h', hleft⟩ := inBounds_behind h hrest.symm
    have hremaining :
        remaining buffer (s.moved (.ofNat bs.length)) = remaining buffer s - bs.length := by
      rw [← length_left, hleft, ← length_left, ← hrest, length_append, Nat.add_sub_cancel_left]
    have hspoils : Spoils (f a) (s.moved (.ofNat bs.length)) := by
      refine hf a ha _ h' ?_ ?_ (hremaining.symm ▸ hcaught)
      · rw [hleft]
        rw [← hrest] at hpre
        exact (prefix_append_right_inj _).mp hpre
      · rw [length_append] at hlt
        omega
    exact .bind_of_ok hrun hspoils

end Misses

theorem misses_parseFixed {size : ObjectSize} (hsize : bs.length = size.value.toNat) :
    Misses buffer (parseFixed buffer size) bs fun _ => True := by
  intro s h _ hlt _
  have hrun := parseFixed_eq h size
  rw [if_neg (by omega)] at hrun
  exact .of_eq_ok hrun rfl

theorem declared_of_cut (hpre : left buffer s <+: addSize n ++ bs)
    (hle : 8 ≤ remaining buffer s) : declared buffer s = .ofNat n := by
  refine declared_of_prefix (prefix_of_prefix_length_le (prefix_append _ _) hpre ?_)
  rw [length_addSize, length_left]
  exact hle

theorem misses_parseContainer {maxSize : Nat} {what : String} (hmin : ptrdiffMax - 8 ≤ maxSize)
    (hmax : maxSize ≤ ptrdiffMax) (hdata : data.length ≤ ptrdiffMax) :
    Misses buffer (parseContainer buffer maxSize what) (addVector data) fun _ => True := by
  intro s h hpre hlt _
  have hrun : parseContainer buffer maxSize what s = _ := parseContainer_eq hmin hmax h
  by_cases hsize : remaining buffer s < 8
  · rw [if_pos hsize] at hrun
    exact .of_eq_ok hrun rfl
  · have hnat : (declared buffer s).toNat = data.length := by
      rw [declared_of_cut hpre (Nat.not_lt.mp hsize)]
      exact toNat_ofNat_of_le hdata
    have hwraps := not_wraps_of_le (behind_size h hsize).1 (hnat.symm ▸ hdata)
    rw [length_addVector] at hlt
    rw [if_neg hsize, if_neg (by omega), if_neg hwraps] at hrun
    exact .of_eq_ok hrun rfl

theorem misses_parseBytesView (hdata : data.length ≤ ptrdiffMax) :
    Misses buffer (parseBytesView buffer) (addVector data) fun _ => True := by
  intro s h hpre hlt _
  have hrun := parseBytesView_eq h
  by_cases hsize : remaining buffer s < 8
  · rw [if_pos hsize] at hrun
    exact .of_eq_ok hrun rfl
  · have hnat : (declared buffer s).toNat = data.length := by
      rw [declared_of_cut hpre (Nat.not_lt.mp hsize)]
      exact toNat_ofNat_of_le hdata
    obtain ⟨h8, -, havailable⟩ := behind_size h hsize
    have hwraps := not_wraps_of_le h8 (hnat.symm ▸ hdata)
    rw [length_addVector] at hlt
    have hno : ¬ isAvailable buffer (declared buffer s) (s.moved 8) = true := by
      rw [havailable]
      exact not_or.mpr ⟨by omega, hwraps⟩
    rw [if_neg hsize, if_neg hno] at hrun
    exact .of_eq_ok hrun rfl

/-- The first of several things that is not there as a whole is caught. -/
def CutAt {α : Type} (size : α → Nat) (caught : α → Nat → Prop) : List α → Nat → Prop
  | [], _ => True
  | a :: as, n => if n < size a then caught a n else CutAt size caught as (n - size a)

section Many

variable {α β : Type} {parseEntity : Parse α} {put : β → Bytes} {caught : β → Nat → Prop}

theorem misses_parseMany (hsafe : Safe buffer parseEntity) (vs : List β)
    (htakes : ∀ v ∈ vs, Takes buffer parseEntity (put v) fun _ => True)
    (hmisses : ∀ v ∈ vs, Misses buffer parseEntity (put v) (caught v)) :
    Misses buffer (parseMany parseEntity vs.length) (vs.flatMap put)
      (CutAt (fun v => (put v).length) caught vs) := by
  induction vs with
  | nil => exact Misses.pure _
  | cons v vs ih =>
    have hrest := ih (fun w hw => htakes w (mem_cons_of_mem _ hw))
      fun w hw => hmisses w (mem_cons_of_mem _ hw)
    have hmany := safe_parseMany hsafe vs.length
    refine (hmisses v mem_cons_self).bind hsafe (htakes v mem_cons_self)
      (fun a _ => ?_) fun a => hmany.bind fun rest => Safe.pure _
    intro s h hpre hlt hcut
    exact (hrest s h hpre hlt hcut).bind h hmany fun rest => Safe.pure _

/-- If there are fewer bytes than entities, the read goes on as if the vector were empty. -/
theorem misses_parseEntities {sizeof : Nat} (hsafe : Safe buffer parseEntity) (vs : List β)
    (hmax : vs.length ≤ ptrdiffMax / sizeof)
    (htakes : ∀ v ∈ vs, Takes buffer parseEntity (put v) fun _ => True)
    (hmisses : ∀ v ∈ vs, Misses buffer parseEntity (put v) (caught v)) :
    Misses buffer (parseEntities buffer sizeof parseEntity)
      (addSize vs.length ++ vs.flatMap put)
      fun n => n < 8 ∨ (8 + vs.length ≤ n ∧ CutAt (fun v => (put v).length) caught vs (n - 8)) := by
  intro s h hpre hlt hcaught
  show Spoils (parseCount buffer sizeof >>= _) s
  by_cases hsize : remaining buffer s < 8
  · have hrun := parseCount_eq h sizeof
    rw [if_pos hsize] at hrun
    exact .bind_of_ok hrun rfl
  · obtain ⟨hle, hcut⟩ := hcaught.resolve_left hsize
    obtain ⟨h8, hremaining, -⟩ := behind_size h hsize
    have hdeclared := declared_of_cut hpre (Nat.not_lt.mp hsize)
    have hne : vs.length ≠ 0 := by
      grind [length_addSize]
    obtain ⟨rest, hrest⟩ : addSize vs.length <+: left buffer s :=
      prefix_of_prefix_length_le (prefix_append _ _) hpre (by simpa using hsize)
    have hleft : left buffer (s.moved 8) = rest := (inBounds_behind h hrest.symm).2
    rw [← hrest, prefix_append_right_inj] at hpre
    rw [length_append, length_addSize] at hlt
    have hmany := misses_parseMany hsafe vs htakes hmisses _ h8 (hleft.symm ▸ hpre) (by omega)
      (hremaining.symm ▸ hcut)
    have hspoils : Spoils (parseMany parseEntity vs.length >>= fun entities => pure (some entities))
        (s.moved 8) := hmany.bind h8 (safe_parseMany hsafe _) fun _ => Safe.pure _
    exact .bind_of_ok (parseCount_of_le h hne hdeclared hmax hle) hspoils

end Many

namespace Entity

/-- A buffer that ends after `n` bytes of a value turns the stream bad: no vector in it is cut off
with fewer bytes than entities. -/
def Caught : (entity : Entity) → entity.Value → Nat → Prop
  | value _, _, _ | array _, _, _ | fixedString _, _, _ => True
  | bytes, _, _ | string, _, _ | bytesView, _, _ => True
  | pair first second, v, n =>
    if n < (first.put v.1).length then first.Caught v.1 n
    else second.Caught v.2 (n - (first.put v.1).length)
  | vector _ entity, vs, n =>
    n < 8 ∨ (8 + List.length vs ≤ n ∧
      CutAt (fun v => (entity.put v).length) entity.Caught vs (n - 8))

theorem misses_parse (entity : Entity) (v : entity.Value) (hfits : entity.Fits v)
    (hsmall : (entity.put v).length ≤ ptrdiffMax) :
    Misses buffer (entity.read.parse buffer) (entity.put v) (entity.Caught v) := by
  induction entity with
  | value size | array size | fixedString size => exact misses_parseFixed hfits
  | bytes =>
    exact misses_parseContainer (Nat.sub_le _ _) le_rfl
      ((Nat.le_add_left _ _).trans ((length_addVector v).symm.trans_le hsmall))
  | string =>
    have hmin : ptrdiffMax - 8 ≤ ptrdiffMax - 1 := Nat.sub_le_sub_left (by decide) _
    exact misses_parseContainer hmin (Nat.sub_le _ _)
      ((Nat.le_add_left _ _).trans ((length_addVector v).symm.trans_le hsmall))
  | bytesView =>
    exact misses_parseBytesView
      ((Nat.le_add_left _ _).trans ((length_addVector v).symm.trans_le hsmall))
  | pair first second ihFirst ihSecond =>
    have hlength : (first.put v.1).length + (second.put v.2).length ≤ ptrdiffMax :=
      length_append.symm.trans_le hsmall
    have hsafe : Safe buffer (second.read.parse buffer) := Read.safe_parse second.read
    refine (ihFirst v.1 hfits.1 (by omega)).bind (Read.safe_parse first.read)
      (first.takes_parse v.1 hfits.1) (fun a _ => ?_) fun a => hsafe.bind fun b => Safe.pure _
    intro s h hpre hlt hcaught
    have hsecond := ihSecond v.2 hfits.2 (by omega) s h hpre hlt hcaught
    exact hsecond.bind h hsafe fun b => Safe.pure _
  | vector sizeof entity ih =>
    obtain ⟨hmax, hall⟩ := hfits
    have hentities := forall_iff_forall_mem.mp hall
    refine misses_parseEntities (Read.safe_parse entity.read) v hmax
      (fun w hw => (entity.takes_parse w (hentities w hw)).imp fun _ _ => trivial) fun w hw => ?_
    have hput :
        (addSize (length v)).length + (flatMap entity.put v).length ≤ ptrdiffMax :=
      length_append.symm.trans_le hsmall
    have hle : (entity.put w).length ≤ (flatMap entity.put v).length :=
      length_le_length_flatMap hw
    exact ih w (hentities w hw) (by omega)

end Entity

namespace Item

/-- The value is in the variable after it has been read. -/
def Restored (buffer : Buffer) (item : Item) : Prop :=
  item.entity.Restored buffer item.target item.value

/-- A buffer that ends after `n` bytes of the value turns the stream bad. -/
def Caught (item : Item) (n : Nat) : Prop := item.entity.Caught item.value n

def put (item : Item) : Bytes := item.entity.put item.value

def stored (buffer : Buffer) (item : Item) : Field :=
  ⟨item.entity, item.entity.stored buffer item.target item.value⟩

theorem stored_eq_iff (item : Item) : item.stored buffer = item.toField ↔ item.Restored buffer := by
  refine Iff.trans ?_ (item.entity.stored_eq_iff item.target item.value)
  refine ⟨fun h => ?_, congrArg (Field.mk item.entity)⟩
  have hmk : Field.mk item.entity _ = Field.mk item.entity item.value := h
  injection hmk

end Item

theorem takes_readAll (items : List Item) :
    Takes buffer (readAll buffer items) (putAll items) (· = items.map (·.stored buffer)) := by
  induction items with
  | nil => exact Takes.pure rfl
  | cons item rest ih =>
    refine (item.entity.takes_parse item.value item.fits).bind fun result hresult => ?_
    refine ih.map fun fields hfields => ?_
    rw [hresult, hfields]
    rfl

theorem safe_readAll (items : List Item) : Safe buffer (readAll buffer items) := by
  induction items with
  | nil => exact Safe.pure _
  | cons item rest ih =>
    exact (Read.safe_parse item.entity.read).bind fun result => ih.bind fun fields => Safe.pure _

theorem misses_readAll (items : List Item) (hsmall : (putAll items).length ≤ ptrdiffMax) :
    Misses buffer (readAll buffer items) (putAll items)
      (CutAt (fun item => item.put.length) Item.Caught items) := by
  induction items with
  | nil => exact Misses.pure _
  | cons item rest ih =>
    have hlength : item.put.length + (putAll rest).length ≤ ptrdiffMax :=
      length_append.symm.trans_le hsmall
    have hmisses : Misses buffer (item.entity.read.parse buffer) item.put item.Caught :=
      item.entity.misses_parse item.value item.fits ((Nat.le_add_right _ _).trans hlength)
    refine hmisses.bind (Read.safe_parse item.entity.read)
      (item.entity.takes_parse item.value item.fits) (fun result _ => ?_)
      fun result => (safe_readAll rest).bind fun fields => Safe.pure _
    intro s h hpre hlt hcut
    have hrest := ih ((Nat.le_add_left _ _).trans hlength) s h hpre hlt hcut
    exact hrest.bind h (safe_readAll rest) fun fields => Safe.pure _

theorem map_stored_eq_iff (items : List Item) :
    items.map (·.stored buffer) = items.map (·.toField) ↔ ∀ item ∈ items, item.Restored buffer := by
  rw [map_inj_left]
  exact forall₂_congr fun item _ => item.stored_eq_iff

theorem inBounds_start : InBounds buffer {} := Nat.zero_le _

/-- The values written to a buffer are read from it, with the stream valid at the end, if and only
if every view is a beginning of the buffer and every empty vector is read into an empty one. If the
buffer is cut off, the stream is invalid, except where that leaves fewer bytes of a vector than it
has entities. -/
theorem readAll_putAll (items : List Item) (buffer : Buffer)
    (hbuffer : buffer.data = putAll items) :
    (∃ fields t, readAll buffer items {} = .ok fields t ∧ isValid buffer t = true ∧
      (fields = items.map (·.toField) ↔ ∀ item ∈ items, item.Restored buffer)) ∧
    ∀ n < buffer.data.length, CutAt (fun item => item.put.length) Item.Caught items n →
      isValid (buffer.truncated n) (afterAll (buffer.truncated n) items) = false := by
  refine ⟨?_, fun n hn hcut => ?_⟩
  · have hpre : putAll items <+: left buffer {} := by
      rw [← hbuffer]
      exact prefix_rfl
    obtain ⟨fields, hrun, rfl⟩ := takes_readAll items {} inBounds_start hpre
    have hleft : left buffer {} = putAll items ++ [] := hbuffer.trans (append_nil _).symm
    have hwithin := (inBounds_behind inBounds_start hleft).1
    refine ⟨_, _, hrun, ?_, map_stored_eq_iff items⟩
    rw [isValid_eq hwithin]
    rfl
  · have hlength : (buffer.data.take n).length = n := length_take_of_le hn.le
    have hspoils : Spoils (readAll (buffer.truncated n) items) {} := by
      refine misses_readAll items (hbuffer ▸ buffer.small) {} inBounds_start ?_ ?_ ?_
      · rw [← hbuffer]
        exact take_prefix _ _
      · show (buffer.data.take n).length - 0 < _
        rw [hlength, ← hbuffer]
        exact hn
      · show CutAt _ _ _ ((buffer.data.take n).length - 0)
        rw [hlength]
        exact hcut
    refine isValid_of_bad ?_
    unfold Spoils Wp at hspoils
    unfold afterAll
    split <;> rename_i hrun <;> rw [hrun] at hspoils <;> exact hspoils

def sizeofByte : TypeSize := ⟨⟨1, Nat.le_of_ble_eq_true rfl⟩, Nat.one_pos⟩

theorem fits_bytes (vs : List UInt8) (h : vs.length ≤ ptrdiffMax / 1) :
    (vector 1 (.value sizeofByte)).Fits (vs.map fun b => [b]) := by
  have hlength : (vs.map fun b => [b]).length = vs.length := length_map _
  refine ⟨hlength.trans_le h, ?_⟩
  refine forall_iff_forall_mem.mpr fun v hv => ?_
  obtain ⟨b, -, rfl⟩ := mem_map.mp hv
  rfl

def vectorItems : List Item :=
  [⟨⟨.value sizeofByte, [5]⟩, [0], rfl⟩,
    ⟨⟨.vector 1 (.value sizeofByte), [[1], [2], [3]]⟩, [[9]], fits_bytes [1, 2, 3] (by decide)⟩]

def vectorBuffer : Buffer := ⟨putAll vectorItems, by decide⟩

theorem readAll_putAll_vectorItems :
    (∃ fields t, readAll vectorBuffer vectorItems {} = .ok fields t ∧
      isValid vectorBuffer t = true ∧ fields = vectorItems.map (·.toField)) ∧
    isValid (vectorBuffer.truncated 5) (afterAll (vectorBuffer.truncated 5) vectorItems) =
      false := by
  obtain ⟨⟨fields, t, hrun, hvalid, hrestored⟩, hcut⟩ := readAll_putAll vectorItems vectorBuffer rfl
  refine ⟨⟨fields, t, hrun, hvalid, hrestored.mpr ?_⟩, hcut 5 (by decide) (.inl (by decide))⟩
  intro item hitem
  rcases mem_cons.mp hitem with rfl | hitem
  · trivial
  · rw [mem_singleton.mp hitem]
    exact ⟨fun h => absurd h (cons_ne_nil _ _), trivial, trivial, trivial⟩

/-- The view that is read shows the first bytes of the buffer, the variable keeps what it had, and
the stream is still valid with only one of three bytes of a vector left. -/
theorem readAll_other_values :
    (∃ buffer : Buffer, ∃ items : List Item, buffer.data = putAll items ∧
      ∃ t, readAll buffer items {} =
        .ok [⟨.value sizeofByte, [5]⟩, ⟨.bytesView, [5, 2]⟩] t ∧
      items.map (·.toField) = [⟨.value sizeofByte, [5]⟩, ⟨.bytesView, [7, 8]⟩]) ∧
    (∃ buffer : Buffer, ∃ items : List Item, buffer.data = putAll items ∧
      ∃ t, readAll buffer items {} = .ok [⟨.vector 1 (.value sizeofByte), [[9]]⟩] t ∧
      items.map (·.toField) = [⟨.vector 1 (.value sizeofByte), []⟩]) ∧
    isValid (vectorBuffer.truncated 10) (afterAll (vectorBuffer.truncated 10) vectorItems) =
      true := by
  refine ⟨?_, ?_, by decide⟩
  · refine ⟨⟨[5, 2, 0, 0, 0, 0, 0, 0, 0, 7, 8], by decide⟩,
      [⟨⟨.value sizeofByte, [5]⟩, [0], rfl⟩, ⟨⟨.bytesView, [7, 8]⟩, [], trivial⟩], rfl, _, rfl, rfl⟩
  · exact ⟨⟨[0, 0, 0, 0, 0, 0, 0, 0], by decide⟩,
      [⟨⟨.vector 1 (.value sizeofByte), []⟩, [[9]], fits_bytes [] (by decide)⟩], rfl, _, rfl, rfl⟩

end CreditsNode.DataStream
