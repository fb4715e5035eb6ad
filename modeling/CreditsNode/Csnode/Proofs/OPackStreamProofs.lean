import CreditsNode.Csnode.OPackStream
import CreditsNode.Net.Proofs.MessageProofs

/-!
# The packets of a message

What has been written to an `OPackStream` determines its packets: as long as it fits, there is one;
afterwards the first packet is full, each of the others repeats its headers, and all but the last
are full. `put` and `newPack` keep this.
-/

namespace CreditsNode.OPackStream

open ByteCodec Effect Packet List BaseFlags

def mark (flags : UInt8) : UInt8 :=
  if flags &&& BaseFlags.fragmented ≠ 0 then flags else flags ||| BaseFlags.fragmented

def numbers (flags : UInt8) : Bytes :=
  if flags &&& BaseFlags.fragmented ≠ 0 then leBytes 2 0 ++ leBytes 2 1 else []

def countField (flags : UInt8) : Bytes :=
  if flags &&& BaseFlags.fragmented ≠ 0 then leBytes 2 1 else leBytes 2 0

def metaLength (flags : UInt8) : Nat :=
  if flags &&& BaseFlags.networkMsg ≠ 0 then 0
  else if flags &&& BaseFlags.broadcast ≠ 0 ∨ flags &&& BaseFlags.direct ≠ 0 then 40
  else 72

theorem toNat_headersLength (flags : UInt8) :
    (headersLength flags).toNat = 1 + (numbers flags).length + metaLength flags := by
  unfold headersLength numbers metaLength
  split_ifs <;> rfl

theorem metaLength_le (flags : UInt8) : metaLength flags ≤ 72 := by
  unfold metaLength
  split_ifs <;> omega

theorem or_and (f a b : UInt8) : (f ||| a) &&& b = (f &&& b) ||| (a &&& b) := by
  rw [← UInt8.toNat_inj]
  exact Nat.and_or_distrib_right _ _ _

theorem mark_fragmented (flags : UInt8) : mark flags &&& fragmented ≠ 0 := by
  unfold mark
  split_ifs with h
  · exact h
  · intro hzero
    rw [or_and, ← UInt8.toNat_inj, UInt8.toNat_or] at hzero
    exact absurd (Nat.or_eq_zero_iff.mp hzero).2 (by decide)

theorem mark_and {flag : UInt8} (hflag : fragmented &&& flag = 0) (flags : UInt8) :
    mark flags &&& flag = flags &&& flag := by
  unfold mark
  split_ifs
  · rfl
  · rw [or_and, hflag, UInt8.or_zero]

theorem metaLength_mark (flags : UInt8) : metaLength (mark flags) = metaLength flags := by
  unfold metaLength
  rw [mark_and rfl, mark_and rfl, mark_and rfl]

theorem length_numbers_mark (flags : UInt8) : (numbers (mark flags)).length = 4 := by
  unfold numbers
  rw [if_pos (mark_fragmented flags)]
  rfl

theorem length_countField (flags : UInt8) : (countField flags).length = 2 := by
  unfold countField
  split_ifs <;> rfl

def fragment (flags : UInt8) (count : Bytes) (id : Nat) (rest : Bytes) : Packet :=
  ⟨flags :: (leBytes 2 id ++ (count ++ rest))⟩

section Fragment

variable {flags : UInt8} {count : Bytes} {id : Nat} {rest : Bytes}

theorem size_fragment (hcount : count.length = 2) :
    (fragment flags count id rest).size = 5 + rest.length := by
  show (leBytes 2 id ++ (count ++ rest)).length + 1 = _
  rw [length_append, length_append, length_leBytes, hcount]
  omega

theorem isFragmented_fragment (h : flags &&& fragmented ≠ 0) :
    (fragment flags count id rest).isFragmented = .ok true := by
  show Except.ok (decide (flags &&& fragmented ≠ 0)) = _
  rw [decide_eq_true h]

theorem toNat_headersLength_mark (flags : UInt8) :
    (headersLength (mark flags)).toNat = 5 + metaLength flags := by
  rw [toNat_headersLength, length_numbers_mark, metaLength_mark]

theorem fragment_append (bytes : Bytes) :
    Packet.mk ((fragment flags count id rest).region ++ bytes) =
      fragment flags count id (rest ++ bytes) := by
  unfold fragment
  rw [cons_append, append_assoc, append_assoc]

theorem read_headers (hcount : count.length = 2) (hrest : metaLength flags ≤ rest.length) :
    (fragment (mark flags) count id rest).read 0 (headersLength (mark flags)).toNat =
      .ok (fragment (mark flags) count id (rest.take (metaLength flags))).region := by
  have hsize : (fragment (mark flags) count id rest).size = 5 + rest.length := size_fragment hcount
  rw [toNat_headersLength_mark]
  unfold Packet.read
  rw [if_pos (by omega), drop_zero]
  refine congrArg Except.ok ?_
  obtain ⟨a, b, rfl⟩ := length_eq_two.mp hcount
  rw [Nat.add_comm]
  rfl

theorem leBytes_two_mod (n : Nat) : leBytes 2 (n % 65536) = leBytes 2 n := by
  have hlow : n % 65536 % 256 = n % 256 := by omega
  have hhigh : n % 65536 / 256 % 256 = n / 256 % 256 := by omega
  show [UInt8.ofNat (n % 65536 % 256), UInt8.ofNat (n % 65536 / 256 % 256)] = _
  rw [hlow, hhigh]
  rfl

theorem setU16_fragmentId (n : Nat) :
    setU16 Offsets.fragmentId (.ofNat n) (fragment flags count id rest) =
      fragment flags count n rest := by
  show Packet.mk (flags :: (leBytes 2 (n % 65536) ++ (count ++ rest))) = _
  rw [leBytes_two_mod]
  rfl

theorem setU16_fragmentsNum (hcount : count.length = 2) (n : Nat) :
    setU16 Offsets.fragmentsNum (.ofNat n) (fragment flags count id rest) =
      fragment flags (leBytes 2 n) id rest := by
  obtain ⟨a, b, rfl⟩ := length_eq_two.mp hcount
  show Packet.mk (flags :: (leBytes 2 id ++ (leBytes 2 (n % 65536) ++ rest))) = _
  rw [leBytes_two_mod]
  rfl

theorem getU16_append (front : Bytes) {n : Nat} (hn : n < 65536) (back : Bytes) :
    Packet.getU16 ⟨front ++ (leBytes 2 n ++ back)⟩ front.length = .ok (.ofNat n) := by
  unfold Packet.getU16
  rw [show Packet.read _ _ 2 = _ from Packet.read_append front (leBytes 2 n) back, ok_bind,
    leNat_leBytes, Nat.mod_eq_of_lt (by exact hn)]
  rfl

theorem getFragmentId_fragment (hid : id < 65536) :
    (fragment flags count id rest).getFragmentId = .ok (.ofNat id) :=
  getU16_append [flags] hid (count ++ rest)

theorem getFragmentsNum_fragment {n : Nat} (hn : n < 65536) :
    (fragment flags (leBytes 2 n) id rest).getFragmentsNum = .ok (.ofNat n) :=
  getU16_append (flags :: leBytes 2 id) hn rest

end Fragment

def fragments (flags : UInt8) (count first : Bytes) (parts : List Bytes) : List Packet :=
  fragment (mark flags) count 0 first ::
    parts.mapIdx fun i part =>
      fragment (mark flags) count (i + 1) (first.take (metaLength flags) ++ part)

theorem fragments_concat (flags : UInt8) (count first : Bytes) (parts : List Bytes) (last : Bytes) :
    fragments flags count first (parts ++ [last]) = fragments flags count first parts ++
      [fragment (mark flags) count (parts.length + 1) (first.take (metaLength flags) ++ last)] := by
  unfold fragments
  rw [mapIdx_concat]
  rfl

def firstCapacity : Nat := maxSize - 5

def capacity (flags : UInt8) : Nat := firstCapacity - metaLength flags

/-- The packets after `content` has been written behind the flags and the numbers. -/
inductive Layout (flags : UInt8) (content : Bytes) (s : OPackStream) : Prop
  | single (size : 1 + (numbers flags).length + content.length ≤ maxSize)
      (count : s.packetsCount = 1) (packets : s.packets = [⟨flags :: (numbers flags ++ content)⟩])
  | several (first : Bytes) (full : List Bytes) (last : Bytes)
      (length_first : first.length = firstCapacity)
      (length_full : ∀ part ∈ full, part.length = capacity flags)
      (length_last : last.length ≤ capacity flags)
      (parts : content = first ++ (full.flatten ++ last))
      (count : s.packetsCount = .ofNat (full.length + 2))
      (packets : s.packets = fragments flags (countField flags) first (full ++ [last]))

variable {packs : List Packet} {pack : Packet} {bytes first headers payload count : Bytes}

theorem current_eq {s : OPackStream} (h : s.packets = packs ++ [pack]) : s.current = .ok pack := by
  unfold current
  rw [h, List.getLast?_concat]

theorem left_eq {s : OPackStream} (packs : List Packet)
    (h : s.packets = packs ++ [pack]) : s.left = .ok (maxSize - pack.size) := by
  unfold left
  rw [current_eq h]
  rfl

theorem put_eq {s : OPackStream}
    (h : s.packets = packs ++ [pack]) (hfits : pack.size + bytes.length ≤ maxSize) :
    s.put bytes = .ok { s with packets := packs ++ [⟨pack.region ++ bytes⟩] } := by
  unfold put
  rw [current_eq h, ok_bind, if_pos hfits, h, dropLast_concat]
  rfl

/-- What has been written, and that `getPackets` has not been called. -/
structure Written (flags : UInt8) (content : Bytes) (s : OPackStream) : Prop where
  layout : Layout flags content s
  unfinished : s.finished = false

variable {flags : UInt8} {content : Bytes} {s : OPackStream}

theorem metaLength_le_firstCapacity (flags : UInt8) : metaLength flags ≤ firstCapacity :=
  (metaLength_le flags).trans (by decide)

theorem capacity_add (flags : UInt8) : 5 + metaLength flags + capacity flags = maxSize := by
  have hle := metaLength_le flags
  unfold capacity firstCapacity maxSize
  omega

theorem size_repeated (flags : UInt8) (hfirst : first.length = firstCapacity)
    (id : Nat) (part : Bytes) :
    (fragment (mark flags) (countField flags) id (first.take (metaLength flags) ++ part)).size =
      5 + metaLength flags + part.length := by
  grind [metaLength_le_firstCapacity, size_fragment, length_countField]

theorem Written.put {n : Nat} (h : Written flags content s) (hleft : s.left = .ok n)
    (hle : bytes.length ≤ n) :
    ∃ t, s.put bytes = .ok t ∧ Written flags (content ++ bytes) t ∧
      t.left = .ok (n - bytes.length) := by
  obtain ⟨hlayout, hfinished⟩ := h
  cases hlayout with
  | single size count packets =>
    have hpackets : s.packets = [] ++ [⟨flags :: (numbers flags ++ content)⟩] := packets
    have hsize : (Packet.mk (flags :: (numbers flags ++ content))).size =
        1 + (numbers flags).length + content.length := by
      show (numbers flags ++ content).length + 1 = _
      rw [length_append]
      omega
    rw [left_eq _ hpackets, Except.ok.injEq] at hleft
    refine ⟨_, put_eq hpackets (by omega), ⟨.single ?_ count ?_, hfinished⟩, ?_⟩
    · rw [length_append]
      omega
    · rw [nil_append, cons_append, append_assoc]
    · refine (left_eq [] rfl).trans (congrArg Except.ok ?_)
      show maxSize - ((flags :: (numbers flags ++ content)) ++ bytes).length = _
      grind
  | several first full last length_first length_full length_last parts count packets =>
    rw [fragments_concat] at packets
    have hsize := size_repeated flags length_first (full.length + 1) last
    have hcapacity := capacity_add flags
    rw [left_eq _ packets, hsize, Except.ok.injEq] at hleft
    refine ⟨_, put_eq packets (by omega), ⟨.several first full (last ++ bytes) length_first
      length_full ?_ ?_ count ?_, hfinished⟩, ?_⟩
    · rw [length_append]
      omega
    · rw [parts]
      simp only [append_assoc]
    · rw [fragments_concat, fragment_append, append_assoc]
    · refine (left_eq _ rfl).trans (congrArg Except.ok ?_)
      grind [fragment_append, size_repeated]

theorem nextPack_fragment (hfirst : first.length = firstCapacity) {id : UInt16}
    {n : Nat} (hid : id = .ofNat n) {tail : Bytes} (htail : tail.length ≤ capacity flags) :
    nextPack (fragment (mark flags) (countField flags) 0 first) id tail =
      .ok (fragment (mark flags) (countField flags) n (first.take (metaLength flags) ++ tail)) := by
  have hheaders : (fragment (mark flags) (countField flags) 0 first).read 0
      (headersLength (mark flags)).toNat = _ :=
    read_headers (length_countField flags) (hfirst.symm ▸ metaLength_le_firstCapacity flags)
  have hpack : setU16 Offsets.fragmentId (.ofNat n)
      ⟨(fragment (mark flags) (countField flags) 0 (first.take (metaLength flags))).region⟩ =
      fragment (mark flags) (countField flags) n (first.take (metaLength flags)) :=
    setU16_fragmentId n
  have hsize : (fragment (mark flags) (countField flags) n (first.take (metaLength flags))).size =
      5 + metaLength flags := by
    rw [← append_nil (first.take _), size_repeated flags hfirst]
    rfl
  have hcapacity := capacity_add flags
  subst hid
  show (do
    let headers ← (fragment (mark flags) (countField flags) 0 first).read 0
      (headersLength (mark flags)).toNat
    let pack := setU16 Offsets.fragmentId (.ofNat n) ⟨headers⟩
    if pack.size + tail.length ≤ maxSize then return ⟨pack.region ++ tail⟩
    else throw .undefined : Except Fault Packet) = _
  rw [hheaders, ok_bind, hpack]
  rw [if_pos (by omega), fragment_append]
  rfl

theorem correctFirst_fragment (count : Bytes) (id : Nat) (first : Bytes) (s : OPackStream) :
    correctFirst (fragment (mark flags) count id first) s =
      .ok (fragment (mark flags) count id first, []) := by
  unfold correctFirst
  split_ifs
  · unfold correct
    rw [isFragmented_fragment (mark_fragmented flags)]
    rfl
  · rfl

theorem correct_of_full (h : ¬ flags &&& fragmented ≠ 0)
    (hlength : content.length = maxSize - 1) :
    correct ⟨flags :: content⟩ =
      .ok (fragment (mark flags) (countField flags) 0 (content.take firstCapacity),
        content.drop firstCapacity) := by
  have hflagged : (Packet.mk (flags :: content)).isFragmented = .ok false := by
    show Except.ok (decide (flags &&& fragmented ≠ 0)) = _
    rw [decide_eq_false h]
  have hsize : ¬ (Packet.mk (flags :: content)).size < maxSize := by
    show ¬ content.length + 1 < maxSize
    rw [hlength]
    decide
  have hkept : content.length - insertedSize = firstCapacity := by
    rw [hlength]
    rfl
  unfold correct
  rw [hflagged, ok_bind, if_neg Bool.false_ne_true, if_neg hsize]
  show Except.ok (Packet.mk ((flags ||| fragmented) :: (leBytes 2 0 ++ (leBytes 2 0 ++
      content.take (content.length - insertedSize)))),
    content.drop (content.length - insertedSize)) = _
  rw [hkept]
  unfold fragment mark countField
  rw [if_neg h, if_neg h]

theorem newPack_cons {first first' : Packet} {rest : List Packet} {tail : Bytes}
    (hpackets : s.packets = first :: rest) (hfirst : s.correctFirst first = .ok (first', tail))
    (hpack : nextPack first' s.packetsCount tail = .ok pack) :
    s.newPack = .ok { s with
      packets := first' :: (rest ++ [pack])
      packetsCount := s.packetsCount + 1 } := by
  simp [OPackStream.newPack, hpackets, hfirst, ok_bind, hpack]

theorem add_one_ofNat (n : Nat) : UInt16.ofNat n + 1 = .ofNat (n + 1) := (UInt16.ofNat_add n 1).symm

theorem le_left_repeated {part : Bytes} (hfirst : first.length = firstCapacity) (id : Nat)
    (hpart : part.length ≤ 4) :
    8 ≤ maxSize - (fragment (mark flags) (countField flags) id
      (first.take (metaLength flags) ++ part)).size := by
  have hmeta := metaLength_le flags
  rw [size_repeated flags hfirst]
  unfold maxSize
  omega

theorem correctFirst_single (hcount : s.packetsCount = 1)
    (hsize : content.length + (numbers flags).length = maxSize - 1) :
    ∃ first tail, s.correctFirst ⟨flags :: (numbers flags ++ content)⟩ =
        .ok (fragment (mark flags) (countField flags) 0 first, tail) ∧
      first.length = firstCapacity ∧ tail.length ≤ 4 ∧ content = first ++ tail := by
  by_cases h : flags &&& fragmented ≠ 0
  · have hfragment : Packet.mk (flags :: (numbers flags ++ content)) =
        fragment (mark flags) (countField flags) 0 content := by
      unfold fragment mark countField numbers
      rw [if_pos h, if_pos h, if_pos h, append_assoc]
    have hlength : (numbers flags).length = 4 := by
      unfold numbers
      rw [if_pos h]
      rfl
    grind [correctFirst_fragment, firstCapacity]
  · have hnumbers : numbers flags = [] := if_neg h
    rw [hnumbers, nil_append]
    rw [hnumbers] at hsize
    refine ⟨content.take firstCapacity, content.drop firstCapacity, ?_, ?_, ?_,
      (take_append_drop _ _).symm⟩
    · unfold correctFirst
      rw [if_pos hcount]
      exact correct_of_full h hsize
    · rw [length_take_of_le]
      rw [show content.length = maxSize - 1 from hsize]
      decide
    · rw [length_drop, show content.length = maxSize - 1 from hsize]
      decide

theorem Written.newPack (h : Written flags content s) (hleft : s.left = .ok 0) :
    ∃ t n, s.newPack = .ok t ∧ Written flags content t ∧ t.left = .ok n ∧ 8 ≤ n := by
  obtain ⟨hlayout, hfinished⟩ := h
  have hmeta := metaLength_le flags
  have hcapacity := capacity_add flags
  cases hlayout with
  | single size count packets =>
    have hsize : content.length + (numbers flags).length = maxSize - 1 := by
      have hlast : s.packets = [] ++ [⟨flags :: (numbers flags ++ content)⟩] := packets
      rw [left_eq _ hlast, Except.ok.injEq] at hleft
      have hregion : (Packet.mk (flags :: (numbers flags ++ content))).size =
          (numbers flags).length + content.length + 1 := by
        show (numbers flags ++ content).length + 1 = _
        rw [length_append]
      omega
    obtain ⟨first, tail, hcorrect, hfirst, htail, rfl⟩ := correctFirst_single count hsize
    have hroom : tail.length ≤ capacity flags := by
      unfold maxSize at hcapacity
      omega
    have hnext := nextPack_fragment (n := 1) hfirst count hroom
    refine ⟨_, _, newPack_cons packets hcorrect hnext, ⟨.several first [] tail hfirst
      (nofun) hroom rfl ?_ rfl, hfinished⟩,
      left_eq [_] rfl, le_left_repeated hfirst _ htail⟩
    rw [count]
    rfl
  | several first full last length_first length_full length_last parts count packets =>
    have hlast := packets
    rw [fragments_concat] at hlast
    rw [left_eq _ hlast, size_repeated flags length_first, Except.ok.injEq] at hleft
    have hempty : ([] : Bytes).length ≤ capacity flags := Nat.zero_le _
    have hnext := nextPack_fragment length_first count hempty
    have hpackets := fragments_concat flags (countField flags) first (full ++ [last]) []
    rw [length_append] at hpackets
    refine ⟨_, _, newPack_cons packets (correctFirst_fragment _ _ _ _) hnext,
      ⟨.several first (full ++ [last]) [] length_first ?_ (Nat.zero_le _) ?_ ?_ hpackets.symm,
        hfinished⟩,
      left_eq (fragments flags (countField flags) first (full ++ [last])) rfl,
      le_left_repeated length_first _ (Nat.zero_le _)⟩
    · grind
    · rw [parts, flatten_concat, append_nil]
    · rw [length_append]
      rw [count, add_one_ofNat]
      rfl

theorem Written.exists_left (h : Written flags content s) : ∃ n, s.left = .ok n := by
  cases h.layout with
  | single size count packets => exact ⟨_, left_eq [] packets⟩
  | several first full last length_first length_full length_last parts count packets =>
    rw [fragments_concat] at packets
    exact ⟨_, left_eq _ packets⟩

theorem Written.putValue {value : Bytes} (h : Written flags content s) (hvalue : value.length ≤ 8) :
    ∃ t, s.putValue value = .ok t ∧ Written flags (content ++ value) t := by
  obtain ⟨n, hleft⟩ := h.exists_left
  unfold OPackStream.putValue
  rw [hleft, ok_bind]
  by_cases hle : value.length ≤ n
  · obtain ⟨t, hput, ht, -⟩ := h.put hleft hle
    rw [if_pos hle]
    exact ⟨t, hput, ht⟩
  · have htake : (value.take n).length = n := length_take_of_le (Nat.le_of_not_le hle)
    obtain ⟨t, hput, ht, hfull⟩ := h.put hleft htake.le
    rw [htake, Nat.sub_self] at hfull
    obtain ⟨u, m, hnew, hu, hroom, hm⟩ := ht.newPack hfull
    have hrest : (value.drop n).length ≤ m := by
      rw [length_drop]
      omega
    obtain ⟨v, hput', hv, -⟩ := hu.put hroom hrest
    grind [ok_bind, take_append_drop]

theorem Written.provide (h : Written flags content s) :
    ∃ t n, s.provide = .ok t ∧ Written flags content t ∧ t.left = .ok n ∧ 0 < n := by
  obtain ⟨n, hleft⟩ := h.exists_left
  unfold OPackStream.provide
  rw [hleft, ok_bind]
  by_cases hzero : n = 0
  · have hnewPack := h.newPack
    grind
  · rw [if_neg hzero]
    exact ⟨s, n, rfl, h, hleft, Nat.pos_of_ne_zero hzero⟩

theorem Written.insertLoop (fuel : Nat) : ∀ {bytes content : Bytes} {s : OPackStream},
    bytes.length ≤ fuel → Written flags content s →
    ∃ t, insertLoop fuel bytes s = .ok t ∧ Written flags (content ++ bytes) t := by
  induction fuel with
  | zero =>
    intro bytes content s hfuel h
    rw [length_eq_zero_iff.mp (Nat.le_zero.mp hfuel), append_nil]
    exact ⟨s, rfl, h⟩
  | succ fuel ih =>
    intro bytes content s hfuel h
    cases bytes with
    | nil =>
      rw [append_nil]
      exact ⟨s, rfl, h⟩
    | cons b bytes =>
      obtain ⟨t, n, hprovide, ht, hroom, hn⟩ := h.provide
      have htake : ((b :: bytes).take (min n (b :: bytes).length)).length ≤ n :=
        (length_take_le _ _).trans (Nat.min_le_left _ _)
      obtain ⟨u, hput, hu, -⟩ := ht.put hroom htake
      have hdrop : ((b :: bytes).drop (min n (b :: bytes).length)).length ≤ fuel := by
        rw [length_drop]
        omega
      obtain ⟨v, hrun, hv⟩ := ih hdrop hu
      refine ⟨v, ?_, ?_⟩
      · show (do let s ← s.provide; _) = _
        grind [ok_bind]
      · rw [append_assoc, take_append_drop] at hv
        exact hv

theorem Written.insertBytes (h : Written flags content s) (hbytes : bytes.length < 2 ^ 32) :
    ∃ t, s.insertBytes bytes = .ok t ∧ Written flags (content ++ bytes) t := by
  unfold OPackStream.insertBytes
  dsimp only
  rw [Nat.mod_eq_of_lt hbytes, take_length]
  exact h.insertLoop _ le_rfl

namespace Value

/-- The size of the value can be cast to 32 bits. -/
def Fits (v : Value) : Prop := v.data.length < 2 ^ 32

end Value

theorem Written.write {v : Value} (h : Written flags content s) (hv : v.Fits) :
    ∃ t, v.write s = .ok t ∧ Written flags (content ++ v.encode) t := by
  have hsized : ∀ data : Bytes, data.length < 2 ^ 32 → ∃ t, (do
      let s ← s.putValue (putU64 (.ofNat data.length))
      s.insertBytes data) = .ok t ∧
        Written flags (content ++ (putU64 (.ofNat data.length) ++ data)) t := by
    intro data hdata
    obtain ⟨t, hput, ht⟩ := h.putValue (length_leBytes 8 (UInt64.ofNat data.length).toNat).le
    change s.putValue (putU64 (.ofNat data.length)) = .ok t at hput
    obtain ⟨u, hinsert, hu⟩ := ht.insertBytes hdata
    rw [hput, ok_bind, ← append_assoc]
    exact ⟨u, hinsert, hu⟩
  cases v with
  | scalar data small => exact h.putValue small
  | array data => exact h.insertBytes hv
  | string data => exact hsized data hv
  | bytes data => exact hsized data hv

theorem Written.writeAll (values : List Value) : ∀ {content : Bytes} {s : OPackStream},
    Written flags content s → (∀ v ∈ values, v.Fits) →
    ∃ t, s.writeAll values = .ok t ∧ Written flags (content ++ values.flatMap Value.encode) t := by
  induction values with
  | nil =>
    intro content s h _
    rw [flatMap_nil, append_nil]
    exact ⟨s, rfl, h⟩
  | cons v values ih =>
    intro content s h hfits
    obtain ⟨t, hwrite, ht⟩ := h.write (hfits v mem_cons_self)
    obtain ⟨u, hrest, hu⟩ := ih ht fun w hw => hfits w (mem_cons_of_mem _ hw)
    refine ⟨u, ?_, ?_⟩
    · show (v.write s >>= fun s => values.foldlM Value.write s) = _
      rw [hwrite, ok_bind]
      exact hrest
    · rw [flatMap_cons, ← append_assoc]
      exact hu

def initNumbers (flags : UInt8) (s : OPackStream) : Except Fault OPackStream := do
  let s ← OPackStream.newPack { s.clear with id := s.id + 1 }
  let s ← s.put [flags]
  s.putNumbers flags

theorem written_initNumbers (flags : UInt8) (s : OPackStream) :
    ∃ t, initNumbers flags s = .ok t ∧ Written flags [] t := by
  have hput : initNumbers flags s = putNumbers flags { s.clear with
        id := s.id + 1
        packets := [⟨[flags]⟩]
        packetsCount := 1 } := rfl
  rw [hput]
  unfold putNumbers
  split_ifs with h
  · have hnumbers : numbers flags = leBytes 2 0 ++ leBytes 2 1 := if_pos h
    refine ⟨{ s.clear with
        id := s.id + 1
        packets := [⟨flags :: (leBytes 2 0 ++ leBytes 2 1)⟩]
        packetsCount := 1 }, rfl, .single ?_ rfl ?_, rfl⟩
    · rw [hnumbers]
      decide
    · rw [hnumbers, append_nil]
  · have hnumbers : numbers flags = [] := if_neg h
    refine ⟨_, rfl, .single ?_ rfl ?_, rfl⟩
    · rw [hnumbers]
      decide
    · rw [hnumbers]
      rfl

theorem length_toList_lt (key : PublicKey) : key.toList.length < 2 ^ 32 := by
  rw [List.Vector.toList_length]
  decide

theorem exists_init (flags : UInt8) (s : OPackStream) :
    ∃ t headers, s.init flags = .ok t ∧ Written flags headers t ∧
      headers.length = if flags &&& networkMsg = 0 then 40 else 0 := by
  obtain ⟨t, hnumbers, ht⟩ := written_initNumbers flags s
  have hinit : s.init flags = (initNumbers flags s >>= putSender flags) := rfl
  rw [hinit, hnumbers, ok_bind]
  unfold putSender
  by_cases h : flags &&& networkMsg = 0
  · obtain ⟨u, hid, hu⟩ := ht.putValue (length_leBytes 8 t.id.toNat).le
    change t.putValue (putU64 t.id) = .ok u at hid
    obtain ⟨v, hkey, hv⟩ := hu.insertBytes (length_toList_lt u.senderKey)
    grind [ok_bind, length_leBytes, List.Vector.toList_length]
  · rw [if_neg h, if_neg h]
    exact ⟨t, [], rfl, ht, rfl⟩

namespace Start

/-- There is a receiver if and only if the headers have a place for it. -/
def Headed (start : Start) : Prop :=
  start.receiver.isSome ↔ start.flags &&& BaseFlags.networkMsg = 0 ∧
    start.flags &&& BaseFlags.broadcast = 0 ∧ start.flags &&& BaseFlags.direct = 0

theorem exists_init {start : Start} (h : start.Headed) (s : OPackStream) :
    ∃ t headers, start.init s = .ok t ∧ Written start.flags headers t ∧
      headers.length = metaLength start.flags := by
  obtain ⟨flags, receiver⟩ := start
  obtain ⟨t, headers, hinit, ht, hlength⟩ := OPackStream.exists_init flags s
  unfold Headed at h
  cases receiver with
  | none =>
    refine ⟨t, headers, hinit, ht, ?_⟩
    grind [metaLength]
  | some receiver =>
    obtain ⟨hnetwork, hbroadcast, hdirect⟩ := h.mp rfl
    obtain ⟨u, hinsert, hu⟩ := ht.insertBytes (length_toList_lt receiver)
    refine ⟨u, _, ?_, hu, ?_⟩
    · show (s.init flags >>= fun s => s.insertBytes receiver.toList) = _
      rw [hinit, ok_bind]
      exact hinsert
    · grind [metaLength, List.Vector.toList_length]

end Start

theorem getMsg_append {front : Bytes} (hlength : (headersLength flags).toNat = front.length + 1) :
    Packet.getMsg ⟨flags :: front ++ payload⟩ = .ok payload := by
  have hsize : (Packet.mk (flags :: front ++ payload)).size = front.length + 1 +
      payload.length := by
    rw [Packet.size, length_append, length_cons]
  show (if Packet.size _ < (headersLength flags).toNat then _ else _) = _
  rw [hlength, if_neg (by omega)]
  exact congrArg Except.ok drop_left

theorem getMsg_single (hheaders : headers.length = metaLength flags) :
    getMsg ⟨flags :: (numbers flags ++ (headers ++ payload))⟩ = .ok payload := by
  rw [← append_assoc]
  refine getMsg_append ?_
  rw [toNat_headersLength, length_append, hheaders]
  omega

theorem getMsg_fragment (hcount : count.length = 2) (id : Nat)
    (hheaders : headers.length = metaLength flags) :
    (fragment (mark flags) count id (headers ++ payload)).getMsg = .ok payload := by
  unfold fragment
  rw [← append_assoc, ← append_assoc]
  refine getMsg_append ?_
  grind [toNat_headersLength_mark, length_leBytes]

theorem mapM_getMsg_mapIdx {f : Nat → Bytes → Packet} (parts : List Bytes)
    (hf : ∀ i part, (f i part).getMsg = .ok part) :
    (parts.mapIdx f).mapM getMsg = .ok parts := by
  induction parts generalizing f with
  | nil => rfl
  | cons part parts ih =>
    rw [mapIdx_cons, mapM_cons, hf, ok_bind, ih fun i part' => hf (i + 1) part']
    rfl

theorem mapM_getMsg_fragments (hcount : count.length = 2)
    (hfirst : first.length = firstCapacity) (parts : List Bytes) :
    (fragments flags count first parts).mapM getMsg =
      .ok (first.drop (metaLength flags) :: parts) := by
  have hheaders : (first.take (metaLength flags)).length = metaLength flags :=
    length_take_of_le (hfirst.symm ▸ metaLength_le_firstCapacity flags)
  have hmsg : (fragment (mark flags) count 0
      (first.take (metaLength flags) ++ first.drop (metaLength flags))).getMsg = _ :=
    getMsg_fragment hcount 0 hheaders
  rw [take_append_drop] at hmsg
  unfold fragments
  rw [mapM_cons, hmsg, ok_bind,
    mapM_getMsg_mapIdx parts fun i part => getMsg_fragment hcount (i + 1) hheaders]
  rfl

theorem map_setU16_fragments (hcount : count.length = 2) (n : Nat) (parts : List Bytes) :
    (fragments flags count first parts).map (setU16 Offsets.fragmentsNum (.ofNat n)) =
      fragments flags (leBytes 2 n) first parts := by
  unfold fragments
  rw [map_cons, setU16_fragmentsNum hcount]
  refine congrArg _ (ext_getElem? fun i => ?_)
  rw [List.getElem?_map, List.getElem?_mapIdx, List.getElem?_mapIdx, Option.map_map]
  refine congrArg (fun f => parts[i]?.map f) (funext fun part => ?_)
  exact setU16_fragmentsNum hcount n

theorem getElem?_fragments {count first : Bytes} {parts : List Bytes} {i : Nat} {pack : Packet}
    (h : (fragments flags count first parts)[i]? = some pack) :
    ∃ rest, pack = fragment (mark flags) count i rest := by
  unfold fragments at h
  cases i with
  | zero => exact ⟨first, (Option.some.inj h).symm⟩
  | succ i =>
    grind

theorem length_fragments (count first : Bytes) (parts : List Bytes) :
    (fragments flags count first parts).length = parts.length + 1 := by
  unfold fragments
  rw [length_cons, length_mapIdx]

theorem size_le_of_mem_fragments {parts : List Bytes}
    (hcount : count.length = 2) (hfirst : first.length = firstCapacity)
    (hparts : ∀ part ∈ parts, part.length ≤ capacity flags)
    (hpack : pack ∈ fragments flags count first parts) : pack.size ≤ maxSize := by
  have hcapacity := capacity_add flags
  rcases mem_cons.mp hpack with rfl | hpack
  · rw [size_fragment hcount, hfirst]
    decide
  · grind [size_fragment]

/-- What `getPackets` makes of what has been written. -/
structure Finished (payload : Bytes) (packs : List Packet) : Prop where
  payloads : ∃ msgs, packs.mapM Packet.getMsg = .ok msgs ∧ msgs.flatten = payload
  size : ∀ pack ∈ packs, pack.size ≤ maxSize
  numbered : 1 < packs.length → ∀ (i : Nat) (pack : Packet), packs[i]? = some pack →
    pack.isFragmented = .ok true ∧ pack.getFragmentId = .ok (.ofNat i) ∧
      pack.getFragmentsNum = .ok (.ofNat packs.length)

theorem Written.getPackets (h : Written flags (headers ++ payload) s)
    (hheaders : headers.length = metaLength flags) (hfew : s.packets.length < 65536) :
    Finished payload s.getPackets.packets := by
  obtain ⟨hlayout, hfinished⟩ := h
  unfold OPackStream.getPackets
  rw [if_neg (by rw [hfinished]; decide)]
  cases hlayout with
  | single size count packets =>
    rw [count, if_neg (by decide)]
    rw [packets]
    refine ⟨⟨[payload], ?_, append_nil _⟩, fun pack hpack => ?_, fun hlt => ?_⟩
    · rw [mapM_cons, getMsg_single hheaders]
      rfl
    · rw [mem_singleton.mp hpack]
      show (numbers flags ++ (headers ++ payload)).length + 1 ≤ maxSize
      rw [length_append]
      omega
    · exact absurd hlt (lt_irrefl 1)
  | several first full last length_first length_full length_last parts count packets =>
    have hlength : s.packets.length = full.length + 2 := by
      rw [packets, length_fragments, length_append]
      rfl
    have hmany : 1 < s.packetsCount := by
      rw [count, UInt16.lt_iff_toNat_lt, UInt16.toNat_ofNat_of_lt' (by show _ < 65536; omega)]
      show 1 < _
      omega
    have hcount : (leBytes 2 (full.length + 2)).length = 2 := length_leBytes _ _
    rw [if_pos hmany]
    rw [packets, count, map_setU16_fragments (length_countField flags)]
    refine ⟨⟨_, mapM_getMsg_fragments hcount length_first _, ?_⟩, fun pack hpack => ?_,
      fun _ i pack hpack => ?_⟩
    · grind [drop_left, metaLength_le_firstCapacity]
    · refine size_le_of_mem_fragments hcount length_first (fun part hpart => ?_) hpack
      grind
    · obtain ⟨rest, rfl⟩ := getElem?_fragments hpack
      grind [isFragmented_fragment, mark_fragmented, getFragmentId_fragment, length_fragments,
        getFragmentsNum_fragment]

theorem length_le_of_getMsg {p : Packet} {msg : Bytes} (h : p.getMsg = .ok msg) :
    msg.length ≤ p.size := by
  obtain ⟨headersLength, -, h⟩ := bind_eq_ok h
  split_ifs at h
  cases h
  exact length_drop.trans_le (Nat.sub_le _ _)

theorem length_flatten_le {msgs : List Bytes}
    (h : packs.mapM getMsg = .ok msgs) (hsize : ∀ pack ∈ packs, pack.size ≤ maxSize) :
    msgs.flatten.length ≤ packs.length * maxSize := by
  induction packs generalizing msgs with
  | nil =>
    cases h
    exact Nat.zero_le _
  | cons pack packs ih =>
    rw [mapM_cons] at h
    obtain ⟨msg, hmsg, h⟩ := bind_eq_ok h
    obtain ⟨rest, hrest, h⟩ := bind_eq_ok h
    cases h
    have hpack := (length_le_of_getMsg hmsg).trans (hsize pack mem_cons_self)
    grind [Nat.succ_mul]

end CreditsNode.OPackStream
