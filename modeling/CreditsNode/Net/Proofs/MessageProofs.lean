import Mathlib.Algebra.Order.BigOperators.Group.List
import Mathlib.Data.List.GetD
import CreditsNode.Net.Reassembly

/-!
# The fragments of a message

What is read from the header of a fragment, the places of the fragments in a `Message`, and the full
data that `composeFullData` makes of them.
-/

namespace CreditsNode

open ByteCodec Effect List

theorem Packet.read_append (a b c : Bytes) :
    Packet.read ⟨a ++ (b ++ c)⟩ a.length b.length = .ok b := by
  grind [Packet.read, Packet.size]

theorem Packet.read_drop (p : Packet) {offset : Nat} (h : offset ≤ p.size) :
    p.read offset (p.size - offset) = .ok (p.region.drop offset) := by
  unfold Packet.read
  rw [if_pos (by omega), take_of_length_le]
  rw [length_drop]
  exact Nat.le_refl _

theorem length_leBytes_two (i : Nat) : (leBytes 2 i).length = 2 := rfl

namespace Split

variable (m : Split)

theorem count_pos : 0 < m.count := length_pos_iff.mpr m.nonempty

theorem count_lt : m.count < 65536 := by
  have hcount : m.count = leNat (m.header.take 2) := m.count_header.symm
  have hlen : (m.header.take 2).length ≤ 2 := by
    rw [length_take]
    exact Nat.min_le_left _ _
  rw [hcount]
  match m.header.take 2, hlen with
  | [], _ => exact Nat.zero_lt_succ _
  | [a], _ =>
    have := a.toNat_lt
    simp only [leNat]
    omega
  | [a, b], _ =>
    have := a.toNat_lt
    have := b.toNat_lt
    simp only [leNat]
    omega

theorem isFragmented_fragment (i : Nat) : (m.fragment i).isFragmented = .ok true := by
  show Except.ok (decide (m.flags &&& BaseFlags.fragmented ≠ 0)) = _
  rw [decide_eq_true m.fragmented]

theorem getHeadersLength_fragment (i : Nat) :
    (m.fragment i).getHeadersLength = .ok (Packet.headersLength m.flags) := rfl

theorem getFragmentId_fragment (i : Nat) : (m.fragment i).getFragmentId = .ok (UInt16.ofNat i) := by
  show Except.ok (UInt16.ofNat (leNat (leBytes 2 i))) = _
  rw [leNat_leBytes]
  congr 1
  apply UInt16.toNat.inj
  simp

theorem getFragmentsNum_fragment (i : Nat) :
    (m.fragment i).getFragmentsNum = .ok (UInt16.ofNat m.count) := by
  have htwo : (m.header.take 2).length = 2 := by
    rw [length_take, m.length_header]
    rfl
  have hread : (m.fragment i).read Offsets.fragmentsNum 2 = .ok (m.header.take 2) := by
    have h := Packet.read_append (m.flags :: leBytes 2 i) (m.header.take 2)
      (m.header.drop 2 ++ m.bodies.getD i [])
    rw [htwo, ← append_assoc (m.header.take 2), take_append_drop] at h
    exact h
  unfold Packet.getFragmentsNum Packet.getU16
  rw [hread]
  show Except.ok (UInt16.ofNat (leNat (m.header.take 2))) = _
  rw [m.count_header]
  rfl

theorem getHeaderHash_fragment (crypto : Crypto) (i : Nat) :
    (m.fragment i).getHeaderHash crypto = .ok (m.hash crypto) := by
  have hread : (m.fragment i).read Offsets.fragmentsNum fragmentedHeader = .ok m.header := by
    have h := Packet.read_append (m.flags :: leBytes 2 i) m.header (m.bodies.getD i [])
    rw [m.length_header] at h
    exact h
  unfold Packet.getHeaderHash
  rw [hread]
  rfl

theorem hasValidFragmentation_fragment {i : Nat} (hi : i < m.count) :
    (m.fragment i).hasValidFragmentation = .ok true := by
  have hlt := m.count_lt
  have hid : (UInt16.ofNat i).toNat = i := UInt16.toNat_ofNat_of_lt (Nat.lt_trans hi hlt)
  have hnum : (UInt16.ofNat m.count).toNat = m.count := UInt16.toNat_ofNat_of_lt hlt
  have hzero : UInt16.ofNat m.count ≠ 0 := by
    intro h
    rw [h] at hnum
    simp at hnum
    omega
  have hnot : ¬ UInt16.ofNat i ≥ UInt16.ofNat m.count := by
    rw [ge_iff_le, UInt16.le_iff_toNat_le, hid, hnum]
    omega
  unfold Packet.hasValidFragmentation
  rw [isFragmented_fragment, getFragmentId_fragment, getFragmentsNum_fragment]
  show Except.ok (!(decide (UInt16.ofNat m.count = 0) ||
    decide (UInt16.ofNat i ≥ UInt16.ofNat m.count))) = _
  rw [decide_eq_false hzero, decide_eq_false hnot]
  rfl

theorem size_fragment (i : Nat) :
    (m.fragment i).size = 3 + fragmentedHeader + (m.bodies.getD i []).length := by
  show (m.flags :: (leBytes 2 i ++ (m.header ++ m.bodies.getD i []))).length = _
  grind [m.length_header, length_leBytes_two]

theorem headersLength_le_size {i : Nat} (hi : i < m.count) :
    m.headersLength ≤ (m.fragment i).size := by
  rw [size_fragment, getD_eq_getElem _ _ hi]
  exact m.headed _ (getElem_mem hi)

theorem sum_size_lt : ((List.range m.count).map fun i => (m.fragment i).size).sum < 2 ^ 32 := by
  have h : (range m.count).map (fun i => (m.fragment i).size)
      = m.bodies.map fun body => 3 + fragmentedHeader + body.length := by
    refine ext_getElem ?_ fun i hi hi' => ?_
    · rw [length_map, length_map, length_range]
      rfl
    · grind [size_fragment]
  rw [h]
  exact m.small

end Split

/-- The places of the fragments that have arrived are taken, and `packetsLeft` is the number of
those that are free. -/
structure Message.Collects (m : Split) (arrived : Nat → Prop) (msg : Message) : Prop where
  length : msg.packets.length = m.count
  taken : ∀ i < m.count, arrived i → msg.packets[i]? = some (some (m.fragment i))
  free : ∀ i < m.count, ¬ arrived i → msg.packets[i]? = some none
  left : msg.packetsLeft.toNat = msg.packets.countP Option.isNone

namespace Message

variable {m : Split} {arrived : Nat → Prop} {msg : Message}

variable {i : Nat} {headersLength : UInt32}

theorem left_set (hlt : i < msg.packets.length) (hfree : msg.packets[i] = none)
    (hleft : msg.packetsLeft.toNat = msg.packets.countP Option.isNone) (pack : Packet) :
    (msg.packetsLeft - 1).toNat = (msg.packets.set i (some pack)).countP Option.isNone := by
  have hpos : 0 < msg.packets.countP Option.isNone :=
    countP_pos_iff.mpr ⟨none, hfree ▸ getElem_mem hlt, rfl⟩
  have hone : (1 : UInt32) ≤ msg.packetsLeft := by
    rw [UInt32.le_iff_toNat_le, hleft]
    exact hpos
  rw [UInt32.toNat_sub_of_le _ _ hone, countP_set hlt, hfree, hleft]
  rfl

theorem isComplete_iff_of_left
    (hleft : msg.packetsLeft.toNat = msg.packets.countP Option.isNone) :
    msg.isComplete = true ↔ none ∉ msg.packets := by
  have hzero : msg.isComplete = true ↔ msg.packets.countP Option.isNone = 0 := by
    unfold isComplete
    rw [decide_eq_true_eq, ← UInt32.toNat_inj, hleft]
    rfl
  grind [countP_eq_zero, Option.isNone_iff_eq_none]

theorem collects_start (m : Split) (key : Hash) :
    Collects m (fun _ => False) (start (UInt16.ofNat m.count) key) := by
  have hcount : (UInt16.ofNat m.count).toNat = m.count := UInt16.toNat_ofNat_of_lt m.count_lt
  refine ⟨?_, fun _ _ h => h.elim, fun i hi _ => ?_, ?_⟩
  · show (replicate _ none).length = _
    rw [length_replicate, hcount]
  · show (replicate _ none)[i]? = _
    rw [List.getElem?_replicate, hcount, if_pos hi]
  · show (UInt16.ofNat m.count).toUInt32.toNat = (replicate _ none).countP _
    rw [UInt16.toNat_toUInt32, countP_replicate, hcount]
    rfl

theorem Collects.resume (h : Collects m arrived msg) : msg.resume = msg := by
  unfold Message.resume
  rw [if_neg]
  rw [h.length]
  exact Nat.ne_of_gt m.count_pos

theorem Collects.place (h : Collects m arrived msg) (hi : i < m.count) :
    ∃ msg', msg.place (m.fragment i) (UInt16.ofNat i) (UInt16.ofNat m.count) = .ok msg' ∧
      Collects m (fun j => arrived j ∨ j = i) msg' := by
  have hid : (UInt16.ofNat i).toNat = i := UInt16.toNat_ofNat_of_lt (Nat.lt_trans hi m.count_lt)
  unfold Message.place
  rw [hid]
  by_cases harrived : arrived i
  · rw [h.taken i hi harrived]
    refine ⟨msg, rfl, h.length, fun j hj hj' => ?_, fun j hj hj' => ?_, h.left⟩
    · rcases hj' with hj' | rfl
      · exact h.taken j hj hj'
      · exact h.taken j hj harrived
    · exact h.free j hj fun hj'' => hj' (.inl hj'')
  · have hfree := h.free i hi harrived
    have hlt : i < msg.packets.length := h.length.symm ▸ hi
    have hnone : msg.packets[i] = none := by
      rw [List.getElem?_eq_getElem hlt] at hfree
      exact Option.some.inj hfree
    rw [hfree]
    refine ⟨_, rfl, (length_set ..).trans h.length, fun j hj hj' => ?_, fun j hj hj' => ?_, ?_⟩
    · have htaken := h.taken
      grind
    · have hfree := h.free
      grind
    · exact left_set hlt hnone h.left _

theorem Collects.isComplete_iff (h : Collects m arrived msg) :
    msg.isComplete = true ↔ ∀ i < m.count, arrived i := by
  rw [isComplete_iff_of_left h.left]
  have hfree := h.free
  have htaken := h.taken
  have hlength' := h.length
  grind [getElem_of_mem]

theorem mapM_ok {α β : Type} {f : α → Except Fault β} {g : α → β} {as : List α}
    (h : ∀ a ∈ as, f a = .ok (g a)) : as.mapM f = .ok (as.map g) := by
  induction as with
  | nil => rfl
  | cons a as ih =>
    rw [mapM_cons, h a mem_cons_self, ih fun b hb => h b (mem_cons_of_mem _ hb)]
    rfl

theorem mapM_ne_ok {α β : Type} {f : α → Except Fault β} {as : List α} {a : α} {e : Fault}
    {bs : List β} (hmem : a ∈ as) (h : f a = .error e) : as.mapM f ≠ .ok bs := by
  intro hok
  induction as generalizing bs with
  | nil => exact nomatch hmem
  | cons b as ih =>
    rw [mapM_cons] at hok
    obtain ⟨c, hc, hok⟩ := bind_eq_ok hok
    obtain ⟨cs, hcs, -⟩ := bind_eq_ok hok
    grind

theorem toNat_added {size : Nat} (hle : headersLength.toNat ≤ size) (hlt : size < 2 ^ 32) :
    (UInt64.ofNat size - headersLength.toUInt64).toUInt32.toNat = size - headersLength.toNat := by
  have hsize : (UInt64.ofNat size).toNat = size :=
    UInt64.toNat_ofNat_of_lt (Nat.lt_trans hlt (by decide))
  have hle' : headersLength.toUInt64 ≤ UInt64.ofNat size := by
    rw [UInt64.le_iff_toNat_le, UInt32.toNat_toUInt64, hsize]
    exact hle
  rw [UInt64.toNat_toUInt32, UInt64.toNat_sub_of_le _ _ hle', UInt32.toNat_toUInt64, hsize]
  exact Nat.mod_eq_of_lt (by omega)

theorem toNat_totalSize (packs : List Packet)
    (hsize : ∀ pack ∈ packs, headersLength.toNat ≤ pack.size ∧ pack.size < 2 ^ 32)
    (hlt : headersLength.toNat + (packs.map fun pack => pack.size - headersLength.toNat).sum <
    2 ^ 32) :
    (totalSize headersLength packs).toNat =
      headersLength.toNat + (packs.map fun pack => pack.size - headersLength.toNat).sum := by
  unfold totalSize
  -- the loop from any size that has been reached
  suffices h : ∀ total : UInt32,
      total.toNat + (packs.map fun pack => pack.size - headersLength.toNat).sum < 2 ^ 32 →
      (packs.foldl (fun total pack =>
        total + (UInt64.ofNat pack.size - headersLength.toUInt64).toUInt32) total).toNat =
        total.toNat + (packs.map fun pack => pack.size - headersLength.toNat).sum from h _ hlt
  clear hlt
  induction packs with
  | nil => exact fun total _ => rfl
  | cons pack packs ih =>
    intro total hlt
    obtain ⟨hle, hsmall⟩ := hsize pack mem_cons_self
    rw [map_cons, sum_cons] at hlt ⊢
    have hadd : (total + (UInt64.ofNat pack.size - headersLength.toUInt64).toUInt32).toNat
        = total.toNat + (pack.size - headersLength.toNat) := by
      rw [UInt32.toNat_add, toNat_added hle hsmall]
      exact Nat.mod_eq_of_lt (by omega)
    have hrest := ih (fun p hp => hsize p (mem_cons_of_mem _ hp))
      (total + (UInt64.ofNat pack.size - headersLength.toUInt64).toUInt32) (by omega)
    rw [foldl_cons, hrest, hadd]
    omega

theorem part_of_le {packs : List Packet} {pack : Packet}
    (hpack : packs[i]? = some pack) (hle : headersLength.toNat ≤ pack.size)
    (hlt : pack.size < 2 ^ 32) :
    part headersLength packs i =
      .ok (if i = 0 then pack.region else pack.region.drop headersLength.toNat) := by
  have hsize : (UInt32.ofNat pack.size).toNat = pack.size := UInt32.toNat_ofNat_of_lt hlt
  have hle' : headersLength ≤ UInt32.ofNat pack.size := by
    rw [UInt32.le_iff_toNat_le, hsize]
    exact hle
  unfold part
  rw [hpack]
  dsimp only
  by_cases hzero : i = 0
  · rw [if_pos hzero, if_pos hzero, UInt32.sub_zero, hsize]
    exact pack.read_drop (Nat.zero_le _)
  · rw [if_neg hzero, if_neg hzero, UInt32.toNat_sub_of_le _ _ hle', hsize]
    exact pack.read_drop hle

theorem part_of_lt {packs : List Packet} {pack : Packet}
    (hpack : packs[i]? = some pack) (hi : i ≠ 0) (hlt : pack.size < headersLength.toNat) :
    part headersLength packs i = .error .undefined := by
  have hbeyond : ¬ headersLength.toNat + (UInt32.ofNat pack.size - headersLength).toNat
      ≤ pack.size := by
    omega
  unfold part
  rw [hpack]
  rw [if_neg hi]
  exact if_neg hbeyond

section Compose

variable {first : Packet} {rest : List Packet} {headersLength : UInt32}

theorem mapM_getPacket (hpackets : msg.packets = (first :: rest).map some) :
    (List.range msg.packets.length).mapM msg.getPacket = .ok (first :: rest) := by
  have hget : ∀ i ∈ range msg.packets.length,
      msg.getPacket i = .ok ((first :: rest).getD i first) := by
    grind [Message.getPacket]
  rw [mapM_ok hget, hpackets, length_map]
  grind [ext_getElem, length_map]

theorem composeFullData_eq (hpackets : msg.packets = (first :: rest).map some)
    (hfragmented : first.isFragmented = .ok true)
    (hlength : first.getHeadersLength = .ok headersLength) :
    msg.composeFullData = (do
      let parts ← (List.range (first :: rest).length).mapM (part headersLength (first :: rest))
      if (totalSize headersLength (first :: rest)).toNat < parts.flatten.length then
        throw .undefined
      else return { msg with fullData := some parts.flatten }) := by
  have hfirst : msg.getPacket 0 = .ok first := by
    unfold Message.getPacket
    rw [hpackets]
    rfl
  unfold Message.composeFullData
  grind [ok_bind, mapM_getPacket]

variable (hle : ∀ pack ∈ first :: rest, headersLength.toNat ≤ pack.size)
  (hsum : ((first :: rest).map Packet.size).sum < 2 ^ 32)

include hsum in
theorem size_lt_of_sum {pack : Packet} (hpack : pack ∈ first :: rest) : pack.size < 2 ^ 32 :=
  Nat.lt_of_le_of_lt
    (single_le_sum (fun _ _ => Nat.zero_le _) _ (mem_map_of_mem hpack)) hsum

include hle hsum

theorem mapM_part :
    (List.range (first :: rest).length).mapM (part headersLength (first :: rest)) =
      .ok (first.region :: rest.map fun pack => pack.region.drop headersLength.toNat) := by
  have hpart : ∀ i ∈ range (first :: rest).length, part headersLength (first :: rest) i =
      .ok ((first.region :: rest.map fun pack =>
        pack.region.drop headersLength.toNat).getD i []) := by
    intro i hi
    have hlt : i < (first :: rest).length := mem_range.mp hi
    have hmem := getElem_mem hlt
    rw [part_of_le (List.getElem?_eq_getElem hlt) (hle _ hmem) (size_lt_of_sum hsum hmem)]
    cases i with
    | zero => rfl
    | succ i =>
      have hrest : i < rest.length := Nat.lt_of_succ_lt_succ hlt
      simp [hrest]
  rw [mapM_ok hpart]
  grind [ext_getElem, length_map, length_cons]

theorem toNat_totalSize_eq_length :
    (totalSize headersLength (first :: rest)).toNat =
      (first.region :: rest.map
        fun pack => pack.region.drop headersLength.toNat).flatten.length := by
  have hfirst := hle first mem_cons_self
  have hrest : (rest.map fun pack => pack.size - headersLength.toNat).sum
      ≤ (rest.map Packet.size).sum :=
    sum_le_sum fun pack _ => Nat.sub_le _ _
  have hlength : (first.region :: rest.map fun pack =>
      pack.region.drop headersLength.toNat).flatten.length
      = first.size + (rest.map fun pack => pack.size - headersLength.toNat).sum := by
    rw [length_flatten, map_cons, sum_cons, map_map]
    simp only [Function.comp_def, length_drop]
    rfl
  have htotal : headersLength.toNat +
      ((first :: rest).map fun pack => pack.size - headersLength.toNat).sum
      = first.size + (rest.map fun pack => pack.size - headersLength.toNat).sum := by
    rw [map_cons, sum_cons]
    omega
  rw [hlength, ← htotal]
  refine toNat_totalSize _ (fun pack hpack => ⟨hle pack hpack, size_lt_of_sum hsum hpack⟩) ?_
  rw [map_cons, sum_cons] at hsum
  omega

theorem composeFullData_of_le (hpackets : msg.packets = (first :: rest).map some)
    (hfragmented : first.isFragmented = .ok true)
    (hlength : first.getHeadersLength = .ok headersLength) :
    msg.composeFullData = .ok { msg with
      fullData := some (first.region ::
        rest.map fun pack => pack.region.drop headersLength.toNat).flatten } := by
  rw [composeFullData_eq hpackets hfragmented hlength, mapM_part hle hsum, ok_bind,
    toNat_totalSize_eq_length hle hsum, if_neg (Nat.lt_irrefl _)]
  rfl

end Compose

end Message

theorem Split.range_count (m : Split) : List.range m.count = 0 :: List.range' 1 (m.count - 1) := by
  have hcount : m.count = m.count - 1 + 1 := by
    have := m.count_pos
    omega
  rw [range_eq_range', hcount, List.range'_succ]
  rfl

theorem Message.Collects.composeFullData {m : Split} {arrived : Nat → Prop} {msg : Message}
    (h : Collects m arrived msg) (hall : ∀ i < m.count, arrived i) :
    msg.composeFullData = .ok { msg with fullData := some m.whole } := by
  set rest := (range' 1 (m.count - 1)).map m.fragment with hrest
  have hcount : m.fragment 0 :: rest = (range m.count).map m.fragment := by
    rw [m.range_count, map_cons]
  have hpackets : msg.packets = (m.fragment 0 :: rest).map some := by
    have hlength' := h.length
    have htaken := h.taken
    grind [ext_getElem, length_map]
  have hle : ∀ pack ∈ m.fragment 0 :: rest, (Packet.headersLength m.flags).toNat ≤ pack.size := by
    rw [hcount]
    intro pack hpack
    obtain ⟨i, hi, rfl⟩ := mem_map.mp hpack
    exact m.headersLength_le_size (mem_range.mp hi)
  have hsum : ((m.fragment 0 :: rest).map Packet.size).sum < 2 ^ 32 := by
    rw [hcount, map_map]
    exact m.sum_size_lt
  rw [composeFullData_of_le hle hsum hpackets (m.isFragmented_fragment 0)
    (m.getHeadersLength_fragment 0), flatten_cons, hrest, map_map, ← flatMap_def]
  rfl

end CreditsNode
