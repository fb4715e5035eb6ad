import Mathlib.Data.Set.List
import CreditsNode.Net.Proofs.ReassemblyProofs

/-!
# The full data of packets with valid headers

The header of a packet is valid if the packet is longer than its own headers. The full data of a
message are put together with the length of the headers of the first packet. Packets with headers of
different lengths can be filed in one message; one that is shorter than the headers of the first
then has a size below zero.
-/

namespace CreditsNode

open ByteCodec Effect List

namespace Packet

theorem getHeadersLength_of_isHeaderValid {p : Packet} (h : p.isHeaderValid = .ok true) :
    ∃ length, p.getHeadersLength = .ok length ∧ length.toNat < p.size := by
  unfold isHeaderValid at h
  obtain ⟨valid, -, h⟩ := bind_eq_ok h
  cases valid with
  | false => exact absurd (Except.ok.inj h) Bool.false_ne_true
  | true =>
    obtain ⟨length, hlength, h⟩ := bind_eq_ok h
    refine ⟨length, hlength, ?_⟩
    simpa using Except.ok.inj h

theorem fragmentsNum_ne_zero {p : Packet} {fragmentsNum : UInt16}
    (hfragmented : p.isFragmented = .ok true) (hvalid : p.hasValidFragmentation = .ok true)
    (hnum : p.getFragmentsNum = .ok fragmentsNum) : fragmentsNum ≠ 0 := by
  rintro rfl
  unfold hasValidFragmentation at hvalid
  rw [hfragmented, ok_bind, if_pos rfl] at hvalid
  obtain ⟨fragment, -, hvalid⟩ := bind_eq_ok hvalid
  rw [hnum, ok_bind] at hvalid
  simpa using Except.ok.inj hvalid

end Packet

/-- The packets of the message have the property, and `packetsLeft` is the number of the places that
are free. -/
structure Message.Files (P : Packet → Prop) (msg : Message) : Prop where
  nonempty : msg.packets ≠ []
  placed : ∀ pack, some pack ∈ msg.packets → P pack
  left : msg.packetsLeft.toNat = msg.packets.countP Option.isNone

namespace Message

variable {P : Packet → Prop} {msg : Message}

theorem files_start {fragmentsNum : UInt16} (h : fragmentsNum ≠ 0) (key : Hash) :
    Files P (start fragmentsNum key) where
  nonempty hnil := by
    have hzero : fragmentsNum.toNat = 0 := replicate_eq_nil_iff _ |>.mp hnil
    exact h (UInt16.toNat.inj hzero)
  placed pack hmem := absurd (eq_of_mem_replicate hmem) (Option.some_ne_none pack)
  left := by
    show fragmentsNum.toUInt32.toNat = (replicate _ none).countP _
    rw [UInt16.toNat_toUInt32, countP_replicate]
    rfl

theorem Files.resume (h : Files P msg) : Files P msg.resume := by
  have hnonempty := h.nonempty
  grind [Message.resume]

theorem Files.place (h : Files P msg) {pack : Packet} (hpack : P pack)
    {fragmentId fragmentsNum : UInt16} {msg' : Message}
    (hplace : msg.place pack fragmentId fragmentsNum = .ok msg') : Files P msg' := by
  unfold Message.place at hplace
  split at hplace
  · exact nomatch hplace
  · cases hplace
    exact h
  · rename_i hfree
    obtain ⟨hlt, hnone⟩ := List.getElem?_eq_some_iff.mp hfree
    cases hplace
    refine ⟨?_, fun p hp => ?_, left_set hlt hnone h.left pack⟩
    · rw [Ne, set_eq_nil_iff]
      exact h.nonempty
    · have hplaced := h.placed
      grind

theorem Files.packets_eq (h : Files P msg) (hcomplete : msg.isComplete = true) :
    ∃ first rest, msg.packets = (first :: rest).map some ∧ ∀ pack ∈ first :: rest, P pack := by
  have hnone := (isComplete_iff_of_left h.left).mp hcomplete
  have hrange : msg.packets ∈ Set.range (map some) := by
    rw [Set.range_list_map]
    exact fun place hmem => Option.ne_none_iff_exists.mp fun heq => hnone (heq ▸ hmem)
  obtain ⟨packs, hpacks⟩ := hrange
  cases packs with
  | nil => exact absurd hpacks.symm h.nonempty
  | cons first rest =>
    have hplaced := h.placed
    grind

end Message

namespace PacketCollector

variable {crypto : Crypto} {P : Hash → Packet → Prop}

def Files (P : Hash → Packet → Prop) (c : PacketCollector) : Prop :=
  ∀ key value, c.map.find key = some value → ∃ msg, value = some msg ∧ Message.Files (P key) msg

theorem wp_getMessage (crypto : Crypto) (pack : Packet) (c : PacketCollector) :
    Returns (getMessage crypto pack) (fun _ t => t = c ∨
      ∃ hash fragmentsNum fragmentId msg, pack.isFragmented = .ok true ∧
        pack.hasValidFragmentation = .ok true ∧ pack.getHeaderHash crypto = .ok hash ∧
        pack.getFragmentsNum = .ok fragmentsNum ∧
        (lookUp ⟨c.map.tryStore hash none⟩ hash fragmentsNum).1.place pack fragmentId fragmentsNum
          = .ok msg ∧ t = c.enter hash msg) c := by
  unfold getMessage
  refine Returns.lift_bind fun fragmented hfragmented => ?_
  cases fragmented with
  | false => exact Wp.pure (Or.inl rfl)
  | true =>
    refine Returns.lift_bind fun valid hvalid => ?_
    cases valid with
    | false => exact Wp.pure (Or.inl rfl)
    | true =>
      refine Returns.lift_bind fun hash hhash => ?_
      refine Wp.modify_bind ?_
      refine Returns.lift_bind fun fragmentsNum hnum => ?_
      refine Returns.lift_bind fun fragmentId _ => ?_
      refine Wp.get_bind (Wp.modify_bind ?_)
      refine Returns.lift_bind fun msg hmsg => ?_
      refine Wp.modify_bind (Wp.pure (Or.inr ?_))
      refine ⟨hash, fragmentsNum, fragmentId, msg, hfragmented, hvalid, hhash, hnum, hmsg, ?_⟩
      unfold enter assign
      rw [FifoMap.modify_modify]
      rfl

variable {c : PacketCollector}

theorem Files.lookUp (h : Files P c) (hash : Hash) {fragmentsNum : UInt16}
    (hnum : fragmentsNum ≠ 0) :
    Message.Files (P hash) (PacketCollector.lookUp
      ⟨c.map.tryStore hash none⟩ hash fragmentsNum).1 := by
  unfold PacketCollector.lookUp
  rw [FifoMap.find_tryStore_self]
  cases hfind : c.map.find hash with
  | none => exact Message.files_start hnum hash
  | some value =>
    obtain ⟨msg, rfl, hmsg⟩ := h hash value hfind
    exact hmsg.resume

theorem Files.enter (h : Files P c) {hash : Hash} {msg : Message}
    (hmsg : Message.Files (P hash) msg) : Files P (c.enter hash msg) := by
  intro key value hfind
  by_cases hkey : key = hash
  · subst hkey
    rw [find_enter_self] at hfind
    exact ⟨msg, (Option.some.inj hfind).symm, hmsg⟩
  · rw [find_enter_of_ne hkey] at hfind
    have hold := (FifoMap.mem_entries_of_tryStore (FifoMap.find_eq_some_iff.mp hfind)).resolve_right
      fun heq => hkey (congrArg Prod.fst heq)
    exact h key value (FifoMap.find_eq_some_iff.mpr hold)

theorem Files.getMessage (h : Files P c) {pack : Packet}
    (hpack : ∀ key, pack.isFragmented = .ok true → pack.getHeaderHash crypto = .ok key →
    P key pack) :
    Returns (PacketCollector.getMessage crypto pack) (fun _ t => Files P t) c := by
  refine (wp_getMessage crypto pack c).mono ?_
  rintro _ _ (rfl | ⟨hash, fragmentsNum, fragmentId, msg, hfragmented, hvalid, hhash, hnum,
    hmsg, rfl⟩)
  · exact h
  · have hcount := Packet.fragmentsNum_ne_zero hfragmented hvalid hnum
    exact h.enter ((h.lookUp hash hcount).place (hpack hash hfragmented hhash) hmsg)

theorem files_fileAll (packs : List Packet) : Returns (fileAll crypto packs) (fun _ c =>
    Files (fun key pack => pack ∈ packs ∧ pack.isFragmented = .ok true ∧
      pack.getHeaderHash crypto = .ok key) c) new := by
  refine .forM (I := fun _ => Files _) (fun key value hfind => nomatch hfind) ?_
  intro done pack hpack c hfiles
  exact (hfiles.getMessage fun key hfragmented hhash => ⟨hpack, hfragmented, hhash⟩).bind
    fun _ _ ht => .pure ht

/-- The full data of a message that packets with valid headers complete are put together without a
fault exactly when no packet is shorter than the headers of the first one. No size is then below
zero, and the region has the size of the parts that are copied to it. -/
theorem filed_composeFullData (crypto : Crypto) (packs : List Packet)
    (hvalid : ∀ pack ∈ packs, pack.isHeaderValid = .ok true) (c : PacketCollector)
    (hrun : fileAll crypto packs new = .ok () c) (key : Hash) (msg : Message)
    (hmsg : c.map.find key = some (some msg)) (hcomplete : msg.isComplete = true) :
    ∃ first rest headersLength, msg.packets = (first :: rest).map some ∧
      (∀ pack ∈ first :: rest, pack ∈ packs ∧ pack.getHeaderHash crypto = .ok key) ∧
      first.getHeadersLength = .ok headersLength ∧
      (((first :: rest).map Packet.size).sum < 2 ^ 32 →
        ((∃ msg', msg.composeFullData = .ok msg') ↔
          ∀ pack ∈ rest, headersLength.toNat ≤ pack.size) ∧
        ((∀ pack ∈ rest, headersLength.toNat ≤ pack.size) →
          (∀ pack ∈ first :: rest, headersLength.toNat ≤ pack.size) ∧
          ∃ parts, (List.range (first :: rest).length).mapM
              (Message.part headersLength (first :: rest)) = .ok parts ∧
            (Message.totalSize headersLength (first :: rest)).toNat = parts.flatten.length ∧
            msg.composeFullData = .ok { msg with fullData := some parts.flatten })) := by
  obtain ⟨msg', hmsg', hfiles⟩ := (files_fileAll packs).of_ok hrun key _ hmsg
  obtain rfl := Option.some.inj hmsg'
  obtain ⟨first, rest, hpackets, hfiled⟩ := hfiles.packets_eq hcomplete
  obtain ⟨hmem, hfragmented, -⟩ := hfiled first mem_cons_self
  obtain ⟨headersLength, hlength, hfirst⟩ :=
    Packet.getHeadersLength_of_isHeaderValid (hvalid first hmem)
  have hall : (∀ pack ∈ rest, headersLength.toNat ≤ pack.size) →
      ∀ pack ∈ first :: rest, headersLength.toNat ≤ pack.size :=
    fun hrest => forall_mem_cons.mpr ⟨Nat.le_of_lt hfirst, hrest⟩
  refine ⟨first, rest, headersLength, hpackets,
    fun pack hpack => ⟨(hfiled pack hpack).1, (hfiled pack hpack).2.2⟩, hlength, fun hsum =>
      ⟨?_, ?_⟩⟩
  · constructor
    · rintro ⟨msg', hcompose⟩ pack hpack
      rw [Message.composeFullData_eq hpackets hfragmented hlength] at hcompose
      obtain ⟨parts, hparts, -⟩ := bind_eq_ok hcompose
      by_contra hshort
      obtain ⟨i, hi, hget⟩ := getElem_of_mem hpack
      have hnext : (first :: rest)[i + 1]? = some pack := by simp [hi, hget]
      have hpart := Message.part_of_lt hnext (Nat.succ_ne_zero i) (Nat.not_le.mp hshort)
      exact Message.mapM_ne_ok (mem_range.mpr (Nat.succ_lt_succ hi)) hpart hparts
    · exact fun hrest => ⟨_, Message.composeFullData_of_le
        (hall hrest) hsum hpackets hfragmented hlength⟩
  · exact fun hrest => ⟨hall hrest, _, Message.mapM_part (hall hrest) hsum,
      Message.toNat_totalSize_eq_length (hall hrest) hsum,
      Message.composeFullData_of_le (hall hrest) hsum hpackets hfragmented hlength⟩

/-- A fragment of a message of two fragments, whose other bytes are zero. -/
def fragmentOf (flags : UInt8) (fragmentId size : Nat) : Packet :=
  ⟨flags :: (leBytes 2 fragmentId ++ (leBytes 2 2 ++ List.replicate (size - 5) 0))⟩

theorem filed_composeFullData_receiver :
    let packs := [fragmentOf BaseFlags.fragmented 0 78, fragmentOf BaseFlags.fragmented 1 78]
    (∀ pack ∈ packs, pack.isHeaderValid = .ok true) ∧
      ∃ c key msg, fileAll Crypto.zero packs new = .ok () c ∧ c.map.find key = some (some msg) ∧
        msg.isComplete = true ∧ ∃ msg', msg.composeFullData = .ok msg' := by
  intro packs
  have hvalid : ∀ pack ∈ packs, pack.isHeaderValid = .ok true := by decide
  have hrun : ∃ c msg, fileAll Crypto.zero packs new = .ok () c ∧
      c.map.find (Crypto.zero.calculateHash []) = some (some msg) ∧ msg.isComplete = true ∧
      msg.packets = packs.map some := ⟨_, _, rfl, rfl, rfl, rfl⟩
  obtain ⟨c, msg, hrun, hmsg, hcomplete, hpacks⟩ := hrun
  obtain ⟨first, rest, headersLength, hpackets, -, hlength, hcompose⟩ :=
    filed_composeFullData Crypto.zero packs hvalid c hrun _ msg hmsg hcomplete
  have heq : first :: rest = packs :=
    map_injective_iff.mpr (Option.some_injective _) (hpackets.symm.trans hpacks)
  obtain ⟨rfl, rfl⟩ := cons.inj heq
  have h77 : headersLength = 77 := (Except.ok.inj hlength).symm
  subst h77
  exact ⟨hvalid, c, _, msg, hrun, hmsg, hcomplete, (hcompose (by decide)).1.mpr (by decide)⟩

/-- The first fragment has a receiver and the second one is sent to all, so that the second one is
shorter than the headers of the first. Their headers are valid and have the same bytes from the
number of fragments on. -/
theorem composeFullData_shorter_fragment :
    let packs := [fragmentOf BaseFlags.fragmented 0 78,
      fragmentOf (BaseFlags.fragmented ||| BaseFlags.broadcast) 1 46]
    (∀ pack ∈ packs, pack.isHeaderValid = .ok true ∧ pack.hasValidFragmentation = .ok true) ∧
      (∃ header, ∀ pack ∈ packs, pack.read Offsets.fragmentsNum fragmentedHeader = .ok header) ∧
      ∃ c key msg, fileAll Crypto.zero packs new = .ok () c ∧ c.map.find key = some (some msg) ∧
        msg.isComplete = true ∧ msg.packets = packs.map some ∧
        msg.composeFullData = .error .undefined := by
  intro packs
  have hrun : ∃ c msg, fileAll Crypto.zero packs new = .ok () c ∧
      c.map.find (Crypto.zero.calculateHash []) = some (some msg) ∧ msg.isComplete = true ∧
      msg.packets = packs.map some ∧ msg.composeFullData = .error .undefined :=
    ⟨_, _, rfl, rfl, rfl, rfl, rfl⟩
  obtain ⟨c, msg, hrun⟩ := hrun
  exact ⟨by decide, ⟨leBytes 2 2 ++ replicate 34 0, by decide⟩, c, _, msg, hrun⟩

end PacketCollector

end CreditsNode
