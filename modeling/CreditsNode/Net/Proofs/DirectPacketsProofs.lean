import CreditsNode.Net.DirectPackets
import CreditsNode.Net.Proofs.FiledPacketsProofs

/-!
# Which packets are acknowledged

What is decoded is the packet that was encoded, without the flag for compression. The flags are a
part of what is hashed, so that a packet with this flag is acknowledged under a hash that is not its
own.
-/

namespace CreditsNode

open ByteCodec Effect Packet

namespace Packet

variable {lz4 : Lz4} {p : Packet} {bytes : Bytes}

theorem and_not_of_and_eq_zero {a b : UInt8} (h : a &&& b = 0) : a &&& ~~~b = a := by
  have hbits : a.toBitVec &&& b.toBitVec = 0#8 := congrArg UInt8.toBitVec h
  refine UInt8.toBitVec_inj.mp (BitVec.eq_of_getLsbD_eq fun i hi => ?_)
  have hbit := congrArg (BitVec.getLsbD · i) hbits
  simp at hbit ⊢
  grind

theorem clearCompressed_eq (h : p.isCompressed = .ok false) : p.clearCompressed = p := by
  obtain ⟨_ | ⟨flags, rest⟩⟩ := p
  · rfl
  · have hflag : flags &&& BaseFlags.compressed = 0 := by simpa using Except.ok.inj h
    show mk ((flags &&& ~~~BaseFlags.compressed) :: rest) = _
    rw [and_not_of_and_eq_zero hflag]

theorem isCompressed_clearCompressed (h : p.size ≠ 0) :
    p.clearCompressed.isCompressed = .ok false := by
  obtain ⟨_ | ⟨flags, rest⟩⟩ := p
  · exact absurd rfl h
  · show Except.ok (decide (flags &&& ~~~BaseFlags.compressed &&& BaseFlags.compressed ≠ 0)) = _
    rw [UInt8.and_assoc]
    simp [show ~~~BaseFlags.compressed &&& BaseFlags.compressed = 0 from rfl]

theorem one_le_headersLength (flags : UInt8) : 1 ≤ (headersLength flags).toNat := by
  unfold headersLength
  dsimp only
  split_ifs <;> decide

theorem flags_take {n : Nat} (hn : 1 ≤ n) (h : p.size ≠ 0) :
    (mk (p.region.take n ++ bytes)).flags = p.flags := by
  obtain ⟨k, rfl⟩ := Nat.exists_eq_add_of_le' hn
  obtain ⟨_ | ⟨flags, rest⟩⟩ := p
  · exact absurd rfl h
  · rfl

theorem decode_eq (h : p.isCompressed = .ok false) : p.decode lz4 = .ok p := by
  unfold decode
  split_ifs
  · rfl
  · rw [h]
    rfl

section

variable {length : UInt32} (hlength : p.getHeadersLength = .ok length) (hlt : length.toNat < p.size)
  (hsize : p.size ≤ maxSize)
include hlength hlt hsize

theorem decode_compressed (hflag : p.isCompressed = .ok true) (hbytes : 0 < bytes.length)
    (hcompress : lz4.compress (p.region.drop length.toNat) (maxSize - length.toNat) = some bytes) :
    (mk (p.region.take length.toNat ++ bytes)).decode lz4 = .ok p.clearCompressed := by
  have hone : 1 ≤ length.toNat := by
    obtain ⟨flags, -, ⟨⟩⟩ := bind_eq_ok hlength
    exact one_le_headersLength flags
  have hflags : (mk (p.region.take length.toNat ++ bytes)).flags = p.flags :=
    flags_take hone (Nat.ne_zero_of_lt hlt)
  have hflag' : (mk (p.region.take length.toNat ++ bytes)).isCompressed = .ok true := by
    unfold isCompressed checkFlag
    rw [hflags]
    exact hflag
  have hlength' : (mk (p.region.take length.toNat ++ bytes)).getHeadersLength = .ok length := by
    unfold getHeadersLength
    rw [hflags]
    exact hlength
  have htake : (p.region.take length.toNat).length = length.toNat := List.length_take_of_le hlt.le
  have hlong : length.toNat < (mk (p.region.take length.toNat ++ bytes)).size := by
    rw [size, List.length_append, htake]
    omega
  have hdrop : (p.region.drop length.toNat).length = p.size - length.toNat := List.length_drop
  have hback := lz4.decompress_compress hcompress (maxSize - length.toNat) (by omega)
  unfold decode
  rw [if_neg (Nat.ne_zero_of_lt hlong), hflag', ok_bind, if_pos rfl, hlength', ok_bind,
    if_neg (Nat.not_le.mpr hlong), List.drop_left' htake, hback, List.take_left' htake]
  dsimp only
  rw [if_pos (by omega), List.take_append_drop]
  rfl

variable (lz4 p) in
theorem decode_encode :
    ∃ bytes q, p.encode lz4 = .ok (bytes, q) ∧ (mk bytes).decode lz4 = .ok p.clearCompressed := by
  have hne : p.size ≠ 0 := Nat.ne_zero_of_lt hlt
  have hplain : ∃ bytes q, p.clearCompressed.copy = .ok (bytes, q) ∧
      (mk bytes).decode lz4 = .ok p.clearCompressed := by
    have hsize' : p.clearCompressed.size ≤ maxSize := List.length_modifyHead.trans_le hsize
    exact ⟨_, _, if_pos hsize', decode_eq (isCompressed_clearCompressed hne)⟩
  obtain ⟨flag, hflag⟩ : ∃ flag, p.isCompressed = .ok flag := by
    obtain ⟨flags, hflags, -⟩ := bind_eq_ok hlength
    unfold isCompressed checkFlag
    exact ⟨_, by rw [hflags]; rfl⟩
  unfold encode
  rw [if_neg hne, hflag, ok_bind]
  cases flag with
  | false =>
    rw [clearCompressed_eq hflag] at hplain ⊢
    exact hplain
  | true =>
    rw [if_pos rfl, hlength, ok_bind]
    dsimp only
    cases hcompress : lz4.compress (p.region.drop length.toNat) (maxSize - length.toNat) with
    | none => exact hplain
    | some bytes =>
      dsimp only
      split_ifs with hshort
      · exact ⟨_, _, rfl, decode_compressed hlength hlt hsize hflag hshort.1 hcompress⟩
      · exact hplain

end

end Packet

/-- The entry of a packet when the hash of what was decoded has been returned. -/
def acknowledgedEntry (crypto : Crypto) (m : MsgDirects) (p decoded : Packet) :
    Option DirectPackInfo :=
  ((m.registerDirect crypto p).neighbourHasPacket (decoded.getHash crypto)).find (p.getHash crypto)

/-- A hash that is not the one of the packet does not mark its entry. -/
theorem received_acknowledgedEntry {crypto : Crypto} {m : MsgDirects} {p decoded : Packet}
    {dp : DirectPackInfo} (hne : p.getHash crypto ≠ decoded.getHash crypto)
    (hunreceived : ∀ dp ∈ m.find (p.getHash crypto), dp.received = false)
    (h : acknowledgedEntry crypto m p decoded = some dp) : dp.received = false := by
  unfold acknowledgedEntry MsgDirects.neighbourHasPacket at h
  rw [FifoMap.find_modify, if_neg hne, FifoMap.find_eq_some_iff] at h
  have hentry := (FifoMap.mem_entries_of_tryStore h).resolve_right fun heq =>
    hne (congrArg Prod.fst heq)
  rw [← FifoMap.find_eq_some_iff, MsgDirects.registerDirect, FifoMap.find_modify, if_pos rfl,
    FifoMap.find_tryStore_self] at hentry
  cases hold : m.find (p.getHash crypto) with
  | none =>
    rw [hold] at hentry
    cases hentry
    rfl
  | some old =>
    rw [hold] at hentry
    cases hentry
    exact hunreceived old hold

/-- The receiver has the packet as it was registered, up to the flag for compression. A packet not
yet received is acknowledged, and not sent again, exactly if the flag is not set, where the hash
tells a packet with the flag from the one without. -/
theorem acknowledged_iff (crypto : Crypto) (lz4 : Lz4) (m : MsgDirects) (p : Packet)
    (hvalid : p.isHeaderValid = .ok true) (hsize : p.size ≤ Packet.maxSize)
    (hunreceived : ∀ dp ∈ m.find (p.getHash crypto), dp.received = false)
    (hhash : p.clearCompressed.getHash crypto = p.getHash crypto → p.clearCompressed = p) :
    ∃ bytes q, p.encode lz4 = .ok (bytes, q) ∧
      (Packet.mk bytes).decode lz4 = .ok p.clearCompressed ∧
      (p.isCompressed = .ok false → p.clearCompressed = p) ∧
      ((∃ dp, acknowledgedEntry crypto m p p.clearCompressed = some dp ∧ dp.received = true ∧
        dp.dispatch = false) ↔ p.isCompressed = .ok false) := by
  obtain ⟨length, hlength, hlt⟩ := getHeadersLength_of_isHeaderValid hvalid
  obtain ⟨bytes, q, hencode, hdecode⟩ := p.decode_encode lz4 hlength hlt hsize
  refine ⟨bytes, q, hencode, hdecode, clearCompressed_eq, ?_, fun hflag => ?_⟩
  · rintro ⟨dp, hentry, hreceived, -⟩
    have heq : p.getHash crypto = p.clearCompressed.getHash crypto := by
      by_contra hne
      rw [received_acknowledgedEntry hne hunreceived hentry] at hreceived
      cases hreceived
    rw [← hhash heq.symm]
    exact isCompressed_clearCompressed (Nat.ne_zero_of_lt hlt)
  · unfold acknowledgedEntry MsgDirects.neighbourHasPacket
    rw [clearCompressed_eq hflag, FifoMap.find_modify, if_pos rfl, FifoMap.find_tryStore_self]
    exact ⟨_, rfl, rfl, rfl⟩

/-- A library without compression. -/
def noLz4 : Lz4 := ⟨fun _ _ => none, fun _ _ => none, nofun⟩

/-- A hash that tells the flags. -/
def flagsCrypto : Crypto := ⟨fun bytes => .replicate 32 (bytes.headD 0), fun _ _ _ => true⟩

theorem acknowledged_iff_plain :
    ∃ dp, acknowledgedEntry flagsCrypto .empty ⟨[1, 7]⟩ ⟨[1, 7]⟩ = some dp ∧ dp.received = true ∧
      dp.dispatch = false := by
  obtain ⟨_, _, -, -, -, hiff⟩ :=
    acknowledged_iff flagsCrypto noLz4 .empty ⟨[1, 7]⟩ rfl (by decide) nofun fun _ => rfl
  exact hiff.mpr rfl

/-- The packet asks for compression, which would not make it shorter: it is sent without the flag,
and its hash is not the one under which it is registered. -/
theorem not_acknowledged :
    Packet.isHeaderValid ⟨[9, 7]⟩ = .ok true ∧
    Packet.encode noLz4 ⟨[9, 7]⟩ = .ok ([1, 7], ⟨[1, 7]⟩) ∧
    Packet.decode noLz4 ⟨[1, 7]⟩ = .ok ⟨[1, 7]⟩ ∧
    (acknowledgedEntry flagsCrypto .empty ⟨[9, 7]⟩ ⟨[1, 7]⟩).map DirectPackInfo.dispatch =
      some true := by
  decide

end CreditsNode
