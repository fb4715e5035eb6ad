import CreditsNode.Csnode.Proofs.IPackStreamProofs
import CreditsNode.Csnode.Proofs.OPackStreamProofs

/-!
# From the writer of a message to its reader

What an `OPackStream` has written can be extracted with an `IPackStream` from the payloads of the
packets in their order. The headers must have a place for the receiver if there is one, and the size
of a value must fit in 32 bits.
-/

namespace CreditsNode.IPackStream

open ByteCodec Effect OPackStream List

/-- The stream is good, and these bytes come next. -/
structure At (buffer : Buffer) (rest : Bytes) (s : IPackStream) : Prop where
  inBounds : InBounds buffer s
  good : s.good = true
  left : left buffer s = rest

variable {buffer : Buffer} {s : IPackStream} {data rest : Bytes}

variable {size : UInt64}

theorem At.length_le (h : At buffer rest s) : rest.length ≤ buffer.data.length := by
  rw [← h.left]
  exact length_drop.trans_le (Nat.sub_le _ _)

theorem At.take (h : At buffer (data ++ rest) s) (hsize : size.toNat = data.length) :
    ∃ t, take buffer size s = .ok data t ∧ At buffer rest t := by
  have hle : size.toNat ≤ (IPackStream.left buffer s).length := by
    rw [h.left, length_append]
    omega
  obtain ⟨hrun, hbounds, hleft⟩ := take_eq h.inBounds hle
  rw [h.left, hsize, take_left] at hrun
  rw [h.left, hsize, drop_left] at hleft
  exact ⟨_, hrun, hbounds, h.good, hleft⟩

theorem At.extractArray (h : At buffer (data ++ rest) s) (hsize : size.toNat = data.length) :
    ∃ t, extractArray buffer size s = .ok (some data) t ∧ At buffer rest t := by
  have havailable : isBytesAvailable buffer size s = true := by
    rw [isBytesAvailable_iff h.inBounds, h.left, length_append]
    omega
  obtain ⟨t, hrun, ht⟩ := h.take hsize
  refine ⟨t, ?_, ht⟩
  show (if !isBytesAvailable buffer size s then _ else _ : Extract (Option Bytes)) s = _
  rw [if_neg (by rw [havailable]; decide)]
  exact bind_eq_of_ok hrun

theorem At.extractValue (h : At buffer (data ++ rest) s) (hbuffer : buffer.data.length < 2 ^ 32)
    {size : ObjectSize} (hsize : size.value.toNat = data.length) :
    ∃ t, extractValue buffer size s = .ok (some data) t ∧ At buffer rest t := by
  have hlength := h.length_le
  have hpeek : canPeek buffer size s = true := by
    unfold canPeek
    rw [decide_eq_true_iff, UInt64.le_iff_toNat_le, UInt32.toNat_toUInt64, UInt64.toNat_toUInt32,
      toNat_remainsBytes h.inBounds, h.left, Nat.mod_eq_of_lt (by omega), length_append]
    omega
  obtain ⟨t, hrun, ht⟩ := h.take hsize
  refine ⟨t, ?_, ht⟩
  show (if !canPeek buffer size s then _ else _ : Extract (Option Bytes)) s = _
  rw [if_neg (by rw [hpeek]; decide)]
  exact bind_eq_of_ok hrun

theorem At.extractSize (h : At buffer (putU64 size ++ rest) s)
    (hbuffer : buffer.data.length < 2 ^ 32) :
    ∃ t, extractSize buffer s = .ok size t ∧ At buffer rest t := by
  have hlength : DataStream.sizeofSize.value.toNat = (putU64 size).length := rfl
  obtain ⟨t, hrun, ht⟩ := h.extractValue hbuffer hlength
  have hsize : UInt64.ofNat (leNat (putU64 size)) = size := by
    show UInt64.ofNat (leNat (leBytes 8 size.toNat)) = size
    rw [leNat_leBytes, Nat.mod_eq_of_lt (by exact size.toNat_lt), UInt64.ofNat_toNat]
  refine ⟨t, (bind_eq_of_ok hrun).trans ?_, ht⟩
  show EStateM.Result.ok (UInt64.ofNat (leNat (putU64 size))) t = _
  rw [hsize]

theorem At.extractBytes (h : At buffer (putU64 (.ofNat data.length) ++ (data ++ rest)) s)
    (hbuffer : buffer.data.length < 2 ^ 32) :
    ∃ t, extractBytes buffer s = .ok (some data) t ∧ At buffer rest t := by
  obtain ⟨t, hrun, ht⟩ := h.extractSize hbuffer
  have hlength := ht.length_le
  have hsize : (UInt64.ofNat data.length).toNat = data.length := by
    rw [length_append] at hlength
    exact UInt64.toNat_ofNat_of_lt' (by show _ < 2 ^ 64; omega)
  obtain ⟨u, hrun', hu⟩ := ht.extractArray hsize
  refine ⟨u, (bind_eq_of_ok hrun).trans ?_, hu⟩
  show (if !t.good then _ else _ : Extract (Option Bytes)) t = _
  rw [if_neg (by rw [ht.good]; decide)]
  exact hrun'

theorem At.extract {v : Value} (h : At buffer (v.encode ++ rest) s)
    (hbuffer : buffer.data.length < 2 ^ 32) :
    ∃ t, v.extract buffer s = .ok (some v.data) t ∧ At buffer rest t := by
  have hlength := h.length_le
  cases v with
  | scalar data small =>
    refine h.extractValue hbuffer ?_
    exact UInt64.toNat_ofNat_of_lt' (by show _ < 2 ^ 64; omega)
  | array data =>
    refine h.extractArray (UInt64.toNat_ofNat_of_lt' ?_)
    rw [length_append] at hlength
    show data.length < 2 ^ 64
    change data.length + rest.length ≤ _ at hlength
    omega
  | string data =>
    have hat : At buffer ((putU64 (.ofNat data.length) ++ data) ++ rest) s := h
    exact hat.extractBytes hbuffer
  | bytes data =>
    have hat : At buffer ((putU64 (.ofNat data.length) ++ data) ++ rest) s := h
    exact hat.extractBytes hbuffer

theorem At.extractAll (hbuffer : buffer.data.length < 2 ^ 32) (values : List Value) :
    ∀ {s}, At buffer (values.flatMap Value.encode) s →
      ∃ t, extractAll buffer values s = .ok (values.map Value.data) t ∧ At buffer [] t := by
  induction values with
  | nil => exact fun h => ⟨_, rfl, h⟩
  | cons v values ih =>
    intro s h
    obtain ⟨t, hrun, ht⟩ := h.extract hbuffer
    obtain ⟨u, hrun', hu⟩ := ih ht
    refine ⟨u, (bind_eq_of_ok hrun).trans ?_, hu⟩
    exact bind_eq_of_ok hrun'

end CreditsNode.IPackStream

namespace CreditsNode.OPackStream

open ByteCodec Effect Packet

theorem length_getPackets (s : OPackStream) : s.getPackets.packets.length = s.packets.length := by
  unfold getPackets
  split_ifs
  · rfl
  · exact List.length_map _
  · rfl

/-- The payloads of the packets together are what has been written, no packet is too large, several
packets are numbered, and the values can be extracted from the payloads. -/
theorem getPackets_writeAll (s : OPackStream) (start : Start) (values : List Value)
    (hheaded : start.Headed) (hfits : ∀ v ∈ values, v.Fits) :
    ∃ t, (start.init s >>= writeAll values) = .ok t ∧ (t.packets.length < 65536 →
      Finished (values.flatMap Value.encode) t.getPackets.packets ∧
      ∀ buffer : Buffer, buffer.data = values.flatMap Value.encode →
        ∃ u, IPackStream.extractAll buffer values {} = .ok (values.map Value.data) u ∧
          u.good = true) := by
  obtain ⟨t, headers, hinit, ht, hheaders⟩ := Start.exists_init hheaded s
  obtain ⟨u, hwrite, hu⟩ := ht.writeAll values hfits
  refine ⟨u, ?_, fun hfew => ?_⟩
  · rw [hinit, ok_bind]
    exact hwrite
  · have hfinished := hu.getPackets hheaders hfew
    refine ⟨hfinished, fun buffer hbuffer => ?_⟩
    obtain ⟨msgs, hmsgs, hpayload⟩ := hfinished.payloads
    have hlength := length_flatten_le hmsgs hfinished.size
    rw [length_getPackets, hpayload, ← hbuffer] at hlength
    have hsmall : buffer.data.length < 2 ^ 32 := by
      unfold maxSize at hlength
      omega
    have hat : IPackStream.At buffer (values.flatMap Value.encode) {} :=
      ⟨Nat.zero_le _, rfl, hbuffer⟩
    obtain ⟨v, hrun, hv⟩ := hat.extractAll hsmall
    exact ⟨v, hrun, hv.good⟩

/-- A stream that has not been used. -/
def unused : OPackStream := { senderKey := zeroArray 32 }

def threeValues : List Value :=
  [.scalar [1, 2] (by decide), .string [7], .array (List.replicate 1000 9)]

/-- Three values in two packets. -/
theorem getPackets_writeAll_two :
    ∃ t, (Start.init ⟨BaseFlags.broadcast, none⟩ unused >>= writeAll threeValues) = .ok t ∧
      t.getPackets.packets.length = 2 ∧
      Finished (threeValues.flatMap Value.encode) t.getPackets.packets := by
  have hfits : ∀ v ∈ threeValues, v.Fits := by
    intro v hv
    simp only [threeValues, List.mem_cons, List.not_mem_nil, or_false] at hv
    rcases hv with rfl | rfl | rfl
    · unfold Value.Fits
      decide
    · unfold Value.Fits
      decide
    · exact List.length_replicate.trans_lt (by decide)
  obtain ⟨t, hrun, h⟩ := getPackets_writeAll unused ⟨BaseFlags.broadcast, none⟩ threeValues
    (by unfold Start.Headed; decide) hfits
  have hcount : ((Start.init ⟨BaseFlags.broadcast, none⟩ unused >>=
      writeAll threeValues).toOption.map (·.packets.length)) = some 2 := by decide +kernel
  rw [hrun] at hcount
  have hlength : t.packets.length = 2 := Option.some.inj hcount
  exact ⟨t, hrun, (length_getPackets t).trans hlength, (h (by omega)).1⟩

theorem write_string_of_mod {data : Bytes} (h : data.length % 2 ^ 32 = 0) (s : OPackStream) :
    (Value.string data).write s = s.putValue (putU64 (.ofNat data.length)) := by
  have hinsert : ∀ t : OPackStream, t.insertBytes data = .ok t := by
    intro t
    unfold insertBytes
    rw [h]
    rfl
  show (do let s ← s.putValue (putU64 (.ofNat data.length)); s.insertBytes data) = _
  simp only [hinsert]
  cases s.putValue (putU64 (.ofNat data.length)) <;> rfl

/-- Without a receiver where the headers have a place for it, the first bytes of the values take
this place. Of a string of 4 GiB only the size is written. -/
theorem payload_other_than_values :
    (∃ t, (Start.init ⟨BaseFlags.fragmented, none⟩ unused >>=
        writeAll [.array (List.replicate 32 7)]) = .ok t ∧
      t.getPackets.packets.mapM Packet.getMsg = .ok [[]]) ∧
    ∃ data : Bytes, data.length = 2 ^ 32 ∧
      ∃ t, (Start.init ⟨BaseFlags.networkMsg, none⟩ unused >>= writeAll [.string data]) = .ok t ∧
        t.getPackets.packets.mapM Packet.getMsg = .ok [[0, 0, 0, 0, 1, 0, 0, 0]] := by
  refine ⟨⟨_, rfl, rfl⟩, List.replicate (2 ^ 32) 0, List.length_replicate, ?_⟩
  have hlength : (List.replicate (2 ^ 32) (0 : UInt8)).length = 2 ^ 32 := List.length_replicate
  have hwrite : writeAll [.string (List.replicate (2 ^ 32) 0)] =
      fun s => s.putValue (putU64 (.ofNat (2 ^ 32))) := by
    funext s
    show ((Value.string (List.replicate (2 ^ 32) 0)).write s >>= pure) = _
    rw [write_string_of_mod (by rw [hlength]; rfl), hlength, bind_pure]
  rw [hwrite]
  exact ⟨_, rfl, rfl⟩

end CreditsNode.OPackStream
