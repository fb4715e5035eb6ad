import CreditsNode.Csnode.Proofs.PackStreamProofs
import CreditsNode.Net.Proofs.ReassemblyProofs

/-!
# From the writer of a message to its reader, over the network

The packets of an `OPackStream` are the fragments of one message. Once the collector has all of
them, in whatever order and among whatever others they have come, an `IPackStream` extracts what was
written.
-/

namespace CreditsNode

open ByteCodec Effect Packet OPackStream List

namespace Split

variable (m : Split)

theorem getMsg_payload {i : Nat} (hi : i < m.count) :
    (m.fragment i).getMsg = .ok (m.payload i) := by
  have hle : m.headersLength ≤ (m.fragment i).size := m.headersLength_le_size hi
  show (if (m.fragment i).size < m.headersLength then _ else _) = _
  rw [if_neg hle.not_gt]
  rfl

theorem drop_whole : m.whole.drop m.headersLength = ((range m.count).map m.payload).flatten := by
  have hle : m.headersLength ≤ (m.fragment 0).region.length := m.headersLength_le_size m.count_pos
  unfold whole
  rw [drop_append_of_le_length hle, m.range_count, map_cons, flatten_cons, ← flatMap_def]
  rfl

theorem flatten_eq_of_getMsg {msgs : List Bytes}
    (h : ((range m.count).map m.fragment).mapM getMsg = .ok msgs) :
    msgs.flatten = m.whole.drop m.headersLength := by
  have hpayloads := Message.mapM_ok fun i hi => m.getMsg_payload (mem_range.mp hi)
  rw [mapM_map, Function.comp_def, hpayloads] at h
  rw [drop_whole, Except.ok.inj h]

def hashedMeta : Nat := fragmentedHeader - 2

section Fragments

variable {flags : UInt8} {first : Bytes} {parts : List Bytes}
  (hnetwork : flags &&& BaseFlags.networkMsg = 0) (hfirst : first.length = firstCapacity)
  (hparts : ∀ part ∈ parts, part.length ≤ capacity flags) (hcount : parts.length + 1 < 65536)

def bodiesOf (flags : UInt8) (first : Bytes) (parts : List Bytes) : List Bytes :=
  first.drop hashedMeta :: parts.map ((first.take (metaLength flags)).drop hashedMeta ++ ·)

include hnetwork in
theorem le_metaLength : hashedMeta ≤ metaLength flags := by
  unfold metaLength
  rw [if_neg (not_not_intro hnetwork)]
  split_ifs <;> decide

include hnetwork hfirst hparts in
theorem length_body {body : Bytes} (h : body ∈ bodiesOf flags first parts) :
    metaLength flags ≤ hashedMeta + body.length ∧ hashedMeta + body.length ≤ firstCapacity := by
  have hmeta := le_metaLength hnetwork
  have hle := metaLength_le_firstCapacity flags
  rcases mem_cons.mp h with rfl | h
  · rw [length_drop, hfirst]
    omega
  · obtain ⟨part, hpart, rfl⟩ := mem_map.mp h
    have hlength := hparts part hpart
    unfold capacity at hlength
    rw [length_append, length_drop, length_take, hfirst]
    omega

def ofFragments : Split where
  flags := mark flags
  header := leBytes 2 (parts.length + 1) ++ first.take hashedMeta
  bodies := bodiesOf flags first parts
  fragmented := mark_fragmented flags
  length_header := by
    rw [length_append, length_take, hfirst]
    rfl
  count_header := by
    rw [take_left' (length_leBytes 2 _), leNat_leBytes, Nat.mod_eq_of_lt (by exact hcount),
      bodiesOf, length_cons, length_map]
  nonempty := cons_ne_nil _ _
  headed body hbody := by
    have hlength := (length_body hnetwork hfirst hparts hbody).1
    rw [toNat_headersLength_mark]
    unfold hashedMeta fragmentedHeader at *
    omega
  small := by
    have hsum := List.sum_le_card_nsmul
      ((bodiesOf flags first parts).map fun body => 3 + fragmentedHeader + body.length) 1024 ?_
    · rw [length_map, bodiesOf, length_cons, length_map] at hsum
      change _ ≤ (parts.length + 1) * 1024 at hsum
      exact hsum.trans_lt (by omega)
    · intro size hsize
      obtain ⟨body, hbody, rfl⟩ := mem_map.mp hsize
      have hlength := (length_body hnetwork hfirst hparts hbody).2
      unfold hashedMeta fragmentedHeader firstCapacity maxSize at *
      omega

theorem fragments_eq : fragments flags (leBytes 2 (parts.length + 1)) first parts =
    (range (ofFragments hnetwork hfirst hparts hcount).count).map
      (ofFragments hnetwork hfirst hparts hcount).fragment := by
  have hmeta := le_metaLength hnetwork
  refine ext_getElem ?_ fun i hi hi' => ?_
  · rw [length_fragments, length_map, length_range]
    exact (congrArg (· + 1) (length_map _)).symm
  · rw [getElem_map, getElem_range]
    cases i with
    | zero =>
      show OPackStream.fragment (mark flags) _ 0 first = Packet.mk (mark flags :: (leBytes 2 0 ++
        ((_ ++ first.take hashedMeta) ++ first.drop hashedMeta)))
      rw [append_assoc, take_append_drop]
      rfl
    | succ i =>
      have hlt : i < parts.length := by
        rw [length_fragments] at hi
        omega
      have hhead : first.take hashedMeta = (first.take (metaLength flags)).take hashedMeta := by
        rw [take_take, Nat.min_eq_left hmeta]
      have hbody : (bodiesOf flags first parts).getD (i + 1) [] =
          (first.take (metaLength flags)).drop hashedMeta ++ parts[i] := by
        simp [bodiesOf, hlt]
      show _ = Packet.mk (mark flags :: (leBytes 2 (i + 1) ++
        ((_ ++ first.take hashedMeta) ++ (bodiesOf flags first parts).getD (i + 1) [])))
      rw [hbody, hhead, append_assoc, ← append_assoc (take _ _), take_append_drop]
      simp [fragments, OPackStream.fragment]

end Fragments

end Split

theorem OPackStream.Written.exists_split {flags : UInt8} {content : Bytes} {s : OPackStream}
    (h : Written flags content s) (hnetwork : flags &&& BaseFlags.networkMsg = 0)
    (hmany : 1 < s.packets.length) (hfew : s.packets.length < 65536) :
    ∃ m : Split, s.getPackets.packets = (range m.count).map m.fragment := by
  obtain ⟨hlayout, hfinished⟩ := h
  cases hlayout with
  | single size count packets =>
    rw [packets] at hmany
    exact absurd hmany (lt_irrefl 1)
  | several first full last length_first length_full length_last parts count packets =>
    have hlength : s.packets.length = full.length + 2 := by
      rw [packets, length_fragments, length_append]
      rfl
    have hcount : 1 < s.packetsCount := by
      rw [count, UInt16.lt_iff_toNat_lt, UInt16.toNat_ofNat_of_lt' (by show _ < 65536; omega)]
      show 1 < full.length + 2
      omega
    have hnumber : (full ++ [last]).length + 1 = full.length + 2 := by
      rw [length_append]
      rfl
    refine ⟨@Split.ofFragments flags first (full ++ [last]) hnetwork length_first
      (fun part hpart => ?_) (by omega), ?_⟩
    · rcases mem_append.mp hpart with hpart | hpart
      · exact (length_full part hpart).le
      · exact mem_singleton.mp hpart ▸ length_last
    · rw [← Split.fragments_eq, hnumber, OPackStream.getPackets,
        if_neg (by rw [hfinished]; decide), if_pos hcount]
      show s.packets.map _ = _
      rw [packets, count, map_setU16_fragments (length_countField flags)]

namespace PacketCollector

/-- What is written to a stream with room for the headers is extracted from the message that the
collector completes, whatever the order in which its packets come, how often each of them comes, and
what comes among them, if fewer than `MaxParallelCollections` other messages begin meanwhile. -/
theorem values_delivered (crypto : Crypto) (s : OPackStream) (start : Start) (values : List Value)
    (hheaded : start.Headed) (hnetwork : start.flags &&& BaseFlags.networkMsg = 0)
    (hfits : ∀ v ∈ values, v.Fits) :
    ∃ t, (start.init s >>= writeAll values) = .ok t ∧
      (1 < t.packets.length → t.packets.length < 65536 →
        ∃ m : Split, t.getPackets.packets = (range m.count).map m.fragment ∧
          ∀ (ds : List Delivery) (d : Delivery), d.message = m →
            Delivery.Distinct crypto (ds ++ [d]) →
            (∀ i < m.count, Delivery.Arrived (ds ++ [d]) m i) →
            ∃ log c, collect crypto ds new = .ok log c ∧ (Few (d.hash crypto) log →
              ∃ msg isNew c' full, getMessage crypto d.packet c = .ok (some (msg, isNew)) c' ∧
                msg.isComplete = true ∧
                msg.composeFullData = .ok { msg with fullData := some full } ∧
                ∀ buffer : Buffer, buffer.data = full.drop m.headersLength →
                  ∃ u, IPackStream.extractAll buffer values {} = .ok (values.map Value.data) u ∧
                    u.good = true)) := by
  obtain ⟨t, headers, hinit, ht, hheaders⟩ := Start.exists_init hheaded s
  obtain ⟨u, hwrite, hu⟩ := ht.writeAll values hfits
  refine ⟨u, ?_, fun hmany hfew => ?_⟩
  · rw [hinit, ok_bind]
    exact hwrite
  obtain ⟨m, hm⟩ := hu.exists_split hnetwork hmany hfew
  refine ⟨m, hm, fun ds d hd hdistinct harrived => ?_⟩
  subst hd
  obtain ⟨log, c, hok, hfollows⟩ := collect_follows hdistinct.of_append
  refine ⟨log, c, hok, fun hfewer => ?_⟩
  obtain ⟨msg, isNew, c', hget, hcollects, -⟩ := hfollows.getMessage hdistinct
  have hmsg := hcollects hfewer
  refine ⟨msg, isNew, c', d.message.whole, hget, hmsg.isComplete_iff.mpr harrived,
    hmsg.composeFullData harrived, fun buffer hbuffer => ?_⟩
  obtain ⟨⟨msgs, hmsgs, hpayload⟩, hsize, -⟩ := hu.getPackets hheaders hfew
  have hlength := length_flatten_le hmsgs hsize
  rw [hm] at hmsgs
  rw [← d.message.flatten_eq_of_getMsg hmsgs] at hbuffer
  rw [length_getPackets, ← hbuffer] at hlength
  have hat : IPackStream.At buffer (values.flatMap Value.encode) {} :=
    ⟨Nat.zero_le _, rfl, hbuffer.trans hpayload⟩
  obtain ⟨v, hrun, hv⟩ := hat.extractAll (by unfold maxSize at hlength; omega)
  exact ⟨v, hrun, hv.good⟩

theorem few_of_forall {key : Hash} {log : List (Hash × Bool)}
    (h : ∀ k ∈ log.map Prod.fst, k = key) :
    Few key log := by
  have hsubset : startedSince key log ⊆ [key] := by
    intro k hk
    obtain ⟨e, he, rfl⟩ := mem_map.mp hk
    have hmem := (dropWhile_sublist _).subset (mem_of_mem_filter he)
    exact mem_singleton.mpr (h e.1 (mem_map_of_mem hmem))
  refine (FifoMap.length_others_le key hsubset).trans_lt ?_
  simp [FifoMap.others, maxParallelCollections]

/-- A value in two packets, of which the second comes first, and twice. -/
theorem values_delivered_two : ∃ t, (Start.init ⟨BaseFlags.broadcast, none⟩ unused >>=
    writeAll [.array (replicate 1000 7)]) = .ok t ∧
      ∃ (m : Split) (ds : List Delivery) (d : Delivery), t.getPackets.packets =
        [d.packet, m.fragment 1] ∧ ds.map Delivery.packet = [m.fragment 1, m.fragment 1] ∧
        ∃ log c msg isNew c' full, collect partHash ds new = .ok log c ∧
          getMessage partHash d.packet c = .ok (some (msg, isNew)) c' ∧
          msg.composeFullData = .ok { msg with fullData := some full } ∧
          ∀ buffer : Buffer, buffer.data = full.drop m.headersLength →
            ∃ u, IPackStream.extractAll buffer [.array (replicate 1000 7)] {} =
              .ok [(Value.array (replicate 1000 7)).data] u := by
  obtain ⟨t, hrun, h⟩ := values_delivered partHash unused ⟨BaseFlags.broadcast, none⟩
    [.array (replicate 1000 7)] (by unfold Start.Headed; decide) (by decide) fun v hv => by
      rw [mem_singleton.mp hv]
      exact length_replicate.trans_lt (by decide)
  have hcount : ((Start.init ⟨BaseFlags.broadcast, none⟩ unused >>=
      writeAll [.array (replicate 1000 7)]).toOption.map (·.packets.length)) = some 2 := by
    decide +kernel
  rw [hrun] at hcount
  have hlength : t.packets.length = 2 := Option.some.inj hcount
  obtain ⟨m, hm, hdelivered⟩ := h (by omega) (by omega)
  have htwo : m.count = 2 := by
    rw [← hlength, ← length_getPackets, hm, length_map, length_range]
  let first : Delivery := ⟨m, ⟨0, by omega⟩⟩
  let second : Delivery := ⟨m, ⟨1, by omega⟩⟩
  have hmessage : ∀ d ∈ [second, second] ++ [first], d.message = m := by
    simp [first, second]
  have hdistinct : Delivery.Distinct partHash ([second, second] ++ [first]) :=
    fun x hx y hy _ => (hmessage x hx).trans (hmessage y hy).symm
  obtain ⟨log, c, hcollect, hcomplete⟩ :=
    hdelivered [second, second] first rfl hdistinct fun i hi => by
    obtain rfl | rfl : i = 0 ∨ i = 1 := by omega
    · exact ⟨first, by simp, rfl, rfl⟩
    · exact ⟨second, by simp, rfl, rfl⟩
  obtain ⟨log', c', hcollect', hfollows⟩ := collect_follows hdistinct.of_append
  cases hcollect.symm.trans hcollect'
  obtain ⟨msg, isNew, c', full, hget, -, hfull, hextract⟩ := hcomplete (few_of_forall (by
    rw [hfollows.logged]
    simp [first, second, Delivery.hash]))
  refine ⟨t, hrun, m, [second, second], first, ?_, rfl, log, c, msg, isNew, c', full,
    hcollect, hget, hfull, fun buffer hbuffer => ?_⟩
  · rw [hm, htwo]
    rfl
  · obtain ⟨u, hu, -⟩ := hextract buffer hbuffer
    exact ⟨u, hu⟩

end PacketCollector

end CreditsNode
