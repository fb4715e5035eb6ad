import Mathlib.Data.List.TakeWhile
import CreditsNode.Net.Proofs.MessageProofs

/-!
# Messages are put together again

The collector files a fragment under the hash of its header. A message stays until as many others
have been entered after it as there is room for; until then its places are those of all the
fragments that have come since it was entered.
-/

namespace CreditsNode

open ByteCodec Effect List FifoMap

theorem Delivery.Distinct.of_append {crypto : Crypto} {ds : List Delivery} {d : Delivery}
    (h : Delivery.Distinct crypto (ds ++ [d])) : Delivery.Distinct crypto ds :=
  fun x hx y hy => h x (mem_append_left _ hx) y (mem_append_left _ hy)

namespace PacketCollector

def enter (key : Hash) (msg : Message) (c : PacketCollector) : PacketCollector :=
  assign key msg ⟨c.map.tryStore key none⟩

theorem find_enter_self (key : Hash) (msg : Message) (c : PacketCollector) :
    (c.enter key msg).map.find key = some (some msg) := by
  show ((c.map.tryStore key none).modify key fun _ => some msg).find key = _
  rw [find_modify, if_pos rfl, find_tryStore_self]
  rfl

variable {key : Hash} {m : Split} {arrived : Nat → Prop}

theorem find_enter_of_ne {k : Hash} (hne : k ≠ key) (msg : Message) (c : PacketCollector) :
    (c.enter key msg).map.find k = (c.map.tryStore key none).find k := by
  show ((c.map.tryStore key none).modify key fun _ => some msg).find k = _
  rw [find_modify, if_neg hne]

def Holds (crypto : Crypto) (m : Split) (arrived : Nat → Prop) (c : PacketCollector) : Prop :=
  c.map.find (m.hash crypto) = none ∧ (∀ j, ¬ arrived j) ∨
    ∃ msg, c.map.find (m.hash crypto) = some (some msg) ∧ Message.Collects m arrived msg

variable {c : PacketCollector}

theorem Holds.lookUp {crypto : Crypto} (h : Holds crypto m arrived c) :
    ∃ msg, lookUp ⟨c.map.tryStore (m.hash crypto) none⟩ (m.hash crypto) (UInt16.ofNat m.count)
        = (msg, (c.map.find (m.hash crypto)).isNone) ∧ Message.Collects m arrived msg := by
  unfold PacketCollector.lookUp
  rw [find_tryStore_self]
  rcases h with ⟨hnone, hempty⟩ | ⟨msg, hsome, hcollects⟩
  · rw [hnone]
    have hnothing : arrived = fun _ => False := funext fun j => eq_false (hempty j)
    exact ⟨_, rfl, hnothing ▸ Message.collects_start m _⟩
  · rw [hsome]
    exact ⟨_, rfl, hcollects.resume.symm ▸ hcollects⟩

theorem getMessage_fragment {crypto : Crypto}
    (h : Holds crypto m arrived c) {i : Nat} (hi : i < m.count) :
    ∃ msg, getMessage crypto (m.fragment i) c
        = .ok (some (msg, (c.map.find (m.hash crypto)).isNone)) (c.enter (m.hash crypto) msg) ∧
      Message.Collects m (fun j => arrived j ∨ j = i) msg := by
  obtain ⟨before, hlook, hbefore⟩ := h.lookUp
  obtain ⟨msg, hplace, hmsg⟩ := hbefore.place hi
  refine ⟨msg, ?_, hmsg⟩
  have hrun : getMessage crypto (m.fragment i) c
      = .ok (some (msg, (c.map.find (m.hash crypto)).isNone))
          (assign (m.hash crypto) msg
            (assign (m.hash crypto) before ⟨c.map.tryStore (m.hash crypto) none⟩)) := by
    unfold getMessage
    rw [m.isFragmented_fragment, lift_ok_bind, m.hasValidFragmentation_fragment hi,
      m.getHeaderHash_fragment, m.getFragmentsNum_fragment, m.getFragmentId_fragment]
    show (do
        let found := PacketCollector.lookUp ⟨c.map.tryStore (m.hash crypto) none⟩ (m.hash crypto)
          (UInt16.ofNat m.count)
        modify (assign (m.hash crypto) found.1)
        let msg ← lift (found.1.place (m.fragment i) (UInt16.ofNat i) (UInt16.ofNat m.count))
        modify (assign (m.hash crypto) msg)
        return some (msg, found.2) : CollectorM (Option (Message × Bool)))
      ⟨c.map.tryStore (m.hash crypto) none⟩ = _
    rw [hlook]
    dsimp only
    rw [hplace]
    rfl
  rw [hrun]
  unfold enter assign
  rw [modify_modify]
  rfl

def startedBy (e : Hash × Bool) : List Hash := ([e].filter Prod.snd).map Prod.fst

variable {log : List (Hash × Bool)}

theorem startedSince_append (h : key ∈ log.map Prod.fst)
    (e : Hash × Bool) : startedSince key (log ++ [e]) = startedSince key log ++ startedBy e := by
  grind [startedBy, startedSince, dropWhile_eq_nil_iff, dropWhile_append]

theorem startedSince_of_not_mem (h : key ∉ log.map Prod.fst) : startedSince key log = [] := by
  unfold startedSince
  grind [dropWhile_eq_nil_iff]

theorem Few.of_append {e : Hash × Bool} (hfew : Few key (log ++ [e])) : Few key log := by
  refine Nat.lt_of_le_of_lt (length_others_le key ?_) hfew
  by_cases h : key ∈ log.map Prod.fst
  · rw [startedSince_append h]
    exact subset_append_left _ _
  · rw [startedSince_of_not_mem h]
    exact nil_subset _

theorem keys_enter (key : Hash) (msg : Message) (c : PacketCollector) :
    (c.enter key msg).map.keys = (c.map.tryStore key none).keys :=
  keys_modify _ _ _

theorem recent_enter {k : Hash} {seen : List Hash} (h : c.map.Recent key seen)
    (hfew : (others key (seen ++ startedBy (k, (c.map.find k).isNone))).length
      < maxParallelCollections) (msg : Message) :
    (c.enter k msg).map.Recent key (seen ++ startedBy (k, (c.map.find k).isNone)) := by
  refine FifoMap.Recent.modify ?_ k _
  show (c.map.tryStore k none).Recent key _
  cases hfind : c.map.find k with
  | none =>
    rw [hfind] at hfew
    exact h.tryStore hfind (subset_append_left _ _)
      (mem_append_right _ (mem_singleton_self _)) hfew none
  | some value =>
    rw [tryStore_of_find hfind]
    exact h.mono (subset_append_left _ _)

theorem recent_enter_new (h : c.map.find key = none)
    (msg : Message) (seen : List Hash) : (c.enter key msg).map.Recent key seen :=
  ((recent_tryStore h none).modify key _).mono (nil_subset _)

/-- What the collector has after the packets: of each message that it has some of its fragments, and
all that have come of the messages that few others have been entered after. -/
structure Follows (crypto : Crypto) (ds : List Delivery) (log : List (Hash × Bool))
    (c : PacketCollector) : Prop where
  logged : log.map Prod.fst = ds.map (Delivery.hash crypto)
  stored : c.map.keys = (ds.map (Delivery.hash crypto)).foldl
    (FifoMap.takeIn maxParallelCollections) []
  kept : ∀ key value, c.map.find key = some value → ∃ d ∈ ds, d.hash crypto = key ∧
    ∃ arrived msg, value = some msg ∧ Message.Collects d.message arrived msg
  recent : ∀ d ∈ ds, Few (d.hash crypto) log →
    c.map.Recent (d.hash crypto) (startedSince (d.hash crypto) log)
  collected : ∀ d ∈ ds, Few (d.hash crypto) log →
    ∃ msg, c.map.find (d.hash crypto) = some (some msg) ∧
      Message.Collects d.message (Delivery.Arrived ds d.message) msg

theorem follows_new (crypto : Crypto) : Follows crypto [] [] new where
  logged := rfl
  stored := rfl
  kept _ _ h := nomatch h
  recent _ hd := nomatch hd
  collected _ hd := nomatch hd

variable {crypto : Crypto} {ds : List Delivery} {d : Delivery} {log : List (Hash × Bool)}
  {c : PacketCollector}

theorem Follows.mem_log_iff (h : Follows crypto ds log c) :
    key ∈ log.map Prod.fst ↔ ∃ x ∈ ds, x.hash crypto = key := by
  grind [h.logged]

theorem Follows.holds (h : Follows crypto ds log c)
    (hdistinct : Delivery.Distinct crypto (ds ++ [d])) :
    ∃ arrived, Holds crypto d.message arrived c ∧
      (Few (d.hash crypto) log → arrived = Delivery.Arrived ds d.message) := by
  have hsame : ∀ x ∈ ds, x.hash crypto = d.hash crypto → x.message = d.message := fun x hx =>
    hdistinct x (mem_append_left _ hx) d (mem_append_right _ (mem_singleton_self d))
  cases hfind : c.map.find (d.hash crypto) with
  | none =>
    refine ⟨fun _ => False, .inl ⟨hfind, fun _ h => h⟩, fun hfew => ?_⟩
    funext j
    refine (eq_false ?_).symm
    rintro ⟨x, hx, hmessage, -⟩
    have hhash : x.hash crypto = d.hash crypto := congrArg (Split.hash crypto) hmessage
    have hcollected := h.collected
    grind
  | some value =>
    obtain ⟨x, hx, hhash, arrived, msg, rfl, hmsg⟩ := h.kept _ _ hfind
    by_cases hfew : Few (d.hash crypto) log
    · obtain ⟨msg, hsome, hmsg⟩ := h.collected x hx (hhash ▸ hfew)
      rw [hsame x hx hhash] at hmsg
      rw [hhash] at hsome
      exact ⟨_, .inr ⟨msg, hsome, hmsg⟩, fun _ => rfl⟩
    · rw [hsame x hx hhash] at hmsg
      exact ⟨arrived, .inr ⟨msg, hfind, hmsg⟩, fun h => absurd h hfew⟩

theorem arrived_append_self (ds : List Delivery) (d : Delivery) :
    Delivery.Arrived (ds ++ [d]) d.message
      = fun j => Delivery.Arrived ds d.message j ∨ j = d.id.val := by
  unfold Delivery.Arrived
  grind

theorem arrived_append_of_ne (hne : d.message ≠ m) :
    Delivery.Arrived (ds ++ [d]) m = Delivery.Arrived ds m := by
  unfold Delivery.Arrived
  grind

theorem Follows.kept_enter (h : Follows crypto ds log c) {msg : Message}
    (hmsg : Message.Collects d.message arrived msg) {value : Option Message}
    (hfind : (c.enter (d.hash crypto) msg).map.find key = some value) :
    ∃ x ∈ ds ++ [d], x.hash crypto = key ∧
      ∃ arrived msg, value = some msg ∧ Message.Collects x.message arrived msg := by
  by_cases hkey : key = d.hash crypto
  · grind [find_enter_self]
  · rw [find_enter_of_ne hkey] at hfind
    have hold := mem_entries_of_tryStore (find_eq_some_iff.mp hfind)
    have hkept := h.kept key value
    grind [find_eq_some_iff]

theorem Follows.recent_enter (h : Follows crypto ds log c) (msg : Message) {x : Delivery}
    (hx : x ∈ ds ++ [d])
    (hfew : Few (x.hash crypto) (log ++ [(d.hash crypto, (c.map.find (d.hash crypto)).isNone)])) :
    (c.enter (d.hash crypto) msg).map.Recent (x.hash crypto)
      (startedSince (x.hash crypto)
        (log ++ [(d.hash crypto, (c.map.find (d.hash crypto)).isNone)])) := by
  by_cases hlog : x.hash crypto ∈ log.map Prod.fst
  · obtain ⟨y, hy, hhash⟩ := h.mem_log_iff.mp hlog
    have hrecent := h.recent y hy (hhash ▸ hfew.of_append)
    grind [Few, startedSince_append, PacketCollector.recent_enter]
  · -- the first packet of the message
    have hnew : ∀ y ∈ ds, y.hash crypto ≠ x.hash crypto :=
      fun y hy hhash => hlog (h.mem_log_iff.mpr ⟨y, hy, hhash⟩)
    have hxd : x = d := by
      grind
    subst hxd
    refine recent_enter_new ?_ msg _
    by_contra hfind
    obtain ⟨value, hvalue⟩ := Option.ne_none_iff_exists'.mp hfind
    obtain ⟨y, hy, hhash, -⟩ := h.kept _ _ hvalue
    exact hnew y hy hhash

theorem Follows.collected_enter (h : Follows crypto ds log c)
    (hdistinct : Delivery.Distinct crypto (ds ++ [d])) {msg : Message} {isNew : Bool}
    (hmsg : Few (d.hash crypto) log →
      Message.Collects d.message (Delivery.Arrived (ds ++ [d]) d.message) msg)
    {x : Delivery} (hx : x ∈ ds ++ [d])
    (hfew : Few (x.hash crypto) (log ++ [(d.hash crypto, isNew)]))
    (hmem : x.hash crypto ∈ (c.enter (d.hash crypto) msg).map.keys) :
    ∃ msg', (c.enter (d.hash crypto) msg).map.find (x.hash crypto) = some (some msg') ∧
      Message.Collects x.message (Delivery.Arrived (ds ++ [d]) x.message) msg' := by
  by_cases hhash : x.hash crypto = d.hash crypto
  · have hmessage := hdistinct x hx d (by simp) hhash
    rw [hhash] at hfew ⊢
    rw [hmessage]
    exact ⟨msg, find_enter_self _ _ _, hmsg hfew.of_append⟩
  · have hx' : x ∈ ds := by grind
    have hne : d.message ≠ x.message :=
      fun heq => hhash (congrArg (Split.hash crypto) heq.symm)
    rw [keys_enter] at hmem
    rw [find_enter_of_ne hhash, find_tryStore_of_mem hhash hmem, arrived_append_of_ne hne]
    exact h.collected x hx' hfew.of_append

theorem Follows.getMessage (h : Follows crypto ds log c)
    (hdistinct : Delivery.Distinct crypto (ds ++ [d])) :
    ∃ msg isNew c', PacketCollector.getMessage crypto d.packet c = .ok (some (msg, isNew)) c' ∧
      (Few (d.hash crypto) log →
        Message.Collects d.message (Delivery.Arrived (ds ++ [d]) d.message) msg) ∧
      Follows crypto (ds ++ [d]) (log ++ [(d.hash crypto, isNew)]) c' := by
  obtain ⟨arrived, hholds, harrived⟩ := h.holds hdistinct
  obtain ⟨msg, hget, hmsg⟩ := getMessage_fragment hholds d.id.isLt
  have hcollects : Few (d.hash crypto) log →
      Message.Collects d.message (Delivery.Arrived (ds ++ [d]) d.message) msg := by
    intro hfew
    rw [arrived_append_self, ← harrived hfew]
    exact hmsg
  refine ⟨msg, _, _, hget, hcollects, ?_, ?_, fun key value => h.kept_enter hmsg,
    fun x => h.recent_enter msg, fun x hx hfew => ?_⟩
  · rw [map_append, map_append, h.logged]
    rfl
  · rw [keys_enter, keys_tryStore_eq_takeIn, map_append, foldl_append, h.stored]
    rfl
  · exact h.collected_enter hdistinct hcollects hx hfew (h.recent_enter msg hx hfew).mem

theorem collect_follows {ds : List Delivery} (hdistinct : Delivery.Distinct crypto ds) :
    ∃ log c, collect crypto ds new = .ok log c ∧ Follows crypto ds log c := by
  have hrun : Succeeds (collect crypto ds)
      (fun log c => ds ⊆ ds ∧ Follows crypto ds log c) new := by
    refine .foldlM (I := fun done log c => done ⊆ ds ∧ Follows crypto done log c)
      ⟨nil_subset _, follows_new crypto⟩ ?_
    rintro done d hd log c ⟨hsub, hfollows⟩
    have hsub' : done ++ [d] ⊆ ds :=
      append_subset.mpr ⟨hsub, cons_subset.mpr ⟨hd, nil_subset _⟩⟩
    obtain ⟨msg, isNew, c', hget, -, hnext⟩ :=
      hfollows.getMessage fun x hx y hy => hdistinct x (hsub' hx) y (hsub' hy)
    exact .bind_of_ok hget ⟨hsub', hnext⟩
  obtain ⟨log, c, hok, -, hfollows⟩ := hrun.exists_ok
  exact ⟨log, c, hok, hfollows⟩

/-- A message is put together again, if fewer than `MaxParallelCollections` others are taken for new
ones between its first fragment and its last one: it is complete when every fragment has come, and
not before, and its full data are then the first fragment and the payloads of the others. -/
theorem message_reassembled (crypto : Crypto) (ds : List Delivery) (d : Delivery)
    (hdistinct : Delivery.Distinct crypto (ds ++ [d])) :
    ∃ log c, collect crypto ds new = .ok log c ∧
      (Few (d.hash crypto) log →
        ∃ msg isNew c', getMessage crypto d.packet c = .ok (some (msg, isNew)) c' ∧
          (msg.isComplete = true ↔
            ∀ i < d.message.count, Delivery.Arrived (ds ++ [d]) d.message i) ∧
          (msg.isComplete = true →
            msg.composeFullData = .ok { msg with fullData := some d.message.whole })) := by
  obtain ⟨log, c, hok, hfollows⟩ := collect_follows hdistinct.of_append
  refine ⟨log, c, hok, fun hfew => ?_⟩
  obtain ⟨msg, isNew, c', hget, hcollects, -⟩ := hfollows.getMessage hdistinct
  have hmsg := hcollects hfew
  exact ⟨msg, isNew, c', hget, hmsg.isComplete_iff,
    fun hcomplete => hmsg.composeFullData (hmsg.isComplete_iff.mp hcomplete)⟩

def partHash : Crypto where
  calculateHash data := ⟨data.takeD 32 0, List.takeD_length 32 data 0⟩
  verifySignature _ _ _ := true

def demoFlags : UInt8 := BaseFlags.fragmented ||| BaseFlags.broadcast

def demoBodies : List Bytes := [List.replicate 7 0, List.replicate 7 1]

theorem fragmented_demoFlags : demoFlags &&& BaseFlags.fragmented ≠ 0 := by decide

theorem headed_demoBodies : ∀ body ∈ demoBodies,
    (Packet.headersLength demoFlags).toNat ≤ 3 + fragmentedHeader + body.length := by decide

theorem small_demoBodies :
    (demoBodies.map fun body => 3 + fragmentedHeader + body.length).sum < 2 ^ 32 := by decide

/-- A message of two fragments. -/
def numbered (id : Nat) : Split where
  flags := demoFlags
  header := leBytes 2 2 ++ (leBytes 8 id ++ List.replicate 26 0)
  bodies := demoBodies
  fragmented := fragmented_demoFlags
  length_header := rfl
  count_header := rfl
  nonempty := List.cons_ne_nil _ _
  headed := headed_demoBodies
  small := small_demoBodies

def firstOf (id : Nat) : Delivery := ⟨numbered id, ⟨0, Nat.zero_lt_succ 1⟩⟩

def secondOf (id : Nat) : Delivery := ⟨numbered id, ⟨1, Nat.lt_succ_self 1⟩⟩

theorem message_reassembled_two :
    Delivery.Distinct partHash [secondOf 7, firstOf 7] ∧
      ∃ log c msg isNew c', collect partHash [secondOf 7] new = .ok log c ∧
        getMessage partHash (firstOf 7).packet c = .ok (some (msg, isNew)) c' ∧
        msg.isComplete = true ∧
        msg.composeFullData = .ok { msg with fullData := some (numbered 7).whole } := by
  have hdistinct : Delivery.Distinct partHash ([secondOf 7] ++ [firstOf 7]) := by
    have hof : ∀ x ∈ [secondOf 7, firstOf 7], x.message = numbered 7 := by
      simp [firstOf, secondOf]
    intro x hx y hy _
    rw [hof x hx, hof y hy]
  obtain ⟨log, c, hok, hmessage⟩ := message_reassembled partHash [secondOf 7] (firstOf 7) hdistinct
  have hlog : ∃ c, collect partHash [secondOf 7] new
      = .ok [((firstOf 7).hash partHash, true)] c := ⟨_, rfl⟩
  have hfew : Few ((firstOf 7).hash partHash) log := by
    obtain ⟨c', hlog⟩ := hlog
    rw [hok] at hlog
    rw [(EStateM.Result.ok.inj hlog).1]
    simp [Few, startedSince, others, maxParallelCollections]
  obtain ⟨msg, isNew, c', hget, hcomplete, hfull⟩ := hmessage hfew
  have hall : ∀ i < (firstOf 7).message.count,
      Delivery.Arrived [secondOf 7, firstOf 7] (numbered 7) i := by
    intro i hi
    have hi' : i < 2 := hi
    rcases Nat.le_one_iff_eq_zero_or_eq_one.mp (Nat.le_of_lt_succ hi') with rfl | rfl
    · exact ⟨firstOf 7, by simp, rfl, rfl⟩
    · exact ⟨secondOf 7, by simp, rfl, rfl⟩
  exact ⟨hdistinct, log, c, msg, isNew, c', hok, hget, hcomplete.mpr hall,
    hfull (hcomplete.mpr hall)⟩

/-- Messages that fill the collector, come again after another message, and so drive it out. -/
def drivingOut (ms : List Delivery) (a : Delivery) : List Delivery := ms ++ [a] ++ ms

section DrivenOut

variable {ms : List Delivery} {a : Delivery}
  (hnodup : ((a :: ms).map (Delivery.hash crypto)).Nodup)

include hnodup

theorem distinct_drivingOut (hd : d.message = a.message) :
    Delivery.Distinct crypto (drivingOut ms a ++ [d]) := by
  have hinj := inj_on_of_nodup_map hnodup
  unfold Delivery.Distinct drivingOut
  grind [Delivery.hash]

theorem firstSeenSince_drivingOut :
    firstSeenSince (a.hash crypto) ((drivingOut ms a).map (Delivery.hash crypto)) =
      [a.hash crypto] := by
  unfold firstSeenSince drivingOut
  simp_all

theorem stored_drivingOut (hlen : ms.length = maxParallelCollections) :
    ((drivingOut ms a).map (Delivery.hash crypto)).foldl (takeIn maxParallelCollections) []
      = ms.map (Delivery.hash crypto) := by
  rw [map_cons, nodup_cons] at hnodup
  obtain ⟨ha, hms⟩ := hnodup
  have hfull : (ms.map (Delivery.hash crypto)).length = maxParallelCollections := by
    rw [length_map, hlen]
  have hne : ms.map (Delivery.hash crypto) ≠ [] := ne_nil_of_length_pos (hfull ▸ Fact.out)
  have hturn := foldl_takeIn_rotate (a.hash crypto) (ms.map (Delivery.hash crypto)) [] hne
    (nodup_append_comm.mp (nodup_cons.mpr ⟨ha, hms⟩)) (by rw [append_nil, hfull])
  grind [drivingOut, foldl_takeIn_of_nodup, takeIn]

theorem not_complete_drivingOut (hlen : ms.length = maxParallelCollections)
    (hd : d.message = a.message) {i : Nat} (hi : i < d.message.count) (hne : i ≠ d.id.val) :
    ∃ log c msg c', collect crypto (drivingOut ms a) new = .ok log c ∧
      getMessage crypto d.packet c = .ok (some (msg, true)) c' ∧ msg.isComplete = false := by
  have hdistinct := distinct_drivingOut hnodup hd
  obtain ⟨log, c, hok, hfollows⟩ := collect_follows hdistinct.of_append
  have hhash : d.hash crypto = a.hash crypto := congrArg (Split.hash crypto) hd
  have hnone : c.map.find (d.hash crypto) = none := by
    rw [find_eq_none_iff, hfollows.stored, stored_drivingOut hnodup hlen, hhash]
    exact (nodup_cons.mp hnodup).1
  have hholds : Holds crypto d.message (fun _ => False) c := .inl ⟨hnone, fun _ h => h⟩
  obtain ⟨msg, hget, hmsg⟩ := getMessage_fragment hholds d.id.isLt
  have hincomplete : msg.isComplete = false := by
    grind [hmsg.isComplete_iff]
  rw [show d.message.hash crypto = d.hash crypto from rfl, hnone] at hget
  exact ⟨log, c, msg, _, hok, hget, hincomplete⟩

end DrivenOut

theorem hash_firstOf_inj {id id' : Nat} (hid : id < 2 ^ 64) (hid' : id' < 2 ^ 64)
    (h : (firstOf id).hash partHash = (firstOf id').hash partHash) : id = id' := by
  have hbytes : leBytes 8 id = leBytes 8 id' :=
    congrArg (fun v : Hash => (v.toList.drop 2).take 8) h
  have hnat := congrArg leNat hbytes
  rw [leNat_leBytes, leNat_leBytes] at hnat
  omega

def fillers : List Delivery := (List.range maxParallelCollections).map firstOf

theorem nodup_fillers :
    ((firstOf maxParallelCollections :: fillers).map (Delivery.hash partHash)).Nodup := by
  unfold fillers
  rw [← map_cons, map_map]
  refine List.Nodup.map_on (fun id hid id' hid' h => hash_firstOf_inj ?_ ?_ h) ?_
  all_goals grind [maxParallelCollections, nodup_range]

/-- No other message is first seen between the two fragments of a message, but it is not put
together: messages that had been seen before it come again, and drive it out. -/
theorem message_not_reassembled :
    ∃ (crypto : Crypto) (ds : List Delivery) (d : Delivery),
      Delivery.Distinct crypto (ds ++ [d]) ∧
      (FifoMap.others (d.hash crypto)
        (firstSeenSince (d.hash crypto) (ds.map (Delivery.hash crypto)))).length = 0 ∧
      (∀ i < d.message.count, Delivery.Arrived (ds ++ [d]) d.message i) ∧
      ∃ log c msg isNew c', collect crypto ds new = .ok log c ∧
        getMessage crypto d.packet c = .ok (some (msg, isNew)) c' ∧ msg.isComplete = false := by
  have hlen : fillers.length = maxParallelCollections := by
    unfold fillers
    rw [length_map, length_range]
  refine ⟨partHash, drivingOut fillers (firstOf maxParallelCollections),
    secondOf maxParallelCollections, distinct_drivingOut nodup_fillers rfl, ?_, ?_, ?_⟩
  · show (others ((firstOf maxParallelCollections).hash partHash)
      (firstSeenSince ((firstOf maxParallelCollections).hash partHash) _)).length = 0
    rw [firstSeenSince_drivingOut nodup_fillers]
    simp [others]
  · intro i hi
    have hi' : i < 2 := hi
    rcases Nat.le_one_iff_eq_zero_or_eq_one.mp (Nat.le_of_lt_succ hi') with rfl | rfl
    · exact ⟨firstOf maxParallelCollections, by simp [drivingOut], rfl, rfl⟩
    · exact ⟨_, mem_append_right _ (mem_singleton_self _), rfl, rfl⟩
  · obtain ⟨log, c, msg, c', hok, hget, hincomplete⟩ :=
      not_complete_drivingOut (d := secondOf maxParallelCollections) (i := 0) nodup_fillers hlen rfl
        (Nat.zero_lt_succ 1) Nat.zero_ne_one
    exact ⟨log, c, msg, true, c', hok, hget, hincomplete⟩

end PacketCollector

end CreditsNode
