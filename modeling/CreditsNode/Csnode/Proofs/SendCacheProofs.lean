import CreditsNode.Csnode.ConveyerBase
import CreditsNode.Csdb.Proofs.SampleData

/-!
# The packets that are sent again

The send cache has one entry for a packet, and the entry counts how often the packet has been sent
again. A packet that has been sent as often as permitted loses its entry, and so does one that is
not in the table of packets any more.
-/

namespace CreditsNode.ConveyerBase

open ByteCodec EventSystem List

def sendHashes (c : ConveyerBase) : List (Option Hash) :=
  c.sendPacketsCache.entries.map fun pair => pair.2.hash

variable {c : ConveyerBase} {env : ConveyerEnv}

theorem isHashAtSendCache_iff {hash : Option Hash} :
    c.isHashAtSendCache hash = true ↔ hash ∈ c.sendHashes := by
  unfold isHashAtSendCache sendHashes
  rw [any_eq_true, mem_map]
  simp only [decide_eq_true_eq]

theorem sendPacketsCache_addPacketToMeta (c : ConveyerBase) (round : Sequence)
    (packet : TransactionsPacket) : (c.addPacketToMeta round packet).sendPacketsCache
      = if c.isHashAtSendCache packet.hash then c.sendPacketsCache
        else c.sendPacketsCache.emplace round ⟨packet.hash, 0⟩ := by
  unfold addPacketToMeta addTransactionsPacket
  dsimp only
  split_ifs <;> rfl

theorem mem_foldl_erase {hashes : List (Option Hash)} {table : TransactionsPacketTable}
    {hash : Option Hash} : hash ∈ hashes.foldl (fun table hash => table.erase hash) table ↔
      hash ∈ table ∧ hash ∉ hashes := by
  induction hashes generalizing table with
  | nil => simp
  | cons h hashes ih =>
    grind [AList.mem_erase]

theorem sendLoop_spec (crypto : Crypto) (elements : List SendCacheData)
    (table : TransactionsPacketTable) :
    (∀ hash, hash ∈ (sendLoop crypto elements table).1 ↔ hash ∈ table) ∧
    (∀ hash, hash ∈ (sendLoop crypto elements table).2.2 ↔
      (∃ element ∈ elements, element.hash = hash) ∧ hash ∉ table) ∧
    (sendLoop crypto elements table).2.1.map Prod.fst
      = (elements.filter fun element => (table.lookup element.hash).isSome).map
        SendCacheData.hash := by
  induction elements generalizing table with
  | nil => exact ⟨fun _ => Iff.rfl, fun _ => by simp [sendLoop], rfl⟩
  | cons element elements ih =>
    unfold sendLoop
    cases hlookup : table.lookup element.hash with
    | some packet =>
      have hmem : element.hash ∈ table := AList.lookup_isSome.mp (by rw [hlookup]; rfl)
      obtain ⟨htable, hnotFound, hflushed⟩ :=
        ih (table.replace element.hash (packet.makeHash crypto).1)
      dsimp only
      refine ⟨fun hash => (htable hash).trans AList.mem_replace, fun hash => ?_, ?_⟩
      · rw [hnotFound hash, AList.mem_replace]
        constructor
        · rintro ⟨⟨x, hx, hhash⟩, hnot⟩
          exact ⟨⟨x, mem_cons_of_mem _ hx, hhash⟩, hnot⟩
        · rintro ⟨⟨x, hx, rfl⟩, hnot⟩
          rcases mem_cons.mp hx with rfl | hx
          · exact absurd hmem hnot
          · exact ⟨⟨x, hx, rfl⟩, hnot⟩
      · have hsame : ∀ x : SendCacheData,
            ((table.replace element.hash (packet.makeHash crypto).1).lookup x.hash).isSome
              = (table.lookup x.hash).isSome := by
          intro x
          rw [Bool.eq_iff_iff, AList.lookup_isSome, AList.lookup_isSome, AList.mem_replace]
        rw [map_cons, hflushed, filter_cons_of_pos (by rw [hlookup]; rfl)]
        simp only [hsame, map_cons]
    | none =>
      obtain ⟨htable, hnotFound, hflushed⟩ := ih table
      have hnot : element.hash ∉ table := AList.lookup_eq_none.mp hlookup
      dsimp only
      refine ⟨htable, fun hash => ?_, ?_⟩
      · rw [mem_cons, hnotFound hash]
        constructor
        · rintro (rfl | ⟨⟨x, hx, hhash⟩, hmissing⟩)
          · exact ⟨⟨element, mem_cons_self, rfl⟩, hnot⟩
          · exact ⟨⟨x, mem_cons_of_mem _ hx, hhash⟩, hmissing⟩
        · rintro ⟨⟨x, hx, rfl⟩, hmissing⟩
          rcases mem_cons.mp hx with rfl | hx
          · exact .inl rfl
          · exact .inr ⟨⟨x, hx, rfl⟩, hmissing⟩
      · rw [hflushed, filter_cons_of_neg (by rw [hlookup]; decide)]

/-- What `checkSendCache` does: some of the entries are sent again, and of the others those that are
due are dropped. -/
structure Checked (env : ConveyerEnv) (c t : ConveyerBase) (flushed : List (Option Hash)) :
    Prop where
  currentRound : t.currentRound = c.currentRound
  metaStorage : t.metaStorage = c.metaStorage
  table : ∀ hash, hash ∈ t.packetsTable ↔ hash ∈ c.packetsTable ∧ hash ∉ c.hashesToRemove env
  entries : ∃ (expired kept : List (Sequence × SendCacheData)) (resent : List SendCacheData),
    c.sendPacketsCache.entries = expired ++ kept ∧ resent.Sublist (expired.map Prod.snd) ∧
    t.sendPacketsCache.entries.Perm
      (resent.map (fun data => (c.currentRound, { data with count := data.count + 1 })) ++ kept) ∧
    flushed = resent.map SendCacheData.hash ∧
    ∀ data ∈ resent, data.hash ∈ c.packetsTable ∧ data.hash ∉ c.hashesToRemove env ∧
      (0 < env.maxResends → data.count < env.maxResends)

theorem upTo_of_due (h : c.due env ≠ []) :
    c.due env = c.sendPacketsCache.upTo (c.currentRound - env.sendCacheValue) := by
  unfold due at h ⊢
  split_ifs at h ⊢
  · exact absurd rfl h
  · rfl

theorem checked_checkSendCache (env : ConveyerEnv) (c : ConveyerBase) :
    Checked env c (c.checkSendCache env).1 ((c.checkSendCache env).2.map Prod.fst) := by
  unfold checkSendCache
  dsimp only
  split_ifs with hnone
  · obtain ⟨-, hremove⟩ := Bool.and_eq_true_iff.mp hnone
    rw [List.isEmpty_iff] at hremove
    refine ⟨rfl, rfl, fun hash => ?_, [], c.sendPacketsCache.entries, [], rfl, List.Sublist.refl _,
      List.Perm.refl _, rfl, nofun⟩
    rw [hremove]
    simp
  · have hdue : c.due env = c.sendPacketsCache.upTo (c.currentRound - env.sendCacheValue) := by
      grind [upTo_of_due, hashesToSend, hashesToRemove]
    set left := (c.hashesToRemove env).foldl (fun table hash => table.erase hash) c.packetsTable
    obtain ⟨htable, hnotFound, hflushed⟩ := sendLoop_spec env.crypto (c.hashesToSend env) left
    have hfound : ∀ element ∈ c.hashesToSend env, (!(sendLoop env.crypto (c.hashesToSend env)
        left).2.2.contains element.hash) = (left.lookup element.hash).isSome := by
      intro element helement
      rw [Bool.eq_iff_iff, Bool.not_eq_true', ← Bool.not_eq_true, List.contains_iff_mem, hnotFound,
        AList.lookup_isSome, not_and, not_not]
      exact ⟨fun h => h ⟨element, helement, rfl⟩, fun h _ => h⟩
    rw [List.filter_congr hfound]
    refine ⟨rfl, rfl, fun hash => (htable hash).trans mem_foldl_erase, c.due env,
      (c.sendPacketsCache.eraseUpTo (c.currentRound - env.sendCacheValue)).entries, _, ?_, ?_, ?_,
      hflushed, ?_⟩
    · rw [hdue, MultiMap.upTo_append_eraseUpTo]
    · exact List.filter_sublist.trans (List.Sublist.map _ List.filter_sublist)
    · refine (MultiMap.foldl_emplace_perm _ _ _).trans ?_
      rw [List.map_map]
      exact List.Perm.refl _
    · intro data hdata
      obtain ⟨hsend, hsome⟩ := List.mem_filter.mp hdata
      obtain ⟨hmem, hnot⟩ := mem_foldl_erase.mp (AList.lookup_isSome.mp hsome)
      refine ⟨hmem, hnot, fun hmax => ?_⟩
      obtain ⟨pair, hpair, rfl⟩ := List.mem_map.mp hsend
      grind [mayResend]

theorem resends_append_created (hash hash' : Option Hash) (events : List SendEvent) :
    resends hash (events ++ [.created hash']) = if hash' =
      hash then 0 else resends hash events := by
  unfold resends
  rw [foldl_append]
  rfl

theorem resends_append_resent (hash : Option Hash) (events : List SendEvent)
    (flushed : List (Option Hash)) :
    resends hash (events ++ flushed.map .resent) = resends hash events + flushed.count hash := by
  induction flushed generalizing events with
  | nil => rw [map_nil, append_nil, count_nil, Nat.add_zero]
  | cons first flushed ih =>
    have hone : resends hash (events ++ [.resent first])
        = if first = hash then resends hash events + 1 else resends hash events := by
      unfold resends
      rw [foldl_append]
      rfl
    grind

/-- There is one entry for a packet, which counts how often it has been sent again. -/
structure Counted (env : ConveyerEnv) (events : List SendEvent) (c : ConveyerBase) : Prop where
  nodup : c.sendHashes.Nodup
  count : ∀ pair ∈ c.sendPacketsCache.entries, pair.2.count = resends pair.2.hash events
  bounded : ∀ hash, resends hash events ≤ env.maxResends

namespace Counted

variable {env : ConveyerEnv} {events : List SendEvent} {c t : ConveyerBase}

theorem of_sublist (h : Counted env events c)
    (hsub : t.sendPacketsCache.entries.Sublist c.sendPacketsCache.entries) : Counted env events t :=
  ⟨h.nodup.sublist (hsub.map _), fun pair hpair => h.count pair (hsub.subset hpair), h.bounded⟩

theorem addPacketToMeta (h : Counted env events c) (round : Sequence)
    (packet : TransactionsPacket) :
    Counted env (events ++ if c.isHashAtSendCache packet.hash then [] else [.created packet.hash])
      (c.addPacketToMeta round packet) := by
  have hcache := sendPacketsCache_addPacketToMeta c round packet
  by_cases hthere : c.isHashAtSendCache packet.hash = true
  · rw [if_pos hthere] at hcache ⊢
    rw [append_nil]
    refine h.of_sublist ?_
    rw [hcache]
  · rw [if_neg hthere] at hcache ⊢
    have hperm := c.sendPacketsCache.emplace_perm round ⟨packet.hash, 0⟩
    rw [← hcache] at hperm
    have hfresh : packet.hash ∉ c.sendHashes := fun hmem => hthere (isHashAtSendCache_iff.mpr hmem)
    refine ⟨?_, fun pair hpair => ?_, fun hash => ?_⟩
    · refine ((hperm.map fun pair => pair.2.hash).nodup_iff).mpr ?_
      exact nodup_cons.mpr ⟨hfresh, h.nodup⟩
    · rw [resends_append_created]
      rcases mem_cons.mp (hperm.mem_iff.mp hpair) with rfl | hold
      · rw [if_pos rfl]
      · have hne : packet.hash ≠ pair.2.hash := fun heq =>
          hfresh (heq ▸ mem_map_of_mem hold)
        rw [if_neg hne]
        exact h.count pair hold
    · rw [resends_append_created]
      split_ifs
      · exact Nat.zero_le _
      · exact h.bounded hash

theorem checkSendCache (hmax : 0 < env.maxResends) (h : Counted env events c)
    {flushed : List (Option Hash)} (hchecked : Checked env c t flushed) :
    Counted env (events ++ flushed.map .resent) t := by
  obtain ⟨expired, kept, resent, hentries, hsub, hperm, rfl, hresent⟩ := hchecked.entries
  have hhashes : c.sendHashes = expired.map (fun pair => pair.2.hash) ++
      kept.map fun pair => pair.2.hash := by
    unfold sendHashes
    rw [hentries, map_append]
  have hnodup := h.nodup
  rw [hhashes] at hnodup
  obtain ⟨hexpired, hkept, hdisjoint⟩ := nodup_append.mp hnodup
  have hresentSub : (resent.map SendCacheData.hash).Sublist
      (expired.map fun pair => pair.2.hash) := by
    have := hsub.map SendCacheData.hash
    rwa [map_map] at this
  have hresentNodup := hexpired.sublist hresentSub
  -- the entries of the packets that are sent again
  have hold : ∀ data ∈ resent, data.count = resends data.hash events := by
    intro data hdata
    obtain ⟨pair, hpair, rfl⟩ := mem_map.mp (hsub.subset hdata)
    exact h.count pair (hentries ▸ mem_append_left _ hpair)
  have hcount : ∀ hash, resends hash (events ++ (resent.map SendCacheData.hash).map .resent)
      = resends hash events + if hash ∈ resent.map SendCacheData.hash then 1 else 0 := by
    grind [resends_append_resent]
  refine ⟨?_, fun pair hpair => ?_, fun hash => ?_⟩
  · refine ((hperm.map fun pair => pair.2.hash).nodup_iff).mpr ?_
    rw [map_append, map_map]
    refine nodup_append.mpr ⟨hresentNodup, hkept, fun a ha b hb => ?_⟩
    exact hdisjoint a (hresentSub.subset ha) b hb
  · rw [hcount]
    rcases mem_append.mp (hperm.mem_iff.mp hpair) with hnew | hkeep
    · obtain ⟨data, hdata, rfl⟩ := mem_map.mp hnew
      rw [if_pos (mem_map_of_mem hdata)]
      exact congrArg (· + 1) (hold data hdata)
    · have hnot : pair.2.hash ∉ resent.map SendCacheData.hash := fun hmem =>
        hdisjoint _ (hresentSub.subset hmem) _ (mem_map_of_mem hkeep) rfl
      rw [if_neg hnot]
      exact h.count pair (hentries ▸ mem_append_right _ hkeep)
  · rw [hcount]
    split_ifs with hmem
    · obtain ⟨data, hdata, rfl⟩ := mem_map.mp hmem
      rw [← hold data hdata]
      exact (hresent data hdata).2.2 hmax
    · exact h.bounded hash

end Counted

theorem Counted.sendStep {events shown : List SendEvent} {t : ConveyerBase}
    {op : SendOperation} (hmax : 0 < env.maxResends) (h : Counted env events c)
    (hstep : sendStep env op c = some (shown, t)) : Counted env (events ++ shown) t := by
  cases op with
  | addPacketToMeta round packet =>
    cases hstep
    exact h.addPacketToMeta round packet
  | checkSendCache =>
    cases hstep
    have hcounted := h.checkSendCache hmax (checked_checkSendCache env c)
    rw [map_map] at hcounted
    exact hcounted
  | removeHashFromSendCache hash =>
    cases hstep
    rw [append_nil]
    exact h.of_sublist eraseP_sublist
  | changeRound round =>
    cases hstep
    rw [append_nil]
    exact h.of_sublist (List.Sublist.refl _)
  | changeTables packetsTable metaStorage =>
    cases hstep
    rw [append_nil]
    exact h.of_sublist (List.Sublist.refl _)

/-- If an entry gets a later round, its packet is in the table of packets, before and after. -/
def RekeysPresent (env : ConveyerEnv) (op : SendOperation) (c : ConveyerBase) : Prop :=
  ∀ result ∈ sendStep env op c, ∀ pair ∈ c.sendPacketsCache.entries,
    ∀ pair' ∈ result.2.sendPacketsCache.entries, pair'.2.hash = pair.2.hash → pair.1 < pair'.1 →
    pair.2.hash ∈ c.packetsTable ∧ pair.2.hash ∈ result.2.packetsTable

theorem Counted.rekeysPresent {events : List SendEvent}
    (h : Counted env events c) (op : SendOperation) : RekeysPresent env op c := by
  -- an entry that stays keeps its round
  have hstays : ∀ pair ∈ c.sendPacketsCache.entries, ∀ pair' ∈ c.sendPacketsCache.entries,
      pair'.2.hash = pair.2.hash → ¬ pair.1 < pair'.1 := by
    intro pair hpair pair' hpair' heq hlt
    rw [inj_on_of_nodup_map h.nodup hpair' hpair heq] at hlt
    exact UInt64.lt_irrefl _ hlt
  rintro ⟨shown, t⟩ hstep pair hpair pair' hpair' heq hlt
  cases op with
  | addPacketToMeta round packet =>
    cases hstep
    have hcache : pair' ∈ c.sendPacketsCache.entries ∨
        (packet.hash ∉ c.sendHashes ∧ pair' = (round, ⟨packet.hash, 0⟩)) := by
      rw [sendPacketsCache_addPacketToMeta] at hpair'
      split_ifs at hpair' with hthere
      · exact .inl hpair'
      · rcases mem_cons.mp ((MultiMap.emplace_perm _ _ _).mem_iff.mp hpair') with hnew | hold
        · exact .inr ⟨fun hin => hthere (isHashAtSendCache_iff.mpr hin), hnew⟩
        · exact .inl hold
    rcases hcache with hold | ⟨hfresh, rfl⟩
    · exact absurd hlt (hstays pair hpair pair' hold heq)
    · have heq : packet.hash = pair.2.hash := heq
      rw [heq] at hfresh
      exact absurd (mem_map_of_mem hpair) hfresh
  | checkSendCache =>
    cases hstep
    have hchecked := checked_checkSendCache env c
    obtain ⟨expired, kept, resent, hentries, hsub, hperm, -, hresent⟩ := hchecked.entries
    rcases mem_append.mp (hperm.mem_iff.mp hpair') with hnew | hkeep
    · obtain ⟨data, hdata, rfl⟩ := mem_map.mp hnew
      have htable := hchecked.table
      grind
    · exact absurd hlt (hstays pair hpair pair' (hentries ▸ mem_append_right _ hkeep) heq)
  | removeHashFromSendCache hash =>
    cases hstep
    exact absurd hlt (hstays pair hpair pair' (eraseP_sublist.subset hpair') heq)
  | changeRound round =>
    cases hstep
    exact absurd hlt (hstays pair hpair pair' hpair' heq)
  | changeTables packetsTable metaStorage =>
    cases hstep
    exact absurd hlt (hstays pair hpair pair' hpair' heq)

/-- Over every run from an empty send cache there is one entry for a packet, no packet is sent again
more often than permitted, and an entry gets a later round only while its packet is in the table. -/
theorem sendCache_bounded {env : ConveyerEnv} (hmax : 0 < env.maxResends) {start c : ConveyerBase}
    (hstart : start.sendPacketsCache.entries = []) {ops : List SendOperation}
    {events : List SendEvent} (hrun : run (sendStep env) ops start = some (events, c)) :
    c.sendHashes.Nodup ∧ (∀ hash, resends hash events ≤ env.maxResends) ∧
      Along (sendStep env) (RekeysPresent env) ops start := by
  have hbegin : Counted env [] start := by
    refine ⟨?_, fun pair hpair => ?_, fun hash => Nat.zero_le _⟩
    · unfold sendHashes
      rw [hstart]
      exact nodup_nil
    · rw [hstart] at hpair
      cases hpair
  have htrue : Along (sendStep env) (fun _ _ => True) ops start :=
    along_of_forall (fun _ _ => trivial) start
  have hend := run_invariant (fun _ _ _ _ _ h _ hstep => h.sendStep hmax hstep) hbegin hrun htrue
  refine ⟨hend.nodup, hend.bounded, ?_⟩
  refine (along_congr (I := fun c => ∃ events, Counted env events c) (fun op s hs => ?_)
    (fun op s hs _ first hfirst => ?_) ops start ⟨[], hbegin⟩).mpr htrue
  · obtain ⟨events, hcounted⟩ := hs
    exact iff_true_intro (hcounted.rekeysPresent op)
  · obtain ⟨events, hcounted⟩ := hs
    exact ⟨events ++ first.1, hcounted.sendStep hmax hfirst⟩

section Sample

/-- A packet may be sent again once, in the next round. -/
def sampleSendEnv : ConveyerEnv where
  crypto := .zero
  privateKey := none
  sendCacheValue := 1
  maxResends := 1

def samplePacket (n : UInt8) : TransactionsPacket :=
  { TransactionsPacket.new with hash := some (sampleHash n) }

def sampleSending : List SendOperation :=
  [.addPacketToMeta 1 (samplePacket 1), .changeRound 2, .checkSendCache, .changeRound 3,
    .checkSendCache]

theorem sendCache_bounded_sample : ∃ events c,
    run (sendStep sampleSendEnv) sampleSending .new = some (events, c) ∧
    events = [.created (samplePacket 1).hash, .resent (samplePacket 1).hash] ∧
    c.sendPacketsCache.entries = [] ∧ ∀ hash, resends hash events ≤ 1 := by
  have hrun : run (sendStep sampleSendEnv) sampleSending .new = some (_, _) := rfl
  exact ⟨_, _, hrun, rfl, rfl, (sendCache_bounded Nat.one_pos rfl hrun).2.1⟩

end Sample

end CreditsNode.ConveyerBase
