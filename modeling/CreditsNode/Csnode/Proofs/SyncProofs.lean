import CreditsNode.Csnode.Proofs.SendCacheProofs
import CreditsNode.Csnode.Proofs.ConveyerProofs

/-!
# Rounds that are synchronised

The hashes that a round lists are needed or in the table of packets, as long as nobody removes them
from that table: neither the send cache, which gives up packets, nor another round that lists the
same packet. And a packet that is found late goes to the table of its round, where `createPacket`
does not look.
-/

namespace CreditsNode.ConveyerBase

open ByteCodec Effect EventSystem List

def Lists (c : ConveyerBase) (round : Sequence) (hash : Option Hash) : Prop :=
  ∃ element, (round, element) ∈ c.metaStorage ∧ hash ∈ element.hashes

def Synced (c : ConveyerBase) (round : Sequence) : Prop :=
  ∀ element, (round, element) ∈ c.metaStorage → ∀ hash ∈ element.hashes,
    hash ∈ element.neededHashes ∨ hash ∈ c.packetsTable

def Undisturbed (env : ConveyerEnv) (round : Sequence) (op : Operation) (c : ConveyerBase) : Prop :=
  match op with
  | .checkSendCache => ∀ hash ∈ c.hashesToRemove env, ¬ c.Lists round hash
  | .flushTransactions => ∀ hash ∈ (c.flushQueue env).hashesToRemove env, ¬ c.Lists round hash
  | .applyCharacteristic metaPoolInfo =>
    ∀ element, c.getMeta metaPoolInfo.sequenceNumber = some element →
      ∀ hash ∈ element.hashes, ¬ c.Lists round hash
  | .addFoundPacket found _ => found = round → c.currentRound = round
  | _ => True

/-- What is known of the round is as before, and its packets are still there. -/
structure KeepsRound (round : Sequence) (c t : ConveyerBase) : Prop where
  metas : ∀ element, (round, element) ∈ t.metaStorage → ∃ old, (round, old) ∈ c.metaStorage ∧
    element.hashes = old.hashes ∧ element.neededHashes = old.neededHashes
  packets : ∀ hash, t.Lists round hash → hash ∈ c.packetsTable → hash ∈ t.packetsTable

namespace KeepsRound

variable {round : Sequence} {c t u : ConveyerBase}

theorem lists (h : KeepsRound round c t) {hash : Option Hash} (hlists : t.Lists round hash) :
    c.Lists round hash := by
  obtain ⟨element, helement, hhash⟩ := hlists
  obtain ⟨old, hold, hhashes, -⟩ := h.metas element helement
  exact ⟨old, hold, hhashes ▸ hhash⟩

theorem trans (h : KeepsRound round c t) (h' : KeepsRound round t u) : KeepsRound round c u where
  metas element helement := by
    have hmetas := h'.metas
    have hmetas' := h.metas
    grind
  packets hash hlists hmem := h'.packets hash hlists (h.packets hash (h'.lists hlists) hmem)

theorem of_subset
    (hmetas : ∀ element, (round, element) ∈ t.metaStorage → (round, element) ∈ c.metaStorage)
    (hpackets : ∀ hash, hash ∈ c.packetsTable → hash ∈ t.packetsTable) : KeepsRound round c t where
  metas element helement := ⟨element, hmetas element helement, rfl, rfl⟩
  packets hash _ := hpackets hash

theorem refl (round : Sequence) (c : ConveyerBase) : KeepsRound round c c :=
  of_subset (fun _ => id) fun _ => id

theorem synced (h : KeepsRound round c t) (hsynced : c.Synced round) : t.Synced round := by
  intro element helement hash hhash
  obtain ⟨old, hold, hhashes, hneeded⟩ := h.metas element helement
  rcases hsynced old hold hash (hhashes ▸ hhash) with hneed | hmem
  · exact .inl (hneeded ▸ hneed)
  · exact .inr (h.packets hash ⟨element, helement, hhash⟩ hmem)

end KeepsRound

section Steps

variable {round : Sequence}

theorem keepsRound_addTransactionsPacket (c : ConveyerBase) (packet : TransactionsPacket) :
    KeepsRound round c (c.addTransactionsPacket packet) := by
  unfold addTransactionsPacket
  split_ifs
  · exact .refl round c
  · exact .of_subset (fun _ => id) fun _ hmem => (AList.mem_insert _).mpr (.inr hmem)

theorem keepsRound_addPacketToMeta (c : ConveyerBase) (round' : Sequence)
    (packet : TransactionsPacket) :
    KeepsRound round c (c.addPacketToMeta round' packet) := by
  unfold addPacketToMeta
  dsimp only
  have hcache : ∀ cache, KeepsRound round c { c with sendPacketsCache := cache } := fun cache =>
    .of_subset (fun _ => id) fun _ => id
  have hfirst : KeepsRound round c (if c.isHashAtSendCache packet.hash then c
      else { c with sendPacketsCache := c.sendPacketsCache.emplace round' ⟨packet.hash, 0⟩ }) := by
    split_ifs
    · exact .refl round c
    · exact hcache _
  exact hfirst.trans (keepsRound_addTransactionsPacket _ packet)

theorem keepsRound_flushLoop (env : ConveyerEnv) (round' : Sequence)
    (packets : List TransactionsPacket)
    (c : ConveyerBase) : KeepsRound round c (flushLoop env round' packets c).1 := by
  induction packets generalizing c with
  | nil => exact .refl round c
  | cons packet packets ih =>
    unfold flushLoop
    split_ifs with hempty
    · dsimp only
      generalize (if (packet.makeHash env.crypto).1.signatures.isEmpty then
        (packet.makeHash env.crypto).1.sign env.privateKey
        else ((packet.makeHash env.crypto).1, true)) = signed
      split_ifs with hsigned
      · exact .refl round c
      · exact (keepsRound_addPacketToMeta c round' signed.1).trans (ih _)
    · exact ih c

theorem keepsRound_flushQueue (env : ConveyerEnv) (c : ConveyerBase) :
    KeepsRound round c (c.flushQueue env) := by
  have hqueue : ∀ packetQueue, KeepsRound round c { c with packetQueue } := fun packetQueue =>
    .of_subset (fun _ => id) fun _ => id
  exact (hqueue _).trans (keepsRound_flushLoop env _ _ _)

theorem keepsRound_checkSendCache {env : ConveyerEnv} {c : ConveyerBase}
    (h : ∀ hash ∈ c.hashesToRemove env, ¬ c.Lists round hash) :
    KeepsRound round c (c.checkSendCache env).1 := by
  have hchecked := checked_checkSendCache env c
  have hmetas : ∀ element, (round, element) ∈ (c.checkSendCache env).1.metaStorage →
      (round, element) ∈ c.metaStorage := fun element helement => hchecked.metaStorage ▸ helement
  refine ⟨fun element helement => ⟨element, hmetas element helement, rfl, rfl⟩, ?_⟩
  rintro hash ⟨element, helement, hhash⟩ hmem
  exact (hchecked.table hash).mpr ⟨hmem, fun hremoved =>
    h hash hremoved ⟨element, hmetas element helement, hhash⟩⟩

theorem keepsRound_extractFrom {low : Sequence} {fuel : Nat} : ∀ {cachedRound : Sequence}
    {c t : ConveyerBase}, extractFrom low fuel cachedRound c = some t → KeepsRound round c t := by
  induction fuel with
  | zero =>
    intro cachedRound c t h
    exact absurd h (Option.some_ne_none t).symm
  | succ fuel ih =>
    intro cachedRound c t h
    unfold extractFrom at h
    split_ifs at h
    · have hfirst : KeepsRound round c (c.extractMeta cachedRound) :=
        .of_subset (fun _ helement => eraseP_subset helement) fun _ => id
      exact hfirst.trans (ih h)
    · cases h
      exact .refl round c

end Steps

variable {c t : ConveyerBase} {round uninitialised : Sequence} {packet : TransactionsPacket}

theorem Synced.setTable (h : c.Synced round) (table : RoundTable) :
    (c.setTable table).Synced round := by
  unfold ConveyerBase.setTable
  by_cases hold : table.round < c.currentRound
  · rw [if_pos hold]
    exact h
  · unfold appendMeta
    split_ifs
    · exact h
    · intro element helement hash hhash
      rcases mem_append.mp (mem_of_mem_drop helement) with hmem | hnew
      · exact h element hmem hash hhash
      · -- what the table of packets does not have is needed
        obtain ⟨-, rfl⟩ := Prod.mk.inj (mem_singleton.mp hnew)
        cases hlookup : c.packetsTable.lookup hash with
        | none =>
          refine .inl (mem_filter.mpr ⟨hhash, ?_⟩)
          rw [hlookup]
          rfl
        | some packet =>
          refine .inr (AList.lookup_isSome.mp ?_)
          show (c.packetsTable.lookup hash).isSome = true
          rw [hlookup]
          rfl

theorem Synced.updateRoundTable {cachedRound : Sequence} {table : RoundTable}
    (h : c.Synced round) (hrun : c.updateRoundTable cachedRound table = some t) :
    t.Synced round := by
  obtain ⟨d, hextract, rfl⟩ := Option.map_eq_some_iff.mp hrun
  have hd := (keepsRound_extractFrom hextract).synced h
  exact Synced.setTable (c := d.changeRound table.round) hd table

theorem mem_modifyMeta {f : RoundMeta → RoundMeta}
    {pair : Sequence × RoundMeta} (h : pair ∈ (c.modifyMeta round f).metaStorage) :
    pair ∈ c.metaStorage ∨ ∃ element, (round, element) ∈ c.metaStorage ∧
      pair = (round, f element) := by
  obtain ⟨i, hi⟩ := List.getElem?_of_mem h
  unfold modifyMeta MetaStorage.modify at hi
  dsimp only at hi
  rw [List.getElem?_modify] at hi
  cases hget : c.metaStorage[i]? with
  | none =>
    rw [hget] at hi
    cases hi
  | some old =>
    rw [hget] at hi
    have hmem := mem_of_getElem? hget
    have hpair := Option.some.inj hi
    dsimp only at hpair
    by_cases heq : (c.metaStorage.findIdx fun element => element.1 = round) = i
    · rw [if_pos heq] at hpair
      subst heq
      have hround : old.1 = round := by
        have hlt := (List.getElem?_eq_some_iff.mp hget).1
        have hfound := findIdx_getElem (w := hlt)
        rw [(List.getElem?_eq_some_iff.mp hget).2] at hfound
        exact of_decide_eq_true hfound
      right
      obtain ⟨r, element⟩ := old
      obtain rfl : r = round := hround
      exact ⟨element, hmem, hpair.symm⟩
    · rw [if_neg heq] at hpair
      left
      exact hpair ▸ hmem

theorem mem_emplacePacket {table : TransactionsPacketTable}
    {hash : Option Hash} : hash ∈ emplacePacket table packet ↔ hash = packet.hash ∨
    hash ∈ table := by
  grind [emplacePacket, AList.lookup_isSome, AList.mem_insert]

theorem Synced.found (h : c.Synced round) (packet : TransactionsPacket) :
    Synced { c with
      metaStorage := (c.modifyMeta round fun element =>
        { element with neededHashes := element.neededHashes.erase packet.hash }).metaStorage
      packetsTable := emplacePacket c.packetsTable packet } round := by
  intro element helement hash hhash
  dsimp only at helement
  have hmore : hash ∈ c.packetsTable → hash ∈ emplacePacket c.packetsTable packet := fun hmem =>
    mem_emplacePacket.mpr (.inr hmem)
  rcases mem_modifyMeta helement with hold | ⟨old, hold, heq⟩
  · exact (h element hold hash hhash).imp id hmore
  · obtain ⟨-, rfl⟩ := Prod.mk.inj heq
    -- the hash that is not needed any more is that of the packet
    by_cases hself : hash = packet.hash
    · exact .inr (mem_emplacePacket.mpr (.inl hself))
    · exact (h old hold hash hhash).imp (mem_erase_of_ne hself).mpr hmore

theorem keepsRound_modifyMeta {found : Sequence} (hne : found ≠ round) (c : ConveyerBase)
    (f : RoundMeta → RoundMeta) : KeepsRound round c (c.modifyMeta found f) := by
  refine .of_subset (fun element helement => ?_) fun _ => id
  rcases mem_modifyMeta helement with hold | ⟨old, -, heq⟩
  · exact hold
  · exact absurd (Prod.mk.inj heq).1.symm hne

theorem keepsRound_setCharacteristic (c : ConveyerBase) (mask : Bytes) (found : Sequence) :
    KeepsRound round c (c.setCharacteristic mask found) := by
  unfold setCharacteristic
  cases c.getMeta found with
  | none => exact .refl round c
  | some _ =>
    refine ⟨fun element helement => ?_, fun _ _ => id⟩
    rcases mem_modifyMeta helement with hold | ⟨old, hold, heq⟩
    · exact ⟨element, hold, rfl, rfl⟩
    · obtain ⟨rfl, rfl⟩ := Prod.mk.inj heq
      exact ⟨old, hold, rfl, rfl⟩

theorem Synced.addFoundPacket {found : Sequence}
    (h : c.Synced round) (hcurrent : found = round → c.currentRound = round) :
    (c.addFoundPacket found packet).Synced round := by
  unfold ConveyerBase.addFoundPacket
  cases c.getMeta found with
  | none => exact h
  | some element =>
    dsimp only
    by_cases hneeded : element.neededHashes.contains packet.hash = true
    · rw [if_pos hneeded]
      by_cases hround : found = round
      · subst hround
        have hnow : found = (c.modifyMeta found fun element =>
            { element with neededHashes := element.neededHashes.erase packet.hash }).currentRound :=
          (hcurrent rfl).symm
        rw [if_pos hnow]
        exact h.found packet
      · have hfirst := (keepsRound_modifyMeta hround c fun element =>
          { element with neededHashes := element.neededHashes.erase packet.hash }).synced h
        generalize (c.modifyMeta found fun element =>
          { element with neededHashes := element.neededHashes.erase packet.hash }) = d at hfirst ⊢
        split_ifs
        · have hmore : KeepsRound round d
              { d with packetsTable := emplacePacket d.packetsTable packet } :=
            .of_subset (fun _ => id) fun _ hmem => mem_emplacePacket.mpr (.inr hmem)
          exact hmore.synced hfirst
        · exact (keepsRound_modifyMeta hround d _).synced hfirst
    · rw [if_neg hneeded]
      exact h

theorem metaStorage_foldl_remove (hashes : List (Option Hash)) (c : ConveyerBase) :
    (hashes.foldl removeHashFromSendCache c).metaStorage = c.metaStorage ∧
      (hashes.foldl removeHashFromSendCache c).packetsTable = c.packetsTable := by
  induction hashes generalizing c with
  | nil => exact ⟨rfl, rfl⟩
  | cons hash hashes ih => exact ih (c.removeHashFromSendCache hash)

theorem applyCharacteristic_frame {c : Conveyer} {info : PoolMetaInfo}
    {applied : Conveyer.Applied} (h : c.applyCharacteristic uninitialised info = .ok applied) :
    (applied.conveyer.metaStorage.map fun pair => pair.2.hashes)
      = (c.metaStorage.map fun pair => pair.2.hashes) ∧
    ∀ hash ∈ c.packetsTable,
      (∀ element, c.getMeta info.sequenceNumber = some element → hash ∉ element.hashes) →
      hash ∈ applied.conveyer.packetsTable := by
  unfold Conveyer.applyCharacteristic at h
  dsimp only at h
  cases hmeta : c.getMeta info.sequenceNumber with
  | none =>
    rw [hmeta] at h
    obtain rfl := Except.ok.inj h
    exact ⟨rfl, fun hash hmem _ => hmem⟩
  | some element =>
    rw [hmeta] at h
    have hremove : ∀ hash ∈ c.packetsTable, (∀ element', some element = some element' →
        hash ∉ element'.hashes) →
        hash ∈ (c.removeHashesFromTable element.hashes).packetsTable := fun hash hmem hnot =>
      mem_foldl_erase.mpr ⟨hmem, hnot element rfl⟩
    obtain ⟨viewed, -, h⟩ := bind_eq_ok h
    cases viewed with
    | none =>
      obtain rfl := Except.ok.inj h
      exact ⟨rfl, hremove⟩
    | some g =>
      obtain rfl := Except.ok.inj h
      refine ⟨?_, hremove⟩
      have hsame : (c.removeHashesFromTable element.hashes).metaStorage = c.metaStorage := rfl
      refine ext_getElem? fun i => ?_
      show (map _ (modify _ _ _))[i]? = _
      rw [List.getElem?_map, List.getElem?_map, List.getElem?_modify, hsame]
      cases c.metaStorage[i]? with
      | none => rfl
      | some pair =>
        split_ifs <;> rfl

theorem mem_zipWith {α β γ δ : Type} {f : α → β → γ} {g : α → δ} {g' : β → δ} {as : List α} :
    ∀ {bs : List β}, bs.map g' = as.map g → ∀ x ∈ List.zipWith f as bs,
      ∃ a ∈ as, ∃ b, x = f a b ∧ g' b = g a := by
  induction as with
  | nil =>
    intro bs _ x hx
    cases hx
  | cons a as ih =>
    intro bs hmap x hx
    cases bs with
    | nil => cases hx
    | cons b bs =>
      obtain ⟨hhead, htail⟩ := cons.inj hmap
      rcases mem_cons.mp hx with rfl | hx
      · exact ⟨a, mem_cons_self, b, rfl, hhead⟩
      · grind

theorem getMeta_toConveyer (c : ConveyerBase) (round : Sequence) :
    c.toConveyer.getMeta round = (c.getMeta round).map RoundMeta.toConveyerMeta := by
  unfold Conveyer.getMeta getMeta MetaStorage.get toConveyer
  rw [List.find?_map, Option.map_map, Option.map_map]
  rfl

theorem keepsRound_applyCharacteristic {info : PoolMetaInfo} {pool : Option Pool}
    (h : ∀ element, c.getMeta info.sequenceNumber = some element →
      ∀ hash ∈ element.hashes, ¬ c.Lists round hash)
    (hrun : c.applyCharacteristic uninitialised info = .ok (pool, t)) : KeepsRound round c t := by
  obtain ⟨applied, happlied, hresult⟩ := bind_eq_ok hrun
  obtain ⟨-, rfl⟩ := Prod.mk.inj (Except.ok.inj hresult)
  obtain ⟨hhashes, hpackets⟩ := applyCharacteristic_frame happlied
  obtain ⟨hmetas, htable⟩ := metaStorage_foldl_remove
    (((c.getMeta info.sequenceNumber).map fun element => element.hashes).getD [])
    (c.withConveyer applied.conveyer)
  have hmaps : (applied.conveyer.metaStorage.map fun pair => pair.2.hashes)
      = c.metaStorage.map fun pair => pair.2.hashes := by
    rw [hhashes]
    unfold toConveyer
    rw [map_map]
    rfl
  have hold : ∀ element, (round, element) ∈ (c.withConveyer applied.conveyer).metaStorage →
      ∃ old, (round, old) ∈ c.metaStorage ∧ element.hashes = old.hashes ∧
        element.neededHashes = old.neededHashes := by
    intro element helement
    obtain ⟨⟨r, old⟩, hmem, written, heq, hsame⟩ := mem_zipWith hmaps _ helement
    cases heq
    exact ⟨old, hmem, hsame, rfl⟩
  refine ⟨fun element helement => hold element (hmetas ▸ helement), ?_⟩
  rintro hash ⟨element, helement, hhash⟩ hmem
  rw [htable]
  refine hpackets hash hmem fun element' hget hlisted => ?_
  obtain ⟨old, hmem', hhashes', -⟩ := hold element (hmetas ▸ helement)
  rw [getMeta_toConveyer] at hget
  obtain ⟨full, hfull, rfl⟩ := Option.map_eq_some_iff.mp hget
  exact h full hfull hash hlisted ⟨old, hmem', hhashes' ▸ hhash⟩

theorem Synced.step {env : ConveyerEnv}
    {op : Operation} (h : c.Synced round) (hop : Undisturbed env round op c)
    (hstep : step env uninitialised op c = some t) : t.Synced round := by
  cases op with
  | addTransaction transaction =>
    cases hstep
    unfold ConveyerBase.addTransaction
    split_ifs <;> exact h
  | addSeparatePacket packet =>
    cases hstep
    unfold ConveyerBase.addSeparatePacket
    split_ifs <;> exact h
  | addTransactionsPacket packet =>
    cases hstep
    exact (keepsRound_addTransactionsPacket c packet).synced h
  | setCharacteristic mask found =>
    cases hstep
    exact (keepsRound_setCharacteristic c mask found).synced h
  | changeRound round' =>
    cases hstep
    exact h
  | setTable table =>
    cases hstep
    exact h.setTable table
  | updateRoundTable cachedRound table => exact h.updateRoundTable hstep
  | addFoundPacket found packet =>
    cases hstep
    exact h.addFoundPacket hop
  | addPacketToMeta round' packet =>
    cases hstep
    exact (keepsRound_addPacketToMeta c round' packet).synced h
  | flushTransactions =>
    cases hstep
    have hqueue : KeepsRound round c (c.flushQueue env) := keepsRound_flushQueue env c
    have hcheck : ∀ hash ∈ (c.flushQueue env).hashesToRemove env,
        ¬ (c.flushQueue env).Lists round hash := fun hash hremoved hlists =>
      hop hash hremoved (hqueue.lists hlists)
    exact (hqueue.trans (keepsRound_checkSendCache hcheck)).synced h
  | checkSendCache =>
    cases hstep
    exact (keepsRound_checkSendCache hop).synced h
  | applyCharacteristic info =>
    unfold ConveyerBase.step at hstep
    dsimp only at hstep
    cases happly : c.applyCharacteristic uninitialised info with
    | error e =>
      rw [happly] at hstep
      cases hstep
    | ok result =>
      rw [happly] at hstep
      cases hstep
      exact (keepsRound_applyCharacteristic hop happly).synced h

theorem foldl_addTransaction (hhash : packet.hash = none) (trxs : List Transaction) :
    trxs.foldl (fun packet transaction => (packet.addTransaction transaction).1) packet
      = { packet with transactions := packet.transactions ++ trxs.filter Transaction.isValid } := by
  induction trxs generalizing packet with
  | nil => rw [filter_nil, append_nil]; rfl
  | cons tr trxs ih =>
    rw [foldl_cons]
    cases hvalid : tr.isValid with
    | true =>
      simp_all [TransactionsPacket.addTransaction]
    | false =>
      simp_all [TransactionsPacket.addTransaction]

theorem gatherPackets_of_mem {c : Conveyer} {hashes : List (Option Hash)}
    (h : ∀ hash ∈ hashes, hash ∈ c.packetsTable) : ∃ packets : List TransactionsPacket,
      hashes.map (fun hash => c.packetsTable.lookup hash) = packets.map some ∧
      ∀ packet smart, packet.hash = none → c.gatherPackets hashes packet smart
        = some ({ packet with
            transactions := packet.transactions ++
              (packets.flatMap TransactionsPacket.transactions).filter Transaction.isValid },
            smart ++ packets.filter TransactionsPacket.isSmart) := by
  induction hashes with
  | nil =>
    refine ⟨[], rfl, fun packet smart _ => ?_⟩
    rw [flatMap_nil, filter_nil, filter_nil, append_nil, append_nil]
    rfl
  | cons hash hashes ih =>
    obtain ⟨packets, hpackets, hgather⟩ := ih fun x hx => h x (mem_cons_of_mem _ hx)
    obtain ⟨first, hfirst⟩ := Option.isSome_iff_exists.mp
      (AList.lookup_isSome.mpr (h hash mem_cons_self))
    refine ⟨first :: packets, ?_, fun packet smart hhash => ?_⟩
    · rw [map_cons, map_cons, hfirst, hpackets]
    grind [Conveyer.gatherPackets, foldl_addTransaction]

/-- After every run that does not disturb the round, if it is synchronised and its packets are
valid, `createPacket` returns a packet with the transactions of all packets that the table lists, in
order. -/
theorem createPacket_of_isSyncCompleted {env : ConveyerEnv} {uninitialised round : Sequence}
    {ops : List Operation} {events : List Empty} {c : ConveyerBase} {element : RoundMeta}
    (hrun : run (silent (step env uninitialised)) ops .new = some (events, c))
    (hops : Along (silent (step env uninitialised)) (Undisturbed env round) ops .new)
    (hmeta : c.getMeta round = some element) (hsync : c.isSyncCompleted round = true)
    (hvalid : ∀ hash ∈ element.hashes, ∀ packet, c.packetsTable.lookup hash = some packet →
      ∀ tr ∈ packet.transactions, tr.isValid = true) :
    ∃ (packets : List TransactionsPacket) (packet : TransactionsPacket),
      element.hashes.map (fun hash => c.packetsTable.lookup hash) = packets.map some ∧
      c.createPacket round = some (packet, packets.filter TransactionsPacket.isSmart) ∧
      packet.transactions = packets.flatMap TransactionsPacket.transactions := by
  have hstart : Synced .new round := by
    intro element helement hash hhash
    obtain ⟨-, rfl⟩ := Prod.mk.inj (mem_singleton.mp helement)
    cases hhash
  have hsynced : c.Synced round :=
    silent_invariant (I := fun c => c.Synced round) (fun _ _ _ h hop hstep => h.step hop hstep)
      hstart hrun hops
  have hmem : (round, element) ∈ c.metaStorage := by
    obtain ⟨⟨r, found⟩, hfind, rfl⟩ := Option.map_eq_some_iff.mp hmeta
    obtain rfl : r = round := by simpa using List.find?_some hfind
    exact List.mem_of_find?_eq_some hfind
  have hnone : element.neededHashes = [] := by
    unfold isSyncCompleted at hsync
    rw [hmeta] at hsync
    exact isEmpty_iff.mp hsync
  have hthere : ∀ hash ∈ element.hashes, hash ∈ c.toConveyer.packetsTable := by
    intro hash hhash
    refine (hsynced element hmem hash hhash).resolve_left ?_
    rw [hnone]
    exact not_mem_nil
  obtain ⟨packets, hpackets, hgather⟩ := gatherPackets_of_mem hthere
  have hcreate : c.createPacket round = c.toConveyer.gatherPackets element.hashes .new [] := by
    unfold createPacket Conveyer.createPacket
    rw [getMeta_toConveyer, hmeta]
    rfl
  refine ⟨packets, _, hpackets, hcreate.trans (hgather .new [] rfl), ?_⟩
  show [] ++ _ = _
  rw [nil_append, filter_eq_self]
  intro tr htr
  obtain ⟨packet, hpacket, htr⟩ := mem_flatMap.mp htr
  have hsome : some packet ∈ element.hashes.map fun hash => c.packetsTable.lookup hash := by
    refine (congrArg (some packet ∈ ·) hpackets).mpr ?_
    exact mem_map_of_mem hpacket
  obtain ⟨hash, hhash, hlookup⟩ := mem_map.mp hsome
  exact hvalid hash hhash packet hlookup tr htr

section Sample

def sampleFirst : TransactionsPacket := { samplePacket 1 with transactions := [.new] }

def sampleSecond : TransactionsPacket := { samplePacket 2 with transactions := [.new, .new] }

def sampleFound : List Operation :=
  [.setTable ⟨1, [sampleFirst.hash, sampleSecond.hash]⟩, .setCharacteristic [1, 1, 1] 1,
    .addFoundPacket 1 sampleSecond, .addFoundPacket 1 sampleFirst]

/-- Two packets are found in the other order. -/
theorem createPacket_of_isSyncCompleted_sample :
    ∃ events c, ∃ (packets : List TransactionsPacket) (packet : TransactionsPacket),
    run (silent (step sampleSendEnv 0)) sampleFound .new = some (events, c) ∧
    [c.packetsTable.lookup sampleFirst.hash, c.packetsTable.lookup sampleSecond.hash] =
      packets.map some ∧
    c.createPacket 1 = some (packet, packets.filter TransactionsPacket.isSmart) ∧
    packet.transactions = packets.flatMap TransactionsPacket.transactions := by
  have hrun : run (silent (step sampleSendEnv 0)) sampleFound .new = some (_, _) := rfl
  have hops : Along (silent (step sampleSendEnv 0))
      (Undisturbed sampleSendEnv 1) sampleFound .new := by
    refine ⟨trivial, fun first hfirst => ⟨trivial, fun second hsecond => ⟨fun _ => ?_,
      fun third hthird => ⟨fun _ => ?_, fun _ _ => trivial⟩⟩⟩⟩
    · cases hfirst
      cases hsecond
      rfl
    · cases hfirst
      cases hsecond
      cases hthird
      rfl
  obtain ⟨packets, packet, hpackets, hcreate, htransactions⟩ :=
    createPacket_of_isSyncCompleted hrun hops rfl rfl (by
      intro hash hhash packet hlookup tr htr
      have hnew : tr = .new := by
        rcases mem_cons.mp hhash with rfl | hhash
        · cases hlookup
          exact mem_singleton.mp htr
        · rw [mem_singleton.mp hhash] at hlookup
          cases hlookup
          exact eq_of_mem_replicate (n := 2) htr
      rw [hnew]
      decide)
  exact ⟨_, _, packets, packet, hrun, hpackets, hcreate, htransactions⟩

def sampleLate : List Operation :=
  [.setTable ⟨1, [(samplePacket 1).hash]⟩, .setTable ⟨2, []⟩, .addFoundPacket 1 (samplePacket 1)]

/-- The packet is sent once more, and then given up. -/
def sampleGivenUp : List Operation :=
  [.addPacketToMeta 0 (samplePacket 1), .setTable ⟨1, [(samplePacket 1).hash]⟩, .checkSendCache,
    .setTable ⟨2, []⟩, .checkSendCache]

/-- Another round lists the packet as well, and is applied. -/
def sampleShared : List Operation :=
  [.addPacketToMeta 0 (samplePacket 1), .setTable ⟨1, [(samplePacket 1).hash]⟩,
    .setTable ⟨2, [(samplePacket 1).hash]⟩, .applyCharacteristic ⟨[], none, 2, []⟩]

/-- After the run the first round is synchronised, but there is no packet for it. -/
def LeavesNoPacket (ops : List Operation) : Prop :=
  ∃ events c element, run (silent (step sampleSendEnv 0)) ops .new = some (events, c) ∧
    c.getMeta 1 = some element ∧ c.isSyncCompleted 1 = true ∧ c.createPacket 1 = none

/-- A packet that comes late, is given up or is in two rounds is missing from the synchronised
round. -/
theorem createPacket_missing :
    LeavesNoPacket sampleLate ∧ LeavesNoPacket sampleGivenUp ∧ LeavesNoPacket sampleShared :=
  ⟨⟨_, _, _, rfl, rfl, rfl, rfl⟩, ⟨_, _, _, rfl, rfl, rfl, rfl⟩, ⟨_, _, _, rfl, rfl, rfl, rfl⟩⟩

end Sample

end CreditsNode.ConveyerBase
