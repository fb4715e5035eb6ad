import CreditsNode.Csnode.Proofs.DataStreamEntityProofs
import CreditsNode.Csnode.Proofs.RoundPackageProofs

/-!
# Reading a round package

`fromBinary` takes the fields in the order in which `toBinary` has written them. If the bytes end
too early, the reads that follow give empty and zero fields, and only the tests of the sequence
number and of the number of signatures find out. Bytes that end within the last signatures are
accepted, which are read as zeros.
-/

namespace CreditsNode.Round

open ByteCodec Effect DataStream List Round.RoundPackage

variable {buffer : Buffer} {s t : DataStream} {p : RoundPackage}

variable {n : Nat} {step : Step} {rest : List Step} {q : RoundPackage}

theorem arrayOf_toList (v : List.Vector UInt8 n) : arrayOf n v.toList = v := by
  apply Subtype.ext
  show v.toList.takeD n 0 = v.toList
  rw [takeD_eq_take _ v.toList_length.ge, take_of_length_le v.toList_length.le]

theorem takes_parseArrays {size : ObjectSize} (hsize : size.value.toNat = n)
    {vs : List (List.Vector UInt8 n)} (hne : vs ≠ []) (hmax : vs.length ≤ ptrdiffMax / n) :
    Takes buffer (parseArrays buffer n size) (putArrays vs) (· = some vs) := by
  have hpos : 0 < n := by
    rcases Nat.eq_zero_or_pos n with rfl | hpos
    · rw [Nat.div_zero, Nat.le_zero, length_eq_zero_iff] at hmax
      exact absurd hmax hne
    · exact hpos
  have hentity : ∀ v ∈ vs, Takes buffer (do
      let field ← parseArray buffer size
      return arrayOf n field) v.toList fun a => id a = id v := by
    intro v _
    refine (takes_parseFixed (v.toList_length.trans hsize.symm)).map fun field hfield => ?_
    rw [hfield]
    exact arrayOf_toList v
  refine (takes_parseEntities vs hmax (fun v _ => ?_) hentity).imp fun entities hentities => ?_
  · rw [v.toList_length]
    exact hpos
  · simp_all

theorem toNat_sizeofKey : sizeofKey.value.toNat = 32 := rfl

theorem toNat_sizeofSignature : sizeofSignature.value.toNat = 64 := rfl

theorem takes_parseByte (b : UInt8) : Takes buffer (parseByte buffer) [b] (· = b) := by
  have hlength : [b].length = sizeofByte.value.toNat := rfl
  refine (takes_parseFixed hlength).map fun field hfield => ?_
  rw [hfield]
  show UInt8.ofNat (b.toNat + 256 * 0) = b
  rw [Nat.mul_zero, Nat.add_zero, UInt8.ofNat_toNat]

theorem takes_parseSize (n : UInt64) : Takes buffer (parseSize buffer) (putU64 n) (· = n) := by
  have hlength : (putU64 n).length = sizeofSize.value.toNat := rfl
  refine (takes_parseFixed hlength).map fun field hfield => ?_
  rw [hfield]
  show UInt64.ofNat (leNat (leBytes 8 n.toNat)) = n
  rw [leNat_leBytes, Nat.mod_eq_of_lt (by exact n.toNat_lt), UInt64.ofNat_toNat]

theorem takes_parseVector (data : Bytes) :
    Takes buffer (parseVector buffer) (Entity.addVector data) (· = data) :=
  takes_parseContainer (Nat.sub_le _ _) le_rfl data

theorem takes_parseString (data : Bytes) :
    Takes buffer (parseString buffer) (Entity.addVector data) (· = data) := by
  have hmin : ptrdiffMax - 8 ≤ ptrdiffMax - 1 := Nat.sub_le_sub_left (by decide) _
  exact takes_parseContainer hmin (Nat.sub_le _ _) data

theorem takes_parseHash (hash : Option Hash) :
    Takes buffer (parseHash buffer none) (putHash hash) (· = hash) := by
  refine (takes_parseVector _).map fun bytes hbytes => ?_
  rw [hbytes]
  cases hash with
  | none => rfl
  | some hash =>
    have hlength : hash.toList.length = 32 := hash.toList_length
    have hne : hash.toList.isEmpty = false := by
      grind
    show (if hash.toList.isEmpty then none else hashOf hash.toList) = _
    rw [hne, if_neg Bool.false_ne_true]
    exact dif_pos hlength

theorem takes_parseHashes (hashes : List (Option Hash)) (hmax : hashes.length ≤ 200) :
    Takes buffer (parseEntities buffer sizeofHash (parseHash buffer none)) (putHashes hashes)
      fun entities => entities.getD [] = hashes := by
  have hsize : hashes.length ≤ ptrdiffMax / sizeofHash := hmax.trans (by decide)
  have hentity : ∀ hash ∈ hashes, Takes buffer (parseHash buffer none) (putHash hash)
      fun a => id a = id hash := fun hash _ => takes_parseHash hash
  refine (takes_parseEntities hashes hsize (fun hash _ => ?_) hentity).imp
    fun entities hentities => ?_
  · unfold putHash
    rw [length_addVector]
    omega
  · rw [map_id, Option.map_congr fun _ _ => map_id _, Option.map_id'] at hentities
    rw [hentities]
    split_ifs with hnil
    · exact hnil.symm
    · rfl

/-- A field with its bytes. `caught` tells after how many of its bytes the buffer may end for the
rest of the package to be refused. -/
structure Piece where
  step : Step
  bytes : Bytes
  set : RoundPackage → RoundPackage
  caught : Nat → Prop

def bytesOf (pieces : List Piece) : Bytes := pieces.flatMap Piece.bytes

def setAll (pieces : List Piece) (p : RoundPackage) : RoundPackage :=
  pieces.foldl (fun p piece => piece.set p) p

def Chain (buffer : Buffer) : List Piece → RoundPackage → Prop
  | [], _ => True
  | piece :: rest, p =>
    Takes buffer (piece.step.read p) piece.bytes (· = piece.set p) ∧
      piece.step.isLegal (piece.set p) = true ∧ Chain buffer rest (piece.set p)

theorem readSteps_cons (hread : step.read p s = .ok q t) :
    readSteps (step :: rest) p s =
      if step.isLegal q = true then readSteps rest q t else .ok (false, q) t := by
  show (step.read p >>= _) s = _
  rw [bind_eq_of_ok hread]
  cases hlegal : step.isLegal q <;> rfl

theorem readSteps_behind {pieces : List Piece} (rest : List Step) (hchain : Chain buffer pieces p)
    (h : InBounds buffer s) (hpre : bytesOf pieces <+: left buffer s) :
    readSteps (pieces.map Piece.step ++ rest) p s =
      readSteps rest (setAll pieces p) (s.moved (.ofNat (bytesOf pieces).length)) := by
  induction pieces generalizing p s with
  | nil =>
    show readSteps rest p s = readSteps rest p (s.moved 0)
    rw [moved_zero]
  | cons piece pieces ih =>
    obtain ⟨htakes, hlegal, hchain⟩ := hchain
    obtain ⟨cs, hcs⟩ := hpre
    have hleft : left buffer s = piece.bytes ++ (bytesOf pieces ++ cs) := by
      rw [← hcs]
      exact append_assoc _ _ _
    obtain ⟨q, hread, rfl⟩ := htakes s h ⟨_, hleft.symm⟩
    obtain ⟨h', hleft'⟩ := inBounds_behind h hleft
    have hlength : (bytesOf (piece :: pieces)).length
        = piece.bytes.length + (bytesOf pieces).length := length_append
    show readSteps (piece.step :: (pieces.map Piece.step ++ rest)) p s = _
    rw [readSteps_cons hread, if_pos hlegal, ih hchain h' ⟨cs, hleft'.symm⟩, moved_moved, hlength]
    rfl

def Rejected (m : Parse (Bool × RoundPackage)) (s : DataStream) : Prop :=
  ∃ q t, m s = .ok (false, q) t

theorem rejected_of_rest (hread : step.read p s = .ok q t) (hrest : Rejected (readSteps rest q) t) :
    Rejected (readSteps (step :: rest) p) s := by
  unfold Rejected
  rw [readSteps_cons hread]
  split_ifs
  · exact hrest
  · exact ⟨q, t, rfl⟩

theorem rejected_of_illegal (hread : step.read p s = .ok q t) (hlegal : step.isLegal q = false) :
    Rejected (readSteps (step :: rest) p) s := by
  refine ⟨q, t, ?_⟩
  rw [readSteps_cons hread, hlegal, if_neg Bool.false_ne_true]

def Stops (buffer : Buffer) : List Piece → RoundPackage → Prop
  | [], _ => True
  | piece :: rest, p =>
    (∀ s, InBounds buffer s → left buffer s <+: piece.bytes →
      remaining buffer s < piece.bytes.length → piece.caught (remaining buffer s) →
      Rejected (readSteps ((piece :: rest).map Piece.step) p) s) ∧ Stops buffer rest (piece.set p)

theorem rejected_of_cut {pieces : List Piece} (hchain : Chain buffer pieces p)
    (hstops : Stops buffer pieces p) (h : InBounds buffer s)
    (hpre : left buffer s <+: bytesOf pieces) (hlt : remaining buffer s < (bytesOf pieces).length)
    (hcut : CutAt (fun piece => piece.bytes.length) Piece.caught pieces (remaining buffer s)) :
    Rejected (readSteps (pieces.map Piece.step) p) s := by
  induction pieces generalizing p s with
  | nil => exact absurd hlt (Nat.not_lt_zero _)
  | cons piece pieces ih =>
    obtain ⟨htakes, hlegal, hchain⟩ := hchain
    obtain ⟨hhere, hstops⟩ := hstops
    have hlength : (bytesOf (piece :: pieces)).length
        = piece.bytes.length + (bytesOf pieces).length := length_append
    have hcut' : if remaining buffer s < piece.bytes.length then piece.caught (remaining buffer s)
        else CutAt (fun piece => piece.bytes.length) Piece.caught pieces
          (remaining buffer s - piece.bytes.length) := hcut
    have hpre' : left buffer s <+: piece.bytes ++ bytesOf pieces := hpre
    by_cases hends : remaining buffer s < piece.bytes.length
    · grind [length_left, prefix_of_prefix_length_le]
    · obtain ⟨cs, hcs⟩ : piece.bytes <+: left buffer s :=
        prefix_of_prefix_length_le (prefix_append _ _) hpre'
          (length_left.symm ▸ Nat.not_lt.mp hends)
      obtain ⟨q, hread, rfl⟩ := htakes s h ⟨cs, hcs⟩
      obtain ⟨h', hleft⟩ := inBounds_behind h hcs.symm
      have hremaining : remaining buffer (s.moved (.ofNat piece.bytes.length))
          = remaining buffer s - piece.bytes.length := by
        rw [← length_left, hleft, ← length_left, ← hcs, length_append, Nat.add_sub_cancel_left]
      grind [rejected_of_rest, prefix_append_right_inj]

def Short (buffer : Buffer) (s : DataStream) : Prop := InBounds buffer s ∧ remaining buffer s < 8

theorem parseEntities_short {α : Type} {sizeof : Nat} {m : Parse α} (h : Short buffer s) :
    parseEntities buffer sizeof m s = .ok none s.bad := by
  have hcount := parseCount_eq h.1 sizeof
  rw [if_pos h.2] at hcount
  exact bind_eq_of_ok hcount

theorem parseSize_short (h : Short buffer s) : parseSize buffer s = .ok 0 s.bad := by
  rw [parseSize_eq h.1, if_neg (Nat.not_le.mpr h.2)]

theorem parseHash_short (h : Short buffer s) (hash : Option Hash) :
    parseHash buffer hash s = .ok hash s.bad :=
  bind_eq_of_ok (parseContainer_of_lt h.1 h.2)

theorem parseByte_short (h : Short buffer s) :
    ∃ b t, parseByte buffer s = .ok b t ∧ Short buffer t := by
  have hfixed := parseFixed_eq h.1 sizeofByte
  split_ifs at hfixed with hle
  · refine ⟨_, _, bind_eq_of_ok hfixed, inBounds_moved h.1 hle, ?_⟩
    rw [remaining_moved h.1 hle]
    exact (Nat.sub_le _ _).trans_lt h.2
  · exact ⟨_, _, bind_eq_of_ok hfixed, h⟩

def Starves (buffer : Buffer) (step : Step) : Prop :=
  ∀ p s, Short buffer s → ∃ q t, step.read p s = .ok q t ∧ Short buffer t ∧
    q.roundTable.round = p.roundTable.round ∧
    q.poolMetaInfo.realTrustedMask = p.poolMetaInfo.realTrustedMask ∧
    q.roundSignatures = p.roundSignatures

def infoSteps (buffer : Buffer) : List Step :=
  [.subRound buffer, .iteration buffer, .hashes buffer, .timestamp buffer, .characteristic buffer,
    .sequenceNumber buffer, .previousHash buffer]

theorem starves_infoSteps : ∀ step ∈ infoSteps buffer, Starves buffer step := by
  have hbyte : ∀ (step : Step) (set : UInt8 → RoundPackage → RoundPackage), (∀ b p,
      (set b p).roundTable.round = p.roundTable.round ∧
      (set b p).poolMetaInfo.realTrustedMask = p.poolMetaInfo.realTrustedMask ∧
      (set b p).roundSignatures = p.roundSignatures) →
      (step.read = fun p => parseByte buffer >>= fun b => pure (set b p)) →
        Starves buffer step := by
    intro step set hset hread p s h
    obtain ⟨b, t, hbyte, ht⟩ := parseByte_short h
    exact ⟨_, t, by rw [hread]; exact bind_eq_of_ok hbyte, ht, hset b p⟩
  simp only [infoSteps, forall_mem_cons, not_mem_nil, IsEmpty.forall_iff, implies_true, and_true]
  refine ⟨hbyte _ setSubRound (fun _ _ => ⟨rfl, rfl, rfl⟩) rfl,
    hbyte _ setIteration (fun _ _ => ⟨rfl, rfl, rfl⟩) rfl, ?_, ?_, ?_, ?_, ?_⟩
  · exact fun _ s h => ⟨_, s.bad, bind_eq_of_ok (parseEntities_short h), h, rfl, rfl, rfl⟩
  · exact fun _ s h => ⟨_, s.bad, bind_eq_of_ok (parseContainer_of_lt h.1 h.2), h, rfl, rfl, rfl⟩
  · exact fun _ s h => ⟨_, s.bad, bind_eq_of_ok (parseContainer_of_lt h.1 h.2), h, rfl, rfl, rfl⟩
  · exact fun _ s h => ⟨_, s.bad, bind_eq_of_ok (parseSize_short h), h, rfl, rfl, rfl⟩
  · exact fun _ s h => ⟨_, s.bad, bind_eq_of_ok (parseHash_short h _), h, rfl, rfl, rfl⟩

theorem Short.rejected {before : List Step} (hbefore : ∀ step ∈ before, Starves buffer step)
    (h : Short buffer s) (hrest : ∀ q t, Short buffer t → q.roundTable.round = p.roundTable.round →
      q.poolMetaInfo.realTrustedMask = p.poolMetaInfo.realTrustedMask →
      q.roundSignatures = p.roundSignatures → Rejected (readSteps rest q) t) :
    Rejected (readSteps (before ++ rest) p) s := by
  induction before generalizing p s with
  | nil => exact hrest p s h rfl rfl rfl
  | cons step before ih =>
    obtain ⟨q, t, hread, ht, hround, hmask, hsignatures⟩ := hbefore step mem_cons_self p s h
    grind [rejected_of_rest]

theorem rejected_unsigned (k : Nat) (rest : List Step) (h : Short buffer s)
    (hunsigned : p.roundSignatures = [])
    (htrusted : trustedSize p.poolMetaInfo.realTrustedMask ≠ 0) :
    Rejected (readSteps ((infoSteps buffer).drop k ++ .roundSignatures buffer :: rest) p) s := by
  refine h.rejected (fun step hstep => starves_infoSteps step (mem_of_mem_drop hstep)) ?_
  intro q t ht _ hmask hsignatures
  refine rejected_of_illegal (bind_eq_of_ok (parseEntities_short ht)) ?_
  show decide ((trustedSize q.poolMetaInfo.realTrustedMask).toNat = q.roundSignatures.length) = _
  rw [hmask, hsignatures, hunsigned]
  exact decide_eq_false fun hzero => htrusted (UInt8.toNat.inj hzero)

theorem rejected_sequence (rest : List Step) (h : Short buffer s)
    (hround : p.roundTable.round ≠ 1) :
    Rejected (readSteps ((infoSteps buffer).take 5 ++ .sequenceNumber buffer :: rest) p) s := by
  refine h.rejected (fun step hstep => starves_infoSteps step (mem_of_mem_take hstep)) ?_
  intro q t ht hsame _ _
  refine rejected_of_illegal (bind_eq_of_ok (parseSize_short ht)) ?_
  show (!decide ((0 : UInt64) ≠ q.roundTable.round - 1)) = false
  grind

theorem parseArrays_none {size : ObjectSize} {vs : List (List.Vector UInt8 n)}
    (hmax : vs.length ≤ ptrdiffMax) (h : InBounds buffer s) (hpre : left buffer s <+: putArrays vs)
    (hfew : remaining buffer s < 8 + vs.length) :
    ∃ t, parseArrays buffer n size s = .ok none t := by
  by_cases hsize : remaining buffer s < 8
  · exact ⟨_, parseEntities_short ⟨h, hsize⟩⟩
  · have hdeclared : declared buffer s = .ofNat vs.length :=
      declared_of_cut hpre (Nat.not_lt.mp hsize)
    have hnat : (declared buffer s).toNat = vs.length := by
      rw [hdeclared]
      exact toNat_ofNat_of_le hmax
    have hne : declared buffer s ≠ 0 := by
      intro hzero
      rw [hzero] at hnat
      have hzero' : vs.length = 0 := hnat.symm
      omega
    have hwraps := not_wraps_of_le (behind_size h hsize).1 (hnat.symm ▸ hmax)
    have hcount := parseCount_eq h n
    rw [if_neg hsize, if_neg hne, if_neg hwraps, if_pos (by omega)] at hcount
    exact ⟨_, bind_eq_of_ok hcount⟩

namespace RoundPackage

def trustedCount (p : RoundPackage) : Nat :=
  p.poolMetaInfo.realTrustedMask.countP fun it => it ≠ kUntrustedMarker

/-- A package with the sizes that `fromBinary` accepts. -/
structure Legal (p : RoundPackage) : Prop where
  confidants_ne_nil : p.roundTable.confidants ≠ []
  confidants_le : p.roundTable.confidants.length ≤ Consensus.maxTrustedNodes
  mask_le : p.poolMetaInfo.realTrustedMask.length ≤ Consensus.maxTrustedNodes
  trusted : 0 < p.trustedCount
  hashes_le : p.roundTable.hashes.length ≤ Consensus.maxStageOneHashes * 2
  timestamp_le : p.poolMetaInfo.timestamp.length ≤ 20
  characteristic_le : p.poolMetaInfo.mask.length ≤ 1000000
  round_eq : p.roundTable.round = p.poolMetaInfo.sequenceNumber + 1
  roundSignatures_eq : p.roundSignatures.length = p.trustedCount
  poolSignatures_eq : p.poolSignatures.length = p.trustedCount
  trustedSignatures_eq : p.trustedSignatures.length = p.trustedCount

theorem Legal.toNat_trustedSize (h : p.Legal) :
    (trustedSize p.poolMetaInfo.realTrustedMask).toNat = p.trustedCount := by
  have hsplit : p.poolMetaInfo.realTrustedMask.length =
      p.poolMetaInfo.realTrustedMask.count kUntrustedMarker + p.trustedCount := by
    have hcountP := length_eq_countP_add_countP (fun it : UInt8 => it == kUntrustedMarker)
      (l := p.poolMetaInfo.realTrustedMask)
    simpa [trustedCount, count] using hcountP
  have hle : p.trustedCount ≤ Consensus.maxTrustedNodes := countP_le_length.trans h.mask_le
  grind [trustedSize, Consensus.maxTrustedNodes, UInt8.toNat_ofNat_of_lt']

theorem Legal.trustedSize_ne_zero (h : p.Legal) :
    trustedSize p.poolMetaInfo.realTrustedMask ≠ 0 := by
  intro hzero
  have hnat := h.toNat_trustedSize
  have hpos := h.trusted
  rw [hzero] at hnat
  exact absurd hnat.symm (Nat.ne_of_gt hpos)

def pieces (buffer : Buffer) (p : RoundPackage) : List Piece :=
  [⟨.confidants buffer, putArrays p.roundTable.confidants, setConfidants p.roundTable.confidants,
      fun n => n < 8 + p.roundTable.confidants.length⟩,
    ⟨.realTrustedMask buffer, Entity.addVector p.poolMetaInfo.realTrustedMask,
      setRealTrustedMask p.poolMetaInfo.realTrustedMask, fun n => n < 8 ∧ p.roundTable.round ≠ 1⟩,
    ⟨.subRound buffer, [p.subRound], setSubRound p.subRound, fun _ => True⟩,
    ⟨.iteration buffer, [0], setIteration 0, fun _ => True⟩,
    ⟨.hashes buffer, putHashes p.roundTable.hashes, setHashes p.roundTable.hashes, fun n => n < 8⟩,
    ⟨.timestamp buffer, Entity.addVector p.poolMetaInfo.timestamp,
      setTimestamp p.poolMetaInfo.timestamp, fun n => n < 8⟩,
    ⟨.characteristic buffer, Entity.addVector p.poolMetaInfo.mask,
      setCharacteristic p.poolMetaInfo.mask, fun n => n < 8⟩,
    ⟨.sequenceNumber buffer, putU64 p.poolMetaInfo.sequenceNumber,
      setSequenceNumber p.poolMetaInfo.sequenceNumber, fun _ => True⟩,
    ⟨.previousHash buffer, putHash p.poolMetaInfo.previousHash,
      setPreviousHash p.poolMetaInfo.previousHash, fun n => n < 8⟩,
    ⟨.roundSignatures buffer, putArrays p.roundSignatures, updateRoundSignatures p.roundSignatures,
      fun n => n < 8 + p.roundSignatures.length⟩,
    ⟨.poolSignatures buffer, putArrays p.poolSignatures, updatePoolSignatures p.poolSignatures,
      fun n => n < 8 + p.poolSignatures.length⟩,
    ⟨.trustedSignatures buffer, putArrays p.trustedSignatures,
      updateTrustedSignatures p.trustedSignatures, fun n => n < 8 + p.trustedSignatures.length⟩]

/-- If the bytes end after `n` of them, the package is refused: the field that they end in has no
size left, or it is a vector of arrays with fewer bytes than arrays. -/
def Caught (p : RoundPackage) (n : Nat) : Prop :=
  CutAt (fun piece => piece.bytes.length) Piece.caught (p.pieces ⟨[], Nat.zero_le _⟩) n

def start (sequenceNumber : Sequence) (p : RoundPackage) : RoundPackage :=
  { RoundPackage.new sequenceNumber with roundTable.round := p.roundTable.round }

theorem Legal.encoding_eq (h : p.Legal) (buffer : Buffer) :
    p.encoding = bytesOf (p.pieces buffer) := by
  have hsigned : p.roundSignatures.length > 0 ∧ p.poolSignatures.length > 0 ∧
      p.trustedSignatures.length > 0 := by
    rw [h.roundSignatures_eq, h.poolSignatures_eq, h.trustedSignatures_eq]
    exact ⟨h.trusted, h.trusted, h.trusted⟩
  unfold encoding signatures toSign bytesOf pieces
  rw [if_pos hsigned]
  simp only [flatMap_cons, flatMap_nil, append_assoc, append_nil]

variable {signatures : List Signature} {q : RoundPackage}

theorem Legal.max_signatures (h : p.Legal)
    (hlength : signatures.length = p.trustedCount) : signatures.length ≤ ptrdiffMax / 64 := by
  have hle : p.trustedCount ≤ Consensus.maxTrustedNodes := countP_le_length.trans h.mask_le
  rw [hlength]
  exact hle.trans (by decide)

theorem Legal.takes_signatures (h : p.Legal) (hlength : signatures.length = p.trustedCount) :
    Takes buffer (parseArrays buffer 64 sizeofSignature) (putArrays signatures)
      (· = some signatures) := by
  have hne : signatures ≠ [] := by
    rintro rfl
    exact absurd hlength (Nat.ne_of_lt h.trusted)
  exact takes_parseArrays toNat_sizeofSignature hne (h.max_signatures hlength)

theorem Legal.isTrustedSize (h : p.Legal)
    (hmask : q.poolMetaInfo.realTrustedMask = p.poolMetaInfo.realTrustedMask)
    (hlength : signatures.length = p.trustedCount) : Step.isTrustedSize q signatures = true := by
  unfold Step.isTrustedSize
  rw [hmask, h.toNat_trustedSize, hlength]
  exact decide_eq_true rfl

theorem not_decide_gt {m n : Nat} (h : m ≤ n) : (!decide (m > n)) = true := by
  rw [Bool.not_eq_true', decide_eq_false_iff_not]
  exact Nat.not_lt.mpr h

theorem takes_set {α : Type} {m : Parse α} {bytes : Bytes} {a : α}
    (set : α → RoundPackage) (hm : Takes buffer m bytes (· = a)) (hset : set a = q) :
    Takes buffer (m >>= fun a => pure (set a)) bytes (· = q) :=
  hm.map fun _ ha => ha ▸ hset

section Chain

variable (h : p.Legal) (q : RoundPackage)

include h

theorem Legal.takes_confidants :
    Takes buffer ((Step.confidants buffer).read q) (putArrays p.roundTable.confidants)
      (· = setConfidants p.roundTable.confidants q) := by
  have hmax : p.roundTable.confidants.length ≤ ptrdiffMax / 32 := h.confidants_le.trans (by decide)
  exact takes_set _ (takes_parseArrays toNat_sizeofKey h.confidants_ne_nil hmax) rfl

theorem Legal.isLegal_confidants :
    (Step.confidants buffer).isLegal (setConfidants p.roundTable.confidants q) = true := by
  have hempty : p.roundTable.confidants.isEmpty = false := by
    rw [← Bool.not_eq_true, List.isEmpty_iff]
    exact h.confidants_ne_nil
  show (!(p.roundTable.confidants.isEmpty || decide (_ > _))) = true
  rw [hempty, Bool.false_or]
  exact not_decide_gt h.confidants_le

theorem Legal.takes_hashes (hq : q.roundTable.hashes = []) :
    Takes buffer ((Step.hashes buffer).read q) (putHashes p.roundTable.hashes)
      (· = setHashes p.roundTable.hashes q) := by
  refine (takes_parseHashes _ h.hashes_le).map fun entities hentities => ?_
  rw [hq, hentities]

theorem Legal.isLegal_sequenceNumber (hq : q.roundTable.round = p.roundTable.round) :
    (Step.sequenceNumber buffer).isLegal (setSequenceNumber p.poolMetaInfo.sequenceNumber q)
      = true := by
  show (!decide (p.poolMetaInfo.sequenceNumber ≠ q.roundTable.round - 1)) = true
  rw [hq, h.round_eq, UInt64.add_sub_cancel]
  simp

omit h in
theorem takes_previousHash (hq : q.poolMetaInfo.previousHash = none) :
    Takes buffer ((Step.previousHash buffer).read q) (putHash p.poolMetaInfo.previousHash)
      (· = setPreviousHash p.poolMetaInfo.previousHash q) := by
  show Takes buffer (parseHash buffer q.poolMetaInfo.previousHash >>= _) _ _
  rw [hq]
  exact takes_set _ (takes_parseHash _) rfl

theorem Legal.chain_signatures
    (hq : q.poolMetaInfo.realTrustedMask = p.poolMetaInfo.realTrustedMask) :
    Chain buffer ((p.pieces buffer).drop 9) q :=
  ⟨takes_set _ (h.takes_signatures h.roundSignatures_eq) rfl,
    h.isTrustedSize hq h.roundSignatures_eq,
    takes_set _ (h.takes_signatures h.poolSignatures_eq) rfl,
      h.isTrustedSize hq h.poolSignatures_eq,
    takes_set _ (h.takes_signatures h.trustedSignatures_eq) rfl,
    h.isTrustedSize hq h.trustedSignatures_eq, trivial⟩

theorem Legal.chain_info (hround : q.roundTable.round = p.roundTable.round)
    (hmask : q.poolMetaInfo.realTrustedMask = p.poolMetaInfo.realTrustedMask)
    (hhashes : q.roundTable.hashes = []) (hhash : q.poolMetaInfo.previousHash = none) :
    Chain buffer ((p.pieces buffer).drop 4) q :=
  ⟨h.takes_hashes q hhashes, not_decide_gt h.hashes_le,
    takes_set _ (takes_parseString _) rfl, not_decide_gt h.timestamp_le,
    takes_set _ (takes_parseVector _) rfl, not_decide_gt h.characteristic_le,
    takes_set _ (takes_parseSize _) rfl, h.isLegal_sequenceNumber _ hround,
    takes_previousHash _ hhash, rfl, h.chain_signatures _ hmask⟩

theorem Legal.chain (sequenceNumber : Sequence) :
    Chain buffer (p.pieces buffer) (p.start sequenceNumber) :=
  ⟨h.takes_confidants _, h.isLegal_confidants _, takes_set _ (takes_parseVector _) rfl, rfl,
    takes_set _ (takes_parseByte _) rfl, rfl, takes_set _ (takes_parseByte _) rfl,
    not_decide_gt h.mask_le, h.chain_info _ rfl rfl rfl rfl⟩

end Chain

section Stops

variable (h : p.Legal) (q : RoundPackage)

include h

theorem Legal.not_isTrustedSize
    (hq : q.poolMetaInfo.realTrustedMask = p.poolMetaInfo.realTrustedMask)
    {signatures : List Signature} (hnone : signatures = []) :
    Step.isTrustedSize q signatures = false := by
  unfold Step.isTrustedSize
  rw [hq, hnone]
  exact decide_eq_false fun hzero => h.trustedSize_ne_zero (UInt8.toNat.inj hzero)

section

variable (hmask : q.poolMetaInfo.realTrustedMask = p.poolMetaInfo.realTrustedMask)
  (hround : q.roundSignatures = []) (hpool : q.poolSignatures = [])
include hmask hround hpool

theorem Legal.stops_signatures
    (htrusted : q.trustedSignatures = []) : Stops buffer ((p.pieces buffer).drop 9) q := by
  have hnone : ∀ {signatures : List Signature} {s : DataStream}, signatures.length =
      p.trustedCount → InBounds buffer s → left buffer s <+: putArrays signatures →
      remaining buffer s < 8 + signatures.length →
      ∃ t, parseArrays buffer 64 sizeofSignature s = .ok none t := fun hlength hs hpre hfew =>
    parseArrays_none ((h.max_signatures hlength).trans (Nat.div_le_self _ _)) hs hpre hfew
  refine ⟨fun s hs hpre _ hfew => ?_, fun s hs hpre _ hfew => ?_, fun s hs hpre _ hfew => ?_,
    trivial⟩
  · obtain ⟨t, hread⟩ := hnone h.roundSignatures_eq hs hpre hfew
    exact rejected_of_illegal (bind_eq_of_ok hread) (h.not_isTrustedSize _ hmask hround)
  · obtain ⟨t, hread⟩ := hnone h.poolSignatures_eq hs hpre hfew
    exact rejected_of_illegal (bind_eq_of_ok hread) (h.not_isTrustedSize _ hmask hpool)
  · obtain ⟨t, hread⟩ := hnone h.trustedSignatures_eq hs hpre hfew
    exact rejected_of_illegal (bind_eq_of_ok hread) (h.not_isTrustedSize _ hmask htrusted)

theorem Legal.stops_info
    (htrusted : q.trustedSignatures = []) : Stops buffer ((p.pieces buffer).drop 2) q := by
  have hne : trustedSize q.poolMetaInfo.realTrustedMask ≠ 0 := hmask ▸ h.trustedSize_ne_zero
  refine ⟨fun s hs _ hlt _ => ?_, fun s hs _ hlt _ => ?_, fun s hs _ _ hfew => ?_,
    fun s hs _ _ hfew => ?_, fun s hs _ _ hfew => ?_, fun s hs _ hlt _ => ?_,
      fun s hs _ _ hfew => ?_, h.stops_signatures _ hmask hround hpool htrusted⟩
  · have hlt' : remaining buffer s < 1 := hlt
    exact rejected_unsigned 0 _ ⟨hs, by omega⟩ hround hne
  · have hlt' : remaining buffer s < 1 := hlt
    exact rejected_unsigned 1 _ ⟨hs, by omega⟩ hround hne
  · exact rejected_unsigned 2 _ ⟨hs, hfew⟩ hround hne
  · exact rejected_unsigned 3 _ ⟨hs, hfew⟩ hround hne
  · exact rejected_unsigned 4 _ ⟨hs, hfew⟩ hround hne
  · exact rejected_unsigned 5 _ ⟨hs, hlt⟩ hround hne
  · exact rejected_unsigned 6 _ ⟨hs, hfew⟩ hround hne

end

theorem Legal.stops (sequenceNumber : Sequence) :
    Stops buffer (p.pieces buffer) (p.start sequenceNumber) := by
  refine ⟨fun s hs hpre _ hfew => ?_, fun s hs _ _ hcaught => ?_, h.stops_info _ rfl rfl rfl rfl⟩
  · have hmax : p.roundTable.confidants.length ≤ ptrdiffMax := h.confidants_le.trans (by decide)
    obtain ⟨t, hnone⟩ := Round.parseArrays_none hmax hs hpre hfew
    exact rejected_of_illegal (bind_eq_of_ok hnone) rfl
  · obtain ⟨hfew, hround⟩ := hcaught
    have hread : (Step.realTrustedMask buffer).read (setConfidants p.roundTable.confidants
        (p.start sequenceNumber)) s = .ok _ s.bad :=
      bind_eq_of_ok (parseContainer_of_lt hs hfew)
    refine rejected_of_rest hread ?_
    exact rejected_sequence _ ⟨hs, hfew⟩ hround

end Stops

theorem map_step_pieces (buffer : Buffer) (p : RoundPackage) :
    (p.pieces buffer).map Piece.step = steps buffer := rfl

theorem setAll_pieces (buffer : Buffer) (p : RoundPackage) (sequenceNumber : Sequence) :
    setAll (p.pieces buffer) (p.start sequenceNumber) =
      { p with binaryRepresentation := [], messageSize := 0, iteration := 0 } := by
  simp only [setAll, pieces, foldl_cons, foldl_nil, start, new, setConfidants,
    setRealTrustedMask, setSubRound, setIteration, setHashes, setTimestamp, setCharacteristic,
    setSequenceNumber, setPreviousHash, updateRoundSignatures, updatePoolSignatures,
    updateTrustedSignatures]

theorem cutAt_pieces (buffer : Buffer) (p : RoundPackage) (n : Nat) :
    CutAt (fun piece => piece.bytes.length) Piece.caught (p.pieces buffer) n ↔ p.Caught n := by
  simp only [Caught, pieces, CutAt]

theorem fromBinary_of_rejected {sequenceNumber : Sequence}
    (h : Rejected (readSteps (steps buffer) (p.start sequenceNumber)) {}) :
    ∃ q, (new sequenceNumber).fromBinary buffer p.roundTable.round p.subRound =
      .ok (false, q) := by
  obtain ⟨q, t, hrun⟩ := h
  unfold start at hrun
  refine ⟨q, ?_⟩
  unfold fromBinary
  rw [hrun]

theorem fromBinary_of_ok {sequenceNumber : Sequence}
    (h : readSteps (steps buffer) (p.start sequenceNumber) {} = .ok (true, q) t) :
    (new sequenceNumber).fromBinary buffer p.roundTable.round p.subRound =
      .ok (true, q.setSubRound p.subRound) := by
  unfold start at h
  unfold fromBinary
  rw [h]

/-- A new package reads the bytes of a package as that package. It refuses the bytes if they end
where there is no size left of a field, or fewer bytes of a vector of arrays than arrays; for the
trusted mask, this takes another round than the first. -/
theorem roundPackage_roundTrip (p : RoundPackage) (hlegal : p.Legal) (hcurrent : p.Current)
    (buffer : Buffer) (hbuffer : buffer.data = p.toBinary.1) (sequenceNumber : Sequence) :
    (∃ q, (RoundPackage.new sequenceNumber).fromBinary buffer p.roundTable.round p.subRound =
        .ok (true, q) ∧
      q.roundTable = p.roundTable ∧ q.poolMetaInfo = p.poolMetaInfo ∧
      q.roundSignatures = p.roundSignatures ∧ q.poolSignatures = p.poolSignatures ∧
      q.trustedSignatures = p.trustedSignatures) ∧
    ∀ n < buffer.data.length, p.Caught n →
      ∃ q, (RoundPackage.new sequenceNumber).fromBinary (buffer.truncated n) p.roundTable.round
        p.subRound = .ok (false, q) := by
  rw [p.toBinary_eq_encoding_iff.mpr hcurrent] at hbuffer
  refine ⟨?_, fun n hn hcaught => fromBinary_of_rejected ?_⟩
  · have hpre : bytesOf (p.pieces buffer) <+: left buffer {} := by
      rw [← hlegal.encoding_eq buffer, ← hbuffer]
      exact prefix_rfl
    have hrun := readSteps_behind [] (hlegal.chain sequenceNumber) inBounds_start hpre
    rw [append_nil, map_step_pieces, setAll_pieces] at hrun
    exact ⟨_, fromBinary_of_ok hrun, rfl, rfl, rfl, rfl, rfl⟩
  · have hlength : (buffer.data.take n).length = n := length_take_of_le hn.le
    have hbytes : buffer.data = bytesOf (p.pieces (buffer.truncated n)) :=
      hbuffer.trans (hlegal.encoding_eq _)
    have hremaining : remaining (buffer.truncated n) {} = n := hlength
    refine rejected_of_cut (hlegal.chain sequenceNumber) (hlegal.stops sequenceNumber)
      inBounds_start ?_ ?_ ?_
    · rw [← hbytes]
      exact take_prefix _ _
    · rw [hremaining, ← hbytes]
      exact hn
    · rw [hremaining, cutAt_pieces]
      exact hcaught

def demoPackage : RoundPackage where
  roundTable := { round := 2, confidants := [zeroArray 32] }
  poolMetaInfo := { sequenceNumber := 1, realTrustedMask := [0] }
  roundSignatures := [zeroArray 64]
  poolSignatures := [zeroArray 64]
  trustedSignatures := [zeroArray 64]

theorem legal_demoPackage : demoPackage.Legal := by
  constructor <;> decide

theorem length_demoPackage : demoPackage.encoding.length = 307 := by decide +kernel

theorem small_demoPackage : demoPackage.encoding.length ≤ ptrdiffMax :=
  length_demoPackage.trans_le (by decide)

def packageBuffer : Buffer := ⟨demoPackage.encoding, small_demoPackage⟩

theorem data_packageBuffer : packageBuffer.data = demoPackage.toBinary.1 :=
  (demoPackage.toBinary_eq_encoding_iff.mpr (.inl rfl)).symm

theorem roundPackage_roundTrip_demoPackage :
    demoPackage.Legal ∧ demoPackage.Current ∧ packageBuffer.data = demoPackage.toBinary.1 ∧
      (∃ q, (RoundPackage.new 0).fromBinary packageBuffer demoPackage.roundTable.round
        demoPackage.subRound = .ok (true, q) ∧ q.roundTable = demoPackage.roundTable) ∧
      ∃ q, (RoundPackage.new 0).fromBinary (packageBuffer.truncated 5) demoPackage.roundTable.round
        demoPackage.subRound = .ok (false, q) := by
  have hcurrent : demoPackage.Current := .inl rfl
  obtain ⟨⟨q, hq, htable, -⟩, hcut⟩ := roundPackage_roundTrip demoPackage legal_demoPackage hcurrent
    packageBuffer data_packageBuffer 0
  have hlength : 5 < packageBuffer.data.length := by
    show 5 < demoPackage.encoding.length
    rw [length_demoPackage]
    decide
  have hfirst : 5 < (putArrays demoPackage.roundTable.confidants).length := by decide
  have hcaught : demoPackage.Caught 5 := by
    unfold Caught pieces CutAt
    rw [if_pos hfirst]
    decide
  exact ⟨legal_demoPackage, hcurrent, data_packageBuffer, ⟨q, hq, htable⟩, hcut 5 hlength hcaught⟩

/-- The bytes without the last one are accepted. -/
theorem fromBinary_without_last_byte :
    demoPackage.Legal ∧ demoPackage.Current ∧ packageBuffer.data = demoPackage.toBinary.1 ∧
      ∃ n < packageBuffer.data.length, ∃ q,
        (RoundPackage.new 0).fromBinary (packageBuffer.truncated n) demoPackage.roundTable.round
          demoPackage.subRound = .ok (true, q) := by
  have hlength : packageBuffer.data.length = 307 := length_demoPackage
  have haccepted : ((new 0).fromBinary (packageBuffer.truncated 306)
      demoPackage.roundTable.round demoPackage.subRound).toOption.map Prod.fst =
        some true := by decide +kernel
  refine ⟨legal_demoPackage, .inl rfl, data_packageBuffer, 306, by omega, ?_⟩
  cases hread : (new 0).fromBinary (packageBuffer.truncated 306)
      demoPackage.roundTable.round demoPackage.subRound with
  | error e =>
    rw [hread] at haccepted
    cases haccepted
  | ok result =>
    rw [hread] at haccepted
    exact ⟨result.2, congrArg Except.ok (Prod.ext (Option.some.inj haccepted) rfl)⟩

end RoundPackage

end CreditsNode.Round
