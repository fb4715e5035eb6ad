import CreditsNode.Csdb.Proofs.SealedPoolProofs

/-!
# The hash of a pool covers what is signed

`put` is run twice over a pool: with `doHash` for the bytes that are signed, and without it for the
stored encoding, where the length of the hashed part stands behind it. `get_hashed_data` finds this
length again by parsing, so `hash_from_binary` and `from_binary` come to the hash that `compose`
took, as long as the parser meets the counts it expects.
-/

namespace CreditsNode.Pool

open ByteCodec List

variable (crypto : Crypto)

theorem putHashed_updateTransactions (p : Pool) :
    (p.updateTransactions crypto).putHashed = p.putHashed := by
  have hput : (p.transactions.mapIdx fun idx t =>
      t.updateId p.sequence (UInt64.ofNat idx)).flatMap Transaction.put =
        p.transactions.flatMap Transaction.put := by
    refine congrArg flatten (ext_getElem (by simp) fun i h₁ h₂ => ?_)
    simp only [getElem_map, getElem_mapIdx]
    rfl
  simp only [putHashed, putMeta, updateTransactions, updateHash, length_mapIdx, hput]

section Compose

variable {q : Pool} (hvalid : q.isValid = true) (hopen : q.readOnly = false)
include hvalid hopen

theorem toByteStreamForSig_compose : (q.compose crypto).toByteStreamForSig = q.putHashed := by
  rw [compose_eq crypto hvalid hopen]
  exact putHashed_updateTransactions crypto q.updateBinaryRepresentation

theorem toBinary_compose : (q.compose crypto).toBinary = q.put := by
  rw [compose_eq crypto hvalid hopen]
  rfl

theorem hashingLength_compose :
    (q.compose crypto).hashingLength = UInt64.ofNat q.putHashed.length := by
  rw [compose_eq crypto hvalid hopen]
  rfl

theorem hash_compose : (q.compose crypto).hash crypto =
    some (crypto.calculateHash (q.put.take (UInt64.ofNat q.putHashed.length).toNat)) := by
  rw [compose_eq crypto hvalid hopen]
  rfl

end Compose

theorem length_putHashed_le (q : Pool) : q.putHashed.length ≤ q.put.length := by
  rw [put, length_append]
  omega

variable {q p : Pool}

theorem take_put (hsize : q.putHashed.length < 2 ^ 64) :
    q.put.take (UInt64.ofNat q.putHashed.length).toNat = q.putHashed := by
  have hlen : (UInt64.ofNat q.putHashed.length).toNat = q.putHashed.length := by
    exact Nat.mod_eq_of_lt hsize
  rw [hlen, put]
  exact take_left

theorem hashFromBinary_of_reads {data rest : Bytes} {r : Pool} (h : Reads getHashedData data r) :
    hashFromBinary crypto (data ++ rest) =
      some (crypto.calculateHash ((data ++ rest).take r.hashingLength.toNat)) := by
  simp only [hashFromBinary, h rest]
  rfl

theorem hashFromBinary_put (h : q.HashedFits) : hashFromBinary crypto q.put =
    some (crypto.calculateHash (q.put.take (UInt64.ofNat q.putHashed.length).toNat)) := by
  have hreads := reads_getHashedData h (UInt64.ofNat q.putHashed.length)
  have hput : q.put = q.putHashed ++ putU64 (UInt64.ofNat q.putHashed.length) ++
      q.putSignatures := by
    rw [put, append_assoc]
  rw [hput, hashFromBinary_of_reads crypto hreads]

/-- What `from_binary` needs beyond the hashed part. The number of smart signatures may be larger
than the byte it is stored in: the rest is left over. -/
structure SignaturesFit (p : Pool) : Prop where
  signatures : p.signatures.length = popcount p.realTrusted
  smartSignatures : ∀ s ∈ p.smartSignatures, s.signatures.length ≤ 255

theorem getSmartSignatures_put (h : p.SignaturesFit) :
    ∃ n rest, getSmartSignatures (putU8 (UInt8.ofNat p.smartSignatures.length) ++
      p.smartSignatures.flatMap SmartSignature.put) = some (p.smartSignatures.take n, rest) := by
  have hle := Nat.mod_le p.smartSignatures.length (2 ^ 8)
  generalize hn : p.smartSignatures.length % 2 ^ 8 = n at hle
  have hcount : (UInt8.ofNat p.smartSignatures.length).toNat =
      (p.smartSignatures.take n).length := by
    rw [UInt8.toNat_ofNat', length_take, hn, Nat.min_eq_left hle]
  have hmany := reads_getMany (p.smartSignatures.take n) fun s hs =>
    SmartSignature.reads_get (h.smartSignatures s (mem_of_mem_take hs))
  rw [← hcount] at hmany
  have hsplit : p.smartSignatures.flatMap SmartSignature.put =
      (p.smartSignatures.take n).flatMap SmartSignature.put ++
        (p.smartSignatures.drop n).flatMap SmartSignature.put := by
    rw [← flatMap_append, take_append_drop]
  refine ⟨n, (p.smartSignatures.drop n).flatMap SmartSignature.put, ?_⟩
  rw [hsplit, ← append_assoc]
  exact (reads_getU8 _).bind hmany _

theorem exists_get_put (h : p.HashedFits) (hsig : p.SignaturesFit) :
    ∃ r rest, get p.put = some (r, rest) ∧ r.hashingLength = UInt64.ofNat p.putHashed.length := by
  obtain ⟨n, rest, hsmart⟩ := getSmartSignatures_put hsig
  refine ⟨{ p.decoded with smartSignatures := p.smartSignatures.take n }, rest, ?_, rfl⟩
  rw [put, putSignatures, ← append_assoc, get, (reads_getHashedData h _).bind_apply]
  refine ((reads_getSignatures hsig.signatures).bind_apply _ _).trans ?_
  refine (congrArg (Option.bind · _) hsmart).trans ?_
  rfl

theorem hash_fromBinary_put (h : p.HashedFits) (hsig : p.SignaturesFit) :
    (fromBinary crypto p.put).hash crypto =
      some (crypto.calculateHash (p.put.take (UInt64.ofNat p.putHashed.length).toNat)) := by
  obtain ⟨r, rest, hget, hlen⟩ := exists_get_put h hsig
  simp only [fromBinary, hget, ← hlen]
  rfl

theorem HashedFits.of_compose (hvalid : q.isValid = true) (hopen : q.readOnly = false)
    (h : (q.compose crypto).HashedFits) : q.HashedFits := by
  rw [compose_eq crypto hvalid hopen] at h
  have hlen := length_updateTransactions crypto q.updateBinaryRepresentation
  exact { h with
    transactions :=
      (forall_updateTransactions crypto q.updateBinaryRepresentation).mp h.transactions
    transactions_size := hlen ▸ h.transactions_size }

theorem SignaturesFit.of_compose (hvalid : q.isValid = true) (hopen : q.readOnly = false)
    (h : (q.compose crypto).SignaturesFit) : q.SignaturesFit := by
  rw [compose_eq crypto hvalid hopen] at h
  exact ⟨h.signatures, h.smartSignatures⟩

/-- The hash of a composed pool covers what is signed: the signed bytes are the first
`hashingLength` bytes of the encoding, the hash is theirs, and the signatures are not among them,
so neither depends on them. When the counts of the hashed part fit, `hash_from_binary` computes the
same hash from the encoding; when those of the signatures fit too, so does `from_binary`. The
encoding is a `std::vector`, so its length is a `size_t`. -/
theorem hash_covers_signed_part {q : Pool} (hvalid : q.isValid = true) (hopen : q.readOnly = false)
    (hsize : (q.compose crypto).toBinary.length < 2 ^ 64) :
    (q.compose crypto).toByteStreamForSig =
      (q.compose crypto).toBinary.take (q.compose crypto).hashingLength.toNat ∧
    (q.compose crypto).hash crypto =
      some (crypto.calculateHash (q.compose crypto).toByteStreamForSig) ∧
    (∀ signatures smartSignatures,
      ({ q with signatures, smartSignatures }.compose crypto).toByteStreamForSig =
          (q.compose crypto).toByteStreamForSig ∧
        ({ q with signatures, smartSignatures }.compose crypto).hash crypto =
          (q.compose crypto).hash crypto) ∧
    (∀ signatures, (q.compose crypto).setSignatures signatures = q.compose crypto) ∧
    (∀ s, ((q.compose crypto).addSmartSignature s).toByteStreamForSig =
          (q.compose crypto).toByteStreamForSig ∧
        ((q.compose crypto).addSmartSignature s).hash crypto = (q.compose crypto).hash crypto) ∧
    ((q.compose crypto).HashedFits →
      hashFromBinary crypto (q.compose crypto).toBinary = (q.compose crypto).hash crypto) ∧
    ((q.compose crypto).HashedFits → (q.compose crypto).SignaturesFit →
      (fromBinary crypto (q.compose crypto).toBinary).hash crypto =
        (q.compose crypto).hash crypto) := by
  rw [toBinary_compose crypto hvalid hopen] at hsize
  replace hsize := q.length_putHashed_le.trans_lt hsize
  have hstream := toByteStreamForSig_compose crypto hvalid hopen
  have hhash := hash_compose crypto hvalid hopen
  refine ⟨?_, ?_, fun signatures smartSignatures => ⟨?_, ?_⟩, fun signatures => ?_,
    fun s => ⟨rfl, rfl⟩, fun hfits => ?_, fun hfits hsig => ?_⟩
  · rw [hstream, toBinary_compose crypto hvalid hopen, hashingLength_compose crypto hvalid hopen,
      take_put hsize]
  · rw [hhash, hstream, take_put hsize]
  · rw [hstream]
    exact toByteStreamForSig_compose crypto
      (q := { q with signatures, smartSignatures }) hvalid hopen
  · rw [hhash, hash_compose crypto (q := { q with signatures, smartSignatures }) hvalid hopen,
      take_put hsize, take_put (q := { q with signatures, smartSignatures }) hsize]
    rfl
  · rw [setSignatures, assign, if_pos (readOnly_compose hvalid)]
  · rw [toBinary_compose crypto hvalid hopen, hhash]
    exact hashFromBinary_put crypto (hfits.of_compose crypto hvalid hopen)
  · rw [toBinary_compose crypto hvalid hopen, hhash]
    exact hash_fromBinary_put crypto (hfits.of_compose crypto hvalid hopen)
      (hsig.of_compose crypto hvalid hopen)

theorem hash_covers_signed_part_filled :
    let q := signedBlock
    (q.compose .zero).Fits ∧
      (q.compose .zero).toByteStreamForSig =
        (q.compose .zero).toBinary.take (q.compose .zero).hashingLength.toNat ∧
      (q.compose .zero).hash .zero = some (zeroArray 32) ∧
      hashFromBinary .zero (q.compose .zero).toBinary = (q.compose .zero).hash .zero ∧
      (fromBinary .zero (q.compose .zero).toBinary).hash .zero = (q.compose .zero).hash .zero := by
  intro q
  have hfits : (q.compose .zero).Fits := (fits_compose Crypto.zero rfl rfl).mpr fits_signedBlock
  have hsize : (q.compose .zero).toBinary.length < 2 ^ 64 := by
    decide +kernel
  obtain ⟨hstream, hhash, -, -, -, hback, hread⟩ :=
    hash_covers_signed_part Crypto.zero rfl rfl hsize
  exact ⟨hfits, hstream, hhash, hback hfits.hashed,
    hread hfits.hashed ⟨hfits.signatures, hfits.smartSignatures⟩⟩

/-- A library whose hash tells the empty byte string from the others. -/
def marking : Crypto where
  calculateHash data := List.Vector.replicate 32 (if data.isEmpty then 0 else 1)
  verifySignature _ _ _ := true

theorem marking_ne {data : Bytes} (h : data ≠ []) :
    marking.calculateHash [] ≠ marking.calculateHash data := by
  have hdata : data.isEmpty = false := by simpa using h
  simp only [marking, hdata]
  decide

theorem take_put_ne (h : q.putHashed.length % 2 ^ 64 ≠ 0) :
    q.put.take (q.putHashed.length % 2 ^ 64) ≠ [] := by
  grind [put, take_eq_nil_iff]

def HashMisread (q : Pool) : Prop :=
  hashFromBinary marking (q.compose marking).toBinary ≠ (q.compose marking).hash marking

theorem hashMisread_of_prefix {b : Pool} (hvalid : q.isValid = true) (hopen : q.readOnly = false)
    (hb : b.HashedFits) (hput : b.putHashed ++ putU64 0 <+: q.put)
    (hlen : q.putHashed.length % 2 ^ 64 ≠ 0) : HashMisread q := by
  obtain ⟨rest, hput⟩ := hput
  have hzero : hashFromBinary marking (b.putHashed ++ putU64 0 ++ rest) =
      some (marking.calculateHash []) :=
    hashFromBinary_of_reads marking (reads_getHashedData hb 0)
  grind [HashMisread, toBinary_compose, hash_compose, marking_ne, take_put_ne, UInt64.toNat_ofNat']

theorem putHashed_filled (fields : UserFields) (trxs : List Transaction)
    (wallets : List NewWalletInfo) : (filled fields trxs wallets).putHashed =
      List.replicate 10 0 ++ (putUserFields fields ++ (List.replicate 12 0 ++
        (putU32 (UInt32.ofNat trxs.length) ++ (trxs.flatMap Transaction.put ++
          (putU32 (UInt32.ofNat wallets.length) ++ (wallets.flatMap NewWalletInfo.put ++
            List.replicate 18 0)))))) := by
  have hhead : putU8 0 ++ (PoolHash.put none ++ putU64 0) = replicate 10 0 := by decide
  have hcost : (0 : Amount).put = replicate 12 0 := by decide
  have htail : putU8 0 ++ (putU64 0 ++ (putU8 0 ++ putU64 0)) = replicate 18 0 := by decide
  rw [← hhead, ← hcost, ← htail]
  simp [putHashed, putMeta, filled, new]

theorem length_putHashed_filled (fields : UserFields) (trxs : List Transaction)
    (wallets : List NewWalletInfo) : (filled fields trxs wallets).putHashed.length =
      48 + (putUserFields fields).length + (trxs.flatMap Transaction.put).length +
        (wallets.flatMap NewWalletInfo.put).length := by
  rw [putHashed_filled]
  simp only [length_append, length_replicate, putU32, length_leBytes]
  omega

theorem hashedFits_filled (fields : UserFields) (hsize : fields.size ≤ 255)
    (hfields : ∀ e ∈ fields.entries, e.2.Fits) : (filled fields [] []).HashedFits where
  confidants := rfl
  confirmations := show 0 = popcount 0 by decide
  userFields_size := hsize
  userFields := hfields
  transactions := nofun
  transactions_size := Nat.two_pow_pos 32
  newWallets_size := Nat.two_pow_pos 32

theorem putHashed_empty (fields : UserFields) : (filled fields [] []).putHashed ++ putU64 0 =
    List.replicate 10 0 ++ (putUserFields fields ++ List.replicate 46 0) := by
  have hzero : replicate 46 (0 : UInt8) = replicate 12 0 ++ (putU32 0 ++ (putU32 0 ++
    (replicate 18 0 ++ putU64 0))) := by decide
  rw [putHashed_filled, hzero]
  simp

/-- Counts that wrap to zero are misread when zeros follow. -/
theorem hashMisread_filled (fields₀ : UserFields) {fields : UserFields} {trxs : List Transaction}
    {wallets : List NewWalletInfo} (hsize : fields₀.size ≤ 255)
    (hfits : ∀ e ∈ fields₀.entries, e.2.Fits)
    (hput : putUserFields fields₀ ++ List.replicate 46 0 <+: putUserFields fields ++
      (List.replicate 12 0 ++ (putU32 (UInt32.ofNat trxs.length) ++
        (trxs.flatMap Transaction.put ++ (putU32 (UInt32.ofNat wallets.length) ++
          (wallets.flatMap NewWalletInfo.put ++ List.replicate 18 0))))))
    (hlen : (filled fields trxs wallets).putHashed.length < 2 ^ 64) :
    HashMisread (filled fields trxs wallets) := by
  refine hashMisread_of_prefix rfl rfl (hashedFits_filled fields₀ hsize hfits) ?_ ?_
  · grind [putHashed_empty, put, putHashed_filled, prefix_append_right_inj]
  · rw [Nat.mod_eq_of_lt hlen, length_putHashed_filled]
    omega

theorem hashMisread_zeros {trxs : List Transaction} {wallets : List NewWalletInfo} {a b : Nat}
    (htrxs : UInt32.ofNat trxs.length = 0) (hwallets : UInt32.ofNat wallets.length = 0)
    (ha : trxs.flatMap Transaction.put = List.replicate a 0)
    (hb : wallets.flatMap NewWalletInfo.put = List.replicate b 0) (hle : 8 ≤ a + b)
    (hlt : a + b < 2 ^ 40) : HashMisread (filled .empty trxs wallets) := by
  have hfields : (putUserFields .empty).length = 1 := by decide
  have hzero : putU32 0 = replicate 4 0 := by decide
  refine hashMisread_filled .empty (Nat.zero_le _) (nofun) ?_ ?_
  · rw [htrxs, hwallets, ha, hb, hzero, prefix_append_right_inj]
    simp only [replicate_append_replicate]
    grind
  · rw [length_putHashed_filled, ha, hb, hfields, length_replicate, length_replicate]
    omega

theorem flatMap_replicate_zeros {α : Type} {put : α → Bytes} {x : α} {k : Nat}
    (h : put x = List.replicate k 0) (n : Nat) :
    (List.replicate n x).flatMap put = List.replicate (n * k) 0 := by
  rw [flatMap_replicate, h, flatten_replicate_replicate]

theorem hashMisread_zeroString {n : Nat} (hn : UInt32.ofNat n = 0) (hle : 46 ≤ n)
    (hlt : n < 2 ^ 40) :
    HashMisread (zeroString n) := by
  obtain ⟨n, rfl⟩ := Nat.exists_eq_add_of_le' hle
  have hfields := Transaction.putUserFields_zeroString hn
  have hlen : (putUserFields (Transaction.zeroString 0).userFields).length = 10 := by decide
  refine hashMisread_filled (Transaction.zeroString 0).userFields (by decide)
    (by decide) ?_ ?_
  · rw [hfields, append_assoc, prefix_append_right_inj, Nat.add_comm,
      ← replicate_append_replicate, append_assoc]
    exact prefix_append _ _
  · rw [length_putHashed_filled, hfields, length_append, hlen, length_replicate]
    simp only [flatMap_nil, length_nil]
    omega

/-- One user field more than a byte counts. -/
def manyFields : UserFields where
  entries := (List.range 256).map fun i => (Int32.ofNat i, .string (List.replicate 46 0))
  sorted := by
    rw [List.pairwise_map]
    refine List.pairwise_lt_range.imp_of_mem fun {i j} _ hj hij => ?_
    have hj := List.mem_range.mp hj
    rw [Int32.lt_iff_toInt_lt, Int32.toInt_ofNat_of_lt (by omega),
      Int32.toInt_ofNat_of_lt (by omega)]
    omega

/-- A smart signature of ones, with `n` entries. If there are 256 of them, they are announced as
none and read as the smart signatures that follow. -/
def ones (n : Nat) : SmartSignature where
  smartKey := List.Vector.replicate 32 255
  smartConsensusPool := 0xFFFFFFFFFFFFFFFF
  signatures := List.replicate n (255, List.Vector.replicate 64 255)

theorem hash_fromBinary_ne (hvalid : q.isValid = true) (hopen : q.readOnly = false)
    (hget : get q.put = none) (hlen : q.putHashed.length % 2 ^ 64 ≠ 0) :
    (fromBinary marking (q.compose marking).toBinary).hash marking ≠
      (q.compose marking).hash marking := by
  rw [toBinary_compose marking hvalid hopen, hash_compose marking hvalid hopen, UInt64.toNat_ofNat']
  simp only [fromBinary, hget]
  exact fun h => marking_ne (take_put_ne hlen) (Option.some.inj h)

/-- A pool that gets a new mask after it has been composed. -/
def changed : Pool := ((filled .empty [] []).compose marking).addConfirmationMask 1

/-- The conditions of `hash_covers_signed_part` are needed. The hash is not read back from the
encoding of a pool with one confidant too few, one confirmation too few, 256 user fields, a string
of `2 ^ 32` bytes, `2 ^ 32` transactions or new wallets, or a transaction with an inner id of 48
bits. Where it is, but a signature is missing or a smart signature has 256 entries, `from_binary`
does not come to it. And a pool that is changed after it was composed is no longer signed as it is
stored. -/
theorem hash_covers_signed_part_fails :
    (∀ q ∈ [{ filled .empty [] [] with numberTrusted := 1 },
        { filled .empty [] [] with roundConfirmationMask := 1 }, filled manyFields [] [],
        zeroString (2 ^ 32), filled .empty (List.replicate (2 ^ 32) .new) [],
        filled .empty [] (List.replicate (2 ^ 32) ⟨0, .addressIsSource, 0⟩),
        filled .empty [{ Transaction.new with innerID := 2 ^ 47 }] []],
      q.isValid = true ∧ q.readOnly = false ∧ HashMisread q) ∧
    (∀ q ∈ [{ filled .empty [] [] with realTrusted := 1 },
        { filled .empty [] [] with smartSignatures := [ones 256, ones 0, ones 0] }],
      q.isValid = true ∧ q.readOnly = false ∧ q.HashedFits ∧
        (fromBinary marking (q.compose marking).toBinary).hash marking ≠
          (q.compose marking).hash marking) ∧
    changed.toByteStreamForSig ≠ changed.toBinary.take changed.hashingLength.toNat := by
  have hfits : (filled .empty [] []).HashedFits :=
    hashedFits_filled _ (Nat.zero_le _) nofun
  refine ⟨?_, ?_, by decide +kernel⟩
  · simp only [forall_mem_cons]
    refine ⟨⟨rfl, rfl, ?_⟩, ⟨rfl, rfl, ?_⟩, ⟨rfl, rfl, ?_⟩,
      ⟨rfl, rfl, hashMisread_zeroString (by decide) (by decide) (by decide)⟩, ⟨rfl, rfl, ?_⟩,
      ⟨rfl, rfl, ?_⟩, ⟨rfl, rfl, ?_⟩, forall_mem_nil _⟩
    · rw [HashMisread, toBinary_compose _ rfl rfl]
      decide +kernel
    · rw [HashMisread, toBinary_compose _ rfl rfl]
      decide +kernel
    · rw [HashMisread, toBinary_compose _ rfl rfl]
      decide +kernel
    · have hnew : Transaction.new.put = replicate 152 0 := by decide +kernel
      exact hashMisread_zeros (b := 0) (by rw [length_replicate]; rfl) rfl
        (flatMap_replicate_zeros hnew _) rfl (by decide) (by decide)
    · have hnew : NewWalletInfo.put ⟨0, .addressIsSource, 0⟩ = replicate 12 0 := by decide
      exact hashMisread_zeros (a := 0) rfl (by rw [length_replicate]; rfl) rfl
        (flatMap_replicate_zeros hnew _) (by decide) (by decide)
    · rw [HashMisread, toBinary_compose _ rfl rfl]
      decide +kernel
  · simp only [forall_mem_cons]
    refine ⟨⟨rfl, rfl, { hfits with }, hash_fromBinary_ne rfl rfl ?_ ?_⟩,
      ⟨rfl, rfl, { hfits with }, hash_fromBinary_ne rfl rfl ?_ ?_⟩, forall_mem_nil _⟩
    · decide +kernel
    · decide +kernel
    · decide +kernel
    · decide +kernel

end CreditsNode.Pool
