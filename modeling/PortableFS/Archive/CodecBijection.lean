import PortableFS.Archive.CodecRoundTrip

/-!
# Encode and Decode

`Validate` implies the bounds under which every reader is exact, and the predicted size is the length
of what is written. So `Encode` gives `b` for `m` exactly when `Decode` gives `m` for `b`. `Validate`
does not bound the encoded size, which both refuse above `MaxManifestBytes`.
-/

namespace PortableFS.Archive

open PortableFS.Base List

theorem unit_bind_eq_ok {β : Type} {a : Except String Unit} {f : Unit → Except String β} {b : β} :
    a >>= f = .ok b ↔ a = .ok () ∧ f () = .ok b := by
  rw [bind_eq_ok]
  constructor
  · rintro ⟨⟨⟩, ha, hf⟩
    exact ⟨ha, hf⟩
  · rintro ⟨ha, hf⟩
    exact ⟨(), ha, hf⟩

section Hash

variable {sha256 : List UInt8 → Digest} {m : Manifest}

theorem validate_eq_ok : validate sha256 m = .ok () ↔
      validateHeader m.header = .ok () ∧ m.entries.length ≠ 0 ∧ m.entries.length ≤ maxEntries ∧
        m.frames.length ≤ maxFrames ∧ validateFrames m = .ok () ∧
        validateEntries sha256 m = .ok () ∧ validateHardlinkGroups m = .ok () ∧
        validateTotals m = .ok () := by
  simp only [validate, unit_bind_eq_ok, require_eq_ok, decide_eq_true_eq]

theorem validateHeader_sized {header : Header} (h : validateHeader header = .ok ()) :
    header.Sized := by
  simp only [validateHeader, unit_bind_eq_ok, require_eq_ok, decide_eq_true_eq] at h
  obtain ⟨hversion, -, -, -, -, -, -, hpacks, -⟩ := h
  exact ⟨hversion, hpacks⟩

variable {index : ℕ}

private theorem validateXattrList_sized {position : ℕ} {previous : Option (List UInt8)}
    {xattrs : List Xattr} (h : validateXattrList index position previous xattrs = .ok ()) :
    ∀ xattr ∈ xattrs, xattr.Sized := by
  induction xattrs generalizing position previous with
  | nil => simp
  | cons xattr xattrs ih =>
    simp only [validateXattrList, unit_bind_eq_ok, require_eq_ok, decide_eq_true_eq] at h
    obtain ⟨hname, -, -, hvalue, -, hrest⟩ := h
    exact forall_mem_cons.mpr ⟨⟨hname.2, hvalue⟩, ih hrest⟩

variable {frames : List Frame} {chunkSize : UInt64}

private theorem validateChunkList_sized {size : UInt64} {chunkIndex : ℕ} {chunks : List ChunkRef}
    (h : validateChunkList sha256 frames size chunkSize index chunkIndex chunks = .ok ()) :
    ∀ chunk ∈ chunks, chunk.Sized := by
  induction chunks generalizing chunkIndex with
  | nil => simp
  | cons chunk chunks ih =>
    simp only [validateChunkList, validateChunk, unit_bind_eq_ok, require_eq_ok,
      decide_eq_true_eq] at h
    exact forall_mem_cons.mpr ⟨h.1.1, ih h.2⟩

variable {entry : Entry}

private theorem validateEntryShape_sized
    (h : validateEntryShape sha256 frames entry index chunkSize = .ok ()) :
    entry.linkName.length ≤ maxLinkNameBytes ∧ ∀ chunk ∈ entry.chunks, chunk.Sized := by
  unfold validateEntryShape at h
  split at h
  · simp only [unit_bind_eq_ok, require_eq_ok, decide_eq_true_eq] at h
    obtain ⟨⟨hlink, hchunks, -⟩, -⟩ := h
    rw [length_eq_zero_iff] at hchunks
    simp [hlink, hchunks]
  split at h
  · simp only [unit_bind_eq_ok, require_eq_ok, decide_eq_true_eq] at h
    obtain ⟨⟨-, hlink⟩, -, ⟨hchunks, -⟩, -⟩ := h
    rw [length_eq_zero_iff] at hchunks
    simp [hlink, hchunks]
  split at h
  · simp only [validateChunks, unit_bind_eq_ok, require_eq_ok, decide_eq_true_eq] at h
    obtain ⟨hlink, -, -, -, hchunks⟩ := h
    exact ⟨by simp [hlink], validateChunkList_sized hchunks⟩
  · cases h

variable {scan scan' : EntryScan} {entries : List Entry}

private theorem validatePlace_name (h : validatePlace entries index entry scan = .ok scan') :
    entry.name.length ≤ maxNameBytes ∧ scan'.chunkTotal = scan.chunkTotal := by
  unfold validatePlace at h
  split at h
  · simp only [require_bind_eq_ok, decide_eq_true_eq] at h
    obtain ⟨-, -, hname, hscan⟩ := h
    cases hscan
    exact ⟨by simp [hname], rfl⟩
  simp only [require_bind_eq_ok, decide_eq_true_eq] at h
  obtain ⟨-, -, -, h⟩ := h
  split at h
  · cases h
  next hvalid =>
  rw [require_bind_eq_ok] at h
  obtain ⟨-, hscan⟩ := h
  cases hscan
  refine ⟨?_, rfl⟩
  by_contra hlong
  unfold validateName at hvalid
  split at hvalid
  · cases hvalid
  · rw [if_pos (by omega)] at hvalid
    cases hvalid

private theorem validateEntry_sized (h : validateEntry sha256 m index entry scan = .ok scan') :
    (entry.Sized ∧ ∀ chunk ∈ entry.chunks, chunk.Sized) ∧
      scan'.chunkTotal = scan.chunkTotal + entry.chunks.length ∧ scan'.chunkTotal ≤ maxChunks := by
  unfold validateEntry at h
  obtain ⟨placed, hplace, h⟩ := bind_eq_ok.mp h
  obtain ⟨hname, htotal⟩ := validatePlace_name hplace
  simp only [unit_bind_eq_ok, require_eq_ok, decide_eq_true_eq, validateXattrs] at h
  obtain ⟨-, -, ⟨hcount, hxattrs⟩, hshape, hchunks, hscan⟩ := h
  cases hscan
  obtain ⟨hlink, hsized⟩ := validateEntryShape_sized hshape
  exact ⟨⟨⟨hname, hlink, hcount, validateXattrList_sized hxattrs⟩, hsized⟩, by rw [htotal], hchunks⟩

private theorem validateEntryList_sized (hscan : scan.chunkTotal ≤ maxChunks)
    (h : validateEntryList sha256 m index scan entries = .ok scan') :
    (∀ entry ∈ entries, entry.Sized ∧ ∀ chunk ∈ entry.chunks, chunk.Sized) ∧
      scan.chunkTotal + (entries.map (·.chunks.length)).sum ≤ maxChunks := by
  induction entries generalizing index scan with
  | nil => simpa using hscan
  | cons entry entries ih =>
    rw [validateEntryList] at h
    obtain ⟨next, hentry, hrest⟩ := bind_eq_ok.mp h
    obtain ⟨hsized, htotal, hle⟩ := validateEntry_sized hentry
    obtain ⟨hall, hsum⟩ := ih hle hrest
    constructor
    · exact forall_mem_cons.mpr ⟨hsized, hall⟩
    · rw [map_cons, sum_cons]
      omega

/-- A valid manifest is within every bound that parsing checks. -/
theorem validate_sized (h : validate sha256 m = .ok ()) : m.Sized := by
  obtain ⟨hheader, -, hentries, hframes, -, hvalid, -, -⟩ := validate_eq_ok.mp h
  obtain ⟨scan, hlist, -⟩ := bind_eq_ok.mp hvalid
  obtain ⟨hall, hsum⟩ := validateEntryList_sized (Nat.zero_le _) hlist
  rw [Nat.zero_add] at hsum
  exact ⟨validateHeader_sized hheader, hentries, hframes, hsum, hall⟩

end Hash

theorem addSizes_eq_ok {size total : UInt64} {sizes : List UInt64} :
    addSizes size sizes = .ok total ↔ size.toNat + (sizes.map (·.toNat)).sum = total.toNat := by
  induction sizes generalizing size with
  | nil => simp [addSizes, UInt64.toNat_inj]
  | cons n sizes ih =>
    rw [addSizes, map_cons, sum_cons, ← Nat.add_assoc]
    split
    · next hnone =>
      refine iff_of_false (by simp) ?_
      intro hsum
      have hlt : size.toNat + n.toNat < 2 ^ 64 := by
        have htotal := total.toNat_lt
        omega
      rw [checkedAdd_eq_some.mpr (UInt64.toNat_ofNat_of_lt' hlt).symm] at hnone
      cases hnone
    · next sum hsum => rw [ih, checkedAdd_eq_some.mp hsum]

/-- The length of the encoding of a manifest. -/
def encodedLength (m : Manifest) : ℕ := (manifestBody m).length + footerBytes

private theorem toNat_ofNat_add {a b : ℕ} (h : a + b < 2 ^ 64) :
    (UInt64.ofNat a + UInt64.ofNat b).toNat = a + b := by
  rw [← UInt64.ofNat_add]
  exact UInt64.toNat_ofNat_of_lt' h

private theorem entrySizes_sum {entry : Entry} (hentry : entry.Sized)
    (hchunks : ∀ chunk ∈ entry.chunks, chunk.Sized) :
    ((entrySizes entry).map (·.toNat)).sum =
      (appendEntry entry).length + (entry.chunks.flatMap appendChunk).length := by
  obtain ⟨hname, hlink, -, hxattrs⟩ := hentry
  have hfixed : (UInt64.ofNat entryFixedBytes + UInt64.ofNat entry.name.length +
      UInt64.ofNat entry.linkName.length).toNat =
      entryFixedBytes + entry.name.length + entry.linkName.length := by
    rw [← UInt64.ofNat_add]
    apply toNat_ofNat_add
    unfold entryFixedBytes maxNameBytes maxLinkNameBytes at *
    omega
  have hxattr : ∀ xattr ∈ entry.xattrs, (UInt64.ofNat xattrFixedBytes +
      UInt64.ofNat xattr.name.length + UInt64.ofNat xattr.value.length).toNat =
      xattrFixedBytes + xattr.name.length + xattr.value.length := by
    intro xattr hmem
    obtain ⟨hname, hvalue⟩ := hxattrs xattr hmem
    rw [← UInt64.ofNat_add]
    apply toNat_ofNat_add
    unfold xattrFixedBytes maxXattrNameBytes maxXattrValueSize at *
    omega
  have hchunk : ∀ chunk ∈ entry.chunks, (UInt64.ofNat chunkFixedBytes +
      UInt64.ofNat extentBytes * UInt64.ofNat chunk.extents.length).toNat =
      (appendChunk chunk).length := by
    intro chunk hmem
    have hextents : chunk.extents.length ≤ maxExtentsPerChunk := hchunks chunk hmem
    rw [length_appendChunk, ← UInt64.ofNat_mul]
    apply toNat_ofNat_add
    unfold chunkFixedBytes extentBytes maxExtentsPerChunk at *
    omega
  rw [entrySizes, map_cons, sum_cons, map_append, sum_append, map_map,
    map_map, hfixed, appendEntry, length_entryRecord, length_flatMap]
  have hxattrSum := congrArg List.sum (map_congr_left hxattr)
  have hchunkSum := congrArg List.sum (map_congr_left hchunk)
  simp only [Function.comp_def]
  omega

private theorem length_appendHeader (header : Header) (a b c : UInt32) :
    (appendHeader header a b c).length =
      headerFixedBytes + packRecordBytes * header.packs.length := by
  simp only [appendHeader, length_append, length_appendUint32, length_appendUint64,
    length_appendCounted, length_appendPack, Vector.length_toList, List.map_const',
    sum_replicate, smul_eq_mul, headerFixedBytes, packRecordBytes]
  omega

private theorem entriesSizes_sum {entries : List Entry}
    (h : ∀ entry ∈ entries, entry.Sized ∧ ∀ chunk ∈ entry.chunks, chunk.Sized) :
    ((entries.flatMap entrySizes).map (·.toNat)).sum = (entries.flatMap appendEntry).length +
        (entries.flatMap fun entry => entry.chunks.flatMap appendChunk).length := by
  induction entries with
  | nil => rfl
  | cons entry entries ih =>
    have hhead := h entry mem_cons_self
    have htail := ih fun entry' hmem => h entry' (mem_cons_of_mem entry hmem)
    rw [flatMap_cons, map_append, sum_append, entrySizes_sum hhead.1 hhead.2, htail,
      flatMap_cons, flatMap_cons, length_append, length_append]
    omega

variable {n : ℕ} {m : Manifest}

/-- The predicted size is the length of the encoding, refused above the bound of the format. -/
theorem encodedSize_eq_ok (hm : m.Sized) :
    encodedSize m = .ok n ↔ encodedLength m = n ∧ n ≤ maxManifestBytes := by
  have hheader : (UInt64.ofNat headerFixedBytes +
      UInt64.ofNat packRecordBytes * UInt64.ofNat m.header.packs.length).toNat =
      headerFixedBytes + packRecordBytes * m.header.packs.length := by
    have hpacks := hm.header.2
    rw [← UInt64.ofNat_mul]
    apply toNat_ofNat_add
    unfold headerFixedBytes packRecordBytes maxPacks at *
    omega
  have hframes : (UInt64.ofNat frameRecordBytes * UInt64.ofNat m.frames.length +
      UInt64.ofNat footerBytes).toNat = frameRecordBytes * m.frames.length + footerBytes := by
    have hcount := hm.frames
    have hfooter : footerBytes = 40 := rfl
    rw [← UInt64.ofNat_mul]
    apply toNat_ofNat_add
    unfold frameRecordBytes maxFrames at *
    omega
  have hframeLength : (m.frames.flatMap appendFrame).length =
      frameRecordBytes * m.frames.length := by
    simp [length_flatMap, Nat.mul_comm]
  have hlength : encodedLength m = headerFixedBytes + packRecordBytes * m.header.packs.length +
      ((m.entries.flatMap entrySizes ++ [UInt64.ofNat frameRecordBytes *
        UInt64.ofNat m.frames.length + UInt64.ofNat footerBytes]).map (·.toNat)).sum := by
    rw [map_append, sum_append, entriesSizes_sum hm.entry, map_singleton,
      sum_singleton, hframes, encodedLength, manifestBody, length_append,
      length_appendHeader, length_append, length_append, hframeLength]
    omega
  rw [encodedSize, bind_eq_ok]
  constructor
  · rintro ⟨size, hsize, h⟩
    rw [addSizes_eq_ok, hheader, ← hlength] at hsize
    obtain ⟨hle, hn⟩ := require_bind_eq_ok.mp h
    cases hn
    exact ⟨hsize, of_decide_eq_true hle⟩
  · rintro ⟨rfl, hle⟩
    have hnat : (UInt64.ofNat (encodedLength m)).toNat = encodedLength m :=
      UInt64.toNat_ofNat_of_lt' (hle.trans_lt (by decide))
    refine ⟨UInt64.ofNat (encodedLength m), ?_, ?_⟩
    · rw [addSizes_eq_ok, hheader, ← hlength, hnat]
    · rw [require_bind_eq_ok, hnat]
      exact ⟨decide_eq_true hle, rfl⟩

/-- The bytes of a manifest: its body, the seal over it and the magic. -/
def manifestBytes (sha256 : List UInt8 → Digest) (m : Manifest) : List UInt8 :=
  manifestBody m ++ ((sha256 (manifestBody m)).toList ++ manifestMagic)

section Hash

variable {sha256 : List UInt8 → Digest}

theorem length_manifestBytes (sha256 : List UInt8 → Digest) (m : Manifest) :
    (manifestBytes sha256 m).length = encodedLength m := by
  rw [manifestBytes, length_append, length_append, Vector.length_toList]
  rfl

variable {b : List UInt8}

theorem encode_eq_ok : encode sha256 m = .ok b ↔
      validate sha256 m = .ok () ∧ encodedLength m ≤ maxManifestBytes ∧
        b = manifestBytes sha256 m := by
  rw [encode, unit_bind_eq_ok]
  refine and_congr_right fun hvalid => ?_
  rw [bind_eq_ok]
  constructor
  · rintro ⟨size, hsize, h⟩
    obtain ⟨rfl, hle⟩ := (encodedSize_eq_ok (validate_sized hvalid)).mp hsize
    obtain ⟨-, hb⟩ := require_bind_eq_ok.mp h
    cases hb
    exact ⟨hle, rfl⟩
  · rintro ⟨hle, rfl⟩
    refine ⟨encodedLength m, (encodedSize_eq_ok (validate_sized hvalid)).mpr ⟨rfl, hle⟩, ?_⟩
    exact require_bind_eq_ok.mpr ⟨decide_eq_true (length_manifestBytes sha256 m), rfl⟩

-- The footer is where the decoder looks for it exactly when the bytes end with seal and magic.
private theorem footer_iff {data body : List UInt8} :
    (data.take (data.length - footerBytes) = body ∧
      (data.drop (data.length - footerBytes)).drop 32 = manifestMagic ∧
      (sha256 body).toList = (data.drop (data.length - footerBytes)).take 32) ↔
      data = body ++ ((sha256 body).toList ++ manifestMagic) := by
  constructor
  · rintro ⟨hbody, hmagic, hseal⟩
    rw [hseal, ← hmagic, take_append_drop, ← hbody, take_append_drop]
  · intro h
    have hfooter : ((sha256 body).toList ++ manifestMagic).length = footerBytes := by
      rw [length_append, Vector.length_toList]
      rfl
    have hcut : data.length - footerBytes = body.length := by
      rw [h, length_append, hfooter, Nat.add_sub_cancel]
    rw [hcut, h, take_left, drop_left]
    exact ⟨rfl, List.drop_left' Vector.length_toList, (List.take_left' Vector.length_toList).symm⟩

theorem decode_eq_ok : decode sha256 b = .ok m ↔
      validate sha256 m = .ok () ∧ encodedLength m ≤ maxManifestBytes ∧
        b = manifestBytes sha256 m := by
  simp only [decode, require_bind_eq_ok, decide_eq_true_eq]
  constructor
  · rintro ⟨hmax, hmin, hmagic, hseal, h⟩
    obtain ⟨⟨manifest, rest⟩, hrun, h⟩ := bind_eq_ok.mp h
    obtain ⟨hrest, h⟩ := require_bind_eq_ok.mp h
    obtain ⟨hvalid, hm⟩ := unit_bind_eq_ok.mp h
    cases hm
    obtain ⟨hbody, -⟩ := (decodeBody_reads _ _ _).mp hrun
    obtain rfl : rest = [] := length_eq_zero_iff.mp (of_decide_eq_true hrest)
    rw [append_nil] at hbody
    rw [hbody] at hseal
    have hb : b = manifestBytes sha256 manifest :=
      footer_iff.mp ⟨hbody, hmagic, hseal⟩
    refine ⟨hvalid, ?_, hb⟩
    rw [← length_manifestBytes sha256, ← hb]
    exact hmax
  · rintro ⟨hvalid, hle, rfl⟩
    have hlength := length_manifestBytes sha256 m
    have hheader : headerFixedBytes ≤ (manifestBody m).length := by
      rw [manifestBody, length_append, length_appendHeader]
      omega
    have hmin : headerFixedBytes + footerBytes ≤ (manifestBytes sha256 m).length := by
      rw [hlength, encodedLength]
      omega
    obtain ⟨hbody, hmagic, hseal⟩ :=
      footer_iff.mpr (rfl : manifestBytes sha256 m = _)
    refine ⟨hlength ▸ hle, hmin, hmagic, ?_, ?_⟩
    · rw [hbody]
      exact hseal
    · refine bind_eq_ok.mpr ⟨(m, []), ?_, ?_⟩
      · rw [hbody]
        exact (decodeBody_reads _ _ _).mpr ⟨(append_nil _).symm, validate_sized hvalid⟩
      · exact require_bind_eq_ok.mpr ⟨rfl, unit_bind_eq_ok.mpr ⟨hvalid, rfl⟩⟩

end Hash

/-- Every valid manifest whose encoding is within the bound of the format is encoded to bytes that
decode to it, every accepted byte string is the encoding of what it decodes to, and no two byte
strings decode to one manifest. -/
theorem encode_decode_bijection (sha256 : List UInt8 → Digest) :
    (∀ m, validate sha256 m = .ok () → encodedLength m ≤ maxManifestBytes →
      ∃ b, encode sha256 m = .ok b ∧ decode sha256 b = .ok m) ∧
    (∀ b m, decode sha256 b = .ok m → encode sha256 m = .ok b) ∧
    ∀ b b' m, decode sha256 b = .ok m → decode sha256 b' = .ok m → b = b' := by
  refine ⟨?_, ?_, ?_⟩
  · intro m hvalid hle
    exact ⟨manifestBytes sha256 m, encode_eq_ok.mpr ⟨hvalid, hle, rfl⟩,
      decode_eq_ok.mpr ⟨hvalid, hle, rfl⟩⟩
  · intro b m h
    exact encode_eq_ok.mpr (decode_eq_ok.mp h)
  · intro b b' m h h'
    rw [(decode_eq_ok.mp h).2.2, (decode_eq_ok.mp h').2.2]

/-- A chunk that lies wholly inside a hole. -/
def holeChunk (sha256 : List UInt8 → Digest) : ChunkRef :=
  { frameIndex := noFrame, innerOffset := 0, length := 0, sliceDigest := sha256 [], extents := [] }

/-- The root of a tree with nothing special about it. -/
def plainRoot : Entry :=
  { parentIndex := 0, name := [], type := typeDirectory, size := 0, mode := 0, mtimeNanos := 0
    ctimeNanos := 0, linkName := [], nlink := 1, hardlinkGroup := 0, contentDigest := zeroDigest
    xattrs := [], chunks := [] }

/-- A file `a` of `n` chunks of 4096 bytes, all hole. -/
def sparseFile (sha256 : List UInt8 → Digest) (n : ℕ) : Entry :=
  { parentIndex := 0, name := [97], type := typeRegular, size := UInt64.ofNat (4096 * n), mode := 0
    mtimeNanos := 0, ctimeNanos := 0, linkName := [], nlink := 1, hardlinkGroup := 0
    contentDigest := zeroDigest, xattrs := [], chunks := List.replicate n (holeChunk sha256) }

/-- The manifest of a tree with one sparse file, which needs no pack. -/
def sparseManifest (sha256 : List UInt8 → Digest) (n : ℕ) : Manifest :=
  { header :=
      { formatVersion := formatVersion, chunkSizeBytes := 4096, compressionLevel := 1
        windowLog := 10, volumeID := Vector.replicate 16 1, sealedEpoch := 1
        attempt := Vector.replicate 16 1, logicalBytes := UInt64.ofNat (4096 * n)
        logicalInodes := 2, sealedAllocatedBytes := 8192, sealedInodes := 2
        priority := { packIndex := 0, packOffset := 0 }, packs := [] }
    entries := [plainRoot, sparseFile sha256 n]
    frames := [] }

section

variable (sha256 : List UInt8 → Digest)

private theorem validateChunkList_holes (size chunkSize : UInt64) (index chunkIndex n : ℕ) :
    validateChunkList sha256 [] size chunkSize index chunkIndex
      (List.replicate n (holeChunk sha256)) = .ok () := by
  induction n generalizing chunkIndex with
  | zero => rfl
  | succ n ih =>
    rw [replicate_succ, validateChunkList, unit_bind_eq_ok]
    refine ⟨?_, ih (chunkIndex + 1)⟩
    simp [validateChunk, holeChunk, validateExtents, require, bind, Except.bind]

private theorem validateChunks_sparse (index : ℕ) (hn : n ≤ maxChunks) :
    validateChunks sha256 [] (sparseFile sha256 n) index 4096 = .ok () := by
  have hbound : n ≤ 2 ^ 28 := hn
  have hsize : (UInt64.ofNat (4096 * n)).toNat = 4096 * n :=
    UInt64.toNat_ofNat_of_lt' (show 4096 * n < 2 ^ 64 by omega)
  have hblock : (4096 : UInt64).toNat = 4096 := rfl
  have hmod : UInt64.ofNat (4096 * n) % 4096 = 0 := by
    apply UInt64.toNat_inj.mp
    rw [UInt64.toNat_mod, hsize, hblock, Nat.mul_mod_right]
    rfl
  have hdiv : UInt64.ofNat (4096 * n) / 4096 = UInt64.ofNat n := by
    apply UInt64.toNat_inj.mp
    rw [UInt64.toNat_div, hsize, hblock, Nat.mul_div_cancel_left n (by decide)]
    exact (UInt64.toNat_ofNat_of_lt' (show n < 2 ^ 64 by omega)).symm
  rw [validateChunks, unit_bind_eq_ok]
  constructor
  · rw [require_eq_ok, decide_eq_true_eq]
    simp only [sparseFile, length_replicate, hmod, hdiv, ne_eq, not_true_eq_false, if_false]
    rw [UInt64.add_zero]
  · exact validateChunkList_holes sha256 _ _ index 0 n

private theorem validateHeader_sparse (n : ℕ) :
    validateHeader (sparseManifest sha256 n).header = .ok () := by
  simp only [validateHeader, unit_bind_eq_ok, require_eq_ok, decide_eq_true_eq]
  dsimp only [sparseManifest]
  exact ⟨by decide, by decide, by decide, by decide, by decide, by decide, by decide, by decide,
    rfl, rfl⟩

private theorem validateEntries_sparse (hn : n ≤ maxChunks) :
    validateEntries sha256 (sparseManifest sha256 n) = .ok () := by
  have hroot : validateEntry sha256 (sparseManifest sha256 n) 0 plainRoot
      { path := [0], children := [], chunkTotal := 0 } =
      .ok { path := [0], children := [], chunkTotal := 0 } := rfl
  have hplace : validatePlace (sparseManifest sha256 n).entries 1 (sparseFile sha256 n)
      { path := [0], children := [], chunkTotal := 0 } =
      .ok { path := [1, 0], children := [(0, [97])], chunkTotal := 0 } := rfl
  have hshape : validateEntryShape sha256 (sparseManifest sha256 n).frames (sparseFile sha256 n) 1
      (sparseManifest sha256 n).header.chunkSizeBytes.toUInt64 = .ok () :=
    validateChunks_sparse sha256 1 hn
  have hmode : (sparseFile sha256 n).mode &&& ~~~modeMask = 0 := by
    change (0 : UInt32) &&& ~~~modeMask = 0
    decide
  have htotal : require (decide (0 + (sparseFile sha256 n).chunks.length ≤ maxChunks))
      "chunk count exceeds the format bound" = .ok () := by
    rw [require_eq_ok, decide_eq_true_eq, Nat.zero_add]
    simpa [sparseFile] using hn
  have hfile : ∃ scan, validateEntry sha256 (sparseManifest sha256 n) 1 (sparseFile sha256 n)
      { path := [0], children := [], chunkTotal := 0 } = .ok scan :=
    ⟨_, bind_eq_ok.mpr ⟨_, hplace, require_bind_eq_ok.mpr ⟨decide_eq_true hmode,
      unit_bind_eq_ok.mpr ⟨rfl, unit_bind_eq_ok.mpr ⟨rfl, unit_bind_eq_ok.mpr ⟨hshape,
        unit_bind_eq_ok.mpr ⟨htotal, rfl⟩⟩⟩⟩⟩⟩⟩
  obtain ⟨scan, hscan⟩ := hfile
  exact bind_eq_ok.mpr ⟨scan, bind_eq_ok.mpr ⟨_, hroot, bind_eq_ok.mpr ⟨scan, hscan, rfl⟩⟩, rfl⟩

end

private theorem logicalTotals_file {file : Entry} (htype : file.type = typeRegular)
    (hgroup : file.hardlinkGroup = 0) :
    logicalTotals [] 0 0 [plainRoot, file] = .ok (file.size, 2) := by
  have hadd : checkedAdd 0 file.size = some file.size := checkedAdd_eq_some.mpr (Nat.zero_add _)
  simp [logicalTotals, plainRoot, htype, hgroup, hadd, typeDirectory, typeRegular]

section

variable (sha256 : List UInt8 → Digest)

private theorem validateTotals_sparse (n : ℕ) :
    validateTotals (sparseManifest sha256 n) = .ok () := by
  have hsealed : sealedAllocation (sparseManifest sha256 n).entries = .ok (8192, 2) := by
    have hextents : ((sparseManifest sha256 n).entries.flatMap fun entry =>
        entry.chunks.flatMap (·.extents)) = [] := by
      simp [sparseManifest, plainRoot, sparseFile, holeChunk]
    have hlength : UInt64.ofNat (sparseManifest sha256 n).entries.length = 2 := rfl
    have hmul : checkedMul 2 metadataBytesPerEntry = some 8192 := by decide
    have hadd : checkedAdd 0 8192 = some 8192 := by decide
    simp only [sealedAllocation, hextents, allocateExtents, hlength, hmul, bind, Except.bind, hadd]
  refine bind_eq_ok.mpr ⟨_, logicalTotals_file rfl rfl, ?_⟩
  simp only [unit_bind_eq_ok, require_eq_ok, decide_eq_true_eq]
  exact ⟨rfl, rfl, bind_eq_ok.mpr ⟨_, hsealed, by
    simp only [unit_bind_eq_ok, require_eq_ok, decide_eq_true_eq]
    exact ⟨rfl, rfl⟩⟩⟩

/-- Every such manifest is valid, however many chunks its file has up to the bound on chunks. -/
theorem validate_sparseManifest (hn : n ≤ maxChunks) :
    validate sha256 (sparseManifest sha256 n) = .ok () :=
  validate_eq_ok.mpr ⟨validateHeader_sparse sha256 n, by simp [sparseManifest],
    by simp [sparseManifest, maxEntries], by simp [sparseManifest], rfl,
    validateEntries_sparse sha256 hn, rfl, validateTotals_sparse sha256 n⟩

theorem encodedLength_sparseManifest (n : ℕ) :
    encodedLength (sparseManifest sha256 n) = 335 + 56 * n := by
  have hfooter : footerBytes = 40 := rfl
  simp only [encodedLength, manifestBody, sparseManifest, length_append, length_appendHeader,
    flatMap_cons, flatMap_nil, appendEntry, length_entryRecord, plainRoot, sparseFile,
    length_flatMap, map_replicate, sum_replicate, length_appendChunk, holeChunk,
    headerFixedBytes, packRecordBytes, entryFixedBytes, chunkFixedBytes, extentBytes,
    length_nil, map_nil, sum_nil, length_singleton, smul_eq_mul, hfooter]
  omega

theorem encode_sparseManifest_ne_ok (hn : maxManifestBytes < 335 + 56 * n) (b : List UInt8) :
    encode sha256 (sparseManifest sha256 n) ≠ .ok b := by
  intro hb
  have hle := (encode_eq_ok.mp hb).2.1
  rw [encodedLength_sparseManifest] at hle
  omega

end

/-- A sparse file of 256 GiB in chunks of 4096 bytes: valid, and refused by the encoder. -/
theorem sparseManifest_refused :
    validate (fun _ => zeroDigest) (sparseManifest (fun _ => zeroDigest) (2 ^ 26)) = .ok () ∧
      ¬ ∃ b, encode (fun _ => zeroDigest) (sparseManifest (fun _ => zeroDigest) (2 ^ 26)) =
        .ok b := by
  refine ⟨validate_sparseManifest _ (by decide), ?_⟩
  rintro ⟨b, hb⟩
  exact encode_sparseManifest_ne_ok _ (by decide) b hb

/-- The first part of the bijection at a tree with a sparse file of one chunk. -/
theorem encode_decode_sparse :
    ∃ b, encode (fun _ => zeroDigest) (sparseManifest (fun _ => zeroDigest) 1) = .ok b ∧
      decode (fun _ => zeroDigest) b = .ok (sparseManifest (fun _ => zeroDigest) 1) :=
  (encode_decode_bijection fun _ => zeroDigest).1 _
    (validate_sparseManifest _ (by decide)) (by
      rw [encodedLength_sparseManifest]
      decide)

end PortableFS.Archive
