import PortableFS.Archive.Codec

/-!
# The codec is a bijection

Each reader of `decode.go` accepts exactly what its `append` function of `encode.go` writes, for values
inside the bounds the reader checks. `Validate` implies every such bound, so `Encode` and `Decode` are
inverse to each other wherever either succeeds; what `Validate` does not bound is the encoded size.
-/

namespace PortableFS.Archive

open PortableFS.Base
open List hiding Vector
open Reader (Reads run_bind_ok run_pure_ok run_require_ok run_take_ok)
open Reader.Reads (field)

theorem take_reads (n : ℕ) : (take n).Reads id (·.length = n) := fun _ _ _ => run_take_ok

theorem readByte_reads : readByte.Reads (fun byte => [byte]) fun _ => True := by
  refine ((take_reads 1).map (fun raw => raw.headD 0) (fun byte => [byte]) ?_).congr ?_ ?_
  · intro byte raw hraw
    obtain ⟨b, rfl⟩ := length_eq_one_iff.mp hraw
    simp [eq_comm]
  · simp
  · simp

theorem readUint32_reads : readUint32.Reads appendUint32 fun _ => True := by
  refine ((take_reads 4).map (fun raw => UInt32.ofNat (ofLittleEndian raw)) appendUint32 ?_).congr
    ?_ ?_
  · intro x raw hraw
    have hlt := ofLittleEndian_lt raw
    rw [hraw] at hlt
    constructor
    · rintro rfl
      rw [appendUint32, UInt32.toNat_ofNat_of_lt' hlt, ← hraw, littleEndian_ofLittleEndian]
    · rintro rfl
      rw [appendUint32, ofLittleEndian_littleEndian x.toNat_lt, UInt32.ofNat_toNat]
  · intro x
    have hx : UInt32.ofNat (ofLittleEndian (appendUint32 x)) = x := by
      rw [appendUint32, ofLittleEndian_littleEndian x.toNat_lt, UInt32.ofNat_toNat]
    exact iff_of_true ⟨length_littleEndian 4 x.toNat, hx⟩ trivial
  · simp

theorem readUint64_reads : readUint64.Reads appendUint64 fun _ => True := by
  refine ((take_reads 8).map (fun raw => UInt64.ofNat (ofLittleEndian raw)) appendUint64 ?_).congr
    ?_ ?_
  · intro x raw hraw
    have hlt := ofLittleEndian_lt raw
    rw [hraw] at hlt
    constructor
    · rintro rfl
      rw [appendUint64, UInt64.toNat_ofNat_of_lt' hlt, ← hraw, littleEndian_ofLittleEndian]
    · rintro rfl
      rw [appendUint64, ofLittleEndian_littleEndian x.toNat_lt, UInt64.ofNat_toNat]
  · intro x
    have hx : UInt64.ofNat (ofLittleEndian (appendUint64 x)) = x := by
      rw [appendUint64, ofLittleEndian_littleEndian x.toNat_lt, UInt64.ofNat_toNat]
    exact iff_of_true ⟨length_littleEndian 8 x.toNat, hx⟩ trivial
  · simp

variable {n : ℕ}

private theorem ofFn_getD_toList (v : Vector UInt8 n) :
    (Vector.ofFn fun i : Fin n => v.toList.getD i 0) = v := by
  ext i hi
  simp [getD_eq_getElem?_getD]

private theorem toList_ofFn_getD {raw : List UInt8} (h : raw.length = n) :
    (Vector.ofFn fun i : Fin n => raw.getD i 0).toList = raw := by
  apply ext_getElem
  · simp [h]
  · intro i hi hj
    simp [getD_eq_getElem?_getD, hj]

theorem readArray_reads (n : ℕ) : (readArray n).Reads Vector.toList fun _ => True := by
  refine ((take_reads n).map (fun raw => Vector.ofFn fun i : Fin n => raw.getD i 0)
    Vector.toList ?_).congr ?_ ?_
  · intro v raw hraw
    constructor
    · rintro rfl
      exact toList_ofFn_getD hraw
    · rintro rfl
      exact ofFn_getD_toList v
  · intro v
    simp only [ofFn_getD_toList, Vector.length_toList, and_self]
  · intro v _
    rfl

variable {α : Type} {l : List α} {limit : ℕ}

private theorem toNat_ofNat_length (hlimit : limit < 2 ^ 32)
    (h : l.length ≤ limit) : (UInt32.ofNat l.length).toNat = l.length :=
  UInt32.toNat_ofNat_of_lt' (h.trans_lt hlimit)

-- A list as long as a count within a limit is one whose length, as written, is that count.
variable {count : UInt32}

private theorem length_eq_toNat (hlimit : limit < 2 ^ 32) (hcount : count.toNat ≤ limit) :
    l.length = count.toNat ↔ UInt32.ofNat l.length = count ∧ l.length ≤ limit := by
  constructor
  · intro h
    exact ⟨by rw [h, UInt32.ofNat_toNat], h ▸ hcount⟩
  · rintro ⟨rfl, hle⟩
    exact (toNat_ofNat_length hlimit hle).symm

theorem lengthPrefixed_reads {maximum : ℕ} (hmax : maximum < 2 ^ 32) :
    (lengthPrefixed maximum).Reads appendPrefixed (·.length ≤ maximum) := by
  have hreads : (lengthPrefixed maximum).Reads _ fun bytes => True ∧ _ :=
    field (fun bytes => UInt32.ofNat bytes.length) readUint32_reads fun declared _ =>
      Reads.require (fun bytes => (UInt32.ofNat bytes.length).toNat ≤ maximum)
        (fun bytes hknown => by rw [hknown.2, decide_eq_true_eq]) fun hdeclared =>
        (take_reads declared.toNat).congr
          (fun bytes => (length_eq_toNat hmax (of_decide_eq_true hdeclared)).trans
            (and_congr_left fun _ => (true_and _).symm.to_iff)) fun _ _ => rfl
  refine hreads.congr ?_ fun _ _ => rfl
  intro bytes
  constructor
  · rintro ⟨-, -, -, hle⟩
    exact hle
  · intro hle
    exact ⟨trivial, trivial, (toNat_ofNat_length hmax hle).le.trans hle, hle⟩

variable {write : α → List UInt8} {ok : α → Prop} {recordBytes hardLimit : ℕ}

/-- What is read under a budget, when it always takes as many bytes as the budget asks for. -/
theorem budgeted_reads {records : Reader String α}
    {count : ℕ} {what : String} (hbytes : 0 < recordBytes)
    (hfit : ∀ a, ok a → count * recordBytes ≤ (write a).length)
    (hrecords : count ≤ hardLimit → records.Reads write ok) :
    (budgeted count recordBytes hardLimit what records).Reads write
      fun a => count ≤ hardLimit ∧ ok a := by
  have hreads : (budgeted count recordBytes hardLimit what records).Reads _ fun a => True ∧ _ :=
    Reads.require (fun _ => count ≤ hardLimit) (fun _ _ => decide_eq_true_iff) fun hcount =>
      ((hrecords (of_decide_eq_true hcount)).budget hbytes hfit).congr
        (fun _ => (true_and _).symm.to_iff) fun _ _ => rfl
  exact hreads.congr (fun _ => (true_and _).to_iff) fun _ _ => rfl

private theorem mul_le_length_flatMap {size : ℕ}
    (h : ∀ a ∈ l, size ≤ (write a).length) : l.length * size ≤ (l.flatMap write).length := by
  induction l with
  | nil => simp
  | cons a l ih =>
    have hhead := h a mem_cons_self
    have htail := ih fun b hb => h b (mem_cons_of_mem a hb)
    rw [length_cons, flatMap_cons, length_append, Nat.add_mul]
    omega

/-- Records behind their count, each at least as long as the budget assumes. -/
theorem readCounted_reads {record : Reader String α}
    (what : String) (hlimit : hardLimit < 2 ^ 32) (hbytes : 0 < recordBytes)
    (hlength : ∀ a, recordBytes ≤ (write a).length) (hrecord : record.Reads write ok) :
    (readCounted record recordBytes hardLimit what).Reads (appendCounted write)
      fun l => l.length ≤ hardLimit ∧ ∀ a ∈ l, ok a := by
  have hbody (count : UInt32) :
      (budgeted count.toNat recordBytes hardLimit what (record.replicate count.toNat)).Reads
        (fun l => l.flatMap write)
        fun l => (True ∧ UInt32.ofNat l.length = count) ∧ l.length ≤ hardLimit ∧ ∀ a ∈ l, ok a := by
    refine (budgeted_reads hbytes (fun l hl => hl.1 ▸ mul_le_length_flatMap fun a _ => hlength a)
      fun _ => hrecord.replicate count.toNat).congr ?_ fun _ _ => rfl
    intro l
    constructor
    · rintro ⟨hcount, hlen, hall⟩
      obtain ⟨hof, hle⟩ := (length_eq_toNat hlimit hcount).mp hlen
      exact ⟨⟨trivial, hof⟩, hle, hall⟩
    · rintro ⟨⟨-, rfl⟩, hle, hall⟩
      have hnat := toNat_ofNat_length hlimit hle
      exact ⟨hnat.le.trans hle, hnat.symm, hall⟩
  have hreads : (readCounted record recordBytes hardLimit what).Reads _ fun l => True ∧ _ :=
    field (fun l => UInt32.ofNat l.length) readUint32_reads fun count _ => hbody count
  refine hreads.congr ?_ fun _ _ => rfl
  intro l
  constructor
  · rintro ⟨-, -, hl⟩
    exact hl
  · intro hl
    exact ⟨trivial, trivial, hl⟩

@[simp] theorem length_appendUint32 (x : UInt32) : (appendUint32 x).length = 4 :=
  length_littleEndian 4 _

@[simp] theorem length_appendUint64 (x : UInt64) : (appendUint64 x).length = 8 :=
  length_littleEndian 8 _

@[simp] theorem length_appendPrefixed (bytes : List UInt8) :
    (appendPrefixed bytes).length = 4 + bytes.length := by
  simp [appendPrefixed]

@[simp] theorem length_appendPack (pack : PackRef) :
    (appendPack pack).length = packRecordBytes := by
  simp [appendPack, packRecordBytes]

@[simp] theorem length_appendExtent (extent : Extent) :
    (appendExtent extent).length = extentBytes := by
  simp [appendExtent, extentBytes]

@[simp] theorem length_appendXattr (xattr : Xattr) :
    (appendXattr xattr).length = xattrFixedBytes + xattr.name.length + xattr.value.length := by
  simp only [appendXattr, length_append, length_appendPrefixed, xattrFixedBytes]
  omega

@[simp] theorem length_appendFrame (frame : Frame) :
    (appendFrame frame).length = frameRecordBytes := by
  simp [appendFrame, frameRecordBytes]

theorem decodePack_reads : decodePack.Reads appendPack fun _ => True := by
  have hreads : decodePack.Reads _ fun pack => True ∧ _ :=
    field PackRef.crc64Nvme readUint64_reads fun _ _ =>
    field PackRef.sha256 (readArray_reads 32) fun _ _ =>
    field PackRef.sizeBytes readUint64_reads fun _ _ =>
    Reads.done fun pack => by
      cases pack
      simp [eq_comm, and_assoc]
  refine hreads.congr (by simp) ?_
  intro pack _
  simp [appendPack]

theorem decodeExtent_reads : decodeExtent.Reads appendExtent fun _ => True := by
  have hreads : decodeExtent.Reads _ fun extent => True ∧ _ :=
    field Extent.offset readUint64_reads fun _ _ =>
    field Extent.length readUint64_reads fun _ _ =>
    Reads.done fun extent => by
      cases extent
      simp [eq_comm]
  refine hreads.congr (by simp) ?_
  intro extent _
  simp [appendExtent]

/-- The bounds that reading an extended attribute checks. -/
def Xattr.Sized (xattr : Xattr) : Prop :=
  xattr.name.length ≤ maxXattrNameBytes ∧ xattr.value.length ≤ maxXattrValueSize

theorem decodeXattr_reads : decodeXattr.Reads appendXattr Xattr.Sized := by
  have hreads : decodeXattr.Reads _ fun xattr => True ∧ _ :=
    field Xattr.name (lengthPrefixed_reads (by decide)) fun _ _ =>
    field Xattr.value (lengthPrefixed_reads (by decide)) fun _ _ =>
    Reads.done fun xattr => by
      cases xattr
      simp [eq_comm]
  refine hreads.congr (by simp [Xattr.Sized]) ?_
  intro xattr _
  simp [appendXattr]

theorem decodeFrame_reads : decodeFrame.Reads appendFrame fun _ => True := by
  have hreads : decodeFrame.Reads _ fun frame => True ∧ _ :=
    field Frame.packIndex readUint32_reads fun _ _ =>
    field Frame.packOffset readUint64_reads fun _ _ =>
    field Frame.compressedLength readUint64_reads fun _ _ =>
    field Frame.uncompressedLength readUint64_reads fun _ _ =>
    field (fun frame : Frame => if frame.rawBlocks then 1 else 0) readByte_reads fun raw _ =>
    Reads.require (fun _ => True) (fun frame hknown => by
      rw [← hknown.2]
      cases frame.rawBlocks <;> decide) fun hraw =>
    field Frame.xxh64Lo32 readUint32_reads fun _ _ =>
    Reads.done fun frame => by
      have hbyte : raw = 0 ∨ raw = 1 := by
        have hle := UInt8.le_iff_toNat_le.mp (of_decide_eq_true hraw)
        have hone : (1 : UInt8).toNat = 1 := rfl
        rw [hone] at hle
        rcases Nat.le_one_iff_eq_zero_or_eq_one.mp hle with h | h
        · exact .inl (UInt8.toNat_inj.mp h)
        · exact .inr (UInt8.toNat_inj.mp h)
      obtain ⟨_, _, _, _, rawBlocks, _⟩ := frame
      rcases hbyte with rfl | rfl <;> cases rawBlocks <;> simp [eq_comm, and_assoc]
  refine hreads.congr (by simp) ?_
  intro frame _
  simp [appendFrame]

/-- The bounds that reading a chunk checks. -/
def ChunkRef.Sized (chunk : ChunkRef) : Prop := chunk.extents.length ≤ maxExtentsPerChunk

theorem decodeChunk_reads : decodeChunk.Reads appendChunk ChunkRef.Sized := by
  have hextents := readCounted_reads "extent" (by decide : maxExtentsPerChunk < 2 ^ 32)
    (by decide : 0 < extentBytes) (fun extent => (length_appendExtent extent).ge) decodeExtent_reads
  have hreads : decodeChunk.Reads _ fun chunk => True ∧ _ :=
    field ChunkRef.frameIndex readUint32_reads fun _ _ =>
    field ChunkRef.innerOffset readUint64_reads fun _ _ =>
    field ChunkRef.length readUint64_reads fun _ _ =>
    field ChunkRef.sliceDigest (readArray_reads 32) fun _ _ =>
    field ChunkRef.extents hextents fun _ _ =>
    Reads.done fun chunk => by
      cases chunk
      simp [eq_comm, and_assoc]
  refine hreads.congr (by simp [ChunkRef.Sized]) ?_
  intro chunk _
  simp [appendChunk]

/-- The bounds that reading an entry's record checks. -/
def Entry.Sized (entry : Entry) : Prop :=
  entry.name.length ≤ maxNameBytes ∧ entry.linkName.length ≤ maxLinkNameBytes ∧
    entry.xattrs.length ≤ maxXattrsPerEntry ∧ ∀ xattr ∈ entry.xattrs, xattr.Sized

theorem decodeEntry_reads : decodeEntry.Reads (fun pair => entryRecord pair.1 pair.2)
      fun pair => pair.1.Sized ∧ pair.1.chunks = [] := by
  have hxattrs := readCounted_reads "extended attribute"
    (by decide : maxXattrsPerEntry < 2 ^ 32) (by decide : 0 < xattrFixedBytes)
    (fun xattr => by
      rw [length_appendXattr, Nat.add_assoc]
      exact Nat.le_add_right _ _) decodeXattr_reads
  have hreads : decodeEntry.Reads _ fun pair => pair.1.chunks = [] ∧ _ :=
    field (fun pair : Entry × UInt32 => pair.1.parentIndex) readUint32_reads fun _ _ =>
    field (fun pair : Entry × UInt32 => pair.1.type) readByte_reads fun _ _ =>
    field (fun pair : Entry × UInt32 => pair.1.mode) readUint32_reads fun _ _ =>
    field (fun pair : Entry × UInt32 => pair.1.size) readUint64_reads fun _ _ =>
    field (fun pair : Entry × UInt32 => pair.1.mtimeNanos.toUInt64) readUint64_reads fun _ _ =>
    field (fun pair : Entry × UInt32 => pair.1.ctimeNanos.toUInt64) readUint64_reads fun _ _ =>
    field (fun pair : Entry × UInt32 => pair.1.nlink) readUint32_reads fun _ _ =>
    field (fun pair : Entry × UInt32 => pair.1.hardlinkGroup) readUint32_reads fun _ _ =>
    field (fun pair : Entry × UInt32 => pair.1.name) (lengthPrefixed_reads (by decide)) fun _ _ =>
    field (fun pair : Entry × UInt32 => pair.1.linkName)
      (lengthPrefixed_reads (by decide)) fun _ _ =>
    field (fun pair : Entry × UInt32 => pair.1.contentDigest) (readArray_reads 32) fun _ _ =>
    field (fun pair : Entry × UInt32 => pair.1.xattrs) hxattrs fun _ _ =>
    field (fun pair : Entry × UInt32 => pair.2) readUint32_reads fun _ _ =>
    Reads.done fun pair => by
      obtain ⟨entry, count⟩ := pair
      cases entry
      constructor
      · intro h
        cases h
        simp
      · rintro ⟨⟨⟨⟨⟨⟨⟨⟨⟨⟨⟨⟨⟨rfl, rfl⟩, rfl⟩, rfl⟩, rfl⟩, rfl⟩, rfl⟩, rfl⟩, rfl⟩, rfl⟩, rfl⟩, rfl⟩, rfl⟩, rfl⟩
        rfl
  refine hreads.congr ?_ ?_
  · intro pair
    simp only [Entry.Sized, true_and, and_true]
    constructor
    · rintro ⟨hchunks, hname, hlink, hlen, hall⟩
      exact ⟨⟨hname, hlink, hlen, hall⟩, hchunks⟩
    · rintro ⟨⟨hname, hlink, hlen, hall⟩, hchunks⟩
      exact ⟨hchunks, hname, hlink, hlen, hall⟩
  · intro pair _
    simp [entryRecord]

/-- The bounds that reading a header checks. -/
def Header.Sized (header : Header) : Prop :=
  header.formatVersion = Archive.formatVersion ∧ header.packs.length ≤ maxPacks

theorem decodeHeader_reads :
    decodeHeader.Reads (fun p => appendHeader p.header p.entryCount p.frameCount p.chunkCount)
      (·.header.Sized) := by
  have hpacks := readCounted_reads "pack" (by decide : maxPacks < 2 ^ 32)
    (by decide : 0 < packRecordBytes) (fun pack => (length_appendPack pack).ge) decodePack_reads
  have hreads : decodeHeader.Reads _ fun p => True ∧ _ :=
    field (fun p : Preamble => p.header.formatVersion) readUint32_reads fun version _ =>
    Reads.require (fun p => p.header.formatVersion = formatVersion) (fun p hknown => by
      rw [hknown.2, decide_eq_true_eq]) fun _ =>
    field (fun p : Preamble => p.header.chunkSizeBytes) readUint32_reads fun _ _ =>
    field (fun p : Preamble => p.header.compressionLevel.toUInt32) readUint32_reads fun _ _ =>
    field (fun p : Preamble => p.header.windowLog) readUint32_reads fun _ _ =>
    field (fun p : Preamble => p.header.volumeID) (readArray_reads 16) fun _ _ =>
    field (fun p : Preamble => p.header.sealedEpoch) readUint64_reads fun _ _ =>
    field (fun p : Preamble => p.header.attempt) (readArray_reads 16) fun _ _ =>
    field (fun p : Preamble => p.entryCount) readUint32_reads fun _ _ =>
    field (fun p : Preamble => p.frameCount) readUint32_reads fun _ _ =>
    field (fun p : Preamble => p.chunkCount) readUint32_reads fun _ _ =>
    field (fun p : Preamble => p.header.logicalBytes) readUint64_reads fun _ _ =>
    field (fun p : Preamble => p.header.logicalInodes) readUint64_reads fun _ _ =>
    field (fun p : Preamble => p.header.sealedAllocatedBytes) readUint64_reads fun _ _ =>
    field (fun p : Preamble => p.header.sealedInodes) readUint64_reads fun _ _ =>
    field (fun p : Preamble => p.header.priority.packIndex) readUint32_reads fun _ _ =>
    field (fun p : Preamble => p.header.priority.packOffset) readUint64_reads fun _ _ =>
    field (fun p : Preamble => p.header.packs) hpacks fun _ _ =>
    Reads.done fun p => by
      obtain ⟨⟨_, _, _, _, _, _, _, _, _, _, _, ⟨_, _⟩, _⟩, _, _, _⟩ := p
      constructor
      · intro h
        cases h
        simp
      · rintro ⟨⟨⟨⟨⟨⟨⟨⟨⟨⟨⟨⟨⟨⟨⟨⟨⟨-, rfl⟩, rfl⟩, rfl⟩, rfl⟩, rfl⟩, rfl⟩, rfl⟩, rfl⟩, rfl⟩, rfl⟩, rfl⟩, rfl⟩,
          rfl⟩, rfl⟩, rfl⟩, rfl⟩, rfl⟩
        rfl
  refine hreads.congr (by simp [Header.Sized]) ?_
  intro p _
  simp [appendHeader]

theorem decodeEntries_reads (chunkCount index declared n : ℕ) :
    (decodeEntries chunkCount index declared n).Reads
      (fun table => table.flatMap fun pair => entryRecord pair.1 pair.2)
      fun table => table.length = n ∧ (∀ pair ∈ table, pair.1.Sized ∧ pair.1.chunks = []) ∧
        declared + (table.map (·.2.toNat)).sum = chunkCount := by
  induction n generalizing index declared with
  | zero =>
    intro bytes table rest
    rw [decodeEntries, run_bind_ok]
    constructor
    · rintro ⟨_, left, hcheck, hpure⟩
      obtain ⟨hdeclared, rfl⟩ := run_require_ok.mp hcheck
      obtain ⟨rfl, rfl⟩ := run_pure_ok.mp hpure
      exact ⟨rfl, rfl, by simp, of_decide_eq_true hdeclared⟩
    · rintro ⟨rfl, hlen, -, hsum⟩
      obtain rfl := length_eq_zero_iff.mp hlen
      exact ⟨(), rest, run_require_ok.mpr ⟨decide_eq_true hsum, rfl⟩, run_pure_ok.mpr ⟨rfl, rfl⟩⟩
  | succ n ih =>
    intro bytes table rest
    have hentry := decodeEntry_reads.mapError fun e => s!"{e} (entry {index})"
    rw [decodeEntries, run_bind_ok]
    constructor
    · rintro ⟨pair, left, hpair, hrest⟩
      obtain ⟨rfl, hok⟩ := (hentry _ _ _).mp hpair
      obtain ⟨_, left', hcheck, hrest⟩ := run_bind_ok.mp hrest
      obtain ⟨-, rfl⟩ := run_require_ok.mp hcheck
      obtain ⟨table', left'', htable, hpure⟩ := run_bind_ok.mp hrest
      obtain ⟨rfl, rfl⟩ := run_pure_ok.mp hpure
      obtain ⟨rfl, hlen, hall, hsum⟩ := (ih _ _ _ _ _).mp htable
      refine ⟨by simp, by rw [length_cons, hlen], ?_, ?_⟩
      · exact forall_mem_cons.mpr ⟨hok, hall⟩
      · rw [map_cons, sum_cons, ← Nat.add_assoc]
        exact hsum
    · rintro ⟨rfl, hlen, hall, hsum⟩
      obtain ⟨pair, table', rfl⟩ := exists_cons_of_length_eq_add_one hlen
      rw [length_cons, Nat.add_right_cancel_iff] at hlen
      rw [map_cons, sum_cons, ← Nat.add_assoc] at hsum
      have htail : ∀ pair' ∈ table', pair'.1.Sized ∧ pair'.1.chunks = [] :=
        fun pair' hmem => hall pair' (mem_cons_of_mem pair hmem)
      have hle : declared + pair.2.toNat ≤ chunkCount := by omega
      refine ⟨pair, _, (hentry _ _ _).mpr ⟨?_, hall pair mem_cons_self⟩,
        run_bind_ok.mpr ⟨(), _, run_require_ok.mpr ⟨decide_eq_true hle, rfl⟩,
          run_bind_ok.mpr ⟨table', rest, (ih _ _ _ _ _).mpr ⟨rfl, hlen, htail, hsum⟩,
            run_pure_ok.mpr ⟨rfl, rfl⟩⟩⟩⟩
      simp

/-- An entry as its record has it: without its chunks, which are only counted. -/
def Entry.bare (entry : Entry) : Entry × UInt32 :=
  ({ entry with chunks := [] }, UInt32.ofNat entry.chunks.length)

/-- The chunks of an entry as they are read: fewer than a count can say, each within bounds. -/
def Entry.ChunksSized (entry : Entry) : Prop :=
  entry.chunks.length < 2 ^ 32 ∧ ∀ chunk ∈ entry.chunks, chunk.Sized

theorem entryRecord_bare (entry : Entry) :
    entryRecord entry.bare.1 entry.bare.2 = appendEntry entry := rfl

variable {entry : Entry}

private theorem bare_eq_iff {entry' : Entry} {chunks : List ChunkRef} (hentry : entry.chunks = []) :
    ({ entry with chunks := chunks } = entry' ∧ chunks.length = count.toNat) ↔
      entry'.bare = (entry, count) ∧ entry'.chunks = chunks ∧ entry'.chunks.length < 2 ^ 32 := by
  obtain ⟨_, _, _, _, _, _, _, _, _, _, _, _, _⟩ := entry
  obtain ⟨_, _, _, _, _, _, _, _, _, _, _, _, _⟩ := entry'
  obtain rfl : _ = [] := hentry
  have hcount := count.toNat_lt
  simp only [Entry.bare, Entry.mk.injEq, Prod.mk.injEq, and_true]
  constructor
  · rintro ⟨⟨rfl, rfl, rfl, rfl, rfl, rfl, rfl, rfl, rfl, rfl, rfl, rfl, rfl⟩, hlen⟩
    simp [hlen, hcount]
  · rintro ⟨⟨⟨rfl, rfl, rfl, rfl, rfl, rfl, rfl, rfl, rfl, rfl, rfl, rfl⟩, rfl⟩, rfl, hlt⟩
    exact ⟨by simp, (UInt32.toNat_ofNat_of_lt' hlt).symm⟩

theorem decodeChunkArrays_reads (index : ℕ) (table : List (Entry × UInt32))
    (htable : ∀ pair ∈ table, pair.1.chunks = []) :
    (decodeChunkArrays index table).Reads
      (fun entries => entries.flatMap fun entry => entry.chunks.flatMap appendChunk)
      fun entries => entries.map Entry.bare = table ∧ ∀ entry ∈ entries, entry.ChunksSized := by
  induction table generalizing index with
  | nil =>
    intro bytes entries rest
    rw [decodeChunkArrays, run_pure_ok]
    constructor
    · rintro ⟨rfl, rfl⟩
      simp
    · rintro ⟨rfl, hmap, -⟩
      obtain rfl := map_eq_nil_iff.mp hmap
      exact ⟨rfl, rfl⟩
  | cons pair table ih =>
    obtain ⟨entry, count⟩ := pair
    have hbare : entry.chunks = [] := htable _ mem_cons_self
    have ih := ih (index + 1) fun pair hmem => htable pair (mem_cons_of_mem _ hmem)
    have hchunks := Reads.indexed (fun chunkIndex => decodeChunk_reads.mapError
      fun e => s!"{e} (entry {index} chunk {chunkIndex})") 0 count.toNat
    intro bytes entries rest
    rw [decodeChunkArrays, run_bind_ok]
    constructor
    · rintro ⟨chunks, left, hread, hrest⟩
      obtain ⟨rfl, hlen, hall⟩ := (hchunks _ _ _).mp hread
      obtain ⟨entries', left', htail, hpure⟩ := run_bind_ok.mp hrest
      obtain ⟨rfl, rfl⟩ := run_pure_ok.mp hpure
      obtain ⟨rfl, rfl, hsized⟩ := (ih _ _ _).mp htail
      obtain ⟨hhead, -, hlt⟩ := (bare_eq_iff hbare).mp ⟨rfl, hlen⟩
      refine ⟨by simp, by rw [map_cons, hhead], ?_⟩
      exact forall_mem_cons.mpr ⟨⟨hlt, hall⟩, hsized⟩
    · rintro ⟨rfl, hmap, hsized⟩
      obtain ⟨entry', entries', rfl, hhead, htail⟩ := map_eq_cons_iff.mp hmap
      have hhere := hsized entry' mem_cons_self
      obtain ⟨heq, hlen⟩ := (bare_eq_iff hbare).mpr ⟨hhead, rfl, hhere.1⟩
      refine ⟨entry'.chunks, _, (hchunks _ _ _).mpr ⟨?_, hlen, hhere.2⟩,
        run_bind_ok.mpr ⟨entries', rest, (ih _ _ _).mpr ⟨rfl, htail, ?_⟩,
          run_pure_ok.mpr ⟨by rw [heq], rfl⟩⟩⟩
      · simp
      · exact fun entry'' hmem => hsized entry'' (mem_cons_of_mem _ hmem)

/-- The bounds that parsing a manifest checks. -/
structure Manifest.Sized (m : Manifest) : Prop where
  header : m.header.Sized
  entries : m.entries.length ≤ maxEntries
  frames : m.frames.length ≤ maxFrames
  chunks : m.chunkCount ≤ maxChunks
  entry : ∀ entry ∈ m.entries, entry.Sized ∧ ∀ chunk ∈ entry.chunks, chunk.Sized

theorem length_appendCounted (write : α → List UInt8) (records : List α) :
    (appendCounted write records).length = 4 + (records.map fun a => (write a).length).sum := by
  rw [appendCounted, length_append, length_appendUint32, length_flatMap]

theorem length_entryRecord (entry : Entry) (chunkCount : UInt32) :
    (entryRecord entry chunkCount).length =
      entryFixedBytes + entry.name.length + entry.linkName.length +
        (entry.xattrs.map fun xattr =>
          xattrFixedBytes + xattr.name.length + xattr.value.length).sum := by
  simp only [entryRecord, length_append, length_appendUint32, length_appendUint64,
    length_appendPrefixed, length_appendCounted, length_appendXattr, Vector.length_toList,
    length_singleton, entryFixedBytes]
  omega

theorem length_appendChunk (chunk : ChunkRef) :
    (appendChunk chunk).length = chunkFixedBytes + extentBytes * chunk.extents.length := by
  simp only [appendChunk, length_append, length_appendUint32, length_appendUint64,
    length_appendCounted, length_appendExtent, Vector.length_toList, map_const',
    sum_replicate, smul_eq_mul, chunkFixedBytes, extentBytes]
  omega

private theorem counts_eq {entries : List Entry}
    (h : ∀ entry ∈ entries, entry.chunks.length < 2 ^ 32) :
    ((entries.map Entry.bare).map (·.2.toNat)).sum = (entries.map (·.chunks.length)).sum := by
  rw [map_map]
  congr 1
  apply map_congr_left
  intro entry hmem
  exact UInt32.toNat_ofNat_of_lt' (h entry hmem)

private theorem length_le_chunkCount {m : Manifest} (h : entry ∈ m.entries) :
    entry.chunks.length ≤ m.chunkCount :=
  single_le_sum (by simp) _ (mem_map_of_mem h)

private theorem chunkArrays_fit (entries : List Entry) :
    (entries.map (·.chunks.length)).sum * chunkFixedBytes ≤
      (entries.flatMap fun entry => entry.chunks.flatMap appendChunk).length := by
  have hfit : (entries.flatMap (·.chunks)).length * chunkFixedBytes ≤
      ((entries.flatMap (·.chunks)).flatMap appendChunk).length :=
    mul_le_length_flatMap fun chunk _ => by
      rw [length_appendChunk]
      exact Nat.le_add_right _ _
  rwa [length_flatMap, flatMap_assoc] at hfit

private theorem entryTable_reads (entryCount chunkCount : ℕ) :
    (budgeted entryCount entryFixedBytes maxEntries "entry"
      (decodeEntries chunkCount 0 0 entryCount)).Reads
      (fun table => table.flatMap fun pair => entryRecord pair.1 pair.2)
      fun table => entryCount ≤ maxEntries ∧ table.length = entryCount ∧
        (∀ pair ∈ table, pair.1.Sized ∧ pair.1.chunks = []) ∧
        0 + (table.map (·.2.toNat)).sum = chunkCount := by
  refine budgeted_reads (by decide) ?_ fun _ => decodeEntries_reads chunkCount 0 0 entryCount
  rintro table ⟨rfl, -, -⟩
  apply mul_le_length_flatMap
  intro pair _
  rw [length_entryRecord]
  omega

private theorem frameTable_reads (frameCount : ℕ) :
    (budgeted frameCount frameRecordBytes maxFrames "frame"
      (Reader.indexed (fun index => decodeFrame.mapError fun e => s!"{e} (frame {index})") 0
        frameCount)).Reads
      (fun frames => frames.flatMap appendFrame)
      fun frames => frameCount ≤ maxFrames ∧ frames.length = frameCount ∧
        ∀ frame ∈ frames, True := by
  refine budgeted_reads (by decide) ?_ fun _ => Reads.indexed
    (fun index => decodeFrame_reads.mapError fun e => s!"{e} (frame {index})") 0 frameCount
  rintro frames ⟨rfl, -⟩
  exact mul_le_length_flatMap fun frame _ => (length_appendFrame frame).ge

private theorem chunkTable_reads {chunkCount : ℕ} {table : List (Entry × UInt32)}
    (htable : ∀ pair ∈ table, pair.1.chunks = []) (hsum : (table.map (·.2.toNat)).sum = chunkCount) :
    (budgeted chunkCount chunkFixedBytes maxChunks "chunk" (decodeChunkArrays 0 table)).Reads
      (fun entries => entries.flatMap fun entry => entry.chunks.flatMap appendChunk)
      fun entries => chunkCount ≤ maxChunks ∧ entries.map Entry.bare = table ∧
        ∀ entry ∈ entries, entry.ChunksSized := by
  refine budgeted_reads (by decide) ?_ fun _ => decodeChunkArrays_reads 0 table htable
  rintro entries ⟨rfl, hsized⟩
  rw [← hsum, counts_eq fun entry hmem => (hsized entry hmem).1]
  exact chunkArrays_fit entries

theorem decodeBody_reads : decodeBody.Reads manifestBody Manifest.Sized := by
  intro bytes m rest
  unfold decodeBody
  rw [run_bind_ok]
  constructor
  · rintro ⟨⟨header, entryCount, frameCount, chunkCount⟩, left₁, hread₁, h₁⟩
    obtain ⟨rfl, hheader⟩ := (decodeHeader_reads _ _ _).mp hread₁
    obtain ⟨table, left₂, hread₂, h₂⟩ := run_bind_ok.mp h₁
    obtain ⟨rfl, hentries, hlen, htable, hsum⟩ := (entryTable_reads _ _ _ _ _).mp hread₂
    obtain ⟨frames, left₃, hread₃, h₃⟩ := run_bind_ok.mp h₂
    obtain ⟨rfl, hframes, hframeLen, -⟩ := (frameTable_reads _ _ _ _).mp hread₃
    obtain ⟨entries, left₄, hread₄, h₄⟩ := run_bind_ok.mp h₃
    rw [Nat.zero_add] at hsum
    obtain ⟨rfl, hchunks, rfl, hsized⟩ :=
      (chunkTable_reads (fun pair hmem => (htable pair hmem).2) hsum _ _ _).mp hread₄
    obtain ⟨rfl, rfl⟩ := run_pure_ok.mp h₄
    rw [counts_eq fun entry hmem => (hsized entry hmem).1] at hsum
    rw [length_map] at hlen
    constructor
    · simp only [manifestBody, Manifest.chunkCount, hsum, hlen, hframeLen, UInt32.ofNat_toNat,
        flatMap_map, entryRecord_bare, append_assoc]
    · refine ⟨hheader, hlen ▸ hentries, hframeLen ▸ hframes, hsum.le.trans hchunks, ?_⟩
      intro entry hmem
      exact ⟨(htable _ (mem_map_of_mem hmem)).1, (hsized entry hmem).2⟩
  · rintro ⟨rfl, hm⟩
    have hlimit : maxEntries < 2 ^ 32 ∧ maxFrames < 2 ^ 32 ∧ maxChunks < 2 ^ 32 := by decide
    have hentries := toNat_ofNat_length hlimit.1 hm.entries
    have hframes := toNat_ofNat_length hlimit.2.1 hm.frames
    have hchunks : (UInt32.ofNat m.chunkCount).toNat = m.chunkCount :=
      UInt32.toNat_ofNat_of_lt' (hm.chunks.trans_lt hlimit.2.2)
    have hsized : ∀ entry ∈ m.entries, entry.ChunksSized := fun entry hmem =>
      ⟨(length_le_chunkCount hmem).trans_lt (hm.chunks.trans_lt hlimit.2.2), (hm.entry entry hmem).2⟩
    have htable : ∀ pair ∈ m.entries.map Entry.bare, pair.1.Sized ∧ pair.1.chunks = [] := by
      intro pair hpair
      obtain ⟨entry, hmem, rfl⟩ := mem_map.mp hpair
      exact ⟨(hm.entry entry hmem).1, rfl⟩
    have hsum : ((m.entries.map Entry.bare).map (·.2.toNat)).sum = m.chunkCount :=
      counts_eq fun entry hmem => (hsized entry hmem).1
    refine ⟨⟨m.header, UInt32.ofNat m.entries.length, UInt32.ofNat m.frames.length,
        UInt32.ofNat m.chunkCount⟩, _,
      (decodeHeader_reads _ _ _).mpr ⟨append_assoc _ _ _, hm.header⟩,
      run_bind_ok.mpr ⟨m.entries.map Entry.bare, _,
        (entryTable_reads _ _ _ _ _).mpr ⟨?_, ?_, ?_, htable, ?_⟩,
        run_bind_ok.mpr ⟨m.frames, _,
          (frameTable_reads _ _ _ _).mpr ⟨append_assoc _ _ _, ?_, ?_, fun _ _ => trivial⟩,
          run_bind_ok.mpr ⟨m.entries, rest,
            (chunkTable_reads (fun pair hmem => (htable pair hmem).2) ?_ _ _ _).mpr
              ⟨rfl, ?_, rfl, hsized⟩,
            run_pure_ok.mpr ⟨rfl, rfl⟩⟩⟩⟩⟩
    · simp only [flatMap_map, entryRecord_bare, append_assoc]
    · exact hentries.le.trans hm.entries
    · rw [length_map, hentries]
    · rw [Nat.zero_add, hsum, hchunks]
    · exact hframes.le.trans hm.frames
    · exact hframes.symm
    · rw [hsum, hchunks]
    · exact hchunks.le.trans hm.chunks

end PortableFS.Archive
