import PortableFS.Archive.Pack
import PortableFS.Hydrator.Client
import PortableFS.Hydrator.Serve

/-!
# What the hydrator writes and the authority reads

The decoders of the authority recover what the encoders of the hydrator wrote, and each side reads the
frames of the other. The decoder of the authority never stops early, so a lemma for each of its reads
says what is left after it.
-/

namespace PortableFS.Hydrator

open PortableFS.Base PortableFS.Archive Authority WireDecoder
open List hiding Vector
open Reader (run_bind_ok run_require_ok run_take_ok)

theorem uint32_appendUint32 (x : UInt32) : UInt32.ofNat (ofLittleEndian (appendUint32 x)) = x := by
  rw [appendUint32, ofLittleEndian_littleEndian x.toNat_lt, UInt32.ofNat_toNat]

theorem uint64_appendUint64 (x : UInt64) : UInt64.ofNat (ofLittleEndian (appendUint64 x)) = x := by
  rw [appendUint64, ofLittleEndian_littleEndian x.toNat_lt, UInt64.ofNat_toNat]

namespace Authority.WireDecoder

@[simp] theorem take_append {bytes rest : List UInt8} {n : ℕ} (h : bytes.length = n) :
    take { left := bytes ++ rest, err := false } n = (bytes, { left := rest, err := false }) := by
  subst h
  simp [take]

@[simp] theorem u32_append (x : UInt32) (rest : List UInt8) :
    u32 { left := appendUint32 x ++ rest, err := false } = (x, { left := rest, err := false }) := by
  simp only [u32, take_append (length_appendUint32 x), uint32_appendUint32]

@[simp] theorem u64_append (x : UInt64) (rest : List UInt8) :
    u64 { left := appendUint64 x ++ rest, err := false } = (x, { left := rest, err := false }) := by
  simp only [u64, take_append (length_appendUint64 x), uint64_appendUint64]

@[simp] theorem array16_append (v : Vector UInt8 16) (rest : List UInt8) :
    array16 { left := v.toList ++ rest, err := false } = (v, { left := rest, err := false }) := by
  have hvalue : (Vector.ofFn fun i : Fin 16 => v.toList.getD i 0) = v := by
    ext i hi
    simp [getD_eq_getElem?_getD]
  simp only [array16, take_append Vector.length_toList, hvalue]

/-- The last word of a payload. -/
@[simp] theorem u32_last (x : UInt32) :
    u32 { left := appendUint32 x, err := false } = (x, { left := [], err := false }) := by
  have h := u32_append x []
  rwa [append_nil] at h

end Authority.WireDecoder

/-- The header as the authority holds it: the identifiers in their text form. -/
def Info.page (i : Info) : InfoPage :=
  { formatVersion := i.formatVersion
    volumeID := formatUUID i.volumeID
    sealedEpoch := i.sealedEpoch
    attempt := formatUUID i.attempt
    chunkSize := i.chunkSizeBytes
    entryCount := i.entryCount
    chunkCount := i.chunkCount
    logicalBytes := i.logicalBytes
    logicalInodes := i.logicalInodes
    storedBytes := i.sealedAllocatedBytes
    sealedInodes := i.sealedInodes
    priorityPackIndex := i.priorityPackIndex
    priorityPackOffset := i.priorityPackOffset
    drainCount := i.drainCount
    priorityDrainCount := i.priorityDrainCount
    pageSize := i.pageSize }

theorem Info.length_encode (i : Info) : i.encode.length = infoPayloadBytes := by
  simp only [Info.encode, length_append, length_appendUint32, length_appendUint64,
    Vector.length_toList, infoPayloadBytes]

theorem unmarshalInfoPage_encode (i : Info) : unmarshalInfoPage i.encode = .ok i.page := by
  rw [unmarshalInfoPage, if_neg (not_not.mpr i.length_encode)]
  simp [Info.encode, Info.page]

/-- A pair as the authority holds it. -/
def DrainPair.key (pair : DrainPair) : UInt32 × UInt32 := (pair.entryIndex, pair.chunkIndex)

private theorem readPairs_append (pairs : List DrainPair) (rest : List UInt8) :
    readPairs pairs.length { left := pairs.flatMap DrainPair.encode ++ rest, err := false } =
      (pairs.map DrainPair.key, { left := rest, err := false }) := by
  induction pairs with
  | nil => rfl
  | cons pair pairs ih =>
    simp only [length_cons, readPairs, flatMap_cons, DrainPair.encode, append_assoc,
      u32_append, ih, map_cons, DrainPair.key]

private theorem length_pairs (pairs : List DrainPair) :
    (pairs.flatMap DrainPair.encode).length = pairs.length * 8 := by
  induction pairs with
  | nil => rfl
  | cons pair pairs ih =>
    rw [flatMap_cons, length_append, ih, DrainPair.encode, length_append,
      length_appendUint32, length_appendUint32, length_cons]
    omega

theorem DrainPage.length_encode (p : DrainPage) : p.encode.length = 13 + p.pairs.length * 8 := by
  simp only [DrainPage.encode, length_append, length_appendUint32, length_appendUint64,
    length_pairs, length_singleton]
  omega

theorem unmarshalDrainPage_encode {p : DrainPage} (h : p.pairs.length ≤ drainPageSize) :
    unmarshalDrainPage p.encode =
      .ok { cursor := p.cursor, order := p.pairs.map DrainPair.key, more := p.more } := by
  have hsize : p.pairs.length ≤ 8192 := h
  have hcount : (UInt32.ofNat p.pairs.length).toNat = p.pairs.length :=
    UInt32.toNat_ofNat_of_lt' (show p.pairs.length < 2 ^ 32 by omega)
  have hlength := p.length_encode
  have hbound : ¬ (8192 < UInt32.ofNat p.pairs.length ∨
      p.encode.length ≠ 8 + 4 + p.pairs.length * 8 + 1) := by
    rw [UInt32.lt_iff_toNat_lt, hcount, hlength]
    have hpage : (8192 : UInt32).toNat = 8192 := rfl
    omega
  have hcursor : u64 { left := p.encode, err := false } = (p.cursor,
      { left := appendUint32 (UInt32.ofNat p.pairs.length) ++
          (p.pairs.flatMap DrainPair.encode ++ [if p.more then 1 else 0]), err := false }) :=
    u64_append _ _
  have hpairs := readPairs_append p.pairs [if p.more then 1 else 0]
  have hmore : take { left := [if p.more then 1 else 0], err := false } 1 =
      ([if p.more then 1 else 0], { left := [], err := false }) := rfl
  rw [unmarshalDrainPage, if_neg (by omega)]
  simp only [hcursor, u32_append, hcount, if_neg hbound, hpairs, hmore]
  cases p.more <;> rfl

variable {payload : List UInt8}

private theorem ofLittleEndian_frame (h : payload.length + 1 ≤ maxFrameBytes) :
    ofLittleEndian (appendUint32 (UInt32.ofNat (payload.length + 1))) = payload.length + 1 := by
  have hlt : payload.length + 1 < 2 ^ 32 := h.trans_lt (by decide)
  have hnat : (UInt32.ofNat (payload.length + 1)).toNat = payload.length + 1 :=
    UInt32.toNat_ofNat_of_lt' hlt
  rw [appendUint32, ofLittleEndian_littleEndian (UInt32.toNat_lt _), hnat]

variable {kind : UInt8}

theorem writeFrame_eq_ok (h : payload.length + 1 ≤ maxFrameBytes) : writeFrame kind payload =
      .ok (appendUint32 (UInt32.ofNat (payload.length + 1)) ++ (kind :: payload)) := by
  rw [writeFrame, if_neg (by omega)]

theorem readFrame_append (h : payload.length + 1 ≤ maxFrameBytes) :
    readFrame.run (appendUint32 (UInt32.ofNat (payload.length + 1)) ++ (kind :: payload)) =
      .ok ((kind, payload), []) := by
  have hvalue := ofLittleEndian_frame h
  refine run_bind_ok.mpr ⟨_, _, run_take_ok.mpr ⟨rfl, length_appendUint32 _⟩, ?_⟩
  rw [hvalue]
  refine run_bind_ok.mpr ⟨(), _, run_require_ok.mpr ⟨?_, rfl⟩,
    run_bind_ok.mpr ⟨(), _, run_require_ok.mpr ⟨decide_eq_true h, rfl⟩,
      run_bind_ok.mpr ⟨kind :: payload, [], ?_, rfl⟩⟩⟩
  · exact decide_eq_true (by omega)
  · exact run_take_ok.mpr ⟨(append_nil _).symm, rfl⟩

theorem readHydratorFrame_append {max : UInt32}
    (h : payload.length + 1 ≤ maxFrameBytes) (hmax : maxFrameBytes ≤ max.toNat) :
    (readHydratorFrame max).run
      (appendUint32 (UInt32.ofNat (payload.length + 1)) ++ (kind :: payload)) =
      .ok ((kind, payload), []) := by
  have hvalue := ofLittleEndian_frame h
  refine run_bind_ok.mpr ⟨_, _, run_take_ok.mpr ⟨rfl, length_appendUint32 _⟩, ?_⟩
  rw [hvalue]
  refine run_bind_ok.mpr ⟨(), _, run_require_ok.mpr ⟨?_, rfl⟩,
    run_bind_ok.mpr ⟨kind :: payload, [], ?_, rfl⟩⟩
  · exact decide_eq_true ⟨by omega, h.trans hmax⟩
  · exact run_take_ok.mpr ⟨(append_nil _).symm, rfl⟩

variable {chunkSize : UInt32} {index chunkIndex : ℕ} {span total : UInt64}

/-- What validation says of the extents of a chunk is what the authority checks of its spans. -/
theorem readSpans_append {i : ℕ}
    {stored previousEnd : UInt64} {extents : List Extent} (data : List UInt8)
    (hspan : span ≤ chunkSize.toUInt64) (hfirst : i = 0 → stored = 0)
    (hstored : stored ≤ previousEnd)
    (h : validateExtents index chunkIndex span i stored previousEnd extents = .ok total) :
    readSpans chunkSize i extents.length stored previousEnd
      { left := extents.flatMap appendExtent ++ data, err := false } =
      (extents.map fun extent => (extent.offset, extent.length), total,
        { left := data, err := false }) := by
  induction extents generalizing i stored previousEnd with
  | nil =>
    cases h
    rfl
  | cons extent extents ih =>
    obtain ⟨hlength, hapart, hstop, hle, hsum, h⟩ := validateExtents_cons h
    rw [UInt64.le_iff_toNat_le] at hspan hstored hle
    have hbefore : stored.toNat ≤ extent.offset.toNat := by
      rcases hapart with hzero | hafter
      · rw [hfirst hzero]
        exact Nat.zero_le _
      · have hlt := UInt64.lt_iff_toNat_lt.mp hafter
        omega
    have hsumStop : stored + extent.length ≤ extent.offset + extent.length := by
      rw [UInt64.le_iff_toNat_le]
      omega
    have hgood : ¬ (extent.length = 0 ∨ extent.offset + extent.length < extent.offset ∨
        chunkSize.toUInt64 < extent.offset + extent.length ∨
        (0 < i ∧ extent.offset ≤ previousEnd)) := by
      simp only [UInt64.lt_iff_toNat_lt, UInt64.le_iff_toNat_le] at hapart ⊢
      rintro (hzero | hlt | hlt | ⟨hpos, hoff⟩)
      · exact hlength hzero
      · omega
      · omega
      · omega
    have htotal : ¬ chunkSize.toUInt64 < stored + extent.length := by
      rw [UInt64.lt_iff_toNat_lt]
      omega
    have hrest := ih (by omega : i + 1 = 0 → stored + extent.length = 0) hsumStop h
    simp only [length_cons, readSpans, flatMap_cons, appendExtent, append_assoc,
      u64_append, hgood, htotal, map_cons]
    simp only [Bool.false_eq_true, or_self, decide_false, hrest]

theorem unmarshalChunk_encode
    {c : Chunk} (hspan : span ≤ chunkSize.toUInt64) (hcount : c.extents.length ≤ maxExtentsPerChunk)
    (h : validateExtents index chunkIndex span 0 0 0 c.extents = .ok total)
    (hdata : c.data.length = total.toNat) :
    unmarshalChunk c.encode chunkSize =
      .ok { extents := splitSpans (c.extents.map fun extent => (extent.offset, extent.length)) c.data
            bytes := total } := by
  have hle : c.extents.length ≤ 4096 := hcount
  have hnat : (UInt32.ofNat c.extents.length).toNat = c.extents.length :=
    UInt32.toNat_ofNat_of_lt' (show c.extents.length < 2 ^ 32 by omega)
  have hlength : (c.extents.flatMap appendExtent).length = c.extents.length * 16 := by
    rw [length_flatMap]
    simp [extentBytes]
  have hbound : ¬ (1048576 < UInt32.ofNat c.extents.length ∨
      c.encode.length < c.extents.length * 16) := by
    rw [UInt32.lt_iff_toNat_lt, hnat, Chunk.encode, length_append, length_append, hlength]
    have hmax : (1048576 : UInt32).toNat = 1048576 := rfl
    omega
  have hread : u32 { left := c.encode, err := false } = (UInt32.ofNat c.extents.length,
        { left := c.extents.flatMap appendExtent ++ c.data, err := false }) :=
    u32_append _ _
  have hspans := readSpans_append c.data hspan (fun _ => rfl) (UInt64.le_refl 0) h
  have htotal : total = UInt64.ofNat c.data.length := by rw [hdata, UInt64.ofNat_toNat]
  simp only [unmarshalChunk, hread, hnat, if_neg hbound, hspans]
  rw [if_neg]
  rintro (herr | hne)
  · cases herr
  · exact hne htotal

end PortableFS.Hydrator
