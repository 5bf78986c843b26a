import PortableFS.Archive.CodecBijection

/-!
# Reading packs

`vcs/archive/pack.go`: content read through a manifest, verified on the way. The store and the frame
decoder are fields of the reader: whatever they answer is an argument.
-/

namespace PortableFS.Archive

open Base List

/-- The text of `ErrFrameCorrupt` with what is wrong. -/
def corrupt (what : String) : String := "archive: frame is corrupt: " ++ what

/-- `copy(out[offset:offset+len(piece)], piece)`. -/
def copyAt (out : List UInt8) (offset : ℕ) (piece : List UInt8) : List UInt8 :=
  out.take offset ++ (piece ++ out.drop (offset + piece.length))

/-- The loop of `expandExtents`, `pack.go:166`, with the position in the stored bytes. The extents of
a valid manifest do not wrap. -/
def expandLoop (stored : List UInt8) (span : UInt64) :
    List Extent → UInt64 → List UInt8 → Except String (UInt64 × List UInt8)
  | [], position, out => .ok (position, out)
  | extent :: rest, position, out =>
    let stop := extent.offset + extent.length
    if span < stop ∨ UInt64.ofNat stored.length < position + extent.length then
      .error (corrupt "extent map does not fit its chunk")
    else
      let piece := (stored.take (position + extent.length).toNat).drop position.toNat
      expandLoop stored span rest (position + extent.length) (copyAt out extent.offset.toNat piece)

/-- `pack.go:163`. -/
def expandExtents (stored : List UInt8) (extents : List Extent) (span : UInt64) :
    Except String (List UInt8) := do
  let (position, out) ← expandLoop stored span extents 0 (replicate span.toNat 0)
  if position ≠ UInt64.ofNat stored.length then
    .error (corrupt s!"extent map covers {position} of {stored.length} stored bytes")
  else .ok out

/-- `pack.go:32`. -/
structure PackReader where
  manifest : Manifest
  /-- `ReadPackRange` of the source: pack, offset and length. -/
  readPackRange : UInt32 → UInt64 → UInt64 → Except String (List UInt8)
  /-- `DecodeFrame`. -/
  decodeFrame : Frame → List UInt8 → Except String (List UInt8)

/-- `pack.go:53`. -/
def PackReader.frame (r : PackReader) (index : UInt32) : Except String (List UInt8) :=
  match r.manifest.frames[index.toNat]? with
  | none => .error (invalid s!"frame {index} does not exist")
  | some frame =>
    match r.readPackRange frame.packIndex frame.packOffset frame.compressedLength with
    | .error e => .error (s!"archive: read frame {index}: " ++ e)
    | .ok compressed => r.decodeFrame frame compressed

/-- `pack.go:81`. -/
def sliceFrame (sha256 : List UInt8 → Digest) (content : List UInt8) (chunk : ChunkRef) :
    Except String (List UInt8) :=
  let stop := chunk.innerOffset + chunk.length
  if stop < chunk.innerOffset ∨ UInt64.ofNat content.length < stop then
    .error (corrupt "chunk slice runs past its frame")
  else
    let slice := (content.take stop.toNat).drop chunk.innerOffset.toNat
    if sha256 slice ≠ chunk.sliceDigest then
      .error (corrupt "chunk slice digest does not match the manifest")
    else .ok slice

/-- `pack.go:68`. -/
def PackReader.chunk (sha256 : List UInt8 → Digest) (r : PackReader) (chunk : ChunkRef) :
    Except String (List UInt8) :=
  if ¬ chunk.stored then .ok []
  else do
    let content ← r.frame chunk.frameIndex
    sliceFrame sha256 content chunk

/-- `pack.go:144`. -/
def PackReader.entry (r : PackReader) (index : UInt32) : Except String Entry :=
  match r.manifest.entries[index.toNat]? with
  | none => .error (invalid s!"entry {index} does not exist")
  | some entry => .ok entry

/-- `pack.go:98`. -/
def PackReader.readChunkLogical (sha256 : List UInt8 → Digest) (r : PackReader) (entryIndex : UInt32)
    (chunkIndex : ℕ) : Except String (List UInt8) := do
  let entry ← r.entry entryIndex
  match entry.chunks[chunkIndex]? with
  | none => .error (invalid s!"entry {entryIndex} has no chunk {chunkIndex}")
  | some chunk =>
    let span := chunkSpan entry.size r.manifest.header.chunkSizeBytes.toUInt64 chunkIndex
    let stored ← r.chunk sha256 chunk
    expandExtents stored chunk.extents span

/-- The loop of `ReadFile`, `pack.go:130`, over as many chunks from an index on. -/
def PackReader.readChunks (sha256 : List UInt8 → Digest) (r : PackReader) (entryIndex : UInt32) :
    ℕ → ℕ → List UInt8 → Except String (List UInt8)
  | _, 0, out => .ok out
  | chunkIndex, count + 1, out => do
    let span ← r.readChunkLogical sha256 entryIndex chunkIndex
    r.readChunks sha256 entryIndex (chunkIndex + 1) count (out ++ span)

/-- `pack.go:118`. -/
def PackReader.readFile (sha256 : List UInt8 → Digest) (r : PackReader) (entryIndex : UInt32) :
    Except String (List UInt8) := do
  let entry ← r.entry entryIndex
  if entry.type ≠ typeRegular then
    .error (invalid s!"entry {entryIndex} is a {typeText entry.type}, not a regular file")
  else if maxChunkSizeBytes.toUInt64 * 64 < entry.size then
    .error (invalid s!"entry {entryIndex} is too large to reconstruct in memory")
  else
    let out ← r.readChunks sha256 entryIndex 0 entry.chunks.length []
    if UInt64.ofNat out.length ≠ entry.size then
      .error (corrupt
        s!"entry {entryIndex} reconstructed to {out.length} of {entry.size} bytes")
    else .ok out

/-- The bytes of each extent in turn, copied to its place. -/
def placeExtents : List Extent → List UInt8 → List UInt8 → List UInt8
  | [], _, out => out
  | extent :: rest, data, out =>
    placeExtents rest (data.drop extent.length.toNat)
      (copyAt out extent.offset.toNat (data.take extent.length.toNat))

variable {index chunkIndex i : ℕ} {span previousEnd total : UInt64} {extents : List Extent}
variable {stored : UInt64}

/-- One extent that validation accepts, and what is left to validate. -/
theorem validateExtents_cons {extent : Extent}
    (h : validateExtents index chunkIndex span i stored previousEnd (extent :: extents) = .ok total) :
    extent.length ≠ 0 ∧ (i = 0 ∨ previousEnd < extent.offset) ∧
      extent.offset.toNat + extent.length.toNat = (extent.offset + extent.length).toNat ∧
      extent.offset + extent.length ≤ span ∧
      stored.toNat + extent.length.toNat = (stored + extent.length).toNat ∧
      validateExtents index chunkIndex span (i + 1) (stored + extent.length)
        (extent.offset + extent.length) extents = .ok total := by
  rw [validateExtents] at h
  obtain ⟨hlength, h⟩ := require_bind_eq_ok.mp h
  obtain ⟨hapart, h⟩ := require_bind_eq_ok.mp h
  rw [decide_eq_true_eq] at hlength hapart
  split at h
  · cases h
  next stop hrange =>
  split at h
  · cases h
  next sum hsum =>
  obtain ⟨hstop, hle⟩ := checkedRange_eq_some.mp hrange
  rw [checkedAdd_eq_some] at hsum
  have hstopEq : extent.offset + extent.length = stop := by
    apply UInt64.toNat_inj.mp
    rw [UInt64.toNat_add, hstop]
    exact Nat.mod_eq_of_lt stop.toNat_lt
  have hsumEq : stored + extent.length = sum := by
    apply UInt64.toNat_inj.mp
    rw [UInt64.toNat_add, hsum]
    exact Nat.mod_eq_of_lt sum.toNat_lt
  rw [hstopEq, hsumEq]
  exact ⟨hlength, hapart, hstop, hle, hsum, h⟩

/-- A valid chunk stores the lengths of its extents. -/
theorem sum_validateExtents
    (h : validateExtents index chunkIndex span i stored previousEnd extents = .ok total) :
    stored.toNat + (extents.map (·.length.toNat)).sum = total.toNat := by
  induction extents generalizing i stored previousEnd with
  | nil =>
    cases h
    rfl
  | cons extent extents ih =>
    obtain ⟨-, -, -, -, hsum, h⟩ := validateExtents_cons h
    rw [map_cons, sum_cons, ← Nat.add_assoc, hsum]
    exact ih h

/-- The extents of a valid chunk store no more than its span. -/
theorem validateExtents_le_span (hfirst : i = 0 → stored = 0)
    (hstored : stored ≤ previousEnd) (hspan : previousEnd ≤ span)
    (h : validateExtents index chunkIndex span i stored previousEnd extents = .ok total) :
    total ≤ span := by
  induction extents generalizing i stored previousEnd with
  | nil =>
    cases h
    exact UInt64.le_trans hstored hspan
  | cons extent extents ih =>
    obtain ⟨-, hapart, hstop, hle, hsum, h⟩ := validateExtents_cons h
    refine ih (by omega) ?_ hle h
    rw [UInt64.le_iff_toNat_le] at hstored ⊢
    rcases hapart with hzero | hafter
    · rw [hfirst hzero, UInt64.toNat_zero] at hsum
      rw [hfirst hzero]
      omega
    · rw [UInt64.lt_iff_toNat_lt] at hafter
      omega

private theorem expandLoop_eq {position : UInt64} {stored : List UInt8} (out : List UInt8)
    (hstored : stored.length = total.toNat)
    (h : validateExtents index chunkIndex span i position previousEnd extents = .ok total) :
    expandLoop stored span extents position out =
      .ok (total, placeExtents extents (stored.drop position.toNat) out) := by
  induction extents generalizing i position previousEnd out with
  | nil =>
    cases h
    rfl
  | cons extent extents ih =>
    obtain ⟨-, -, -, hspan, hsum, h⟩ := validateExtents_cons h
    have hle : position + extent.length ≤ total := by
      rw [UInt64.le_iff_toNat_le, ← sum_validateExtents h]
      exact Nat.le_add_right _ _
    have htotal : UInt64.ofNat stored.length = total := by rw [hstored, UInt64.ofNat_toNat]
    have hfits : ¬ (span < extent.offset + extent.length ∨
        UInt64.ofNat stored.length < position + extent.length) := by
      rw [htotal]
      rintro (hlt | hlt)
      · exact absurd hspan (UInt64.not_le.mpr hlt)
      · exact absurd hle (UInt64.not_le.mpr hlt)
    have hpiece : (stored.take (position + extent.length).toNat).drop position.toNat =
        (stored.drop position.toNat).take extent.length.toNat := by
      rw [drop_take, ← hsum, Nat.add_sub_cancel_left]
    rw [expandLoop, if_neg hfits, ih _ h, hpiece, placeExtents, drop_drop, hsum]

/-- The stored bytes of a valid chunk expand to its span. -/
theorem expandExtents_eq {stored : List UInt8} (hstored : stored.length = total.toNat)
    (h : validateExtents index chunkIndex span 0 0 0 extents = .ok total) :
    expandExtents stored extents span =
      .ok (placeExtents extents stored (replicate span.toNat 0)) := by
  have hloop := expandLoop_eq (replicate span.toNat 0) hstored h
  rw [expandExtents, hloop]
  simp [bind, Except.bind, hstored]

section Hash

variable {sha256 : List UInt8 → Digest} {chunk : ChunkRef}

variable {frames : List Frame} {size chunkSize : UInt64} {first j : ℕ}

private theorem validateChunkList_chunk {chunks : List ChunkRef}
    (h : validateChunkList sha256 frames size chunkSize index first chunks = .ok ())
    (hchunk : chunks[j]? = some chunk) :
    validateChunk sha256 frames size chunkSize index (first + j) chunk = .ok () := by
  induction chunks generalizing first j with
  | nil => simp at hchunk
  | cons head chunks ih =>
    rw [validateChunkList, unit_bind_eq_ok] at h
    cases j with
    | zero =>
      cases hchunk
      exact h.1
    | succ j =>
      rw [getElem?_cons_succ] at hchunk
      have hrest := ih h.2 hchunk
      rwa [Nat.add_right_comm] at hrest

variable {m : Manifest} {entry : Entry}

private theorem validateEntryList_shape {scan scan' : EntryScan}
    {entries : List Entry} (h : validateEntryList sha256 m first scan entries = .ok scan')
    (hentry : entries[i]? = some entry) :
    validateEntryShape sha256 m.frames entry (first + i) m.header.chunkSizeBytes.toUInt64 =
      .ok () := by
  induction entries generalizing first scan i with
  | nil => simp at hentry
  | cons head entries ih =>
    rw [validateEntryList] at h
    obtain ⟨next, hhead, hrest⟩ := bind_eq_ok.mp h
    cases i with
    | zero =>
      cases hentry
      unfold validateEntry at hhead
      obtain ⟨placed, -, hhead⟩ := bind_eq_ok.mp hhead
      simp only [unit_bind_eq_ok] at hhead
      exact hhead.2.2.2.1
    | succ i =>
      rw [getElem?_cons_succ] at hentry
      have hshape := ih hrest hentry
      rwa [Nat.add_right_comm] at hshape

theorem validate_entryShape (h : validate sha256 m = .ok ()) (hentry : m.entries[i]? = some entry) :
    validateEntryShape sha256 m.frames entry i m.header.chunkSizeBytes.toUInt64 = .ok () := by
  obtain ⟨-, -, -, -, -, hvalid, -, -⟩ := validate_eq_ok.mp h
  obtain ⟨scan, hlist, -⟩ := bind_eq_ok.mp hvalid
  have hshape := validateEntryList_shape hlist hentry
  rwa [Nat.zero_add] at hshape

/-- Every chunk of a regular file of a valid manifest passed the checks of a chunk. -/
theorem validate_chunk (h : validate sha256 m = .ok ()) (hentry : m.entries[i]? = some entry)
    (htype : entry.type = typeRegular) (hchunk : entry.chunks[j]? = some chunk) :
    validateChunk sha256 m.frames entry.size m.header.chunkSizeBytes.toUInt64 i j chunk =
      .ok () := by
  have hshape := validate_entryShape h hentry
  rw [validateEntryShape, if_neg (by rw [htype]; decide), if_neg (by rw [htype]; decide),
    if_pos htype] at hshape
  simp only [validateChunks, unit_bind_eq_ok] at hshape
  have hvalid := validateChunkList_chunk hshape.2.2.2.2 hchunk
  rwa [Nat.zero_add] at hvalid

theorem chunkSpan_le (size chunkSize : UInt64) (chunkIndex : ℕ) :
    chunkSpan size chunkSize chunkIndex ≤ chunkSize := by
  unfold chunkSpan
  dsimp only
  split
  · next h => exact UInt64.le_of_lt h
  · exact UInt64.le_refl _

/-- A valid chunk: its extents fit its span and store its length, and it lies in a frame unless it
stores nothing. -/
theorem validateChunk_eq_ok
    (h : validateChunk sha256 frames size chunkSize index chunkIndex chunk = .ok ()) :
    chunk.extents.length ≤ maxExtentsPerChunk ∧
      validateExtents index chunkIndex (chunkSpan size chunkSize chunkIndex) 0 0 0 chunk.extents =
        .ok chunk.length ∧
      (chunk.length = 0 → chunk.frameIndex = noFrame) ∧
      (chunk.length ≠ 0 → chunk.frameIndex < UInt32.ofNat frames.length ∧
        chunk.innerOffset.toNat + chunk.length.toNat ≤
          (frameLength frames chunk.frameIndex).toNat) := by
  unfold validateChunk at h
  obtain ⟨hcount, hrest⟩ := require_bind_eq_ok.mp h
  obtain ⟨stored, hextents, hrest₂⟩ := bind_eq_ok.mp hrest
  obtain ⟨hstored, hplace⟩ := require_bind_eq_ok.mp hrest₂
  rw [decide_eq_true_eq] at hcount hstored
  refine ⟨hcount, hstored ▸ hextents, ?_, ?_⟩
  · intro hzero
    rw [if_pos hzero] at hplace
    obtain ⟨hframe, -⟩ := require_bind_eq_ok.mp hplace
    exact (of_decide_eq_true hframe).1
  intro hnonzero
  rw [if_neg hnonzero] at hplace
  obtain ⟨hframe, hinner⟩ := require_bind_eq_ok.mp hplace
  rw [require_eq_ok, Option.isSome_iff_exists] at hinner
  obtain ⟨stop, hstop⟩ := hinner
  obtain ⟨hsum, hle⟩ := checkedRange_eq_some.mp hstop
  rw [UInt64.le_iff_toNat_le] at hle
  exact ⟨of_decide_eq_true hframe, by omega⟩

end Hash

end PortableFS.Archive
