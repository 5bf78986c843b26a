import PortableFS.Hydrator.Bindings
import PortableFS.Hydrator.WireRoundTrip

/-!
# The hydrator and the authority agree

What the client of the authority returns over a connection to the hydrator is what the hydrator
holds: the header and the drain order through the pages of INFO, each stored chunk through FETCH, and
the table of bindings through its file.
-/

namespace PortableFS.Hydrator

open PortableFS.Base PortableFS.Archive Authority
open List hiding Vector

variable {sha256 : List UInt8 → Digest} {s : Server} {host : Host} {maxFrame : UInt32}

theorem roundTrip_eq_ok {kind replyKind : UInt8} {payload reply : List UInt8}
    (hmax : maxFrameBytes ≤ maxFrame.toNat) (hpayload : payload.length + 1 ≤ maxFrameBytes)
    (hreply : reply.length + 1 ≤ maxFrameBytes) (hkind : replyKind ≠ typeErr)
    (h : s.respond sha256 host kind payload = writeFrame replyKind reply) :
    roundTrip maxFrame (s.handle sha256 host) kind payload = .ok (replyKind, reply) := by
  have hrequest : writeHydratorFrame maxFrame kind payload =
      .ok (appendUint32 (UInt32.ofNat (payload.length + 1)) ++ (kind :: payload)) := by
    rw [writeHydratorFrame, if_neg (by omega)]
  have hhandle : s.handle sha256 host
      (appendUint32 (UInt32.ofNat (payload.length + 1)) ++ (kind :: payload)) =
      appendUint32 (UInt32.ofNat (reply.length + 1)) ++ (replyKind :: reply) := by
    simp only [Server.handle, readFrame_append hpayload, h, writeFrame_eq_ok hreply]
  rw [roundTrip, hrequest]
  simp only [bind, Except.bind, hhandle, readHydratorFrame_append hreply hmax, if_neg hkind]

theorem decodeCursor_append (cursor : UInt64) : decodeCursor (appendUint64 cursor) = .ok cursor := by
  rw [decodeCursor, if_neg (not_not.mpr (length_appendUint64 cursor)), uint64_appendUint64]

theorem respond_info (sha256 : List UInt8 → Digest) (s : Server) (host : Host) :
    s.respond sha256 host typeInfo [] = writeFrame typeInfoOK s.info.encode := rfl

theorem respond_infoNext {cursor : UInt64} {page : DrainPage} (h : s.page cursor = .ok page) :
    s.respond sha256 host typeInfoNext (appendUint64 cursor) =
      writeFrame typeDrainPage page.encode := by
  rw [Server.respond, if_neg (by decide), if_pos rfl, decodeCursor_append]
  simp only [h]

/-- The page from a position on. -/
def Server.pageFrom (s : Server) (k : ℕ) : DrainPage :=
  { cursor := UInt64.ofNat k
    pairs := (s.drain.drop k).take drainPageSize
    more := k + drainPageSize < s.drain.length }

theorem length_pageFrom (s : Server) (k : ℕ) :
    (s.pageFrom k).pairs.length = min 8192 (s.drain.length - k) := by
  rw [Server.pageFrom, length_take, length_drop, drainPageSize]

theorem pageFrom_append (s : Server) (k : ℕ) :
    (s.pageFrom k).pairs ++ s.drain.drop (k + (s.pageFrom k).pairs.length) = s.drain.drop k := by
  rw [← drop_drop, length_pageFrom, Server.pageFrom, drainPageSize]
  by_cases hle : 8192 ≤ s.drain.length - k
  · rw [min_eq_left hle, take_append_drop]
  · have hlength : (s.drain.drop k).length = s.drain.length - k := length_drop
    rw [min_eq_right (by omega), take_of_length_le (by omega), ← hlength, drop_length, append_nil]

variable {k : ℕ}

theorem page_eq_ok (hk : k ≤ s.drain.length) (hlen : s.drain.length < 2 ^ 63) :
    s.page (UInt64.ofNat k) = .ok (s.pageFrom k) := by
  have hcursor : (UInt64.ofNat k).toNat = k :=
    UInt64.toNat_ofNat_of_lt' (show k < 2 ^ 64 by omega)
  rw [Server.page, hcursor, if_neg (by omega)]
  have hpairs : (s.drain.take (min (k + drainPageSize) s.drain.length)).drop k =
      (s.drain.drop k).take drainPageSize := by
    rw [drop_take]
    by_cases hle : k + drainPageSize ≤ s.drain.length
    · rw [min_eq_left hle, Nat.add_sub_cancel_left]
    · rw [min_eq_right (by omega), take_of_length_le, take_of_length_le]
      · rw [length_drop]
        omega
      · rw [length_drop]
  have hmore : decide (min (k + drainPageSize) s.drain.length < s.drain.length) =
      decide (k + drainPageSize < s.drain.length) := by
    simp only [decide_eq_decide]
    omega
  simp only [hpairs, hmore, Server.pageFrom]

private theorem roundTrip_page (hmax : maxFrameBytes ≤ maxFrame.toNat)
    (hk : k ≤ s.drain.length) (hlen : s.drain.length < 2 ^ 63) :
    roundTrip maxFrame (s.handle sha256 host) typeInfoNext (appendUint64 (UInt64.ofNat k)) =
      .ok (typeDrainPage, (s.pageFrom k).encode) := by
  refine roundTrip_eq_ok hmax ?_ ?_ (by decide) (respond_infoNext (page_eq_ok hk hlen))
  · rw [length_appendUint64]
    decide
  · rw [DrainPage.length_encode, length_pageFrom, maxFrameBytes]
    omega

-- The loop has collected the first `k` pairs, and the pages left cover the rest.
private theorem collectPages_eq {first : InfoPage} (hmax : maxFrameBytes ≤ maxFrame.toNat)
    (hlen : s.drain.length < 2 ^ 63) (hcount : first.drainCount = UInt64.ofNat s.drain.length)
    (hsize : first.pageSize = 8192) (pages : ℕ) (hk : k ≤ s.drain.length)
    (hpages : s.drain.length - k ≤ pages * drainPageSize) (order : List (UInt32 × UInt32)) :
    collectPages maxFrame (s.handle sha256 host) first pages (UInt64.ofNat k) order =
      .ok (order ++ (s.drain.drop k).map DrainPair.key) := by
  have hnat {n : ℕ} (hn : n ≤ s.drain.length) : (UInt64.ofNat n).toNat = n :=
    UInt64.toNat_ofNat_of_lt' (show n < 2 ^ 64 by omega)
  have hbefore {n : ℕ} (hn : n ≤ s.drain.length) :
      UInt64.ofNat n < first.drainCount ↔ n < s.drain.length := by
    rw [hcount, UInt64.lt_iff_toNat_lt, hnat le_rfl, hnat hn]
  have hdone {n : ℕ} (hn : n ≤ s.drain.length) :
      first.drainCount ≤ UInt64.ofNat n ↔ s.drain.length ≤ n := by
    rw [hcount, UInt64.le_iff_toNat_le, hnat le_rfl, hnat hn]
  induction pages generalizing k order with
  | zero =>
    have hall : s.drain.length ≤ k := by omega
    rw [collectPages, if_pos ((hdone hk).mpr hall), drop_eq_nil_of_le hall]
    simp
  | succ pages ih =>
    by_cases hall : s.drain.length ≤ k
    · rw [collectPages, if_pos ((hdone hk).mpr hall), drop_eq_nil_of_le hall]
      simp
    have hlength := length_pageFrom s k
    have hnext : UInt64.ofNat k + UInt64.ofNat (s.pageFrom k).pairs.length =
        UInt64.ofNat (k + (s.pageFrom k).pairs.length) := (UInt64.ofNat_add k _).symm
    have hnextLe : k + (s.pageFrom k).pairs.length ≤ s.drain.length := by omega
    have hunmarshal := unmarshalDrainPage_encode (show (s.pageFrom k).pairs.length ≤ 8192 by omega)
    have hgood : ¬ ((s.pageFrom k).cursor ≠ UInt64.ofNat k ∨ (s.pageFrom k).pairs.length = 0 ∨
        first.pageSize.toNat < (s.pageFrom k).pairs.length) := by
      have h8192 : first.pageSize.toNat = 8192 := by rw [hsize]; rfl
      rintro (hcursor | hempty | hlong)
      · exact hcursor rfl
      · omega
      · omega
    have hmore : ¬ (first.drainCount < UInt64.ofNat (k + (s.pageFrom k).pairs.length) ∨
        (s.pageFrom k).more ≠
          decide (UInt64.ofNat (k + (s.pageFrom k).pairs.length) < first.drainCount)) := by
      rintro (hpast | hmore)
      · rw [← UInt64.not_le] at hpast
        rw [hcount, UInt64.le_iff_toNat_le, hnat le_rfl, hnat hnextLe] at hpast
        exact hpast hnextLe
      · apply hmore
        refine (decide_eq_decide.mpr ?_ : decide (k + 8192 < s.drain.length) = _)
        rw [hbefore hnextLe]
        omega
    have hrest := ih hnextLe (by
      rw [Nat.succ_mul, drainPageSize] at hpages
      rw [drainPageSize]
      omega) (order ++ (s.pageFrom k).pairs.map DrainPair.key)
    rw [collectPages, if_neg (fun h => hall ((hdone hk).mp h)), roundTrip_page hmax hk hlen]
    simp only [bind, Except.bind, ne_eq, not_true_eq_false, if_false, hunmarshal, length_map]
    rw [if_neg hgood, hnext, if_neg hmore, hrest, append_assoc, ← map_append, pageFrom_append]

theorem info_eq_ok {maxStored : UInt64} (hmax : maxFrameBytes ≤ maxFrame.toNat)
    (hlen : s.drain.length ≤ maxDrainPairs) (hstored : maxDrainPairs ≤ maxStored.toNat) :
    info maxFrame (s.handle sha256 host) maxStored =
      .ok (s.info.page, s.drain.map DrainPair.key) := by
  have hpairs : maxDrainPairs = 8388608 := rfl
  have hcount : s.info.page.drainCount = UInt64.ofNat s.drain.length := rfl
  have hsize : s.info.page.pageSize = 8192 := rfl
  have hnat : (UInt64.ofNat s.drain.length).toNat = s.drain.length :=
    UInt64.toNat_ofNat_of_lt' (show s.drain.length < 2 ^ 64 by omega)
  have hreply := roundTrip_eq_ok hmax (by decide)
    (by
      rw [Info.length_encode]
      decide)
    (by decide) (respond_info sha256 s host)
  have hgood : ¬ (s.info.page.pageSize ≠ 8192 ∨ maxStored < s.info.page.drainCount ∨
      2 ^ 63 - 1 < s.info.page.drainCount.toNat) := by
    rw [hsize, hcount, UInt64.lt_iff_toNat_lt, hnat]
    simp only [ne_eq, not_true_eq_false, false_or]
    omega
  have hpages : collectPages maxFrame (s.handle sha256 host) s.info.page (2 ^ 20 + 1)
      (UInt64.ofNat 0) [] = .ok ([] ++ (s.drain.drop 0).map DrainPair.key) :=
    collectPages_eq hmax (by omega) hcount hsize _ (Nat.zero_le _) (by rw [drainPageSize]; omega) []
  rw [info]
  simp only [bind, Except.bind, hreply, ne_eq, not_true_eq_false, if_false, unmarshalInfoPage_encode]
  rw [if_neg hgood]
  have hzero : (0 : UInt64) = UInt64.ofNat 0 := rfl
  simp only [hzero, hpages, nil_append, drop_zero, length_map, hcount, hnat,
    not_true_eq_false, if_false]

variable {m : Manifest} {pairs pairs' : List Ordered}

private theorem collectChunks_length {entryIndex first : ℕ} {chunks : List ChunkRef}
 (hpairs : pairs.length ≤ maxDrainPairs)
    (h : collectChunks m entryIndex first chunks pairs = .ok pairs') :
    pairs'.length ≤ maxDrainPairs := by
  induction chunks generalizing first pairs with
  | nil =>
    cases h
    exact hpairs
  | cons chunk chunks ih =>
    rw [collectChunks] at h
    split at h
    · exact ih hpairs h
    split at h
    · cases h
    · next hroom =>
      refine ih ?_ h
      rw [length_append, length_singleton]
      omega

variable {index : ℕ}

private theorem collectEntries_length {created : List UInt32}
    {entries : List Entry} (hpairs : pairs.length ≤ maxDrainPairs)
    (h : collectEntries m index created entries pairs = .ok pairs') :
    pairs'.length ≤ maxDrainPairs := by
  induction entries generalizing index created pairs with
  | nil =>
    cases h
    exact hpairs
  | cons entry entries ih =>
    rw [collectEntries] at h
    split at h
    · exact ih hpairs h
    · obtain ⟨next, hnext, hrest⟩ := bind_eq_ok.mp h
      exact ih (collectChunks_length hpairs hnext) hrest

theorem newServer_eq_ok (h : newServer m = .ok s) :
    s.manifest = m ∧ drainOrder m = .ok (s.drain, s.priorityCount) ∧
      s.drain.length ≤ maxDrainPairs := by
  obtain ⟨⟨drain, priorityCount⟩, horder, hs⟩ := bind_eq_ok.mp h
  cases hs
  refine ⟨rfl, horder, ?_⟩
  obtain ⟨pairs, hpairs, hsorted⟩ := bind_eq_ok.mp horder
  cases hsorted
  rw [length_map, length_insertionSort]
  exact collectEntries_length (Nat.zero_le _) hpairs

private theorem hexDigit_injective : ∀ a b : Fin 16, hexDigit a = hexDigit b → a = b := by
  decide

private theorem hexDigit_inj {a b : ℕ} (ha : a < 16) (hb : b < 16) (h : hexDigit a = hexDigit b) :
    a = b :=
  congrArg Fin.val (hexDigit_injective ⟨a, ha⟩ ⟨b, hb⟩ h)

private theorem hexEncode_inj {a b : List UInt8} (h : hexEncode a = hexEncode b) : a = b := by
  induction a generalizing b with
  | nil =>
    cases b with
    | nil => rfl
    | cons byte b => simp [hexEncode] at h
  | cons byte a ih =>
    cases b with
    | nil => simp [hexEncode] at h
    | cons byte' b =>
      simp only [hexEncode, flatMap_cons, cons_append, nil_append, cons.injEq] at h
      obtain ⟨hhigh, hlow, hrest⟩ := h
      have hlt := byte.toNat_lt
      have hlt' := byte'.toNat_lt
      have hdiv := hexDigit_inj (by omega) (by omega) hhigh
      have hmod := hexDigit_inj (by omega) (by omega) hlow
      have hbyte : byte = byte' := UInt8.toNat_inj.mp (by omega)
      rw [hbyte, ih hrest]

private theorem length_hexEncode (bytes : List UInt8) :
    (hexEncode bytes).length = 2 * bytes.length := by
  simp [hexEncode, length_flatMap, Nat.mul_comm]

theorem formatUUID_inj {v w : Vector UInt8 16} (h : formatUUID v = formatUUID w) : v = w := by
  have hv : (hexEncode v.toList).length = 32 := by rw [length_hexEncode, Vector.length_toList]
  have hw : (hexEncode w.toList).length = 32 := by rw [length_hexEncode, Vector.length_toList]
  -- Both texts have their dashes at the same places, so the pieces between them agree.
  obtain ⟨h₁, h⟩ := append_inj h (by simp [hv, hw])
  obtain ⟨h₂, h⟩ := append_inj (cons.inj h).2 (by simp [hv, hw])
  obtain ⟨h₃, h⟩ := append_inj (cons.inj h).2 (by simp [hv, hw])
  obtain ⟨h₄, h⟩ := append_inj (cons.inj h).2 (by simp [hv, hw])
  have h₅ := (cons.inj h).2
  have hsplit (raw : List Char) : raw = raw.take 8 ++ ((raw.drop 8).take 4 ++
      ((raw.drop 12).take 4 ++ ((raw.drop 16).take 4 ++ raw.drop 20))) := by
    have h20 : raw.drop 20 = (raw.drop 16).drop 4 := by rw [drop_drop]
    have h16 : raw.drop 16 = (raw.drop 12).drop 4 := by rw [drop_drop]
    have h12 : raw.drop 12 = (raw.drop 8).drop 4 := by rw [drop_drop]
    rw [h20, take_append_drop, h16, take_append_drop, h12, take_append_drop, take_append_drop]
  have hraw : hexEncode v.toList = hexEncode w.toList := by
    rw [hsplit (hexEncode v.toList), h₁, h₂, h₃, h₄, h₅, ← hsplit]
  exact Vector.toList_inj.mp (hexEncode_inj hraw)

/-- The authority's header determines the hydrator's. -/
theorem Info.page_inj {i j : Info} (h : i.page = j.page) : i = j := by
  cases i
  cases j
  simp only [Info.page, InfoPage.mk.injEq] at h
  obtain ⟨rfl, hvolume, rfl, hattempt, rfl, rfl, rfl, rfl, rfl, rfl, rfl, rfl, rfl, rfl, rfl, rfl⟩ := h
  rw [formatUUID_inj hvolume, formatUUID_inj hattempt]

/-- What `installFetchedChunkLocked` writes, `mode.go:548`: each extent at its offset in the span. -/
def installExtents : List (UInt64 × List UInt8) → List UInt8 → List UInt8
  | [], out => out
  | (offset, data) :: rest, out => installExtents rest (copyAt out offset.toNat data)

theorem installExtents_splitSpans (extents : List Extent) (data out : List UInt8) :
    installExtents (splitSpans (extents.map fun extent => (extent.offset, extent.length)) data) out =
      placeExtents extents data out := by
  induction extents generalizing data out with
  | nil => rfl
  | cons extent extents ih => exact ih _ _

variable {entryIndex chunkIndex : UInt32} {c : Chunk} {chunk : ChunkRef}

theorem sliceChunk_eq_ok {content : List UInt8}
    (h : sliceChunk sha256 entryIndex chunkIndex chunk content = .ok c) :
    c.extents = chunk.extents ∧ c.data.length = chunk.length.toNat ∧
      (content.length < 2 ^ 64 → sliceFrame sha256 content chunk = .ok c.data) := by
  unfold sliceChunk at h
  dsimp only at h
  split at h
  · cases h
  next hfits =>
  split at h
  · cases h
  next hdigest =>
  cases h
  rw [not_or, UInt64.lt_iff_toNat_lt, UInt64.toNat_add] at hfits
  have hlength := chunk.length.toNat_lt
  have hoffset := chunk.innerOffset.toNat_lt
  refine ⟨rfl, ?_, ?_⟩
  · rw [length_drop, length_take, UInt64.toNat_add]
    omega
  intro hcontent
  have hnat : (UInt64.ofNat content.length).toNat = content.length :=
    UInt64.toNat_ofNat_of_lt' hcontent
  have hfits' : ¬ (chunk.innerOffset + chunk.length < chunk.innerOffset ∨
      UInt64.ofNat content.length < chunk.innerOffset + chunk.length) := by
    rw [not_or, UInt64.lt_iff_toNat_lt, UInt64.lt_iff_toNat_lt, hnat, UInt64.toNat_add]
    exact hfits
  unfold sliceFrame
  dsimp only
  rw [if_neg hfits', if_neg hdigest]

private theorem decodeFetch_append (entryIndex chunkIndex : UInt32) :
    decodeFetch (appendUint32 entryIndex ++ appendUint32 chunkIndex) =
      .ok (entryIndex, chunkIndex) := by
  have hlength : (appendUint32 entryIndex ++ appendUint32 chunkIndex).length = 8 := by
    rw [length_append, length_appendUint32, length_appendUint32]
  rw [decodeFetch, if_neg (not_not.mpr hlength), take_left' (length_appendUint32 _),
    drop_left' (length_appendUint32 _), uint32_appendUint32, uint32_appendUint32]

private theorem respond_fetch (h : s.fetch sha256 host entryIndex chunkIndex = .ok c) :
    s.respond sha256 host typeFetch (appendUint32 entryIndex ++ appendUint32 chunkIndex) =
      writeFrame typeChunk c.encode := by
  rw [Server.respond, if_neg (by decide), if_neg (by decide), if_pos rfl, decodeFetch_append]
  simp only [h]

variable {entry : Entry}

/-- A stored chunk that was fetched is a slice of its frame. -/
theorem fetch_stored (hentry : s.manifest.entries[entryIndex.toNat]? = some entry)
    (hchunk : entry.chunks[chunkIndex.toNat]? = some chunk) (hstored : chunk.stored)
    (h : s.fetch sha256 host entryIndex chunkIndex = .ok c) :
    entry.type = typeRegular ∧ ∃ content, s.frame host chunk.frameIndex = .ok content ∧
      sliceChunk sha256 entryIndex chunkIndex chunk content = .ok c := by
  unfold Server.fetch at h
  simp only [hentry, hchunk, hstored, not_true_eq_false, if_false] at h
  split at h
  · cases h
  next htype =>
  refine ⟨not_not.mp htype, ?_⟩
  split at h
  · cases h
  · next content hframe => exact ⟨content, hframe, h⟩

private theorem length_chunk_encode (c : Chunk) :
    c.encode.length = 4 + c.extents.length * 16 + c.data.length := by
  have hextents : (c.extents.flatMap appendExtent).length = c.extents.length * 16 := by
    rw [length_flatMap]
    simp [extentBytes]
  rw [Chunk.encode, length_append, length_append, length_appendUint32, hextents]
  omega

private theorem splitSpans_extents {extents : List Extent} {data : List UInt8}
    (h : (extents.map (·.length.toNat)).sum = data.length) :
    (splitSpans (extents.map fun extent => (extent.offset, extent.length)) data).map
        (fun part => ({ offset := part.1, length := UInt64.ofNat part.2.length } : Extent)) =
      extents ∧
    (splitSpans (extents.map fun extent => (extent.offset, extent.length)) data).flatMap (·.2) =
      data := by
  induction extents generalizing data with
  | nil =>
    have hnil : data = [] := length_eq_zero_iff.mp h.symm
    subst hnil
    exact ⟨rfl, rfl⟩
  | cons extent extents ih =>
    rw [map_cons, sum_cons] at h
    have htake : (data.take extent.length.toNat).length = extent.length.toNat := by
      rw [length_take]
      omega
    have hrest : (extents.map (·.length.toNat)).sum = (data.drop extent.length.toNat).length := by
      rw [length_drop]
      omega
    obtain ⟨hextents, hdata⟩ := ih hrest
    constructor
    · simp only [map_cons, splitSpans, htake, UInt64.ofNat_toNat, hextents]
    · simp only [map_cons, splitSpans, flatMap_cons, hdata, take_append_drop]

/-- What the authority has after it fetched a stored chunk: the extents of the manifest, their bytes
and, put in place, the span that the pack reader returns for frames of the same content. -/
structure ChunkAgrees (sha256 : List UInt8 → Digest) (s : Server) (host : Host) (entryIndex : UInt32)
    (chunkIndex : UInt32) (span : UInt64) (c : Chunk) (reply : ChunkReply) : Prop where
  extents : reply.extents.map
    (fun part => ({ offset := part.1, length := UInt64.ofNat part.2.length } : Extent)) = c.extents
  data : reply.extents.flatMap (·.2) = c.data
  bytes : reply.bytes = UInt64.ofNat c.data.length
  expanded : expandExtents c.data c.extents span =
    .ok (installExtents reply.extents (replicate span.toNat 0))
  logical : ∀ r : PackReader, r.manifest = s.manifest →
    (∀ index content, s.frame host index = .ok content →
      r.frame index = .ok content ∧ content.length < 2 ^ 64) →
    r.readChunkLogical sha256 entryIndex chunkIndex.toNat =
      .ok (installExtents reply.extents (replicate span.toNat 0))

theorem fetch_agrees (hvalid : validate sha256 s.manifest = .ok ())
    (hsize : s.manifest.header.chunkSizeBytes ≤ maxServedChunkBytes)
    (hmax : maxFrameBytes ≤ maxFrame.toNat)
    (hentry : s.manifest.entries[entryIndex.toNat]? = some entry)
    (hchunk : entry.chunks[chunkIndex.toNat]? = some chunk) (hstored : chunk.stored)
    (h : s.fetch sha256 host entryIndex chunkIndex = .ok c) :
    c.encode.length + 1 ≤ maxFrameBytes ∧
      ∃ reply, fetch maxFrame (s.handle sha256 host) entryIndex chunkIndex
          s.manifest.header.chunkSizeBytes = .ok reply ∧
        ChunkAgrees sha256 s host entryIndex chunkIndex
          (chunkSpan entry.size s.manifest.header.chunkSizeBytes.toUInt64 chunkIndex.toNat) c
          reply := by
  obtain ⟨htype, content, hframe, hslice⟩ := fetch_stored hentry hchunk hstored h
  obtain ⟨hextents, hdata, hsliceFrame⟩ := sliceChunk_eq_ok hslice
  obtain ⟨hcount, hvalidExtents, -, -⟩ :=
    validateChunk_eq_ok (validate_chunk hvalid hentry htype hchunk)
  rw [← hextents] at hcount hvalidExtents
  have hspan := chunkSpan_le entry.size s.manifest.header.chunkSizeBytes.toUInt64 chunkIndex.toNat
  have hfits : c.encode.length + 1 ≤ maxFrameBytes := by
    have hle := validateExtents_le_span (fun _ => rfl) (UInt64.le_refl 0)
      (UInt64.le_iff_toNat_le.mpr (Nat.zero_le _)) hvalidExtents
    rw [UInt64.le_iff_toNat_le] at hle hspan
    rw [UInt32.le_iff_toNat_le] at hsize
    have hserved : maxServedChunkBytes.toNat = 8388608 := rfl
    have hcount' : c.extents.length ≤ 4096 := hcount
    rw [UInt32.toNat_toUInt64] at hspan
    rw [length_chunk_encode, maxFrameBytes]
    omega
  have hexpand := expandExtents_eq hdata hvalidExtents
  have hrequest : (appendUint32 entryIndex ++ appendUint32 chunkIndex).length + 1 ≤
      maxFrameBytes := by
    rw [length_append, length_appendUint32, length_appendUint32]
    decide
  have hround := roundTrip_eq_ok hmax hrequest hfits (by decide) (respond_fetch h)
  have hreply := unmarshalChunk_encode hspan hcount hvalidExtents hdata
  have hfetch : fetch maxFrame (s.handle sha256 host) entryIndex chunkIndex
      s.manifest.header.chunkSizeBytes = .ok {
        extents :=
          splitSpans (c.extents.map fun extent => (extent.offset, extent.length)) c.data
        bytes := chunk.length } := by
    rw [fetch, hround]
    simpa [bind, Except.bind] using hreply
  have hsum := sum_validateExtents hvalidExtents
  rw [UInt64.toNat_zero, Nat.zero_add, ← hdata] at hsum
  obtain ⟨hmap, hflat⟩ := splitSpans_extents hsum
  refine ⟨hfits, _, hfetch, hmap, hflat, ?_, ?_, ?_⟩
  · rw [hdata, UInt64.ofNat_toNat]
  · rw [installExtents_splitSpans, hexpand]
  intro r hr hframes
  obtain ⟨hcontent, hlt⟩ := hframes _ _ hframe
  have hread : r.chunk sha256 chunk = .ok c.data := by
    rw [PackReader.chunk, if_neg (by simp [hstored]), hcontent]
    exact hsliceFrame hlt
  rw [PackReader.readChunkLogical, PackReader.entry, hr, hentry]
  simp only [bind, Except.bind, hchunk, hread]
  rw [installExtents_splitSpans, ← hextents, hexpand]

/-- A table with one record for each entry of a manifest, as a restore writes it. -/
structure CompleteTable (bindings : List Binding) : Prop where
  order : bindings.map (·.entryIndex) = (range bindings.length).map UInt32.ofNat
  identity : ∀ binding ∈ bindings, binding.identity ≠ Vector.replicate 16 0

theorem length_bindings (bindings : List Binding) :
    (bindings.flatMap Binding.encode).length = bindings.length * bindingRecordBytes := by
  simp [length_flatMap, Binding.encode, bindingRecordBytes]

variable {bindings : List Binding}

theorem encodeBindingList_eq_ok {previous : Option UInt32} {records : List UInt8}
    (h : encodeBindingList index previous bindings = .ok records) :
    records = bindings.flatMap Binding.encode := by
  induction bindings generalizing index previous records with
  | nil =>
    cases h
    rfl
  | cons binding bindings ih =>
    rw [encodeBindingList] at h
    split at h
    · cases h
    · obtain ⟨rest, hrest, h⟩ := bind_eq_ok.mp h
      cases h
      rw [flatMap_cons, ih hrest]

/-- The bytes of a table before its seal. -/
def bindingBody (bindings : List Binding) : List UInt8 :=
  bindingsMagic ++ (appendUint32 bindingsVersion ++
    (appendUint32 (UInt32.ofNat bindings.length) ++ bindings.flatMap Binding.encode))

variable {file : List UInt8}

theorem encodeBindings_eq_ok (h : encodeBindings sha256 bindings = .ok file) :
    bindings.length ≠ 0 ∧ bindings.length ≤ maxEntries ∧
      file = bindingBody bindings ++ (sha256 (bindingBody bindings)).toList := by
  unfold encodeBindings at h
  split at h
  · cases h
  next hempty =>
  split at h
  · cases h
  next hbound =>
  obtain ⟨records, hrecords, h⟩ := bind_eq_ok.mp h
  cases h
  have hflat := encodeBindingList_eq_ok hrecords
  subst hflat
  exact ⟨hempty, by omega, rfl⟩

/-- What one record adds to a table, `restoremode/bindings.go:68`. -/
def Authority.Bindings.record (b : Bindings) (binding : Binding) : Bindings :=
  { b with
    identities := b.identities.set binding.entryIndex.toNat binding.identity
    byIdentity :=
      if (b.byIdentity.lookup binding.identity).isSome then b.byIdentity
      else b.byIdentity ++ [(binding.identity, binding.entryIndex)] }

private theorem entry_record (b : Bindings) (binding : Binding) (id : Vector UInt8 16) :
    (b.record binding).entry id =
      (b.entry id).or (if binding.identity = id then some binding.entryIndex else none) := by
  unfold Authority.Bindings.record Authority.Bindings.entry
  dsimp only
  split
  · next hsome =>
    split
    · next hid =>
      rw [hid] at hsome
      exact (Option.or_of_isSome hsome).symm
    · rw [Option.or_none]
  · next hnone =>
    rw [lookup_append]
    split
    · next hid => simp [hid]
    · next hid => simp [lookup, beq_false_of_ne (Ne.symm hid)]

-- The records up to `i` are loaded; the next one is that of entry `i`.
private theorem loadRecords_eq {count i : ℕ} {prior : Option UInt32} {rest : List Binding}
    {b : Bindings} {done : List (Vector UInt8 16)} (hcount : i + rest.length = count)
    (hlt : count < 2 ^ 32) (hprior : ∀ p ∈ prior, p.toNat < i)
    (horder : rest.map (·.entryIndex) = (range' i rest.length).map UInt32.ofNat)
    (hidentity : ∀ binding ∈ rest, binding.identity ≠ Vector.replicate 16 0)
    (hdone : done.length = i)
    (hb : b.identities = done ++ replicate rest.length (Vector.replicate 16 0)) :
    ∃ b', loadRecords count i rest.length prior (rest.flatMap Binding.encode) b = .ok b' ∧
      b'.identities = done ++ rest.map (·.identity) ∧
      ∀ id, b'.entry id = (b.entry id).or
        ((rest.find? fun binding => binding.identity = id).map (·.entryIndex)) := by
  induction rest generalizing i prior b done with
  | nil => exact ⟨b, rfl, by simpa using hb, by simp⟩
  | cons binding rest ih =>
    simp only [length_cons, map_cons, range'_succ, cons.injEq] at horder hcount
    obtain ⟨hentry, horder⟩ := horder
    have hi : i < 2 ^ 32 := by omega
    have hnat : binding.entryIndex.toNat = i := by
      rw [hentry]
      exact UInt32.toNat_ofNat_of_lt' hi
    have hrecord : (binding.encode ++ rest.flatMap Binding.encode).take bindingRecordBytes =
        binding.encode := take_left' (by simp [Binding.encode, bindingRecordBytes])
    have hbody : (binding.encode ++ rest.flatMap Binding.encode).drop bindingRecordBytes =
        rest.flatMap Binding.encode :=
      drop_left' (by simp [Binding.encode, bindingRecordBytes])
    have hindex : UInt32.ofNat (ofLittleEndian (binding.encode.take 4)) = binding.entryIndex := by
      rw [Binding.encode, take_left' (length_appendUint32 _), uint32_appendUint32]
    have hread : (Vector.ofFn fun k : Fin 16 => (binding.encode.drop 4).getD k 0) =
        binding.identity := by
      rw [Binding.encode, drop_left' (length_appendUint32 _)]
      ext k hk
      simp [getD_eq_getElem?_getD]
    have hafter : ¬ (prior.any (binding.entryIndex ≤ ·)) = true := by
      cases prior with
      | none => simp
      | some p =>
        have hp := hprior p rfl
        simp only [Option.any_some, decide_eq_true_eq, UInt32.le_iff_toNat_le]
        omega
    have hset : (done ++ replicate (rest.length + 1) (Vector.replicate 16 0)).set i
        binding.identity = (done ++ [binding.identity]) ++
          replicate rest.length (Vector.replicate 16 0) := by
      rw [replicate_succ, ← hdone, set_append_right _ _ le_rfl, Nat.sub_self,
        set_cons_zero, append_assoc, singleton_append]
    have hnext : (b.record binding).identities = (done ++ [binding.identity]) ++
        replicate rest.length (Vector.replicate 16 0) := by
      rw [Authority.Bindings.record, hnat, hb, length_cons, hset]
    have hpriorNext : ∀ p ∈ some binding.entryIndex, p.toNat < i + 1 := by
      rintro p ⟨⟩
      omega
    have hdoneNext : (done ++ [binding.identity]).length = i + 1 := by simp [hdone]
    obtain ⟨b', hload, hidentities, hentries⟩ := ih (by omega) hpriorNext horder
      (fun binding' hmem => hidentity binding' (mem_cons_of_mem _ hmem)) hdoneNext hnext
    refine ⟨b', ?_, ?_, ?_⟩
    · rw [length_cons, loadRecords, flatMap_cons]
      simp only [hrecord, hbody, hindex, hread]
      rw [if_neg hafter, if_neg (by omega), if_neg (hidentity binding mem_cons_self)]
      exact hload
    · rw [hidentities, map_cons, append_assoc, singleton_append]
    intro id
    rw [hentries id, entry_record, Option.or_assoc, find?_cons]
    by_cases hid : binding.identity = id
    · simp [hid]
    · simp [hid]

private theorem find_entryIndex (hlt : bindings.length < 2 ^ 32)
    (horder : bindings.map (·.entryIndex) = (range bindings.length).map UInt32.ofNat)
    (entry : UInt32) :
    bindings.find? (fun binding => binding.entryIndex = entry) = bindings[entry.toNat]? := by
  have hat {k : ℕ} (hk : k < bindings.length) : bindings[k].entryIndex = UInt32.ofNat k := by
    have hget := congrArg (fun l => l[k]?) horder
    simpa [hk] using hget
  by_cases hentry : entry.toNat < bindings.length
  · rw [getElem?_eq_getElem hentry, find?_eq_some_iff_getElem]
    refine ⟨by simp [hat hentry], entry.toNat, hentry, rfl, ?_⟩
    intro k hk
    have hne : UInt32.ofNat k ≠ entry := by
      intro heq
      have hnat : (UInt32.ofNat k).toNat = k :=
        UInt32.toNat_ofNat_of_lt' (show k < 2 ^ 32 by omega)
      rw [heq] at hnat
      omega
    simp [hat (hk.trans hentry), hne]
  · rw [getElem?_eq_none (by omega), find?_eq_none]
    intro binding hmem heq
    obtain ⟨k, hk, rfl⟩ := getElem_of_mem hmem
    rw [hat hk, decide_eq_true_eq] at heq
    have hnat : (UInt32.ofNat k).toNat = k :=
      UInt32.toNat_ofNat_of_lt' (show k < 2 ^ 32 by omega)
    rw [heq] at hnat
    omega

private theorem length_bindingBody (bindings : List Binding) :
    (bindingBody bindings).length = 16 + bindings.length * 20 := by
  rw [bindingBody, length_append, length_append, length_append,
    length_appendUint32, length_appendUint32, length_bindings]
  simp only [bindingsMagic, bindingRecordBytes, length_cons, length_nil]
  omega

private theorem drop_bindingBody (bindings : List Binding) :
    (bindingBody bindings).drop bindingHeaderBytes = bindings.flatMap Binding.encode := by
  have hsplit : bindingBody bindings = (bindingsMagic ++ (appendUint32 bindingsVersion ++
      appendUint32 (UInt32.ofNat bindings.length))) ++ bindings.flatMap Binding.encode := by
    simp only [bindingBody, append_assoc]
  rw [hsplit, drop_left']
  simp [bindingHeaderBytes]

-- What the loader finds in front of the records, whatever follows the body.
private theorem bindingBody_header (bindings : List Binding) (tail : List UInt8) :
    (bindingBody bindings ++ tail).take 8 = bindingsMagic ∧
      UInt32.ofNat (ofLittleEndian (((bindingBody bindings ++ tail).drop 8).take 4)) =
        bindingsVersion ∧
      UInt32.ofNat (ofLittleEndian (((bindingBody bindings ++ tail).drop 12).take 4)) =
        UInt32.ofNat bindings.length := by
  have hparts : bindingBody bindings ++ tail = bindingsMagic ++ (appendUint32 bindingsVersion ++
      (appendUint32 (UInt32.ofNat bindings.length) ++
        (bindings.flatMap Binding.encode ++ tail))) := by
    simp only [bindingBody, append_assoc]
  have hafter : (bindingBody bindings ++ tail).drop 8 = appendUint32 bindingsVersion ++
      (appendUint32 (UInt32.ofNat bindings.length) ++
        (bindings.flatMap Binding.encode ++ tail)) := by
    rw [hparts]
    exact drop_left' rfl
  have hdrop : (bindingBody bindings ++ tail).drop 12 =
      ((bindingBody bindings ++ tail).drop 8).drop 4 := by rw [drop_drop]
  refine ⟨?_, ?_, ?_⟩
  · rw [hparts]
    exact take_left' rfl
  · rw [hafter, take_left' (length_appendUint32 _), uint32_appendUint32]
  · rw [hdrop, hafter, drop_left' (length_appendUint32 _),
      take_left' (length_appendUint32 _), uint32_appendUint32]

theorem loadBindings_eq_ok {maxTable : UInt32}
    (hcomplete : CompleteTable bindings) (htable : maxEntries ≤ maxTable.toNat)
    (h : encodeBindings sha256 bindings = .ok file) :
    ∃ b, loadBindings sha256 file maxTable = .ok b ∧ (∀ entry, b.identity entry =
        (bindings.find? fun binding => binding.entryIndex = entry).map (·.identity)) ∧
      ∀ id, b.entry id =
        (bindings.find? fun binding => binding.identity = id).map (·.entryIndex) := by
  obtain ⟨hempty, hbound, hfile⟩ := encodeBindings_eq_ok h
  have hentries : maxEntries = 16777216 := rfl
  have hheader : bindingHeaderBytes = 16 := rfl
  have hrecord : bindingRecordBytes = 20 := rfl
  have hnat : (UInt32.ofNat bindings.length).toNat = bindings.length :=
    UInt32.toNat_ofNat_of_lt' (show bindings.length < 2 ^ 32 by omega)
  have hbody := length_bindingBody bindings
  have hlength : file.length = 48 + bindings.length * 20 := by
    rw [hfile, length_append, hbody, Vector.length_toList]
    omega
  obtain ⟨hmagic, hversion, hcount⟩ :=
    bindingBody_header bindings (sha256 (bindingBody bindings)).toList
  rw [← hfile] at hmagic hversion hcount
  have hraw : file.take (bindingHeaderBytes + maxTable.toNat * bindingRecordBytes + 32 + 1) =
      file := by
    rw [take_of_length_le]
    rw [hrecord]
    omega
  have htake : file.take (file.length - 32) = bindingBody bindings := by
    rw [hlength, hfile, take_left' (by omega)]
  have hdrop : file.drop (file.length - 32) = (sha256 (bindingBody bindings)).toList := by
    rw [hlength, hfile, drop_left' (by omega)]
  have hgood : ¬ (UInt32.ofNat bindings.length = 0 ∨ maxTable < UInt32.ofNat bindings.length ∨
      file.length ≠ bindingHeaderBytes + bindings.length * bindingRecordBytes + 32) := by
    rw [UInt32.lt_iff_toNat_lt, hnat, hlength, hheader, hrecord, ← UInt32.toNat_inj, hnat,
      UInt32.toNat_zero]
    omega
  have hmaxTable : maxTable ≠ 0 := by
    rintro rfl
    rw [UInt32.toNat_zero] at htable
    omega
  have hload : ∃ b, loadRecords bindings.length 0 bindings.length none
      (bindings.flatMap Binding.encode)
      { identities := replicate bindings.length (Vector.replicate 16 0), byIdentity := []
        digest := sha256 (bindingBody bindings) } = .ok b ∧
      b.identities = [] ++ bindings.map (·.identity) ∧
      ∀ id, b.entry id = (([] : List (Vector UInt8 16 × UInt32)).lookup id).or
        ((bindings.find? fun binding => binding.identity = id).map (·.entryIndex)) :=
    loadRecords_eq (Nat.zero_add bindings.length) (by omega) (by simp)
      (range_eq_range' ▸ hcomplete.order) hcomplete.identity rfl rfl
  obtain ⟨b, hb, hidentities, hentry⟩ := hload
  refine ⟨b, ?_, ?_, hentry⟩
  · unfold loadBindings
    rw [if_neg hmaxTable, if_neg (by omega)]
    simp only [hraw, ne_eq, not_true_eq_false, if_false, hmagic, hversion, or_self, hcount, hnat]
    rw [if_neg hgood, htake, hdrop, drop_bindingBody, if_neg (by simp), hb]
  · intro entry
    rw [find_entryIndex (by omega) hcomplete.order, Authority.Bindings.identity, hidentities,
      nil_append, getElem?_map]

/-- A hydrator that serves a valid manifest, with chunks within its bound, and an authority whose
bounds are no tighter agree on the header, the drain order, every stored chunk and the bindings. -/
theorem wire_agreement {m : Manifest} {maxStored : UInt64} {maxTable : UInt32}
    (hvalid : validate sha256 m = .ok ()) (hsize : m.header.chunkSizeBytes ≤ maxServedChunkBytes)
    (hs : newServer m = .ok s) (hmax : maxFrameBytes ≤ maxFrame.toNat)
    (hstored : maxDrainPairs ≤ maxStored.toNat) (htable : maxEntries ≤ maxTable.toNat) :
    (∃ drain priorityCount, drainOrder m = .ok (drain, priorityCount) ∧
      info maxFrame (s.handle sha256 host) maxStored = .ok (s.info.page, drain.map DrainPair.key) ∧
      ∀ i : Info, i.page = s.info.page → i = s.info) ∧
    (∀ (entryIndex chunkIndex : UInt32) (entry : Entry) (chunk : ChunkRef) (c : Chunk),
      m.entries[entryIndex.toNat]? = some entry →
      entry.chunks[chunkIndex.toNat]? = some chunk → chunk.stored →
      s.fetch sha256 host entryIndex chunkIndex = .ok c →
      c.encode.length + 1 ≤ maxFrameBytes ∧
        ∃ reply, fetch maxFrame (s.handle sha256 host) entryIndex chunkIndex
            m.header.chunkSizeBytes = .ok reply ∧
          ChunkAgrees sha256 s host entryIndex chunkIndex
            (chunkSpan entry.size m.header.chunkSizeBytes.toUInt64 chunkIndex.toNat) c reply) ∧
    ∀ (bindings : List Binding) (file : List UInt8), CompleteTable bindings →
      encodeBindings sha256 bindings = .ok file →
      ∃ b, loadBindings sha256 file maxTable = .ok b ∧ (∀ entry, b.identity entry =
          (bindings.find? fun binding => binding.entryIndex = entry).map (·.identity)) ∧
        ∀ id, b.entry id =
          (bindings.find? fun binding => binding.identity = id).map (·.entryIndex) := by
  obtain ⟨rfl, horder, hlen⟩ := newServer_eq_ok hs
  refine ⟨⟨s.drain, s.priorityCount, horder, info_eq_ok hmax hlen hstored,
    fun i hi => Info.page_inj hi⟩, ?_, ?_⟩
  · intro entryIndex chunkIndex entry chunk c hentry hchunk hstored hfetch
    exact fetch_agrees hvalid hsize hmax hentry hchunk hstored hfetch
  · intro bindings file hcomplete hencode
    exact loadBindings_eq_ok hcomplete htable hencode

/-- A file `a` of one byte in a pack of ten bytes. -/
def byteManifest : Manifest :=
  { header :=
      { formatVersion := formatVersion, chunkSizeBytes := 4096, compressionLevel := 1
        windowLog := 10, volumeID := Vector.replicate 16 1, sealedEpoch := 1
        attempt := Vector.replicate 16 1, logicalBytes := 1, logicalInodes := 2
        sealedAllocatedBytes := 12288, sealedInodes := 2
        priority := { packIndex := 0, packOffset := 0 }
        packs := [{ crc64Nvme := 0, sha256 := zeroDigest, sizeBytes := 10 }] }
    entries := [plainRoot,
      { plainRoot with
        name := [97], type := typeRegular, size := 1
        chunks := [{ frameIndex := 0, innerOffset := 0, length := 1, sliceDigest := zeroDigest
                     extents := [{ offset := 0, length := 1 }] }] }]
    frames := [{ packIndex := 0, packOffset := 0, compressedLength := 10, uncompressedLength := 1
                 rawBlocks := false, xxh64Lo32 := 0 }] }

theorem validate_byteManifest : validate (fun _ => zeroDigest) byteManifest = .ok () := rfl

/-- The server of that manifest. -/
def byteServer : Server :=
  { manifest := byteManifest, drain := [{ entryIndex := 1, chunkIndex := 0 }], priorityCount := 0 }

/-- A host with the one frame in its cache. -/
def byteHost : Host :=
  { cached := fun _ => some [7], readRange := fun _ _ _ => .error "", decodeFrame := fun _ _ => .error ""
    probe := .ok () }

/-- A table for its two entries. -/
def byteBindings : List Binding :=
  [{ entryIndex := 0, identity := Vector.replicate 16 1 },
    { entryIndex := 1, identity := Vector.replicate 16 2 }]

theorem wire_agreement_byteManifest :
    info 16842752 (byteServer.handle (fun _ => zeroDigest) byteHost) 268435456 =
        .ok (byteServer.info.page, [(1, 0)]) ∧
      (∃ reply, fetch 16842752 (byteServer.handle (fun _ => zeroDigest) byteHost) 1 0 4096 =
        .ok reply ∧ reply.extents.flatMap (·.2) = [7]) ∧
      ∃ file b, encodeBindings (fun _ => zeroDigest) byteBindings = .ok file ∧
        loadBindings (fun _ => zeroDigest) file 16777216 = .ok b ∧
        b.identity 1 = some (Vector.replicate 16 2) := by
  have hs : newServer byteManifest = .ok byteServer := rfl
  obtain ⟨⟨drain, priorityCount, horder, hinfo, -⟩, hchunks, htables⟩ :=
    @wire_agreement (fun _ => zeroDigest) byteServer byteHost 16842752 byteManifest 268435456 16777216
      validate_byteManifest (by decide) hs (by decide) (by decide) (by decide)
  have hdrain : drain = byteServer.drain := by
    obtain ⟨-, horder', -⟩ := newServer_eq_ok hs
    rw [horder', Except.ok.injEq, Prod.mk.injEq] at horder
    exact horder.1.symm
  rw [hdrain] at hinfo
  have hcomplete : CompleteTable byteBindings := ⟨rfl, by decide⟩
  refine ⟨hinfo, ?_, ?_⟩
  · obtain ⟨-, reply, hreply, hagrees⟩ := hchunks 1 0 _ _ { extents := [⟨0, 1⟩], data := [7] }
      rfl rfl rfl rfl
    exact ⟨reply, hreply, hagrees.data⟩
  · obtain ⟨b, hload, hidentity, -⟩ := htables byteBindings _ hcomplete rfl
    exact ⟨_, b, rfl, hload, hidentity 1⟩

/-- A table that the hydrator writes and the authority refuses: its record is not that of an entry
below the number of records. -/
theorem encodeBindings_incomplete_refused : ∃ file, encodeBindings (fun _ => zeroDigest)
        [{ entryIndex := 1, identity := Vector.replicate 16 1 }] = .ok file ∧
      loadBindings (fun _ => zeroDigest) file 16777216 =
        .error "restoremode: binding index 1 is outside the entry count" :=
  ⟨_, rfl, rfl⟩

end PortableFS.Hydrator
