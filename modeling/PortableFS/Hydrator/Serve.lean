import PortableFS.Hydrator.Protocol

/-!
# Serving a sealed manifest

`vcs/internal/hydrator/serve.go`: the drain order, the INFO reply, pages of the drain order, fetches
and the answer to one request. The store, the decompressor, the cache of decoded frames and the
health probe are the `Host`: whatever they answer is an argument. Object keys are left out, since a
pack is named by its index.
-/

namespace PortableFS.Hydrator

open PortableFS.Base PortableFS.Archive

/-- `MaxChunkSizeBytes`, `config.go:57`. -/
def maxServedChunkBytes : UInt32 := 8388608

/-- `serve.go:31`. -/
def maxDrainPairs : ℕ := 8 * 2 ^ 20

/-- The text of `ErrInvalid` of the hydrator with what is wrong. -/
def refusal (what : String) : String := "hydrator: invalid: " ++ what

/-- `serve.go:134`. -/
structure Ordered where
  pair : DrainPair
  packIndex : UInt32
  packOffset : UInt64
  innerOffset : UInt64
  inPriority : Bool
deriving DecidableEq

/-- The comparison of the sort, `serve.go:171`. -/
def Ordered.less (left right : Ordered) : Bool :=
  if left.packIndex ≠ right.packIndex then left.packIndex < right.packIndex
  else if left.packOffset ≠ right.packOffset then left.packOffset < right.packOffset
  else if left.innerOffset ≠ right.innerOffset then left.innerOffset < right.innerOffset
  else if left.pair.entryIndex ≠ right.pair.entryIndex then
    left.pair.entryIndex < right.pair.entryIndex
  else left.pair.chunkIndex < right.pair.chunkIndex

/-- A frame of the manifest, for an index below the number of frames. -/
def frameAt (m : Manifest) (index : UInt32) : Frame :=
  (m.frames[index.toNat]?).getD
    { packIndex := 0, packOffset := 0, compressedLength := 0, uncompressedLength := 0
      rawBlocks := false, xxh64Lo32 := 0 }

/-- One chunk of the drain order, `serve.go:160`. -/
def ordered (m : Manifest) (entryIndex chunkIndex : ℕ) (chunk : ChunkRef) : Ordered :=
  let frame := frameAt m chunk.frameIndex
  let boundary := m.header.priority
  { pair := { entryIndex := UInt32.ofNat entryIndex, chunkIndex := UInt32.ofNat chunkIndex }
    packIndex := frame.packIndex
    packOffset := frame.packOffset
    innerOffset := chunk.innerOffset
    inPriority := frame.packIndex < boundary.packIndex ∨ (frame.packIndex = boundary.packIndex ∧
      frame.packOffset + frame.compressedLength ≤ boundary.packOffset) }

/-- The chunks of one entry, `serve.go:153`, behind the pairs collected so far. -/
def collectChunks (m : Manifest) (entryIndex : ℕ) :
    ℕ → List ChunkRef → List Ordered → Except String (List Ordered)
  | _, [], pairs => .ok pairs
  | chunkIndex, chunk :: rest, pairs =>
    if ¬ chunk.stored then collectChunks m entryIndex (chunkIndex + 1) rest pairs
    else if maxDrainPairs ≤ pairs.length then
      .error (refusal s!"the drain order exceeds {maxDrainPairs} chunks")
    else collectChunks m entryIndex (chunkIndex + 1) rest
      (pairs ++ [ordered m entryIndex chunkIndex chunk])

/-- The walk of the namespace plan, `serve.go:144` and `archive/restore.go:64`: an entry creates its
inode unless an earlier entry of its hardlink group did. -/
def collectEntries (m : Manifest) :
    ℕ → List UInt32 → List Entry → List Ordered → Except String (List Ordered)
  | _, _, [], pairs => .ok pairs
  | index, created, entry :: rest, pairs => do
    let linked := entry.hardlinkGroup ≠ 0 ∧ entry.hardlinkGroup ∈ created
    let created := if entry.hardlinkGroup ≠ 0 then entry.hardlinkGroup :: created else created
    let pairs ←
      if entry.type ≠ typeRegular ∨ linked then .ok pairs
      else collectChunks m index 0 entry.chunks pairs
    collectEntries m (index + 1) created rest pairs

/-- `serve.go:133`: the pairs and how many of the first are in the prefetch region. A
stable sort is determined by its comparison; here it is by insertion. -/
def drainOrder (m : Manifest) : Except String (List DrainPair × ℕ) := do
  let pairs ← collectEntries m 0 [] m.entries []
  let sorted := pairs.insertionSort fun left right => ¬ right.less left
  return (sorted.map (·.pair), (sorted.takeWhile (·.inPriority)).length)

/-- `serve.go:47`. -/
structure Server where
  manifest : Manifest
  drain : List DrainPair
  priorityCount : ℕ

/-- `serve.go:66`. -/
def newServer (m : Manifest) : Except String Server := do
  let (drain, priorityCount) ← drainOrder m
  return { manifest := m, drain, priorityCount }

/-- The INFO reply, `serve.go:103`. -/
def Server.info (s : Server) : Info :=
  let header := s.manifest.header
  { formatVersion := header.formatVersion
    volumeID := header.volumeID
    sealedEpoch := header.sealedEpoch
    attempt := header.attempt
    chunkSizeBytes := header.chunkSizeBytes
    entryCount := UInt32.ofNat s.manifest.entries.length
    chunkCount := UInt64.ofNat s.manifest.chunkCount
    logicalBytes := header.logicalBytes
    logicalInodes := header.logicalInodes
    sealedAllocatedBytes := header.sealedAllocatedBytes
    sealedInodes := header.sealedInodes
    priorityPackIndex := header.priority.packIndex
    priorityPackOffset := header.priority.packOffset
    drainCount := UInt64.ofNat s.drain.length
    priorityDrainCount := UInt64.ofNat s.priorityCount
    pageSize := UInt32.ofNat drainPageSize }

/-- `serve.go:358`. -/
def Server.page (s : Server) (cursor : UInt64) : Except String DrainPage :=
  if s.drain.length < cursor.toNat then
    .error (violation s!"drain cursor {cursor} is past the {s.drain.length} pair order")
  else
    let stop := min (cursor.toNat + drainPageSize) s.drain.length
    .ok {
      cursor
      pairs := (s.drain.take stop).drop cursor.toNat
      more := stop < s.drain.length }

/-- What the hydrator asks of its surroundings. -/
structure Host where
  /-- A decoded frame from the cache. -/
  cached : UInt32 → Option (List UInt8)
  /-- A range of a pack: its index, offset and length. -/
  readRange : UInt32 → UInt64 → UInt64 → Except String (List UInt8)
  /-- `archive.DecodeFrame`. -/
  decodeFrame : Frame → List UInt8 → Except String (List UInt8)
  /-- The health probe. -/
  probe : Except String Unit

/-- `maxFrameBytes`, `serve.go:442`. -/
def Server.maxCompressedBytes (s : Server) : UInt64 :=
  s.manifest.header.chunkSizeBytes.toUInt64 * 2 + 1048576

/-- `serve.go:413`. -/
def Server.frame (s : Server) (host : Host) (index : UInt32) :
    Except (ErrorClass × String) (List UInt8) :=
  match host.cached index with
  | some content => .ok content
  | none =>
    if s.manifest.frames.length ≤ index.toNat then
      .error (.invalid, s!"frame {index} does not exist")
    else
      let frame := frameAt s.manifest index
      if s.manifest.header.packs.length ≤ frame.packIndex.toNat then
        .error (.invalid, s!"frame {index} names pack {frame.packIndex}")
      else if frame.compressedLength = 0 ∨ s.maxCompressedBytes < frame.compressedLength then
        .error (.corrupt, s!"frame {index} is {frame.compressedLength} compressed bytes")
      else
        match host.readRange frame.packIndex frame.packOffset frame.compressedLength with
        | .error e => .error (.blocked, e)
        | .ok compressed =>
          match host.decodeFrame frame compressed with
          | .error e => .error (.corrupt, s!"frame {index}: {e}")
          | .ok content => .ok content

/-- The slice of a decoded frame that a stored chunk names, `serve.go:401`. -/
def sliceChunk (sha256 : List UInt8 → Digest) (entryIndex chunkIndex : UInt32) (chunk : ChunkRef)
    (content : List UInt8) : Except (ErrorClass × String) Chunk :=
  let stop := chunk.innerOffset + chunk.length
  if stop < chunk.innerOffset ∨ content.length < stop.toNat then
    .error (.corrupt, s!"chunk slice runs past frame {chunk.frameIndex}")
  else
    let slice := (content.take stop.toNat).drop chunk.innerOffset.toNat
    if sha256 slice ≠ chunk.sliceDigest then
      .error (.corrupt,
        s!"entry {entryIndex} chunk {chunkIndex} does not match its manifest digest")
    else .ok { extents := chunk.extents, data := slice }

/-- `serve.go:380`. -/
def Server.fetch (sha256 : List UInt8 → Digest) (s : Server) (host : Host)
    (entryIndex chunkIndex : UInt32) : Except (ErrorClass × String) Chunk :=
  match s.manifest.entries[entryIndex.toNat]? with
  | none => .error (.invalid, s!"entry {entryIndex} does not exist")
  | some entry =>
    if entry.type ≠ typeRegular then
      .error (.invalid, s!"entry {entryIndex} is a {typeText entry.type}, not a regular file")
    else
      match entry.chunks[chunkIndex.toNat]? with
      | none => .error (.invalid, s!"entry {entryIndex} has no chunk {chunkIndex}")
      | some chunk =>
        if ¬ chunk.stored then .ok { extents := [], data := [] }
        else
          match s.frame host chunk.frameIndex with
          | .error e => .error e
          | .ok content => sliceChunk sha256 entryIndex chunkIndex chunk content

/-- `serve.go:313`: the bytes of the reply. -/
def Server.respond (sha256 : List UInt8 → Digest) (s : Server) (host : Host) (kind : UInt8)
    (payload : List UInt8) : Except String (List UInt8) :=
  if kind = typeInfo then
    if payload.length ≠ 0 then writeFrame typeErr (encodeError .invalid "INFO takes no payload")
    else writeFrame typeInfoOK s.info.encode
  else if kind = typeInfoNext then
    match decodeCursor payload with
    | .error e => writeFrame typeErr (encodeError .invalid e)
    | .ok cursor =>
      match s.page cursor with
      | .error e => writeFrame typeErr (encodeError .invalid e)
      | .ok page => writeFrame typeDrainPage page.encode
  else if kind = typeFetch then
    match decodeFetch payload with
    | .error e => writeFrame typeErr (encodeError .invalid e)
    | .ok (entryIndex, chunkIndex) =>
      match s.fetch sha256 host entryIndex chunkIndex with
      | .error (cls, e) => writeFrame typeErr (encodeError cls e)
      | .ok chunk => writeFrame typeChunk chunk.encode
  else if kind = typeHealth then
    match host.probe with
    | .error e => writeFrame typeErr (encodeError .blocked e)
    | .ok () => writeFrame typeHealthOK []
  else writeFrame typeErr (encodeError .invalid ("unknown message type " ++ messageText kind))

/-- One turn of `handle`, `serve.go:299`: what is written for the bytes of one request. A request
that cannot be read or answered ends the connection. -/
def Server.handle (sha256 : List UInt8 → Digest) (s : Server) (host : Host)
    (request : List UInt8) : List UInt8 :=
  match readFrame.run request with
  | .error .ended => []
  | .error (.protocol e) =>
    match writeFrame typeErr (encodeError .invalid e) with
    | .error _ => []
    | .ok reply => reply
  | .ok ((kind, payload), _) =>
    match s.respond sha256 host kind payload with
    | .error _ => []
    | .ok reply => reply

end PortableFS.Hydrator
