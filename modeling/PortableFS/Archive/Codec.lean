import PortableFS.Base.Endian
import PortableFS.Archive.Validate

/-!
# The manifest codec

`vcs/archive/encode.go` and `vcs/archive/decode.go`. The `append` functions give what the source
appends to its buffer. The cursor of the decoder is a `Reader` over the sealed body. SHA-256 is a
parameter, so the seal is an uninterpreted function of the bytes before it.
-/

namespace PortableFS.Archive

open PortableFS.Base

/-- `encode.go:12`: `PFSMAN1` and a newline. -/
def manifestMagic : List UInt8 := [80, 70, 83, 77, 65, 78, 49, 10]

/-- `encode.go:45`. -/
def headerFixedBytes : ℕ := 116

/-- `encode.go:46`. -/
def packRecordBytes : ℕ := 48

/-- `encode.go:47`. -/
def entryFixedBytes : ℕ := 89

/-- `encode.go:48`. -/
def xattrFixedBytes : ℕ := 8

/-- `encode.go:49`. -/
def frameRecordBytes : ℕ := 33

/-- `encode.go:50`. -/
def chunkFixedBytes : ℕ := 56

/-- `encode.go:51`. -/
def extentBytes : ℕ := 16

/-- `encode.go:52`. -/
def footerBytes : ℕ := 32 + manifestMagic.length

/-- `binary.LittleEndian.AppendUint32`. -/
def appendUint32 (x : UInt32) : List UInt8 := littleEndian 4 x.toNat

/-- `binary.LittleEndian.AppendUint64`. -/
def appendUint64 (x : UInt64) : List UInt8 := littleEndian 8 x.toNat

/-- A byte string behind its length, `encode.go:163`. -/
def appendPrefixed (bytes : List UInt8) : List UInt8 :=
  appendUint32 (UInt32.ofNat bytes.length) ++ bytes

/-- Records behind their count. -/
def appendCounted {α : Type} (write : α → List UInt8) (records : List α) : List UInt8 :=
  appendUint32 (UInt32.ofNat records.length) ++ records.flatMap write

/-- One pack of the header, `encode.go:146`. -/
def appendPack (pack : PackRef) : List UInt8 :=
  appendUint64 pack.crc64Nvme ++ (pack.sha256.toList ++ appendUint64 pack.sizeBytes)

/-- `encode.go:127`, with the three counts it takes from the manifest. -/
def appendHeader (header : Header) (entryCount frameCount chunkCount : UInt32) : List UInt8 :=
  appendUint32 header.formatVersion ++ (appendUint32 header.chunkSizeBytes ++
    (appendUint32 header.compressionLevel.toUInt32 ++ (appendUint32 header.windowLog ++
    (header.volumeID.toList ++ (appendUint64 header.sealedEpoch ++ (header.attempt.toList ++
    (appendUint32 entryCount ++ (appendUint32 frameCount ++ (appendUint32 chunkCount ++
    (appendUint64 header.logicalBytes ++ (appendUint64 header.logicalInodes ++
    (appendUint64 header.sealedAllocatedBytes ++ (appendUint64 header.sealedInodes ++
    (appendUint32 header.priority.packIndex ++ (appendUint64 header.priority.packOffset ++
    appendCounted appendPack header.packs)))))))))))))))

/-- One extended attribute, `encode.go:169`. -/
def appendXattr (xattr : Xattr) : List UInt8 :=
  appendPrefixed xattr.name ++ appendPrefixed xattr.value

/-- The record of an entry, `encode.go:154`, with the number of its chunks. -/
def entryRecord (entry : Entry) (chunkCount : UInt32) : List UInt8 :=
  appendUint32 entry.parentIndex ++ ([entry.type] ++ (appendUint32 entry.mode ++
    (appendUint64 entry.size ++ (appendUint64 entry.mtimeNanos.toUInt64 ++
    (appendUint64 entry.ctimeNanos.toUInt64 ++ (appendUint32 entry.nlink ++
    (appendUint32 entry.hardlinkGroup ++ (appendPrefixed entry.name ++
    (appendPrefixed entry.linkName ++ (entry.contentDigest.toList ++
    (appendCounted appendXattr entry.xattrs ++ appendUint32 chunkCount)))))))))))

/-- `encode.go:154`. -/
def appendEntry (entry : Entry) : List UInt8 :=
  entryRecord entry (UInt32.ofNat entry.chunks.length)

/-- `encode.go:178`. -/
def appendFrame (frame : Frame) : List UInt8 :=
  appendUint32 frame.packIndex ++ (appendUint64 frame.packOffset ++
    (appendUint64 frame.compressedLength ++ (appendUint64 frame.uncompressedLength ++
    ([if frame.rawBlocks then 1 else 0] ++ appendUint32 frame.xxh64Lo32))))

/-- One extent of a chunk, `encode.go:197`. -/
def appendExtent (extent : Extent) : List UInt8 :=
  appendUint64 extent.offset ++ appendUint64 extent.length

/-- `encode.go:191`. -/
def appendChunk (chunk : ChunkRef) : List UInt8 :=
  appendUint32 chunk.frameIndex ++ (appendUint64 chunk.innerOffset ++
    (appendUint64 chunk.length ++ (chunk.sliceDigest.toList ++
    appendCounted appendExtent chunk.extents)))

/-- What `encodedSize` adds for one entry, in order, `encode.go:104`. -/
def entrySizes (entry : Entry) : List UInt64 :=
  (UInt64.ofNat entryFixedBytes + UInt64.ofNat entry.name.length +
      UInt64.ofNat entry.linkName.length) ::
    ((entry.xattrs.map fun xattr => UInt64.ofNat xattrFixedBytes +
        UInt64.ofNat xattr.name.length + UInt64.ofNat xattr.value.length) ++
      entry.chunks.map fun chunk => UInt64.ofNat chunkFixedBytes +
        UInt64.ofNat extentBytes * UInt64.ofNat chunk.extents.length)

/-- The checked additions of `encodedSize`, `encode.go:97`. -/
def addSizes : UInt64 → List UInt64 → Except String UInt64
  | size, [] => .ok size
  | size, n :: rest =>
    match checkedAdd size n with
    | none => .error (errOverflow "encoded size")
    | some sum => addSizes sum rest

/-- `encode.go:95`. -/
def encodedSize (m : Manifest) : Except String ℕ := do
  let size ← addSizes
    (UInt64.ofNat headerFixedBytes +
      UInt64.ofNat packRecordBytes * UInt64.ofNat m.header.packs.length)
    (m.entries.flatMap entrySizes ++
      [UInt64.ofNat frameRecordBytes * UInt64.ofNat m.frames.length + UInt64.ofNat footerBytes])
  require (size.toNat ≤ maxManifestBytes)
    s!"encoded manifest of {size} bytes exceeds the format bound"
  return size.toNat

/-- What `Encode` writes before the seal, `encode.go:74`. -/
def manifestBody (m : Manifest) : List UInt8 :=
  appendHeader m.header (UInt32.ofNat m.entries.length) (UInt32.ofNat m.frames.length)
      (UInt32.ofNat m.chunkCount) ++
    (m.entries.flatMap appendEntry ++ (m.frames.flatMap appendFrame ++
    m.entries.flatMap fun entry => entry.chunks.flatMap appendChunk))

/-- `encode.go:65`. -/
def encode (sha256 : List UInt8 → Digest) (m : Manifest) : Except String (List UInt8) := do
  validate sha256 m
  let size ← encodedSize m
  let body := manifestBody m
  let out := body ++ ((sha256 body).toList ++ manifestMagic)
  require (out.length = size) s!"encoder produced {out.length} bytes, predicted {size}"
  return out

/-- `decode.go:315`. -/
def take (n : ℕ) : Reader String (List UInt8) :=
  Reader.take
    (fun n left => invalid s!"manifest is truncated, needed {n} bytes with {left} left") n

/-- `byteValue`, `decode.go:324`. -/
def readByte : Reader String UInt8 := do
  let raw ← take 1
  return raw.headD 0

/-- `uint32`, `decode.go:332`. -/
def readUint32 : Reader String UInt32 := do
  let raw ← take 4
  return UInt32.ofNat (ofLittleEndian raw)

/-- `uint64`, `decode.go:340`. -/
def readUint64 : Reader String UInt64 := do
  let raw ← take 8
  return UInt64.ofNat (ofLittleEndian raw)

/-- `array`, `decode.go:351`, for an array of `n` bytes. -/
def readArray (n : ℕ) : Reader String (Vector UInt8 n) := do
  let raw ← take n
  return Vector.ofFn fun i => raw.getD i 0

/-- `decode.go:365`. An empty string is the empty list, taken or not. -/
def lengthPrefixed (maximum : ℕ) : Reader String (List UInt8) := do
  let declared ← readUint32
  Reader.require (declared.toNat ≤ maximum) (invalid
    s!"length-prefixed field of {declared} bytes exceeds its {maximum} byte bound")
  take declared.toNat

/-- `budget`, `decode.go:389`, and then the records it is for. -/
def budgeted {α : Type} (count recordBytes hardLimit : ℕ) (what : String)
    (records : Reader String α) : Reader String α := do
  Reader.require (count ≤ hardLimit)
    (invalid s!"{what} count {count} exceeds the format bound of {hardLimit}")
  Reader.budget count recordBytes fun left =>
    invalid s!"{what} count {count} cannot be backed by the {left} bytes remaining"
  records

/-- A count and its records: packs, extended attributes and extents, `decode.go:161,224,283`. The
source skips the last two at a count of zero, where the budget always suffices. -/
def readCounted {α : Type} (record : Reader String α) (recordBytes hardLimit : ℕ)
    (what : String) : Reader String (List α) := do
  let count ← readUint32
  budgeted count.toNat recordBytes hardLimit what (record.replicate count.toNat)

/-- One pack of the header, `decode.go:169`. -/
def decodePack : Reader String PackRef := do
  let crc64Nvme ← readUint64
  let sha256 ← readArray 32
  let sizeBytes ← readUint64
  return { crc64Nvme, sha256, sizeBytes }

/-- What `decodeHeader` returns. -/
structure Preamble where
  header : Header
  entryCount : UInt32
  frameCount : UInt32
  chunkCount : UInt32

/-- `decode.go:101`. -/
def decodeHeader : Reader String Preamble := do
  let version ← readUint32
  Reader.require (version = formatVersion) (invalid s!"unsupported format version {version}")
  let chunkSizeBytes ← readUint32
  let level ← readUint32
  let windowLog ← readUint32
  let volumeID ← readArray 16
  let sealedEpoch ← readUint64
  let attempt ← readArray 16
  let entryCount ← readUint32
  let frameCount ← readUint32
  let chunkCount ← readUint32
  let logicalBytes ← readUint64
  let logicalInodes ← readUint64
  let sealedAllocatedBytes ← readUint64
  let sealedInodes ← readUint64
  let packIndex ← readUint32
  let packOffset ← readUint64
  let packs ← readCounted decodePack packRecordBytes maxPacks "pack"
  return {
    header := {
      formatVersion := version
      chunkSizeBytes
      compressionLevel := level.toInt32
      windowLog
      volumeID
      sealedEpoch
      attempt
      logicalBytes
      logicalInodes
      sealedAllocatedBytes
      sealedInodes
      priority := { packIndex, packOffset }
      packs }
    entryCount
    frameCount
    chunkCount }

/-- One extended attribute, `decode.go:233`. -/
def decodeXattr : Reader String Xattr := do
  let name ← lengthPrefixed maxXattrNameBytes
  let value ← lengthPrefixed maxXattrValueSize
  return { name, value }

/-- `decode.go:184`: the entry without its chunks, and how many it has. -/
def decodeEntry : Reader String (Entry × UInt32) := do
  let parentIndex ← readUint32
  let type ← readByte
  let mode ← readUint32
  let size ← readUint64
  let mtime ← readUint64
  let ctime ← readUint64
  let nlink ← readUint32
  let hardlinkGroup ← readUint32
  let name ← lengthPrefixed maxNameBytes
  let linkName ← lengthPrefixed maxLinkNameBytes
  let contentDigest ← readArray 32
  let xattrs ← readCounted decodeXattr xattrFixedBytes maxXattrsPerEntry "extended attribute"
  let chunkCount ← readUint32
  return ({
    parentIndex
    name
    type
    size
    mode
    mtimeNanos := mtime.toInt64
    ctimeNanos := ctime.toInt64
    linkName
    nlink
    hardlinkGroup
    contentDigest
    xattrs
    chunks := [] }, chunkCount)

/-- `decode.go:245`. -/
def decodeFrame : Reader String Frame := do
  let packIndex ← readUint32
  let packOffset ← readUint64
  let compressedLength ← readUint64
  let uncompressedLength ← readUint64
  let raw ← readByte
  Reader.require (raw ≤ 1) (invalid "raw-blocks flag is not a boolean")
  let xxh64Lo32 ← readUint32
  return {
    packIndex
    packOffset
    compressedLength
    uncompressedLength
    rawBlocks := raw = 1
    xxh64Lo32 }

/-- One extent of a chunk, `decode.go:294`. -/
def decodeExtent : Reader String Extent := do
  let offset ← readUint64
  let length ← readUint64
  return { offset, length }

/-- `decode.go:270`. -/
def decodeChunk : Reader String ChunkRef := do
  let frameIndex ← readUint32
  let innerOffset ← readUint64
  let length ← readUint64
  let sliceDigest ← readArray 32
  let extents ← readCounted decodeExtent extentBytes maxExtentsPerChunk "extent"
  return { frameIndex, innerOffset, length, sliceDigest, extents }

/-- The entry table, `decode.go:52`. The sum of the chunk counts stops the loop as soon as it passes
the total of the header, long before it could overflow. -/
def decodeEntries (chunkCount : ℕ) : ℕ → ℕ → ℕ → Reader String (List (Entry × UInt32))
  | _, declared, 0 => do
    Reader.require (declared = chunkCount) (invalid
      s!"entry chunk counts sum to {declared}, header declares {chunkCount}")
    return []
  | index, declared, n + 1 => do
    let entry ← decodeEntry.mapError fun e => s!"{e} (entry {index})"
    Reader.require (declared + entry.2.toNat ≤ chunkCount)
      (invalid "entry chunk counts exceed the declared chunk total")
    let rest ← decodeEntries chunkCount (index + 1) (declared + entry.2.toNat) n
    return entry :: rest

/-- The chunk arrays, `decode.go:79`, put into their entries. -/
def decodeChunkArrays : ℕ → List (Entry × UInt32) → Reader String (List Entry)
  | _, [] => pure []
  | index, (entry, count) :: rest => do
    let chunks ← Reader.indexed
      (fun chunkIndex => decodeChunk.mapError fun e => s!"{e} (entry {index} chunk {chunkIndex})")
      0 count.toNat
    let entries ← decodeChunkArrays (index + 1) rest
    return { entry with chunks } :: entries

/-- The parsing of `Decode`, `decode.go:40`. -/
def decodeBody : Reader String Manifest := do
  let preamble ← decodeHeader
  let table ← budgeted preamble.entryCount.toNat entryFixedBytes maxEntries "entry"
    (decodeEntries preamble.chunkCount.toNat 0 0 preamble.entryCount.toNat)
  let frames ← budgeted preamble.frameCount.toNat frameRecordBytes maxFrames "frame"
    (Reader.indexed (fun index => decodeFrame.mapError fun e => s!"{e} (frame {index})") 0
      preamble.frameCount.toNat)
  let entries ← budgeted preamble.chunkCount.toNat chunkFixedBytes maxChunks "chunk"
    (decodeChunkArrays 0 table)
  return { header := preamble.header, entries, frames }

/-- `decode.go:23`. -/
def decode (sha256 : List UInt8 → Digest) (data : List UInt8) : Except String Manifest := do
  require (data.length ≤ maxManifestBytes)
    s!"manifest of {data.length} bytes exceeds the format bound"
  require (headerFixedBytes + footerBytes ≤ data.length)
    "manifest is truncated below the minimum size"
  let body := data.take (data.length - footerBytes)
  let footer := data.drop (data.length - footerBytes)
  require (footer.drop 32 = manifestMagic) "manifest does not end with the format magic"
  require ((sha256 body).toList = footer.take 32)
    "manifest footer digest does not cover its contents"
  let (manifest, rest) ← decodeBody.run body
  require (rest.length = 0) s!"{rest.length} trailing bytes after the chunk-ref arrays"
  validate sha256 manifest
  return manifest

end PortableFS.Archive
