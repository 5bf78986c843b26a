import PortableFS.Archive.Manifest

/-!
# Validation of a manifest

`vcs/archive/validate.go`. Each pass of `Validate` is a function that fails with the text of the first
rule broken. A loop of the source is a recursion on the list it walks, with the loop's variables as
arguments. SHA-256 is a parameter.
-/

namespace PortableFS.Archive

/-- `validate.go:15`. -/
def zeroDigest : Digest := Vector.replicate 32 0

/-- `bits.OnesCount32`: the number of set bits of a word. -/
def onesCount32 (x : UInt32) : ℕ := ((List.range 32).filter fun i => x.toNat.testBit i).length

/-- `pack.go:153`. -/
def chunkSpan (size chunkSize : UInt64) (chunkIndex : ℕ) : UInt64 :=
  let consumed := UInt64.ofNat chunkIndex * chunkSize
  let remainder := size - consumed
  if remainder < chunkSize then remainder else chunkSize

/-- The sum of the pack sizes, `validate.go:82`. -/
def validatePacks : ℕ → UInt64 → List PackRef → Except String Unit
  | _, _, [] => .ok ()
  | index, total, pack :: rest => do
    require (pack.sizeBytes ≠ 0) s!"pack {index} is empty"
    match checkedAdd total pack.sizeBytes with
    | none => .error (errOverflow "pack sizes")
    | some sum => validatePacks (index + 1) sum rest

/-- The size of a pack, for an index below the number of packs. -/
def packSize (packs : List PackRef) (index : UInt32) : UInt64 :=
  ((packs[index.toNat]?).map (·.sizeBytes)).getD 0

/-- `validate.go:101`. -/
def validatePriority (header : Header) : Except String Unit :=
  let packCount := UInt32.ofNat header.packs.length
  let priority := header.priority
  if priority.packIndex = packCount then
    require (priority.packOffset = 0)
      "priority boundary past the last pack carries a non-zero offset"
  else do
    require (priority.packIndex ≤ packCount)
      s!"priority boundary names pack {priority.packIndex} of {packCount}"
    require (priority.packOffset ≤ packSize header.packs priority.packIndex)
      s!"priority boundary offset {priority.packOffset} runs past pack {priority.packIndex}"

/-- `validate.go:56`. -/
def validateHeader (header : Header) : Except String Unit := do
  require (header.formatVersion = formatVersion)
    s!"unsupported format version {header.formatVersion}"
  require (minChunkSizeBytes ≤ header.chunkSizeBytes ∧ header.chunkSizeBytes ≤ maxChunkSizeBytes ∧
      onesCount32 header.chunkSizeBytes = 1)
    s!"chunk size {header.chunkSizeBytes} is not a bounded power of two"
  require (minCompressionLevel ≤ header.compressionLevel ∧
      header.compressionLevel ≤ maxCompressionLevel)
    s!"compression level {header.compressionLevel} is out of range"
  require (minWindowLog ≤ header.windowLog ∧ header.windowLog ≤ maxWindowLog)
    s!"window log {header.windowLog} is out of range"
  require (header.sealedEpoch ≠ 0) "sealed epoch must be non-zero"
  require (header.volumeID ≠ Vector.replicate 16 0) "volume ID must be non-zero"
  require (header.attempt ≠ Vector.replicate 16 0) "attempt UUID must be non-zero"
  require (header.packs.length ≤ maxPacks)
    s!"pack count {header.packs.length} exceeds the format bound"
  validatePacks 0 0 header.packs
  validatePriority header

/-- The packs from `nextPack` on that end before the next frame, `validate.go:137,166`: as many as
`count`, the first covered up to `nextOffset`. -/
def coverPacks (packs : List PackRef) : ℕ → UInt32 → UInt64 → Except String (UInt32 × UInt64)
  | 0, nextPack, nextOffset => .ok (nextPack, nextOffset)
  | count + 1, nextPack, nextOffset => do
    require (nextOffset = packSize packs nextPack) s!"pack {nextPack} is not fully covered by frames"
    coverPacks packs count (nextPack + 1) 0

/-- The loop of `validateFrames`, `validate.go:129`, with the position it has reached. -/
def validateFrameList (header : Header) :
    ℕ → UInt32 → UInt64 → List Frame → Except String (UInt32 × UInt64)
  | _, nextPack, nextOffset, [] => .ok (nextPack, nextOffset)
  | index, nextPack, nextOffset, frame :: rest => do
    let packCount := UInt32.ofNat header.packs.length
    require (frame.packIndex < packCount)
      s!"frame {index} references pack {frame.packIndex} of {packCount}"
    require (nextPack ≤ frame.packIndex) s!"frame {index} is out of pack order"
    let (nextPack, nextOffset) ←
      coverPacks header.packs (frame.packIndex.toNat - nextPack.toNat) nextPack nextOffset
    require (frame.packOffset = nextOffset)
      s!"frame {index} starts at {frame.packOffset}, breaking the pack concatenation at {nextOffset}"
    require (frame.compressedLength ≠ 0 ∧ frame.uncompressedLength ≠ 0) s!"frame {index} is empty"
    require (frame.uncompressedLength ≤ header.chunkSizeBytes.toUInt64)
      s!"frame {index} decompresses to {frame.uncompressedLength} bytes, past the chunk size {header.chunkSizeBytes}"
    match checkedRange frame.packOffset frame.compressedLength
        (packSize header.packs frame.packIndex) with
    | none => .error (invalid s!"frame {index} runs past the end of pack {frame.packIndex}")
    | some stop => validateFrameList header (index + 1) nextPack stop rest

/-- `validate.go:125`. -/
def validateFrames (m : Manifest) : Except String Unit := do
  let (nextPack, nextOffset) ← validateFrameList m.header 0 0 0 m.frames
  let _ ← coverPacks m.header.packs (m.header.packs.length - nextPack.toNat) nextPack nextOffset
  return ()

/-- `validate.go:496`. -/
def validateName (name : List UInt8) : Except String Unit :=
  if name.length = 0 then .error "name is empty"
  else if maxNameBytes < name.length then .error s!"name is longer than {maxNameBytes} bytes"
  else if 0 ∈ name ∨ 47 ∈ name then .error "name contains a separator or NUL"
  else if name = [46] ∨ name = [46, 46] then .error "name is a directory alias"
  else .ok ()

/-- The loop of `validateXattrs`, `validate.go:259`, with the name before, if any. -/
def validateXattrList (index : ℕ) : ℕ → Option (List UInt8) → List Xattr → Except String Unit
  | _, _, [] => .ok ()
  | position, previous, xattr :: rest => do
    require (xattr.name.length ≠ 0 ∧ xattr.name.length ≤ maxXattrNameBytes)
      s!"entry {index} extended attribute {position} has an out-of-range name"
    require (0 ∉ xattr.name)
      s!"entry {index} extended attribute {position} has a name containing NUL"
    require (xattrPrefix.isPrefixOf xattr.name)
      s!"entry {index} extended attribute {position} is outside the user. namespace"
    require (xattr.value.length ≤ maxXattrValueSize)
      s!"entry {index} extended attribute {position} has a {xattr.value.length} byte value, past the bound of {maxXattrValueSize}"
    require (previous.all (· < xattr.name))
      s!"entry {index} extended attribute {position} is not strictly after its predecessor"
    validateXattrList index (position + 1) (some xattr.name) rest

/-- `validate.go:254`. -/
def validateXattrs (xattrs : List Xattr) (index : ℕ) : Except String Unit := do
  require (xattrs.length ≤ maxXattrsPerEntry)
    s!"entry {index} carries {xattrs.length} extended attributes, past the bound of {maxXattrsPerEntry}"
  validateXattrList index 0 none xattrs

/-- The extents of one chunk, `validate.go:355`: what they store. -/
def validateExtents (index chunkIndex : ℕ) (span : UInt64) :
    ℕ → UInt64 → UInt64 → List Extent → Except String UInt64
  | _, stored, _, [] => .ok stored
  | extentIndex, stored, previousEnd, extent :: rest => do
    require (extent.length ≠ 0)
      s!"entry {index} chunk {chunkIndex} extent {extentIndex} is empty"
    require (extentIndex = 0 ∨ previousEnd < extent.offset)
      s!"entry {index} chunk {chunkIndex} extent {extentIndex} is not strictly after and apart from its predecessor"
    match checkedRange extent.offset extent.length span with
    | none =>
      .error (invalid
        s!"entry {index} chunk {chunkIndex} extent {extentIndex} runs past the chunk span {span}")
    | some stop =>
      match checkedAdd stored extent.length with
      | none => .error (errOverflow "chunk stored length")
      | some stored => validateExtents index chunkIndex span (extentIndex + 1) stored stop rest

/-- The decompressed length of a frame, for an index below the number of frames. -/
def frameLength (frames : List Frame) (index : UInt32) : UInt64 :=
  ((frames[index.toNat]?).map (·.uncompressedLength)).getD 0

section Hash

variable (sha256 : List UInt8 → Digest)

/-- One chunk of a file, `validate.go:347`. -/
def validateChunk (frames : List Frame) (size chunkSize : UInt64) (index chunkIndex : ℕ)
    (chunk : ChunkRef) : Except String Unit := do
  require (chunk.extents.length ≤ maxExtentsPerChunk)
    s!"entry {index} chunk {chunkIndex} has {chunk.extents.length} extents, past the bound of {maxExtentsPerChunk}"
  let stored ←
    validateExtents index chunkIndex (chunkSpan size chunkSize chunkIndex) 0 0 0 chunk.extents
  require (stored = chunk.length)
    s!"entry {index} chunk {chunkIndex} stores {stored} extent bytes but records length {chunk.length}"
  if chunk.length = 0 then
    require (chunk.frameIndex = noFrame ∧ chunk.innerOffset = 0)
      s!"entry {index} chunk {chunkIndex} stores nothing but names a frame location"
    require (chunk.sliceDigest = sha256 [])
      s!"entry {index} chunk {chunkIndex} stores nothing but does not carry the empty digest"
  else
    let frameCount := UInt32.ofNat frames.length
    require (chunk.frameIndex < frameCount)
      s!"entry {index} chunk {chunkIndex} references frame {chunk.frameIndex} of {frameCount}"
    require
      (checkedRange chunk.innerOffset chunk.length (frameLength frames chunk.frameIndex)).isSome
      s!"entry {index} chunk {chunkIndex} runs past the end of frame {chunk.frameIndex}"

/-- The loop of `validateChunks`, `validate.go:346`. -/
def validateChunkList (frames : List Frame) (size chunkSize : UInt64) (index : ℕ) :
    ℕ → List ChunkRef → Except String Unit
  | _, [] => .ok ()
  | chunkIndex, chunk :: rest => do
    validateChunk sha256 frames size chunkSize index chunkIndex chunk
    validateChunkList frames size chunkSize index (chunkIndex + 1) rest

/-- `validate.go:336`. -/
def validateChunks (frames : List Frame) (entry : Entry) (index : ℕ) (chunkSize : UInt64) :
    Except String Unit := do
  let expected := entry.size / chunkSize + (if entry.size % chunkSize ≠ 0 then 1 else 0)
  require (UInt64.ofNat entry.chunks.length = expected)
    s!"entry {index} has {entry.chunks.length} chunks but its size needs {expected}"
  validateChunkList sha256 frames entry.size chunkSize index 0 entry.chunks

/-- `validate.go:284`. -/
def validateEntryShape (frames : List Frame) (entry : Entry) (index : ℕ) (chunkSize : UInt64) :
    Except String Unit :=
  if entry.type = typeDirectory then do
    require (entry.linkName.length = 0 ∧ entry.chunks.length = 0 ∧ entry.hardlinkGroup = 0)
      s!"entry {index} is a directory carrying file state"
    require (entry.contentDigest = zeroDigest)
      s!"entry {index} is a directory with a non-zero content digest"
  else if entry.type = typeSymlink then do
    require (entry.linkName.length ≠ 0 ∧ entry.linkName.length ≤ maxLinkNameBytes)
      s!"entry {index} has an out-of-range symlink target"
    require (0 ∉ entry.linkName) s!"entry {index} has a symlink target containing NUL"
    require (entry.chunks.length = 0 ∧ entry.hardlinkGroup = 0)
      s!"entry {index} is a symlink carrying file state"
    require (entry.size = UInt64.ofNat entry.linkName.length)
      s!"entry {index} symlink size does not match its target length"
    require (entry.contentDigest = sha256 entry.linkName)
      s!"entry {index} symlink content digest does not cover its target"
    require (entry.nlink = 1) s!"entry {index} is a symlink with link count {entry.nlink}"
  else if entry.type = typeRegular then do
    require (entry.linkName.length = 0) s!"entry {index} is a regular file carrying a link target"
    require (entry.hardlinkGroup ≠ 0 ∨ entry.nlink = 1)
      s!"entry {index} has link count {entry.nlink} with no hardlink group"
    require (entry.hardlinkGroup = 0 ∨ 2 ≤ entry.nlink)
      s!"entry {index} is in a hardlink group with link count {entry.nlink}"
    validateChunks sha256 frames entry index chunkSize
  else .error (invalid s!"entry {index} has unknown type {entry.type}")

/-- What the loop of `validateEntries` carries: the open ancestors, innermost first, the names seen
and the chunks counted, which stay far below a 64-bit overflow. -/
structure EntryScan where
  path : List UInt32
  children : List (UInt32 × List UInt8)
  chunkTotal : ℕ

/-- The place of an entry in the tree, `validate.go:195`. -/
def validatePlace (entries : List Entry) (index : ℕ) (entry : Entry) (scan : EntryScan) :
    Except String EntryScan :=
  if index = 0 then do
    require (entry.parentIndex = 0) "entry 0 is not its own parent"
    require (entry.type = typeDirectory) "entry 0 is not a directory"
    require (entry.name.length = 0) "entry 0 must have an empty name"
    return scan
  else do
    let self := UInt32.ofNat index
    require (entry.parentIndex < self)
      s!"entry {index} names parent {entry.parentIndex}, which is not earlier in the table"
    require ((entries[entry.parentIndex.toNat]?).map (·.type) = some typeDirectory)
      s!"entry {index} has a non-directory parent {entry.parentIndex}"
    let path := scan.path.dropWhile (· ≠ entry.parentIndex)
    require (path.length ≠ 0)
      s!"entry {index} breaks depth-first order; parent {entry.parentIndex} is not an open ancestor"
    match validateName entry.name with
    | .error e => .error (invalid s!"entry {index}: {e}")
    | .ok () =>
      require ((entry.parentIndex, entry.name) ∉ scan.children)
        s!"entry {index} duplicates a name under parent {entry.parentIndex}"
      return { scan with
        path := self :: path
        children := (entry.parentIndex, entry.name) :: scan.children }

/-- One turn of the loop of `validateEntries`, `validate.go:193`. -/
def validateEntry (m : Manifest) (index : ℕ) (entry : Entry) (scan : EntryScan) :
    Except String EntryScan := do
  let scan ← validatePlace m.entries index entry scan
  require (entry.mode &&& ~~~modeMask = 0)
    s!"entry {index} carries mode bits outside the permission and set-ID mask"
  require (entry.nlink ≠ 0) s!"entry {index} has a zero link count"
  validateXattrs entry.xattrs index
  validateEntryShape sha256 m.frames entry index m.header.chunkSizeBytes.toUInt64
  let chunkTotal := scan.chunkTotal + entry.chunks.length
  require (chunkTotal ≤ maxChunks) "chunk count exceeds the format bound"
  return { scan with chunkTotal := chunkTotal }

/-- The loop of `validateEntries`, `validate.go:192`. -/
def validateEntryList (m : Manifest) : ℕ → EntryScan → List Entry → Except String EntryScan
  | _, scan, [] => .ok scan
  | index, scan, entry :: rest => do
    let scan ← validateEntry sha256 m index entry scan
    validateEntryList m (index + 1) scan rest

/-- `validate.go:181`. -/
def validateEntries (m : Manifest) : Except String Unit := do
  let _ ← validateEntryList sha256 m 0 { path := [0], children := [], chunkTotal := 0 } m.entries
  return ()

end Hash

/-- The state of one hardlink group, `validate.go:408`: its first entry and that entry's index. -/
structure LinkGroup where
  firstIndex : ℕ
  first : Entry
  members : UInt32

/-- The loop of `validateHardlinkGroups`, `validate.go:414`. -/
def collectGroups : ℕ → UInt32 → List (UInt32 × LinkGroup) → List Entry →
    Except String (List (UInt32 × LinkGroup))
  | _, _, groups, [] => .ok groups
  | index, next, groups, entry :: rest =>
    if entry.hardlinkGroup = 0 then collectGroups (index + 1) next groups rest
    else
      match groups.lookup entry.hardlinkGroup with
      | none => do
        require (entry.hardlinkGroup = next)
          s!"entry {index} opens hardlink group {entry.hardlinkGroup} out of canonical order, expected {next}"
        collectGroups (index + 1) (next + 1)
          ((entry.hardlinkGroup, { firstIndex := index, first := entry, members := 1 }) :: groups) rest
      | some existing => do
        require (entry.nlink = existing.first.nlink ∧ entry.size = existing.first.size ∧
            entry.contentDigest = existing.first.contentDigest)
          s!"entry {index} disagrees with entry {existing.firstIndex} about their shared inode"
        collectGroups (index + 1) next
          (groups.map fun pair =>
            if pair.1 = entry.hardlinkGroup then
              (pair.1, { pair.2 with members := pair.2.members + 1 })
            else pair) rest

/-- The membership counts, `validate.go:436`. The source walks a map, so which of several wrong
groups is named is not determined; here it is the one opened last. -/
def checkGroups : List (UInt32 × LinkGroup) → Except String Unit
  | [] => .ok ()
  | (number, state) :: rest => do
    require (state.members = state.first.nlink)
      s!"hardlink group {number} has {state.members} members but a link count of {state.first.nlink}"
    checkGroups rest

/-- `validate.go:407`. -/
def validateHardlinkGroups (m : Manifest) : Except String Unit := do
  let groups ← collectGroups 0 1 [] m.entries
  checkGroups groups

/-- The loop of `validateTotals`, `validate.go:455`: logical bytes and inodes. -/
def logicalTotals : List UInt32 → UInt64 → UInt64 → List Entry → Except String (UInt64 × UInt64)
  | _, logicalBytes, inodes, [] => .ok (logicalBytes, inodes)
  | seen, logicalBytes, inodes, entry :: rest =>
    if entry.hardlinkGroup ≠ 0 ∧ entry.hardlinkGroup ∈ seen then
      logicalTotals seen logicalBytes inodes rest
    else
      let seen := if entry.hardlinkGroup ≠ 0 then entry.hardlinkGroup :: seen else seen
      if entry.type ≠ typeRegular then logicalTotals seen logicalBytes (inodes + 1) rest
      else
        match checkedAdd logicalBytes entry.size with
        | none => .error (errOverflow "logical bytes")
        | some sum => logicalTotals seen sum (inodes + 1) rest

/-- `validate.go:451`. -/
def validateTotals (m : Manifest) : Except String Unit := do
  let (logicalBytes, inodes) ← logicalTotals [] 0 0 m.entries
  require (m.header.logicalBytes = logicalBytes)
    s!"header claims {m.header.logicalBytes} logical bytes, the tree holds {logicalBytes}"
  require (m.header.logicalInodes = inodes)
    s!"header claims {m.header.logicalInodes} logical inodes, the tree holds {inodes}"
  let (allocated, sealedInodes) ← sealedAllocation m.entries
  require (m.header.sealedAllocatedBytes = allocated)
    s!"header claims {m.header.sealedAllocatedBytes} sealed allocated bytes, the pinned computation gives {allocated}"
  require (m.header.sealedInodes = sealedInodes)
    s!"header claims {m.header.sealedInodes} sealed inodes, the tree holds {sealedInodes} entries"

/-- `validate.go:28`; a manifest here is never nil. -/
def validate (sha256 : List UInt8 → Digest) (m : Manifest) : Except String Unit := do
  validateHeader m.header
  require (m.entries.length ≠ 0) "entry table is empty; a volume always has a root"
  require (m.entries.length ≤ maxEntries)
    s!"entry count {m.entries.length} exceeds the format bound"
  require (m.frames.length ≤ maxFrames) s!"frame count {m.frames.length} exceeds the format bound"
  validateFrames m
  validateEntries sha256 m
  validateHardlinkGroups m
  validateTotals m

end PortableFS.Archive
