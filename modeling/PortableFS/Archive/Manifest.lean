import PortableFS.Base.Reader

/-!
# Manifests

The types of `vcs/archive/manifest.go` and the checked arithmetic of `vcs/archive/arith.go`. Slices are
lists, so a nil slice and an empty one are the same. An entry type is the byte of the source, since
a decoded manifest may carry any. An error is its text.
-/

namespace PortableFS.Archive

open Base

/-- A SHA-256 digest. -/
abbrev Digest := Vector UInt8 32

/-- The text of `ErrInvalid` with what is wrong. -/
def invalid (what : String) : String := "archive: invalid manifest: " ++ what

/-- Fail with a text unless a condition holds. -/
def require (ok : Bool) (what : String) : Except String Unit :=
  if ok then .ok () else .error (invalid what)

variable {ok : Bool} {what : String}

@[simp] theorem require_eq_ok {u : Unit} : require ok what = .ok u ↔ ok = true := by
  unfold require
  split
  · next h => simp [h]
  · next h => simp [h]

theorem require_bind_eq_ok {β : Type} {f : Unit → Except String β}
    {b : β} : require ok what >>= f = .ok b ↔ ok = true ∧ f () = .ok b := by
  rw [bind_eq_ok]
  constructor
  · rintro ⟨⟨⟩, hok, hrest⟩
    exact ⟨require_eq_ok.mp hok, hrest⟩
  · rintro ⟨hok, hrest⟩
    exact ⟨(), require_eq_ok.mpr hok, hrest⟩

/-- `manifest.go:10`. -/
def formatVersion : UInt32 := 1

/-- `manifest.go:22`. -/
def minChunkSizeBytes : UInt32 := 4096

/-- `manifest.go:23`. -/
def maxChunkSizeBytes : UInt32 := 1073741824

/-- `manifest.go:24`. -/
def minCompressionLevel : Int32 := 1

/-- `manifest.go:25`. -/
def maxCompressionLevel : Int32 := 22

/-- `manifest.go:26`. -/
def minWindowLog : UInt32 := 10

/-- `manifest.go:27`. -/
def maxWindowLog : UInt32 := 31

/-- `manifest.go:35`. -/
def maxManifestBytes : ℕ := 2 ^ 31

/-- `manifest.go:36`. -/
def maxEntries : ℕ := 2 ^ 24

/-- `manifest.go:37`. -/
def maxFrames : ℕ := 2 ^ 24

/-- `manifest.go:38`. -/
def maxChunks : ℕ := 2 ^ 28

/-- `manifest.go:39`. -/
def maxPacks : ℕ := 1024

/-- `manifest.go:40`. -/
def maxNameBytes : ℕ := 255

/-- `manifest.go:41`. -/
def maxLinkNameBytes : ℕ := 4096

/-- `manifest.go:42`. -/
def maxPathBytes : ℕ := 4096

/-- `manifest.go:48`. -/
def maxExtentsPerChunk : ℕ := 4096

/-- `manifest.go:52`. -/
def maxXattrsPerEntry : ℕ := 64

/-- `manifest.go:53`. -/
def maxXattrNameBytes : ℕ := 255

/-- `manifest.go:54`. -/
def maxXattrValueSize : ℕ := 65536

/-- `manifest.go:59`. -/
def modeMask : UInt32 := 0o7777

/-- `manifest.go:69`: `user.`. -/
def xattrPrefix : List UInt8 := [117, 115, 101, 114, 46]

/-- `manifest.go:75`. -/
def noFrame : UInt32 := 0xFFFFFFFF

/-- `manifest.go:279`. -/
def allocationBlockBytes : UInt64 := 4096

/-- `manifest.go:287`. -/
def metadataBytesPerEntry : UInt64 := 4096

/-- `manifest.go:87`. -/
def typeRegular : UInt8 := 1

/-- `manifest.go:88`. -/
def typeDirectory : UInt8 := 2

/-- `manifest.go:89`. -/
def typeSymlink : UInt8 := 3

/-- `String` of an entry type, `manifest.go:92`. -/
def typeText (t : UInt8) : String :=
  if t = typeRegular then "regular"
  else if t = typeDirectory then "directory"
  else if t = typeSymlink then "symlink"
  else "unknown"

/-- `manifest.go:110`. -/
structure Xattr where
  name : List UInt8
  value : List UInt8
deriving DecidableEq

/-- `manifest.go:121`. -/
structure Extent where
  offset : UInt64
  length : UInt64
deriving DecidableEq

/-- `manifest.go:136`. -/
structure ChunkRef where
  frameIndex : UInt32
  innerOffset : UInt64
  length : UInt64
  sliceDigest : Digest
  extents : List Extent
deriving DecidableEq

/-- `manifest.go:146`. -/
def ChunkRef.stored (c : ChunkRef) : Bool := c.frameIndex ≠ noFrame

/-- `manifest.go:164`. -/
structure Entry where
  parentIndex : UInt32
  name : List UInt8
  type : UInt8
  size : UInt64
  mode : UInt32
  mtimeNanos : Int64
  ctimeNanos : Int64
  linkName : List UInt8
  nlink : UInt32
  hardlinkGroup : UInt32
  contentDigest : Digest
  xattrs : List Xattr
  chunks : List ChunkRef
deriving DecidableEq

/-- `manifest.go:186`. -/
structure Frame where
  packIndex : UInt32
  packOffset : UInt64
  compressedLength : UInt64
  uncompressedLength : UInt64
  rawBlocks : Bool
  xxh64Lo32 : UInt32
deriving DecidableEq

/-- `manifest.go:200`. -/
structure PackRef where
  crc64Nvme : UInt64
  sha256 : Digest
  sizeBytes : UInt64
deriving DecidableEq

/-- `manifest.go:216`. -/
structure PriorityBoundary where
  packIndex : UInt32
  packOffset : UInt64
deriving DecidableEq

/-- `manifest.go:231`. -/
structure Header where
  formatVersion : UInt32
  chunkSizeBytes : UInt32
  compressionLevel : Int32
  windowLog : UInt32
  volumeID : Vector UInt8 16
  sealedEpoch : UInt64
  attempt : Vector UInt8 16
  logicalBytes : UInt64
  logicalInodes : UInt64
  sealedAllocatedBytes : UInt64
  sealedInodes : UInt64
  priority : PriorityBoundary
  packs : List PackRef
deriving DecidableEq

/-- `manifest.go:250`. -/
structure Manifest where
  header : Header
  entries : List Entry
  frames : List Frame
deriving DecidableEq

/-- `manifest.go:258`; a manifest in memory has no 64-bit overflow of it. -/
def Manifest.chunkCount (m : Manifest) : ℕ := (m.entries.map (·.chunks.length)).sum

/-- `arith.go:11`. -/
def checkedAdd (a b : UInt64) : Option UInt64 :=
  let sum := a + b
  if sum < a then none else some sum

/-- `arith.go:19`. -/
def checkedMul (a b : UInt64) : Option UInt64 :=
  if a = 0 ∨ b = 0 then some 0
  else
    let product := a * b
    if product / a ≠ b then none else some product

/-- `arith.go:32`. -/
def checkedRange (offset length limit : UInt64) : Option UInt64 :=
  match checkedAdd offset length with
  | none => none
  | some stop => if limit < stop then none else some stop

/-- `arith.go:40`. -/
def errOverflow (what : String) : String := invalid (what ++ " overflows a 64-bit total")

theorem checkedAdd_eq_some {a b sum : UInt64} :
    checkedAdd a b = some sum ↔ a.toNat + b.toNat = sum.toNat := by
  have ha := a.toNat_lt
  have hb := b.toNat_lt
  have hs := sum.toNat_lt
  have hadd : (a + b).toNat = (a.toNat + b.toNat) % 2 ^ 64 := UInt64.toNat_add a b
  unfold checkedAdd
  dsimp only
  split
  · next hlt =>
    rw [UInt64.lt_iff_toNat_lt, hadd] at hlt
    constructor
    · intro h
      cases h
    · intro h
      omega
  · next hle =>
    rw [UInt64.lt_iff_toNat_lt, hadd] at hle
    rw [Option.some.injEq, ← UInt64.toNat_inj, hadd]
    omega

theorem checkedRange_eq_some {offset length limit stop : UInt64} :
    checkedRange offset length limit = some stop ↔
      offset.toNat + length.toNat = stop.toNat ∧ stop ≤ limit := by
  unfold checkedRange
  split
  · next h =>
    constructor
    · intro hc
      cases hc
    · rintro ⟨hsum, -⟩
      rw [checkedAdd_eq_some.mpr hsum] at h
      cases h
  next sum h =>
  rw [checkedAdd_eq_some] at h
  split
  · next hlt =>
    constructor
    · intro hc
      cases hc
    · rintro ⟨hsum, hle⟩
      have heq : sum = stop := UInt64.toNat_inj.mp (h.symm.trans hsum)
      rw [heq] at hlt
      exact absurd hle (UInt64.not_le.mpr hlt)
  · next hle =>
    rw [Option.some.injEq]
    constructor
    · rintro rfl
      exact ⟨h, UInt64.not_lt.mp hle⟩
    · rintro ⟨hsum, -⟩
      exact UInt64.toNat_inj.mp (h.symm.trans hsum)

/-- The sealed allocation of extents, added to what came before. -/
def allocateExtents : List Extent → UInt64 → Except String UInt64
  | [], total => .ok total
  | extent :: rest, total =>
    let blocks := (extent.length + allocationBlockBytes - 1) / allocationBlockBytes
    match checkedMul blocks allocationBlockBytes with
    | none => .error (errOverflow "sealed allocation")
    | some rounded =>
      match checkedAdd total rounded with
      | none => .error (errOverflow "sealed allocation")
      | some total => allocateExtents rest total

/-- `manifest.go:302`. -/
def sealedAllocation (entries : List Entry) : Except String (UInt64 × UInt64) := do
  let extents := entries.flatMap fun entry => entry.chunks.flatMap (·.extents)
  let allocated ← allocateExtents extents 0
  match checkedMul (UInt64.ofNat entries.length) metadataBytesPerEntry with
  | none => .error (errOverflow "sealed allocation metadata")
  | some metadata =>
    match checkedAdd allocated metadata with
    | none => .error (errOverflow "sealed allocation")
    | some total => .ok (total, UInt64.ofNat entries.length)

end PortableFS.Archive
