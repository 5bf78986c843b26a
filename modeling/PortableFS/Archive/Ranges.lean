import PortableFS.Archive.Layout

/-!
# The wake prefetch

`vcs/archive/ranges.go`: the reads of a wake prefetch. The loop that splits a sweep advances a 64-bit
offset and need not end, so it takes fuel and gives nothing when that runs out.
-/

namespace PortableFS.Archive

open List

/-- `ranges.go:13`. -/
structure ByteRange where
  packIndex : UInt32
  offset : UInt64
  length : UInt64
deriving DecidableEq

/-- The bytes of a range. -/
def ByteRange.bytes (range : ByteRange) : List (ℕ × ℕ) :=
  packBytes range.packIndex.toNat range.offset.toNat range.length.toNat

/-- A byte lies before the boundary. -/
def PriorityBoundary.before (boundary : PriorityBoundary) (byte : ℕ × ℕ) : Bool :=
  byte.1 < boundary.packIndex.toNat ∨
    byte.1 = boundary.packIndex.toNat ∧ byte.2 < boundary.packOffset.toNat

variable {packIndex : UInt32} {length maxRange : UInt64} {fuel : ℕ}

variable {boundary : PriorityBoundary} {index : UInt32} {pack : PackRef} {packs : List PackRef}

end PortableFS.Archive
