import Mathlib

/-!
# Entries, chunk keys and little-endian integers

`vcs/internal/restoremode/types.go:24` (`chunkKey`) and the fixed-width integers that
`vcs/internal/restoremode/map.go` stores through `encoding/binary` in little-endian order.
-/

namespace PortableFS.Restore

/-- The index of a restored file in the sealed archive. -/
abbrev Entry := UInt32

/-- One stored chunk of one restored file; `types.go:24`. -/
structure ChunkKey where
  entry : Entry
  chunk : UInt32
deriving DecidableEq, Repr

/-- `binary.LittleEndian.PutUint32`. -/
def putUint32 (x : UInt32) : List UInt8 :=
  [UInt8.ofNat x.toNat, UInt8.ofNat (x.toNat / 256), UInt8.ofNat (x.toNat / 65536),
    UInt8.ofNat (x.toNat / 16777216)]

/-- `binary.LittleEndian.Uint32`. -/
def uint32 (bytes : List UInt8) : UInt32 :=
  UInt32.ofNat ((bytes.getD 0 0).toNat + 256 * (bytes.getD 1 0).toNat +
    65536 * (bytes.getD 2 0).toNat + 16777216 * (bytes.getD 3 0).toNat)

theorem length_putUint32 (x : UInt32) : (putUint32 x).length = 4 := rfl

/-- Reading back a stored integer, whatever follows it. -/
theorem uint32_putUint32 (x : UInt32) (rest : List UInt8) : uint32 (putUint32 x ++ rest) = x := by
  have hx : x.toNat < 4294967296 := x.toNat_lt
  apply UInt32.toNat_inj.mp
  simp only [uint32, putUint32, List.cons_append, List.nil_append, List.getD_cons_zero,
    List.getD_cons_succ, UInt8.toNat_ofNat', UInt32.toNat_ofNat', Nat.reducePow]
  omega

end PortableFS.Restore
