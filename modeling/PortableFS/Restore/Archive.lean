import PortableFS.Base.ByteFile
import PortableFS.Restore.Types

/-!
# The sealed archive and user operations on a restored file

What the hydrator serves: for every stored chunk of `INFO`'s drain order the extents of its
bytes (`vcs/internal/restoremode/types.go:135`, `Extent`), within the sealed size of their file.
A restored file starts as a sparse file of the sealed size; its sealed content has the bytes of
all extents. User operations are what the callers of `Write` and `Truncate` do in their `apply`
functions.
-/

namespace PortableFS.Restore

open Base.ByteFile List

/-- `types.go:135`: bytes at an offset within their chunk. -/
structure Extent where
  offset : Nat
  data : List UInt8

/-- The sealed archive of a volume. Stored chunks are distinct and start below the sealed end of
their file, and their extents lie within the chunk and below that end. -/
structure Archive where
  chunkSize : UInt32
  order : List ChunkKey
  size : Entry → Nat
  extents : ChunkKey → List Extent
  chunkSize_pos : 0 < chunkSize.toNat
  order_nodup : order.Nodup
  start_lt : ∀ key ∈ order, key.chunk.toNat * chunkSize.toNat < size key.entry
  inside : ∀ key ∈ order, ∀ extent ∈ extents key,
    extent.offset + extent.data.length ≤ chunkSize.toNat ∧
      key.chunk.toNat * chunkSize.toNat + extent.offset + extent.data.length ≤ size key.entry

namespace Archive

variable (A : Archive)

/-- The first byte of the chunk in its file. -/
def chunkStart (key : ChunkKey) : Nat := key.chunk.toNat * A.chunkSize.toNat

/-- The bytes `installFetchedChunkLocked` writes for the chunk, one by one in its order. -/
def edits (key : ChunkKey) : List (Edit UInt8) :=
  (A.extents key).flatMap fun extent => bytesAt (A.chunkStart key + extent.offset) extent.data

/-- The sealed byte of the chunk at a position of its file, if an extent covers it. -/
def sealedAt (key : ChunkKey) (x : Nat) : Option UInt8 := lastTouch x (A.edits key)

/-- The sealed content of a file. -/
def base (entry : Entry) : List UInt8 :=
  (range (A.size entry)).map fun x =>
    let key : ChunkKey := ⟨entry, UInt32.ofNat (x / A.chunkSize.toNat)⟩
    if key ∈ A.order then (A.sealedAt key x).getD 0 else 0

/-- The sparse file a restore materializes. -/
def sparse (entry : Entry) : List UInt8 := replicate (A.size entry) 0

end Archive

variable {x : Nat} {b : UInt8} {es : List (Edit UInt8)}

private theorem exists_of_lastTouch
    (h : lastTouch x es = some b) : ∃ e ∈ es, e.touch x = some b := by
  induction es with
  | nil => cases h
  | cons e es ih =>
    rw [lastTouch] at h
    cases hes : lastTouch x es with
    | some c =>
      rw [hes, Option.some_or] at h
      obtain ⟨e', he', ht⟩ := ih (hes.trans h)
      exact ⟨e', mem_cons_of_mem e he', ht⟩
    | none =>
      rw [hes, Option.none_or] at h
      exact ⟨e, mem_cons_self, h⟩

private theorem bounds_of_touch_bytesAt {off : Nat} {data : List UInt8} {e : Edit UInt8}
    (he : e ∈ bytesAt off data) (ht : e.touch x = some b) : off ≤ x ∧ x < off + data.length := by
  induction data generalizing off with
  | nil => exact absurd he not_mem_nil
  | cons d ds ih =>
    rw [length_cons]
    rcases mem_cons.mp he with rfl | he
    · simp only [Edit.touch, length_cons, length_nil] at ht
      split at ht
      · omega
      · cases ht
    · have := ih he
      omega

/-- A touched position stays touched when more edits follow. -/
theorem lastTouch_take {n : Nat}
    (h : lastTouch x (es.take n) = some b) : ∃ c, lastTouch x es = some c := by
  rw [← take_append_drop n es, lastTouch_append, h]
  cases lastTouch x (es.drop n) with
  | some c => exact ⟨c, rfl⟩
  | none => exact ⟨b, rfl⟩

namespace Archive

variable {A : Archive} {key : ChunkKey} {x : Nat} {b : UInt8}

/-- A sealed byte lies in its chunk and below the sealed end. -/
theorem sealedAt_bounds (hkey : key ∈ A.order) (h : A.sealedAt key x = some b) :
    A.chunkStart key ≤ x ∧ x < A.chunkStart key + A.chunkSize.toNat ∧ x < A.size key.entry := by
  obtain ⟨e, he, ht⟩ := exists_of_lastTouch h
  obtain ⟨extent, hextent, he⟩ := mem_flatMap.mp he
  obtain ⟨hlo, hhi⟩ := bounds_of_touch_bytesAt he ht
  obtain ⟨hchunk, hsize⟩ := A.inside key hkey extent hextent
  unfold chunkStart at hlo hhi ⊢
  omega

/-- The number of the chunk at a position. -/
theorem div_of_chunk (hlo : A.chunkStart key ≤ x) (hhi : x < A.chunkStart key + A.chunkSize.toNat) :
    x / A.chunkSize.toNat = key.chunk.toNat := by
  unfold chunkStart at hlo hhi
  rw [Nat.div_eq_iff A.chunkSize_pos]
  have := A.chunkSize_pos
  omega

theorem sealedAt_chunk (hkey : key ∈ A.order) (h : A.sealedAt key x = some b) :
    x / A.chunkSize.toNat = key.chunk.toNat := by
  obtain ⟨hlo, hhi, -⟩ := sealedAt_bounds hkey h
  exact div_of_chunk hlo hhi

/-- At most one stored chunk of a file has a sealed byte at a position. -/
theorem sealedAt_unique {key' : ChunkKey} {b' : UInt8} (hkey : key ∈ A.order)
    (hkey' : key' ∈ A.order) (hentry : key.entry = key'.entry) (h : A.sealedAt key x = some b)
    (h' : A.sealedAt key' x = some b') : key = key' := by
  have hchunk := (sealedAt_chunk hkey h).symm.trans (sealedAt_chunk hkey' h')
  cases key
  cases key'
  simp only [ChunkKey.mk.injEq] at hentry ⊢
  exact ⟨hentry, UInt32.toNat_inj.mp hchunk⟩

theorem length_base (entry : Entry) : (A.base entry).length = A.size entry := by
  simp [base]

theorem getD_base (entry : Entry) (x : Nat) (hx : x < A.size entry) : (A.base entry).getD x 0 =
      if ⟨entry, UInt32.ofNat (x / A.chunkSize.toNat)⟩ ∈ A.order then
        (A.sealedAt ⟨entry, UInt32.ofNat (x / A.chunkSize.toNat)⟩ x).getD 0 else 0 := by
  unfold base
  rw [getD_eq_getElem?_getD, getElem?_map, getElem?_range hx]
  rfl

/-- The sealed content has the sealed bytes of every stored chunk. -/
theorem base_sealed (hkey : key ∈ A.order) (h : A.sealedAt key x = some b) :
    x < (A.base key.entry).length ∧ (A.base key.entry).getD x 0 = b := by
  obtain ⟨-, -, hx⟩ := sealedAt_bounds hkey h
  have hself : (⟨key.entry, UInt32.ofNat (x / A.chunkSize.toNat)⟩ : ChunkKey) = key := by
    rw [sealedAt_chunk hkey h, UInt32.ofNat_toNat]
  refine ⟨by rwa [length_base], ?_⟩
  rw [getD_base _ _ hx, hself, if_pos hkey, h, Option.getD_some]

/-- The sealed content and the sparse file differ only where a stored chunk has bytes. -/
theorem sparse_or_sealed (entry : Entry) (x : Nat) :
    (A.sparse entry).getD x 0 = (A.base entry).getD x 0 ∨
      ∃ key ∈ A.order, key.entry = entry ∧ (A.sealedAt key x).isSome := by
  have hzero : (A.sparse entry).getD x 0 = 0 := by
    unfold sparse
    rw [getD_eq_getElem?_getD, getElem?_replicate]
    split <;> rfl
  by_cases hx : x < A.size entry
  · rw [hzero, getD_base _ _ hx]
    split
    · next hmem =>
      cases hs : A.sealedAt ⟨entry, UInt32.ofNat (x / A.chunkSize.toNat)⟩ x with
      | none => exact .inl rfl
      | some b => exact .inr ⟨_, hmem, rfl, by rw [hs]; rfl⟩
    · exact .inl rfl
  · have hlen : (A.base entry).length ≤ x := by
      rw [length_base]
      omega
    rw [hzero, getD_eq_default _ _ hlen]
    exact .inl rfl

end Archive

/-- The operation changes a file only between `lo` and `hi` and at or beyond its end, and what
it does there depends on nothing else but the size. -/
structure Within (lo hi : Nat) (run : List UInt8 → List UInt8) : Prop where
  reads : ∀ f g : List UInt8, f.length = g.length →
    (∀ x, lo ≤ x → x < hi → f.getD x 0 = g.getD x 0) →
    (run f).length = (run g).length ∧
      ∀ x, (lo ≤ x ∧ x < hi ∨ f.length ≤ x) → (run f).getD x 0 = (run g).getD x 0
  frame : ∀ f x, ¬(lo ≤ x ∧ x < hi) → x < f.length →
    x < (run f).length ∧ (run f).getD x 0 = f.getD x 0

/-- What the caller of `Write` applies to a file: a write, an append or a range operation, local
to the range the caller named. -/
structure RangeOp where
  lo : Nat
  hi : Nat
  run : List UInt8 → List UInt8
  within : Within lo hi run

/-- What the callers apply to a file under the entry lock. -/
inductive FileOp where
  | range (op : RangeOp)
  | truncate (size : Nat)
  | metadata

/-- The file after the operation. -/
def FileOp.run (file : List UInt8) : FileOp → List UInt8
  | .range op => op.run file
  | .truncate size => resize file size
  | .metadata => file

/-- The content of a file: user operations in order over its sealed content. -/
def Archive.content (A : Archive) (entry : Entry) (log : List FileOp) : List UInt8 :=
  log.foldl FileOp.run (A.base entry)

theorem Archive.content_append (A : Archive) (entry : Entry) (log : List FileOp) (op : FileOp) :
    A.content entry (log ++ [op]) = op.run (A.content entry log) := by
  unfold Archive.content
  rw [foldl_append]
  rfl

end PortableFS.Restore
