import PortableFS.Restore.Archive

/-!
# A file against its content

A restored file and the content it stands for: they have one length, and they differ at most
where a chunk that is still cold has sealed bytes. Installing a chunk and the user operations of
`Write` and `Truncate` keep this, as long as no operation touches a cold chunk.
-/

namespace PortableFS.Restore

open Base.ByteFile List

namespace Archive

variable (A : Archive)

/-- The file is its content up to sealed bytes of chunks outside `warm`. -/
structure Warm (entry : Entry) (file content : List UInt8) (warm : Finset ChunkKey) : Prop where
  length : file.length = content.length
  bytes : ∀ x, file.getD x 0 = content.getD x 0 ∨
    ∃ key ∈ A.order, key.entry = entry ∧ key ∉ warm ∧ (A.sealedAt key x).isSome

/-- The file has the content where the chunk has sealed bytes. -/
def Agrees (key : ChunkKey) (file content : List UInt8) : Prop :=
  ∀ x, (A.sealedAt key x).isSome → file.getD x 0 = content.getD x 0

/-- The content still has all sealed bytes of the chunk. -/
def Intact (key : ChunkKey) (content : List UInt8) : Prop :=
  ∀ x b, A.sealedAt key x = some b → x < content.length ∧ content.getD x 0 = b

variable {A} {entry : Entry} {file content : List UInt8} {warm : Finset ChunkKey}
  {key : ChunkKey}

section

variable (h : A.Warm entry file content warm)
include h

/-- A warm chunk has its content. -/
theorem Warm.agrees (hkey : key ∈ A.order)
    (hentry : key.entry = entry) (hwarm : key ∈ warm) : A.Agrees key file content := by
  intro x hx
  rcases h.bytes x with heq | ⟨key', hkey', hentry', hcold, hx'⟩
  · exact heq
  obtain ⟨b, hb⟩ := Option.isSome_iff_exists.mp hx
  obtain ⟨b', hb'⟩ := Option.isSome_iff_exists.mp hx'
  have hsame := sealedAt_unique hkey hkey' (hentry.trans hentry'.symm) hb hb'
  rw [← hsame] at hcold
  exact absurd hwarm hcold

/-- Chunks that have their content may be counted as warm. -/
theorem Warm.union {keys : Finset ChunkKey}
    (hkeys : ∀ key ∈ keys, key ∈ A.order → key.entry = entry → A.Agrees key file content) :
    A.Warm entry file content (warm ∪ keys) := by
  refine ⟨h.length, fun x => ?_⟩
  rcases h.bytes x with heq | ⟨key, hkey, hentry, hcold, hx⟩
  · exact .inl heq
  by_cases hin : key ∈ keys
  · exact .inl (hkeys key hin hkey hentry x hx)
  · right
    refine ⟨key, hkey, hentry, ?_, hx⟩
    rw [Finset.mem_union]
    exact not_or.mpr ⟨hcold, hin⟩

theorem Warm.mono {warm' : Finset ChunkKey}
    (hsub : warm' ⊆ warm) : A.Warm entry file content warm' := by
  refine ⟨h.length, fun x => ?_⟩
  rcases h.bytes x with heq | ⟨key, hkey, hentry, hcold, hx⟩
  · exact .inl heq
  · exact .inr ⟨key, hkey, hentry, fun hin => hcold (hsub hin), hx⟩

/-- With every stored chunk warm, the file is its content. -/
theorem Warm.eq (hall : ∀ key ∈ A.order, key.entry = entry → key ∈ warm) : file = content := by
  apply ext_getD h.length
  intro x
  rcases h.bytes x with heq | ⟨key, hkey, hentry, hcold, -⟩
  · exact heq
  · exact absurd (hall key hkey hentry) hcold

end

theorem warm_sparse (entry : Entry) : A.Warm entry (A.sparse entry) (A.base entry) ∅ := by
  refine ⟨?_, fun x => ?_⟩
  · rw [length_base, sparse, length_replicate]
  · rcases sparse_or_sealed (A := A) entry x with heq | ⟨key, hkey, hentry, hx⟩
    · exact .inl heq
    · exact .inr ⟨key, hkey, hentry, Finset.notMem_empty key, hx⟩

theorem intact_base (hkey : key ∈ A.order) : A.Intact key (A.base key.entry) :=
  fun _ _ h => base_sealed hkey h

private theorem length_replay_bytes {es : List (Edit UInt8)}
    (h : ∀ e ∈ es, ∃ off b, e = .write off [b] ∧ off < file.length) :
    (replay file es).length = file.length := by
  induction es generalizing file with
  | nil => rfl
  | cons e es ih =>
    obtain ⟨off, b, rfl, hoff⟩ := h e mem_cons_self
    have hstep : (write file off [b]).length = file.length := by
      rw [length_write, if_neg (cons_ne_nil b [])]
      simp only [length_cons, length_nil]
      omega
    have hrest : (replay (write file off [b]) es).length = (write file off [b]).length := by
      apply ih
      intro e he
      obtain ⟨off', b', rfl, hoff'⟩ := h e (mem_cons_of_mem _ he)
      exact ⟨off', b', rfl, hstep.symm ▸ hoff'⟩
    exact hrest.trans hstep

private theorem mem_edits {e : Edit UInt8} (h : e ∈ A.edits key) :
    ∃ off b, e = .write off [b] ∧ (A.sealedAt key off).isSome := by
  have hbytes : ∀ (off : Nat) (data : List UInt8), e ∈ bytesAt off data →
      ∃ off' b, e = .write off' [b] := by
    intro off data
    induction data generalizing off with
    | nil => exact nofun
    | cons d ds ih =>
      intro h
      rcases mem_cons.mp h with rfl | h
      · exact ⟨off, d, rfl⟩
      · exact ih (off + 1) h
  obtain ⟨extent, -, hmem⟩ := mem_flatMap.mp h
  obtain ⟨off, b, rfl⟩ := hbytes _ _ hmem
  refine ⟨off, b, rfl, ?_⟩
  obtain ⟨pre, post, hsplit⟩ := append_of_mem h
  have htouch : Edit.touch off (.write off [b]) = some b := by
    simp [Edit.touch]
  unfold sealedAt
  rw [hsplit, lastTouch_append, lastTouch, htouch]
  cases lastTouch off post with
  | none => rfl
  | some c => rfl

private theorem length_install (hlen : file.length = content.length) (hintact : A.Intact key content)
    (n : Nat) : (replay file ((A.edits key).take n)).length = file.length := by
  apply length_replay_bytes
  intro e he
  obtain ⟨off, b, rfl, hsome⟩ := mem_edits (mem_of_mem_take he)
  obtain ⟨c, hc⟩ := Option.isSome_iff_exists.mp hsome
  exact ⟨off, b, rfl, hlen ▸ (hintact off c hc).1⟩

/-- Installing bytes of a cold, intact chunk keeps the file up to cold chunks. -/
theorem Warm.install (h : A.Warm entry file content warm) (hkey : key ∈ A.order)
    (hentry : key.entry = entry) (hcold : key ∉ warm) (hintact : A.Intact key content) (n : Nat) :
    A.Warm entry (replay file ((A.edits key).take n)) content warm := by
  refine ⟨(length_install h.length hintact n).trans h.length, fun x => ?_⟩
  rw [getD_replay]
  cases htouch : lastTouch x ((A.edits key).take n) with
  | none => exact h.bytes x
  | some b =>
    obtain ⟨c, hc⟩ := lastTouch_take htouch
    exact .inr ⟨key, hkey, hentry, hcold, Option.isSome_iff_exists.mpr ⟨c, hc⟩⟩

/-- Once installed, an intact chunk has its content. -/
theorem agrees_install (hintact : A.Intact key content) :
    A.Agrees key (replay file (A.edits key)) content := by
  intro x hx
  obtain ⟨b, hb⟩ := Option.isSome_iff_exists.mp hx
  rw [getD_replay]
  unfold sealedAt at hb
  rw [hb, (hintact x b hb).2]
  rfl

/-- The chunk does not overlap the range. -/
def Outside (A : Archive) (key : ChunkKey) (lo hi : Nat) : Prop :=
  ∀ x, A.chunkStart key ≤ x → x < A.chunkStart key + A.chunkSize.toNat → ¬(lo ≤ x ∧ x < hi)

theorem Outside.sealed {lo hi : Nat} (h : A.Outside key lo hi) (hkey : key ∈ A.order) {x : Nat}
    (hx : (A.sealedAt key x).isSome) : ¬(lo ≤ x ∧ x < hi) := by
  obtain ⟨b, hb⟩ := Option.isSome_iff_exists.mp hx
  obtain ⟨hlo, hhi, -⟩ := sealedAt_bounds hkey hb
  exact h x hlo hhi

theorem Warm.range (h : A.Warm entry file content warm) (op : RangeOp)
    (hout : ∀ key ∈ A.order, key.entry = entry → key ∉ warm → A.Outside key op.lo op.hi) :
    A.Warm entry (op.run file) (op.run content) warm := by
  have hreads := op.within.reads file content h.length (by
    intro x hlo hhi
    rcases h.bytes x with heq | ⟨key, hkey, hentry, hcold, hx⟩
    · exact heq
    · exact absurd ⟨hlo, hhi⟩ ((hout key hkey hentry hcold).sealed hkey hx))
  refine ⟨hreads.1, fun x => ?_⟩
  by_cases hin : op.lo ≤ x ∧ x < op.hi ∨ file.length ≤ x
  · exact .inl (hreads.2 x hin)
  · obtain ⟨hrange, hend⟩ := not_or.mp hin
    rw [(op.within.frame file x hrange (by omega)).2,
      (op.within.frame content x hrange (by rw [← h.length]; omega)).2]
    exact h.bytes x

theorem Intact.range (h : A.Intact key content) (op : RangeOp) (hkey : key ∈ A.order)
    (hout : A.Outside key op.lo op.hi) : A.Intact key (op.run content) := by
  intro x b hb
  obtain ⟨hx, hbyte⟩ := h x b hb
  obtain ⟨hx', hbyte'⟩ := op.within.frame content x
    (hout.sealed hkey (Option.isSome_iff_exists.mpr ⟨b, hb⟩)) hx
  exact ⟨hx', hbyte'.trans hbyte⟩

theorem Warm.resize (h : A.Warm entry file content warm) (size : Nat) :
    A.Warm entry (resize file size) (resize content size) warm := by
  refine ⟨by rw [length_resize, length_resize], fun x => ?_⟩
  rw [getD_resize, getD_resize]
  split
  · exact .inl rfl
  · exact h.bytes x

theorem Intact.resize (h : A.Intact key content) {size : Nat}
    (hin : ∀ x, (A.sealedAt key x).isSome → x < size) : A.Intact key (resize content size) := by
  intro x b hb
  have hx := hin x (Option.isSome_iff_exists.mpr ⟨b, hb⟩)
  rw [length_resize, getD_resize, if_neg (not_le.mpr hx)]
  exact ⟨hx, (h x b hb).2⟩

/-- Beyond the end of both there is nothing to differ in. -/
theorem agrees_of_short (hlen : file.length = content.length)
    (hshort : ∀ x, (A.sealedAt key x).isSome → file.length ≤ x) : A.Agrees key file content := by
  intro x hx
  have hend := hshort x hx
  rw [getD_eq_default _ _ hend, getD_eq_default _ _ (hlen ▸ hend)]

end Archive

end PortableFS.Restore
