import PortableFS.Writeback.Steps

/-!
# The invariant of the buffer

Every file keeps its books, and the counters and free lists of the mount are what the books of all
files make them. A step of one file keeps that, and so does a change that touches no books.
-/

namespace PortableFS.Writeback

open PortableFS.Base

namespace Buffer

/-- The books of a file. -/
def ledger (b : Buffer) (id : Identity) : Ledger := (b.fileOf id).toLedger

/-- Total of a quantity over the files. -/
def total (b : Buffer) (q : Ledger → Nat) : Nat := b.files.total fun _ f => q f.toLedger

/-- The arenas hold what the files do not use: all records and nodes of `New`, or none after
`ReleaseStorage`, when nothing is admitted any more. -/
structure StorageOk (b : Buffer) : Prop where
  records : (b.mount.free.length : Int) + b.mount.count = if b.arenas then b.maxEntries else 0
  nodes : b.mount.pool.length + b.total (fun l => l.extents.nodes.length) =
    if b.arenas then 2 * b.maxEntries + 2 else 0
  released : b.arenas = false → b.stopped = true ∧ b.done = true

/-- The invariant of the buffer. -/
structure Inv (b : Buffer) : Prop where
  width : 0 < b.batchWidth
  payload : 0 < b.batchPayload
  books : ∀ id, Local b.batchPayload b.mount id (b.ledger id)
  sized : ∀ id, (b.ledger id).Sized
  active : ∀ id, (b.ledger id).queue ≠ [] → id ∈ b.active
  nodup : b.active.Nodup
  count : b.mount.count = b.total fun l => l.queue.length
  bytes : b.mount.bytes = b.total Ledger.bytes
  entries_le : b.mount.count ≤ b.maxEntries
  bytes_le : b.mount.bytes ≤ b.maxBytes
  storage : b.StorageOk
  done : b.done = true → b.cancelled = true
  cancelled : b.cancelled = true → b.stopped = true

theorem fileOf_put (b : Buffer) (id id' : Identity) (m : Mount) (f : File) :
    (b.put id m f).fileOf id' = if id' = id then f else b.fileOf id' := by
  unfold fileOf put
  rw [Assoc.lookup_insert_eq]
  split <;> rfl

theorem ledger_putLedger (b : Buffer) (id id' : Identity) (m : Mount) (l : Ledger) :
    (b.putLedger id m l).ledger id' = if id' = id then l else b.ledger id' := by
  unfold ledger putLedger
  rw [fileOf_put]
  split <;> rfl

variable {q : Ledger → Nat}

private theorem at_files (b : Buffer) (hq : q File.new.toLedger = 0) (id : Identity) :
    b.files.at? (fun _ f => q f.toLedger) id = q (b.ledger id) := by
  unfold Assoc.at? ledger fileOf
  split
  · next h => rw [h]; exact hq.symm
  · next f h => rw [h]; rfl

variable {b : Buffer} {b' : Buffer}

/-- The totals of buffers with the same books. -/
theorem total_congr (h : ∀ id, b'.ledger id = b.ledger id)
    (hq : q File.new.toLedger = 0) : b'.total q = b.total q := by
  apply Assoc.total_congr_at
  intro id
  rw [at_files b' hq, at_files b hq, h]

variable {id : Identity}

/-- The totals of buffers whose books differ at one file. -/
theorem total_change
    (h : ∀ id', id' ≠ id → b'.ledger id' = b.ledger id') (hq : q File.new.toLedger = 0) :
    b'.total q + q (b.ledger id) = b.total q + q (b'.ledger id) := by
  have hat : ∀ k, k ≠ id → b.files.at? (fun _ f => q f.toLedger) k =
      b'.files.at? (fun _ f => q f.toLedger) k := by
    intro k hk
    rw [at_files b hq, at_files b' hq, h k hk]
  have hchange := Assoc.total_change hat
  rw [at_files b hq, at_files b' hq] at hchange
  exact hchange

/-- One file has its part in a total. -/
theorem le_total (b : Buffer) (hq : q File.new.toLedger = 0) (id : Identity) :
    q (b.ledger id) ≤ b.total q := by
  rw [← at_files b hq id]
  exact Assoc.at_le_total _ _ _

/-- The buffers agree on everything the invariant talks about. -/
structure SameCore (b b' : Buffer) : Prop where
  width : b'.batchWidth = b.batchWidth
  payload : b'.batchPayload = b.batchPayload
  maxEntries : b'.maxEntries = b.maxEntries
  maxBytes : b'.maxBytes = b.maxBytes
  mount : b'.mount = b.mount
  ledger : ∀ id, b'.ledger id = b.ledger id
  active : b'.active = b.active
  arenas : b'.arenas = b.arenas

/-- Flags may change, but an end is an end. -/
theorem Inv.frame (h : b.Inv) (hc : SameCore b b')
    (hs : b.stopped = true → b'.stopped = true) (hb : b.done = true → b'.done = true)
    (hd : b'.done = true → b'.cancelled = true) (hx : b'.cancelled = true → b'.stopped = true) :
    b'.Inv where
  width := hc.width ▸ h.width
  payload := hc.payload ▸ h.payload
  books id := by
    rw [hc.payload, hc.mount, hc.ledger]
    exact h.books id
  sized id := hc.ledger id ▸ h.sized id
  active id hne := by
    rw [hc.active]
    exact h.active id (hc.ledger id ▸ hne)
  nodup := hc.active ▸ h.nodup
  count := by
    rw [hc.mount, total_congr hc.ledger rfl]
    exact h.count
  bytes := by
    rw [hc.mount, total_congr hc.ledger rfl]
    exact h.bytes
  entries_le := by
    rw [hc.mount, hc.maxEntries]
    exact h.entries_le
  bytes_le := by
    rw [hc.mount, hc.maxBytes]
    exact h.bytes_le
  storage := by
    refine ⟨?_, ?_, fun ha => ?_⟩
    · rw [hc.mount, hc.maxEntries, hc.arenas]
      exact h.storage.records
    · rw [hc.mount, total_congr hc.ledger rfl, hc.maxEntries, hc.arenas]
      exact h.storage.nodes
    · obtain ⟨hst, hdo⟩ := h.storage.released (hc.arenas ▸ ha)
      exact ⟨hs hst, hb hdo⟩
  done := hd
  cancelled := hx

/-- The total after the books of one file were stored. -/
theorem total_putLedger (b : Buffer) (id : Identity) (m : Mount) (l : Ledger)
    (hq : q File.new.toLedger = 0) :
    (b.putLedger id m l).total q + q (b.ledger id) = b.total q + q l := by
  have hne : ∀ id', id' ≠ id → (b.putLedger id m l).ledger id' = b.ledger id' := by
    intro id' h
    rw [ledger_putLedger, if_neg h]
  have hchange := total_change hne hq
  rwa [ledger_putLedger, if_pos rfl] at hchange

/-- A step of one file keeps the invariant. -/
theorem Inv.move (h : b.Inv) {m : Mount} {l : Ledger}
    (hm : Moves b.batchPayload id b.mount (b.ledger id) m l) (hs : l.Sized)
    (ha : l.queue ≠ [] → id ∈ b.active) (he : m.count ≤ b.maxEntries) (hb : m.bytes ≤ b.maxBytes) :
    (b.putLedger id m l).Inv where
  width := h.width
  payload := h.payload
  books id' := by
    rw [ledger_putLedger]
    split
    · next heq => exact heq ▸ hm.ok
    · next hne => exact (h.books id').away hm.away hne
  sized id' := by
    rw [ledger_putLedger]
    split
    · exact hs
    · exact h.sized id'
  active id' hne := by
    rw [ledger_putLedger] at hne
    split at hne
    · next heq => exact heq ▸ ha hne
    · exact h.active id' hne
  nodup := h.nodup
  count := by
    have hc := hm.balance.count
    have ht := b.total_putLedger id m l (q := fun l => l.queue.length) rfl
    have h0 := h.count
    change m.count = _
    omega
  bytes := by
    have hc := hm.balance.bytes
    have ht := b.total_putLedger id m l (q := Ledger.bytes) rfl
    have h0 := h.bytes
    change m.bytes = _
    omega
  entries_le := he
  bytes_le := hb
  storage := by
    have hn := h.storage.nodes
    have hp := hm.balance.pool
    have ht := b.total_putLedger id m l (q := fun l => l.extents.nodes.length) rfl
    refine ⟨hm.balance.free.trans h.storage.records, Eq.trans ?_ hn, h.storage.released⟩
    change m.pool.length + _ = _
    omega
  done := h.done
  cancelled := h.cancelled

/-- A file that enters the map of active files. -/
theorem Inv.activate (h : b.Inv) (id : Identity) : Inv { b with active := b.active.insert id } :=
  { h with
    storage := ⟨h.storage.records, h.storage.nodes, h.storage.released⟩
    active := fun id' hne => List.mem_insert_of_mem (h.active id' hne)
    nodup := h.nodup.insert }

/-- A file without records that leaves the map of active files. -/
theorem Inv.deactivate (h : b.Inv) (hq : (b.ledger id).queue = []) :
    Inv { b with active := b.active.erase id } :=
  { h with
    storage := ⟨h.storage.records, h.storage.nodes, h.storage.released⟩
    active := fun id' hne => by
      have hid : id' ≠ id := by
        rintro rfl
        exact hne hq
      exact (List.mem_erase_of_ne hid).mpr (h.active id' hne)
    nodup := h.nodup.erase id }

end Buffer
end PortableFS.Writeback
