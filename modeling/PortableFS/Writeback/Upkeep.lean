import PortableFS.Writeback.Operations

/-!
# What retirement and shutdown keep

The operations of `buffer.go:598–901` move no byte. All of them are quiet but `Forget`, which clears
the loss counter of its file, and `DetachOverlay` is the only one that takes records out of an
overlay.
-/

namespace PortableFS.Writeback

open PortableFS.Base
open List hiding isEmpty_iff

namespace Buffer

variable {b : Buffer}

theorem Inv.clearLost_keeps (h : b.Inv) (id : Identity) : Keeps b (b.clearLost id) := by
  unfold clearLost
  split
  · exact .refl h
  · next f hf =>
    have heq := fileOf_of_lookup hf
    exact h.put_keeps (by rw [← heq]; rfl) (by rw [heq]) (by rw [heq])

/-- The barriers are not part of the invariant. -/
theorem Inv.barriers (h : b.Inv) (barriers : List BarrierState) : Inv { b with barriers } :=
  h.same ⟨rfl, rfl, rfl, rfl, rfl, fun _ => rfl, rfl, rfl⟩ rfl rfl rfl

theorem Inv.forget (h : b.Inv) (id : Identity) : (b.forget id).1.Inv := by
  unfold Buffer.forget
  split
  · exact h
  next f hf =>
  split
  · next hidle =>
    have hq : (b.ledger id).queue = [] := by
      unfold ledger
      rw [fileOf_of_lookup hf]
      unfold idle at hidle
      simp only [Bool.and_eq_true, List.isEmpty_iff] at hidle
      exact hidle.1.1.1.1.1.1
    have hempty : File.new.toLedger.Empty := ⟨rfl, rfl, rfl, rfl⟩
    have hmoves := (h.books id).renew hq hempty .empty rfl rfl
    have hinv := h.shrink hmoves rfl (nil_sublist _)
    refine hinv.same ⟨rfl, rfl, rfl, rfl, rfl, fun id' => ?_, rfl, rfl⟩ rfl rfl rfl
    rw [ledger_putLedger]
    unfold ledger fileOf
    rw [Assoc.lookup_erase_eq]
    split <;> rfl
  · exact h

theorem cancelled_forget (b : Buffer) (id : Identity) :
    (b.forget id).1.cancelled = b.cancelled := by
  unfold forget
  split
  · rfl
  · split <;> rfl

theorem cancelled_dropEach (reason : String) (ids : List Identity) (b : Buffer) :
    (dropEach reason ids b).1.cancelled = b.cancelled := by
  induction ids generalizing b with
  | nil => rfl
  | cons id ids ih =>
    unfold dropEach
    split
    · exact ih b
    · exact ih (b.dropLocked id reason 0).1

theorem Inv.retireBusy_keeps (h : b.Inv) (id : Option Identity) : Keeps b (b.retireBusy id).1 := by
  unfold retireBusy
  split
  · exact .refl h
  · cases id with
    | none => exact .refl h
    | some id => exact h.touch_keeps id

theorem Inv.beginRetire_keeps (h : b.Inv) (cancelled : Bool) (id : Option Identity) (drain : Bool) :
    Keeps b (b.beginRetire cancelled id drain).1 := by
  unfold beginRetire
  split
  · exact .refl h
  split
  · exact .refl h
  have hbusy := h.retireBusy_keeps id
  dsimp only
  split
  · exact hbusy
  split
  · exact hbusy.trans (hbusy.inv.update_keeps _ (g := fun f => { f with retiring := true })
      (fun _ => rfl) (fun _ => rfl) fun _ => rfl)
  · have hall := hbusy.inv.flags_keeps (b.retireBusy none).1.kick true
    exact hbusy.trans (hall.trans (Inv.updateEach_keeps (g := fun f => { f with retiring := true })
      (fun _ => rfl) (fun _ => rfl) (fun _ => rfl) _ hall.inv))

theorem Inv.resume_keeps (h : b.Inv) (r : Retirement) : Keeps b (b.resume r).1 := by
  unfold resume
  split
  · exact .refl h
  split
  · exact .refl h
  · have hk := Inv.updateEach_keeps
      (g := fun f => { f with retiring := false, generation := f.generation + 1 })
      (fun _ => rfl) (fun _ => rfl) (fun _ => rfl) r.files h
    exact hk.trans (hk.inv.flags_keeps _ _)

theorem Inv.cancelRetire_keeps (h : b.Inv) (r : Retirement) : Keeps b (b.cancelRetire r).1 := by
  unfold cancelRetire
  split
  · exact .refl h
  · have hk := Inv.updateEach_keeps (g := fun f => { f with retiring := false }) (fun _ => rfl)
      (fun _ => rfl) (fun _ => rfl) r.files h
    exact hk.trans (hk.inv.flags_keeps _ _)

theorem Inv.detachFile_idles (h : b.Inv) (id : Identity) : Idles b (b.detachFile id) := by
  obtain ⟨hmoves, hsized⟩ := (h.books id).detach
  refine .put (h.shrink hmoves hsized ?_) (.of_eq rfl rfl) rfl rfl
  have hrec : ((b.fileOf id).detach b.mount.pool).1.queue.map Retained.record =
      (b.ledger id).queue.map Retained.record := by
    unfold Ledger.detach
    rw [map_map]
    rfl
  rw [hrec]

theorem Inv.detachEach_idles (ids : List Identity) (h : b.Inv) :
    Idles b (ids.foldl detachFile b) := by
  induction ids generalizing b with
  | nil => exact .refl h
  | cons id ids ih =>
    have hone := h.detachFile_idles id
    exact hone.trans (ih hone.inv)

theorem Inv.detachOverlay_idles (h : b.Inv) (r : Retirement) : Idles b (b.detachOverlay r).1 := by
  unfold detachOverlay
  split
  · exact .refl h
  · split
    · exact .refl h
    · exact Inv.detachEach_idles r.files h

theorem Inv.fenceAdmissions_keeps (h : b.Inv) : Keeps b b.fenceAdmissions :=
  (Keeps.refl h).of_parts (h.frame ⟨rfl, rfl, rfl, rfl, rfl, fun _ => rfl, rfl, rfl⟩ (fun _ => rfl) id h.done
    fun _ => rfl) rfl rfl rfl id

theorem Inv.stop_keeps (h : b.Inv) : Keeps b b.stop :=
  (Keeps.refl h).of_parts (h.frame ⟨rfl, rfl, rfl, rfl, rfl, fun _ => rfl, rfl, rfl⟩ (fun _ => rfl) id
    (fun _ => rfl) fun _ => rfl) rfl rfl rfl fun _ => rfl

/-- The workers were joined after the buffer's context was cancelled. -/
theorem Inv.join_keeps (h : b.Inv) (hc : b.cancelled = true) : Keeps b { b with done := true } :=
  (Keeps.refl h).of_parts (h.frame ⟨rfl, rfl, rfl, rfl, rfl, fun _ => rfl, rfl, rfl⟩ id (fun _ => rfl)
    (fun _ => hc) h.cancelled) rfl rfl rfl id

theorem File.toLedger_scan (f : File) : f.scan.1.toLedger = f.toLedger := by
  unfold File.scan
  split
  · rfl
  · split
    · dsimp only
      split <;> rfl
    · split <;> rfl

theorem File.flags_scan (f : File) :
    f.scan.1.lastLoss = f.lastLoss ∧ f.scan.1.flushing = f.flushing := by
  unfold File.scan
  split
  · exact ⟨rfl, rfl⟩
  · split
    · dsimp only
      split <;> exact ⟨rfl, rfl⟩
    · split <;> exact ⟨rfl, rfl⟩

theorem Inv.scanEach_keeps (cut : Cut) (ids : List Identity) (h : b.Inv) :
    Keeps b (scanEach cut ids b).1 := by
  induction ids generalizing b with
  | nil => exact .refl h
  | cons id ids ih =>
    have hone := h.update_keeps id (g := fun f => f.scan.1) File.toLedger_scan
      (fun f => (File.flags_scan f).1) fun f => (File.flags_scan f).2
    exact hone.trans (ih hone.inv)

theorem Inv.scan_keeps (h : b.Inv) (order : List Identity) : Keeps b (b.scan order).1 := by
  have hk := h.flags_keeps false b.retiringAll
  exact hk.trans (hk.inv.scanEach_keeps _ _)

theorem Inv.jobEnd_keeps (h : b.Inv) (id : Identity) : Keeps b (b.jobEnd id) := by
  unfold jobEnd
  dsimp only
  split
  · have hk : Keeps b (b.update id fun f => { f with scheduled := false, reschedule := false }) :=
      h.update_keeps id (fun _ => rfl) (fun _ => rfl) fun _ => rfl
    exact hk.trans hk.inv.trigger_keeps
  · exact h.update_keeps id (g := fun f => { f with scheduled := false }) (fun _ => rfl) (fun _ => rfl)
      fun _ => rfl

/-- Without records there are no extents. -/
theorem Inv.root_of_count (h : b.Inv) (hc : b.mount.count = 0) (id : Identity) :
    (b.ledger id).queue = [] ∧ (b.ledger id).extents.root = .nil := by
  have hle := b.le_total (q := fun l => l.queue.length) rfl id
  have htotal := h.count
  have hq : (b.ledger id).queue = [] := by
    apply length_eq_zero_iff.mp
    change (b.ledger id).queue.length ≤ _ at hle
    omega
  exact ⟨hq, ((h.books id).empty hq).2⟩

theorem Inv.releaseFiles_keeps (ids : List Identity) (h : b.Inv) (hc : b.mount.count = 0) :
    Keeps b (b.releaseFiles ids).1 ∧ (b.releaseFiles ids).1.mount = b.mount ∧
      (b.releaseFiles ids).1.done = b.done := by
  induction ids generalizing b with
  | nil => exact ⟨.refl h, rfl, rfl⟩
  | cons id ids ih =>
    unfold releaseFiles
    split
    · exact ⟨.refl h, rfl, rfl⟩
    -- the extents are empty already
    have hroot := (h.root_of_count hc id).2
    have hbooks : ({ b.fileOf id with
        extents := { (b.fileOf id).extents with root := .nil }, scheduled := false } :
          File).toLedger = b.ledger id := by
      unfold ledger at hroot ⊢
      rw [← hroot]
    have hone : Keeps b (b.update id fun f =>
        { f with extents := { f.extents with root := .nil }, scheduled := false }) :=
      h.put_keeps hbooks rfl rfl
    obtain ⟨hk, hm, hd⟩ := ih hone.inv hc
    exact ⟨hone.trans hk, hm, hd⟩

/-- The arenas go when no record is left and nothing is admitted any more. -/
theorem Inv.discard (h : b.Inv) (hc : b.mount.count = 0) (hd : b.done = true) :
    Keeps b { b with
      arenas := false
      mount := { b.mount with free := [], pool := [], appliedHeap := [], visibleHeap := [] } } := by
  have hnodes : b.total (fun l => l.extents.nodes.length) = 0 := by
    have hle := h.nodes_le
    have htotal := h.count
    omega
  refine ⟨⟨{ h with
    books := fun id => ?_
    storage := ⟨?_, ?_, fun _ => ⟨h.cancelled (h.done hd), hd⟩⟩ },
    ⟨.of_eq rfl rfl, fun _ => rfl, rfl, id⟩, fun _ => rfl⟩, fun hl => hl.congr rfl⟩
  · have hl := h.books id
    exact ⟨hl.queue, hl.stream, hl.overlay, hl.tokens, hl.covers, hl.stamped, forall_mem_nil _,
      forall_mem_nil _⟩
  · change ((0 : Nat) : Int) + b.mount.count = 0
    omega
  · change 0 + b.total (fun l => l.extents.nodes.length) = 0
    omega

theorem Inv.releaseStorage_keeps (h : b.Inv) (order : List Identity) :
    Keeps b (b.releaseStorage order).1 := by
  unfold releaseStorage
  split
  · exact .refl h
  next hdone =>
  split
  · exact .refl h
  next hcount =>
  have hc : b.mount.count = 0 := by simpa using hcount
  obtain ⟨hk, hm, hd⟩ := h.releaseFiles_keeps (arrange order b.files.keys) hc
  dsimp only
  split
  · exact hk.trans (hk.inv.discard (by rw [hm]; exact hc) (by rw [hd]; simpa using hdone))
  · exact hk

/-- A new buffer keeps the invariant. -/
theorem inv_new {width payload : Int} {opts : Options} (h : Buffer.new width payload opts = .ok b) :
    b.Inv := by
  unfold Buffer.new at h
  split at h
  · cases h
  split at h
  · cases h
  next hlim =>
  simp only [not_or, Int.not_le, Int.not_lt] at hlim
  cases h
  have hlocal : ∀ id, Local payload.toNat (Mount.new (Options.limit opts.maxEntries defaultMaxEntries)
      opts.initialLossSequence) id File.new.toLedger := by
    intro id
    have hempty : File.new.toLedger.Empty := ⟨rfl, rfl, rfl, rfl⟩
    refine ⟨hempty.queueOk _, ⟨List.Pairwise.nil, forall_mem_nil _, rfl, rfl, .inl rfl, rfl,
      nofun, .nil _⟩, ⟨.of_nil .empty rfl, rfl⟩, forall_mem_nil _, forall_mem_nil _,
      forall_mem_nil _, forall_mem_nil _, forall_mem_nil _⟩
  refine ⟨by dsimp only; omega, by dsimp only; omega, hlocal, fun _ => rfl, fun _ hne => absurd rfl hne,
    nodup_nil, rfl, rfl, Int.natCast_nonneg _, Int.natCast_nonneg _,
    ⟨?_, ?_, nofun⟩, nofun, nofun⟩
  · simp [Mount.new]
  · simp [Mount.new, total, Assoc.total]

end Buffer

end PortableFS.Writeback
