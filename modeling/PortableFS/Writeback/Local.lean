import PortableFS.Writeback.Flush
import PortableFS.Writeback.Overlay

/-!
# Steps of one file

What holds of the books of one file together with what the mount shares, and what a step of the
file leaves for the others. The arenas are balanced: what a file gives up or takes, the free lists
and the totals get or lose.
-/

namespace PortableFS.Writeback

open List

/-- The watermarks have passed the record as far as its state says. -/
def Mount.Covers (m : Mount) (r : Retained) : Prop :=
  (r.state = .visible → r.applied ≤ m.visible) ∧
    (r.state = .durable → r.applied ≤ m.visible ∧ r.applied ≤ m.durable)

/-- A heap item of the file tells the truth about a record that is still there. -/
def Mount.Names (m : Mount) (id : Identity) (queue : List Retained) (i : HeapItem) : Prop :=
  i.file = id → i.seq ≤ m.sequence ∧
    ∀ r ∈ queue, r.record.seq = i.seq → r.state ≠ .accepted ∧ r.applied = i.applied

variable {r : Retained} {tr : List Event}

theorem Trace.Stamped.append (h : Trace.Stamped tr r)
    (new : List Event) : Trace.Stamped (tr ++ new) r := by
  intro hs
  obtain ⟨es, hes⟩ := h hs
  exact ⟨es, mem_append_left _ hes⟩

/-- The invariant of one file. -/
structure Local (payload : Nat) (m : Mount) (id : Identity) (l : Ledger) : Prop where
  queue : l.QueueOk m.sequence
  stream : l.StreamOk payload m.sequence (m.trace id)
  overlay : l.OverlayOk
  tokens : ∀ t ∈ Trace.tokens (m.trace id), t ≤ m.token
  covers : ∀ r ∈ l.queue, m.Covers r
  stamped : ∀ r ∈ l.queue, Trace.Stamped (m.trace id) r
  applied : ∀ i ∈ m.appliedHeap, m.Names id l.queue i
  visible : ∀ i ∈ m.visibleHeap, m.Names id l.queue i ∧ i.applied ≤ m.visible

/-- What a step of one file leaves for the others. -/
structure Mount.Away (id : Identity) (m m' : Mount) : Prop where
  trace : ∀ id', id' ≠ id → m'.trace id' = m.trace id'
  applied : ∀ i ∈ m'.appliedHeap, i ∈ m.appliedHeap ∨ i.file = id
  visibleHeap : ∀ i ∈ m'.visibleHeap, i ∈ m.visibleHeap ∨ i.file = id ∧ i.applied ≤ m'.visible
  sequence : m.sequence ≤ m'.sequence
  token : m.token ≤ m'.token
  visible : m.visible ≤ m'.visible
  durable : m.durable ≤ m'.durable

namespace Mount.Away

theorem refl (id : Identity) (m : Mount) : Away id m m :=
  ⟨fun _ _ => rfl, fun _ h => .inl h, fun _ h => .inl h, le_rfl, le_rfl, le_rfl, le_rfl⟩

theorem trans {id : Identity} {m m' m'' : Mount} (h : Away id m m') (h' : Away id m' m'') :
    Away id m m'' where
  trace id' hne := (h'.trace id' hne).trans (h.trace id' hne)
  applied i hi := (h'.applied i hi).elim (h.applied i) .inr
  visibleHeap i hi := by
    rcases h'.visibleHeap i hi with hi | hi
    · rcases h.visibleHeap i hi with hi | ⟨hf, hle⟩
      · exact .inl hi
      · exact .inr ⟨hf, hle.trans h'.visible⟩
    · exact .inr hi
  sequence := Nat.le_trans h.sequence h'.sequence
  token := Nat.le_trans h.token h'.token
  visible := Nat.le_trans h.visible h'.visible
  durable := Nat.le_trans h.durable h'.durable

end Mount.Away

variable {m m' : Mount}

theorem Mount.Covers.mono (h : m.Covers r)
    (hv : m.visible ≤ m'.visible) (hd : m.durable ≤ m'.durable) : m'.Covers r :=
  ⟨fun hs => Nat.le_trans (h.1 hs) hv,
    fun hs => ⟨Nat.le_trans (h.2 hs).1 hv, Nat.le_trans (h.2 hs).2 hd⟩⟩

variable {id : Identity}

theorem Mount.Names.mono {queue : List Retained} {i : HeapItem}
    (h : m.Names id queue i) (hs : m.sequence ≤ m'.sequence) : m'.Names id queue i :=
  fun hf => ⟨Nat.le_trans (h hf).1 hs, (h hf).2⟩

variable {payload : Nat} {l : Ledger}

theorem Ledger.StreamOk.mono {sequence sequence' : Nat}
    (h : l.StreamOk payload sequence tr) (hle : sequence ≤ sequence') :
    l.StreamOk payload sequence' tr :=
  { h with bound := fun r hr => Nat.le_trans (h.bound r hr) hle }

variable {id' : Identity}

/-- A file does not notice the steps of another one. -/
theorem Local.away (h : Local payload m id' l)
    (ha : m.Away id m') (hne : id' ≠ id) : Local payload m' id' l where
  queue := h.queue.mono ha.sequence
  stream := (ha.trace id' hne).symm ▸ h.stream.mono ha.sequence
  overlay := h.overlay
  tokens t ht := Nat.le_trans (h.tokens t (ha.trace id' hne ▸ ht)) ha.token
  covers r hr := (h.covers r hr).mono ha.visible ha.durable
  stamped := (ha.trace id' hne).symm ▸ h.stamped
  applied i hi := by
    rcases ha.applied i hi with hi | hf
    · exact (h.applied i hi).mono ha.sequence
    · exact fun hf' => absurd (hf'.symm.trans hf) hne
  visible i hi := by
    rcases ha.visibleHeap i hi with hi | ⟨hf, hle⟩
    · obtain ⟨hn, hle⟩ := h.visible i hi
      exact ⟨hn.mono ha.sequence, hle.trans ha.visible⟩
    · exact ⟨fun hf' => absurd (hf'.symm.trans hf) hne, hle⟩

/-- The bytes of the retained records. -/
def Ledger.bytes (l : Ledger) : Nat := (l.queue.map fun r => r.record.data.length).sum

variable {l' : Ledger}

theorem Ledger.bytes_congr (h : l'.queue.map Retained.record = l.queue.map Retained.record) :
    l'.bytes = l.bytes := by
  have hb : ∀ l : Ledger, l.bytes =
      ((l.queue.map Retained.record).map fun r => r.data.length).sum := by
    intro l
    rw [map_map]
    rfl
  rw [hb, hb, h]

/-- Totals and free lists move with the books of a file. -/
structure Balance (m : Mount) (l : Ledger) (m' : Mount) (l' : Ledger) : Prop where
  count : m'.count - l'.queue.length = m.count - l.queue.length
  bytes : m'.bytes - l'.bytes = m.bytes - l.bytes
  free : m'.free.length + m'.count = m.free.length + m.count
  pool : m'.pool.length + l'.extents.nodes.length = m.pool.length + l.extents.nodes.length

theorem Balance.refl (m : Mount) (l : Ledger) : Balance m l m l := ⟨rfl, rfl, rfl, rfl⟩

/-- Records that only change their states cost nothing. -/
theorem Balance.of_records (hq : l'.queue.map Retained.record = l.queue.map Retained.record)
    (he : l'.extents = l.extents) (hc : m'.count = m.count) (hb : m'.bytes = m.bytes)
    (hf : m'.free = m.free) (hp : m'.pool = m.pool) : Balance m l m' l' := by
  have hlen : l'.queue.length = l.queue.length := by
    have := congrArg List.length hq
    rwa [length_map, length_map] at this
  exact ⟨by rw [hc, hlen], by rw [hb, Ledger.bytes_congr hq], by rw [hf, hc], by rw [hp, he]⟩

variable {m'' : Mount} {l'' : Ledger}

theorem Balance.trans (h : Balance m l m' l') (h' : Balance m' l' m'' l'') : Balance m l m'' l'' :=
  ⟨h'.count.trans h.count, h'.bytes.trans h.bytes, h'.free.trans h.free, h'.pool.trans h.pool⟩

/-- A step of one file that keeps its invariant. -/
structure Moves (payload : Nat) (id : Identity) (m : Mount) (l : Ledger) (m' : Mount) (l' : Ledger) :
    Prop where
  ok : Local payload m' id l'
  balance : Balance m l m' l'
  away : m.Away id m'

theorem Moves.refl (h : Local payload m id l) : Moves payload id m l m l :=
  ⟨h, .refl m l, .refl id m⟩

theorem Moves.trans (h : Moves payload id m l m' l')
    (h' : Moves payload id m' l' m'' l'') : Moves payload id m l m'' l'' :=
  ⟨h'.ok, h.balance.trans h'.balance, h.away.trans h'.away⟩

/-- Taking a record out of its heap only shortens the heaps. -/
theorem Mount.unheap_eq (m : Mount) (r : Retained) : ∃ as vs index,
      m.unheap r = { m with appliedHeap := as, visibleHeap := vs, heapIndex := index } ∧
      (∀ i ∈ as, i ∈ m.appliedHeap) ∧ ∀ i ∈ vs, i ∈ m.visibleHeap := by
  unfold unheap
  cases r.state with
  | applied => exact ⟨_, _, _, rfl, fun i hi => Heap.mem_of_mem_remove hi, fun i hi => hi⟩
  | visible => exact ⟨_, _, _, rfl, fun i hi => hi, fun i hi => Heap.mem_of_mem_remove hi⟩
  | accepted | durable => exact ⟨_, _, _, rfl, fun i hi => hi, fun i hi => hi⟩

theorem Mount.note_trace (m : Mount) (id : Identity) (e : Event) :
    (m.note id e).trace id = m.trace id ++ [e] := Function.update_self ..

theorem Mount.note_trace_ne (m : Mount) (h : id' ≠ id) (e : Event) :
    (m.note id e).trace id' = m.trace id' := Function.update_of_ne h ..

/-- What the mount becomes when records of a file leave it. -/
structure Mount.Shed (id : Identity) (cause : Cause) (gone : List Retained) (m m' : Mount) : Prop where
  trace : m'.trace id = m.trace id ++ gone.map (Event.left · cause)
  trace_ne : ∀ id', id' ≠ id → m'.trace id' = m.trace id'
  applied : ∀ i ∈ m'.appliedHeap, i ∈ m.appliedHeap
  visibleHeap : ∀ i ∈ m'.visibleHeap, i ∈ m.visibleHeap
  count : m'.count = m.count - gone.length
  bytes : m'.bytes = m.bytes - (gone.map fun r => r.record.data.length).sum
  free : m'.free.length = m.free.length + gone.length
  sequence : m'.sequence = m.sequence
  loss : m'.loss = m.loss
  token : m'.token = m.token
  visible : m'.visible = m.visible
  durable : m'.durable = m.durable

namespace Mount.Shed

theorem refl (id : Identity) (cause : Cause) (m : Mount) : Shed id cause [] m m :=
  ⟨(append_nil _).symm, fun _ _ => rfl, fun _ h => h, fun _ h => h, (Int.sub_zero _).symm,
    (Int.sub_zero _).symm, rfl, rfl, rfl, rfl, rfl, rfl⟩

variable {cause : Cause} {gone : List Retained}

theorem trans {gone' : List Retained}
    (h : Shed id cause gone m m') (h' : Shed id cause gone' m' m'') :
    Shed id cause (gone ++ gone') m m'' where
  trace := by rw [h'.trace, h.trace, append_assoc, ← map_append]
  trace_ne id' hne := (h'.trace_ne id' hne).trans (h.trace_ne id' hne)
  applied i hi := h.applied i (h'.applied i hi)
  visibleHeap i hi := h.visibleHeap i (h'.visibleHeap i hi)
  count := by rw [h'.count, h.count, length_append]; omega
  bytes := by rw [h'.bytes, h.bytes, map_append, sum_append]; omega
  free := by rw [h'.free, h.free, length_append]; omega
  sequence := h'.sequence.trans h.sequence
  loss := h'.loss.trans h.loss
  token := h'.token.trans h.token
  visible := h'.visible.trans h.visible
  durable := h'.durable.trans h.durable

theorem away (h : Shed id cause gone m m') : m.Away id m' :=
  ⟨h.trace_ne, fun i hi => .inl (h.applied i hi), fun i hi => .inl (h.visibleHeap i hi),
    Nat.le_of_eq h.sequence.symm, Nat.le_of_eq h.token.symm, Nat.le_of_eq h.visible.symm,
    Nat.le_of_eq h.durable.symm⟩

end Mount.Shed

theorem release_shed (id : Identity) (cause : Cause) (m : Mount) (l : Ledger) (r : Retained) :
    m.Shed id cause [r] (release id cause m l r).1 := by
  obtain ⟨as, vs, index, hm, ha, hv⟩ := m.unheap_eq r
  unfold release
  rw [hm]
  refine ⟨Mount.note_trace .., fun id' hne => Mount.note_trace_ne _ hne _, ha, hv, rfl, ?_, rfl, rfl, rfl,
    rfl, rfl, rfl⟩
  rw [map_singleton, sum_singleton]
  rfl

/-- Exactly the records at the head that satisfy the condition leave. -/
theorem releaseWhile_shed (id : Identity) (cause : Cause) (p : Retained → Bool) (q : List Retained)
    (m : Mount) (l : Ledger) : m.Shed id cause (q.takeWhile p) (releaseWhile id cause p q (m, l)).1 := by
  induction q generalizing m l with
  | nil => exact .refl id cause m
  | cons r rest ih =>
    unfold releaseWhile
    rw [takeWhile_cons]
    split
    · exact (release_shed id cause m { l with queue := rest } r).trans (ih _ _)
    · exact .refl id cause m

/-- The books outside the overlay keep all but the queue. -/
theorem releaseWhile_books (id : Identity) (cause : Cause) (p : Retained → Bool) (q : List Retained)
    (m : Mount) (l : Ledger) :
    Ledger.SameBooks { l with queue := q.dropWhile p } (releaseWhile id cause p q (m, l)).2 := by
  induction q generalizing m l with
  | nil => exact ⟨rfl, rfl, rfl, rfl⟩
  | cons r rest ih =>
    unfold releaseWhile
    rw [dropWhile_cons]
    split
    · have h := ih (release id cause m { l with queue := rest } r).1
        (release id cause m { l with queue := rest } r).2
      exact ⟨h.queue, h.accepted, h.flushOffset, h.pending⟩
    · exact ⟨rfl, rfl, rfl, rfl⟩

/-- The size is left for later. -/
theorem releaseWhile_size (id : Identity) (cause : Cause) (p : Retained → Bool) (q : List Retained)
    (m : Mount) (l : Ledger) :
    (releaseWhile id cause p q (m, l)).2.size = l.size ∧
      (releaseWhile id cause p q (m, l)).2.exact = l.exact := by
  induction q generalizing m l with
  | nil => exact ⟨rfl, rfl⟩
  | cons r rest ih =>
    unfold releaseWhile
    split
    · exact ih (release id cause m { l with queue := rest } r).1
        (release id cause m { l with queue := rest } r).2
    · exact ⟨rfl, rfl⟩

/-- Releasing an applied record from the head of the queue. -/
theorem Local.release (h : Local payload m id l) {rest : List Retained} (hl : l.queue = r :: rest)
    (hr : r.state ≠ .accepted) {cause : Cause} (hc : Trace.Admits r cause) :
    Moves payload id m l (release id cause m { l with queue := rest } r).1
      (release id cause m { l with queue := rest } r).2 := by
  have hshed := release_shed id cause m { l with queue := rest } r
  have hpool : (m.unheap r).pool = m.pool := by
    obtain ⟨as, vs, index, hm, -, -⟩ := m.unheap_eq r
    rw [hm]
  obtain ⟨-, -, hnodes⟩ := ExtentMap.retire_spec h.overlay.paints.ok m.pool r.record.seq
  have hsub : ∀ a ∈ rest, a ∈ l.queue := fun a hmem => hl ▸ mem_cons_of_mem r hmem
  have hnames : ∀ i, m.Names id l.queue i →
      (Writeback.release id cause m { l with queue := rest } r).1.Names id rest i :=
    fun i hi hf => ⟨hshed.sequence ▸ (hi hf).1, fun a hmem => (hi hf).2 a (hsub a hmem)⟩
  have hlen : l.queue.length = rest.length + 1 := congrArg List.length hl
  have hbytes : l.bytes = r.record.data.length + (rest.map fun r => r.record.data.length).sum := by
    unfold Ledger.bytes
    rw [hl, map_cons, sum_cons]
  refine ⟨⟨?_, ?_, ?_, ?_, ?_, ?_, ?_, ?_⟩, ⟨?_, ?_, ?_, ?_⟩, hshed.away⟩
  · rw [hshed.sequence]
    exact Ledger.SameBooks.queueOk (l := { l with queue := rest }) ⟨rfl, rfl, rfl, rfl⟩
      (h.queue.pop hl hr)
  · rw [hshed.sequence, hshed.trace]
    exact Ledger.SameBooks.streamOk (l := { l with queue := rest }) ⟨rfl, rfl, rfl, rfl⟩
      (h.stream.pop h.queue hl hr hc (h.stamped r (hl ▸ mem_cons_self)))
  · exact h.overlay.pop h.queue hl (m.unheap r).pool
  · intro t ht
    rw [hshed.trace, Trace.tokens_append] at ht
    rw [hshed.token]
    exact h.tokens t ((mem_append.mp ht).resolve_right not_mem_nil)
  · exact fun a hmem => (h.covers a (hsub a hmem)).mono (Nat.le_of_eq hshed.visible.symm)
      (Nat.le_of_eq hshed.durable.symm)
  · rw [hshed.trace]
    exact fun a hmem => (h.stamped a (hsub a hmem)).append _
  · exact fun i hi => hnames i (h.applied i (hshed.applied i hi))
  · intro i hi
    obtain ⟨hn, hle⟩ := h.visible i (hshed.visibleHeap i hi)
    exact ⟨hnames i hn, hshed.visible ▸ hle⟩
  · rw [hshed.count, length_singleton, hlen]
    change _ - (rest.length : Int) = _
    omega
  · rw [hshed.bytes, hbytes, map_singleton, sum_singleton]
    change _ - (((rest.map fun r => r.record.data.length).sum : Nat) : Int) = _
    omega
  · rw [hshed.count, hshed.free, length_singleton]
    omega
  have hlength := hnodes.length_eq
  rw [length_append, length_append] at hlength
  change (l.extents.retire (m.unheap r).pool r.record.seq).2.length +
    (l.extents.retire (m.unheap r).pool r.record.seq).1.nodes.length = _
  rw [hpool]
  omega

/-- Releasing applied records from the head of the queue. -/
theorem Local.releaseWhile (cause : Cause) {p : Retained → Bool} (q : List Retained)
    (h : Local payload m id { l with queue := q })
    (hp : ∀ r ∈ q.takeWhile p, r.state ≠ .accepted ∧ Trace.Admits r cause) :
    Moves payload id m { l with queue := q } (releaseWhile id cause p q (m, l)).1
      (releaseWhile id cause p q (m, l)).2 := by
  induction q generalizing m l with
  | nil => exact .refl h
  | cons r rest ih =>
    unfold Writeback.releaseWhile
    split
    · next hr =>
      rw [takeWhile_cons, if_pos hr] at hp
      have hstep : Moves payload id m { l with queue := r :: rest }
          (Writeback.release id cause m { l with queue := rest } r).1
          { (Writeback.release id cause m { l with queue := rest } r).2 with queue := rest } :=
        h.release rfl (hp r mem_cons_self).1 (hp r mem_cons_self).2
      exact hstep.trans (ih hstep.ok fun a ha => hp a (mem_cons_of_mem r ha))
    · exact .refl h

end PortableFS.Writeback
