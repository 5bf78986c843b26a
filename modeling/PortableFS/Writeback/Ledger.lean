import PortableFS.Writeback.Trace

/-!
# The books of a file

What holds of the retained records of one file at all times. The queue is in the order of the
sequences; the applied records come first and `accepted` names the first of the others. What was
reported applied, followed by what is still to be sent, is what was accepted.
-/

namespace PortableFS.Writeback

open Trace Retained List

/-- The checks that every admitted operation passed; `buffer.go:175,190,205`. -/
structure Record.Valid (r : Record) : Prop where
  pos : 0 < r.seq
  nonempty : r.kind = .write → r.data ≠ []
  bounded : r.kind = .write → r.off + r.data.length ≤ maxInt64
  unsized : r.kind = .write → r.attrs.hasSize = false

namespace Wave

variable {rest : List Record} {off : Nat}

theorem OffsetOk.le (h : OffsetOk rest off) : off ≤ (rest.flatMap Record.pieces).length := by
  rcases h with rfl | ⟨r, tail, rfl, hk, hlt⟩
  · exact Nat.zero_le _
  · rw [flatMap_cons, length_append, Record.pieces, if_pos hk, Piece.length_bytes]
    omega

theorem OffsetOk.append (h : OffsetOk rest off)
    (more : List Record) : OffsetOk (rest ++ more) off := by
  rcases h with h | ⟨r, tail, rfl, hk, hlt⟩
  · exact .inl h
  · exact .inr ⟨r, tail ++ more, rfl, hk, hlt⟩

theorem ahead_append (h : OffsetOk rest off) (more : List Record) :
    ahead (rest ++ more) off = ahead rest off ++ ahead more 0 := by
  unfold ahead
  rw [flatMap_append, drop_append_of_le_length h.le, drop_zero]

end Wave

variable {p : Batch} {taken : List Record}

/-- Records that are accepted meanwhile do not disturb a retained wave. -/
theorem Batch.Carries.append {todo : List Record} {off : Nat} {rest : List Record}
    (h : p.Carries todo off taken rest) (ho : Wave.OffsetOk todo off) (more : List Record) :
    p.Carries (todo ++ more) off taken (rest ++ more) where
  split := by rw [h.split, append_assoc]
  last := h.last
  first := by
    have hne : todo ≠ [] := by
      rintro rfl
      exact absurd h.first (by simp)
    rw [List.head?_append_of_ne_nil _ hne]
    exact h.first
  stop := h.stop.append more
  pieces := by
    rw [Wave.ahead_append h.stop, Wave.ahead_append ho, ← append_assoc, h.pieces]
  nonempty := h.nonempty

namespace Ledger

/-- The order of a queue. -/
structure QueueOk (sequence : Nat) (l : Ledger) : Prop where
  sorted : l.queue.Pairwise fun a b => a.record.seq < b.record.seq
  bound : ∀ r ∈ l.queue, r.record.seq ≤ sequence
  settled : ∀ r ∈ l.settled, r.state ≠ .accepted
  unsettled : ∀ r ∈ l.unsettled, r.state = .accepted
  pointer : l.accepted = l.unsettled.head?.map fun r => r.record.seq
  valid : ∀ r ∈ l.queue, r.record.Valid

theorem settled_append (l : Ledger) : l.settled ++ l.unsettled = l.queue := by
  unfold settled unsettled
  split
  · exact append_nil _
  · exact takeWhile_append_dropWhile

variable {l : Ledger} {front back : List Retained}

/-- A queue is split where its pointer says. -/
theorem split_of (hq : l.queue = front ++ back)
    (hs : l.queue.Pairwise fun a b => a.record.seq < b.record.seq)
    (ha : l.accepted = back.head?.map fun r => r.record.seq) :
    l.settled = front ∧ l.unsettled = back := by
  unfold settled unsettled
  rw [ha, hq]
  cases back with
  | nil => simp
  | cons b back =>
    rw [hq, pairwise_append] at hs
    have hne : ∀ r ∈ front, decide (r.record.seq ≠ b.record.seq) = true := by
      intro r hr
      have hlt := hs.2.2 r hr b mem_cons_self
      simp only [decide_eq_true_eq]
      omega
    simp only [List.head?_cons, Option.map_some]
    constructor
    · rw [takeWhile_append_of_pos hne]
      simp
    · rw [dropWhile_append_of_pos hne]
      simp

variable {sequence : Nat}

/-- The order of a queue from its two parts. -/
theorem QueueOk.of_split (hq : l.queue = front ++ back)
    (hs : l.queue.Pairwise fun a b => a.record.seq < b.record.seq)
    (hb : ∀ r ∈ l.queue, r.record.seq ≤ sequence) (hf : ∀ r ∈ front, r.state ≠ .accepted)
    (ht : ∀ r ∈ back, r.state = .accepted) (ha : l.accepted = back.head?.map fun r => r.record.seq)
    (hv : ∀ r ∈ l.queue, r.record.Valid) : QueueOk sequence l := by
  obtain ⟨h1, h2⟩ := split_of hq hs ha
  exact ⟨hs, hb, h1 ▸ hf, h2 ▸ ht, h2 ▸ ha, hv⟩

/-- The stream of a file, from its history and its queue. -/
structure StreamOk (payload sequence : Nat) (tr : List Event) (l : Ledger) : Prop where
  order : (Trace.accepted tr).Pairwise fun a b => a.seq < b.seq
  bound : ∀ r ∈ Trace.accepted tr, r.seq ≤ sequence
  records : Trace.accepted (Trace.epoch tr) =
    Trace.left (Trace.epoch tr) ++ l.queue.map Retained.record
  stream : (Trace.reported (Trace.epoch tr)).flatMap Entry.pieces ++ Wave.ahead l.todo l.flushOffset =
    (Trace.accepted (Trace.epoch tr)).flatMap Record.pieces
  offset : Wave.OffsetOk l.todo l.flushOffset
  wave : Trace.openWave tr = l.pending.map Batch.entries
  carries : ∀ p, l.pending = some p →
    p.applied = 0 ∧ ∃ taken rest, p.Carries l.todo l.flushOffset taken rest
  disciplined : Trace.Disciplined payload tr

/-- A record is named by its sequence. -/
theorem QueueOk.eq_of_seq (h : QueueOk sequence l) {a b : Retained} (ha : a ∈ l.queue)
    (hb : b ∈ l.queue) (hseq : a.record.seq = b.record.seq) : a = b := by
  by_contra hne
  have hsymm : Std.Symm fun a b : Retained => a.record.seq ≠ b.record.seq := ⟨fun _ _ => Ne.symm⟩
  have hp : l.queue.Pairwise fun a b => a.record.seq ≠ b.record.seq := h.sorted.imp Nat.ne_of_lt
  exact hp.forall ha hb hne hseq

theorem QueueOk.mono {sequence' : Nat} (h : QueueOk sequence l) (hle : sequence ≤ sequence') :
    QueueOk sequence' l :=
  { h with bound := fun r hr => Nat.le_trans (h.bound r hr) hle }

/-- The books apart from the overlay are the same. -/
structure SameBooks (l l' : Ledger) : Prop where
  queue : l'.queue = l.queue
  accepted : l'.accepted = l.accepted
  flushOffset : l'.flushOffset = l.flushOffset
  pending : l'.pending = l.pending

variable {l' : Ledger}

theorem SameBooks.settled (h : SameBooks l l') : l'.settled = l.settled := by
  unfold Ledger.settled
  rw [h.queue, h.accepted]

theorem SameBooks.unsettled (h : SameBooks l l') : l'.unsettled = l.unsettled := by
  unfold Ledger.unsettled
  rw [h.queue, h.accepted]

theorem SameBooks.queueOk (h : SameBooks l l') (hq : QueueOk sequence l) : QueueOk sequence l' where
  sorted := h.queue ▸ hq.sorted
  bound := h.queue ▸ hq.bound
  settled := h.settled ▸ hq.settled
  unsettled := h.unsettled ▸ hq.unsettled
  pointer := by rw [h.accepted, h.unsettled, hq.pointer]
  valid := h.queue ▸ hq.valid

variable {r : Record}

private theorem split_link (h : QueueOk sequence l) (hr : sequence < r.seq) :
    (l.link r).settled = l.settled ∧ (l.link r).unsettled = l.unsettled ++ [r.fresh] ∧
      (l.link r).queue.Pairwise (fun a b => a.record.seq < b.record.seq) ∧
      (l.link r).accepted = ((l.unsettled ++ [r.fresh]).head?.map fun a => a.record.seq) := by
  have hq : (l.link r).queue = l.settled ++ (l.unsettled ++ [r.fresh]) := by
    rw [← append_assoc, settled_append]
    rfl
  have hs : (l.link r).queue.Pairwise fun a b => a.record.seq < b.record.seq := by
    refine pairwise_append.mpr ⟨h.sorted, pairwise_singleton _ _, ?_⟩
    intro a ha b hb
    rw [mem_singleton.mp hb]
    exact Nat.lt_of_le_of_lt (h.bound a ha) hr
  have ha : (l.link r).accepted = ((l.unsettled ++ [r.fresh]).head?.map fun a => a.record.seq) := by
    unfold link
    rw [h.pointer]
    cases l.unsettled <;> rfl
  obtain ⟨h1, h2⟩ := split_of hq hs ha
  exact ⟨h1, h2, hs, ha⟩

theorem QueueOk.link (h : QueueOk sequence l) (hr : sequence < r.seq) (hv : r.Valid) :
    QueueOk r.seq (l.link r) := by
  obtain ⟨h1, h2, hs, ha⟩ := split_link h hr
  refine ⟨hs, ?_, h1 ▸ h.settled, ?_, h2 ▸ ha, ?_⟩
  · intro a hmem
    rcases mem_append.mp hmem with hmem | hmem
    · exact Nat.le_of_lt (Nat.lt_of_le_of_lt (h.bound a hmem) hr)
    · rw [mem_singleton.mp hmem]
      exact le_rfl
  · rw [h2]
    intro a hmem
    rcases mem_append.mp hmem with hmem | hmem
    · exact h.unsettled a hmem
    · rw [mem_singleton.mp hmem]
      rfl
  · intro a hmem
    rcases mem_append.mp hmem with hmem | hmem
    · exact h.valid a hmem
    · rw [mem_singleton.mp hmem]
      exact hv

theorem todo_link (h : QueueOk sequence l) (hr : sequence < r.seq) :
    (l.link r).todo = l.todo ++ [r] := by
  unfold todo
  rw [(split_link h hr).2.1, map_append]
  rfl

variable {payload : Nat} {tr : List Event}

theorem StreamOk.link (h : StreamOk payload sequence tr l) (hq : QueueOk sequence l)
    (hr : sequence < r.seq) :
    StreamOk payload r.seq (tr ++ [.accepted r]) (l.link r) where
  order := by
    rw [accepted_append]
    refine pairwise_append.mpr ⟨h.order, pairwise_singleton _ _, ?_⟩
    intro a ha c hc
    rw [mem_singleton.mp hc]
    exact Nat.lt_of_le_of_lt (h.bound a ha) hr
  bound a ha := by
    rw [accepted_append, mem_append] at ha
    rcases ha with ha | ha
    · exact Nat.le_of_lt (Nat.lt_of_le_of_lt (h.bound a ha) hr)
    · rw [mem_singleton.mp ha]
  records := by
    rw [epoch_append_of_ne tr (by simp), accepted_append, left_append, h.records]
    simp [Trace.accepted, left, Ledger.link, Record.fresh]
  stream := by
    rw [todo_link hq hr, epoch_append_of_ne tr (by simp), reported_append,
      accepted_append, flatMap_append, flatMap_append, ← h.stream]
    change _ ++ Wave.ahead (l.todo ++ [r]) l.flushOffset = _
    rw [Wave.ahead_append h.offset]
    simp [Trace.accepted, reported, Wave.ahead]
  offset := by
    rw [todo_link hq hr]
    exact h.offset.append [r]
  wave := by
    rw [openWave_append]
    exact h.wave
  carries p hp := by
    obtain ⟨h0, taken, rest, hc⟩ := h.carries p hp
    rw [todo_link hq hr]
    exact ⟨h0, taken, rest ++ [r], hc.append h.offset [r]⟩
  disciplined := h.disciplined.append trivial

/-- The books may change where the stream does not look. -/
theorem StreamOk.congr (h : StreamOk payload sequence tr l)
    (hq : l'.queue.map record = l.queue.map record) (ht : l'.todo = l.todo)
    (ho : l'.flushOffset = l.flushOffset) (hp : l'.pending = l.pending) :
    StreamOk payload sequence tr l' where
  order := h.order
  bound := h.bound
  records := hq ▸ h.records
  stream := ht ▸ ho ▸ h.stream
  offset := ht ▸ ho ▸ h.offset
  wave := hp ▸ h.wave
  carries p hp' := by
    rw [ht, ho]
    exact h.carries p (hp ▸ hp')
  disciplined := h.disciplined

theorem SameBooks.streamOk (h : SameBooks l l') (hs : StreamOk payload sequence tr l) :
    StreamOk payload sequence tr l' :=
  hs.congr (congrArg (List.map record) h.queue)
    (congrArg (List.map record) h.unsettled) h.flushOffset h.pending

section

variable (h : StreamOk payload sequence tr l)
include h

private theorem StreamOk.rewave {e : Event}
    (hd : ∀ report, e ≠ .dropped report) (ha : Trace.accepted [e] = []) (hl : left [e] = [])
    (hr : reported [e] = []) (hn : Next payload tr e) {pending : Option Batch}
    (hw : turn (openWave tr) e = pending.map Batch.entries)
    (hc : ∀ p, pending = some p →
      p.applied = 0 ∧ ∃ taken rest, p.Carries l.todo l.flushOffset taken rest) :
    StreamOk payload sequence (tr ++ [e]) { l with pending } where
  order := by
    rw [accepted_append, ha, append_nil]
    exact h.order
  bound := by
    rw [accepted_append, ha, append_nil]
    exact h.bound
  records := by
    rw [epoch_append_of_ne tr hd, accepted_append, left_append, ha, hl, append_nil, append_nil]
    exact h.records
  stream := by
    rw [epoch_append_of_ne tr hd, accepted_append, reported_append, ha, hr, append_nil, append_nil]
    exact h.stream
  offset := h.offset
  wave := (openWave_append tr e).trans hw
  carries := hc
  disciplined := h.disciplined.append hn

theorem StreamOk.epoch_order : (Trace.accepted (epoch tr)).Pairwise fun a b => a.seq < b.seq :=
  h.order.sublist ((epoch_suffix tr).sublist.filterMap _)

/-- What was reported are the applied records and the part before the offset. -/
theorem StreamOk.reported_eq : (reported (epoch tr)).flatMap Entry.pieces =
      (left (epoch tr) ++ l.settled.map record).flatMap Record.pieces ++
        (l.todo.flatMap Record.pieces).take l.flushOffset := by
  have hsplit : l.queue.map record = l.settled.map record ++ l.todo := by
    rw [← settled_append, map_append]
    rfl
  have hs := h.stream
  rw [h.records, hsplit, ← append_assoc, flatMap_append,
    ← take_append_drop l.flushOffset (l.todo.flatMap Record.pieces), ← append_assoc] at hs
  exact append_cancel_right hs

end

theorem StreamOk.form {token token' : Nat} (h : StreamOk payload sequence tr l)
    (hnone : l.pending = none) {cut : Cut} (hn : Wave.New payload token l cut p token')
    (ht : ∀ t ∈ tokens tr, t ≤ token) :
    StreamOk payload sequence (tr ++ [.formed cut p.entries]) { l with pending := some p } := by
  have hsplit : l.queue.map record = l.settled.map record ++ l.todo := by
    rw [← settled_append, map_append]
    rfl
  have hle : ∀ r ∈ left (epoch tr) ++ l.settled.map record, r.seq ≤ cut.sequence := by
    intro r hr
    obtain ⟨taken, rest, hc⟩ := hn.carries
    obtain ⟨a, ha, hfirst⟩ := Option.map_eq_some_iff.mp hc.first
    have hord := h.epoch_order
    rw [h.records, hsplit, ← append_assoc, pairwise_append] at hord
    have hlt := hord.2.2 r hr a (List.mem_of_mem_head? ha)
    have hreach := hn.reached
    omega
  have hnext : Next payload tr (.formed cut p.entries) := by
    refine ⟨?_, hn.shape, ?_, ?_, ?_, ?_⟩
    · rw [h.wave, hnone]
      rfl
    · have hrep := h.reported_eq
      have hrec := h.records
      rw [hsplit, ← append_assoc] at hrec
      generalize left (epoch tr) ++ l.settled.map record = done at hle hrep hrec
      rw [hrep, hrec, filter_append,
        filter_eq_self.mpr fun r hr => decide_eq_true (hle r hr), flatMap_append,
        length_append, length_take, Nat.min_eq_left h.offset.le,
        drop_length_add_append]
      exact hn.within
    · obtain ⟨taken, rest, hc⟩ := hn.carries
      exact hc.nonempty
    · rw [hn.tokens]
      exact List.pairwise_lt_range'
    intro t htok e he
    have hmem : e.token ∈ p.entries.map Entry.token := mem_map_of_mem he
    rw [hn.tokens, List.mem_range'_1] at hmem
    have := ht t htok
    omega
  refine h.rewave (by simp) rfl rfl rfl hnext rfl fun q hq => ?_
  cases hq
  exact ⟨hn.applied, hn.carries⟩

theorem StreamOk.offer (h : StreamOk payload sequence tr l)
    (hp : l.pending = some p) : StreamOk payload sequence (tr ++ [.offered p.entries]) l := by
  have hw := h.wave
  have hopen : Next payload tr (.offered p.entries) := by
    change openWave tr = some p.entries
    rw [hw, hp]
    rfl
  exact h.rewave (by simp) rfl rfl rfl hopen hw h.carries

/-- The books after a wave was reported: it completed the records `ts` and `rs` are left;
`flush.go:133–148`. -/
def advance (l : Ledger) (p : Batch) (applied : Nat) (ts rs : List Retained) : Ledger :=
  { l with
    flushOffset := p.endOffset
    queue := l.settled ++ (ts.map (Retained.mark · applied) ++ rs)
    accepted := rs.head?.map fun r => r.record.seq
    pending := none }

variable {ts rs : List Retained}

theorem records_advance (hu : l.unsettled = ts ++ rs) (p : Batch) (applied : Nat) :
    (l.advance p applied ts rs).queue.map record = l.queue.map record := by
  rw [← settled_append l, hu]
  simp [advance, mark]

/-- A record after a wave was reported: unchanged, or completed by the wave. -/
theorem QueueOk.mem_advance (h : QueueOk sequence l) (hu : l.unsettled = ts ++ rs) {applied : Nat}
    {r : Retained} (hr : r ∈ (l.advance p applied ts rs).queue) :
    (r ∈ l.queue ∧ r ∉ ts) ∨ ∃ t ∈ ts, r = t.mark applied := by
  have hnd : l.queue.Nodup := by
    refine h.sorted.imp ?_
    rintro a b hlt rfl
    exact lt_irrefl _ hlt
  rw [← settled_append l, hu] at hnd
  rw [nodup_append] at hnd
  obtain ⟨-, htr, hcross⟩ := hnd
  rw [← settled_append l, hu, mem_append, mem_append]
  rcases mem_append.mp hr with hr | hr
  · exact .inl ⟨.inl hr, fun ht => hcross r hr r (mem_append_left _ ht) rfl⟩
  · rcases mem_append.mp hr with hr | hr
    · obtain ⟨t, ht, rfl⟩ := mem_map.mp hr
      exact .inr ⟨t, ht, rfl⟩
    · exact .inl ⟨.inr (.inr hr), fun ht => (nodup_append.mp htr).2.2 r ht r hr rfl⟩

private theorem split_advance (h : QueueOk sequence l) (hu : l.unsettled = ts ++ rs) (p : Batch)
    (applied : Nat) :
    (l.advance p applied ts rs).settled = l.settled ++ ts.map (mark · applied) ∧
      (l.advance p applied ts rs).unsettled = rs ∧
      (l.advance p applied ts rs).queue.Pairwise (fun a b => a.record.seq < b.record.seq) := by
  have hr := records_advance hu p applied
  have hs : (l.advance p applied ts rs).queue.Pairwise fun a b => a.record.seq < b.record.seq := by
    have hsorted := h.sorted
    rw [← pairwise_map (f := record) (R := fun a b => a.seq < b.seq)] at hsorted ⊢
    rwa [hr]
  have hq : (l.advance p applied ts rs).queue = (l.settled ++ ts.map (mark · applied)) ++ rs := by
    rw [append_assoc]
    rfl
  obtain ⟨h1, h2⟩ := split_of hq hs rfl
  exact ⟨h1, h2, hs⟩

theorem QueueOk.advance (h : QueueOk sequence l) (hu : l.unsettled = ts ++ rs) (p : Batch)
    (applied : Nat) : QueueOk sequence (l.advance p applied ts rs) := by
  obtain ⟨h1, h2, hs⟩ := split_advance h hu p applied
  have hr := records_advance hu p applied
  have hmem : ∀ r ∈ (l.advance p applied ts rs).queue, ∃ a ∈ l.queue, a.record = r.record := by
    intro r hrq
    have hin : r.record ∈ (l.advance p applied ts rs).queue.map record :=
      mem_map_of_mem hrq
    rw [hr] at hin
    exact mem_map.mp hin
  refine ⟨hs, ?_, ?_, ?_, by rw [h2]; rfl, ?_⟩
  · intro r hrq
    obtain ⟨a, ha, heq⟩ := hmem r hrq
    exact heq ▸ h.bound a ha
  · rw [h1]
    intro r hrq
    rcases mem_append.mp hrq with hrq | hrq
    · exact h.settled r hrq
    · obtain ⟨a, -, rfl⟩ := mem_map.mp hrq
      simp [mark]
  · rw [h2]
    intro r hrq
    exact h.unsettled r (hu ▸ mem_append_right ts hrq)
  · intro r hrq
    obtain ⟨a, ha, heq⟩ := hmem r hrq
    exact heq ▸ h.valid a ha

/-- The records that a retained wave completes, and those it leaves. -/
theorem exists_split_of_carries {rest : List Record}
    (h : p.Carries l.todo l.flushOffset taken rest) :
    ∃ ts rs, l.unsettled = ts ++ rs ∧ ts.map record = taken ∧ rs.map record = rest :=
  map_eq_append_iff.mp h.split

theorem StreamOk.advance (h : StreamOk payload sequence tr l) (hq : QueueOk sequence l)
    (hp : l.pending = some p) (hu : l.unsettled = ts ++ rs)
    (hc : p.Carries l.todo l.flushOffset (ts.map record) (rs.map record)) (applied seq : Nat) :
    StreamOk payload sequence (tr ++ [.reported p.entries seq]) (l.advance p applied ts rs) := by
  obtain ⟨h1, h2, hs⟩ := split_advance hq hu p applied
  have hr := records_advance hu p applied
  have htodo : (l.advance p applied ts rs).todo = rs.map record := by
    rw [todo, h2]
  have hd : ∀ report, Event.reported p.entries seq ≠ .dropped report := by simp
  exact
    { order := by
        rw [accepted_append]
        simpa [Trace.accepted] using h.order
      bound := by
        rw [accepted_append]
        simpa [Trace.accepted] using h.bound
      records := by
        rw [epoch_append_of_ne tr hd, accepted_append, left_append, h.records, hr]
        simp [Trace.accepted, left]
      stream := by
        rw [epoch_append_of_ne tr hd, accepted_append, reported_append,
          flatMap_append, flatMap_append, ← h.stream, htodo, ← hc.pieces]
        simp [Trace.accepted, reported]
        rfl
      offset := by
        rw [htodo]
        exact hc.stop
      wave := openWave_append tr _
      carries := by
        intro q hq
        cases hq
      disciplined := by
        refine h.disciplined.append ?_
        change openWave tr = some p.entries
        rw [h.wave, hp]
        rfl }

variable {rest : List Retained}

private theorem split_pop (h : QueueOk sequence l) {r : Retained}
    (hl : l.queue = r :: rest) (hr : r.state ≠ .accepted) :
    ∃ front, l.settled = r :: front ∧ rest = front ++ l.unsettled ∧
      { l with queue := rest : Ledger }.settled = front ∧
      { l with queue := rest : Ledger }.unsettled = l.unsettled := by
  have happ := settled_append l
  rw [hl] at happ
  obtain ⟨front, hf⟩ : ∃ front, l.settled = r :: front := by
    cases hset : l.settled with
    | nil =>
      rw [hset, nil_append] at happ
      exact absurd (h.unsettled r (happ ▸ mem_cons_self)) hr
    | cons a front =>
      rw [hset, cons_append, List.cons.injEq] at happ
      exact ⟨front, by rw [happ.1]⟩
  rw [hf, cons_append, List.cons.injEq] at happ
  have hs : rest.Pairwise fun a b => a.record.seq < b.record.seq := by
    have hsorted := h.sorted
    rw [hl] at hsorted
    exact hsorted.of_cons
  obtain ⟨h1, h2⟩ := split_of (l := { l with queue := rest }) happ.2.symm hs h.pointer
  exact ⟨front, hf, happ.2.symm, h1, h2⟩

theorem QueueOk.pop (h : QueueOk sequence l) {r : Retained}
    (hl : l.queue = r :: rest) (hr : r.state ≠ .accepted) :
    QueueOk sequence { l with queue := rest } := by
  obtain ⟨front, hf, hrest, h1, h2⟩ := split_pop h hl hr
  have hsub : ∀ a ∈ rest, a ∈ l.queue := fun a ha => hl ▸ mem_cons_of_mem r ha
  refine ⟨?_, fun a ha => h.bound a (hsub a ha), ?_, h2 ▸ h.unsettled, h2 ▸ h.pointer,
    fun a ha => h.valid a (hsub a ha)⟩
  · have hsorted := h.sorted
    rw [hl] at hsorted
    exact hsorted.of_cons
  · rw [h1]
    exact fun a ha => h.settled a (hf ▸ mem_cons_of_mem r ha)

theorem StreamOk.pop (h : StreamOk payload sequence tr l) (hq : QueueOk sequence l) {r : Retained}
 (hl : l.queue = r :: rest) (hr : r.state ≠ .accepted) {cause : Cause}
    (hc : Admits r cause) (hs : Stamped tr r) :
    StreamOk payload sequence (tr ++ [.left r cause]) { l with queue := rest } := by
  obtain ⟨front, hf, hrest, h1, h2⟩ := split_pop hq hl hr
  have htodo : { l with queue := rest : Ledger }.todo = l.todo := congrArg (List.map record) h2
  have hd : ∀ report, Event.left r cause ≠ .dropped report := by simp
  exact
    { order := by
        rw [accepted_append]
        simpa [Trace.accepted] using h.order
      bound := by
        rw [accepted_append]
        simpa [Trace.accepted] using h.bound
      records := by
        rw [epoch_append_of_ne tr hd, accepted_append, left_append, h.records, hl]
        simp [Trace.accepted, left]
      stream := by
        rw [epoch_append_of_ne tr hd, accepted_append, reported_append, htodo]
        simpa [Trace.accepted, reported] using h.stream
      offset := htodo ▸ h.offset
      wave := (openWave_append tr _).trans h.wave
      carries := fun p hp => htodo ▸ h.carries p hp
      disciplined := h.disciplined.append ⟨hc, hs⟩ }

/-- The queue with some records changed. -/
def relabel (l : Ledger) (g : Retained → Retained) : Ledger := { l with queue := l.queue.map g }

/-- A change that keeps what a record is and whether it is applied. -/
def Relabels (l : Ledger) (g : Retained → Retained) : Prop :=
  ∀ r ∈ l.queue, (g r).record = r.record ∧ ((g r).state = .accepted ↔ r.state = .accepted)

variable {g : Retained → Retained}

theorem records_relabel (hg : l.Relabels g) :
    (l.relabel g).queue.map record = l.queue.map record := by
  rw [relabel, map_map]
  exact map_congr_left fun r hr => (hg r hr).1

private theorem split_relabel (h : QueueOk sequence l) (hg : l.Relabels g) :
    (l.relabel g).settled = l.settled.map g ∧ (l.relabel g).unsettled = l.unsettled.map g ∧
      (l.relabel g).queue.Pairwise (fun a b => a.record.seq < b.record.seq) := by
  have hr := records_relabel hg
  have hs : (l.relabel g).queue.Pairwise fun a b => a.record.seq < b.record.seq := by
    have hsorted := h.sorted
    rw [← pairwise_map (f := record) (R := fun a b => a.seq < b.seq)] at hsorted ⊢
    rwa [hr]
  have hq : (l.relabel g).queue = l.settled.map g ++ l.unsettled.map g := by
    rw [← map_append, settled_append]
    rfl
  have ha : (l.relabel g).accepted = (l.unsettled.map g).head?.map fun r => r.record.seq := by
    change l.accepted = _
    rw [h.pointer]
    cases hu : l.unsettled with
    | nil => rfl
    | cons a us =>
      have hmem : a ∈ l.queue := by
        rw [← settled_append, hu]
        simp
      simp [(hg a hmem).1]
  obtain ⟨h1, h2⟩ := split_of hq hs ha
  exact ⟨h1, h2, hs⟩

theorem QueueOk.relabel (h : QueueOk sequence l)
    (hg : l.Relabels g) : QueueOk sequence (l.relabel g) := by
  obtain ⟨h1, h2, hs⟩ := split_relabel h hg
  have hin : ∀ a, a ∈ l.settled ∨ a ∈ l.unsettled → a ∈ l.queue := fun a ha => by
    rw [← settled_append, mem_append]
    exact ha
  refine ⟨hs, ?_, ?_, ?_, ?_, ?_⟩
  · intro r hmem
    obtain ⟨a, ha, rfl⟩ := mem_map.mp hmem
    rw [(hg a ha).1]
    exact h.bound a ha
  · rw [h1]
    intro r hmem hacc
    obtain ⟨a, ha, rfl⟩ := mem_map.mp hmem
    exact h.settled a ha ((hg a (hin a (.inl ha))).2.mp hacc)
  · rw [h2]
    intro r hmem
    obtain ⟨a, ha, rfl⟩ := mem_map.mp hmem
    exact (hg a (hin a (.inr ha))).2.mpr (h.unsettled a ha)
  · rw [h2]
    change l.accepted = _
    rw [h.pointer]
    cases hu : l.unsettled with
    | nil => rfl
    | cons a us =>
      have ha := hg a (hin a (.inr (hu ▸ mem_cons_self)))
      simp [ha.1]
  · intro r hmem
    obtain ⟨a, ha, rfl⟩ := mem_map.mp hmem
    rw [(hg a ha).1]
    exact h.valid a ha

theorem StreamOk.relabel (h : StreamOk payload sequence tr l) (hq : QueueOk sequence l)
    (hg : l.Relabels g) : StreamOk payload sequence tr (l.relabel g) := by
  obtain ⟨h1, h2, hs⟩ := split_relabel hq hg
  have htodo : (l.relabel g).todo = l.todo := by
    unfold todo
    rw [h2, map_map]
    apply map_congr_left
    intro a ha
    have hmem : a ∈ l.queue := by
      rw [← settled_append]
      exact mem_append_right _ ha
    exact (hg a hmem).1
  exact h.congr (records_relabel hg) htodo rfl rfl

/-- The books hold nothing. -/
structure Empty (l : Ledger) : Prop where
  queue : l.queue = []
  accepted : l.accepted = none
  flushOffset : l.flushOffset = 0
  pending : l.pending = none

theorem Empty.queueOk (h : l.Empty) (sequence : Nat) : QueueOk sequence l := by
  have hq : l.queue = [] ++ [] := h.queue
  refine QueueOk.of_split hq ?_ ?_ ?_ ?_ ?_ ?_
  all_goals simp [h.queue, h.accepted]

theorem Empty.todo (h : l.Empty) : l.todo = [] := by
  simp [Ledger.todo, unsettled, h.accepted]

theorem Empty.streamOk (h : l.Empty) (ho : (Trace.accepted tr).Pairwise fun a b => a.seq < b.seq)
    (hb : ∀ r ∈ Trace.accepted tr, r.seq ≤ sequence) (hd : Disciplined payload tr)
    (he : epoch tr = []) (hw : openWave tr = none) :
    StreamOk payload sequence tr l where
  order := ho
  bound := hb
  records := by rw [he, h.queue]; rfl
  stream := by rw [he, h.todo]; simp [Wave.ahead, reported, Trace.accepted]
  offset := .inl h.flushOffset
  wave := by rw [hw, h.pending]; rfl
  carries p hp := by rw [h.pending] at hp; cases hp
  disciplined := hd

private theorem disciplined_left (h : Disciplined payload tr) (hs : ∀ r ∈ rs, Stamped tr r)
    (ticket : Nat) : Disciplined payload (tr ++ rs.map (Event.left · (.dropped ticket))) := by
  induction rs generalizing tr with
  | nil => simpa using h
  | cons r rs ih =>
    have hnext : Next payload tr (.left r (.dropped ticket)) :=
      ⟨trivial, hs r mem_cons_self⟩
    have hrest : ∀ a ∈ rs, Stamped (tr ++ [.left r (.dropped ticket)]) a := by
      intro a ha hstate
      obtain ⟨es, hes⟩ := hs a (mem_cons_of_mem r ha) hstate
      exact ⟨es, mem_append_left _ hes⟩
    have hcons := ih (h.append hnext) hrest
    rwa [append_assoc] at hcons

private theorem epoch_left (tr : List Event) (rs : List Retained) (cause : Cause) :
    epoch (tr ++ rs.map (Event.left · cause)) = epoch tr ++ rs.map (Event.left · cause) := by
  induction rs generalizing tr with
  | nil => simp
  | cons r rs ih =>
    have hcons := ih (tr ++ [.left r cause])
    rw [epoch_append_of_ne tr (by simp)] at hcons
    simpa using hcons

theorem StreamOk.drop (h : StreamOk payload sequence tr l) (hs : ∀ r ∈ l.queue, Stamped tr r)
    (ticket : Nat) (report : DropReport) (hl : l'.Empty) :
    StreamOk payload sequence
      (tr ++ l.queue.map (Event.left · (.dropped ticket)) ++ [.dropped report]) l' := by
  have hnone : Trace.accepted (l.queue.map (Event.left · (.dropped ticket)) ++ [.dropped report]) = [] := by
    simp [Trace.accepted]
  apply hl.streamOk
  · rw [append_assoc, accepted_append, hnone, append_nil]
    exact h.order
  · rw [append_assoc, accepted_append, hnone, append_nil]
    exact h.bound
  · refine (disciplined_left h.disciplined hs ticket).append ?_
    change Trace.accepted (epoch _) = left (epoch _)
    rw [epoch_left, accepted_append, left_append, h.records]
    simp [Trace.accepted, left]
  · exact epoch_append _ _
  · exact openWave_append _ _

end Ledger
end PortableFS.Writeback
