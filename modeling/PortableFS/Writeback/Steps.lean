import PortableFS.Writeback.Local

/-!
# Admission, waves, acknowledgement and drop of one file

Each critical section that touches the records of a file is a step of that file: it keeps the
invariant, balances the arenas and leaves the other files alone.
-/

namespace PortableFS.Writeback

open Mount List

variable {token : Nat}

private theorem tokens_le {tr : List Event} (h : ∀ t ∈ Trace.tokens tr, t ≤ token)
    {e : Event} (he : Trace.tokens [e] = []) : ∀ t ∈ Trace.tokens (tr ++ [e]), t ≤ token := by
  rw [Trace.tokens_append, he, append_nil]
  exact h

variable {payload : Nat} {m : Mount} {id : Identity} {l : Ledger} {l' : Ledger}

/-- A new record is linked and shown; `buffer.go:261–278`. -/
theorem Local.accept (h : Local payload m id l) {r : Record} (hv : r.Valid)
    (hseq : r.seq = m.sequence + 1) {slot : Nat} {free : List Nat} (hfree : m.free = slot :: free)
 {pool : List Nat} (ho : l'.OverlayOk) (hs : Ledger.SameBooks (l.link r) l')
    (hn : (l'.extents.nodes ++ pool).Perm (l.extents.nodes ++ m.pool)) :
    Moves payload id m l
      (note { m with
        free, pool, sequence := r.seq, count := m.count + 1, bytes := m.bytes + r.data.length }
        id (.accepted r)) l' := by
  have hlt : m.sequence < r.seq := by omega
  have hq : l'.queue = l.queue ++ [r.fresh] := hs.queue
  have hnames : ∀ i, m.Names id l.queue i → ∀ m' : Mount, m'.sequence = r.seq →
      m'.Names id l'.queue i := by
    intro i hi m' hm' hf
    obtain ⟨hle, hall⟩ := hi hf
    refine ⟨by omega, fun a ha heq => ?_⟩
    rw [hq, mem_append, mem_singleton] at ha
    rcases ha with ha | rfl
    · exact hall a ha heq
    · change r.seq = i.seq at heq
      omega
  refine ⟨⟨?_, ?_, ho, ?_, ?_, ?_, ?_, ?_⟩, ⟨?_, ?_, ?_, ?_⟩, ⟨?_, ?_, ?_, ?_, ?_, ?_, ?_⟩⟩
  · exact hs.queueOk (h.queue.link hlt hv)
  · rw [note_trace]
    exact hs.streamOk (h.stream.link h.queue hlt)
  · rw [note_trace]
    exact tokens_le h.tokens rfl
  · intro a ha
    rw [hq, mem_append, mem_singleton] at ha
    rcases ha with ha | rfl
    · exact h.covers a ha
    · exact ⟨State.noConfusion, State.noConfusion⟩
  · rw [note_trace]
    intro a ha
    rw [hq, mem_append, mem_singleton] at ha
    rcases ha with ha | rfl
    · exact (h.stamped a ha).append _
    · exact fun hs => absurd rfl hs
  · exact fun i hi => hnames i (h.applied i hi) _ rfl
  · exact fun i hi => ⟨hnames i (h.visible i hi).1 _ rfl, (h.visible i hi).2⟩
  · rw [hq, length_append, length_singleton]
    change m.count + 1 - _ = _
    omega
  · have hb : l'.bytes = l.bytes + r.data.length := by
      unfold Ledger.bytes
      rw [hq, map_append, sum_append]
      rfl
    rw [hb]
    change m.bytes + r.data.length - _ = _
    omega
  · change (free.length : Int) + (m.count + 1) = _
    rw [hfree, length_cons]
    omega
  · have hlen := hn.length_eq
    rw [length_append, length_append] at hlen
    change pool.length + _ = _
    omega
  · exact fun id' hne => note_trace_ne _ hne _
  · exact fun i hi => .inl hi
  · exact fun i hi => .inl hi
  · exact hlt.le
  all_goals exact le_rfl

variable {p : Batch}

/-- A wave is formed; `wave.go:8–64`. -/
theorem Local.form (h : Local payload m id l) (hnone : l.pending = none) {cut : Cut}
    (hn : Wave.New payload m.token l cut p token) :
    Moves payload id m l (note { m with token } id (.formed cut p.entries))
      { l with pending := some p } := by
  have htok : m.token ≤ token := by
    have := hn.token
    omega
  refine ⟨⟨?_, ?_, ⟨h.overlay.paints, h.overlay.truncates⟩, ?_, h.covers, ?_, h.applied, h.visible⟩,
    ⟨rfl, rfl, rfl, rfl⟩,
    ⟨fun id' hne => note_trace_ne _ hne _, fun i hi => .inl hi, fun i hi => .inl hi, le_rfl,
      htok, le_rfl, le_rfl⟩⟩
  · exact ⟨h.queue.sorted, h.queue.bound, h.queue.settled, h.queue.unsettled, h.queue.pointer,
      h.queue.valid⟩
  · rw [note_trace]
    exact h.stream.form hnone hn h.tokens
  · rw [note_trace, Trace.tokens_append]
    intro t ht
    rcases mem_append.mp ht with ht | ht
    · exact Nat.le_trans (h.tokens t ht) htok
    have hmem : t ∈ p.entries.map Entry.token := by simpa [Trace.tokens] using ht
    rw [hn.tokens, List.mem_range'_1] at hmem
    have heq := hn.token
    change t ≤ token
    omega
  · rw [note_trace]
    exact fun a ha => (h.stamped a ha).append _

/-- The retained wave is offered; `flush.go:88–95`. -/
theorem Local.offer (h : Local payload m id l) (hp : l.pending = some p) :
    Moves payload id m l (m.note id (.offered p.entries)) l := by
  refine ⟨⟨h.queue, ?_, h.overlay, ?_, h.covers, ?_, h.applied, h.visible⟩, ⟨rfl, rfl, rfl, rfl⟩,
    ⟨fun id' hne => note_trace_ne _ hne _, fun i hi => .inl hi, fun i hi => .inl hi, le_rfl,
      le_rfl, le_rfl, le_rfl⟩⟩
  · rw [note_trace]
    exact h.stream.offer hp
  · rw [note_trace]
    exact tokens_le h.tokens rfl
  · rw [note_trace]
    exact fun a ha => (h.stamped a ha).append _

namespace Mount

/-- The mount after records of a file entered the heap. -/
def pushEach (id : Identity) (applied : Nat) (rs : List Retained) (m : Mount) : Mount :=
  rs.foldl (fun m r => m.pushApplied ⟨id, r.record.seq, applied⟩) m

/-- The marking loop runs over the records that the wave completes. -/
theorem applyEach_eq (id : Identity) {first last : Nat} (applied : Nat) {ts rs : List Retained}
    (hts : ∀ r ∈ ts, first ≤ r.record.seq ∧ r.record.seq ≤ last)
    (hrs : ∀ r ∈ rs.head?, last < r.record.seq) {accepted : Option Nat}
    (ha : accepted = (ts ++ rs).head?.map fun r => r.record.seq) (m : Mount) :
    m.applyEach id first last applied (ts ++ rs) accepted =
      (m.pushEach id applied ts, ts.map (Retained.mark · applied) ++ rs,
        rs.head?.map fun r => r.record.seq) := by
  induction ts generalizing accepted m with
  | nil =>
    rw [nil_append] at ha ⊢
    subst ha
    cases rs with
    | nil => rfl
    | cons r rs =>
      have hlt := hrs r rfl
      rw [applyEach, if_neg (by omega)]
      rfl
  | cons t ts ih =>
    obtain ⟨h1, h2⟩ := hts t mem_cons_self
    rw [cons_append, applyEach, if_pos h2, if_pos h1,
      ih (fun r hr => hts r (mem_cons_of_mem t hr)) rfl]
    rfl

/-- Entering a heap touches nothing else. -/
theorem pushEach_eq (id : Identity) (applied : Nat) (rs : List Retained) (m : Mount) :
    ∃ as index, m.pushEach id applied rs = { m with appliedHeap := as, heapIndex := index } ∧
      ∀ i ∈ as, i ∈ m.appliedHeap ∨ ∃ r ∈ rs, i = ⟨id, r.record.seq, applied⟩ := by
  induction rs generalizing m with
  | nil => exact ⟨m.appliedHeap, m.heapIndex, rfl, fun i hi => .inl hi⟩
  | cons r rs ih =>
    obtain ⟨as, index, heq, hmem⟩ := ih (m.pushApplied ⟨id, r.record.seq, applied⟩)
    refine ⟨as, index, heq, fun i hi => ?_⟩
    rcases hmem i hi with hi | ⟨a, ha, rfl⟩
    · have hpush := (Heap.push_perm ⟨m.appliedHeap, m.heapIndex⟩ ⟨id, r.record.seq, applied⟩).mem_iff.mp hi
      rcases mem_cons.mp hpush with rfl | hi
      · exact .inr ⟨r, mem_cons_self, rfl⟩
      · exact .inl hi
    · exact .inr ⟨a, mem_cons_of_mem r ha, rfl⟩

end Mount

section

variable (h : Local payload m id l)
include h

/-- What recording an applied wave does: the records it completes are marked. -/
theorem Local.applyWave_eq {ts rs : List Retained} (hu : l.unsettled = ts ++ rs)
    (hc : p.Carries l.todo l.flushOffset (ts.map Retained.record) (rs.map Retained.record))
    (seq : Nat) :
    applyWave id m l p seq =
      ((m.pushEach id (max p.applied seq) ts).note id (.reported p.entries seq),
        l.advance p (max p.applied seq) ts rs) := by
  have hsorted : l.unsettled.Pairwise fun a b => a.record.seq < b.record.seq := by
    have hs := h.queue.sorted
    rw [← l.settled_append] at hs
    exact (pairwise_append.mp hs).2.1
  have hpos : ∀ r ∈ l.unsettled, 0 < r.record.seq := by
    intro r hr
    refine (h.queue.valid r ?_).pos
    rw [← l.settled_append]
    exact mem_append_right _ hr
  have hfirst : ∀ r ∈ l.unsettled, p.first ≤ r.record.seq := by
    have hf := hc.first
    unfold Ledger.todo at hf
    cases hus : l.unsettled with
    | nil => simp
    | cons a us =>
      rw [hus] at hf hsorted
      have heq : a.record.seq = p.first := Option.some.inj hf
      intro r hr
      rcases mem_cons.mp hr with rfl | hr
      · omega
      · have := (pairwise_cons.mp hsorted).1 r hr
        omega
  have hlast : p.completedLast = ts.getLast?.map fun r => r.record.seq := by
    rw [hc.last, List.getLast?_map, Option.map_map]
    rfl
  rw [hu] at hsorted hpos hfirst
  have hbounds : (∀ r ∈ ts, r.record.seq ≤ p.completedLast.getD 0) ∧
      ∀ r ∈ rs, p.completedLast.getD 0 < r.record.seq := by
    rw [hlast]
    rcases eq_nil_or_concat ts with rfl | ⟨ts, x, rfl⟩
    · exact ⟨by simp, fun r hr => hpos r hr⟩
    rw [concat_eq_append] at hsorted ⊢
    obtain ⟨hts, -, hcross⟩ := pairwise_append.mp hsorted
    simp only [List.getLast?_append, List.getLast?_singleton, Option.some_or, Option.map_some,
      Option.getD_some]
    refine ⟨fun r hr => ?_, fun r hr => hcross x (by simp) r hr⟩
    rcases mem_append.mp hr with hr | hr
    · exact Nat.le_of_lt ((pairwise_append.mp hts).2.2 r hr x (by simp))
    · rw [mem_singleton.mp hr]
  have hts : ∀ r ∈ ts, p.first ≤ r.record.seq ∧ r.record.seq ≤ p.completedLast.getD 0 :=
    fun r hr => ⟨hfirst r (mem_append_left _ hr), hbounds.1 r hr⟩
  have hrs : ∀ r ∈ rs.head?, p.completedLast.getD 0 < r.record.seq :=
    fun r hr => hbounds.2 r (List.mem_of_mem_head? hr)
  have ha : l.accepted = (ts ++ rs).head?.map fun r => r.record.seq := hu ▸ h.queue.pointer
  unfold applyWave
  rw [hu, applyEach_eq id _ hts hrs ha]
  rfl

/-- A wave is applied; `flush.go:129–150`. -/
theorem Local.applyWave (hp : l.pending = some p) (seq : Nat) :
    Moves payload id m l (applyWave id m l p seq).1 (applyWave id m l p seq).2 := by
  obtain ⟨h0, taken, rest, hc⟩ := h.stream.carries p hp
  obtain ⟨ts, rs, hu, rfl, rfl⟩ := Ledger.exists_split_of_carries hc
  rw [h.applyWave_eq hu hc seq]
  obtain ⟨as, index, heq, hmem⟩ := m.pushEach_eq id (max p.applied seq) ts
  rw [heq]
  have hts : ∀ t ∈ ts, t ∈ l.queue ∧ t.state = .accepted := by
    intro t ht
    have hmem : t ∈ l.unsettled := hu ▸ mem_append_left rs ht
    exact ⟨l.settled_append ▸ mem_append_right _ hmem, h.queue.unsettled t hmem⟩
  have hold : ∀ i, m.Names id l.queue i →
      m.Names id (l.advance p (max p.applied seq) ts rs).queue i := by
    intro i hi hf
    refine ⟨(hi hf).1, fun r hr heq => ?_⟩
    rcases h.queue.mem_advance hu hr with ⟨hr, -⟩ | ⟨t, ht, rfl⟩
    · exact (hi hf).2 r hr heq
    · exact absurd (hts t ht).2 ((hi hf).2 t (hts t ht).1 heq).1
  have hnew : ∀ t ∈ ts, m.Names id (l.advance p (max p.applied seq) ts rs).queue
      ⟨id, t.record.seq, max p.applied seq⟩ := by
    intro t ht hf
    refine ⟨h.queue.bound t (hts t ht).1, fun r hr heq => ?_⟩
    rcases h.queue.mem_advance hu hr with ⟨hr, hne⟩ | ⟨t', ht', rfl⟩
    · exact absurd (h.queue.eq_of_seq hr (hts t ht).1 heq ▸ ht) hne
    · exact ⟨by simp [Retained.mark], rfl⟩
  refine ⟨⟨h.queue.advance hu p _, ?_, ?_, ?_, ?_, ?_, ?_, ?_⟩,
    .of_records (Ledger.records_advance hu p _) rfl rfl rfl rfl rfl,
    ⟨fun id' hne => note_trace_ne _ hne _, ?_, fun i hi => .inl hi, le_rfl, le_rfl, le_rfl, le_rfl⟩⟩
  · rw [note_trace]
    exact h.stream.advance h.queue hp hu hc _ seq
  · refine h.overlay.congr ?_ rfl rfl
    rw [← l.settled_append, hu]
    simp [Ledger.advance, Retained.mark]
  · rw [note_trace]
    exact tokens_le h.tokens rfl
  · intro r hr
    rcases h.queue.mem_advance hu hr with ⟨hr, -⟩ | ⟨t, -, rfl⟩
    · exact h.covers r hr
    · exact ⟨State.noConfusion, State.noConfusion⟩
  · rw [note_trace]
    intro r hr
    rcases h.queue.mem_advance hu hr with ⟨hr, -⟩ | ⟨t, -, rfl⟩
    · exact (h.stamped r hr).append _
    · -- a new wave starts without an applied sequence, so the stamp is the reported one
      have hmax : max p.applied seq = seq := by omega
      exact fun _ => ⟨p.entries, mem_append_right _ (by simp [Retained.mark, hmax])⟩
  · intro i hi
    rcases hmem i hi with hi | ⟨t, ht, rfl⟩
    · exact hold i (h.applied i hi)
    · exact hnew t ht
  · exact fun i hi => ⟨hold i (h.visible i hi).1, (h.visible i hi).2⟩
  · intro i hi
    rcases hmem i hi with hi | ⟨t, -, rfl⟩
    · exact .inl hi
    · exact .inr rfl

/-- A record that is applied changes its state, and heap items move along. -/
theorem Local.setState {seq : Nat} {state : State} (hs : state ≠ .accepted)
    (hr : ∀ r ∈ l.queue, r.record.seq = seq → r.state ≠ .accepted ∧ m.Covers { r with state })
    {as vs : List HeapItem} {index : Nat → Nat} (ha : ∀ i ∈ as, i ∈ m.appliedHeap)
    (hv : ∀ i ∈ vs, i ∈ m.visibleHeap ∨ i ∈ m.appliedHeap ∧ i.file = id ∧ i.applied ≤ m.visible) :
    Moves payload id m l { m with appliedHeap := as, visibleHeap := vs, heapIndex := index }
      (l.setState seq state) := by
  have hg : l.Relabels fun r => if r.record.seq = seq then { r with state } else r := by
    intro r hmem
    dsimp only
    split
    · next heq => exact ⟨rfl, iff_of_false hs (hr r hmem heq).1⟩
    · exact ⟨rfl, Iff.rfl⟩
  have hnames : ∀ i, m.Names id l.queue i → m.Names id (l.setState seq state).queue i := by
    intro i hi hf
    refine ⟨(hi hf).1, fun r hmem heq => ?_⟩
    obtain ⟨a, ha, rfl⟩ := mem_map.mp hmem
    split at heq
    · next heq' =>
      rw [if_pos heq']
      exact ⟨hs, ((hi hf).2 a ha heq).2⟩
    · next heq' =>
      rw [if_neg heq']
      exact (hi hf).2 a ha heq
  have hvisible : ∀ i ∈ vs, m.Names id l.queue i ∧ i.applied ≤ m.visible := by
    intro i hi
    rcases hv i hi with hi | ⟨hi, hf, hle⟩
    · exact h.visible i hi
    · exact ⟨h.applied i hi, hle⟩
  refine ⟨⟨h.queue.relabel hg, h.stream.relabel h.queue hg, ?_, h.tokens, ?_, ?_, ?_, ?_⟩,
    .of_records (Ledger.records_relabel hg) rfl rfl rfl rfl rfl,
    ⟨fun id' hne => rfl, fun i hi => .inl (ha i hi), ?_, le_rfl, le_rfl, le_rfl, le_rfl⟩⟩
  · refine h.overlay.congr ?_ rfl rfl
    change (l.queue.map _).map _ = _
    rw [map_map]
    refine map_congr_left fun r _ => ?_
    simp only [Function.comp_apply]
    split <;> rfl
  · intro r hmem
    obtain ⟨a, ha, rfl⟩ := mem_map.mp hmem
    split
    · next heq => exact (hr a ha heq).2
    · exact h.covers a ha
  · intro r hmem
    obtain ⟨a, ha, rfl⟩ := mem_map.mp hmem
    split
    · next heq => exact fun _ => h.stamped a ha (hr a ha heq).1
    · exact h.stamped a ha
  · exact fun i hi => hnames i (h.applied i (ha i hi))
  · exact fun i hi => ⟨hnames i (hvisible i hi).1, (hvisible i hi).2⟩
  · intro i hi
    rcases hv i hi with hi | ⟨-, hf, hle⟩
    · exact .inl hi
    · exact .inr ⟨hf, hle⟩

end

variable {top : HeapItem}

/-- The visible watermark reaches a record; `flush.go:267–271`. -/
theorem Local.raise (h : Local payload m top.file l) (htop : top ∈ m.appliedHeap)
    (hle : top.applied ≤ m.visible) :
    Moves payload top.file m l (m.raise top) (l.setState top.seq .visible) := by
  have hnames := (h.applied top htop rfl).2
  refine h.setState (by simp) ?_ (fun i hi => Heap.mem_of_mem_remove hi) fun i hi => ?_
  · intro r hr heq
    obtain ⟨hs, happ⟩ := hnames r hr heq
    refine ⟨hs, fun _ => ?_, nofun⟩
    change r.applied ≤ m.visible
    omega
  · rcases mem_cons.mp ((Heap.push_perm _ top).mem_iff.mp hi) with rfl | hi
    · exact .inr ⟨htop, rfl, hle⟩
    · exact .inl hi

/-- The durable watermark reaches a record; `flush.go:272–274`. -/
theorem Local.settle (h : Local payload m top.file l) (htop : top ∈ m.visibleHeap)
    (hle : top.applied ≤ m.durable) :
    Moves payload top.file m l m.settle (l.setState top.seq .durable) := by
  obtain ⟨hnames, hvis⟩ := h.visible top htop
  refine h.setState (by simp) ?_ (fun i hi => hi) fun i hi => .inl (Heap.mem_of_mem_remove hi)
  intro r hr heq
  obtain ⟨hs, happ⟩ := (hnames rfl).2 r hr heq
  refine ⟨hs, nofun, fun _ => ?_⟩
  change r.applied ≤ m.visible ∧ r.applied ≤ m.durable
  omega

private theorem retire_of_nil {m : ExtentMap} (h : m.Ok) (hnil : m.root = .nil) (free : List Nat)
    (owner : Nat) : m.retire free owner = (m, free) := by
  have howned : m.owned owner = [] := by
    have hp := h.owned owner
    rw [hnil] at hp
    exact hp.eq_nil
  unfold ExtentMap.retire
  rw [howned]
  rfl

private theorem releaseWhile_of_nil (id : Identity) (cause : Cause) (p : Retained → Bool)
    (q : List Retained) (m : Mount) (h : l.extents.Ok) (hnil : l.extents.root = .nil) :
    (releaseWhile id cause p q (m, l)).1.pool = m.pool ∧
      (releaseWhile id cause p q (m, l)).2.extents = l.extents := by
  induction q generalizing m l with
  | nil => exact ⟨rfl, rfl⟩
  | cons r rest ih =>
    unfold releaseWhile
    split
    · obtain ⟨as, vs, index, hm, -, -⟩ := m.unheap_eq r
      have hr := retire_of_nil h hnil (m.unheap r).pool r.record.seq
      have he : (release id cause m { l with queue := rest } r).2.extents = l.extents :=
        congrArg Prod.fst hr
      have hp : (release id cause m { l with queue := rest } r).1.pool = m.pool :=
        (congrArg Prod.snd hr).trans (by rw [hm])
      have hrec := ih (release id cause m { l with queue := rest } r).1 (by rw [he]; exact h)
        (by rw [he]; exact hnil)
      exact ⟨hrec.1.trans hp, hrec.2.trans he⟩
    · exact ⟨rfl, rfl⟩

/-- What a drop does: every record leaves under its ticket, and the books are empty. -/
theorem dropRecords_spec (h : l.extents.Ok) (report : DropReport) :
    ∃ m', (dropRecords m l report).1 = m'.note report.identity (.dropped report) ∧
      Shed report.identity (.dropped report.lossSequence) l.queue
        { m with loss := report.lossSequence, pool := (l.extents.clear m.pool).2 } m' ∧
      m'.pool = (l.extents.clear m.pool).2 ∧ (dropRecords m l report).2.Empty ∧
      (dropRecords m l report).2.extents = (l.extents.clear m.pool).1 ∧
      (dropRecords m l report).2.truncates = [] ∧ (dropRecords m l report).2.size = 0 ∧
      (dropRecords m l report).2.exact = false := by
  obtain ⟨hok, hnil, -⟩ := ExtentMap.clear_spec h m.pool
  generalize hm : ({ m with loss := report.lossSequence, pool := (l.extents.clear m.pool).2 } : Mount) = m₁
  generalize hl : ({ l with extents := (l.extents.clear m.pool).1, size := 0, exact := false } : Ledger) = l₁
  have hshed := releaseWhile_shed report.identity (.dropped report.lossSequence) (fun _ => true)
    l.queue m₁ l₁
  have hbooks := releaseWhile_books report.identity (.dropped report.lossSequence) (fun _ => true)
    l.queue m₁ l₁
  obtain ⟨hp, he⟩ := releaseWhile_of_nil report.identity (.dropped report.lossSequence) (fun _ => true)
    l.queue m₁ (l := l₁) (hl ▸ hok) (hl ▸ hnil)
  obtain ⟨hsize, hexact⟩ := releaseWhile_size report.identity (.dropped report.lossSequence)
    (fun _ => true) l.queue m₁ l₁
  rw [takeWhile_eq_self_iff.mpr fun _ _ => rfl] at hshed
  have hq : (releaseWhile report.identity (.dropped report.lossSequence) (fun _ => true) l.queue
      (m₁, l₁)).2.queue = [] := by
    rw [hbooks.queue]
    exact dropWhile_eq_nil_iff.mpr fun _ _ => rfl
  subst hm hl
  exact ⟨_, rfl, hshed, hp, ⟨hq, rfl, rfl, rfl⟩, he, rfl, hsize, hexact⟩

/-- All records of a file are dropped; `buffer.go:537–564`. -/
theorem Local.drop {report : DropReport} (h : Local payload m report.identity l) :
    Moves payload report.identity m l (dropRecords m l report).1 (dropRecords m l report).2 ∧
      (dropRecords m l report).2.Sized := by
  obtain ⟨hok, hnil, hpool⟩ := ExtentMap.clear_spec h.overlay.paints.ok m.pool
  obtain ⟨m', heq, hshed, hp, hempty, hext, htr, hsize, hexact⟩ :=
    dropRecords_spec h.overlay.paints.ok report
  have htrace : (m'.note report.identity (.dropped report)).trace report.identity =
      m.trace report.identity ++ l.queue.map (Event.left · (.dropped report.lossSequence)) ++
        [.dropped report] := by
    rw [note_trace, hshed.trace]
  have hnodes : (dropRecords m l report).2.extents.nodes = [] := by
    unfold ExtentMap.nodes
    rw [hext, hnil]
    rfl
  have hnames : ∀ i, m.Names report.identity l.queue i →
      (m'.note report.identity (.dropped report)).Names report.identity
        (dropRecords m l report).2.queue i := by
    intro i hi hf
    rw [hempty.queue]
    exact ⟨hshed.sequence.symm ▸ (hi hf).1, by simp⟩
  rw [heq]
  refine ⟨⟨⟨hempty.queueOk _, ?_, ⟨?_, ?_⟩, ?_, ?_, ?_, ?_, ?_⟩, ⟨?_, ?_, ?_, ?_⟩, ?_⟩, ?_⟩
  · rw [htrace]
    exact (h.stream.mono (Nat.le_of_eq hshed.sequence.symm)).drop h.stamped _ _ hempty
  · rw [hext, Ledger.shown, hempty.queue]
    exact .of_nil hok hnil
  · rw [htr, Ledger.shown, hempty.queue]
    rfl
  · rw [htrace, append_assoc, Trace.tokens_append]
    intro t ht
    have hnone : Trace.tokens (l.queue.map (Event.left · (.dropped report.lossSequence)) ++
        [.dropped report]) = [] := by
      simp [Trace.tokens]
    rw [hnone, append_nil] at ht
    exact hshed.token.symm ▸ h.tokens t ht
  · rw [hempty.queue]
    simp
  · rw [hempty.queue]
    simp
  · exact fun i hi => hnames i (h.applied i (hshed.applied i hi))
  · intro i hi
    obtain ⟨hn, hle⟩ := h.visible i (hshed.visibleHeap i hi)
    exact ⟨hnames i hn, hshed.visible.symm ▸ hle⟩
  · rw [hempty.queue]
    change m'.count - _ = _
    rw [hshed.count]
    simp
  · have hb : (dropRecords m l report).2.bytes = 0 := by
      unfold Ledger.bytes
      rw [hempty.queue]
      rfl
    rw [hb]
    change m'.bytes - _ = _
    rw [hshed.bytes]
    simp [Ledger.bytes]
  · change (m'.free.length : Int) + m'.count = _
    rw [hshed.count, hshed.free]
    push_cast
    omega
  · rw [hnodes]
    change m'.pool.length + _ = _
    rw [hp, hpool.length_eq, length_append, length_nil]
    omega
  · have haway := hshed.away
    refine ⟨fun id' hne => ?_, haway.applied, haway.visibleHeap, haway.sequence, haway.token,
      haway.visible, haway.durable⟩
    rw [note_trace_ne _ hne]
    exact hshed.trace_ne id' hne
  · rw [Ledger.sized_iff, hsize, hexact]
    unfold Ledger.sizeLocked
    rw [htr, hext, hnil]
    exact ⟨rfl, rfl⟩

section

variable (h : Local payload m id l)
include h

/-- A file stops serving its records; `buffer.go:872–879`. -/
theorem Local.detach :
    Moves payload id m l { m with pool := (l.detach m.pool).2 } (l.detach m.pool).1 ∧
      (l.detach m.pool).1.Sized := by
  obtain ⟨hover, hsized, hnodes⟩ := l.overlayOk_detach h.overlay m.pool
  have hg : l.Relabels fun r => { r with inOverlay := false } := fun r _ => ⟨rfl, Iff.rfl⟩
  have hsame : Ledger.SameBooks (l.relabel fun r => { r with inOverlay := false }) (l.detach m.pool).1 :=
    ⟨rfl, rfl, rfl, rfl⟩
  have hnames : ∀ i, m.Names id l.queue i → m.Names id (l.detach m.pool).1.queue i := by
    intro i hi hf
    refine ⟨(hi hf).1, fun r hr heq => ?_⟩
    obtain ⟨a, ha, rfl⟩ := mem_map.mp hr
    exact (hi hf).2 a ha heq
  have hrecords := Ledger.records_relabel hg
  have hlen := congrArg List.length hrecords
  rw [length_map, length_map] at hlen
  refine ⟨⟨⟨hsame.queueOk (h.queue.relabel hg), hsame.streamOk (h.stream.relabel h.queue hg), hover,
    h.tokens, ?_, ?_, fun i hi => hnames i (h.applied i hi),
    fun i hi => ⟨hnames i (h.visible i hi).1, (h.visible i hi).2⟩⟩, ⟨?_, ?_, rfl, ?_⟩,
    ⟨fun _ _ => rfl, fun i hi => .inl hi, fun i hi => .inl hi, le_rfl, le_rfl,
      le_rfl, le_rfl⟩⟩, hsized⟩
  · intro r hr
    obtain ⟨a, ha, rfl⟩ := mem_map.mp hr
    exact h.covers a ha
  · intro r hr
    obtain ⟨a, ha, rfl⟩ := mem_map.mp hr
    exact h.stamped a ha
  · change m.count - _ = _
    rw [hsame.queue, hlen]
  · have hb : (l.detach m.pool).1.bytes = l.bytes := Ledger.bytes_congr (hsame.queue ▸ hrecords)
    rw [hb]
  · have hlength := hnodes.length_eq
    rw [length_append, length_append] at hlength
    change (l.detach m.pool).2.length + _ = _
    omega

/-- Books without a record hold nothing at all. -/
theorem Local.empty (hq : l.queue = []) : l.Empty ∧ l.extents.root = .nil := by
  have happ := l.settled_append
  rw [hq, append_eq_nil_iff] at happ
  have hacc : l.accepted = none := by
    rw [h.queue.pointer, happ.2]
    rfl
  have htodo : l.todo = [] := by
    unfold Ledger.todo
    rw [happ.2]
    rfl
  refine ⟨⟨hq, hacc, ?_, ?_⟩, ?_⟩
  · rcases h.stream.offset with h0 | ⟨r, tail, heq, -⟩
    · exact h0
    · rw [htodo] at heq
      cases heq
  · cases hp : l.pending with
    | none => rfl
    | some p =>
      obtain ⟨-, taken, rest, hc⟩ := h.stream.carries p hp
      have hf := hc.first
      rw [htodo] at hf
      cases hf
  have hshown : l.shown = [] := by
    unfold Ledger.shown
    rw [hq]
    rfl
  have hlayers := h.overlay.paints.layers
  rw [hshown] at hlayers
  have hnil := hlayers.eq_nil
  unfold ExtentMap.intervals at hnil
  rw [map_eq_nil_iff] at hnil
  cases hr : l.extents.root with
  | nil => rfl
  | node e ht s a b =>
    rw [hr] at hnil
    simp [Tree.toList] at hnil

/-- Books without a record may be replaced by other empty ones. -/
theorem Local.renew (hq : l.queue = []) (he : l'.Empty) (hok : l'.extents.Ok)
    (hnil : l'.extents.root = .nil) (ht : l'.truncates = []) : Moves payload id m l m l' := by
  obtain ⟨hempty, hroot⟩ := h.empty hq
  have hsame : Ledger.SameBooks l l' :=
    ⟨he.queue.trans hempty.queue.symm, he.accepted.trans hempty.accepted.symm,
      he.flushOffset.trans hempty.flushOffset.symm, he.pending.trans hempty.pending.symm⟩
  have hshown : l'.shown = [] := by
    unfold Ledger.shown
    rw [he.queue]
    rfl
  refine ⟨⟨hsame.queueOk h.queue, hsame.streamOk h.stream, ⟨?_, ?_⟩, h.tokens, hsame.queue ▸ h.covers,
    hsame.queue ▸ h.stamped, hsame.queue ▸ h.applied, hsame.queue ▸ h.visible⟩, ⟨?_, ?_, rfl, ?_⟩, .refl id m⟩
  · rw [hshown]
    exact .of_nil hok hnil
  · rw [hshown, ht]
    rfl
  · rw [hsame.queue]
  · unfold Ledger.bytes
    rw [hsame.queue]
  · unfold ExtentMap.nodes
    rw [hnil, hroot]

end

end PortableFS.Writeback
