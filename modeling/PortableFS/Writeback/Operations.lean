import PortableFS.Writeback.Quiet
import PortableFS.Writeback.System

/-!
# What the operations of the buffer keep

Every critical section keeps the invariant, and all of them but a drop, a `Forget` and the sections
of `FlushIdentity` are quiet. An admission finds a free record and two free extent nodes.
-/

namespace PortableFS.Writeback

open PortableFS.Base List

namespace Ledger

/-- The size depends on the overlay alone. -/
theorem Sized.congr {l l' : Ledger} (h : l.Sized) (he : l'.extents = l.extents)
    (ht : l'.truncates = l.truncates) (hs : l'.size = l.size) (hx : l'.exact = l.exact) :
    l'.Sized := by
  rw [sized_iff] at h ⊢
  unfold sizeLocked at h ⊢
  rw [he, ht, hs, hx]
  exact h

end Ledger

namespace Buffer

variable {b : Buffer} {id : Identity} {f : File}

/-- A file is stored with the books it had. -/
theorem SameCore.put (h : f.toLedger = b.ledger id) : SameCore b (b.put id b.mount f) where
  width := rfl
  payload := rfl
  maxEntries := rfl
  maxBytes := rfl
  mount := rfl
  ledger id' := by
    rw [ledger_put]
    split
    · next heq => rw [h, heq]
    · rfl
  active := rfl
  arenas := rfl

theorem Inv.same {b' : Buffer} (h : b.Inv) (hc : SameCore b b') (hs : b'.stopped = b.stopped)
    (hd : b'.done = b.done) (hx : b'.cancelled = b.cancelled) : b'.Inv :=
  h.frame hc (fun h' => hs.trans h') (fun h' => hd.trans h') (fun h' => hx.trans (h.done (hd ▸ h')))
    (fun h' => hs.trans (h.cancelled (hx ▸ h')))

theorem Inv.put (h : b.Inv) (hf : f.toLedger = b.ledger id) : (b.put id b.mount f).Inv :=
  h.same (.put hf) rfl rfl rfl

theorem SameCore.of_put (b : Buffer) (id : Identity) (m : Mount) (f : File) :
    SameCore (b.putLedger id m f.toLedger) (b.put id m f) where
  width := rfl
  payload := rfl
  maxEntries := rfl
  maxBytes := rfl
  mount := rfl
  ledger id' := by rw [ledger_putLedger, ledger_put]
  active := rfl
  arenas := rfl

variable {m : Mount} {l : Ledger}

/-- The rest of a file does not matter to the invariant. -/
theorem Inv.stored (h : (b.putLedger id m l).Inv) (hf : f.toLedger = l) : (b.put id m f).Inv := by
  subst hf
  exact h.same (.of_put b id m f) rfl rfl rfl

/-- Flags of one file change. -/
theorem Inv.put_keeps (h : b.Inv) (hf : f.toLedger = b.ledger id)
    (hl : f.lastLoss = (b.fileOf id).lastLoss) (hfl : f.flushing = (b.fileOf id).flushing) :
    Keeps b (b.put id b.mount f) :=
  ⟨.put (h.put hf) (.refl _) hl hfl, fun hlaid => hlaid.put fun hq => by rw [hf]; exact hq⟩

variable {g : File → File}

theorem Inv.update_keeps (h : b.Inv) (id : Identity)
    (hg : ∀ f, (g f).toLedger = f.toLedger) (hl : ∀ f, (g f).lastLoss = f.lastLoss)
    (hf : ∀ f, (g f).flushing = f.flushing) : Keeps b (b.update id g) :=
  h.put_keeps (hg _) (hl _) (hf _)

theorem Inv.touch_keeps (h : b.Inv) (id : Identity) : Keeps b (b.touch id) :=
  h.update_keeps id (fun _ => rfl) (fun _ => rfl) fun _ => rfl

theorem Inv.updateEach_keeps (hg : ∀ f, (g f).toLedger = f.toLedger)
    (hl : ∀ f, (g f).lastLoss = f.lastLoss) (hf : ∀ f, (g f).flushing = f.flushing)
    (ids : List Identity) (h : b.Inv) : Keeps b (b.updateEach g ids) := by
  induction ids generalizing b with
  | nil => exact .refl h
  | cons id ids ih =>
    have hone := h.update_keeps id hg hl hf
    exact hone.trans (ih hone.inv)

/-- Flags of the buffer change. -/
theorem Inv.flags_keeps (h : b.Inv) (kick retiringAll : Bool) :
    Keeps b { b with kick, retiringAll } :=
  (Keeps.refl h).of_parts (h.same ⟨rfl, rfl, rfl, rfl, rfl, fun _ => rfl, rfl, rfl⟩ rfl rfl rfl) rfl rfl rfl id

theorem Inv.trigger_keeps (h : b.Inv) : Keeps b b.trigger :=
  h.flags_keeps true b.retiringAll

/-- There are at most two extent nodes for each retained record. -/
theorem Inv.nodes_le (h : b.Inv) :
    b.total (fun l => l.extents.nodes.length) ≤ 2 * b.total fun l => l.queue.length := by
  have hone : ∀ id, (b.ledger id).extents.nodes.length ≤
      (b.ledger id).queue.length + (b.ledger id).queue.length := by
    intro id
    have hl := h.books id
    have hv : ∀ r ∈ (b.ledger id).shown, r.Valid := by
      intro r hr
      obtain ⟨a, ha, rfl⟩ := mem_map.mp hr
      exact hl.queue.valid a (mem_of_mem_filter ha)
    have hle := hl.overlay.paints.length_nodes_le hv
    have hfilter := length_filter_le Retained.inOverlay (b.ledger id).queue
    unfold Ledger.shown at hle
    rw [length_map] at hle
    omega
  have htotal := b.files.total_le_total (fun _ f => f.extents.nodes.length)
    (fun _ f => f.queue.length + f.queue.length) fun id f hf => by
      have hid := hone id
      unfold ledger fileOf at hid
      rw [hf] at hid
      exact hid
  rw [Assoc.total_add] at htotal
  rw [Nat.two_mul]
  exact htotal

/-- While admissions are open there are free records below the bound, and two free nodes. -/
theorem Inv.storage_open (h : b.Inv) (hs : b.stopped = false) :
    (b.mount.free.length : Int) + b.mount.count = b.maxEntries ∧ 2 ≤ b.mount.pool.length := by
  have ha : b.arenas = true := by
    by_contra hne
    have hst := (h.storage.released (Bool.eq_false_iff.mpr hne)).1
    exact Bool.false_ne_true (hs.symm.trans hst)
  have hr := h.storage.records
  have hn := h.storage.nodes
  rw [ha, if_pos rfl] at hr hn
  have hle := h.nodes_le
  have hc := h.count
  exact ⟨hr, by omega⟩

theorem hasSize_resolve (a : Attributes) (now : Int) : (a.resolve now).hasSize = a.hasSize := by
  unfold Attributes.resolve
  dsimp only
  split <;> split <;> rfl

section

variable (h : b.Inv)
include h

variable {kind : Kind} {off : Nat} {data : List UInt8} {a : Attributes}

theorem Inv.accept_keeps (hs : b.stopped = false) (hroom : b.hasRoom id data = true)
    (hv : kind = .write → data ≠ [] ∧ off + data.length ≤ maxInt64 ∧ a.hasSize = false) (now : Int)
    (opts : WriteOptions) : ∃ b', b.accept now id kind off data a opts = some b' ∧ Keeps b b' := by
  unfold hasRoom at hroom
  simp only [Bool.and_eq_true, decide_eq_true_eq] at hroom
  obtain ⟨⟨⟨-, hcount⟩, -⟩, hbytes⟩ := hroom
  obtain ⟨hfree, hpool⟩ := h.storage_open hs
  unfold accept
  cases hfr : b.mount.free with
  | nil =>
    rw [hfr, length_nil] at hfree
    omega
  | cons slot free =>
    dsimp only
    generalize hr : Record.mk slot (b.mount.sequence + 1) (b.fileOf id).generation now kind off data
      (a.resolve now) opts = r
    have hseq : r.seq = b.mount.sequence + 1 := by rw [← hr]
    have hdata : r.data = data := by rw [← hr]
    have hvalid : r.Valid := by
      refine ⟨by omega, ?_, ?_, ?_⟩ <;> rw [← hr] <;> intro hk <;> obtain ⟨h1, h2, h3⟩ := hv hk
      · exact h1
      · exact h2
      · exact (hasSize_resolve a now).trans h3
    have hl := h.books id
    obtain ⟨l, pool, heq, hover, hsized, hsame, hnodes⟩ :=
      Ledger.overlay_link hl.overlay hvalid hpool
    have heq' : overlay ((b.fileOf id).link r) b.mount.pool r = some (l, pool) := heq
    rw [heq']
    have hmoves := hl.accept hvalid hseq hfr hover hsame hnodes
    rw [hdata, hseq] at hmoves
    have hext : b.mount.Extends Event.Idle (Mount.note { b.mount with
        free, pool, sequence := b.mount.sequence + 1, count := b.mount.count + 1
        bytes := b.mount.bytes + data.length } id (.accepted r)) :=
      .note (by rfl) (by rfl) id trivial
    have hinv := (h.activate id).move hmoves hsized (fun _ => mem_insert_self)
      (by change b.mount.count + 1 ≤ (b.maxEntries : Int); omega)
      (by change b.mount.bytes + data.length ≤ (b.maxBytes : Int); omega)
    have hact := (Keeps.refl h).of_parts (h.activate id) rfl rfl rfl fun hc => hc
    have hlaid : ∀ r' ∈ l.queue, r' ∈ (b.ledger id).queue ∨ r' = r.fresh := by
      intro r' hr'
      rw [hsame.queue] at hr'
      exact (mem_append.mp hr').imp_right mem_singleton.mp
    refine ⟨_, rfl, hact.trans ?_⟩
    refine Keeps.trans ⟨Idles.put (hinv.stored ?_) hext ?_ ?_, fun hl => hl.put fun hq r' hr' => ?_⟩
      (Inv.trigger_keeps (hinv.stored ?_))
    · rfl
    · rfl
    · rfl
    · exact (hlaid r' hr').elim (hq r') fun heq => by rw [heq]; rfl
    · rfl

/-- An attempt to admit never panics. -/
theorem Inv.admit_keeps (env : Env) (id : Identity) (generation : Nat)
    (hv : kind = .write → data ≠ [] ∧ off + data.length ≤ maxInt64 ∧ a.hasSize = false)
    (opts : WriteOptions) :
    ∃ b' out, b.admitOp env id generation kind off data a opts = some (b', out) ∧ Keeps b b' := by
  unfold admitOp
  split
  · exact ⟨_, _, rfl, .refl h⟩
  split
  · exact ⟨_, _, rfl, .refl h⟩
  next hs =>
  split
  · exact ⟨_, _, rfl, .refl h⟩
  have ht := h.touch_keeps id
  dsimp only
  split
  · exact ⟨_, _, rfl, ht⟩
  split
  · next hroom =>
    obtain ⟨b', heq, hk⟩ := ht.inv.accept_keeps (Bool.eq_false_iff.mpr hs) hroom hv env.now opts
    rw [heq]
    exact ⟨_, _, rfl, ht.trans hk⟩
  · split
    · exact ⟨_, _, rfl, ht.trans ht.inv.trigger_keeps⟩
    · exact ⟨_, _, rfl, ht⟩

theorem Inv.writeInGeneration_keeps (env : Env) (id : Identity) (generation : Nat)
    (off : Int) (data : List UInt8) (opts : WriteOptions) :
    ∃ b' out, b.writeInGeneration env id generation off data opts = some (b', out) ∧ Keeps b b' := by
  unfold writeInGeneration
  split
  · exact ⟨_, _, rfl, .refl h⟩
  · next hn =>
    simp only [not_or, Int.not_lt] at hn
    refine h.admit_keeps env id generation (fun _ => ⟨hn.2.1, ?_, rfl⟩) opts
    omega

theorem Inv.truncateInGeneration_keeps (env : Env) (id : Identity) (generation : Nat) (size : Int) :
    ∃ b' out, b.truncateInGeneration env id generation size = some (b', out) ∧ Keeps b b' := by
  unfold truncateInGeneration
  split
  · exact ⟨_, _, rfl, .refl h⟩
  · exact h.admit_keeps env id generation (fun hk => Kind.noConfusion hk) _

theorem Inv.setAttrInGeneration_keeps (env : Env) (id : Identity) (generation : Nat)
    (a : Attributes) :
    ∃ b' out, b.setAttrInGeneration env id generation a = some (b', out) ∧ Keeps b b' := by
  unfold setAttrInGeneration
  split
  · exact ⟨_, _, rfl, .refl h⟩
  · exact h.admit_keeps env id generation (fun hk => Kind.noConfusion hk) _

/-- A step of one file that brings no new record. -/
theorem Inv.shrink (hm : Moves b.batchPayload id b.mount (b.ledger id) m l) (hs : l.Sized)
    (hq : (l.queue.map Retained.record).Sublist ((b.ledger id).queue.map Retained.record)) :
    (b.putLedger id m l).Inv := by
  have hlen := hq.length_le
  rw [length_map, length_map] at hlen
  have hbytes : l.bytes ≤ (b.ledger id).bytes := by
    have hsub := (hq.map fun r => r.data.length).sum_le_sum fun _ _ => Nat.zero_le _
    rw [map_map, map_map] at hsub
    exact hsub
  have hc := hm.balance.count
  have hb := hm.balance.bytes
  have he := h.entries_le
  have hbe := h.bytes_le
  refine h.move hm hs (fun hne => h.active id ?_) (by omega) (by omega)
  intro hnil
  rw [hnil, length_nil] at hlen
  exact hne (length_eq_zero_iff.mp (Nat.le_zero.mp hlen))

/-- Raised watermarks change nothing else. -/
theorem Inv.watermark_keeps {visible durable : Nat} (hv : b.mount.visible ≤ visible)
    (hd : b.mount.durable ≤ durable) :
    Keeps b { b with mount := { b.mount with visible, durable } } := by
  refine ⟨⟨{ h with
    books := fun id => ?_
    storage := ⟨h.storage.records, h.storage.nodes, h.storage.released⟩ }, ⟨.of_eq rfl rfl, fun _ => rfl, rfl, id⟩, fun _ => rfl⟩,
    fun hl => hl.congr rfl⟩
  have hl := h.books id
  exact
    { hl with
      covers := fun r hr => (hl.covers r hr).mono hv hd
      applied := fun i hi => hl.applied i hi
      visible := fun i hi => ⟨(hl.visible i hi).1, Nat.le_trans (hl.visible i hi).2 hv⟩ }

/-- Records change their states and no event is added. -/
theorem Inv.setState_keeps {seq : Nat} {state : State}
    (hm : Moves b.batchPayload id b.mount (b.ledger id) m ((b.ledger id).setState seq state))
    (ht : m.trace = b.mount.trace) (hl : m.loss = b.mount.loss) :
    Keeps b (b.putLedger id m ((b.ledger id).setState seq state)) := by
  refine ⟨.put (h.shrink hm ((h.sized id).congr rfl rfl rfl rfl) ?_) (.of_eq ht hl) rfl rfl,
    fun hlaid => hlaid.put fun hq r hr => ?_⟩
  · have hrec : ((b.ledger id).setState seq state).queue.map Retained.record =
        (b.ledger id).queue.map Retained.record := by
      unfold Ledger.setState
      rw [map_map]
      apply map_congr_left
      intro r _
      change (if r.record.seq = seq then { r with state } else r).record = r.record
      split <;> rfl
    rw [hrec]
  · obtain ⟨a, ha, rfl⟩ := mem_map.mp hr
    split <;> exact hq a ha

end

theorem Inv.raiseVisible_keeps (n : Nat) (h : b.Inv) : Keeps b (b.raiseVisible n) := by
  induction n generalizing b with
  | zero => exact .refl h
  | succ n ih =>
    unfold raiseVisible
    split
    · exact .refl h
    next top rest heap =>
    split
    · next hle =>
      have hmem : top ∈ b.mount.appliedHeap := heap ▸ mem_cons_self
      have hk := h.setState_keeps ((h.books top.file).raise hmem hle) rfl rfl
      exact hk.trans (ih hk.inv)
    · exact .refl h

end Buffer

variable {id : Identity}

/-- Setting the size of the file is no step of its books. -/
theorem Local.resize {payload : Nat} {m : Mount} {l : Ledger}
    (h : Local payload m id l) : Moves payload id m l m l.sizeLocked := by
  have hsame : Ledger.SameBooks l l.sizeLocked := ⟨rfl, rfl, rfl, rfl⟩
  exact ⟨⟨hsame.queueOk h.queue, hsame.streamOk h.stream, ⟨h.overlay.paints, h.overlay.truncates⟩,
    h.tokens, h.covers, h.stamped, h.applied, h.visible⟩, .of_records rfl rfl rfl rfl rfl rfl, .refl id m⟩

namespace Buffer

variable {b : Buffer}

/-- Releasing applied records from the head of a file. -/
theorem Inv.releaseHeads_keeps (h : b.Inv) (id : Identity) (cause : Cause)
    (hc : ∀ r, Event.Idle (.left r cause)) {p : Retained → Bool}
    (hp : ∀ r ∈ (b.ledger id).queue.takeWhile p, r.state ≠ .accepted ∧ Trace.Admits r cause) :
    Keeps b (b.releaseHeads id cause p) := by
  have hmoves := Local.releaseWhile (l := b.ledger id) cause (b.ledger id).queue (h.books id) hp
  have hshed := releaseWhile_shed id cause p (b.ledger id).queue b.mount (b.ledger id)
  have hbooks := releaseWhile_books id cause p (b.ledger id).queue b.mount (b.ledger id)
  have heq : b.releaseHeads id cause p =
      let s := releaseWhile id cause p (b.ledger id).queue (b.mount, b.ledger id)
      { b with active := if s.2.queue.isEmpty then b.active.erase id else b.active }.putLedger id s.1
        s.2.sizeLocked := rfl
  rw [heq]
  generalize releaseWhile id cause p (b.ledger id).queue (b.mount, b.ledger id) = s at *
  have hq : s.2.queue = (b.ledger id).queue.dropWhile p := hbooks.queue
  have hinv := h.shrink (hmoves.trans hmoves.ok.resize) s.2.sized_sizeLocked (by
    change (s.2.queue.map Retained.record).Sublist _
    rw [hq]
    exact (dropWhile_sublist p).map _)
  have hkeeps : Keeps b (b.putLedger id s.1 s.2.sizeLocked) := by
    refine ⟨.put hinv (.of_shed hshed hc) rfl rfl, fun hl => hl.put fun hall r hr => hall r ?_⟩
    change r ∈ s.2.queue at hr
    rw [hq] at hr
    exact (dropWhile_sublist p).mem hr
  refine hkeeps.of_parts ?_ rfl rfl rfl fun hx => hx
  dsimp only
  split
  · next hempty =>
    have hnil : ((b.putLedger id s.1 s.2.sizeLocked).ledger id).queue = [] := by
      rw [ledger_putLedger, if_pos rfl]
      exact isEmpty_iff.mp hempty
    exact hinv.deactivate hnil
  · exact hinv

theorem Inv.raiseDurable_keeps (n : Nat) (h : b.Inv) : Keeps b (b.raiseDurable n) := by
  induction n generalizing b with
  | zero => exact .refl h
  | succ n ih =>
    unfold raiseDurable
    split
    · exact .refl h
    next top rest heap =>
    split
    · next hle =>
      have hmem : top ∈ b.mount.visibleHeap := heap ▸ mem_cons_self
      have hk := h.setState_keeps ((h.books top.file).settle hmem hle) rfl rfl
      have hr := hk.inv.releaseHeads_keeps top.file (.watermark b.mount.visible b.mount.durable)
        (p := fun r => decide (r.state = .durable)) (fun _ => trivial) fun r hr => by
          have hd : r.state = .durable := by simpa using mem_takeWhile_imp hr
          have hcov := (hk.inv.books top.file).covers r ((takeWhile_sublist _).mem hr)
          exact ⟨by rw [hd]; simp, hd, hcov.2 hd⟩
      exact hk.trans (hr.trans (ih hr.inv))
    · exact .refl h

theorem Inv.advanceLocked_keeps (h : b.Inv) : Keeps b b.advanceLocked := by
  have hk := h.raiseVisible_keeps b.mount.appliedHeap.length
  exact hk.trans (hk.inv.raiseDurable_keeps _)

theorem Inv.visibleSequence_keeps (h : b.Inv) (seq : Nat) : Keeps b (b.visibleSequence seq) := by
  have hk := h.watermark_keeps (le_max_left b.mount.visible seq) le_rfl
  exact hk.trans hk.inv.advanceLocked_keeps

theorem Inv.durableSequence_keeps (h : b.Inv) (seq : Nat) : Keeps b (b.durableSequence seq) := by
  have hk := h.watermark_keeps le_rfl (le_max_left b.mount.durable seq)
  exact hk.trans hk.inv.advanceLocked_keeps

variable {f : File}

theorem fileOf_of_lookup (h : b.files.lookup id = some f) : b.fileOf id = f := by
  unfold fileOf
  rw [h]
  rfl

theorem Inv.durableIdentity_keeps (h : b.Inv) (id : Identity) (cut : Cut) :
    Keeps b (b.durableIdentity id cut).1 := by
  unfold durableIdentity
  split
  · exact .refl h
  next f hf =>
  split
  · exact .refl h
  split
  · exact .refl h
  next hany =>
  refine h.releaseHeads_keeps id (.fsync cut) (fun _ => trivial) fun r hr => ?_
  have hq : (b.ledger id).queue = f.queue := by
    unfold ledger
    rw [fileOf_of_lookup hf]
  rw [hq] at hr
  have hstate : r.state ≠ .accepted := by
    intro hacc
    exact hany (any_eq_true.mpr ⟨r, hr, by simp [hacc]⟩)
  have hle : r.record.seq ≤ cut.sequence := by simpa using mem_takeWhile_imp hr
  exact ⟨hstate, hstate, hle⟩

/-- A drop leaves its file without records. -/
theorem Inv.dropLocked (h : b.Inv) (id : Identity) (reason : String) (errno : Nat) :
    (b.dropLocked id reason errno).1.Inv := by
  unfold Buffer.dropLocked
  dsimp only
  generalize hr : ({ errno, identity := id, reason
                     bytes := ((b.fileOf id).queue.map fun r => r.record.data.length).sum
                     entries := (b.fileOf id).queue.length
                     lossSequence := b.mount.loss + 1 } : DropReport) = report
  have hid : report.identity = id := by rw [← hr]
  obtain ⟨hmoves, hsized⟩ := (hid ▸ h.books id : Local b.batchPayload b.mount report.identity
    (b.ledger id)).drop
  obtain ⟨m', -, -, -, hempty, -⟩ := dropRecords_spec (m := b.mount) (h.books id).overlay.paints.ok report
  rw [hid] at hmoves
  have hinv := h.shrink hmoves hsized (by rw [hempty.queue]; exact nil_sublist _)
  have hnil : ((b.putLedger id (dropRecords b.mount (b.ledger id) report).1
      (dropRecords b.mount (b.ledger id) report).2).ledger id).queue = [] := by
    rw [ledger_putLedger, if_pos rfl]
    exact hempty.queue
  refine (hinv.deactivate hnil).same ⟨rfl, rfl, rfl, rfl, rfl, fun id' => ?_, rfl, rfl⟩ rfl rfl rfl
  rw [ledger_put]
  exact (ledger_putLedger b id id' (dropRecords b.mount (b.ledger id) report).1
    (dropRecords b.mount (b.ledger id) report).2).symm

theorem Inv.dropEach (reason : String) (ids : List Identity) (h : b.Inv) :
    (Buffer.dropEach reason ids b).1.Inv := by
  induction ids generalizing b with
  | nil => exact h
  | cons id ids ih =>
    unfold Buffer.dropEach
    split
    · exact ih h
    · exact ih (h.dropLocked id reason 0)

theorem Inv.batchLocked_flies (h : b.Inv) (id : Identity) (cut : Cut) :
    Flies b (b.batchLocked id cut).1 := by
  unfold batchLocked
  split
  · split <;> exact .refl h
  next hp =>
  split
  · exact .refl h
  next p token hf =>
  have hnew := Wave.form_spec h.width h.payload (h.books id).stream.offset hf
  have hmoves := (h.books id).form hp hnew
  have hinv := h.shrink hmoves ((h.sized id).congr rfl rfl rfl rfl) (List.Sublist.refl _)
  exact ⟨hinv.stored rfl, .put (.note (by rfl) (by rfl) id trivial) rfl, fun hl => hl.put fun hq => hq⟩

variable {p : Batch}

theorem batchLocked_pending {cut : Cut}
    (h : (b.batchLocked id cut).2 = some p) : ((b.batchLocked id cut).1.ledger id).pending = some p := by
  unfold batchLocked at h ⊢
  split at h
  · next q hq =>
    split at h
    · cases h
    · cases h
      rw [if_neg ‹_›]
      exact hq
  · split at h
    · cases h
    · next hf =>
      cases h
      unfold ledger
      rw [fileOf_put, if_pos rfl]

section

variable (h : b.Inv)
include h

theorem Inv.offer_flies (hp : (b.ledger id).pending = some p) :
    Flies b { b with mount := b.mount.note id (.offered p.entries) } := by
  have hinv := h.shrink ((h.books id).offer hp) (h.sized id) (List.Sublist.refl _)
  refine ⟨hinv.same ⟨rfl, rfl, rfl, rfl, rfl, fun id' => ?_, rfl, rfl⟩ rfl rfl rfl,
    ⟨.note rfl rfl id trivial, fun _ => rfl, rfl, fun hx => hx⟩, fun hl => hl.congr rfl⟩
  rw [ledger_putLedger]
  split
  · next he => rw [he]; rfl
  · rfl

theorem Inv.flushNext_flies (cancelled : Bool) (id : Identity) (cut : Cut)
    (applied : Nat) : Flies b (b.flushNext cancelled id cut applied).1 := by
  unfold flushNext
  split
  · exact .refl h
  split
  · exact .refl h
  have hb := h.batchLocked_flies id cut
  have hpend : ∀ p, (b.batchLocked id cut).2 = some p → _ := fun p => batchLocked_pending
  split
  · next b' heq =>
    rw [heq] at hb
    exact hb
  · next b' p heq =>
    rw [heq] at hb hpend
    exact hb.trans (hb.inv.offer_flies (hpend p rfl))

/-- A wave that is reported applied. -/
theorem Inv.applyWave_flies (hp : (b.ledger id).pending = some p) (seq : Nat) :
    Flies b (b.put id (applyWave id b.mount (b.ledger id) p seq).1
      { b.fileOf id with
        toLedger := (applyWave id b.mount (b.ledger id) p seq).2, lastApplied := seq }) := by
  obtain ⟨-, taken, rest, hc⟩ := (h.books id).stream.carries p hp
  obtain ⟨ts, rs, hu, rfl, rfl⟩ := Ledger.exists_split_of_carries hc
  have hmoves := (h.books id).applyWave hp seq
  have hle : (applyWave id b.mount (b.ledger id) p seq).2.queue.map Retained.record =
      (b.ledger id).queue.map Retained.record := by
    rw [(h.books id).applyWave_eq hu hc seq]
    exact Ledger.records_advance hu p _
  have hinv := h.shrink hmoves ((h.sized id).congr rfl rfl rfl rfl) (by rw [hle])
  refine ⟨hinv.stored rfl, .put ?_ rfl, fun hl => hl.put fun hq r hr => ?_⟩
  · rw [(h.books id).applyWave_eq hu hc seq]
    obtain ⟨as, index, heq, -⟩ := b.mount.pushEach_eq id (max p.applied seq) ts
    rw [heq]
    exact .note (by rfl) (by rfl) id trivial
  rw [(h.books id).applyWave_eq hu hc seq] at hr
  rcases (h.books id).queue.mem_advance hu hr with ⟨hr, -⟩ | ⟨t, ht, rfl⟩
  · exact hq r hr
  · refine hq t ?_
    rw [← (b.ledger id).settled_append, hu]
    exact mem_append_right _ (mem_append_left _ ht)

/-- Only a wave that is reported applied changes the books. -/
theorem Inv.flushReturn_flies (id : Identity) (cut : Cut)
    (applied floor : Nat) (entries : List Entry) (result : Except Error (List Nat)) :
    Flies b (b.flushReturn id cut applied floor entries result).1 := by
  unfold flushReturn
  dsimp only
  split
  · exact .refl h
  next p hp =>
  split
  · exact .refl h
  next seq hseq =>
  split
  · exact .refl h
  · have hf := h.applyWave_flies hp seq
    exact hf.trans hf.inv.advanceLocked_keeps.flies

/-- Flags of one file change, among them the one that the call holds. -/
theorem Inv.put_flies (hf : f.toLedger = b.ledger id)
    (hl : f.lastLoss = (b.fileOf id).lastLoss) : Flies b (b.put id b.mount f) :=
  ⟨h.put hf, .put (.refl _) hl, fun hlaid => hlaid.put fun hq => by rw [hf]; exact hq⟩

theorem Inv.flushEnter_flies (id : Identity) : Flies b (b.flushEnter id).1 := by
  unfold flushEnter
  dsimp only
  split <;> exact h.put_flies rfl rfl

theorem Inv.flushAwake_flies (cancelled : Bool) (id : Identity) :
    Flies b (b.flushAwake cancelled id).1 := by
  unfold flushAwake
  split
  · exact .refl h
  · split
    · exact .refl h
    · exact h.put_flies rfl rfl

theorem Inv.flushFinish_flies (id : Identity) : Flies b (b.flushFinish id) := by
  unfold flushFinish
  dsimp only
  split
  · have hf := h.put_flies (f := { b.fileOf id with flushing := false, reschedule := false }) rfl rfl
    exact hf.trans hf.inv.trigger_keeps.flies
  · exact h.put_flies rfl rfl

theorem Inv.flushLeave_keeps (id : Identity) : Keeps b (b.flushLeave id) :=
  h.update_keeps id (fun _ => rfl) (fun _ => rfl) fun _ => rfl

end

end Buffer
end PortableFS.Writeback
