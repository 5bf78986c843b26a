import PortableFS.Writeback.Invariant

/-!
# Steps that lose nothing

Most steps of the buffer only extend the histories, and by events of a kind that is known. What such
a step leaves alone is said here once: the loss counters, the barriers and the flags that calls of
`FlushIdentity` hold.
-/

namespace PortableFS.Writeback

open PortableFS.Base

/-- The event belongs to no flush and loses nothing: a record came, or it left without a drop. -/
def Event.Idle : Event → Prop
  | .accepted _ => True
  | .left _ (.watermark _ _) => True
  | .left _ (.fsync _) => True
  | _ => False

/-- The event loses nothing. -/
def Event.Lossless : Event → Prop
  | .left _ (.dropped _) => False
  | .dropped _ => False
  | _ => True

variable {e : Event}

theorem Event.Idle.lossless (h : e.Idle) : e.Lossless := by
  cases e with
  | left r cause => cases cause <;> trivial
  | dropped report => cases h
  | _ => trivial

/-- Histories only grow, by events of a kind, and no loss is counted. -/
structure Mount.Extends (P : Event → Prop) (m m' : Mount) : Prop where
  trace : ∀ id, ∃ new, m'.trace id = m.trace id ++ new ∧ ∀ e ∈ new, P e
  loss : m'.loss = m.loss

namespace Mount.Extends

variable {P : Event → Prop} {m m' : Mount}

/-- The histories and the loss counter are the same. -/
theorem of_eq (ht : m'.trace = m.trace) (hl : m'.loss = m.loss) : Extends P m m' :=
  ⟨fun id => ⟨[], by rw [ht, List.append_nil], List.forall_mem_nil _⟩, hl⟩

theorem refl (m : Mount) : Extends P m m := of_eq rfl rfl

theorem trans {m'' : Mount} (h : Extends P m m') (h' : Extends P m' m'') : Extends P m m'' where
  trace id := by
    obtain ⟨new, hn, hp⟩ := h.trace id
    obtain ⟨new', hn', hp'⟩ := h'.trace id
    refine ⟨new ++ new', by rw [hn', hn, List.append_assoc], fun e he => ?_⟩
    exact (List.mem_append.mp he).elim (hp e) (hp' e)
  loss := h'.loss.trans h.loss

theorem mono {Q : Event → Prop} (h : Extends P m m') (hpq : ∀ e, P e → Q e) : Extends Q m m' where
  trace id := by
    obtain ⟨new, hn, hp⟩ := h.trace id
    exact ⟨new, hn, fun e he => hpq e (hp e he)⟩
  loss := h.loss

/-- One more event of one identity. -/
theorem note (ht : m'.trace = m.trace) (hl : m'.loss = m.loss) (id : Identity)
    (he : P e) : Extends P m (m'.note id e) where
  trace id' := by
    by_cases h : id' = id
    · subst h
      exact ⟨[e], by rw [m'.note_trace, ht], fun e' he' => List.mem_singleton.mp he' ▸ he⟩
    · exact ⟨[], by rw [m'.note_trace_ne h, ht, List.append_nil], List.forall_mem_nil _⟩
  loss := hl

/-- Records that leave. -/
theorem of_shed {id : Identity} {cause : Cause} {gone : List Retained}
    (h : Mount.Shed id cause gone m m') (hc : ∀ r, P (.left r cause)) : Extends P m m' where
  trace id' := by
    by_cases hid : id' = id
    · subst hid
      refine ⟨_, h.trace, fun e he => ?_⟩
      obtain ⟨r, -, rfl⟩ := List.mem_map.mp he
      exact hc r
    · exact ⟨[], by rw [h.trace_ne id' hid, List.append_nil], List.forall_mem_nil _⟩
  loss := h.loss

end Mount.Extends

namespace Buffer

/-- The step adds events of a kind to the histories and leaves loss counters and barriers alone; a
cancelled context stays cancelled. -/
structure Quiet (P : Event → Prop) (b b' : Buffer) : Prop where
  mount : b.mount.Extends P b'.mount
  lastLoss : ∀ id, (b'.fileOf id).lastLoss = (b.fileOf id).lastLoss
  barriers : b'.barriers = b.barriers
  cancelled : b.cancelled = true → b'.cancelled = true

namespace Quiet

variable {P : Event → Prop}

theorem refl (b : Buffer) : Quiet P b b := ⟨.refl _, fun _ => rfl, rfl, id⟩

variable {b : Buffer} {b' : Buffer}

theorem trans {b'' : Buffer} (h : Quiet P b b') (h' : Quiet P b' b'') : Quiet P b b'' where
  mount := h.mount.trans h'.mount
  lastLoss id := (h'.lastLoss id).trans (h.lastLoss id)
  barriers := h'.barriers.trans h.barriers
  cancelled hc := h'.cancelled (h.cancelled hc)

theorem mono {Q : Event → Prop} (h : Quiet P b b') (hpq : ∀ e, P e → Q e) : Quiet Q b b' :=
  { h with mount := h.mount.mono hpq }

/-- A file is stored with its loss counter unchanged. -/
theorem put {id : Identity} {m : Mount} {f : File} (hm : b.mount.Extends P m)
    (hl : f.lastLoss = (b.fileOf id).lastLoss) : Quiet P b (b.put id m f) where
  mount := hm
  lastLoss id' := by
    rw [fileOf_put]
    split
    · next heq => rw [hl, heq]
    · rfl
  barriers := rfl
  cancelled h := h

end Quiet

/-- No retained record was taken out of the overlay. -/
def Laid (b : Buffer) : Prop := ∀ id, ∀ r ∈ (b.ledger id).queue, r.inOverlay = true

theorem ledger_put (b : Buffer) (id id' : Identity) (m : Mount) (f : File) :
    (b.put id m f).ledger id' = if id' = id then f.toLedger else b.ledger id' := by
  unfold ledger
  rw [fileOf_put]
  split <;> rfl

variable {b : Buffer} {id : Identity} {m : Mount} {f : File}

theorem Laid.put (h : b.Laid)
    (hf : (∀ r ∈ (b.ledger id).queue, r.inOverlay = true) → ∀ r ∈ f.queue, r.inOverlay = true) :
    (b.put id m f).Laid := by
  intro id' r hr
  rw [ledger_put] at hr
  split at hr
  · exact hf (h id) r hr
  · exact h id' r hr

variable {b' : Buffer}

theorem Laid.congr (h : b.Laid) (hf : b'.files = b.files) : b'.Laid := by
  intro id r hr
  unfold ledger fileOf at hr
  rw [hf] at hr
  exact h id r hr

/-- A step that keeps the invariant, adds only idle events and does not touch the flags that calls of
`FlushIdentity` hold. -/
structure Idles (b b' : Buffer) : Prop where
  inv : b'.Inv
  quiet : Quiet Event.Idle b b'
  flushing : ∀ id, (b'.fileOf id).flushing = (b.fileOf id).flushing

theorem Idles.refl (h : b.Inv) : Idles b b := ⟨h, .refl b, fun _ => rfl⟩

variable {b'' : Buffer}

theorem Idles.trans (h : Idles b b') (h' : Idles b' b'') : Idles b b'' :=
  ⟨h'.inv, h.quiet.trans h'.quiet, fun id => (h'.flushing id).trans (h.flushing id)⟩

/-- A file is stored with its loss counter and its flag unchanged. -/
theorem Idles.put (hi : (b.put id m f).Inv)
    (hm : b.mount.Extends Event.Idle m) (hl : f.lastLoss = (b.fileOf id).lastLoss)
    (hf : f.flushing = (b.fileOf id).flushing) : Idles b (b.put id m f) := by
  refine ⟨hi, .put hm hl, fun id' => ?_⟩
  rw [fileOf_put]
  split
  · next heq => rw [hf, heq]
  · rfl

/-- The step moreover leaves the overlay to the records that it retains. -/
structure Keeps (b b' : Buffer) : Prop extends Idles b b' where
  laid : b.Laid → b'.Laid

theorem Keeps.refl (h : b.Inv) : Keeps b b := ⟨.refl h, id⟩

theorem Keeps.trans (h : Keeps b b') (h' : Keeps b' b'') : Keeps b b'' :=
  ⟨h.toIdles.trans h'.toIdles, fun hl => h'.laid (h.laid hl)⟩

/-- Everything but the files, the mount and the barriers may differ. -/
theorem Keeps.of_parts {b₁ : Buffer} (h : Keeps b b₁) (hi : b'.Inv) (hm : b'.mount = b₁.mount)
    (hf : b'.files = b₁.files) (hb : b'.barriers = b₁.barriers)
    (hc : b₁.cancelled = true → b'.cancelled = true) : Keeps b b' := by
  have hfile : ∀ id, b'.fileOf id = b₁.fileOf id := by
    intro id
    unfold fileOf
    rw [hf]
  exact ⟨⟨hi, ⟨hm ▸ h.quiet.mount, fun id => hfile id ▸ h.quiet.lastLoss id, hb ▸ h.quiet.barriers,
    fun hx => hc (h.quiet.cancelled hx)⟩, fun id => hfile id ▸ h.flushing id⟩,
    fun hl => (h.laid hl).congr hf⟩

/-- A step of a call of `FlushIdentity`: nothing is lost. -/
structure Flies (b b' : Buffer) : Prop where
  inv : b'.Inv
  quiet : Quiet Event.Lossless b b'
  laid : b.Laid → b'.Laid

theorem Keeps.flies (h : Keeps b b') : Flies b b' :=
  ⟨h.inv, h.quiet.mono fun _ => Event.Idle.lossless, h.laid⟩

theorem Flies.refl (h : b.Inv) : Flies b b := ⟨h, .refl b, id⟩

theorem Flies.trans (h : Flies b b') (h' : Flies b' b'') : Flies b b'' :=
  ⟨h'.inv, h.quiet.trans h'.quiet, fun hl => h'.laid (h.laid hl)⟩

end Buffer
end PortableFS.Writeback
