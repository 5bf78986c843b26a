import PortableFS.Writeback.Losses

/-!
# Calls of `FlushIdentity` in flight

At most one call holds a file, and what it has handed to the transport is the wave that is open: a
failed attempt leaves the wave open, so the next attempt offers the same entries again.
-/

namespace PortableFS.Writeback

open PortableFS.Base Trace List

/-- The call holds its file. -/
def Phase.Holds : Phase → Prop
  | .running _ => True
  | .sending _ _ _ => True
  | .finishing _ _ => True
  | _ => False

namespace Trace

/-- Idle events do not concern the open wave. -/
theorem openWave_of_idle {new : List Event} (h : ∀ e ∈ new, e.Idle) (tr : List Event) :
    openWave (tr ++ new) = openWave tr := by
  induction new generalizing tr with
  | nil => rw [append_nil]
  | cons e new ih =>
    rw [← singleton_append, ← append_assoc, ih fun a ha => h a (mem_cons_of_mem e ha),
      openWave_append]
    have he := h e mem_cons_self
    cases e with
    | accepted r => rfl
    | left r cause => rfl
    | _ => cases he

variable {tr : List Event}

/-- Tokens are never used again. -/
theorem Disciplined.tokens_lt {payload : Nat} (h : Disciplined payload tr) :
    (tokens tr).Pairwise (· < ·) := by
  induction tr using List.reverseRecOn with
  | nil => exact List.Pairwise.nil
  | append_singleton tr e ih =>
    obtain ⟨htr, hnext⟩ := h.of_append
    rw [tokens_append]
    cases e with
    | formed cut es =>
      obtain ⟨-, -, -, -, hsorted, hnew⟩ := hnext
      have htok : tokens [.formed cut es] = es.map Entry.token := append_nil _
      rw [htok]
      refine pairwise_append.mpr ⟨ih htr, hsorted, fun t ht t' ht' => ?_⟩
      obtain ⟨e, he, rfl⟩ := mem_map.mp ht'
      exact hnew t ht e he
    | _ => exact (append_nil _).symm ▸ ih htr

/-- Without a drop the present epoch is the whole history. -/
theorem epoch_eq_self (h : ∀ report, Event.dropped report ∉ tr) : epoch tr = tr := by
  induction tr using List.reverseRecOn with
  | nil => rfl
  | append_singleton tr e ih =>
    have hne : ∀ report, e ≠ .dropped report := by
      rintro report rfl
      exact h report (mem_append_right _ (mem_singleton_self _))
    rw [epoch_append_of_ne tr hne, ih fun report hmem => h report (mem_append_left _ hmem)]

end Trace

/-- An applied record was sent to its last byte. -/
theorem Ledger.StreamOk.applied_sent {payload sequence : Nat} {tr : List Event} {l : Ledger}
    (h : l.StreamOk payload sequence tr) (hq : l.QueueOk sequence) {r : Retained} (hr : r ∈ l.queue)
    (hs : r.state ≠ .accepted) :
    ∃ front, front ++ [r.record] <+: Trace.accepted (epoch tr) ∧
      (front ++ [r.record]).flatMap Record.pieces <+:
        (reported (epoch tr)).flatMap Entry.pieces := by
  have hmem : r ∈ l.settled := by
    rw [← l.settled_append, mem_append] at hr
    exact hr.resolve_right fun hun => hs (hq.unsettled r hun)
  obtain ⟨a, b, hab⟩ := append_of_mem hmem
  refine ⟨left (epoch tr) ++ a.map Retained.record, ?_, ?_⟩
  · rw [h.records, ← l.settled_append, hab]
    exact ⟨b.map Retained.record ++ l.unsettled.map Retained.record, by simp⟩
  · rw [h.reported_eq, hab]
    exact ⟨(b.map Retained.record).flatMap Record.pieces ++
      (l.todo.flatMap Record.pieces).take l.flushOffset, by simp⟩

namespace Buffer

theorem flushEnter_spec (b : Buffer) (id : Identity) : (b.flushEnter id).1.mount = b.mount ∧
      (∀ id', ((b.flushEnter id).1.fileOf id').flushing =
        if id' = id then true else (b.fileOf id').flushing) ∧
      ((b.flushEnter id).2 = .waiting ∨
        (b.flushEnter id).2 = .running 0 ∧ (b.fileOf id).flushing = false) := by
  unfold flushEnter
  dsimp only
  split
  · next hf =>
    refine ⟨rfl, fun id' => ?_, .inl rfl⟩
    rw [fileOf_put]
    split
    · exact hf
    · rfl
  · next hf =>
    refine ⟨rfl, fun id' => ?_, .inr ⟨rfl, Bool.eq_false_iff.mpr hf⟩⟩
    rw [fileOf_put]
    split <;> rfl

theorem flushAwake_spec (b : Buffer) (cancelled : Bool) (id : Identity) :
    (b.flushAwake cancelled id).1.mount = b.mount ∧
      (¬ (b.flushAwake cancelled id).2.Holds ∧ (b.flushAwake cancelled id).1 = b ∨
        (b.flushAwake cancelled id).2 = .running 0 ∧ (b.fileOf id).flushing = false ∧
          ∀ id', ((b.flushAwake cancelled id).1.fileOf id').flushing =
            if id' = id then true else (b.fileOf id').flushing) := by
  unfold flushAwake
  split
  · exact ⟨rfl, .inl ⟨fun hh => hh, rfl⟩⟩
  split
  · exact ⟨rfl, .inl ⟨fun hh => hh, rfl⟩⟩
  next hf =>
  refine ⟨rfl, .inr ⟨rfl, Bool.eq_false_iff.mpr hf, fun id' => ?_⟩⟩
  unfold update
  rw [fileOf_put]
  split <;> rfl

theorem flushFinish_spec (b : Buffer) (id : Identity) : (b.flushFinish id).mount = b.mount ∧
      ∀ id', ((b.flushFinish id).fileOf id').flushing =
        if id' = id then false else (b.fileOf id').flushing := by
  have hfile : ∀ f : File, f.flushing = false → ∀ id', ((b.put id b.mount f).fileOf id').flushing =
      if id' = id then false else (b.fileOf id').flushing := by
    intro f hf id'
    rw [fileOf_put]
    split
    · exact hf
    · rfl
  unfold flushFinish
  dsimp only
  split
  · exact ⟨rfl, hfile { b.fileOf id with flushing := false, reschedule := false } rfl⟩
  · exact ⟨rfl, hfile { b.fileOf id with flushing := false } rfl⟩

variable {b : Buffer} {id : Identity} {p : Batch}

/-- A wave is offered: the open one, or a new one when none is open. -/
theorem batchLocked_spec (h : b.Inv) {cut : Cut} (hp : (b.batchLocked id cut).2 = some p) :
    (∀ id', ((b.batchLocked id cut).1.fileOf id').flushing = (b.fileOf id').flushing) ∧
      (∀ id', id' ≠ id → (b.batchLocked id cut).1.mount.trace id' = b.mount.trace id') ∧
      ((b.batchLocked id cut).1.mount.trace id = b.mount.trace id ∧
          openWave (b.mount.trace id) = some p.entries ∨
        (b.batchLocked id cut).1.mount.trace id = b.mount.trace id ++ [.formed cut p.entries] ∧
          openWave (b.mount.trace id) = none) := by
  have hwave := (h.books id).stream.wave
  change openWave (b.mount.trace id) = (b.fileOf id).pending.map Batch.entries at hwave
  unfold batchLocked at hp ⊢
  split at hp
  · next q hq =>
    split at hp
    · cases hp
    next hn =>
    cases hp
    rw [if_neg hn]
    refine ⟨fun _ => rfl, fun _ _ => rfl, .inl ⟨rfl, ?_⟩⟩
    rw [hwave, hq]
    rfl
  · next hnone =>
    split at hp
    · cases hp
    next q token hf =>
    cases hp
    refine ⟨fun id' => ?_, fun id' hne => Mount.note_trace_ne _ hne _,
      .inr ⟨Mount.note_trace .., ?_⟩⟩
    · rw [fileOf_put]
      split
      · next heq => rw [heq]
      · rfl
    · rw [hwave, hnone]
      rfl

/-- One round up to the transport call: it gives up, or it offers the open wave. -/
theorem flushNext_spec (h : b.Inv) (cancelled : Bool) (id : Identity) (cut : Cut) (applied : Nat) :
    (∃ applied' error, (b.flushNext cancelled id cut applied) = (b, .finishing applied' error)) ∨
    ∃ applied' floor es new, (b.flushNext cancelled id cut applied).2 = .sending applied' floor es ∧
      (∀ id', ((b.flushNext cancelled id cut applied).1.fileOf id').flushing =
        (b.fileOf id').flushing) ∧
      (∀ id', id' ≠ id → (b.flushNext cancelled id cut applied).1.mount.trace id' = b.mount.trace id') ∧
      (b.flushNext cancelled id cut applied).1.mount.trace id =
        b.mount.trace id ++ new ++ [.offered es] ∧
      (new = [] ∧ openWave (b.mount.trace id) = some es ∨
        new = [.formed cut es] ∧ openWave (b.mount.trace id) = none) := by
  unfold flushNext
  split
  · exact .inl ⟨_, _, rfl⟩
  split
  · exact .inl ⟨_, _, rfl⟩
  have hspec : ∀ p, (b.batchLocked id cut).2 = some p → _ := fun p => batchLocked_spec h
  have hnone : (b.batchLocked id cut).2 = none → (b.batchLocked id cut).1 = b := by
    unfold batchLocked
    split <;>
    · split
      · exact fun _ => rfl
      · exact fun hc => nomatch hc
  dsimp only
  split
  · next b' heq =>
    rw [heq] at hnone
    have hb : b' = b := hnone rfl
    rw [hb]
    exact .inl ⟨_, _, rfl⟩
  next b' p heq =>
  rw [heq] at hspec
  obtain ⟨hflag, hne, hown⟩ := hspec p rfl
  rcases hown with ⟨htr, hw⟩ | ⟨htr, hw⟩
  · refine .inr ⟨_, _, p.entries, [], rfl, hflag, fun id' hid => ?_, ?_, .inl ⟨rfl, hw⟩⟩
    · exact (Mount.note_trace_ne _ hid _).trans (hne id' hid)
    · rw [append_nil, ← htr]
      exact Mount.note_trace ..
  refine .inr ⟨_, _, p.entries, [.formed cut p.entries], rfl, hflag, fun id' hid => ?_, ?_,
    .inr ⟨rfl, hw⟩⟩
  · exact (Mount.note_trace_ne _ hid _).trans (hne id' hid)
  · rw [← htr]
    exact Mount.note_trace ..

theorem applyWave_trace (h : b.Inv) (hp : (b.ledger id).pending = some p) (seq : Nat) :
    (applyWave id b.mount (b.ledger id) p seq).1.trace id =
        b.mount.trace id ++ [.reported p.entries seq] ∧
      ∀ id', id' ≠ id → (applyWave id b.mount (b.ledger id) p seq).1.trace id' = b.mount.trace id' := by
  obtain ⟨-, taken, rest, hc⟩ := (h.books id).stream.carries p hp
  obtain ⟨ts, rs, hu, rfl, rfl⟩ := Ledger.exists_split_of_carries hc
  rw [(h.books id).applyWave_eq hu hc seq]
  obtain ⟨as, index, heq, -⟩ := b.mount.pushEach_eq id (max p.applied seq) ts
  rw [heq]
  exact ⟨Mount.note_trace .., fun id' hne => Mount.note_trace_ne _ hne _⟩

/-- The transport call returned: nothing changes, or the open wave is reported applied and records may
leave after it. -/
theorem flushReturn_spec (h : b.Inv) (id : Identity) (cut : Cut) (applied floor : Nat)
    (entries : List Entry) (result : Except Error (List Nat)) :
    (∃ applied' error, b.flushReturn id cut applied floor entries result =
      (b, .finishing applied' error)) ∨
    ∃ applied' es seq, ∃ b₁ : Buffer, result.isOk = true ∧ openWave (b.mount.trace id) = some es ∧
      (b.flushReturn id cut applied floor entries result).2 = .running applied' ∧
      b₁.Keeps (b.flushReturn id cut applied floor entries result).1 ∧
      (∀ id', (b₁.fileOf id').flushing = (b.fileOf id').flushing) ∧
      b₁.mount.trace id = b.mount.trace id ++ [.reported es seq] ∧
      ∀ id', id' ≠ id → b₁.mount.trace id' = b.mount.trace id' := by
  unfold flushReturn
  dsimp only
  split
  · exact .inl ⟨_, _, rfl⟩
  next p hp =>
  split
  · exact .inl ⟨_, _, rfl⟩
  next seq hseq =>
  split
  · exact .inl ⟨_, _, rfl⟩
  have hok : result.isOk = true := by
    cases result with
    | ok sequences => rfl
    | error e => cases hseq
  have hwave := (h.books id).stream.wave
  rw [show (b.ledger id).pending = some p from hp] at hwave
  obtain ⟨hown, hne⟩ := applyWave_trace h hp seq
  refine .inr ⟨_, p.entries, seq, _, hok, hwave, rfl,
    (h.applyWave_flies hp seq).inv.advanceLocked_keeps, fun id' => ?_, hown, hne⟩
  rw [fileOf_put]
  split
  · next heq => rw [heq]
  · rfl

theorem flushing_dropLocked (b : Buffer) (id id' : Identity) (reason : String) (errno : Nat) :
    ((b.dropLocked id reason errno).1.fileOf id').flushing = (b.fileOf id').flushing := by
  unfold dropLocked
  rw [fileOf_put]
  split
  · next heq => rw [heq]; rfl
  · rfl

theorem flushing_forget (b : Buffer) (id id' : Identity) :
    ((b.forget id).1.fileOf id').flushing = (b.fileOf id').flushing := by
  unfold forget
  split
  · rfl
  next f hf =>
  split
  · next hidle =>
    unfold fileOf
    rw [Assoc.lookup_erase_eq]
    split
    · next heq =>
      rw [heq, hf]
      unfold idle at hidle
      simp only [Bool.and_eq_true, Bool.not_eq_true'] at hidle
      exact hidle.1.1.1.2.symm
    · rfl
  · rfl

end Buffer

namespace System

/-- The flights of a state: a file has one holder at most, and a call that waits for the transport has
handed over the wave that is open, unless it was dropped meanwhile. -/
structure Flights (s : System) : Prop where
  holds : ∀ call fl, s.flights.lookup call = some fl → fl.phase.Holds →
    (s.buffer.fileOf fl.id).flushing = true
  unique : ∀ call fl call' fl', s.flights.lookup call = some fl → s.flights.lookup call' = some fl' →
    fl.phase.Holds → fl'.phase.Holds → fl.id = fl'.id → call = call'
  sending : ∀ call fl applied floor es, s.flights.lookup call = some fl →
    fl.phase = .sending applied floor es →
    Trace.openWave (s.buffer.mount.trace fl.id) = none ∨
      Trace.openWave (s.buffer.mount.trace fl.id) = some es

variable {s s' : System}

/-- No flight moves, and no wave is opened or replaced. -/
theorem Flights.still (h : s.Flights) (hf : s'.flights = s.flights)
    (hflag : ∀ id, (s'.buffer.fileOf id).flushing = (s.buffer.fileOf id).flushing)
    (hwave : ∀ id, openWave (s'.buffer.mount.trace id) = none ∨
      openWave (s'.buffer.mount.trace id) = openWave (s.buffer.mount.trace id)) :
    s'.Flights where
  holds call fl hl hh := by
    rw [hf] at hl
    rw [hflag]
    exact h.holds call fl hl hh
  unique call fl call' fl' hl hl' := by
    rw [hf] at hl hl'
    exact h.unique call fl call' fl' hl hl'
  sending call fl applied floor es hl hp := by
    rw [hf] at hl
    rcases hwave fl.id with hw | hw
    · exact .inl hw
    · rw [hw]
      exact h.sending call fl applied floor es hl hp

variable {b : Buffer}

theorem openWave_idle {b' : Buffer} (h : b.Quiet Event.Idle b') (id : Identity) :
    openWave (b'.mount.trace id) = openWave (b.mount.trace id) := by
  obtain ⟨new, heq, hidle⟩ := h.mount.trace id
  rw [heq, openWave_of_idle hidle]

theorem openWave_dropLocked (h : b.Inv) (id : Identity) (reason : String) (errno : Nat)
    (id' : Identity) :
    openWave ((b.dropLocked id reason errno).1.mount.trace id') = none ∨
      openWave ((b.dropLocked id reason errno).1.mount.trace id') =
        openWave (b.mount.trace id') := by
  obtain ⟨report, -, htrace, htrace_ne, -⟩ := Buffer.dropLocked_trace h id reason errno
  by_cases hid : id' = id
  · subst hid
    rw [htrace, ← append_assoc, openWave_append]
    exact .inl rfl
  · rw [htrace_ne id' hid]
    exact .inr rfl

/-- Drops of several files leave the flags alone and only close waves. -/
theorem dropEach_waves (reason : String) (ids : List Identity) (h : b.Inv) :
    (∀ id, ((Buffer.dropEach reason ids b).1.fileOf id).flushing = (b.fileOf id).flushing) ∧
      ∀ id, openWave ((Buffer.dropEach reason ids b).1.mount.trace id) = none ∨
        openWave ((Buffer.dropEach reason ids b).1.mount.trace id) =
          openWave (b.mount.trace id) := by
  induction ids generalizing b with
  | nil => exact ⟨fun _ => rfl, fun _ => .inr rfl⟩
  | cons id ids ih =>
    unfold Buffer.dropEach
    split
    · exact ih h
    obtain ⟨hflag, hwave⟩ := ih (h.dropLocked id reason 0)
    refine ⟨fun id' => (hflag id').trans (Buffer.flushing_dropLocked ..), fun id' => ?_⟩
    rcases hwave id' with hw | hw
    · exact .inl hw
    · dsimp only
      rw [hw]
      exact openWave_dropLocked h id reason 0 id'

variable {fl : Flight}

private theorem Flights.insert (h : s.Flights) (call : Nat)
    (hf : s'.flights = s.flights.insert call fl)
    (hflag : ∀ id, id ≠ fl.id → (s'.buffer.fileOf id).flushing = (s.buffer.fileOf id).flushing)
    (hwave : ∀ id, id ≠ fl.id → openWave (s'.buffer.mount.trace id) =
      openWave (s.buffer.mount.trace id))
    (hother : ∀ call' fl', call' ≠ call → s.flights.lookup call' = some fl' → fl'.id = fl.id →
      fl'.phase.Holds → (s'.buffer.fileOf fl.id).flushing = true ∧
        openWave (s'.buffer.mount.trace fl.id) = openWave (s.buffer.mount.trace fl.id))
    (hholds : fl.phase.Holds → (s'.buffer.fileOf fl.id).flushing = true ∧
      ∀ call' fl', call' ≠ call → s.flights.lookup call' = some fl' → fl'.id = fl.id →
        ¬ fl'.phase.Holds) (hsend : ∀ applied floor es, fl.phase = .sending applied floor es →
      openWave (s'.buffer.mount.trace fl.id) = some es) : s'.Flights where
  holds c f hl hh := by
    rw [hf, Assoc.lookup_insert_eq] at hl
    split at hl
    · cases hl
      exact (hholds hh).1
    next hne =>
    by_cases hid : f.id = fl.id
    · rw [hid]
      exact (hother c f hne hl hid hh).1
    · rw [hflag f.id hid]
      exact h.holds c f hl hh
  unique c f c' f' hl hl' hh hh' hid := by
    rw [hf, Assoc.lookup_insert_eq] at hl hl'
    split at hl
    · next heq =>
      cases hl
      split at hl'
      · next heq' => rw [heq, heq']
      · next hne => exact absurd hh' ((hholds hh).2 c' f' hne hl' hid.symm)
    · next hne =>
      split at hl'
      · next heq' =>
        cases hl'
        exact absurd hh ((hholds hh').2 c f hne hl hid)
      · exact h.unique c f c' f' hl hl' hh hh' hid
  sending c f applied floor es hl hp := by
    rw [hf, Assoc.lookup_insert_eq] at hl
    split at hl
    · cases hl
      exact .inr (hsend applied floor es hp)
    next hne =>
    have hh : f.phase.Holds := by
      rw [hp]
      trivial
    by_cases hid : f.id = fl.id
    · have hw := (hother c f hne hl hid hh).2
      rw [hid, hw, ← hid]
      exact h.sending c f applied floor es hl hp
    · rw [hwave f.id hid]
      exact h.sending c f applied floor es hl hp

private theorem Flights.erase (h : s.Flights) (call : Nat) (hf : s'.flights = s.flights.erase call)
    (hflag : ∀ id, (s'.buffer.fileOf id).flushing = (s.buffer.fileOf id).flushing)
    (hwave : ∀ id, openWave (s'.buffer.mount.trace id) = openWave (s.buffer.mount.trace id))
    : s'.Flights := by
  have hsub : ∀ c f, s'.flights.lookup c = some f → s.flights.lookup c = some f := by
    intro c f hl
    rw [hf, Assoc.lookup_erase_eq] at hl
    split at hl
    · cases hl
    · exact hl
  refine ⟨fun c f hl hh => ?_, fun c f c' f' hl hl' => h.unique c f c' f' (hsub c f hl) (hsub c' f' hl'),
    fun c f applied floor es hl hp => ?_⟩
  · rw [hflag]
    exact h.holds c f (hsub c f hl) hh
  · rw [hwave]
    exact h.sending c f applied floor es (hsub c f hl) hp

variable {call : Nat}

private theorem Flights.goOn (h : s.Flights) {phase : Phase}
    (hl : s.flights.lookup call = some fl) (hh : fl.phase.Holds)
    (hf : s'.flights = s.flights.insert call { fl with phase })
    (hflag : ∀ id, id ≠ fl.id → (s'.buffer.fileOf id).flushing = (s.buffer.fileOf id).flushing)
    (hwave : ∀ id, id ≠ fl.id → openWave (s'.buffer.mount.trace id) =
      openWave (s.buffer.mount.trace id))
    (hheld : phase.Holds → (s'.buffer.fileOf fl.id).flushing = (s.buffer.fileOf fl.id).flushing)
    (hsend : ∀ applied floor es, phase = .sending applied floor es →
      openWave (s'.buffer.mount.trace fl.id) = some es) : s'.Flights := by
  have halone : ∀ call' fl', call' ≠ call → s.flights.lookup call' = some fl' →
      fl'.id = fl.id → ¬ fl'.phase.Holds :=
    fun call' fl' hne hl' hid hh' => hne (h.unique call' fl' call fl hl' hl hh' hh hid)
  refine h.insert call hf hflag hwave
    (fun call' fl' hc hl' hid hh' => absurd hh' (halone call' fl' hc hl' hid)) (fun hh' => ?_) hsend
  exact ⟨(hheld hh').trans (h.holds call fl hl hh), halone⟩

/-- The flights stay in order over a step of one of them. -/
theorem Flights.move (h : s.Flights) (hi : s.Inv)
    (hl : s.flights.lookup call = some fl) {phase : Option Phase} {r : Remote}
    (hm : FlightMove s.buffer (s.remote fl.id) fl s'.buffer phase r)
    (hf : s'.flights = s.advance call fl phase) : s'.Flights := by
  have hb := hi.buffer
  generalize hbuf : s'.buffer = b' at hm
  cases hm with
  | awake cancelled hp =>
    obtain ⟨hmount, hcase⟩ := s.buffer.flushAwake_spec cancelled fl.id
    rcases hcase with ⟨hnot, hsame⟩ | ⟨hrun, hidle, hflag⟩
    · rw [hsame] at hbuf
      refine h.insert call hf (fun _ _ => by rw [hbuf]) (fun _ _ => by rw [hbuf])
        (fun call' fl' _ hl' hid hh => ⟨?_, by rw [hbuf]⟩) (fun hh => absurd hh hnot)
        fun applied floor es heq => absurd ?_ hnot
      · rw [hbuf, ← hid]
        exact h.holds call' fl' hl' hh
      · have heq' : (s.buffer.flushAwake cancelled fl.id).2 = .sending applied floor es := heq
        rw [heq']
        trivial
    · have hout : ∀ call' fl', s.flights.lookup call' = some fl' → fl'.id = fl.id →
          ¬ fl'.phase.Holds := by
        intro call' fl' hl' hid hh
        have hflush := h.holds call' fl' hl' hh
        rw [hid, hidle] at hflush
        cases hflush
      refine h.insert call hf (fun id hne => ?_) (fun _ _ => by rw [hbuf, hmount])
        (fun call' fl' _ hl' hid hh => absurd hh (hout call' fl' hl' hid))
        (fun _ => ⟨?_, fun call' fl' _ hl' hid => hout call' fl' hl' hid⟩) fun applied floor es heq => ?_
      · rw [hbuf, hflag, if_neg hne]
      · rw [hbuf, hflag, if_pos rfl]
      · have heq' : (s.buffer.flushAwake cancelled fl.id).2 = .sending applied floor es := heq
        rw [hrun] at heq'
        cases heq'
  | @offer cancelled applied applied' floor entries hp hn =>
    rcases Buffer.flushNext_spec hb cancelled fl.id fl.cut applied with ⟨_, _, heq⟩ |
      ⟨applied₂, floor₂, es, new, hphase, hflag, hne, hown, hwave⟩
    · rw [heq] at hn
      cases hn
    rw [hphase] at hn
    cases hn
    have hopen : openWave (s'.buffer.mount.trace fl.id) = some entries := by
      rw [hbuf, hown, openWave_append]
      rcases hwave with ⟨rfl, hw⟩ | ⟨rfl, hw⟩
      · rw [append_nil]
        exact hw
      · rw [openWave_append]
        rfl
    refine h.goOn hl (hp ▸ trivial) hf (fun id _ => by rw [hbuf, hflag])
      (fun id hid => by rw [hbuf, hne id hid]) (fun _ => by rw [hbuf, hflag])
      fun applied floor es heq => ?_
    cases heq
    exact hopen
  | @give cancelled applied applied' error hp hn =>
    rcases Buffer.flushNext_spec hb cancelled fl.id fl.cut applied with ⟨_, _, heq⟩ |
      ⟨_, _, _, _, hphase, -⟩
    · rw [heq] at hbuf
      exact h.goOn hl (hp ▸ trivial) hf (fun _ _ => by rw [hbuf]) (fun _ _ => by rw [hbuf])
        (fun _ => by rw [hbuf]) nofun
    · rw [hphase] at hn
      cases hn
  | @back result applied floor entries hp ht =>
    rcases Buffer.flushReturn_spec hb fl.id fl.cut applied floor entries result with ⟨_, _, heq⟩ |
      ⟨applied', es, seq, b₁, -, -, hphase, hkeeps, hflag, -, hne⟩
    · rw [heq] at hbuf hf
      exact h.goOn hl (hp ▸ trivial) hf (fun _ _ => by rw [hbuf]) (fun _ _ => by rw [hbuf])
        (fun _ => by rw [hbuf]) nofun
    · rw [hphase] at hf
      refine h.goOn hl (hp ▸ trivial) hf (fun id _ => by rw [hbuf, hkeeps.flushing, hflag])
        (fun id hid => ?_) (fun _ => by rw [hbuf, hkeeps.flushing, hflag]) nofun
      rw [hbuf, openWave_idle hkeeps.quiet, hne id hid]
  | finish hp =>
    obtain ⟨hmount, hflag⟩ := s.buffer.flushFinish_spec fl.id
    refine h.goOn hl (hp ▸ trivial) hf (fun id hne => ?_) (fun _ _ => by rw [hbuf, hmount])
      (fun hc => hc.elim) nofun
    rw [hbuf, hflag, if_neg hne]
  | @leave applied error hp phase hn =>
    have hkeeps := hb.flushLeave_keeps fl.id
    rcases hn with rfl | rfl
    · exact h.erase call hf (fun id => by rw [hbuf, hkeeps.flushing])
        fun id => by rw [hbuf, openWave_idle hkeeps.quiet]
    refine h.insert call hf (fun id _ => by rw [hbuf, hkeeps.flushing])
      (fun id _ => by rw [hbuf, openWave_idle hkeeps.quiet])
      (fun call' fl' _ hl' hid hh' => ⟨?_, by rw [hbuf, openWave_idle hkeeps.quiet]⟩)
      (fun hh' => absurd hh' fun hc => hc) fun applied floor es heq => by cases heq
    rw [hbuf, hkeeps.flushing, ← hid]
    exact h.holds call' fl' hl' hh'
  | last hp =>
    have hkeeps := hb.jobEnd_keeps fl.id
    exact h.erase call hf (fun id => by rw [hbuf, hkeeps.flushing])
      fun id => by rw [hbuf, openWave_idle hkeeps.quiet]

/-- The flights stay in order over every step. -/
theorem Outcome.flights {op : Op} (ho : Outcome s op s') (hi : s.Inv) (h : s.Flights) :
    s'.Flights := by
  have hb := hi.buffer
  cases ho with
  | keeps hk hf hr he | detach hk hf hr he =>
    exact h.still hf hk.flushing fun id => .inr (openWave_idle hk.quiet id)
  | drop id reason errno =>
    exact h.still rfl (fun id' => Buffer.flushing_dropLocked ..) (openWave_dropLocked hb id reason errno)
  | dropAll order reason =>
    obtain ⟨hflag, hwave⟩ := dropEach_waves reason (arrange order s.buffer.active) hb
    exact h.still rfl hflag hwave
  | forget id =>
    refine h.still rfl (Buffer.flushing_forget s.buffer id) fun id' => .inr ?_
    have hmount : (s.buffer.forget id).1.mount = s.buffer.mount := by
      unfold Buffer.forget
      split
      · rfl
      · split <;> rfl
    change openWave ((s.buffer.forget id).1.mount.trace id') = _
    rw [hmount]
  | beginBarrier | endBarrier => exact h.still rfl (fun _ => rfl) fun _ => .inr rfl
  | enter call fl hfree hb' hp hf hr he =>
    obtain ⟨hmount, hflag, hcase⟩ := s.buffer.flushEnter_spec fl.id
    rw [← hb'] at hmount hflag
    rw [← hp] at hcase
    refine h.insert call hf (fun id hne => by rw [hflag, if_neg hne]) (fun _ _ => by rw [hmount])
      (fun call' fl' _ hl' hid hh => ⟨by rw [hflag, if_pos rfl], by rw [hmount]⟩)
      (fun hh => ⟨by rw [hflag, if_pos rfl], fun call' fl' _ hl' hid hh' => ?_⟩)
      fun applied floor es heq => ?_
    · rcases hcase with hw | ⟨-, hidle⟩
      · rw [hw] at hh
        exact hh
      · have hflush := h.holds call' fl' hl' hh'
        rw [hid, hidle] at hflush
        cases hflush
    · rw [heq] at hcase
      rcases hcase with hw | ⟨hw, -⟩ <;> cases hw
  | flight call fl hl hm hf hr he => exact h.move hi hl hm hf
  | execute id => exact h.still rfl (fun _ => rfl) fun _ => .inr rfl

theorem flights_init (b : Buffer) (content : Identity → List UInt8) : (init b content).Flights :=
  ⟨fun _ _ hl => (nomatch hl), fun _ _ _ _ hl => (nomatch hl), fun _ _ _ _ _ hl => (nomatch hl)⟩

/-- The flights are in order in every reachable state. -/
theorem Reachable.flights {allowed : Op → Prop} {content : Identity → List UInt8}
    (h : Reachable allowed content s) : s.Flights := by
  obtain ⟨width, payload, opts, b, hnew, hr⟩ := h
  exact (hr.invariant (inv_init hnew content) (flights_init b content)
    fun _ _ _ hi _ ho hf => ho.flights hi hf).2

/-- The flush stream of a file, in every reachable state. Since the last drop, what the transport
reported applied and what is still to be sent are together the accepted records, byte by byte and in
order. A new wave carries what comes next of the records up to its cut; it is offered until it is
reported or dropped; tokens increase; an applied record was sent to its last byte; and a call that
waits for the transport has handed over the open wave. -/
theorem reachable_flush_stream {content : Identity → List UInt8} {s : System}
    (h : Reachable (fun _ => True) content s) (id : Identity) :
    let tr := s.buffer.mount.trace id
    let l := s.buffer.ledger id
    (Trace.reported (Trace.epoch tr)).flatMap Entry.pieces ++ Wave.ahead l.todo l.flushOffset =
        (Trace.accepted (Trace.epoch tr)).flatMap Record.pieces ∧
      ((∀ report, Event.dropped report ∉ tr) → Trace.epoch tr = tr) ∧
      (Trace.accepted tr).Pairwise (fun a b => a.seq < b.seq) ∧
      (∀ before cut es after, tr = before ++ .formed cut es :: after →
        Trace.openWave before = none ∧ WaveShape s.buffer.batchPayload cut es ∧ es ≠ [] ∧
          es.flatMap Entry.pieces <+:
            (((Trace.accepted (Trace.epoch before)).filter fun r => decide (r.seq ≤ cut.sequence)).flatMap
              Record.pieces).drop ((Trace.reported (Trace.epoch before)).flatMap Entry.pieces).length) ∧
      (∀ before es after, tr = before ++ .offered es :: after → Trace.openWave before = some es) ∧
      (∀ before es seq after, tr = before ++ .reported es seq :: after →
        Trace.openWave before = some es) ∧
      (Trace.tokens tr).Pairwise (· < ·) ∧
      (∀ r ∈ l.queue, r.state ≠ .accepted →
        ∃ front, front ++ [r.record] <+: Trace.accepted (Trace.epoch tr) ∧
          (front ++ [r.record]).flatMap Record.pieces <+:
            (Trace.reported (Trace.epoch tr)).flatMap Entry.pieces) ∧
      ∀ call fl applied floor es, s.flights.lookup call = some fl → fl.id = id →
        fl.phase = .sending applied floor es → Trace.openWave tr = none ∨ Trace.openWave tr = some es := by
  have hl := h.inv.buffer.books id
  have hd := hl.stream.disciplined
  refine ⟨hl.stream.stream, epoch_eq_self, hl.stream.order, fun before cut es after heq => ?_,
    fun before es after heq => hd before _ after heq, fun before es seq after heq => hd before _ after heq,
    hd.tokens_lt, fun r hr hs => hl.stream.applied_sent hl.queue hr hs,
    fun call fl applied floor es hlook hid hp => ?_⟩
  · obtain ⟨hopen, hshape, hprefix, hne, -⟩ := hd before _ after heq
    exact ⟨hopen, hshape, hne, hprefix⟩
  · subst hid
    exact h.flights.sending call fl applied floor es hlook hp

/-- A write that needs two entries, an attempt that fails, and one that succeeds. -/
private def retried : List Op :=
  [.write caller 7 0 0 [1, 2, 3, 4, 5, 6] .none, .flush 0 7 ⟨1, 0⟩, .flushNext 0 false, .execute 7,
    .flushReturn 0 (.error .closed), .flushFinish 0, .flushLeave 0, .flush 1 7 ⟨1, 0⟩,
    .flushNext 1 false, .execute 7, .flushReturn 1 (.ok [5, 6])]

theorem flush_stream_retried :
    ((smallAfter retried).buffer.mount.trace 7).countP (fun | .offered _ => true | _ => false) = 2 ∧
    (Trace.tokens ((smallAfter retried).buffer.mount.trace 7)) = [1, 2] ∧
    (Trace.reported ((smallAfter retried).buffer.mount.trace 7)).flatMap Entry.pieces =
      (Trace.accepted ((smallAfter retried).buffer.mount.trace 7)).flatMap Record.pieces := by
  have hreach : Reachable (fun _ => True) (fun _ => []) (smallAfter retried) :=
    reachable_smallAfter (by decide) fun _ _ => trivial
  obtain ⟨hstream, hepoch, -⟩ := reachable_flush_stream hreach 7
  have hnodrop : ∀ report, Event.dropped report ∉ (smallAfter retried).buffer.mount.trace 7 := by
    intro report hmem
    have hnone : ((smallAfter retried).buffer.mount.trace 7).any Event.isDropped = false := by decide
    exact any_eq_false.mp hnone _ hmem rfl
  have hahead : Wave.ahead ((smallAfter retried).buffer.ledger 7).todo
      ((smallAfter retried).buffer.ledger 7).flushOffset = [] := by decide
  rw [hepoch hnodrop, hahead, append_nil] at hstream
  exact ⟨by decide, by decide, hstream⟩

end System
end PortableFS.Writeback
