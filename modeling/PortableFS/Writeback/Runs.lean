import PortableFS.Writeback.Upkeep

/-!
# Runs of the buffer

What one step of the system can do is said once, as an outcome; every invariant of runs follows from
the outcomes. The invariant of the buffer holds in every state that a new buffer reaches, whatever
its callers, its workers and the remote do, and no step panics.
-/

namespace PortableFS.Writeback

open PortableFS.Base

/-- A step of a flight: the buffer, the phase and the remote after it. A flight without a phase is
over. -/
inductive FlightMove (b : Buffer) (r : Remote) (fl : Flight) : Buffer → Option Phase → Remote → Prop
  | awake (cancelled : Bool) (hp : fl.phase = .waiting) :
      FlightMove b r fl (b.flushAwake cancelled fl.id).1 (some (b.flushAwake cancelled fl.id).2) r
  | offer (cancelled : Bool) {applied applied' floor : Nat} {entries : List Entry}
      (hp : fl.phase = .running applied)
      (hn : (b.flushNext cancelled fl.id fl.cut applied).2 = .sending applied' floor entries) :
      FlightMove b r fl (b.flushNext cancelled fl.id fl.cut applied).1
        (some (.sending applied' floor entries)) { r with inbox := entries }
  | give (cancelled : Bool) {applied applied' : Nat} {error : Option Error}
      (hp : fl.phase = .running applied)
      (hn : (b.flushNext cancelled fl.id fl.cut applied).2 = .finishing applied' error) :
      FlightMove b r fl (b.flushNext cancelled fl.id fl.cut applied).1
        (some (.finishing applied' error)) r
  | back (result : Except Error (List Nat)) {applied floor : Nat} {entries : List Entry}
      (hp : fl.phase = .sending applied floor entries)
      (ht : result.isOk = true → r.through entries = true) :
      FlightMove b r fl (b.flushReturn fl.id fl.cut applied floor entries result).1
        (some (b.flushReturn fl.id fl.cut applied floor entries result).2) r
  | finish {applied : Nat} {error : Option Error} (hp : fl.phase = .finishing applied error) :
      FlightMove b r fl (b.flushFinish fl.id) (some (.leaving applied error)) r
  | leave {applied : Nat} {error : Option Error} (hp : fl.phase = .leaving applied error)
      {phase : Option Phase} (hn : phase = none ∨ phase = some (.ended error)) :
      FlightMove b r fl (b.flushLeave fl.id) phase r
  | last {error : Option Error} (hp : fl.phase = .ended error) :
      FlightMove b r fl (b.jobEnd fl.id) none r

variable {b : Buffer} {fl : Flight}

/-- A flight moves without a loss. -/
theorem FlightMove.flies {b' : Buffer} {r r' : Remote} {phase : Option Phase}
    (hm : FlightMove b r fl b' phase r') (h : b.Inv) : b.Flies b' := by
  cases hm with
  | awake cancelled _ => exact h.flushAwake_flies cancelled fl.id
  | offer | give => exact h.flushNext_flies ..
  | back result _ _ => exact h.flushReturn_flies ..
  | finish _ => exact h.flushFinish_flies fl.id
  | leave _ _ => exact (h.flushLeave_keeps fl.id).flies
  | last _ => exact (h.jobEnd_keeps fl.id).flies

namespace System

/-- The flights after one of them moved. -/
def advance (s : System) (call : Nat) (fl : Flight) : Option Phase → Assoc Nat Flight
  | some phase => s.flights.insert call { fl with phase }
  | none => s.flights.erase call

/-- What a step can do. -/
inductive Outcome (s : System) : Op → System → Prop
  /-- The books stay in order and no flight moves. -/
  | keeps {op : Op} {s' : System} (hb : s.buffer.Keeps s'.buffer) (hf : s'.flights = s.flights)
      (hr : s'.remote = s.remote) (he : s'.exited = s.exited ∨ s'.buffer.cancelled = true) :
      Outcome s op s'
  | detach {k : Nat} {s' : System} (hb : s.buffer.Idles s'.buffer) (hf : s'.flights = s.flights)
      (hr : s'.remote = s.remote) (he : s'.exited = s.exited) : Outcome s (.detachOverlay k) s'
  | drop (id : Identity) (reason : String) (errno : Nat) :
      Outcome s (.drop id reason errno) (s.withBuffer (s.buffer.dropLocked id reason errno).1)
  | dropAll (order : List Identity) (reason : String) :
      Outcome s (.dropAll order reason) (s.withBuffer (s.buffer.dropAll order reason).1)
  | forget (id : Identity) : Outcome s (.forget id) (s.withBuffer (s.buffer.forget id).1)
  | beginBarrier (observed : Nat) :
      Outcome s (.beginBarrier observed) (s.withBuffer (s.buffer.beginBarrier observed).1)
  | endBarrier (barrier : Nat) :
      Outcome s (.endBarrier barrier) (s.withBuffer (s.buffer.endBarrier barrier))
  /-- A new call of `FlushIdentity`. -/
  | enter {op : Op} {s' : System} (call : Nat) (fl : Flight) (hfree : s.flights.lookup call = none)
      (hb : s'.buffer = (s.buffer.flushEnter fl.id).1) (hp : fl.phase = (s.buffer.flushEnter fl.id).2)
      (hf : s'.flights = s.flights.insert call fl) (hr : s'.remote = s.remote)
      (he : s'.exited = s.exited) : Outcome s op s'
  | flight {op : Op} {s' : System} (call : Nat) (fl : Flight) (hl : s.flights.lookup call = some fl)
      {phase : Option Phase} {r : Remote}
      (hm : FlightMove s.buffer (s.remote fl.id) fl s'.buffer phase r)
      (hf : s'.flights = s.advance call fl phase) (hr : s'.remote = Function.update s.remote fl.id r)
      (he : s'.exited = s.exited) : Outcome s op s'
  | execute (id : Identity) :
      Outcome s (.execute id) { s with remote := Function.update s.remote id (s.remote id).execute }

/-- The invariant of the system: the scheduler leaves only after the context was cancelled. -/
structure Inv (s : System) : Prop where
  buffer : s.buffer.Inv
  exited : s.exited = true → s.buffer.cancelled = true

variable {s : System}

theorem Outcome.stay (h : s.Inv) (op : Op) : Outcome s op s :=
  .keeps (.refl h.buffer) rfl rfl (.inl rfl)

variable {op : Op}

theorem Outcome.of_keeps (hk : s.buffer.Keeps b) : Outcome s op (s.withBuffer b) :=
  .keeps hk rfl rfl (.inl rfl)

theorem launch_outcome {s₀ : System} (h : s₀.Inv) (hb : s.buffer = s₀.buffer)
    (hf : s.flights = s₀.flights) (hr : s.remote = s₀.remote) (he : s.exited = s₀.exited) (op : Op)
    (call : Nat) (id : Identity) (cut : Cut) (background : Bool) :
    Outcome s₀ op (s.launch call id cut background) := by
  unfold launch
  split
  · refine .keeps ?_ hf hr (.inl he)
    rw [hb]
    exact .refl h.buffer
  · next hfree =>
    rw [hf] at hfree
    exact .enter call ⟨id, cut, background, (s₀.buffer.flushEnter id).2⟩ hfree (by rw [← hb]; rfl) rfl
      (by rw [← hf, ← hb]; rfl) hr he

variable {call : Nat}

private theorem Outcome.fly (hl : s.flights.lookup call = some fl) {next : Buffer × Phase}
    (hm : FlightMove s.buffer (s.remote fl.id) fl next.1 (some next.2) (s.remote fl.id)) :
    Outcome s op (s.fly call fl next) :=
  .flight call fl hl hm rfl (Function.update_eq_self ..).symm rfl

theorem flushNext_cases (b : Buffer) (cancelled : Bool) (id : Identity) (cut : Cut) (applied : Nat) :
    (∃ applied' floor entries, (b.flushNext cancelled id cut applied).2 =
      .sending applied' floor entries) ∨
    ∃ applied' error, (b.flushNext cancelled id cut applied).2 = .finishing applied' error := by
  unfold Buffer.flushNext
  split
  · exact .inr ⟨_, _, rfl⟩
  split
  · exact .inr ⟨_, _, rfl⟩
  · dsimp only
    split
    · exact .inr ⟨_, _, rfl⟩
    · exact .inl ⟨_, _, _, rfl⟩

theorem flightStep_outcome (h : s.Inv)
    (hl : s.flights.lookup call = some fl) (op : Op) : Outcome s op (s.flightStep call fl op) := by
  cases op with
  | flushAwake _ cancelled =>
    unfold flightStep
    dsimp only
    split
    · next hp => exact .fly hl (.awake _ hp)
    · exact .stay h _
  | flushNext _ cancelled =>
    unfold flightStep
    dsimp only
    split
    · next applied hp =>
      rcases flushNext_cases s.buffer (s.contextDone fl cancelled) fl.id fl.cut applied with
        ⟨applied', floor, entries, hn⟩ | ⟨applied', error, hn⟩
      · rw [hn]
        refine .flight call fl hl (.offer _ hp hn) ?_ rfl rfl
        exact congrArg (fun phase => s.flights.insert call { fl with phase }) hn
      · rw [hn]
        refine .flight call fl hl (.give _ hp hn) ?_ (Function.update_eq_self ..).symm rfl
        exact congrArg (fun phase => s.flights.insert call { fl with phase }) hn
    · exact .stay h _
  | flushReturn _ result =>
    unfold flightStep
    dsimp only
    split
    · next applied floor entries hp =>
      split
      · exact .stay h _
      · next hok =>
        refine .fly hl (.back result hp fun hr => ?_)
        simpa [hr] using hok
    · exact .stay h _
  | flushFinish _ =>
    unfold flightStep
    dsimp only
    split
    · next hp => exact .fly hl (.finish hp)
    · exact .stay h _
  | flushLeave _ =>
    unfold flightStep
    dsimp only
    split
    · next hp =>
      split
      · exact .fly hl (.leave hp (.inr rfl))
      · exact .flight call fl hl (.leave hp (.inl rfl)) rfl (Function.update_eq_self ..).symm rfl
    · exact .stay h _
  | jobEnd _ =>
    unfold flightStep
    dsimp only
    split
    · next hp => exact .flight call fl hl (.last hp) rfl (Function.update_eq_self ..).symm rfl
    · exact .stay h _
  | _ => exact .stay h _

theorem onFlight_outcome (h : s.Inv) (call : Nat) (op : Op) :
    Outcome s op (s.onFlight call op) := by
  unfold onFlight
  split
  · exact .stay h op
  · next fl hl => exact flightStep_outcome h hl op

theorem onRetirement_outcome (h : s.Inv) (op : Op) (k : Nat) {f : Retirement → Buffer × Retirement}
    (hf : ∀ r, s.buffer.Keeps (f r).1) : Outcome s op (s.onRetirement k f) := by
  unfold onRetirement
  split
  · exact .stay h op
  · exact .keeps (hf _) rfl rfl (.inl rfl)

theorem scheduleStep_outcome (h : s.Inv) (op : Op) : Outcome s op (s.scheduleStep op) := by
  have hb := h.buffer
  cases op with
  | start => exact .keeps (.refl hb) rfl rfl (.inl rfl)
  | scan order =>
    unfold scheduleStep
    dsimp only
    split
    · exact .keeps (hb.scan_keeps order) rfl rfl (.inl rfl)
    · exact .stay h _
  | handOver =>
    unfold scheduleStep
    dsimp only
    split
    · exact .stay h _
    · split
      · exact .keeps (.refl hb) rfl rfl (.inl rfl)
      · exact .stay h _
  | takeJob call =>
    unfold scheduleStep
    dsimp only
    split
    · split
      · next job rest _ _ _ =>
        exact launch_outcome (s := { s with jobs := rest }) h rfl rfl rfl rfl _ call job.file job.cut true
      · exact .stay h _
    · exact .stay h _
  | exit =>
    unfold scheduleStep
    dsimp only
    split
    · next hc => exact .keeps (.refl hb) rfl rfl (.inr (Bool.and_eq_true_iff.mp hc).2)
    · exact .stay h _
  | join =>
    unfold scheduleStep
    dsimp only
    split
    · next hj =>
      simp only [Bool.and_eq_true] at hj
      exact .of_keeps (hb.join_keeps (h.exited hj.1.1))
    · exact .stay h _
  | _ => exact .stay h _

private theorem admitted_outcome {out : Option (Buffer × Admission)}
    (ho : ∃ b a, out = some (b, a) ∧ s.buffer.Keeps b) :
    ∃ s', s.admitted out = some s' ∧ Outcome s op s' := by
  obtain ⟨b, a, rfl, hk⟩ := ho
  exact ⟨_, rfl, .of_keeps hk⟩

/-- Every step ends, in one of the outcomes. -/
theorem Inv.exec (h : s.Inv) (op : Op) : ∃ s', s.exec op = some s' ∧ Outcome s op s' := by
  have hb := h.buffer
  cases op with
  | write env id generation off data options =>
    exact admitted_outcome (hb.writeInGeneration_keeps env id generation off data options)
  | truncate env id generation size =>
    exact admitted_outcome (hb.truncateInGeneration_keeps env id generation size)
  | setAttr env id generation attrs =>
    exact admitted_outcome (hb.setAttrInGeneration_keeps env id generation attrs)
  | drop id reason errno => exact ⟨_, rfl, .drop id reason errno⟩
  | dropAll order reason => exact ⟨_, rfl, .dropAll order reason⟩
  | visible seq => exact ⟨_, rfl, .of_keeps (hb.visibleSequence_keeps seq)⟩
  | durable seq => exact ⟨_, rfl, .of_keeps (hb.durableSequence_keeps seq)⟩
  | durableIdentity id cut => exact ⟨_, rfl, .of_keeps (hb.durableIdentity_keeps id cut)⟩
  | flush call id cut => exact ⟨_, rfl, launch_outcome h rfl rfl rfl rfl ..⟩
  | flushAwake call _ | flushNext call _ | flushReturn call _ =>
    exact ⟨_, rfl, onFlight_outcome h call _⟩
  | flushFinish call | flushLeave call | jobEnd call => exact ⟨_, rfl, onFlight_outcome h call _⟩
  | execute id => exact ⟨_, rfl, .execute id⟩
  | beginBarrier observedLoss => exact ⟨_, rfl, .beginBarrier observedLoss⟩
  | endBarrier barrier => exact ⟨_, rfl, .endBarrier barrier⟩
  | clearLost id => exact ⟨_, rfl, .of_keeps (hb.clearLost_keeps id)⟩
  | generation id => exact ⟨_, rfl, .of_keeps (hb.touch_keeps id)⟩
  | forget id => exact ⟨_, rfl, .forget id⟩
  | beginRetire cancelled id drain =>
    have hfence : s.buffer.Keeps (if drain then s.buffer.fenceAdmissions else s.buffer) := by
      split
      · exact hb.fenceAdmissions_keeps
      · exact .refl hb
    have hk := hfence.trans (hfence.inv.beginRetire_keeps cancelled id drain)
    unfold System.exec
    dsimp only
    split
    · next heq =>
      rw [heq] at hk
      exact ⟨_, rfl, .keeps hk rfl rfl (.inl rfl)⟩
    · next heq =>
      rw [heq] at hk
      exact ⟨_, rfl, .of_keeps hk⟩
  | resume k => exact ⟨_, rfl, onRetirement_outcome h _ k fun r => hb.resume_keeps r⟩
  | detachOverlay k =>
    refine ⟨_, rfl, ?_⟩
    unfold onRetirement
    split
    · exact .stay h _
    · next r _ => exact .detach (hb.detachOverlay_idles r) rfl rfl rfl
  | cancelRetire k => exact ⟨_, rfl, onRetirement_outcome h _ k fun r => hb.cancelRetire_keeps r⟩
  | fenceAdmissions => exact ⟨_, rfl, .of_keeps hb.fenceAdmissions_keeps⟩
  | stop => exact ⟨_, rfl, .keeps hb.stop_keeps rfl rfl (.inl rfl)⟩
  | start | scan | handOver | takeJob | exit | join => exact ⟨_, rfl, scheduleStep_outcome h _⟩
  | releaseStorage order => exact ⟨_, rfl, .of_keeps (hb.releaseStorage_keeps order)⟩

variable {s' : System}

theorem Outcome.inv (ho : Outcome s op s') (h : s.Inv) : s'.Inv := by
  have hb := h.buffer
  cases ho with
  | keeps hk hf hr he =>
    refine ⟨hk.inv, fun hx => ?_⟩
    rcases he with he | hc
    · exact hk.quiet.cancelled (h.exited (he ▸ hx))
    · exact hc
  | detach hk hf hr he => exact ⟨hk.inv, fun hx => hk.quiet.cancelled (h.exited (he ▸ hx))⟩
  | drop id reason errno => exact ⟨hb.dropLocked id reason errno, h.exited⟩
  | dropAll order reason =>
    exact ⟨hb.dropEach reason _, fun hx => (Buffer.cancelled_dropEach ..).trans (h.exited hx)⟩
  | forget id => exact ⟨hb.forget id, fun hx => (Buffer.cancelled_forget ..).trans (h.exited hx)⟩
  | beginBarrier | endBarrier => exact ⟨hb.barriers _, h.exited⟩
  | enter call fl hfree hb' hp hf hr he =>
    have hk := hb.flushEnter_flies fl.id
    rw [← hb'] at hk
    exact ⟨hk.inv, fun hx => hk.quiet.cancelled (h.exited (he ▸ hx))⟩
  | flight call fl hl hm hf hr he =>
    have hk := hm.flies hb
    exact ⟨hk.inv, fun hx => hk.quiet.cancelled (h.exited (he ▸ hx))⟩
  | execute id => exact ⟨hb, h.exited⟩

/-- A step has an outcome. -/
theorem Inv.outcome (h : s.Inv) (he : s.exec op = some s') : Outcome s op s' := by
  obtain ⟨s₂, heq, ho⟩ := h.exec op
  rw [heq] at he
  exact Option.some.inj he ▸ ho

variable {allowed : Op → Prop}

/-- What holds at the start and survives every outcome holds after a run. -/
theorem Runs.invariant {P : System → Prop} (hr : Runs allowed s s') (h : s.Inv) (hp : P s)
    (hstep : ∀ s op s', s.Inv → allowed op → Outcome s op s' → P s → P s') : s'.Inv ∧ P s' := by
  induction hr with
  | refl => exact ⟨h, hp⟩
  | tail _ hs ih =>
    obtain ⟨op, ha, heq⟩ := hs
    have ho := ih.1.outcome heq
    exact ⟨ho.inv ih.1, hstep _ op _ ih.1 ha ho ih.2⟩

theorem Inv.runs (h : s.Inv) (hr : Runs allowed s s') : s'.Inv :=
  (hr.invariant (P := fun _ => True) h trivial fun _ _ _ _ _ _ _ => trivial).1

theorem inv_init {width payload : Int} {opts : Options} (h : Buffer.new width payload opts = .ok b)
    (content : Identity → List UInt8) : (init b content).Inv :=
  ⟨Buffer.inv_new h, Bool.noConfusion⟩

/-- The invariant holds in every reachable state. -/
theorem Reachable.inv {content : Identity → List UInt8} (h : Reachable allowed content s) :
    s.Inv := by
  obtain ⟨width, payload, opts, b, hnew, hr⟩ := h
  exact (inv_init hnew content).runs hr

/-- A new buffer with room for two records, over empty files. -/
def small : System :=
  init
    { batchWidth := 4, batchPayload := 4, maxFlushIdentities := 1, maxBytes := 8, maxEntries := 2
      files := ∅, active := [], mount := .new 2 0, lastErrno := 0, lastGenericLoss := 0, barriers := []
      retiringAll := false, stopped := false, kick := false, cancelled := false, done := false
      arenas := true }
    fun _ => []

/-- The small buffer after some steps. -/
def smallAfter (ops : List Op) : System := (small.run ops).getD small

theorem reachable_smallAfter {ops : List Op} (h : (small.run ops).isSome = true)
    (ha : ∀ op ∈ ops, allowed op) : Reachable allowed (fun _ => []) (smallAfter ops) :=
  ⟨4, 4, ⟨0, 8, 2, 1⟩, small.buffer, rfl, runs_getD ops h ha⟩

/-- A caller whose context is live and whose admission check passes. -/
def caller : Env := ⟨false, none, 0⟩

/-- Two writes that overlap. -/
private def twoWrites : List Op :=
  [.write caller 7 0 0 [1, 2, 3, 4] .none, .write caller 7 0 1 [5, 6] .none]

/-- Shutdown of a buffer that retains nothing. -/
private def released : List Op := [.stop, .exit, .join, .releaseStorage []]

/-- The first record of a queue decides whether an accepted record up to the cut has neither left
nor been dropped. -/
theorem hasRetainedThrough_exact {content : Identity → List UInt8} (h : Reachable allowed content s)
    (id : Identity) (sequence : Nat) : s.buffer.hasRetainedThrough id sequence = true ↔
      ∃ r ∈ Trace.accepted (Trace.epoch (s.buffer.mount.trace id)),
        r ∉ Trace.left (Trace.epoch (s.buffer.mount.trace id)) ∧ r.seq ≤ sequence := by
  have hbooks := h.inv.buffer.books id
  have horder := hbooks.stream.epoch_order
  have hsorted := hbooks.queue.sorted
  have heq : s.buffer.hasRetainedThrough id sequence =
      (s.buffer.ledger id).queue.head?.any fun r => decide (r.record.seq ≤ sequence) := by
    unfold Buffer.hasRetainedThrough Buffer.ledger Buffer.fileOf
    cases s.buffer.files.lookup id <;> rfl
  rw [heq, hbooks.stream.records]
  rw [hbooks.stream.records, List.pairwise_append] at horder
  cases hqueue : (s.buffer.ledger id).queue with
  | nil => simp +contextual
  | cons first rest =>
    rw [hqueue] at hsorted horder
    rw [List.head?_cons, Option.any_some, decide_eq_true_eq, List.map_cons]
    constructor
    · intro hle
      refine ⟨first.record, by simp, fun hleft => ?_, hle⟩
      exact lt_irrefl _ (horder.2.2 _ hleft _ List.mem_cons_self)
    · rintro ⟨r, hr, hleft, hle⟩
      rcases List.mem_cons.mp ((List.mem_append.mp hr).resolve_left hleft) with rfl | hr
      · exact hle
      · obtain ⟨q, hq, rfl⟩ := List.mem_map.mp hr
        exact ((List.pairwise_cons.mp hsorted).1 q hq).le.trans hle

theorem hasRetainedThrough_exact_twoWrites : ∃ r ∈ Trace.accepted (Trace.epoch
    ((smallAfter twoWrites).buffer.mount.trace 7)), r.seq ≤ 1 := by
  have hreach : Reachable (fun _ => True) (fun _ => []) (smallAfter twoWrites) :=
    reachable_smallAfter (by decide) fun _ _ => trivial
  obtain ⟨r, hr, -, hle⟩ := (hasRetainedThrough_exact hreach 7 1).mp (by decide)
  exact ⟨r, hr, hle⟩

end System
end PortableFS.Writeback
