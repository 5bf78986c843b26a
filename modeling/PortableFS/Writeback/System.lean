import PortableFS.Base.ByteFile
import PortableFS.Writeback.Flush
import PortableFS.Writeback.Lifecycle
import PortableFS.Writeback.Read

/-!
# The buffer with its callers, its workers and the remote

One step is one critical section of the buffer, one operation that the remote executes, or one
step of the background scheduler. Calls of `FlushIdentity` are in flight between their sections.
The remote keeps the last wave it received of every file and executes its operations in order, each
token once; it may do so long after the transport reported a failure, and it may not report
success before it is through.
-/

namespace PortableFS.Writeback

open PortableFS.Base

/-- What the operation changes in the bytes of a file. -/
def Entry.edits (e : Entry) : List (ByteFile.Edit UInt8) :=
  if e.kind = .write then [.write e.offset e.payload]
  else if e.attributes.hasSize then [.resize e.attributes.size.toNat]
  else []

/-- The remote side of one identity. -/
structure Remote where
  content : List UInt8
  inbox : List Entry
  executed : List Nat

namespace Remote

/-- Execute the next operation that was not executed yet. -/
def execute (r : Remote) : Remote :=
  match r.inbox.find? fun e => decide (e.token ∉ r.executed) with
  | none => r
  | some e =>
    { r with content := ByteFile.replay r.content e.edits, executed := r.executed ++ [e.token] }

/-- All operations of the wave were executed. -/
def through (r : Remote) (entries : List Entry) : Bool :=
  entries.all fun e => decide (e.token ∈ r.executed)

end Remote

/-- A call of `FlushIdentity`, or a background job that makes one. -/
structure Flight where
  id : Identity
  cut : Cut
  background : Bool
  phase : Phase
deriving DecidableEq, Repr

/-- The buffer and its surroundings. `collected` are jobs the scheduler has still to hand over,
`jobs` those in the workers' channel, and `exited` says that the scheduler has left its loop. -/
structure System where
  buffer : Buffer
  flights : Assoc Nat Flight
  remote : Identity → Remote
  retirements : List Retirement
  started : Bool
  exited : Bool
  collected : List BackgroundFlush
  jobs : List BackgroundFlush

/-- One step: a call with its arguments, or progress of something in flight. Map orders, the
clock, cancellations and the answers of the transport are part of it. -/
inductive Op
  | write (env : Env) (id : Identity) (generation : Nat) (off : Int) (data : List UInt8)
      (options : WriteOptions)
  | truncate (env : Env) (id : Identity) (generation : Nat) (size : Int)
  | setAttr (env : Env) (id : Identity) (generation : Nat) (attrs : Attributes)
  | drop (id : Identity) (reason : String) (errno : Nat)
  | dropAll (order : List Identity) (reason : String)
  | visible (seq : Nat)
  | durable (seq : Nat)
  | durableIdentity (id : Identity) (cut : Cut)
  | flush (call : Nat) (id : Identity) (cut : Cut)
  | flushAwake (call : Nat) (cancelled : Bool)
  | flushNext (call : Nat) (cancelled : Bool)
  | flushReturn (call : Nat) (result : Except Error (List Nat))
  | flushFinish (call : Nat)
  | flushLeave (call : Nat)
  | execute (id : Identity)
  | beginBarrier (observedLoss : Nat)
  | endBarrier (barrier : Nat)
  | clearLost (id : Identity)
  | generation (id : Identity)
  | forget (id : Identity)
  | beginRetire (cancelled : Bool) (id : Option Identity) (drain : Bool)
  | resume (retirement : Nat)
  | detachOverlay (retirement : Nat)
  | cancelRetire (retirement : Nat)
  | fenceAdmissions
  | stop
  | start
  | scan (order : List Identity)
  | handOver
  | takeJob (call : Nat)
  | jobEnd (call : Nat)
  | exit
  | join
  | releaseStorage (order : List Identity)

namespace System

/-- A new buffer over a remote. -/
def init (b : Buffer) (content : Identity → List UInt8) : System :=
  { buffer := b, flights := ∅, remote := fun id => ⟨content id, [], []⟩, retirements := []
    started := false, exited := false, collected := [], jobs := [] }

/-- Replace the buffer. -/
def withBuffer (s : System) (b : Buffer) : System := { s with buffer := b }

/-- A flight moves to another phase. -/
def fly (s : System) (call : Nat) (fl : Flight) (next : Buffer × Phase) : System :=
  { s with buffer := next.1, flights := s.flights.insert call { fl with phase := next.2 } }

/-- A new call of `FlushIdentity`, if the name of the call is free. -/
def launch (s : System) (call : Nat) (id : Identity) (cut : Cut) (background : Bool) : System :=
  match s.flights.lookup call with
  | some _ => s
  | none => s.fly call ⟨id, cut, background, .waiting⟩ (s.buffer.flushEnter id)

/-- A call of the transport puts its wave before the remote. -/
def deliver (s : System) (id : Identity) : Phase → System
  | .sending _ _ entries =>
    { s with remote := Function.update s.remote id { s.remote id with inbox := entries } }
  | _ => s

/-- Whether the context of a call is cancelled; background calls use the buffer's own. -/
def contextDone (s : System) (fl : Flight) (cancelled : Bool) : Bool :=
  if fl.background then s.buffer.cancelled else cancelled

/-- A step of one flight. -/
def flightStep (s : System) (call : Nat) (fl : Flight) : Op → System
  | .flushAwake _ cancelled =>
    match fl.phase with
    | .waiting =>
      -- a cancelled context and a change may both be ready
      s.fly call fl
        (s.buffer.flushAwake (cancelled && s.contextDone fl cancelled) fl.id)
    | _ => s
  | .flushNext _ cancelled =>
    match fl.phase with
    | .running applied =>
      let next := s.buffer.flushNext (s.contextDone fl cancelled) fl.id fl.cut applied
      (s.fly call fl next).deliver fl.id next.2
    | _ => s
  | .flushReturn _ result =>
    match fl.phase with
    | .sending applied floor entries =>
      if result.isOk && !(s.remote fl.id).through entries then s
      else s.fly call fl (s.buffer.flushReturn fl.id fl.cut applied floor entries result)
    | _ => s
  | .flushFinish _ =>
    match fl.phase with
    | .finishing applied error => s.fly call fl (s.buffer.flushFinish fl.id, .leaving applied error)
    | _ => s
  | .flushLeave _ =>
    match fl.phase with
    | .leaving _ error =>
      if fl.background then s.fly call fl (s.buffer.flushLeave fl.id, .ended error)
      else { s with buffer := s.buffer.flushLeave fl.id, flights := s.flights.erase call }
    | _ => s
  | .jobEnd _ =>
    match fl.phase with
    | .ended _ => { s with buffer := s.buffer.jobEnd fl.id, flights := s.flights.erase call }
    | _ => s
  | _ => s

/-- A step of a flight that exists. -/
def onFlight (s : System) (call : Nat) (op : Op) : System :=
  match s.flights.lookup call with
  | none => s
  | some fl => s.flightStep call fl op

/-- A call on a retirement that exists. -/
def onRetirement (s : System) (k : Nat) (f : Retirement → Buffer × Retirement) : System :=
  match s.retirements[k]? with
  | none => s
  | some r => { s with buffer := (f r).1, retirements := s.retirements.set k (f r).2 }

/-- The background workers that are busy. -/
def busyWorkers (s : System) : Nat := (s.flights.entries.filter fun e => e.2.background).length

/-- A step of the scheduler or of its workers; `buffer.go:663–733`. -/
def scheduleStep (s : System) : Op → System
  | .start => { s with started := true }
  | .scan order =>
    if s.started && !s.exited && s.collected.isEmpty && s.buffer.kick then
      let scanned := s.buffer.scan order
      { s with buffer := scanned.1, collected := scanned.2 }
    else s
  | .handOver =>
    match s.collected with
    | [] => s
    | job :: rest =>
      if !s.exited && decide (s.jobs.length < s.buffer.maxFlushIdentities) then
        { s with collected := rest, jobs := s.jobs ++ [job] }
      else s
  | .takeJob call =>
    match s.jobs, s.flights.lookup call with
    | job :: rest, none =>
      if s.started && decide (s.busyWorkers < s.buffer.maxFlushIdentities) then
        { s with jobs := rest }.launch call job.file job.cut true
      else s
    | _, _ => s
  | .exit =>
    if s.started && s.buffer.cancelled then { s with exited := true, collected := [] } else s
  | .join =>
    if s.exited && s.jobs.isEmpty && s.busyWorkers == 0 then
      s.withBuffer { s.buffer with done := true }
    else s
  | _ => s

/-- Keep the buffer after an attempt to admit. -/
def admitted (s : System) : Option (Buffer × Admission) → Option System
  | none => none
  | some (b, _) => some (s.withBuffer b)

/-- One step; `none` is a panic. -/
def exec (s : System) (op : Op) : Option System :=
  match op with
  | .write env id generation off data options =>
    s.admitted (s.buffer.writeInGeneration env id generation off data options)
  | .truncate env id generation size =>
    s.admitted (s.buffer.truncateInGeneration env id generation size)
  | .setAttr env id generation attrs =>
    s.admitted (s.buffer.setAttrInGeneration env id generation attrs)
  | .drop id reason errno => some (s.withBuffer (s.buffer.dropLocked id reason errno).1)
  | .dropAll order reason => some (s.withBuffer (s.buffer.dropAll order reason).1)
  | .visible seq => some (s.withBuffer (s.buffer.visibleSequence seq))
  | .durable seq => some (s.withBuffer (s.buffer.durableSequence seq))
  | .durableIdentity id cut => some (s.withBuffer (s.buffer.durableIdentity id cut).1)
  | .flush call id cut => some (s.launch call id cut false)
  | .flushAwake call _ | .flushNext call _ | .flushReturn call _ | .flushFinish call
  | .flushLeave call | .jobEnd call => some (s.onFlight call op)
  | .execute id => some { s with remote := Function.update s.remote id (s.remote id).execute }
  | .beginBarrier observedLoss => some (s.withBuffer (s.buffer.beginBarrier observedLoss).1)
  | .endBarrier barrier => some (s.withBuffer (s.buffer.endBarrier barrier))
  | .clearLost id => some (s.withBuffer (s.buffer.clearLost id))
  | .generation id => some (s.withBuffer (s.buffer.generation id))
  | .forget id => some (s.withBuffer (s.buffer.forget id).1)
  | .beginRetire cancelled id drain =>
    let b := if drain then s.buffer.fenceAdmissions else s.buffer
    match b.beginRetire cancelled id drain with
    | (b, .begun r) => some { s with buffer := b, retirements := s.retirements ++ [r] }
    | (b, _) => some (s.withBuffer b)
  | .resume k => some (s.onRetirement k fun r => ((s.buffer.resume r).1, (s.buffer.resume r).2.1))
  | .detachOverlay k =>
    some (s.onRetirement k fun r => ((s.buffer.detachOverlay r).1, (s.buffer.detachOverlay r).2.1))
  | .cancelRetire k => some (s.onRetirement k s.buffer.cancelRetire)
  | .fenceAdmissions => some (s.withBuffer s.buffer.fenceAdmissions)
  | .stop => some { s with buffer := s.buffer.stop, started := true }
  | .start | .scan _ | .handOver | .takeJob _ | .exit | .join => some (s.scheduleStep op)
  | .releaseStorage order => some (s.withBuffer (s.buffer.releaseStorage order).1)

/-- One step after the other. -/
def run (s : System) : List Op → Option System
  | [] => some s
  | op :: ops => (s.exec op).bind fun next => next.run ops

/-- A step with an operation that is allowed. -/
def Step (allowed : Op → Prop) (s s' : System) : Prop := ∃ op, allowed op ∧ s.exec op = some s'

/-- Runs of allowed operations. -/
def Runs (allowed : Op → Prop) : System → System → Prop := Relation.ReflTransGen (Step allowed)

variable {allowed : Op → Prop} {s : System}

theorem runs_of_run (ops : List Op) {s' : System} (h : s.run ops = some s')
    (ha : ∀ op ∈ ops, allowed op) : Runs allowed s s' := by
  induction ops generalizing s with
  | nil => exact Option.some.inj h ▸ .refl
  | cons op ops ih =>
    obtain ⟨next, hexec, hrest⟩ := Option.bind_eq_some_iff.mp h
    have hstep : Step allowed s next := ⟨op, ha op List.mem_cons_self, hexec⟩
    exact .head hstep (ih hrest fun o ho => ha o (List.mem_cons_of_mem op ho))

theorem runs_getD (ops : List Op) (h : (s.run ops).isSome = true)
    (ha : ∀ op ∈ ops, allowed op) : Runs allowed s ((s.run ops).getD s) := by
  obtain ⟨s', hs⟩ := Option.isSome_iff_exists.mp h
  rw [hs]
  exact runs_of_run ops hs ha

/-- States of a new buffer over a remote with these contents. -/
def Reachable (allowed : Op → Prop) (content : Identity → List UInt8) (s : System) : Prop :=
  ∃ width payload opts b, Buffer.new width payload opts = .ok b ∧ Runs allowed (init b content) s

end System
end PortableFS.Writeback
