import PortableFS.Writeback.Wave

/-!
# Flushing, acknowledgement and waiting

Module `writeback`, `vcs/internal/writeback/flush.go`. `FlushIdentity` runs as a sequence of
critical sections with the transport call between two of them; what it keeps in its local
variables meanwhile is its phase. The waits are single questions that may answer "not yet".
-/

namespace PortableFS.Writeback

open PortableFS.Base

/-- Where a call of `FlushIdentity` stands between two critical sections. -/
inductive Phase
  /-- Waiting for another call on the file; `flush.go:46–55`. -/
  | waiting
  /-- About to ask for the next wave; `flush.go:70`. -/
  | running (applied : Nat)
  /-- In `FlushBatch` with these entries; `flush.go:96`. -/
  | sending (applied floor : Nat) (entries : List Entry)
  /-- Returning, still holding the file; `flush.go:58–67`. -/
  | finishing (applied : Nat) (error : Option Error)
  /-- Returning, after the file was given up; `flush.go:40–45`. -/
  | leaving (applied : Nat) (error : Option Error)
  /-- A background job after its call; `buffer.go:672–684`. -/
  | ended (error : Option Error)
deriving DecidableEq, Repr

/-- The file recorded a loss that the cut has not seen; `flush.go:74` and others. -/
def File.lostSince (f : File) (cut : Cut) : Bool := decide (cut.lossSequence < f.lastLoss)

/-- The error of a loss that the cut has not seen; `flush.go:75–79`, `flush.go:246–249` and
others. -/
def File.lossError (f : File) (cut : Cut) : Error :=
  recordedLossError (if cut.lossSequence < f.lastGenericLoss then 0 else f.lastErrno)

/-- The sequences of a successful call must be nonzero and must not decrease; `flush.go:97–108`.
The result is the last of them. -/
def checkSequences (floor width : Nat) (sequences : List Nat) : Option Nat :=
  if sequences.length ≠ width then none
  else sequences.foldl
    (fun seq next => seq.bind fun s => if next = 0 ∨ next < s then none else some next) (some floor)

namespace Mount

/-- Push a record that was just applied; `flush.go:144`. -/
def pushApplied (m : Mount) (item : HeapItem) : Mount :=
  let h := Heap.push ⟨m.appliedHeap, m.heapIndex⟩ item
  { m with appliedHeap := h.items, heapIndex := h.index }

/-- Mark the records of an applied wave, from `accepted` on, with the pointer after them;
`flush.go:140–147`. -/
def applyEach (id : Identity) (first last applied : Nat) :
    List Retained → Option Nat → Mount → Mount × List Retained × Option Nat
  | [], accepted, m => (m, [], accepted)
  | r :: rest, accepted, m =>
    if r.record.seq ≤ last then
      if first ≤ r.record.seq then
        let out := applyEach id first last applied rest (rest.head?.map fun n => n.record.seq)
          (m.pushApplied ⟨id, r.record.seq, applied⟩)
        (out.1, r.mark applied :: out.2.1, out.2.2)
      else
        let out := applyEach id first last applied rest accepted m
        (out.1, r :: out.2.1, out.2.2)
    else (m, r :: rest, accepted)

/-- The top of the first heap moves to the second; `flush.go:268–270`. -/
def raise (m : Mount) (top : HeapItem) : Mount :=
  let h := (Heap.remove ⟨m.appliedHeap, m.heapIndex⟩ 0).1
  let v := Heap.push ⟨m.visibleHeap, h.index⟩ top
  { m with appliedHeap := h.items, visibleHeap := v.items, heapIndex := v.index }

/-- The top of the second heap leaves it; `flush.go:273`. -/
def settle (m : Mount) : Mount :=
  let h := (Heap.remove ⟨m.visibleHeap, m.heapIndex⟩ 0).1
  { m with visibleHeap := h.items, heapIndex := h.index }

end Mount

/-- Record an applied wave; `flush.go:130–150`. -/
def applyWave (id : Identity) (m : Mount) (l : Ledger) (p : Batch) (seq : Nat) : Mount × Ledger :=
  let out := m.applyEach id p.first (p.completedLast.getD 0) (max p.applied seq) l.unsettled l.accepted
  (out.1.note id (.reported p.entries seq),
    { l with
      flushOffset := p.endOffset, queue := l.settled ++ out.2.1, accepted := out.2.2
      pending := none })

/-- Change the state of a record. -/
def Ledger.setState (l : Ledger) (seq : Nat) (state : State) : Ledger :=
  { l with queue := l.queue.map fun r => if r.record.seq = seq then { r with state } else r }

namespace Buffer

/-- Visible sequences that were announced reach their records; `flush.go:267–271`. A round takes
one record from the heap. -/
def raiseVisible : Nat → Buffer → Buffer
  | 0, b => b
  | n + 1, b =>
    match b.mount.appliedHeap with
    | [] => b
    | top :: _ =>
      if top.applied ≤ b.mount.visible then
        raiseVisible n
          (b.putLedger top.file (b.mount.raise top) ((b.fileOf top.file).setState top.seq .visible))
      else b

/-- Release records from the head of a file and settle what that changes; `flush.go:276–285` and
`flush.go:254–263`. -/
def releaseHeads (b : Buffer) (id : Identity) (cause : Cause) (p : Retained → Bool) : Buffer :=
  let s := releaseWhile id cause p (b.fileOf id).queue (b.mount, (b.fileOf id).toLedger)
  { b with active := if s.2.queue.isEmpty then b.active.erase id else b.active }.putLedger id s.1
    s.2.sizeLocked

/-- Durable sequences that were announced reach their records, which leave in order;
`flush.go:272–286`. -/
def raiseDurable : Nat → Buffer → Buffer
  | 0, b => b
  | n + 1, b =>
    match b.mount.visibleHeap with
    | [] => b
    | top :: _ =>
      if top.applied ≤ b.mount.durable then
        let b := b.putLedger top.file b.mount.settle ((b.fileOf top.file).setState top.seq .durable)
        raiseDurable n
          (b.releaseHeads top.file (.watermark b.mount.visible b.mount.durable)
            fun r => decide (r.state = .durable))
      else b

/-- `flush.go:266–287`. -/
def advanceLocked (b : Buffer) : Buffer :=
  let b := b.raiseVisible b.mount.appliedHeap.length
  b.raiseDurable b.mount.visibleHeap.length

/-- `flush.go:217–223`. -/
def visibleSequence (b : Buffer) (seq : Nat) : Buffer :=
  { b with mount := { b.mount with visible := max b.mount.visible seq } }.advanceLocked

/-- `flush.go:227–233`. -/
def durableSequence (b : Buffer) (seq : Nat) : Buffer :=
  { b with mount := { b.mount with durable := max b.mount.durable seq } }.advanceLocked

/-- `flush.go:237–265`. -/
def durableIdentity (b : Buffer) (id : Identity) (cut : Cut) : Buffer × Option Error :=
  match b.files.lookup id with
  | none => (b, none)
  | some f =>
    if f.lostSince cut then (b, some (f.lossError cut))
    else if (f.queue.takeWhile fun r => decide (r.record.seq ≤ cut.sequence)).any
        fun r => decide (r.state = .accepted) then (b, some .invalid)
    else (b.releaseHeads id (.fsync cut) fun r => decide (r.record.seq ≤ cut.sequence), none)

/-- Enter; `flush.go:36–57`. -/
def flushEnter (b : Buffer) (id : Identity) : Buffer × Phase :=
  let f := b.fileOf id
  if f.flushing then (b.put id b.mount { f with flushUsers := f.flushUsers + 1 }, .waiting)
  else (b.put id b.mount { f with flushUsers := f.flushUsers + 1, flushing := true }, .running 0)

/-- Awake after waiting; `flush.go:49–57`. -/
def flushAwake (b : Buffer) (cancelled : Bool) (id : Identity) : Buffer × Phase :=
  if cancelled then (b, .leaving 0 (some .context))
  else if (b.fileOf id).flushing then (b, .waiting)
  else (b.update id fun f => { f with flushing := true }, .running 0)

/-- The identity's wave, formed now if there is none; `flush.go:19–27`. -/
def batchLocked (b : Buffer) (id : Identity) (cut : Cut) : Buffer × Option Batch :=
  match (b.fileOf id).pending with
  | some p => if cut.sequence < p.first then (b, none) else (b, some p)
  | none =>
    match Wave.form b.batchWidth b.batchPayload b.mount.token (b.fileOf id).toLedger cut with
    | none => (b, none)
    | some (p, token) =>
      (b.put id ({ b.mount with token }.note id (.formed cut p.entries))
        { b.fileOf id with pending := some p }, some p)

/-- One round up to the transport call; `flush.go:70–95`. -/
def flushNext (b : Buffer) (cancelled : Bool) (id : Identity) (cut : Cut) (applied : Nat) :
    Buffer × Phase :=
  if cancelled then (b, .finishing applied (some .context))
  else if (b.fileOf id).lostSince cut then
    (b, .finishing applied (some ((b.fileOf id).lossError cut)))
  else
    let applied := max applied (b.fileOf id).lastApplied
    match b.batchLocked id cut with
    | (b, none) => (b, .finishing applied none)
    | (b, some p) =>
      ({ b with mount := b.mount.note id (.offered p.entries) },
        .sending applied (max p.applied (b.fileOf id).lastApplied) p.entries)

/-- What the transport call means to the buffer; `flush.go:95–108`. -/
def flushResult (floor : Nat) (entries : List Entry) : Except Error (List Nat) → Except Error Nat
  | .error e => .error e
  | .ok sequences =>
    match checkSequences floor entries.length sequences with
    | none => .error .invalid
    | some seq => .ok seq

/-- The transport call returned; `flush.go:109–155`. A file has one place for its wave, and only the
caller that holds the file fills it: the wave is another one exactly if it was dropped. -/
def flushReturn (b : Buffer) (id : Identity) (cut : Cut) (applied floor : Nat)
    (entries : List Entry) (result : Except Error (List Nat)) : Buffer × Phase :=
  let f := b.fileOf id
  match f.pending with
  | none => (b, .finishing applied (some (f.lossError cut)))
  | some p =>
    match flushResult floor entries result with
    | .error e => (b, .finishing applied (some (.flush id ((entries.head?.map Entry.token).getD 0) e)))
    | .ok seq =>
      if seq = 0 ∨ seq < p.applied ∨ seq < f.lastApplied then
        (b, .finishing applied (some (.nonMonotonic id)))
      else
        let s := applyWave id b.mount f.toLedger p seq
        ((b.put id s.1 { f with toLedger := s.2, lastApplied := seq }).advanceLocked,
          .running (max applied seq))

/-- Give up the file; `flush.go:58–67`. -/
def flushFinish (b : Buffer) (id : Identity) : Buffer :=
  let f := { b.fileOf id with flushing := false }
  if !f.scheduled && f.reschedule && f.accepted.isSome then
    (b.put id b.mount { f with reschedule := false }).trigger
  else b.put id b.mount f

/-- Leave; `flush.go:40–45`. -/
def flushLeave (b : Buffer) (id : Identity) : Buffer :=
  b.update id fun f => { f with flushUsers := f.flushUsers - 1 }

end Buffer

/-- What a wait finds: an end with an answer, or a reason to wait on. -/
inductive Answer (α : Type)
  | done (answer : α)
  | wait
deriving DecidableEq, Repr

/-- A retained record of the cut; `flush.go:306`. -/
def File.retains (f : File) (sequence : Nat) : Bool :=
  f.queue.head?.any fun r => decide (r.record.seq ≤ sequence)

namespace Buffer

/-- Some active file retains a record of the cut; `flush.go:316–318`. -/
def anyRetains (b : Buffer) (sequence : Nat) : Bool :=
  b.active.any fun id => (b.fileOf id).retains sequence

/-- The end of a round of waiting; `flush.go:320–325`. -/
def waitOn (b : Buffer) (pending : Bool) : Answer (Option Error) :=
  if !pending then .done none else if b.stopped then .done (some .lost) else .wait

/-- `flush.go:291–334`. -/
def waitDurable (b : Buffer) (id : Option Identity) (cut : Cut) : Answer (Option Error) :=
  match id with
  | some id =>
    match b.files.lookup id with
    | none => b.waitOn false
    | some f =>
      if f.lostSince cut then .done (some (f.lossError cut)) else b.waitOn (f.retains cut.sequence)
  | none =>
    if cut.lossSequence < b.mount.loss then
      .done (some (recordedLossError
        (if cut.lossSequence < b.lastGenericLoss then 0 else b.lastErrno)))
    else b.waitOn (b.anyRetains cut.sequence)

/-- What `WaitBarrier` returns: whether records of the barrier were lost, and an error. -/
abbrev BarrierResult := Bool × Option Error

/-- `flush.go:391–434`; an unknown barrier has no state. -/
def waitBarrier (b : Buffer) (barrier : Nat) : Answer BarrierResult :=
  match b.barriers[barrier]? with
  | none => .done (false, some .invalid)
  | some s =>
    if s.lost then
      .done (true, if s.generic ∨ s.errno = 0 then none else some (.errno s.errno))
    else if !b.anyRetains s.cut.sequence then .done (false, none)
    else if b.stopped then .done (false, some .lost)
    else .wait

end Buffer
end PortableFS.Writeback
