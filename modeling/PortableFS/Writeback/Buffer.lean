import PortableFS.Writeback.ExtentMap
import PortableFS.Writeback.Heap

/-!
# Write-back buffer

Module `writeback`, `vcs/internal/writeback/buffer.go`. A critical section of the source is one
function of the buffer. A caller that has to wait for a change leaves the buffer as it is and
enters the section again. `none` is a panic: an empty arena, or an empty list of free records.

A record is named by its sequence wherever the source holds a pointer to it, a file by its
identity, and a barrier by its place in the list of barriers. The admission counters of `Stats`
and the channel that wakes waiting callers are left out.
-/

namespace PortableFS.Writeback

open PortableFS.Base

/-- Why a record left the buffer. -/
inductive Cause
  /-- The watermarks passed it; `flush.go:283–287`. -/
  | watermark (visible durable : Nat)
  /-- An `FSYNC` of its file covered it; `flush.go:254–258`. -/
  | fsync (cut : Cut)
  /-- It was dropped under this loss ticket; `buffer.go:546–552`. -/
  | dropped (ticket : Nat)
deriving DecidableEq, Repr

/-- History of one identity. No function of the model reads it. -/
inductive Event
  | accepted (r : Record)
  /-- A new wave was formed for a cut. -/
  | formed (cut : Cut) (entries : List Entry)
  /-- `FlushBatch` was called. -/
  | offered (entries : List Entry)
  /-- `FlushBatch` reported the wave applied. -/
  | reported (entries : List Entry) (applied : Nat)
  | left (r : Retained) (cause : Cause)
  | dropped (report : DropReport)
deriving DecidableEq, Repr

/-- What the files of a mount share; fields of `Buffer`, `buffer.go:58–84`. Free records and free
extent nodes are lists of their places. -/
structure Mount where
  appliedHeap : List HeapItem
  visibleHeap : List HeapItem
  heapIndex : Nat → Nat
  free : List Nat
  pool : List Nat
  bytes : Int
  count : Int
  sequence : Nat
  loss : Nat
  token : Nat
  visible : Nat
  durable : Nat
  trace : Identity → List Event

/-- The part of a file that is about its retained records; `buffer.go:28–51`. The queue is the list
from `head` to `tail`; `truncates` is the list from `lastTruncate` back; `accepted` names the oldest
record that is not applied. -/
structure Ledger where
  flushOffset : Nat
  queue : List Retained
  extents : ExtentMap
  size : Nat
  exact : Bool
  pending : Option Batch
  truncates : List Record
  accepted : Option Nat

/-- `buffer.go:28–51`. -/
structure File extends Ledger where
  generation : Nat
  retiring : Bool
  lastLoss : Nat
  lastErrno : Nat
  lastGenericLoss : Nat
  lost : Bool
  flushUsers : Nat
  flushing : Bool
  lastApplied : Nat
  scheduled : Bool
  reschedule : Bool

/-- A file that was not seen before; `buffer.go:127`. -/
def File.new : File :=
  { flushOffset := 0, generation := 1, retiring := false, queue := [], extents := .empty, size := 0,
    exact := false, lastLoss := 0, lastErrno := 0, lastGenericLoss := 0, lost := false,
    flushUsers := 0, flushing := false, pending := none, truncates := [], accepted := none,
    lastApplied := 0, scheduled := false, reschedule := false }

/-- `buffer.go:58–84`. `active` holds the keys of the map of that name, `cancelled` says that the
buffer's context is cancelled, `kick` and `done` that their channels hold a value or are closed, and
`arenas` that the records and the extent nodes are allocated. -/
structure Buffer where
  batchWidth : Nat
  batchPayload : Nat
  maxFlushIdentities : Nat
  maxBytes : Nat
  maxEntries : Nat
  files : Assoc Identity File
  active : List Identity
  mount : Mount
  lastErrno : Nat
  lastGenericLoss : Nat
  barriers : List BarrierState
  retiringAll : Bool
  stopped : Bool
  kick : Bool
  cancelled : Bool
  done : Bool
  arenas : Bool

/-- `types.go:131–140`. -/
structure Options where
  initialLossSequence : Nat
  maxBytes : Int
  maxEntries : Int
  maxFlushIdentities : Int

/-- A limit of the options, or its default. -/
def Options.limit (value : Int) (default : Nat) : Nat := if value = 0 then default else value.toNat

namespace Mount

/-- `buffer.go:99–119`. -/
def new (maxEntries loss : Nat) : Mount :=
  { appliedHeap := [], visibleHeap := [], heapIndex := fun _ => 0,
    free := (List.range maxEntries).reverse, pool := (List.range (2 * maxEntries + 2)).reverse,
    bytes := 0, count := 0, sequence := 0, loss := loss, token := 0, visible := 0, durable := 0,
    trace := fun _ => [] }

/-- Extend the history of an identity. -/
def note (m : Mount) (id : Identity) (e : Event) : Mount :=
  { m with trace := Function.update m.trace id (m.trace id ++ [e]) }

/-- `buffer.go:325`. -/
def cut (m : Mount) : Cut := ⟨m.sequence, m.loss⟩

/-- Take a record out of the heap it is in; `buffer.go:574–578`. -/
def unheap (m : Mount) (r : Retained) : Mount :=
  match r.state with
  | .applied =>
    let h := (Heap.remove ⟨m.appliedHeap, m.heapIndex⟩ (m.heapIndex r.record.seq)).1
    { m with appliedHeap := h.items, heapIndex := h.index }
  | .visible =>
    let h := (Heap.remove ⟨m.visibleHeap, m.heapIndex⟩ (m.heapIndex r.record.seq)).1
    { m with visibleHeap := h.items, heapIndex := h.index }
  | .accepted => m
  | .durable => m

end Mount

namespace Buffer

/-- `buffer.go:88–122`. -/
def new (width payload : Int) (opts : Options) : Except Error Buffer :=
  if opts.maxBytes < 0 ∨ opts.maxEntries < 0 ∨ opts.maxFlushIdentities < 0 then .error .invalid
  else if width ≤ 0 ∨ maxWaveWidth < width ∨ payload ≤ 0 ∨ maxPayload < payload then
    .error .invalid
  else
    let maxEntries := Options.limit opts.maxEntries defaultMaxEntries
    .ok
      { batchWidth := width.toNat, batchPayload := payload.toNat,
        maxFlushIdentities := Options.limit opts.maxFlushIdentities 16,
        maxBytes := Options.limit opts.maxBytes defaultMaxBytes, maxEntries,
        files := ∅, active := [], mount := .new maxEntries opts.initialLossSequence,
        lastErrno := 0, lastGenericLoss := 0, barriers := [], retiringAll := false,
        stopped := false, kick := false, cancelled := false, done := false, arenas := true }

/-- The file of an identity, the value of a new one when there is none. -/
def fileOf (b : Buffer) (id : Identity) : File := (b.files.lookup id).getD File.new

/-- Store the file of an identity together with what files share. -/
def put (b : Buffer) (id : Identity) (m : Mount) (f : File) : Buffer :=
  { b with files := b.files.insert id f, mount := m }

/-- Store the books of a file together with what files share. -/
def putLedger (b : Buffer) (id : Identity) (m : Mount) (l : Ledger) : Buffer :=
  b.put id m { b.fileOf id with toLedger := l }

/-- Change fields of a file that concern it alone. -/
def update (b : Buffer) (id : Identity) (f : File → File) : Buffer :=
  b.put id b.mount (f (b.fileOf id))

/-- Create the file of an identity if there is none; `buffer.go:124–131`. -/
def touch (b : Buffer) (id : Identity) : Buffer := b.update id fun f => f

/-- `buffer.go:152–157`. -/
def trigger (b : Buffer) : Buffer := { b with kick := true }

/-- `buffer.go:325`. -/
def snapshot (b : Buffer) : Cut := b.mount.cut

end Buffer

/-- A record that was just accepted, with the flag that `overlay` sets. -/
def Record.fresh (r : Record) : Retained := ⟨r, .accepted, 0, true⟩

/-- A record whose last byte was applied; `flush.go:142–143`. -/
def Retained.mark (r : Retained) (applied : Nat) : Retained := { r with state := .applied, applied }

/-- Link a record at the tail; `buffer.go:264–275`. -/
def Ledger.link (l : Ledger) (r : Record) : Ledger :=
  { l with queue := l.queue ++ [r.fresh], accepted := l.accepted.or (some r.seq) }

/-- The size that the retained records give the file; `buffer.go:318–324`. -/
def Ledger.sizeLocked (l : Ledger) : Ledger :=
  { l with
    size := match l.truncates with
      | [] => l.extents.root.extentEnd
      | r :: _ => max l.extents.root.extentEnd r.attrs.size.toNat
    exact := !l.truncates.isEmpty }

/-- Paint a range for a record. -/
def Ledger.paint (l : Ledger) (pool : List Nat) (lo hi : Nat) (data : Option (List UInt8))
    (r : Record) : Option (Ledger × List Nat) :=
  match l.extents.set pool lo hi data (some r.seq) with
  | none => none
  | some (extents, pool) => some ({ l with extents }, pool)

/-- Paint the bytes of a write; `buffer.go:304–306`. -/
def overlayWrite (l : Ledger) (pool : List Nat) (r : Record) : Option (Ledger × List Nat) :=
  if r.kind = .write then l.paint pool r.off (r.off + r.data.length) (some r.data) r
  else some (l, pool)

/-- Paint the zeros behind a new size; `buffer.go:307–316`. -/
def overlaySize (l : Ledger) (pool : List Nat) (r : Record) : Option (Ledger × List Nat) :=
  if r.attrs.hasSize then
    let l := { l with truncates := r :: l.truncates }
    if r.attrs.size < maxInt64 then l.paint pool r.attrs.size.toNat maxInt64 none r
    else some (l, pool)
  else some (l, pool)

/-- `buffer.go:302–318`. -/
def overlay (l : Ledger) (pool : List Nat) (r : Record) : Option (Ledger × List Nat) :=
  match overlayWrite l pool r with
  | none => none
  | some (l, pool) =>
    match overlaySize l pool r with
    | none => none
    | some (l, pool) => some (l.sizeLocked, pool)

/-- What a call sees from outside the buffer: whether its context is cancelled, what the
frontend's admission check answers, and the clock. -/
structure Env where
  cancelled : Bool
  check : Option Error
  now : Int

/-- How an attempt to admit ends. -/
inductive Admission
  | admitted (cut : Cut)
  | failed (error : Error)
  | blocked
deriving DecidableEq, Repr

/-- Times that ask for the present are resolved once; `buffer.go:249–260`. -/
def Attributes.resolve (a : Attributes) (now : Int) : Attributes :=
  let a := if a.atimeNow then { a with atimeNS := now, hasATime := true, atimeNow := false } else a
  if a.mtimeNow then { a with mtimeNS := now, hasMTime := true, mtimeNow := false } else a

namespace Buffer

/-- The condition of `buffer.go:247`. -/
def hasRoom (b : Buffer) (id : Identity) (data : List UInt8) : Bool :=
  !b.retiringAll && !(b.fileOf id).retiring && decide (b.mount.count < b.maxEntries) &&
    decide (b.mount.bytes < b.maxBytes) && decide ((data.length : Int) ≤ b.maxBytes - b.mount.bytes)

/-- Accept an operation that has room; `buffer.go:248–284`. -/
def accept (b : Buffer) (now : Int) (id : Identity) (kind : Kind) (off : Nat) (data : List UInt8)
    (a : Attributes) (opts : WriteOptions) : Option Buffer :=
  match b.mount.free with
  | [] => none
  | slot :: free =>
    let f := b.fileOf id
    let r : Record :=
      { slot, seq := b.mount.sequence + 1, generation := f.generation, acceptedAt := now, kind, off,
        data, attrs := a.resolve now, writeOptions := opts }
    match overlay (f.link r) b.mount.pool r with
    | none => none
    | some (l, pool) =>
      let f := { f with toLedger := l, reschedule := f.reschedule || f.scheduled || f.flushing }
      let m := { b.mount with
        free, pool, sequence := r.seq, count := b.mount.count + 1
        bytes := b.mount.bytes + data.length }
      some ({ b with active := b.active.insert id }.put id (m.note id (.accepted r)) f).trigger

/-- One attempt of `admit`; `buffer.go:223–301`. -/
def admitOp (b : Buffer) (env : Env) (id : Identity) (generation : Nat) (kind : Kind) (off : Nat)
    (data : List UInt8) (a : Attributes) (opts : WriteOptions) : Option (Buffer × Admission) :=
  if env.cancelled then some (b, .failed .context)
  else if b.stopped then some (b, .failed .closed)
  else
    match env.check with
    | some e => some (b, .failed e)
    | none =>
      let b := b.touch id
      if generation ≠ 0 ∧ (b.fileOf id).generation ≠ generation then some (b, .failed .lost)
      else if b.hasRoom id data then
        match b.accept env.now id kind off data a opts with
        | none => none
        | some b => some (b, .admitted b.snapshot)
      else if b.mount.count = b.maxEntries ∨ b.mount.bytes = b.maxBytes ∨
          (b.maxBytes : Int) - b.mount.bytes < data.length then some (b.trigger, .blocked)
      else some (b, .blocked)

/-- `buffer.go:174–179`; `WriteWithOptions` passes generation zero. -/
def writeInGeneration (b : Buffer) (env : Env) (id : Identity) (generation : Nat) (off : Int)
    (data : List UInt8) (opts : WriteOptions) : Option (Buffer × Admission) :=
  if off < 0 ∨ data = [] ∨ maxInt64 - off < data.length ∨ b.maxBytes < data.length then
    some (b, .failed .invalid)
  else b.admitOp env id generation .write off.toNat data .none opts

/-- `buffer.go:189–194`. -/
def truncateInGeneration (b : Buffer) (env : Env) (id : Identity) (generation : Nat) (size : Int) :
    Option (Buffer × Admission) :=
  if size < 0 then some (b, .failed .invalid)
  else b.admitOp env id generation .truncate 0 [] { Attributes.none with size, hasSize := true } .none

/-- `buffer.go:204–209`. -/
def setAttrInGeneration (b : Buffer) (env : Env) (id : Identity) (generation : Nat)
    (a : Attributes) : Option (Buffer × Admission) :=
  if a.hasCTime ∨ a.hasSize ∧ a.size < 0 ∨ a.atimeNow ∧ a.hasATime ∨ a.mtimeNow ∧ a.hasMTime then
    some (b, .failed .invalid)
  else b.admitOp env id generation .setAttr 0 [] a .none

end Buffer

/-- Give back everything a record holds; `buffer.go:573–596`. -/
def release (id : Identity) (cause : Cause) (m : Mount) (l : Ledger) (r : Retained) :
    Mount × Ledger :=
  let m := m.unheap r
  let retired := l.extents.retire m.pool r.record.seq
  let m := { m with
    pool := retired.2, count := m.count - 1, bytes := m.bytes - r.record.data.length
    free := r.record.slot :: m.free }
  (m.note id (.left r cause),
    { l with
      extents := retired.1
      truncates :=
        if r.inOverlay && r.record.attrs.hasSize then l.truncates.erase r.record else l.truncates })

/-- Release records from the head of a queue while they satisfy a condition. -/
def releaseWhile (id : Identity) (cause : Cause) (p : Retained → Bool) :
    List Retained → Mount × Ledger → Mount × Ledger
  | [], s => (s.1, { s.2 with queue := [] })
  | r :: rest, s =>
    if p r then releaseWhile id cause p rest (release id cause s.1 { s.2 with queue := rest } r)
    else (s.1, { s.2 with queue := r :: rest })

/-- What a drop does to a barrier; `buffer.go:518–534`. -/
def BarrierState.drop (s : BarrierState) (f : File) (errno : Nat) : BarrierState :=
  if s.registered && f.queue.head?.any (fun r => decide (r.record.seq ≤ s.cut.sequence)) then
    if errno = 0 then { s with lost := true, generic := true, errno := 0 }
    else if s.generic then { s with lost := true }
    else { s with lost := true, errno }
  else s

/-- The loss facts that a drop leaves at its file, and its new generation; `buffer.go:537–544,564`. -/
def File.lose (f : File) (ticket errno : Nat) : File :=
  { f with
    lastLoss := ticket
    lastErrno := errno
    lastGenericLoss := if errno = 0 then ticket else f.lastGenericLoss
    lost := true
    reschedule := false
    generation := f.generation + 1 }

/-- The books of a file and what files share, after a drop with this report; `buffer.go:537–563`. -/
def dropRecords (m : Mount) (l : Ledger) (report : DropReport) : Mount × Ledger :=
  let cleared := l.extents.clear m.pool
  let m := { m with loss := report.lossSequence, pool := cleared.2 }
  let l := { l with extents := cleared.1, size := 0, exact := false }
  let s := releaseWhile report.identity (.dropped report.lossSequence) (fun _ => true) l.queue (m, l)
  (s.1.note report.identity (.dropped report),
    { s.2 with pending := none, flushOffset := 0, accepted := none, truncates := [] })

namespace Buffer

/-- `buffer.go:516–572`. -/
def dropLocked (b : Buffer) (id : Identity) (reason : String) (errno : Nat) : Buffer × DropReport :=
  let f := b.fileOf id
  let report : DropReport :=
    { errno, identity := id, reason, bytes := (f.queue.map fun r => r.record.data.length).sum
      entries := f.queue.length, lossSequence := b.mount.loss + 1 }
  let s := dropRecords b.mount f.toLedger report
  ({ b with
      barriers := b.barriers.map (BarrierState.drop · f errno)
      lastErrno := errno
      lastGenericLoss := if errno = 0 then report.lossSequence else b.lastGenericLoss
      active := b.active.erase id }.put id s.1
    { f.lose report.lossSequence errno with toLedger := s.2 }, report)

/-- The identities that still retain records, one after the other; `buffer.go:504–514`. -/
def dropEach (reason : String) : List Identity → Buffer → Buffer × List DropReport
  | [], b => (b, [])
  | id :: ids, b =>
    if (b.fileOf id).queue.isEmpty then dropEach reason ids b
    else
      let dropped := b.dropLocked id reason 0
      let rest := dropEach reason ids dropped.1
      (rest.1, dropped.2 :: rest.2)

/-- `buffer.go:504–514`; the order of the map is unspecified. -/
def dropAll (b : Buffer) (order : List Identity) (reason : String) : Buffer × List DropReport :=
  dropEach reason (arrange order b.active) b

/-- `buffer.go:336–350`, with the name of the new barrier. -/
def beginBarrier (b : Buffer) (observedLoss : Nat) : Buffer × Nat :=
  let lost := decide (observedLoss < b.mount.loss)
  let generic := lost && decide (observedLoss < b.lastGenericLoss)
  let state : BarrierState :=
    { cut := b.snapshot, lost, generic, errno := if lost && !generic then b.lastErrno else 0
      registered := true }
  ({ b with barriers := b.barriers ++ [state] }, b.barriers.length)

/-- `buffer.go:353–360`. -/
def endBarrier (b : Buffer) (barrier : Nat) : Buffer :=
  { b with barriers := b.barriers.modify barrier fun s => { s with registered := false } }

/-- `buffer.go:403–413`, the state after it. -/
def clearLost (b : Buffer) (id : Identity) : Buffer :=
  match b.files.lookup id with
  | none => b
  | some f => b.put id b.mount { f with lost := false }

/-- `buffer.go:417–425`. -/
def identityLoss (b : Buffer) (id : Identity) : Nat :=
  match b.files.lookup id with
  | none => 0
  | some f => f.lastLoss

/-- `buffer.go:327–332`. -/
def hasRetainedThrough (b : Buffer) (id : Identity) (sequence : Nat) : Bool :=
  match b.files.lookup id with
  | none => false
  | some f => f.queue.head?.any fun r => decide (r.record.seq ≤ sequence)

end Buffer
end PortableFS.Writeback
