import PortableFS.Writeback.Buffer

/-!
# Retirement, shutdown and the background scheduler

Module `writeback`, `vcs/internal/writeback/buffer.go:598–901`. The parts of a buffer's life that
move no byte: fencing and retiring generations, forgetting identities, releasing the arenas, and
the scan that hands files to background workers.
-/

namespace PortableFS.Writeback

open PortableFS.Base

/-- `buffer.go:762–769`. -/
structure Retirement where
  files : List Identity
  all : Bool
  cut : Cut
  resumed : Bool
  detached : Bool
deriving DecidableEq, Repr

/-- How an attempt to begin a retirement ends. -/
inductive Retiring
  | begun (r : Retirement)
  | failed (error : Error)
  | blocked
deriving DecidableEq, Repr

/-- The file still has a record of the cut that is not applied; `buffer.go:829`. -/
def File.pendingThrough (f : File) (cut : Cut) : Bool :=
  f.accepted.any fun seq => decide (seq ≤ cut.sequence)

/-- Stop serving the retained records of a file; `buffer.go:872–879`. -/
def Ledger.detach (l : Ledger) (pool : List Nat) : Ledger × List Nat :=
  let cleared := l.extents.clear pool
  ({ l with
      extents := cleared.1
      queue := l.queue.map fun r => { r with inOverlay := false }
      truncates := [], size := 0, exact := false }, cleared.2)

namespace Buffer

/-- Apply a change to each of the listed files. -/
def updateEach (g : File → File) (b : Buffer) (ids : List Identity) : Buffer :=
  ids.foldl (fun b id => b.update id g) b

/-- Some file is in retirement. -/
def anyRetiring (b : Buffer) : Bool := b.files.entries.any fun e => e.2.retiring

/-- Whether a retirement has to wait for another one, with the buffer after the question, which
creates the file it asks for; `buffer.go:793–800`. -/
def retireBusy (b : Buffer) (id : Option Identity) : Buffer × Bool :=
  if b.retiringAll then (b, true)
  else
    match id with
    | some id => (b.touch id, (b.fileOf id).retiring)
    | none => (b, b.anyRetiring)

/-- One attempt to begin a retirement; `buffer.go:783–825`. -/
def beginRetire (b : Buffer) (cancelled : Bool) (id : Option Identity) (drain : Bool) :
    Buffer × Retiring :=
  if cancelled then (b, .failed .context)
  else if b.stopped && !drain || drain && b.cancelled then (b, .failed .closed)
  else
    let asked := b.retireBusy id
    if asked.2 then (asked.1, .blocked)
    else
      let b := asked.1
      match id with
      | some id =>
        (b.update id fun f => { f with retiring := true },
          .begun ⟨[id], false, b.snapshot, false, false⟩)
      | none =>
        ({ b with retiringAll := true }.updateEach (fun f => { f with retiring := true }) b.files.keys,
          .begun ⟨b.files.keys, true, b.snapshot, false, false⟩)

/-- Some covered file still has a record of the cut that is not applied. -/
def retirePending (b : Buffer) (r : Retirement) : Bool :=
  r.files.any fun id => (b.fileOf id).pendingThrough r.cut

/-- `buffer.go:827–849`. -/
def resume (b : Buffer) (r : Retirement) : Buffer × Retirement × Option Error :=
  if r.resumed then (b, r, none)
  else if b.retirePending r then (b, r, some (.resume .pending))
  else
    let b := b.updateEach (fun f => { f with retiring := false, generation := f.generation + 1 }) r.files
    ({ b with retiringAll := if r.all then false else b.retiringAll }, { r with resumed := true }, none)

/-- The first refusal among the covered files; `buffer.go:865–872`. -/
def detachRefusal (b : Buffer) (r : Retirement) : List Identity → Option Error
  | [] => none
  | id :: ids =>
    if !(b.fileOf id).retiring then some .invalid
    else if (b.fileOf id).pendingThrough r.cut then some .pending
    else detachRefusal b r ids

/-- Detach one file. -/
def detachFile (b : Buffer) (id : Identity) : Buffer :=
  let detached := (b.fileOf id).detach b.mount.pool
  b.putLedger id { b.mount with pool := detached.2 } detached.1

/-- `buffer.go:861–883`. -/
def detachOverlay (b : Buffer) (r : Retirement) : Buffer × Retirement × Option Error :=
  if r.resumed then (b, r, some .invalid)
  else
    match b.detachRefusal r r.files with
    | some e => (b, r, some e)
    | none => (r.files.foldl detachFile b, { r with detached := true }, none)

/-- `buffer.go:887–902`. -/
def cancelRetire (b : Buffer) (r : Retirement) : Buffer × Retirement :=
  if r.resumed || r.detached then (b, r)
  else
    let b := b.updateEach (fun f => { f with retiring := false }) r.files
    ({ b with retiringAll := if r.all then false else b.retiringAll }, { r with resumed := true })

/-- `buffer.go:736–741`, the state after it. -/
def generation (b : Buffer) (id : Identity) : Buffer := b.touch id

/-- The condition of `buffer.go:752`. -/
def idle (b : Buffer) (f : File) : Bool :=
  f.queue.isEmpty && !f.retiring && f.flushUsers == 0 && !f.flushing && !f.scheduled && !f.lost &&
    !b.retiringAll

/-- `buffer.go:745–757`. -/
def forget (b : Buffer) (id : Identity) : Buffer × Bool :=
  match b.files.lookup id with
  | none => (b, true)
  | some f => if b.idle f then ({ b with files := b.files.erase id }, true) else (b, false)

/-- `buffer.go:600–605`. -/
def fenceAdmissions (b : Buffer) : Buffer := { b with stopped := true }

/-- Reject admissions and cancel the background work; `buffer.go:610–612`. -/
def stop (b : Buffer) : Buffer := { b.fenceAdmissions with cancelled := true }

/-- Visit the files in some order, stopping at one that is in use; `buffer.go:646–652`. -/
def releaseFiles (b : Buffer) : List Identity → Buffer × Bool
  | [] => (b, true)
  | id :: ids =>
    if (b.fileOf id).flushing || (b.fileOf id).flushUsers != 0 then (b, false)
    else
      releaseFiles (b.update id fun f =>
        { f with extents := { f.extents with root := .nil }, scheduled := false }) ids

/-- `buffer.go:635–656`; the order of the map is unspecified. -/
def releaseStorage (b : Buffer) (order : List Identity) : Buffer × Option Error :=
  if !b.done then (b, some .invalid)
  else if b.mount.count ≠ 0 then (b, some .invalid)
  else
    let visited := b.releaseFiles (arrange order b.files.keys)
    if visited.2 then
      ({ visited.1 with
          arenas := false
          mount := { visited.1.mount with free := [], pool := [], appliedHeap := [], visibleHeap := [] } },
        none)
    else (visited.1, some .invalid)

end Buffer

/-- `buffer.go:658–661`. -/
structure BackgroundFlush where
  file : Identity
  cut : Cut
deriving DecidableEq, Repr

/-- What the scan does to one active file, and whether it hands it to a worker;
`buffer.go:704–722`. -/
def File.scan (f : File) : File × Bool :=
  if f.scheduled then (f, false)
  else if f.flushing then (if f.accepted.isSome then { f with reschedule := true } else f, false)
  else if f.accepted.isNone then ({ f with reschedule := false }, false)
  else ({ f with reschedule := false, scheduled := true }, true)

namespace Buffer

/-- The scan over some active files. -/
def scanEach (cut : Cut) : List Identity → Buffer → Buffer × List BackgroundFlush
  | [], b => (b, [])
  | id :: ids, b =>
    let rest := scanEach cut ids (b.update id fun f => f.scan.1)
    (rest.1, if (b.fileOf id).scan.2 then ⟨id, cut⟩ :: rest.2 else rest.2)

/-- One round of the scheduler after it took the kick; `buffer.go:696–724`. -/
def scan (b : Buffer) (order : List Identity) : Buffer × List BackgroundFlush :=
  scanEach b.snapshot (arrange order b.active) { b with kick := false }

/-- The end of a background job; `buffer.go:678–684`. -/
def jobEnd (b : Buffer) (id : Identity) : Buffer :=
  let f := { b.fileOf id with scheduled := false }
  if f.reschedule && f.accepted.isSome then
    (b.put id b.mount { f with reschedule := false }).trigger
  else b.put id b.mount f

end Buffer
end PortableFS.Writeback
