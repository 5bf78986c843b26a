import PortableFS.Restore.Archive
import PortableFS.Restore.Map

/-!
# The restore mode as a machine of threads

`vcs/internal/restoremode/mode.go`. Every call of the mode and every attempt of a drain worker is
a thread with a program of instructions; between two instructions any other thread may run. A
lock region of the source is a pair of `acquire` and `release`, and a call that fails releases
what it holds and returns its error. What the hydrator, the store and the file system answer is
chosen by the environment at each instruction. `log` records the user operations on each file;
`stable` and `stableLog` are the file and its log at its last `fdatasync`, which is what a crash
leaves. Recall deadlines, limits and statistics appear only through the errors they cause.
-/

namespace PortableFS.Restore

open Base.ByteFile

/-- A stable file identity. -/
abbrev Identity := BitVec 128

/-- A thread of the machine. -/
abbrev Tid := Nat

/-- What a mode is opened with: the ready marker and the bindings, whose entries are all below
their number. -/
structure Config where
  volumeID : String
  sealedEpoch : Nat
  attempt : String
  maxStoredChunks : Nat
  entries : Nat
  digest : Vector UInt8 32
  bindings : Identity → Option Entry
  bindings_lt : ∀ id entry, bindings id = some entry → entry.toNat < entries

/-- The fields of `InfoPage`, `protocol.go:32`, that the bootstrap reads. -/
structure InfoPage where
  formatVersion : UInt32
  volumeID : String
  sealedEpoch : Nat
  attempt : String
  chunkSize : UInt32
  entryCount : UInt32
  chunkCount : Nat
  drainCount : Nat
  order : List ChunkKey
deriving DecidableEq

/-- The page of a mode without INFO: the zero value. -/
def InfoPage.zero : InfoPage := ⟨0, "", 0, "", 0, 0, 0, 0, []⟩

/-- The reasons for which the bootstrap calls a volume corrupt, `mode.go:135`. -/
inductive BootFault where
  | unsupportedFormat (version : UInt32)
  | volumeMismatch
  | epochMismatch
  | attemptMismatch
  | zeroChunkSize
  | entryCountMismatch
  | drainCount
  | entryOutOfRange
  | duplicateChunk
  | unresolvedEntry (entry : Entry)
  | outsideSize
  | map (error : MapError)
deriving DecidableEq

/-- The errors of the mode, `types.go:20`, and those its store and map return. -/
inductive RestoreError where
  | recallDeadline
  | blocked
  | corrupt
  | protocol
  | canceled
  | rangeOverflow
  | chunkOverflow
  | storage
  | install
  | map (error : MapError)
  | boot (fault : BootFault)
  | apply
deriving DecidableEq

/-- `State`, `types.go:145`. -/
inductive Health where
  | healthy
  | blocked
  | corrupt
deriving DecidableEq

/-- The health after a failure: corruption is sticky. -/
def Health.note (health : Health) (error : RestoreError) : Health :=
  if health = .corrupt then .corrupt
  else
    match error with
    | .corrupt | .protocol | .boot _ => .corrupt
    | _ => .blocked

/-- The health after a success: only a block is lifted. -/
def Health.clear (health : Health) : Health := if health = .blocked then .healthy else health

/-- The locks of the mode: the shards of `chunkLocks` and the `entryLocks`. -/
inductive Lock where
  | shard (index : Nat)
  | entry (entry : Entry)
deriving DecidableEq

/-- `mode.go:641`: the shard of a chunk. -/
def chunkLock (key : ChunkKey) : Nat :=
  ((key.entry.toUInt64 * 0x9e3779b185ebca87) ^^^ key.chunk.toUInt64).toNat % 4096

/-- The instructions of a thread. -/
inductive Instr where
  | acquire (lock : Lock)
  | release (lock : Lock)
  | hydrate (key : ChunkKey) (durable : Bool)
  | fetch (key : ChunkKey) (durable : Bool)
  | install (key : ChunkKey)
  | sync (entry : Entry)
  | mark (keys : List ChunkKey) (userEntry : Option Entry)
  | markLazy (key : ChunkKey)
  | clearBlocked
  | boundary (entry : Entry) (oldSize newSize : Nat)
  | apply (entry : Option Entry) (op : FileOp)
  | beyond (entry : Entry) (keys : List ChunkKey) (newSize : Nat)
  | reap (key : ChunkKey)

/-- The calls of the mode, and one attempt of a drain worker. The caller of `Truncate` has read
the size of the file just before. -/
inductive Call where
  | ensureHydrated (id : Identity) (offset length : Nat)
  | write (id : Identity) (op : RangeOp)
  | truncate (id : Identity) (newSize : Nat)
  | userMutation (id : Identity)
  | drain (key : ChunkKey)

/-- A failed hydration is noted, except for a deadline of a user call and for a drain that a user
call preempted. -/
def Call.notes : Call → RestoreError → Bool
  | .drain _, error => error ≠ .canceled
  | _, error => error ≠ .recallDeadline

/-- A call in progress: what is left to do, the locks it holds, and its error. -/
structure Thread where
  call : Call
  prog : List Instr
  held : List Lock
  error : Option RestoreError

/-- What the environment answers to one instruction: a failed fetch; a failed `PWrite` after some
bytes; a failed `RestoreMtime`, `Fdatasync` or map append; a refused `apply`; no reference to an
unlinked inode. -/
structure Env where
  fetch : Option RestoreError
  written : Option Nat
  mtimeLost : Bool
  syncFails : Bool
  map : Fault
  refused : Bool
  unreferenced : Bool

/-- Everything succeeds. -/
def Env.ok : Env := ⟨none, none, false, false, .none, false, false⟩

/-- `Mode` with its store. `present` are the entries whose descriptor the store holds. -/
structure Machine where
  initialized : Bool
  converged : Bool
  health : Health
  storageFailed : Bool
  info : InfoPage
  map : Option HydrationMap
  mapFile : List UInt8
  locks : Lock → Option Tid
  threads : Tid → Option Thread
  disk : Entry → List UInt8
  log : Entry → List FileOp
  stable : Entry → List UInt8
  stableLog : Entry → List FileOp
  linked : Entry → Bool
  present : Entry → Bool
  ran : List Tid
  panicked : Bool

/-- A volume as the restore materialized it, before the mode has INFO. -/
def Machine.materialized (A : Archive) : Machine where
  initialized := false
  converged := false
  health := .healthy
  storageFailed := false
  info := .zero
  map := none
  mapFile := []
  locks := fun _ => none
  threads := fun _ => none
  disk := A.sparse
  log := fun _ => []
  stable := A.sparse
  stableLog := fun _ => []
  linked := fun _ => true
  present := fun _ => true
  ran := []
  panicked := false

namespace Machine

/-- `mode.go:238`. -/
def noteFailure (s : Machine) (error : RestoreError) : Machine :=
  { s with health := s.health.note error }

/-- `mode.go:251`. -/
def clearBlocked (s : Machine) : Machine := { s with health := s.health.clear }

/-- `mode.go:259`. -/
def contentError (s : Machine) : Option RestoreError :=
  if s.converged then none
  else
    match s.health with
    | .blocked => some .blocked
    | .corrupt => some .corrupt
    | .healthy => none

/-- `mode.go:589`. -/
def failStorage (s : Machine) : Machine :=
  { s with storageFailed := true, health := if s.storageFailed then s.health else .corrupt }

/-- The chunks of a file of the given size, `mode.go:165`. -/
def chunksOf (size : Nat) (chunkSize : UInt32) : Nat :=
  if 0 < size then (size + chunkSize.toNat - 1) / chunkSize.toNat else 0

/-- The loop over the drain order, `mode.go:153`, with the keys seen so far. -/
def checkOrder (s : Machine) (info : InfoPage) (seen : List ChunkKey) :
    List ChunkKey → Except BootFault Unit
  | [] => .ok ()
  | key :: rest =>
    if info.entryCount ≤ key.entry then .error .entryOutOfRange
    else if key ∈ seen then .error .duplicateChunk
    else if !s.present key.entry then .error (.unresolvedEntry key.entry)
    else if chunksOf (s.disk key.entry).length info.chunkSize ≤ key.chunk.toNat then
      .error .outsideSize
    else s.checkOrder info (key :: seen) rest

/-- The checks of INFO, `mode.go:135`. -/
def checkInfo (cfg : Config) (info : InfoPage) : Except BootFault Unit :=
  if info.formatVersion ≠ 1 then .error (.unsupportedFormat info.formatVersion)
  else if info.volumeID ≠ cfg.volumeID then .error .volumeMismatch
  else if info.sealedEpoch ≠ cfg.sealedEpoch then .error .epochMismatch
  else if info.attempt ≠ cfg.attempt then .error .attemptMismatch
  else if info.chunkSize = 0 then .error .zeroChunkSize
  else if info.entryCount ≠ UInt32.ofNat cfg.entries then .error .entryCountMismatch
  else if info.drainCount ≠ info.order.length ∨ info.chunkCount < info.drainCount ∨
      cfg.maxStoredChunks < info.drainCount then .error .drainCount
  else .ok ()

/-- The map of the volume, `mode.go:175`. -/
def mapConfig (cfg : Config) (info : InfoPage) : MapConfig :=
  ⟨info.chunkSize, cfg.digest, cfg.maxStoredChunks + cfg.entries⟩

/-- What a page of INFO leads to: the hydration map, or the reason to call the volume corrupt. -/
def openInfo (cfg : Config) (s : Machine) (info : InfoPage) : Except BootFault HydrationMap := do
  checkInfo cfg info
  s.checkOrder info [] info.order
  match openHydrationMap (mapConfig cfg info) s.mapFile with
  | .ok m => .ok m
  | .error error => .error (.map error)

/-- `mode.go:124`, on the reply of the hydrator, with the failure noted or the
blocked state cleared as its callers do. -/
def bootstrap (cfg : Config) (s : Machine) (reply : Except RestoreError InfoPage) : Machine :=
  if s.initialized ∨ s.converged then s.clearBlocked
  else
    match reply with
    | .error error => s.noteFailure error
    | .ok info =>
      match openInfo cfg s info with
      | .error fault => s.noteFailure (.boot fault)
      | .ok m => { s with info := info, map := some m, initialized := true }.clearBlocked

/-- The health check of `bootstrapAndHealthLoop`, `mode.go:196`, which follows the bootstrap. -/
def healthCheck (s : Machine) (reply : Except RestoreError Unit) : Machine :=
  if s.initialized ∧ !s.converged then
    match reply with
    | .ok _ => s.clearBlocked
    | .error error => s.noteFailure error
  else s

/-- `mode.go:453`. -/
def keysForRange (s : Machine) (entry : Entry) (offset length : Nat) :
    Except RestoreError (List ChunkKey) :=
  let chunkSize := s.info.chunkSize.toNat
  if !s.initialized then .error .blocked
  else if length = 0 then .ok []
  else if 2 ^ 64 ≤ offset + length then .error .rangeOverflow
  else if 2 ^ 32 ≤ (offset + length - 1) / chunkSize then .error .chunkOverflow
  else
    let first := offset / chunkSize
    let last := (offset + length - 1) / chunkSize
    .ok (((List.range' first (last + 1 - first)).map
      fun chunk => ChunkKey.mk entry (UInt32.ofNat chunk)).filter (· ∈ s.info.order))

/-- The shards of `lockKeys`, `mode.go:646`: without repetition and in order. -/
def shardsOf (keys : List ChunkKey) : List Nat :=
  ((keys.map chunkLock).dedup).insertionSort (· ≤ ·)

/-- `lockKeys` and the deferred `unlockLocks` around a program. -/
def locked (keys : List ChunkKey) (body : List Instr) : List Instr :=
  (shardsOf keys).map (fun n => .acquire (.shard n)) ++ body ++
    (shardsOf keys).reverse.map fun n => .release (.shard n)

/-- `EnsureHydrated` over its keys, `mode.go:293`: one chunk lock at a time. -/
def recallKeys (keys : List ChunkKey) : List Instr :=
  keys.flatMap fun key =>
    [.acquire (.shard (chunkLock key)), .hydrate key false, .release (.shard (chunkLock key))]

/-- The program of a call, or its error. `mode.go:275` (`EnsureHydrated`), `:331` (`Write`),
`:387` (`Truncate`), `:618` (`UserMutation`) and `:680` (`drain`). -/
def program (cfg : Config) (s : Machine) : Call → Except RestoreError (List Instr)
  | .ensureHydrated id offset length =>
    if s.converged ∨ length = 0 then .ok []
    else
      match s.contentError with
      | some error => .error error
      | none =>
        match cfg.bindings id with
        | none => .ok []
        | some entry => (s.keysForRange entry offset length).map recallKeys
  | .write id op =>
    if s.converged then .ok [.apply (cfg.bindings id) (.range op)]
    else if op.hi - op.lo = 0 then
      -- no byte changes; `WithAttrLock` runs the rest of the operation
      if s.storageFailed then .error .storage else .ok [.apply (cfg.bindings id) .metadata]
    else
      match cfg.bindings id with
      | none => .ok [.apply none (.range op)]
      | some entry =>
        (s.keysForRange entry op.lo (op.hi - op.lo)).map fun keys =>
          locked keys (keys.map (.hydrate · true) ++
            [.mark [] (some entry), .acquire (.entry entry), .apply (some entry) (.range op),
              .release (.entry entry)])
  | .truncate id newSize =>
    if s.converged then .ok [.apply (cfg.bindings id) (.truncate newSize)]
    else
      match cfg.bindings id with
      | none => .ok [.apply none (.truncate newSize)]
      | some entry =>
        -- the stored keys are read here; the chunk size and the map only when they are used
        let keys := s.info.order.filter (·.entry = entry)
        .ok (locked keys
          [.boundary entry (s.disk entry).length newSize, .acquire (.entry entry),
            .apply (some entry) (.truncate newSize), .sync entry, .beyond entry keys newSize,
            .release (.entry entry)])
  | .userMutation id =>
    if s.converged then .ok [.apply (cfg.bindings id) .metadata]
    else
      match cfg.bindings id with
      | none => .ok [.apply none .metadata]
      | some entry =>
        if !s.initialized then .error .blocked
        else .ok [.acquire (.entry entry), .mark [] (some entry), .apply (some entry) .metadata,
          .release (.entry entry)]
  | .drain key =>
    if s.initialized ∧ key ∈ s.info.order ∧ s.health ≠ .corrupt then
      .ok [.acquire (.shard (chunkLock key)), .reap key, .release (.shard (chunkLock key))]
    else .ok []

/-- A new thread for a call. -/
def start (cfg : Config) (s : Machine) (t : Tid) (call : Call) : Machine :=
  match s.threads t with
  | some _ => s
  | none =>
    match s.program cfg call with
    | .ok prog => { s with threads := Function.update s.threads t (some ⟨call, prog, [], none⟩) }
    | .error error =>
      { s with threads := Function.update s.threads t (some ⟨call, [], [], some error⟩) }

/-- The thread goes on with `prog`. -/
def goOn (s : Machine) (t : Tid) (th : Thread) (prog : List Instr) : Machine :=
  { s with threads := Function.update s.threads t (some { th with prog := prog }) }

/-- The thread gives up: it releases what it holds. -/
def giveUp (s : Machine) (t : Tid) (th : Thread) (error : RestoreError) : Machine :=
  { s with
    threads := Function.update s.threads t
      (some { th with prog := th.held.map .release, error := some error }) }

/-- The thread gives up a hydration, and the failure is noted. -/
def giveUpNoted (s : Machine) (t : Tid) (th : Thread) (error : RestoreError) : Machine :=
  { s with
    health := if th.call.notes error then s.health.note error else s.health
    threads := Function.update s.threads t
      (some { th with prog := th.held.map .release, error := some error }) }

/-- A nil map or a zero divisor. -/
def panic (s : Machine) : Machine := { s with panicked := true }

/-- A call of `markDurable` by a thread. -/
def markBy (s : Machine) (t : Tid) (th : Thread) (rest : List Instr) (keys : List ChunkKey)
    (userEntry : Option Entry) (fault : Fault) : Machine :=
  match s.map with
  | none => s.panic
  | some m =>
    let s' := { s with map := some (m.markDurable keys userEntry fault).1 }
    match (m.markDurable keys userEntry fault).2 with
    | .ok _ => s'.goOn t th rest
    | .error error =>
      if userEntry.isSome then s'.giveUp t th (.map error) else s'.giveUpNoted t th (.map error)

/-- The instruction at the head of a thread's program; `rest` follows it. -/
def exec (A : Archive) (s : Machine) (t : Tid) (th : Thread) (rest : List Instr) (env : Env) :
    Instr → Machine
  | .acquire lock =>
    if s.locks lock = none then
      { s with locks := Function.update s.locks lock (some t) }.goOn t
        { th with held := lock :: th.held } rest
    else s
  | .release lock =>
    { s with locks := Function.update s.locks lock none }.goOn t
      { th with held := th.held.erase lock } rest
  | .hydrate key durable =>
    -- `hydrateLocked`, `mode.go:487`
    match s.map with
    | none => s.panic
    | some m =>
      if durable ∧ m.isDurable key ∨ ¬durable ∧ m.isHydrated key then s.goOn t th rest
      else if m.isHydrated key then s.goOn t th (.sync key.entry :: .mark [key] none :: rest)
      else s.goOn t th (.fetch key durable :: rest)
  | .fetch key durable =>
    -- `fetchChunk`, `mode.go:520`, and then `installFetchedChunkLocked`
    if s.health = .corrupt then s.giveUpNoted t th .corrupt
    else
      match env.fetch with
      | some error => s.giveUpNoted t th error
      | none =>
        if durable then
          s.goOn t th (.acquire (.entry key.entry) :: .install key :: .sync key.entry ::
            .mark [key] none :: .release (.entry key.entry) :: .clearBlocked :: rest)
        else
          s.goOn t th (.acquire (.entry key.entry) :: .install key :: .markLazy key ::
            .release (.entry key.entry) :: .clearBlocked :: rest)
  | .install key =>
    -- `installFetchedChunkLocked`, `mode.go:538`, up to the mark
    if s.storageFailed then s.giveUpNoted t th .storage
    else if !s.present key.entry then s.giveUpNoted t th .install
    else
      let edits := match env.written with
        | some n => (A.edits key).take n
        | none => A.edits key
      let s' := { s with
        disk := Function.update s.disk key.entry (replay (s.disk key.entry) edits) }
      if env.mtimeLost then s'.failStorage.giveUpNoted t th .storage
      else if env.written.isSome then s'.giveUpNoted t th .install
      else s'.goOn t th rest
  | .sync entry =>
    -- `syncFile`, `mode.go:579`
    if s.storageFailed then s.giveUp t th .storage
    else if env.syncFails ∨ !s.present entry then s.failStorage.giveUp t th .storage
    else
      { s with
        stable := Function.update s.stable entry (s.disk entry)
        stableLog := Function.update s.stableLog entry (s.log entry) }.goOn t th rest
  | .mark keys userEntry => s.markBy t th rest keys userEntry env.map
  | .markLazy key =>
    match s.map with
    | none => s.panic
    | some m => { s with map := some (m.markLazy key) }.goOn t th rest
  | .clearBlocked => s.clearBlocked.goOn t th rest
  | .boundary entry oldSize newSize =>
    -- the chunk that the new end cuts, `mode.go:401`
    if 0 < newSize ∧ newSize < oldSize then
      if s.info.chunkSize = 0 then s.panic
      else if newSize % s.info.chunkSize.toNat ≠ 0 then
        let key : ChunkKey := ⟨entry, UInt32.ofNat (newSize / s.info.chunkSize.toNat)⟩
        if key ∈ s.info.order then
          s.goOn t th (.hydrate key true :: .mark [] (some entry) :: rest)
        else s.goOn t th (.mark [] (some entry) :: rest)
      else s.goOn t th rest
    else s.goOn t th rest
  | .apply entry op =>
    let s' := { s with ran := t :: s.ran }
    if env.refused then s'.giveUp t th .apply
    else
      match entry with
      | none => s'.goOn t th rest
      | some entry =>
        { s' with
          disk := Function.update s.disk entry (op.run (s.disk entry))
          log := Function.update s.log entry (s.log entry ++ [op]) }.goOn t th rest
  | .beyond entry keys newSize =>
    -- the chunks that start at or beyond the new end, `mode.go:428`
    s.markBy t th rest
      (keys.filter fun key => newSize ≤ key.chunk.toNat * s.info.chunkSize.toNat)
      (some entry) env.map
  | .reap key =>
    -- `Linked` and `DiscardUnlinked` in `drain`, `mode.go:724`
    if s.present key.entry ∧ s.linked key.entry then s.goOn t th (.hydrate key true :: rest)
    else if !s.present key.entry ∨ env.unreferenced then
      { s with present := Function.update s.present key.entry false }.goOn t th
        (.mark [key] none :: rest)
    else s.goOn t th rest

/-- The next instruction of a thread. -/
def step (A : Archive) (s : Machine) (t : Tid) (env : Env) : Machine :=
  match s.threads t with
  | none => s
  | some th =>
    match th.prog with
    | [] => s
    | i :: rest => s.exec A t th rest env i

/-- `commitConverged`, `mode.go:816`. -/
def converge (s : Machine) : Machine :=
  match s.map with
  | none => s
  | some m =>
    if s.health ≠ .corrupt ∧ s.info.order.all m.isDurable then { s with converged := true } else s

/-- A crash and a restart of a restoring volume: files are what their last `fdatasync` left, the
map keeps what it synced, unlinked inodes are gone. -/
def crash (s : Machine) (keep : Nat) : Machine where
  initialized := false
  converged := false
  health := .healthy
  storageFailed := false
  info := .zero
  map := none
  mapFile := match s.map with
    | some m => m.bytes.take (max m.synced keep)
    | none => s.mapFile
  locks := fun _ => none
  threads := fun _ => none
  disk := s.stable
  log := s.stableLog
  stable := s.stable
  stableLog := s.stableLog
  linked := s.linked
  present := fun entry => s.present entry && s.linked entry
  ran := []
  panicked := false

end Machine

/-- What can happen to a machine. -/
inductive Op where
  | start (t : Tid) (call : Call)
  | step (t : Tid) (env : Env)
  | bootstrap (reply : Except RestoreError InfoPage)
  | health (reply : Except RestoreError Unit)
  | converge
  | unlink (entry : Entry)
  | fsync (entry : Entry)
  | crash (keep : Nat)

/-- The machine after the operation. -/
def Machine.next (cfg : Config) (A : Archive) (s : Machine) : Op → Machine
  | .start t call => s.start cfg t call
  | .step t env => s.step A t env
  | .bootstrap reply => s.bootstrap cfg reply
  | .health reply => s.healthCheck reply
  | .converge => s.converge
  | .unlink entry => { s with linked := Function.update s.linked entry false }
  | .fsync entry => { s with
      stable := Function.update s.stable entry (s.disk entry)
      stableLog := Function.update s.stableLog entry (s.log entry) }
  | .crash keep => s.crash keep

/-- The machine after operations in order. -/
def Machine.run (cfg : Config) (A : Archive) (s : Machine) (ops : List Op) : Machine :=
  ops.foldl (Machine.next cfg A) s

namespace Machine

/-- The fields that only a bootstrap, a convergence, an unlink or a crash changes. -/
structure SameMode (s s' : Machine) : Prop where
  initialized : s'.initialized = s.initialized
  converged : s'.converged = s.converged
  info : s'.info = s.info
  mapFile : s'.mapFile = s.mapFile
  linked : s'.linked = s.linked

theorem sameMode_start (cfg : Config) (s : Machine) (t : Tid) (call : Call) :
    SameMode s (s.start cfg t call) := by
  unfold start
  split
  · exact ⟨rfl, rfl, rfl, rfl, rfl⟩
  · split <;> exact ⟨rfl, rfl, rfl, rfl, rfl⟩

private theorem durable_markDurable (m : HydrationMap) (keys : List ChunkKey)
    (userEntry : Option Entry) (fault : Fault) :
    m.durable ⊆ (m.markDurable keys userEntry fault).1.durable := by
  unfold HydrationMap.markDurable
  dsimp only
  split
  · exact Finset.Subset.refl _
  split
  · exact Finset.Subset.refl _
  · split
    · exact Finset.Subset.refl _
    · exact Finset.Subset.refl _
    · exact Finset.subset_union_left

/-- What an instruction leaves that neither runs an operation on a file nor discards one. -/
structure Routine (s s' : Machine) : Prop where
  mode : SameMode s s'
  marks : ∀ m, s.map = some m → ∃ m', s'.map = some m' ∧ m.durable ⊆ m'.durable
  present : s'.present = s.present
  log : s'.log = s.log
  stableLog : ∀ entry, s'.stableLog entry = s.stableLog entry ∨ s'.stableLog entry = s.log entry

private def frame (s : Machine) :=
  (s.initialized, s.converged, s.info, s.mapFile, s.linked, s.present, s.log, s.stableLog)

variable {s s' : Machine}

private theorem Routine.of (h : s'.frame = s.frame)
    (hmarks : ∀ m, s.map = some m → ∃ m', s'.map = some m' ∧ m.durable ⊆ m'.durable) :
    Routine s s' := by
  simp only [frame, Prod.mk.injEq] at h
  obtain ⟨hi, hc, hinfo, hfile, hl, hp, hlog, hs⟩ := h
  exact ⟨⟨hi, hc, hinfo, hfile, hl⟩, hmarks, hp, hlog, fun entry => .inl (by rw [hs])⟩

private theorem Routine.same (h : (s'.map, s'.frame) = (s.map, s.frame)) : Routine s s' := by
  obtain ⟨hmap, hframe⟩ := Prod.mk.inj h
  exact .of hframe fun m hm => ⟨m, hmap.trans hm, Finset.Subset.refl _⟩

private theorem routine_markBy (s : Machine) (t : Tid) (th : Thread) (rest : List Instr)
    (keys : List ChunkKey) (userEntry : Option Entry) (fault : Fault) :
    Routine s (s.markBy t th rest keys userEntry fault) := by
  unfold markBy
  split
  · exact .same rfl
  next m hm =>
  have hmarks : ∀ m₀, s.map = some m₀ → ∃ m',
      some (m.markDurable keys userEntry fault).1 = some m' ∧ m₀.durable ⊆ m'.durable := by
    intro m₀ hm₀
    obtain rfl : m = m₀ := Option.some.inj (hm.symm.trans hm₀)
    exact ⟨_, rfl, durable_markDurable ..⟩
  dsimp only
  split
  · exact .of rfl hmarks
  · split <;> exact .of rfl hmarks

/-- What an instruction does. -/
theorem exec_cases (A : Archive) (s : Machine) (t : Tid) (th : Thread) (rest : List Instr)
    (env : Env) (i : Instr) : Routine s (s.exec A t th rest env i) ∨
      (∃ entry op, i = .apply (some entry) op ∧ env.refused = false) ∨
      ∃ key, i = .reap key ∧ ¬(s.present key.entry = true ∧ s.linked key.entry = true) := by
  cases i with
  | mark | beyond => exact .inl (routine_markBy ..)
  | release | clearBlocked => exact .inl (.same rfl)
  | hydrate key durable =>
    left
    simp only [exec]
    split
    · exact .same rfl
    · split_ifs <;> exact .same rfl
  | fetch key durable =>
    left
    simp only [exec]
    split
    · exact .same rfl
    · split
      · exact .same rfl
      · split <;> exact .same rfl
  | markLazy key =>
    left
    simp only [exec]
    split
    · exact .same rfl
    next m hm =>
    refine .of rfl fun m₀ hm₀ => ⟨_, rfl, ?_⟩
    obtain rfl : m = m₀ := Option.some.inj (hm.symm.trans hm₀)
    exact Finset.Subset.refl _
  | acquire | install | boundary =>
    left
    simp only [exec]
    split_ifs <;> exact .same rfl
  | sync entry =>
    left
    simp only [exec]
    split
    · exact .same rfl
    split
    · exact .same rfl
    refine ⟨⟨rfl, rfl, rfl, rfl, rfl⟩, fun m hm => ⟨m, hm, Finset.Subset.refl _⟩, rfl, rfl, ?_⟩
    intro e
    by_cases he : e = entry
    · rw [he]
      exact .inr (Function.update_self ..)
    · exact .inl (Function.update_of_ne he ..)
  | apply entry op =>
    cases hrefused : env.refused with
    | true =>
      left
      simp only [exec, hrefused, if_true]
      exact .same rfl
    | false =>
      cases entry with
      | none =>
        left
        simp only [exec, hrefused, Bool.false_eq_true, if_false]
        exact .same rfl
      | some entry => exact .inr (.inl ⟨entry, op, rfl, rfl⟩)
  | reap key =>
    by_cases hlinked : s.present key.entry = true ∧ s.linked key.entry = true
    · left
      simp only [exec, if_pos hlinked]
      exact .same rfl
    · exact .inr (.inr ⟨key, rfl, hlinked⟩)

theorem sameMode_exec (A : Archive) (s : Machine) (t : Tid) (th : Thread) (rest : List Instr)
    (env : Env) (i : Instr) : SameMode s (s.exec A t th rest env i) := by
  rcases exec_cases A s t th rest env i with h | ⟨entry, op, rfl, hrefused⟩ | ⟨key, rfl, -⟩
  · exact h.mode
  · simp only [exec, hrefused, Bool.false_eq_true, if_false]
    exact ⟨rfl, rfl, rfl, rfl, rfl⟩
  · simp only [exec]
    split_ifs <;> exact ⟨rfl, rfl, rfl, rfl, rfl⟩

theorem sameMode_step (A : Archive) (s : Machine) (t : Tid) (env : Env) :
    SameMode s (s.step A t env) := by
  unfold step
  split
  · exact ⟨rfl, rfl, rfl, rfl, rfl⟩
  · split
    · exact ⟨rfl, rfl, rfl, rfl, rfl⟩
    · exact sameMode_exec ..

end Machine

end PortableFS.Restore
