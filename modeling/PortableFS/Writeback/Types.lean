import PortableFS.Base.Assoc

/-!
# Types of the write-back buffer

Module `writeback`, `vcs/internal/writeback/types.go` and `buffer.go:12–57`. Sequences, tokens and
loss tickets are natural numbers; an offset or a size of a file that passed its checks is a
natural number too.
-/

namespace PortableFS.Writeback

/-- The largest file offset. -/
def maxInt64 : Nat := 2 ^ 63 - 1

/-- Default bound on retained payload bytes; `types.go:10`. -/
def defaultMaxBytes : Nat := 64 * 2 ^ 20

/-- Default bound on accepted operations; `types.go:11`. -/
def defaultMaxEntries : Nat := 10000

/-- The most bytes of one transport write; `types.go:12`. -/
def maxPayload : Nat := 2 ^ 20

/-- The most operations of one wave; `types.go:98`. -/
def maxWaveWidth : Nat := 4

/-- A file, as the mount names it; `types.go:22`. -/
abbrev Identity := BitVec 128

/-- Operations that are buffered; `types.go:26–30`. -/
inductive Kind
  | write
  | truncate
  | setAttr
deriving DecidableEq, Repr

/-- How far a retained record has come; `types.go:34–40`. -/
inductive State
  | accepted
  | applied
  | visible
  | durable
deriving DecidableEq, Repr

/-- Optional attributes of a `SetAttr`; `types.go:46–54`. -/
structure Attributes where
  mode : UInt32
  uid : UInt32
  gid : UInt32
  size : Int
  atimeNS : Int
  mtimeNS : Int
  hasMode : Bool
  hasUID : Bool
  hasGID : Bool
  hasSize : Bool
  hasATime : Bool
  hasMTime : Bool
  atimeNow : Bool
  mtimeNow : Bool
  ctimeNS : Int
  hasCTime : Bool
deriving DecidableEq, Repr

/-- No attribute at all; the zero value of the source. -/
def Attributes.none : Attributes :=
  { mode := 0, uid := 0, gid := 0, size := 0, atimeNS := 0, mtimeNS := 0, hasMode := false,
    hasUID := false, hasGID := false, hasSize := false, hasATime := false, hasMTime := false,
    atimeNow := false, mtimeNow := false, ctimeNS := 0, hasCTime := false }

/-- A snapshot of the accepted and the lost sequences; `types.go:58–61`. -/
structure Cut where
  sequence : Nat
  lossSequence : Nat
deriving DecidableEq, Repr

/-- Transport options of a write; `types.go:74–78`. -/
structure WriteOptions where
  flags : UInt32
  lockOwner : UInt64
  killPrivileges : Bool
deriving DecidableEq, Repr

/-- The options of a plain write. -/
def WriteOptions.none : WriteOptions := ⟨0, 0, false⟩

/-- One transport operation of a wave; `types.go:83–95`. -/
structure Entry where
  token : Nat
  first : Nat
  last : Nat
  generation : Nat
  appliedThrough : Nat
  kind : Kind
  offset : Nat
  data : Option (List UInt8)
  segments : List (List UInt8)
  attributes : Attributes
  writeOptions : WriteOptions
deriving DecidableEq, Repr

/-- The bytes of a transport write, from its single payload or its scatter segments. -/
def Entry.payload (e : Entry) : List UInt8 :=
  if e.segments.isEmpty then e.data.getD [] else e.segments.flatten

/-- Errors of the package; `types.go:15–20` and the messages of `flush.go` and `buffer.go`. -/
inductive Error
  | closed
  | lost
  | invalid
  | pending
  /-- The caller's context was cancelled. -/
  | context
  /-- The frontend's admission check refused. -/
  | refused
  /-- A storage refusal that a drop preserved. -/
  | errno (code : Nat)
  /-- The transport failed. -/
  | transport (code : Nat)
  /-- `flush %x token %d: %w`. -/
  | flush (id : Identity) (token : Nat) (cause : Error)
  /-- `flush %x: non-monotonic applied sequence: %w`. -/
  | nonMonotonic (id : Identity)
  /-- `resume generation: %w`. -/
  | resume (cause : Error)
  /-- `fetch %x: %w`. -/
  | fetch (id : Identity) (cause : Error)
  /-- `fetch %x returned excess bytes: %w`. -/
  | excess (id : Identity)
deriving DecidableEq, Repr

/-- The error a recorded loss turns into; `buffer.go:846–851`. -/
def recordedLossError (errno : Nat) : Error := if errno ≠ 0 then .errno errno else .lost

/-- What an accepted operation fixes: `record` of `buffer.go:12–27` without its mutable fields.
The sequence is the record's name wherever the source holds a pointer to it; `slot` is its place
in the arena. -/
structure Record where
  slot : Nat
  seq : Nat
  generation : Nat
  acceptedAt : Int
  kind : Kind
  off : Nat
  data : List UInt8
  attrs : Attributes
  writeOptions : WriteOptions
deriving DecidableEq, Repr

/-- A record in the queue of its file, with its mutable fields. -/
structure Retained where
  record : Record
  state : State
  applied : Nat
  inOverlay : Bool
deriving DecidableEq, Repr

/-- One wave, kept until it applies or is dropped; `flush.go:9–14`. -/
structure Batch where
  completedLast : Option Nat
  endOffset : Nat
  entries : List Entry
  first : Nat
  applied : Nat
deriving DecidableEq, Repr

/-- The report of a drop; `types.go:157–164`. -/
structure DropReport where
  errno : Nat
  identity : Identity
  reason : String
  bytes : Nat
  entries : Nat
  lossSequence : Nat
deriving DecidableEq, Repr

/-- A barrier; `buffer.go:52–57`. It is registered while the buffer's set of barriers holds it. -/
structure BarrierState where
  cut : Cut
  lost : Bool
  generic : Bool
  errno : Nat
  registered : Bool
deriving DecidableEq, Repr

end PortableFS.Writeback
