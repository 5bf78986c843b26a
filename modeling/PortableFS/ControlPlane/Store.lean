import PortableFS.Base.Assoc
import PortableFS.Base.Endian

/-!
# The manager's state file

`vcs/internal/controlplane/store.go`: a file of a magic and of records, each a length, a payload and
the SHA-256 of the payload; a payload is a numbered full state that names the checksum of the record
before it. `encoding/json`, SHA-256 and `State.Validate` are parameters. A transaction may fail after
any prefix of the bytes it appends, in the sync, or in the compaction that may follow; none of these
failures closes the store. What a crash may leave behind is kept with the store: the synced length
of its file, and the files that a rename replaced before the directory was synced.
-/

namespace PortableFS.ControlPlane

open Base

/-- A SHA-256 checksum. -/
abbrev Digest := Vector UInt8 32

/-- `types.go:263`. -/
structure Receipt where
  operation : String
  requestHash : String
  response : List UInt8
  createdUnix : ℤ
deriving DecidableEq

/-- `State`: its receipts, which the store reads, and the rest. -/
structure StoredState (β : Type) where
  receipts : Assoc String Receipt
  body : β

/-- `store.go:26`; the hexadecimal text of the checksum is the checksum. -/
structure StoreEnvelope (β : Type) where
  sequence : ℕ
  previousHash : Digest
  state : StoredState β

/-- What the store takes from elsewhere: `json.Marshal` and the strict decoding of an envelope,
`State.Validate`, `sha256.Sum256` and `NewState`. Decoding inverts encoding on the states that the
store writes. -/
structure StoreFormat (β : Type) where
  marshal : StoreEnvelope β → List UInt8
  unmarshal : List UInt8 → Option (StoreEnvelope β)
  validate : StoredState β → Bool
  sha256 : List UInt8 → Digest
  newState : StoredState β
  marshal_ne_nil : ∀ envelope, marshal envelope ≠ []
  unmarshal_marshal : ∀ envelope, validate envelope.state = true →
    unmarshal (marshal envelope) = some envelope

/-- `store.go:20`: `PFSMGR1` and a line feed. -/
def storeMagic : List UInt8 := [80, 70, 83, 77, 71, 82, 49, 10]

/-- `store.go:21`. -/
def maxStoreRecord : ℕ := 64 * 2 ^ 20

/-- `store.go:22`. -/
def compactEvery : ℕ := 256

/-- `store.go:23`. -/
def receiptRetentionSeconds : ℤ := 24 * 60 * 60

/-- The checksum before the first record. -/
def noHash : Digest := Vector.replicate 32 0

/-- Why a file is refused. -/
inductive LoadError where
  | header
  | recordLength
  | checksum
  | decode
  | discontinuous
  | invalid
deriving DecidableEq

/-- What the records of a file add up to, and the bytes of a torn record behind them. -/
structure StoreChain (β : Type) where
  sequence : ℕ
  lastHash : Digest
  state : StoredState β
  tail : List UInt8

/-- The loop of `readStoreChain`, `store.go:178`, from a record on. -/
def readStoreChain {β : Type} (f : StoreFormat β) (sequence : ℕ) (lastHash : Digest)
    (state : StoredState β) (bytes : List UInt8) : Except LoadError (StoreChain β) :=
  -- the end of the file, or a torn length
  if bytes.length < 4 then .ok ⟨sequence, lastHash, state, bytes⟩
  else
    let length := ofBigEndian (bytes.take 4)
    if length = 0 ∨ maxStoreRecord < length then .error .recordLength
    -- a torn payload or checksum
    else if bytes.length < 4 + length + 32 then .ok ⟨sequence, lastHash, state, bytes⟩
    else
      let payload := (bytes.drop 4).take length
      if (bytes.drop (4 + length)).take 32 ≠ (f.sha256 payload).toList then .error .checksum
      else
        match f.unmarshal payload with
        | none => .error .decode
        | some envelope =>
          if envelope.sequence ≠ sequence + 1 ∨ envelope.previousHash ≠ lastHash then
            .error .discontinuous
          else if f.validate envelope.state = false then .error .invalid
          else
            readStoreChain f envelope.sequence (f.sha256 payload) envelope.state
              (bytes.drop (4 + length + 32))
termination_by bytes.length
decreasing_by
  rw [List.length_drop]
  omega

/-- A file and the length that its last successful sync covers. -/
structure StoreFile where
  bytes : List UInt8
  synced : ℕ

/-- `store.go:38`. `older` are the files that were renamed over since the directory was
last synced. -/
structure Store (β : Type) where
  file : StoreFile
  older : List StoreFile
  state : StoredState β
  sequence : ℕ
  lastHash : Digest

/-- `store.go:48`, of a path that holds `bytes`: a new file gets the magic, and a torn
tail is cut off. What is there after a crash is on disk. -/
def openStore {β : Type} (f : StoreFormat β) (bytes : List UInt8) : Except LoadError (Store β) :=
  if bytes = [] then .ok ⟨⟨storeMagic, storeMagic.length⟩, [], f.newState, 0, noHash⟩
  else if bytes.take storeMagic.length ≠ storeMagic then .error .header
  else do
    let chain ← readStoreChain f 0 noHash f.newState (bytes.drop storeMagic.length)
    let kept := bytes.take (bytes.length - chain.tail.length)
    return ⟨⟨kept, kept.length⟩, [], chain.state, chain.sequence, chain.lastHash⟩

/-- The arguments of `transact`, `store.go:287`; `apply` returns the encoded response, whether it
changed the state, and the state. -/
structure Transaction (β : Type) where
  requestID : String
  operation : String
  requestHash : String
  now : ℤ
  recordReceipt : Bool
  apply : StoredState β → Option (List UInt8 × Bool × StoredState β)

/-- Why a transaction fails. -/
inductive StoreError where
  | idempotencyReuse
  | apply
  | invalid
  | recordBound
  | write
  | sync
  | compact
deriving DecidableEq

/-- What a transaction comes to before anything is written. -/
inductive Prepared (β : Type) where
  | refused (e : StoreError)
  | reply (response : List UInt8) (replayed : Bool)
  | append (response : List UInt8) (next : StoredState β)

/-- A receipt that is past its retention. -/
def Receipt.expired (now : ℤ) (receipt : Receipt) : Bool :=
  receipt.createdUnix < now - receiptRetentionSeconds

/-- The receipts within their retention. -/
def pruneReceipts (now : ℤ) (receipts : Assoc String Receipt) : Assoc String Receipt :=
  ⟨receipts.entries.filter fun entry => !entry.2.expired now,
    receipts.nodupKeys.sublist List.filter_sublist⟩

/-- The receipt of the transaction goes into the state, `store.go:321`. -/
def Transaction.receive {β : Type} (t : Transaction β) (response : List UInt8)
    (next : StoredState β) : StoredState β :=
  if t.recordReceipt then
    { next with
      receipts := next.receipts.insert t.requestID
        ⟨t.operation, t.requestHash, response, t.now⟩ }
  else next

namespace Store

variable {β : Type}

/-- The bytes of an envelope: length, payload and checksum. -/
def record (f : StoreFormat β) (envelope : StoreEnvelope β) : List UInt8 :=
  bigEndian 4 (f.marshal envelope).length ++ f.marshal envelope ++
    (f.sha256 (f.marshal envelope)).toList

/-- The envelope that a transaction writes. -/
def envelope (s : Store β) (next : StoredState β) : StoreEnvelope β :=
  ⟨s.sequence + 1, s.lastHash, next⟩

/-- The replay of a receipt, `store.go:294`. -/
def replay (s : Store β) (t : Transaction β) : Option (Prepared β) :=
  if t.recordReceipt then
    match s.state.receipts.lookup t.requestID with
    | none => none
    | some receipt =>
      if receipt.expired t.now then none
      else if receipt.operation ≠ t.operation ∨ receipt.requestHash ≠ t.requestHash then
        some (.refused .idempotencyReuse)
      else some (.reply receipt.response true)
  else none

/-- `transact` up to the first write, `store.go:302`. -/
def prepare (f : StoreFormat β) (s : Store β) (t : Transaction β) : Prepared β :=
  match s.replay t with
  | some prepared => prepared
  | none =>
    let pruned := s.state.receipts.entries.any fun entry => entry.2.expired t.now
    match t.apply { s.state with receipts := pruneReceipts t.now s.state.receipts } with
    | none => .refused .apply
    | some (response, applied, next) =>
      let next := t.receive response next
      if !(pruned || applied || t.recordReceipt) then .reply response false
      else if f.validate next = false then .refused .invalid
      else if maxStoreRecord < (f.marshal (s.envelope next)).length then .refused .recordBound
      else .append response next

/-- What the file system does with the three writes and the sync of a record: takes them, fails
after the first `written` bytes, or fails the sync. -/
inductive AppendFault where
  | none
  | write (written : ℕ)
  | sync
deriving DecidableEq

/-- What it does in a compaction: nothing fails, a step up to the rename fails, or the sync of the
directory does. -/
inductive CompactFault where
  | none
  | early
  | directory
deriving DecidableEq

/-- `store.go:368`, with whether it succeeded. -/
def compactLocked (f : StoreFormat β) (s : Store β) (fault : CompactFault) : Store β × Bool :=
  let snapshot : StoreEnvelope β := ⟨1, noHash, s.state⟩
  if maxStoreRecord < (f.marshal snapshot).length then (s, false)
  else
    let bytes := storeMagic ++ record f snapshot
    let installed : Store β :=
      { s with file := ⟨bytes, bytes.length⟩, older := s.file :: s.older, sequence := 1
               lastHash := f.sha256 (f.marshal snapshot) }
    match fault with
    | .early => (s, false)
    | .directory => (installed, false)
    | .none => ({ installed with older := [] }, true)

/-- The record is appended, synced and published, `store.go:335`. -/
def append (f : StoreFormat β) (s : Store β) (response : List UInt8) (next : StoredState β)
    (fault : AppendFault) (compactFault : CompactFault) :
    Store β × Except StoreError (List UInt8 × Bool) :=
  let bytes := record f (s.envelope next)
  match fault with
  | .write written =>
    ({ s with file := { s.file with bytes := s.file.bytes ++ bytes.take written } }, .error .write)
  | .sync => ({ s with file := { s.file with bytes := s.file.bytes ++ bytes } }, .error .sync)
  | .none =>
    let recorded : Store β :=
      { s with file := ⟨s.file.bytes ++ bytes, (s.file.bytes ++ bytes).length⟩, state := next
               sequence := s.sequence + 1
               lastHash := f.sha256 (f.marshal (s.envelope next)) }
    if recorded.sequence < compactEvery then (recorded, .ok (response, false))
    else
      match recorded.compactLocked f compactFault with
      | (compacted, true) => (compacted, .ok (response, false))
      | (compacted, false) => (compacted, .error .compact)

/-- `store.go:287`. -/
def transact (f : StoreFormat β) (s : Store β) (t : Transaction β) (fault : AppendFault)
    (compactFault : CompactFault) : Store β × Except StoreError (List UInt8 × Bool) :=
  match s.prepare f t with
  | .refused e => (s, .error e)
  | .reply response replayed => (s, .ok (response, replayed))
  | .append response next => s.append f response next fault compactFault

/-- What a crash may leave at the path: a file that the directory may name, with everything its last
sync covers. -/
def Crash (s : Store β) (bytes : List UInt8) : Prop :=
  ∃ file ∈ s.file :: s.older, ∃ kept, file.synced ≤ kept ∧ bytes = file.bytes.take kept

end Store

/-- A store with what its callers know: the state of the last transaction that recorded one and
succeeded, and the states of later transactions that were written in full and reported as failed. -/
structure StoreHistory (β : Type) where
  store : Store β
  acknowledged : StoredState β
  later : List (StoredState β)

namespace StoreHistory

variable {β : Type}

/-- A store that was just opened. -/
def opened (s : Store β) : StoreHistory β := ⟨s, s.state, []⟩

/-- The file system took every byte of the record, though the transaction may have failed. -/
def written (f : StoreFormat β) (s : Store β) (next : StoredState β) : Store.AppendFault → Bool
  | .write count => (Store.record f (s.envelope next)).length ≤ count
  | .sync => true
  | .none => true

/-- One transaction. A reply that records nothing has no state of its own. -/
def transact (f : StoreFormat β) (l : StoreHistory β) (t : Transaction β)
    (fault : Store.AppendFault) (compactFault : Store.CompactFault) : StoreHistory β :=
  let (s, result) := l.store.transact f t fault compactFault
  match l.store.prepare f t, result with
  | .append _ next, .ok _ => ⟨s, next, []⟩
  | .append _ next, .error _ =>
    ⟨s, l.acknowledged, if written f l.store next fault then l.later ++ [next] else l.later⟩
  | _, _ => { l with store := s }

/-- Histories in which every transaction meets a condition, of stores that are opened on a new file
or on what a crash left. -/
inductive Reachable (f : StoreFormat β) (ok : StoreHistory β → Transaction β → Prop) :
    StoreHistory β → Prop where
  | opened {s : Store β} (h : openStore f [] = .ok s) : Reachable f ok (.opened s)
  | transact {l : StoreHistory β} (h : Reachable f ok l) (t : Transaction β) (ht : ok l t)
      (fault : Store.AppendFault) (compactFault : Store.CompactFault) :
      Reachable f ok (l.transact f t fault compactFault)
  | reopened {l : StoreHistory β} (h : Reachable f ok l) {bytes : List UInt8}
      (hcrash : l.store.Crash bytes) {s : Store β} (hopen : openStore f bytes = .ok s) :
      Reachable f ok (.opened s)

/-- The transaction appends only behind what is synced, in a file whose directory entry is. -/
def Aligned (f : StoreFormat β) (l : StoreHistory β) (t : Transaction β) : Prop :=
  ∀ response next, l.store.prepare f t = .append response next →
    l.store.file.bytes.length = l.store.file.synced ∧ l.store.older = []

end StoreHistory

end PortableFS.ControlPlane
