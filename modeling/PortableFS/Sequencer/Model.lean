import PortableFS.Base.RankedQueue

/-!
# The mutation sequencer

`vcs/internal/volumeserver/mutation_sequencer.go` and the expansion of a read turn in
`storage_sequencer.go`. A waiter asks for a set of keys and is granted all of them at once or
none. Every queued waiter stands in one global list and in the queue of each of its keys, all in
order of arrival ordinals. Each operation runs under the one mutex; `none` is a panic of the
source. The intrusive lists are lists of waiters, and a queue that the source deletes when it is
empty is the empty list.
-/

namespace PortableFS.Sequencer

open Base.RankedQueue Function

/-- The encoding of an inode identity or of a name binding, as `inodeKey` and `nameKey` make it. -/
abbrev Key := List UInt8

/-- A waiter of the sequencer, as a pointer. -/
abbrev Wid := ℕ

/-- The length and the domain of a key, `mutation_sequencer.go:99`. -/
def Key.canonical (key : Key) : Bool :=
  key.head? = some 105 ∧ key.length = 17 ∨ key.head? = some 110 ∧ 17 < key.length

/-- `MutationDependencies`: its only constructor orders the keys. -/
structure MutationDependencies where
  keys : List Key
  ascending : keys.Pairwise (· < ·)

private theorem ascending_sort (keys : List Key) :
    (keys.dedup.insertionSort (· ≤ ·)).Pairwise (· < ·) := by
  have hle := List.pairwise_insertionSort (· ≤ ·) keys.dedup
  have hne : (keys.dedup.insertionSort (· ≤ ·)).Nodup :=
    (List.perm_insertionSort (· ≤ ·) keys.dedup).nodup_iff.mpr (List.nodup_dedup keys)
  exact (hle.and hne).imp fun h => Std.lt_of_le_of_ne h.1 h.2

/-- `mutation_sequencer.go:36`: without empty keys and repetitions, in
order. -/
def newMutationDependencies (keys : List Key) : MutationDependencies :=
  ⟨(keys.filter (· ≠ [])).dedup.insertionSort (· ≤ ·), ascending_sort _⟩

/-- `mutation_sequencer.go:94`: some keys, canonical and ascending. -/
def MutationDependencies.valid (deps : MutationDependencies) : Bool :=
  deps.keys ≠ [] ∧ deps.keys.all Key.canonical

/-- `mutationSequencerWaiter`; `queued` is a non-nil `element`. -/
structure Waiter where
  keys : List Key
  ordinal : ℕ
  queued : Bool
  granted : Bool
  readOnly : Bool
  settled : Bool

/-- `dependencyVersion`. -/
structure Version where
  value : ℕ
  watchers : ℕ

/-- `dependencySnapshot`. -/
structure Snapshot where
  versions : List (Key × ℕ)
  released : Bool

/-- `mutationSequencer` with its waiters and snapshots. -/
structure MutationSequencer where
  nextOrdinal : ℕ
  held : Key → Option Wid
  waiters : List Wid
  claims : Key → List Wid
  versions : Key → Option Version
  pool : Wid → Option Waiter
  snapshots : ℕ → Option Snapshot

/-- `newMutationSequencer`. -/
def MutationSequencer.empty : MutationSequencer where
  nextOrdinal := 0
  held := fun _ => none
  waiters := []
  claims := fun _ => []
  versions := fun _ => none
  pool := fun _ => none
  snapshots := fun _ => none

namespace MutationSequencer

/-- The keys of a waiter. -/
def keysOf (s : MutationSequencer) (w : Wid) : List Key := ((s.pool w).map Waiter.keys).getD []

/-- The ordinal of a waiter. -/
def ordOf (s : MutationSequencer) (w : Wid) : ℕ := ((s.pool w).map Waiter.ordinal).getD 0

/-- Change the fields of a waiter. -/
def setWaiter (s : MutationSequencer) (w : Wid) (f : Waiter → Waiter) : MutationSequencer :=
  { s with pool := update s.pool w ((s.pool w).map f) }

/-- The counters of the source are 64 bits wide and panic when they wrap. -/
def limit : ℕ := 2 ^ 64

/-- `mutation_sequencer.go:198`. -/
def nextOrdinalLocked (s : MutationSequencer) : Option (ℕ × MutationSequencer) :=
  if s.nextOrdinal + 1 = limit then none
  else some (s.nextOrdinal + 1, { s with nextOrdinal := s.nextOrdinal + 1 })

/-- `insertGlobalLocked`, `mutation_sequencer.go:295`. -/
def insertGlobal (s : MutationSequencer) (w : Wid) : List Wid :=
  match s.waiters.getLast? with
  | none => [w]
  | some back =>
    if s.ordOf back ≤ s.ordOf w then s.waiters ++ [w] else insertFromFront s.ordOf w s.waiters

/-- `mutation_sequencer.go:328`. -/
def insertLocked (s : MutationSequencer) (w : Wid) : MutationSequencer :=
  { s with
    waiters := s.insertGlobal w
    claims := updateAll s.claims (insertFromBack s.ordOf w) (s.keysOf w) }.setWaiter w
      fun x => { x with queued := true }

/-- A queued waiter leaves the global list and, `removeClaimsLocked`, `mutation_sequencer.go:365`,
the queues of its keys. -/
def removeLocked (s : MutationSequencer) (w : Wid) : MutationSequencer :=
  { s with
    waiters := s.waiters.erase w
    claims := updateAll s.claims (·.erase w) (s.keysOf w) }.setWaiter w
      fun x => { x with queued := false }

/-- `mutation_sequencer.go:387`. -/
def eligibleLocked (s : MutationSequencer) (w : Wid) : Bool :=
  match s.pool w with
  | none => false
  | some x =>
    if x.settled ∨ x.granted ∨ ¬x.queued then false
    else x.keys.all fun key => s.held key = none ∧ (s.claims key).head? = some w

/-- `mutation_sequencer.go:399`. -/
def grantLocked (s : MutationSequencer) (w : Wid) : MutationSequencer :=
  let s' := (s.removeLocked w).setWaiter w fun x => { x with granted := true }
  { s' with held := updateAll s.held (fun _ => some w) (s.keysOf w) }

/-- `addCandidateLocked`, `mutation_sequencer.go:417`; the generation stamps mark the waiters that
are in the list already. -/
def addCandidate (s : MutationSequencer) (candidates : List Wid) (w : Wid) : List Wid :=
  match s.pool w with
  | none => candidates
  | some x =>
    if x.settled ∨ x.granted ∨ w ∈ candidates then candidates else candidates ++ [w]

/-- `addFrontCandidatesLocked`, `mutation_sequencer.go:425`. -/
def addFrontCandidates (s : MutationSequencer) (candidates : List Wid) (keys : List Key) :
    List Wid :=
  keys.foldl (fun cs key =>
    if s.held key = none then
      match (s.claims key).head? with
      | some w => s.addCandidate cs w
      | none => cs
    else cs) candidates

/-- `grantCandidatesLocked`, `mutation_sequencer.go:435`. -/
def grantCandidates (s : MutationSequencer) (candidates : List Wid) : MutationSequencer :=
  (candidates.insertionSort (fun a b => s.ordOf a ≤ s.ordOf b)).foldl
    (fun s w => if s.eligibleLocked w then s.grantLocked w else s) s

/-- The version of a key that a mutation held, `mutation_sequencer.go:452`. -/
def bump (versions : Key → Option Version) (key : Key) (readOnly : Bool) :
    Option (Key → Option Version) :=
  match versions key with
  | none => some versions
  | some v =>
    if readOnly then some versions
    else if v.value + 1 = limit then none
    else some (update versions key (some { v with value := v.value + 1 }))

/-- The loop of `releaseKeysLocked`, `mutation_sequencer.go:446`. -/
def releaseEach (s : MutationSequencer) (w : Wid) (readOnly : Bool) :
    List Key → Option MutationSequencer
  | [] => some s
  | key :: rest =>
    if s.held key ≠ some w then none
    else
      match bump s.versions key readOnly with
      | none => none
      | some versions =>
        { s with held := update s.held key none, versions := versions }.releaseEach w
          readOnly rest

/-- `mutation_sequencer.go:446`. -/
def releaseKeysLocked (s : MutationSequencer) (w : Wid) (x : Waiter) : Option MutationSequencer :=
  (s.releaseEach w x.readOnly x.keys).map (·.setWaiter w fun x => { x with granted := false })

/-- `mutation_sequencer.go:272`; `reserved` is zero for a new ordinal. -/
def enqueueFor (s : MutationSequencer) (w : Wid) (deps : MutationDependencies) (reserved : ℕ) :
    Option MutationSequencer :=
  if !deps.valid ∨ (s.pool w).isSome then none
  else
    match if reserved = 0 then s.nextOrdinalLocked else some (reserved, s) with
    | none => none
    | some (ordinal, s) =>
      let s := { s with
        pool := update s.pool w (some ⟨deps.keys, ordinal, false, false, false, false⟩) }
      let s := s.insertLocked w
      some (if s.eligibleLocked w then s.grantLocked w else s)

/-- `mutation_sequencer.go:468`. -/
def requeue (s : MutationSequencer) (w : Wid) (deps : MutationDependencies) :
    Option MutationSequencer :=
  match s.pool w with
  | none => none
  | some x =>
    if !deps.valid ∨ x.settled ∨ ¬x.granted then none
    else
      match s.releaseKeysLocked w x with
      | none => none
      | some s =>
        let candidates := s.addFrontCandidates [] x.keys
        let s := s.setWaiter w fun x => { x with keys := deps.keys }
        let s := s.insertLocked w
        some (s.grantCandidates (s.addCandidate candidates w))

/-- The end of `abandon`, `release` and `settle`: grant the waiters at the front of the keys. -/
def admitNext (s : MutationSequencer) (keys : List Key) : MutationSequencer :=
  s.grantCandidates (s.addFrontCandidates [] keys)

/-- `mutation_sequencer.go:491`. -/
def abandon (s : MutationSequencer) (w : Wid) : Option MutationSequencer :=
  match s.pool w with
  | none => none
  | some x =>
    if x.settled then some s
    else
      let s := s.setWaiter w fun x => { x with settled := true }
      if x.granted then (s.releaseKeysLocked w x).map (·.admitNext x.keys)
      else if x.queued then some ((s.removeLocked w).admitNext x.keys)
      else some (s.admitNext x.keys)

/-- `mutation_sequencer.go:512`. -/
def release (s : MutationSequencer) (w : Wid) : Option MutationSequencer :=
  match s.pool w with
  | none => none
  | some x =>
    if x.settled ∨ ¬x.granted then none
    else
      let s := s.setWaiter w fun x => { x with settled := true }
      (s.releaseKeysLocked w x).map (·.admitNext x.keys)

/-- `mutation_sequencer.go:530`. -/
def settle (s : MutationSequencer) (w : Wid) : Option MutationSequencer :=
  match s.pool w with
  | none => none
  | some x =>
    if x.settled then some s
    else if ¬x.granted then none
    else
      let s := s.setWaiter w fun x => { x with settled := true }
      (s.releaseKeysLocked w x).map (·.admitNext x.keys)

/-- The loop of `TryExpand`, `storage_sequencer.go:103`; `own` are the keys of the waiter from the
index on. -/
def expands (s : MutationSequencer) (w : Wid) (own : List Key) : List Key → Bool
  | [] => own = []
  | key :: rest =>
    if own.head?.any (· < key) then false
    else if s.held key ≠ none ∧ s.held key ≠ some w then false
    else if own.head? = some key then s.expands w own.tail rest
    else if (s.claims key).head?.any (fun v => s.ordOf v < s.ordOf w) then false
    else s.expands w own rest

/-- `storage_sequencer.go:91`. -/
def tryExpand (s : MutationSequencer) (w : Wid) (deps : MutationDependencies) :
    Option (Bool × MutationSequencer) :=
  match s.pool w with
  | none => none
  | some x =>
    if !deps.valid ∨ x.settled ∨ ¬x.granted ∨ ¬s.expands w x.keys deps.keys then some (false, s)
    else
      some (true, { s with held := updateAll s.held (fun _ => some w) deps.keys }.setWaiter w
        fun x => { x with keys := deps.keys })

/-- The version of a key; keys without watchers have none. -/
def valueOf (s : MutationSequencer) (key : Key) : ℕ := ((s.versions key).map Version.value).getD 0

/-- The watchers of a key. -/
def watchersOf (s : MutationSequencer) (key : Key) : ℕ :=
  ((s.versions key).map Version.watchers).getD 0

/-- One more watcher. -/
def watch : Option Version → Option Version
  | none => some ⟨0, 1⟩
  | some v => some { v with watchers := v.watchers + 1 }

/-- `mutation_sequencer.go:212`, under a new name. -/
def snapshot (s : MutationSequencer) (id : ℕ) (deps : MutationDependencies) :
    Option MutationSequencer :=
  if (s.snapshots id).isSome ∨ deps.keys.any (fun key => s.watchersOf key + 1 = limit) then none
  else
    some { s with
      versions := updateAll s.versions watch deps.keys
      snapshots := update s.snapshots id
        (some ⟨deps.keys.map fun key => (key, s.valueOf key), false⟩) }

/-- One watcher less. -/
def unwatch : Option Version → Option Version
  | none => none
  | some v => if v.watchers - 1 = 0 then none else some { v with watchers := v.watchers - 1 }

/-- `releaseSnapshotLocked`, `mutation_sequencer.go:241`, once for each snapshot. -/
def releaseSnapshot (s : MutationSequencer) (id : ℕ) : Option MutationSequencer :=
  match s.snapshots id with
  | none => none
  | some snap =>
    if snap.released then some s
    else if snap.versions.any (fun v => s.watchersOf v.1 = 0) then none
    else
      some { s with
        versions := updateAll s.versions unwatch (snap.versions.map Prod.fst)
        snapshots := update s.snapshots id (some { snap with released := true }) }

/-- `mutation_sequencer.go:228`. -/
def unchanged (s : MutationSequencer) (id : ℕ) : Option (Bool × MutationSequencer) :=
  match s.snapshots id with
  | none => none
  | some snap =>
    (s.releaseSnapshot id).map (snap.versions.all (fun v => s.valueOf v.1 = v.2), ·)

end MutationSequencer

/-- What can happen to a sequencer. -/
inductive Op where
  | reserve
  | enqueue (w : Wid) (deps : MutationDependencies) (reserved : ℕ)
  | requeue (w : Wid) (deps : MutationDependencies)
  | abandon (w : Wid)
  | release (w : Wid)
  | settle (w : Wid)
  | readOnly (w : Wid)
  | tryExpand (w : Wid) (deps : MutationDependencies)
  | snapshot (id : ℕ) (deps : MutationDependencies)
  | unchanged (id : ℕ)
  | releaseSnapshot (id : ℕ)

/-- The sequencer after the operation; `none` if it panics. -/
def MutationSequencer.next (s : MutationSequencer) : Op → Option MutationSequencer
  | .reserve => s.nextOrdinalLocked.map Prod.snd
  | .enqueue w deps reserved => s.enqueueFor w deps reserved
  | .requeue w deps => s.requeue w deps
  | .abandon w => s.abandon w
  | .release w => s.release w
  | .settle w => s.settle w
  | .readOnly w => some (s.setWaiter w fun x => { x with readOnly := true })
  | .tryExpand w deps => (s.tryExpand w deps).map Prod.snd
  | .snapshot id deps => s.snapshot id deps
  | .unchanged id => (s.unchanged id).map Prod.snd
  | .releaseSnapshot id => s.releaseSnapshot id

/-- The sequencers that operations reach. -/
inductive MutationSequencer.Reachable : MutationSequencer → Prop where
  | empty : Reachable .empty
  | next {s s' : MutationSequencer} (h : Reachable s) (op : Op) (hop : s.next op = some s') :
      Reachable s'

end PortableFS.Sequencer
