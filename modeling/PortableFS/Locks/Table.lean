import PortableFS.Base.Assoc
import PortableFS.Base.Search
import PortableFS.Locks.IntervalTree
import PortableFS.Locks.Types

/-!
# Lock table

Module `volumeserver`, `vcs/internal/volumeserver/locks.go:280–1082`. Every method is a pure
function of the table; the mutex makes each of them, with its whole wake cascade, one step.
Pointers become keys: a session is named by its id, a waiter by its sequence number. The
64-bit counters are natural numbers.
-/

namespace PortableFS.Locks

open PortableFS.Base

/-- The immutable part of one `lockWaiter`; `locks.go:284–295`. Its session is the session of
its lock's owner. -/
structure Waiter where
  lock : Lock
  seq : Nat
  deriving DecidableEq

/-- The mutable part of one `lockWaiter`; `locks.go:284–295`. -/
structure WaiterState where
  lock : Lock
  settled : Bool
  err : Option LockError
  deriving DecidableEq

/-- `locks.go:297–302`. -/
structure ObjectLocks where
  held : IntervalTree Lock
  waiting : IntervalTree Waiter

/-- The value of a new entry; `locks.go:896–899`. -/
def ObjectLocks.empty : ObjectLocks := ⟨.empty, .empty⟩

/-- `locks.go:317–332`, with the lease's boundary in nanoseconds. The source indexes the
waiters by owner; here they are one list and `waitersOf` selects an owner's. -/
structure LockSession where
  expires : Int
  records : Nat
  objects : Assoc ObjectKey Nat
  waiters : List Waiter

/-- `locks.go:329`, one inner map. -/
def LockSession.waitersOf (s : LockSession) (owner : LockOwner) : List Waiter :=
  s.waiters.filter (fun w => w.lock.owner = owner)

/-- `locks.go:334–337`. -/
structure WakeRequest where
  object : ObjectKey
  span : LockRange

/-- History of one installed request: what was asked, its queue position (`none` for the
non-blocking path), and the object as it was when the decision was taken. -/
structure Grant where
  lock : Lock
  seq : Option Nat
  before : ObjectLocks

/-- `locks.go:339–362`. `now` is the current reading of the injected clock and `waiters` holds
the allocated waiter objects by sequence number; `grants` is a history variable that no
function reads. -/
structure LockTable where
  objects : Assoc ObjectKey ObjectLocks
  sessions : Assoc SessionID LockSession
  held : Nat
  waiting : Nat
  nextID : Nat
  nextSeq : Nat
  maxRecords : Nat
  maxPerSession : Nat
  now : Int
  waking : Bool
  pendingWake : List WakeRequest
  waiters : Assoc Nat WaiterState
  grants : List Grant

/-- `locks.go:369–384`; `none` is the panic on inconsistent bounds. -/
def newLockTable (maxRecords maxPerSession : Nat) (now : Int) : Option LockTable :=
  if maxRecords = 0 ∨ maxPerSession = 0 ∨ maxRecords < maxPerSession then none
  else some
    { objects := ∅, sessions := ∅, held := 0, waiting := 0, nextID := 0, nextSeq := 0,
      maxRecords, maxPerSession, now, waking := false, pendingWake := [], waiters := ∅,
      grants := [] }

/-- First held record that conflicts with `want`; `locks.go:665–680`. -/
def conflictLocked (o : Option ObjectLocks) (want : Lock) : Option Lock :=
  match o with
  | none => none
  | some o =>
    (o.held.first want.range.start want.range.stop fun e => conflicts want e.value).map Entry.value

/-- Loop of `subtractCoverage` from a cursor; `locks.go:701–718`. -/
def subtractFrom (r : LockRange) (cursor : Nat) : List LockRange → List LockRange
  | [] => if h : cursor ≤ r.stop then
      [⟨cursor, r.stop, h.trans r.stop_le, r.stop_le⟩] else []
  | c :: cs =>
    if c.stop < cursor then subtractFrom r cursor cs
    else
      (if h : cursor < c.start then
        [⟨cursor, c.start - 1, Nat.le_trans h.le c.start_le, c.pred_start_le⟩]
      else []) ++
      (if r.stop ≤ c.stop then [] else subtractFrom r (c.stop + 1) cs)

/-- Remove key-ordered coverage from a range; `locks.go:700–719`. -/
def subtractCoverage (r : LockRange) (covered : List LockRange) : List LockRange :=
  subtractFrom r r.start covered

/-- Parts of the range the owner does not hold at a sufficient type; `locks.go:682–698`. -/
def residualLocked (o : Option ObjectLocks) (lock : Lock) : List LockRange :=
  match o with
  | none => [lock.range]
  | some o =>
    let covered := o.held.collect lock.range.start lock.range.stop fun e =>
      decide (e.value.owner = lock.owner) && satisfies e.value.type lock.type
    subtractCoverage lock.range (covered.map fun e => e.value.range)

/-- A waiter queued before `before` that conflicts with a residual segment;
`locks.go:721–743`. `none` stands for `math.MaxUint64`, before which every waiter is. -/
def queuedAheadLocked (o : Option ObjectLocks) (lock : Lock) (residual : List LockRange)
    (before : Option Nat) : Option Waiter :=
  match o with
  | none => none
  | some o =>
    if o.waiting.size = 0 then none
    else residual.findSome? fun segment =>
      (o.waiting.first segment.start segment.stop fun e =>
        before.all (fun seq => decide (e.value.seq < seq)) &&
          conflicts { lock with range := segment } e.value.lock).map Entry.value

/-- `locks.go:745–754`. -/
def waiterEligibleLocked (o : Option ObjectLocks) (w : Waiter) : Bool :=
  if (conflictLocked o w.lock).isSome then false
  else
    let residual := residualLocked o w.lock
    if residual.isEmpty then true
    else (queuedAheadLocked o w.lock residual (some w.seq)).isNone

/-- `locks.go:763–770`. -/
structure LockPlan where
  remove : List (Entry Lock)
  insert : List Lock
  touched : LockRange
  weakens : Bool

/-- One pass over the kept pieces, absorbing what touches the merged lock;
`locks.go:820–829`. -/
def absorbPass (merged : Lock) : List Lock → Lock × List Lock × Bool
  | [] => (merged, [], false)
  | c :: cs =>
    if decide (c.type = merged.type) &&
        (overlaps c.range merged.range || adjacent c.range merged.range) then
      let (m, remaining, _) :=
        absorbPass { merged with range := coverRange merged.range c.range } cs
      (m, remaining, true)
    else
      let (m, remaining, absorbed) := absorbPass merged cs
      (m, c :: remaining, absorbed)

/-- Passes until nothing is absorbed; `locks.go:818–834`. Every pass but the last drops a
piece, so one more pass than there are pieces is enough. -/
def absorb : Nat → Lock → List Lock → Lock × List Lock
  | 0, merged, keep => (merged, keep)
  | fuel + 1, merged, keep =>
    match absorbPass merged keep with
    | (merged, remaining, true) => absorb fuel merged remaining
    | (merged, remaining, false) => (merged, remaining)

/-- The query range of `planAcquireLocked`, one byte wider on each side; `locks.go:784–790`. -/
def widen (r : LockRange) : LockRange where
  start := if 0 < r.start then r.start - 1 else r.start
  stop := if r.stop < maxUint64 then r.stop + 1 else r.stop
  start_le := by have := r.start_le; split <;> omega
  stop_le := by have := r.stop_le; split <;> omega

/-- The owner's records that the acquisition replaces; `locks.go:791–802`. -/
def acquireRemoves (o : ObjectLocks) (next : Lock) : List (Entry Lock) :=
  let query := widen next.range
  (o.held.collect query.start query.stop fun e => decide (e.value.owner = next.owner)).filter
    fun e => overlaps e.value.range next.range ||
      (decide (e.value.type = next.type) && adjacent e.value.range next.range)

/-- What one replaced record leaves behind; `locks.go:805–812`. -/
def acquireKeeps (next : Lock) (held : Lock) : List Lock :=
  if overlaps held.range next.range then subtractLock held next.range else [held]

/-- POSIX replacement for installing `next`; `locks.go:772–838`. -/
def planAcquireLocked (o : Option ObjectLocks) (next : Lock) : LockPlan :=
  let remove := match o with
    | none => []
    | some o => acquireRemoves o next
  let keep := remove.flatMap fun e => acquireKeeps next e.value
  let touched := remove.foldl (fun r e => coverRange r e.value.range) next.range
  let weakens := remove.any fun e =>
    overlaps e.value.range next.range && decide (e.value.type = .write) &&
      decide (next.type = .read)
  let (merged, keep) := absorb (keep.length + 1) next keep
  { remove, insert := keep ++ [merged], touched := coverRange touched merged.range, weakens }

/-- Removal of the owner's coverage of `r`; `locks.go:840–860`. -/
def planReleaseLocked (o : Option ObjectLocks) (owner : LockOwner) (r : LockRange) : LockPlan :=
  let remove := match o with
    | none => []
    | some o => o.held.collect r.start r.stop fun e => decide (e.value.owner = owner)
  { remove
    insert := remove.flatMap fun e => subtractLock e.value r
    touched := remove.foldl (fun t e => coverRange t e.value.range) r
    weakens := !remove.isEmpty }

namespace LockTable

/-- Entry of an object, a new one when it is absent; `locks.go:893–900`. -/
def objectLocked (t : LockTable) (key : ObjectKey) : ObjectLocks :=
  (t.objects.lookup key).getD .empty

/-- Drop an entry without records and waiters; `locks.go:902–906`. -/
def pruneObjectLocked (t : LockTable) (key : ObjectKey) : LockTable :=
  match t.objects.lookup key with
  | none => t
  | some o =>
    if o.held.size = 0 ∧ o.waiting.size = 0 then { t with objects := t.objects.erase key } else t

/-- The session's lease has not run out; `locks.go:315`. -/
def leaseLive (t : LockTable) (id : SessionID) : Bool :=
  match t.sessions.lookup id with
  | none => false
  | some s => decide (t.now < s.expires)

/-- `locks.go:401–407`. -/
def liveSessionLocked (t : LockTable) (id : SessionID) : Option LockSession :=
  match t.sessions.lookup id with
  | none => none
  | some s => if t.now < s.expires then some s else none

/-- Records and waiters charged to a session. -/
def recordsOf (t : LockTable) (id : SessionID) : Nat :=
  match t.sessions.lookup id with
  | none => 0
  | some s => s.records

/-- Publish a waiter; `locks.go:908–918`. The waiter object becomes reachable here. -/
def insertWaiterLocked (t : LockTable) (w : Waiter) : LockTable :=
  let o := t.objectLocked w.lock.object
  let waiting := o.waiting.insert w.lock.range.start w.lock.range.stop w.seq w
  { t with
    objects := t.objects.insert w.lock.object { o with waiting }
    sessions := Assoc.modify t.sessions w.lock.owner.session fun s =>
      { s with waiters := w :: s.waiters, records := s.records + 1 }
    waiting := t.waiting + 1
    waiters := t.waiters.insert w.seq ⟨w.lock, false, none⟩ }

/-- Withdraw a waiter from its object's queue and its session; `locks.go:920–933`. -/
def removeWaiterLocked (t : LockTable) (w : Waiter) : LockTable :=
  match t.objects.lookup w.lock.object with
  | none => t
  | some o =>
    match o.waiting.remove w.lock.range.start w.lock.range.stop w.seq with
    | (_, false) => t
    | (waiting, true) =>
      { t with
        objects := t.objects.insert w.lock.object { o with waiting }
        sessions := Assoc.modify t.sessions w.lock.owner.session fun s =>
          { s with waiters := s.waiters.erase w, records := s.records - 1 }
        waiting := t.waiting - 1 }

/-- The waiter's decision has been taken. -/
def isSettled (t : LockTable) (w : Waiter) : Bool :=
  match t.waiters.lookup w.seq with
  | none => false
  | some s => s.settled

/-- Settle a waiter once; `locks.go:935–941`. -/
def settleWaiterLocked (t : LockTable) (w : Waiter) (err : Option LockError) : LockTable :=
  { t with
    waiters := Assoc.modify t.waiters w.seq fun s =>
      if s.settled then s else { s with settled := true, err } }

/-- Withdraw a waiter and settle it; `locks.go:437–440,630–633,945–947,1011–1018`. -/
def retireWaiter (err : Option LockError) (t : LockTable) (w : Waiter) : LockTable :=
  (t.removeWaiterLocked w).settleWaiterLocked w err

/-- Hand out a waiter that was decided before anyone could see it; `locks.go:562–564`. -/
def publishSettled (t : LockTable) (w : Waiter) (err : Option LockError) : LockTable :=
  { t with waiters := t.waiters.insert w.seq ⟨w.lock, true, err⟩ }

/-! ### Wake cascade

`wakeEligibleLocked` is called by `applyPlanLocked` and `cancelWaiterLocked`, which the cascade
itself calls. During a cascade such a call only appends a request, so the two take the wake as
a parameter: `enqueueWake` inside the cascade, `wakeEligibleLocked` outside. -/

/-- A wake over a span of an object. -/
abbrev Wake := LockTable → ObjectKey → LockRange → LockTable

/-- First statement of `wakeEligibleLocked`, and all of it while a cascade runs;
`locks.go:964–967`. -/
def enqueueWake (t : LockTable) (object : ObjectKey) (span : LockRange) : LockTable :=
  { t with pendingWake := t.pendingWake ++ [⟨object, span⟩] }

/-- Replace the records of an object by a plan's; `locks.go:873–878`. -/
def installRecords (held : IntervalTree Lock) (nextID : Nat) (plan : LockPlan) :
    IntervalTree Lock × Nat :=
  plan.insert.foldl
    (fun (held, id) lock => (held.insert lock.range.start lock.range.stop (id + 1) lock, id + 1))
    (plan.remove.foldl (fun held e => (held.remove e.start e.stop e.id).1) held, nextID)

/-- Session counters after a plan that removes and adds this many records of `object`;
`locks.go:880–885`. -/
def chargePlan (object : ObjectKey) (removed added : Nat) (s : LockSession) : LockSession :=
  let count := (s.objects.lookup object).getD 0 - removed + added
  { s with
    records := s.records - removed + added
    objects := if count = 0 then s.objects.erase object else s.objects.insert object count }

/-- Net growth of a plan exceeds a bound; `locks.go:864–871`. -/
def exceedsLimits (t : LockTable) (id : SessionID) (plan : LockPlan) : Bool :=
  let removed := plan.remove.length
  let added := plan.insert.length
  decide (removed < added) && (decide (t.maxRecords < t.held + t.waiting + (added - removed)) ||
    decide (t.maxPerSession < t.recordsOf id + (added - removed)))

/-- The mutation of an admitted plan; `locks.go:873–886`. -/
def installPlan (t : LockTable) (object : ObjectKey) (id : SessionID) (plan : LockPlan)
    (history : List Grant) : LockTable :=
  let o := t.objectLocked object
  let installed := installRecords o.held t.nextID plan
  { t with
    objects := t.objects.insert object { o with held := installed.1 }
    nextID := installed.2
    held := t.held - plan.remove.length + plan.insert.length
    sessions := Assoc.modify t.sessions id
      (chargePlan object plan.remove.length plan.insert.length)
    grants := history ++ t.grants }

/-- Admit a plan, then mutate; `locks.go:862–891`. -/
def applyPlanLocked (wake : Wake) (t : LockTable) (object : ObjectKey) (id : SessionID)
    (plan : LockPlan) (history : List Grant) : Except LockError LockTable :=
  if t.exceedsLimits id plan then .error .admission
  else
    let t := t.installPlan object id plan history
    .ok (if plan.weakens then wake t object plan.touched else t)

/-- Remove a queued request without granting it; `locks.go:943–955`. -/
def cancelWaiterLocked (wake : Wake) (t : LockTable) (w : Waiter) (err : LockError) : LockTable :=
  match t.objects.lookup w.lock.object with
  | none => t.settleWaiterLocked w (some err)
  | some _ =>
    let t := retireWaiter (some err) t w
    (wake t w.lock.object w.lock.range).pruneObjectLocked w.lock.object

/-- Body of the candidate loop; `locks.go:993–1020`. -/
def considerCandidate (object : ObjectKey) (t : LockTable) (w : Waiter) : LockTable :=
  if t.isSettled w then t
  else match t.objects.lookup object with
  | none => t
  | some o =>
    if !t.leaseLive w.lock.owner.session then
      cancelWaiterLocked enqueueWake t w .sessionExpired
    else if !waiterEligibleLocked (some o) w then t
    else
      let plan := planAcquireLocked (some o) w.lock
      let t := t.removeWaiterLocked w
      match applyPlanLocked enqueueWake t object w.lock.owner.session plan
          [⟨w.lock, some w.seq, o⟩] with
      | .error err => enqueueWake (t.settleWaiterLocked w (some err)) object w.lock.range
      | .ok t => t.settleWaiterLocked w none

/-- Grant, in queue order, what a change over the span made eligible; `locks.go:979–1021`. -/
def grantEligibleLocked (t : LockTable) (object : ObjectKey) (span : LockRange) : LockTable :=
  match t.objects.lookup object with
  | none => t
  | some o =>
    if o.waiting.size = 0 then t
    else
      let candidates := (o.waiting.collect span.start span.stop fun _ => true).map Entry.value
      (candidates.insertionSort fun a b => a.seq ≤ b.seq).foldl (considerCandidate object) t

/-- Drain loop from index `i`; `locks.go:970–973`. -/
def drain : Nat → Nat → LockTable → LockTable
  | 0, _, t => t
  | fuel + 1, i, t =>
    match t.pendingWake[i]? with
    | none => t
    | some request => drain fuel (i + 1) (grantEligibleLocked t request.object request.span)

/-- Grant every queued request the change over the span made eligible; `locks.go:957–977`.
Each further request of the cascade is paid for by a waiter that leaves the queue. -/
def wakeEligibleLocked (t : LockTable) (object : ObjectKey) (span : LockRange) : LockTable :=
  let t := enqueueWake t object span
  if t.waking then t
  else
    let t := drain (t.pendingWake.length + t.waiting) 0 { t with waking := true }
    { t with pendingWake := [], waking := false }

/-- Owners the waiter cannot proceed without; `locks.go:1056–1082`. -/
def blockersLocked (t : LockTable) (w : Waiter) : List LockOwner :=
  match t.objects.lookup w.lock.object with
  | none => []
  | some o =>
    (o.held.collect w.lock.range.start w.lock.range.stop fun e => conflicts w.lock e.value).map
        (fun e => e.value.owner) ++
      (residualLocked (some o) w.lock).flatMap fun segment =>
        (o.waiting.collect segment.start segment.stop fun e =>
          decide (e.value.seq < w.seq) &&
            conflicts { w.lock with range := segment } e.value.lock).map
          fun e => e.value.lock.owner

/-- Blockers of all other waiters of one owner; `locks.go:1042–1051`. -/
def ownerBlockers (t : LockTable) (w : Waiter) (owner : LockOwner) : List LockOwner :=
  match t.sessions.lookup owner.session with
  | none => []
  | some s =>
    ((s.waitersOf owner).filter (· ≠ w)).flatMap t.blockersLocked

/-- Total number of blockers over all queued waiters: a bound on what the search can push. -/
def blockerCount (t : LockTable) : Nat :=
  t.sessions.total fun _ s => (s.waiters.map fun w => (t.blockersLocked w).length).sum

/-- The waiter's owner is, transitively, already blocking itself; `locks.go:1025–1054`. The head
of the frontier is the end of the source's slice. -/
def deadlockLocked (t : LockTable) (w : Waiter) : Bool :=
  let frontier := (t.blockersLocked w).reverse
  search (fun owner => (t.ownerBlockers w owner).reverse) w.lock.owner
    (frontier.length + t.blockerCount + 1) [] frontier

/-- `locks.go:389–399`; an existing registration keeps its lease. -/
def registerSession (t : LockTable) (id : SessionID) (expires : Int) : LockTable :=
  match t.sessions.lookup id with
  | some _ => t
  | none => { t with sessions := t.sessions.insert id ⟨expires, 0, ∅, []⟩ }

/-- `LockLease.Renew` through the handle of a registered session; `locks.go:312–313`. -/
def renew (t : LockTable) (id : SessionID) (expires : Int) : LockTable :=
  { t with sessions := Assoc.modify t.sessions id fun s => { s with expires } }

/-- F_GETLK; `locks.go:472–484`. -/
def get (t : LockTable) (want : Lock) : Except LockError (Option Lock) :=
  if !validLock want then .error .invalidLock
  else match t.liveSessionLocked want.owner.session with
  | none => .error .sessionExpired
  | some _ => .ok (conflictLocked (t.objects.lookup want.object) want)

/-- F_SETLK; `locks.go:486–516`. -/
def set (t : LockTable) (lock : Lock) : LockTable × Option LockError :=
  if !validLock lock then (t, some .invalidLock)
  else match t.liveSessionLocked lock.owner.session with
  | none => (t, some .sessionExpired)
  | some _ =>
    let o := t.objects.lookup lock.object
    if (conflictLocked o lock).isSome then (t, some .conflict)
    else
      let residual := residualLocked o lock
      if !residual.isEmpty && (queuedAheadLocked o lock residual none).isSome then
        (t, some .conflict)
      else match applyPlanLocked wakeEligibleLocked t lock.object lock.owner.session
          (planAcquireLocked o lock) [⟨lock, none, o.getD .empty⟩] with
      | .error err => (t.pruneObjectLocked lock.object, some err)
      | .ok t => (t.pruneObjectLocked lock.object, none)

/-- Grant or publish a blocking request; `locks.go:541–580`. -/
def beginWait (t : LockTable) (lock : Lock) : LockTable × Except LockError Waiter :=
  if !validLock lock then (t, .error .invalidLock)
  else match t.liveSessionLocked lock.owner.session with
  | none => (t, .error .sessionExpired)
  | some s =>
    let t := { t with nextSeq := t.nextSeq + 1 }
    let w : Waiter := ⟨lock, t.nextSeq⟩
    let o := t.objects.lookup lock.object
    if waiterEligibleLocked o w then
      match applyPlanLocked wakeEligibleLocked t lock.object lock.owner.session
          (planAcquireLocked o lock) [⟨lock, some w.seq, o.getD .empty⟩] with
      | .error err => ((t.pruneObjectLocked lock.object).publishSettled w (some err), .ok w)
      | .ok t => ((t.pruneObjectLocked lock.object).publishSettled w none, .ok w)
    else if t.maxRecords < t.held + t.waiting + 1 ∨ t.maxPerSession < s.records + 1 then
      (t, .error .admission)
    else
      let t := t.insertWaiterLocked w
      if t.deadlockLocked w then
        (cancelWaiterLocked wakeEligibleLocked t w .deadlock, .error .deadlock)
      else (t, .ok w)

/-- The cancelled branch of `Await`; `locks.go:589–602`. A settled waiter keeps its decision. -/
def await (t : LockTable) (seq : Nat) (err : LockError) : LockTable :=
  match t.waiters.lookup seq with
  | none => t
  | some s =>
    if s.settled then t else cancelWaiterLocked wakeEligibleLocked t ⟨s.lock, seq⟩ err

/-- Retire every queued acquisition; `locks.go:610–640`. -/
def interruptWaiters (t : LockTable) (err : Option LockError) : LockTable :=
  let waiters := t.sessions.entries.flatMap fun e => e.2.waiters
  let t := waiters.foldl (retireWaiter (some (err.getD .sessionExpired))) t
  (waiters.map fun w => w.lock.object).dedup.foldl pruneObjectLocked t

/-- `locks.go:642–661`. -/
def unlock (t : LockTable) (object : ObjectKey) (owner : LockOwner) (r : LockRange) :
    LockTable × Option LockError :=
  if r.stop < r.start then (t, some .invalidUnlockRange)
  else match t.liveSessionLocked owner.session with
  | none => (t, some .sessionExpired)
  | some _ =>
    let plan := planReleaseLocked (t.objects.lookup object) owner r
    if plan.remove.isEmpty then (t, none)
    else match applyPlanLocked wakeEligibleLocked t object owner.session plan [] with
    | .error err => (t.pruneObjectLocked object, some err)
    | .ok t => (t.pruneObjectLocked object, none)

/-- `extend` of `ReleaseSession`; `locks.go:424–430`. -/
def extendTouched (touched : Assoc ObjectKey LockRange) (object : ObjectKey) (r : LockRange) :
    Assoc ObjectKey LockRange :=
  match touched.lookup object with
  | some current => touched.insert object (coverRange current r)
  | none => touched.insert object r

/-- Drop one record of a released session; `locks.go:457–461`. -/
def dropRecord (object : ObjectKey) (st : LockTable × Assoc ObjectKey LockRange)
    (e : Entry Lock) : LockTable × Assoc ObjectKey LockRange :=
  let o := st.1.objectLocked object
  ({ st.1 with
      objects := st.1.objects.insert object
        { o with held := (o.held.remove e.start e.stop e.id).1 }
      held := st.1.held - 1 },
    extendTouched st.2 object e.value.range)

/-- Drop the session's records on one object; `locks.go:444–462`. -/
def dropRecords (id : SessionID) (st : LockTable × Assoc ObjectKey LockRange)
    (object : ObjectKey) : LockTable × Assoc ObjectKey LockRange :=
  match st.1.objects.lookup object with
  | none => st
  | some o =>
    (o.held.collect 0 maxUint64 fun e => decide (e.value.owner.session = id)).foldl
      (dropRecord object) st

/-- The session's waiters and records are gone and the touched spans collected;
`locks.go:415–463`. -/
def releaseRecords (t : LockTable) (id : SessionID) (s : LockSession) :
    LockTable × Assoc ObjectKey LockRange :=
  let t := { t with sessions := t.sessions.erase id }
  let st := s.waiters.foldl
    (fun (st : LockTable × Assoc ObjectKey LockRange) w =>
      (retireWaiter (some .sessionExpired) st.1 w, extendTouched st.2 w.lock.object w.lock.range))
    (t, ∅)
  s.objects.keys.foldl (dropRecords id) st

/-- Remove a session and everything it owns; `locks.go:409–470`. The hint selects the order in
which the touched objects are woken, which the source leaves to map iteration. -/
def releaseSession (t : LockTable) (id : SessionID) (hint : List ObjectKey) : LockTable :=
  match t.sessions.lookup id with
  | none => t
  | some s =>
    let (t, touched) := t.releaseRecords id s
    let t := (arrange hint touched.keys).foldl
      (fun t object => match touched.lookup object with
        | none => t
        | some span => t.wakeEligibleLocked object span) t
    touched.keys.foldl pruneObjectLocked t

/-- One call, or one move of the clock or a lease between calls. -/
inductive Op where
  | registerSession (id : SessionID) (expires : Int)
  | renew (id : SessionID) (expires : Int)
  | tick (now : Int)
  | set (lock : Lock)
  | beginWait (lock : Lock)
  | await (seq : Nat) (err : LockError)
  | unlock (object : ObjectKey) (owner : LockOwner) (r : LockRange)
  | interruptWaiters (err : Option LockError)
  | releaseSession (id : SessionID) (hint : List ObjectKey)

/-- The table after one call. -/
def exec (t : LockTable) : Op → LockTable
  | .registerSession id expires => t.registerSession id expires
  | .renew id expires => t.renew id expires
  | .tick now => { t with now }
  | .set lock => (t.set lock).1
  | .beginWait lock => (t.beginWait lock).1
  | .await seq err => t.await seq err
  | .unlock object owner r => (t.unlock object owner r).1
  | .interruptWaiters err => t.interruptWaiters err
  | .releaseSession id hint => t.releaseSession id hint

/-- Tables reached from a new one by any sequence of calls. -/
inductive Reachable : LockTable → Prop
  | new {maxRecords maxPerSession : Nat} {now : Int} {t : LockTable}
      (h : newLockTable maxRecords maxPerSession now = some t) : Reachable t
  | step {t : LockTable} (op : Op) (h : Reachable t) : Reachable (t.exec op)

end LockTable
end PortableFS.Locks
