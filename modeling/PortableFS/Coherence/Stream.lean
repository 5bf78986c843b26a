import PortableFS.Coherence.Types

/-!
# The change stream

`vcs/internal/volumeserver/subscription.go` and `cache_footprint.go`: the ring of events, the
cursors of the subscribers, the two heaps of subscribers by acknowledgement and by horizon, and the
notification channel. A subscriber is named by its incarnation; its place in a heap is its index
there. The delegations live under the same mutex. What they do to the stream is to append events and
to admit facts, so these are arguments here: `lost o` are the events of what the subscriber `o` held
when it expires, and `lost 0` those of what the operation drops itself. An operation is what the
source does in one hold of the mutex, and a call that waits is a sequence of such turns.
`history` keeps every event that was appended, for statements only.
-/

namespace PortableFS.Coherence

open Base SlotHeap

/-- The fields of `CoherenceCoordinator` that the stream lives in. -/
structure Stream where
  now : ℕ
  maxCacheFootprint : ℕ
  logSize : ℕ
  subs : ℕ → Option Subscriber
  subscribers : Assoc SessionID ℕ
  acks : List ℕ
  horizons : List ℕ
  incarnation : ℕ
  log : ℕ → StreamEvent
  first : ℕ
  position : ℕ
  watermark : ℕ
  changed : Option ℕ
  channels : ℕ
  history : List StreamEvent

namespace Stream

/-- `NewCoherenceCoordinator`, `subscription.go:215`, at a time. -/
def new (config : Config) (now : ℕ) : Stream where
  now := now
  maxCacheFootprint := config.maxCacheFootprint
  logSize := config.maxLogEntries
  subs := fun _ => none
  subscribers := ∅
  acks := []
  horizons := []
  incarnation := 0
  log := fun _ => {}
  first := 1
  position := 0
  watermark := 1
  changed := none
  channels := 0
  history := []

/-- The acknowledged position of a subscriber. -/
def ackedOf (s : Stream) (o : ℕ) : ℕ := ((s.subs o).map Subscriber.acked).getD 0

/-- The horizon of a subscriber. -/
def horizonOf (s : Stream) (o : ℕ) : ℕ := ((s.subs o).map Subscriber.horizon).getD 0

/-- Change the fields of a subscriber. -/
def setSub (s : Stream) (o : ℕ) (f : Subscriber → Subscriber) : Stream :=
  { s with subs := Function.update s.subs o ((s.subs o).map f) }

/-- `subscription.go:264`. -/
def signalLocked (s : Stream) : Stream := { s with changed := none }

/-- `subscription.go:270`, with the channel. -/
def notificationLocked (s : Stream) : Stream × ℕ :=
  match s.changed with
  | some channel => (s, channel)
  | none => ({ s with changed := some s.channels, channels := s.channels + 1 }, s.channels)

/-- The entry of a position in the ring. -/
def entry (s : Stream) (position : ℕ) : StreamEvent := s.log ((position - 1) % s.logSize)

/-- The loop of `truncateLocked`, `subscription.go:446`. -/
def clearEntries (s : Stream) : ℕ → Stream
  | 0 => s
  | rounds + 1 =>
    { s with
      log := Function.update s.log ((s.first - 1) % s.logSize) {}
      first := s.first + 1 }.clearEntries rounds

/-- The last position that nobody needs, `subscription.go:442`. -/
def through (s : Stream) : ℕ :=
  match s.acks.head? with
  | none => s.position
  | some o => s.ackedOf o

/-- `subscription.go:441`. -/
def truncateLocked (s : Stream) : Stream := s.clearEntries (s.through + 1 - s.first)

/-- The event as it enters the log, `subscription.go:411`. -/
def stamp (s : Stream) (event : StreamEvent) : StreamEvent :=
  if event.kind = .change then
    { event with
      position := s.position + 1
      change := { event.change with position := s.position + 1 }
      cacheDeadline := s.now + subscriptionTTL }
  else { event with position := s.position + 1 }

/-- The event takes the next slot of the ring, `subscription.go:419`. -/
def enter (s : Stream) (event : StreamEvent) : Stream :=
  let position := s.position + 1
  { s with
    position := position
    first := if s.logSize ≤ position - s.first then position - s.logSize + 1 else s.first
    log := Function.update s.log ((position - 1) % s.logSize) (s.stamp event)
    history := s.history ++ [s.stamp event]
    changed := none }

/-- `subscription.go:406`. -/
def appendLocked (s : Stream) (event : StreamEvent) : Stream := (s.enter event).truncateLocked

def appendAll (s : Stream) (events : List StreamEvent) : Stream := events.foldl appendLocked s

/-- A subscriber is fenced. -/
def fence (s : Stream) (o : ℕ) : Stream := s.setSub o fun x => { x with fenced := true }

/-- The cursor part of `retireSubscriberLocked`, `subscription.go:632`. -/
def retire (s : Stream) (o : ℕ) : Stream :=
  let s := s.setSub o Subscriber.retired
  { s with
    horizons := if o ∈ s.horizons then removeAt s.horizonOf s.horizons (s.horizons.idxOf o)
      else s.horizons
    acks := if o ∈ s.acks then removeAt s.ackedOf s.acks (s.acks.idxOf o) else s.acks }

/-- `subscription.go:632`. -/
def retireSubscriberLocked (s : Stream) (o : ℕ) (events : List StreamEvent) : Stream :=
  ((s.retire o).appendAll events).truncateLocked.signalLocked

variable (lost : ℕ → List StreamEvent)

/-- The loop of `expireLocked`, `subscription.go:626`. -/
def expireRounds : ℕ → Stream → Stream
  | 0, s => s
  | rounds + 1, s =>
    match s.horizons.head? with
    | none => s
    | some o =>
      if s.horizonOf o ≤ s.now then expireRounds rounds (s.retireSubscriberLocked o (lost o))
      else s

/-- `subscription.go:624`. -/
def expireLocked (s : Stream) : Stream :=
  expireRounds lost s.horizons.length s

/-- The object of a token, if it is the one of its session. -/
def current (s : Stream) (token : SubscriptionToken) : Option Subscriber :=
  match s.subscribers.lookup token.session with
  | none => none
  | some o => (s.subs o).filter fun x => x.token = token

/-- An operation of an admitted subscriber; `subscriberLocked` of `subscription.go:325` is its
start. -/
def admitted {R : Type} (s : Stream) (token : SubscriptionToken)
    (run : Stream → Subscriber → Stream × Except CoherenceError R) :
    Stream × Except CoherenceError R :=
  let s := s.expireLocked lost
  match s.current token with
  | none => (s, .error .subscription)
  | some x =>
    if x.fenced then (s, .error .sessionFenced)
    else if x.acked + 1 < s.first then
      (((s.fence token.incarnation).appendAll (lost 0)).signalLocked,
        .error .sessionFenced)
    else run s x

/-- `SubscriptionSnapshot`. -/
structure Snapshot where
  token : SubscriptionToken
  position : ℕ
  watermark : ℕ
  horizon : ℕ

/-- The new subscriber of `SubscribeWithCache`, `subscription.go:307`; `handles` are the identities
of the open handles of the session. -/
def newSubscriber (s : Stream) (id : SessionID) (initial : CacheAdmission)
    (handles : List Identity) : Subscriber :=
  let x : Subscriber :=
    { token := ⟨id, s.incarnation + 1⟩, acked := s.position, delivered := s.position
      horizon := s.now + subscriptionTTL }
  (x.addAdmission initial s.maxCacheFootprint).addAdmission { data := handles } s.maxCacheFootprint

/-- A subscriber takes its place in the tables, `subscription.go:314`. -/
def register (s : Stream) (x : Subscriber) : Stream :=
  let s := { s with
    incarnation := x.token.incarnation
    subs := Function.update s.subs x.token.incarnation (some x)
    subscribers := s.subscribers.insert x.token.session x.token.incarnation }
  { s with
    acks := push s.ackedOf s.acks x.token.incarnation
    horizons := push s.horizonOf s.horizons x.token.incarnation }

/-- `SubscribeWithCache`, `subscription.go:288`. -/
def subscribe (s : Stream) (id : SessionID) (initial : CacheAdmission)
    (handles : List Identity) : Stream × Except CoherenceError Snapshot :=
  if id = 0 then (s, .error .subscription)
  else
    let s := s.expireLocked lost
    let s := match s.subscribers.lookup id with
      | none => s
      | some o => s.retireSubscriberLocked o (lost 0)
    let x := s.newSubscriber id initial handles
    ((s.register x).truncateLocked.signalLocked, .ok ⟨x.token, s.position, s.watermark, x.horizon⟩)

/-- `subscription.go:347`. -/
def checkSession (s : Stream) (token : SubscriptionToken) :
    Stream × Except CoherenceError Unit :=
  s.admitted lost token fun s _ => (s, .ok ())

/-- `cache_footprint.go:66`. -/
def admitCache (s : Stream) (token : SubscriptionToken)
    (a : CacheAdmission) : Stream × Except CoherenceError Unit :=
  s.admitted lost token fun s _ =>
    (s.setSub token.incarnation (·.addAdmission a s.maxCacheFootprint), .ok ())

/-- The first change after its acknowledgement that a subscriber has to withdraw,
`subscription.go:366`. -/
def obligation (s : Stream) (x : Subscriber) : Option StreamEvent :=
  ((List.range' (x.acked + 1) (s.position - x.acked)).map s.entry).find? x.owes

/-- The horizon that `Renew` computes, `subscription.go:365`. -/
def renewal (s : Stream) (x : Subscriber) : ℕ :=
  match s.obligation x with
  | none => s.now + subscriptionTTL
  | some event => max x.horizon (min (s.now + subscriptionTTL) event.cacheDeadline)

/-- The horizon of a subscriber is renewed, `subscription.go:375`. -/
def extend (s : Stream) (o : ℕ) : Stream :=
  let s' := s.setSub o fun x => { x with horizon := s.renewal x }
  { s' with horizons := fixAt s'.horizonOf s'.horizons (s'.horizons.idxOf o) }.signalLocked

/-- `subscription.go:353`, with the horizon. -/
def renew (s : Stream) (token : SubscriptionToken) :
    Stream × Except CoherenceError ℕ :=
  s.admitted lost token fun s x => (s.extend token.incarnation, .ok (s.renewal x))

/-- An acknowledgement moves the cursor. -/
def ackTo (s : Stream) (o position : ℕ) : Stream :=
  let s := s.setSub o fun x => { x with acked := position }
  { s with acks := fixAt s.ackedOf s.acks (s.acks.idxOf o) }.truncateLocked.signalLocked

/-- `subscription.go:543`. -/
def ack (s : Stream) (token : SubscriptionToken) (position : ℕ) :
    Stream × Except CoherenceError Unit :=
  s.admitted lost token fun s x =>
    if x.delivered < position then (s, .error .position)
    else if position ≤ x.acked then (s, .ok ())
    else (s.ackTo token.incarnation position, .ok ())

/-- What a poll does in one turn of its loop. -/
inductive PollOutcome where
  | events (events : List StreamEvent) (after : ℕ)
  | again (after : ℕ)
  | wait (channel deadline : ℕ)
deriving DecidableEq

/-- The event is the subscriber's own, `subscription.go:506`. -/
def own (token : SubscriptionToken) (implicitSource : Bool) (event : StreamEvent) : Bool :=
  if implicitSource ∧ event.localOwner ≠ {} then event.localOwner = token
  else event.source = token.session

/-- What a subscriber is shown at a position, `subscription.go:513`. -/
def shown (token : SubscriptionToken) (implicitSource : Bool) (position : ℕ) (event : StreamEvent) :
    StreamEvent :=
  if own token implicitSource event ∨ event.target ≠ 0 ∧ event.target ≠ token.session then
    { position := position, kind := .advance }
  else event

/-- One turn of the loop of `poll` for its subscriber, `subscription.go:484`. -/
def pollTurn (s : Stream) (x : Subscriber) (after limit : ℕ) (implicitSource : Bool) :
    Stream × Except CoherenceError PollOutcome :=
  if after < x.acked ∨ x.delivered < after then (s, .error .position)
  else if after < s.position then
    let stop := min s.position (after + limit)
    let positions := List.range' (after + 1) (stop - after)
    let ownOnly := implicitSource ∧ after = x.acked ∧ after = x.delivered ∧
      positions.all fun p => (s.entry p).kind = .change ∧ own x.token implicitSource (s.entry p)
    let s' := s.setSub x.token.incarnation fun x => { x with delivered := max x.delivered stop }
    if ownOnly then (s'.ackTo x.token.incarnation stop, .ok (.again stop))
    else
      (s', .ok (.events (positions.map fun p => shown x.token implicitSource p (s.entry p)) stop))
  else
    let (s', channel) := s.notificationLocked
    (s', .ok (.wait channel x.horizon))

/-- One turn of the loop of `poll`, `subscription.go:468`. -/
def poll (s : Stream) (token : SubscriptionToken) (after limit : ℕ)
    (implicitSource : Bool) : Stream × Except CoherenceError PollOutcome :=
  if limit = 0 then (s, .error .position)
  else s.admitted lost token fun s x => s.pollTurn x after limit implicitSource

/-- The appends of a commit, `subscription.go:398` and `cache_footprint.go:105`. -/
def appendCommit (s : Stream) (entries : List ChangeEntry) (event : ChangeEntry → StreamEvent) :
    Stream :=
  entries.foldl (fun s e => { s with watermark := max s.watermark e.volumeVersion }.appendLocked
    (event e)) s

/-- `subscription.go:394`, with the position. -/
def onCommitFrom (s : Stream) (entries : List ChangeEntry)
    (source : SessionID) : Stream × ℕ :=
  let s := (s.expireLocked lost).appendCommit entries fun e =>
    { kind := .change, change := e, source := source }
  (s, s.position)

/-- `Withdrawal`. -/
structure Withdrawal where
  sourceCurrent : Bool
  position : ℕ
  targets : List SubscriptionToken
deriving DecidableEq

/-- The targets of a commit, `cache_footprint.go:94`: the subscribers other than the source whose
caches an entry may concern. -/
def targets (s : Stream) (entries : List ChangeEntry) (source : SubscriptionToken) :
    List SubscriptionToken :=
  s.subscribers.entries.filterMap fun e =>
    match s.subs e.2 with
    | none => none
    | some x =>
      if x.token ≠ source ∧ e.2 ∈ s.acks ∧ entries.any x.couldCache then some x.token else none

/-- The event of an entry of a targeted commit, `cache_footprint.go:107`. -/
def targeted (source : SubscriptionToken) (e : ChangeEntry) : StreamEvent :=
  { kind := .change, change := e, source := source.session, localOwner := source
    cacheTargeted := true }

/-- `cache_footprint.go:88`. -/
def onCommitTargeted (s : Stream) (entries : List ChangeEntry)
    (source : SubscriptionToken) (a : CacheAdmission) : Stream × Withdrawal :=
  let s := s.expireLocked lost
  let s' := s.appendCommit entries (targeted source)
  let position := if entries = [] then 0 else s'.position
  let targets := if entries = [] then [] else s.targets entries source
  if (s'.current source).isSome ∧ source.incarnation ∈ s'.acks then
    (s'.setSub source.incarnation (·.addAdmission a s'.maxCacheFootprint),
      ⟨true, position, targets⟩)
  else (s', ⟨false, position, targets⟩)

/-- What a wait does in one turn of its loop. -/
inductive WaitOutcome where
  | error (e : CoherenceError)
  | done
  | wait (channel deadline : ℕ)
deriving DecidableEq

/-- `subscription.go:566`. -/
def minimumOtherLocked (s : Stream) (exclude : SessionID) : Option ℕ :=
  match s.acks with
  | [] => none
  | o :: rest =>
    if (s.subs o).map (·.token.session) ≠ some exclude then some o
    else
      match rest with
      | [] => none
      | [o₁] => some o₁
      | o₁ :: o₂ :: _ => if s.ackedOf o₂ < s.ackedOf o₁ then some o₂ else some o₁

/-- One turn of `WaitWithdrawn`, `subscription.go:583`. -/
def waitWithdrawn (s : Stream) (position : ℕ) (exclude : SessionID) :
    Stream × WaitOutcome :=
  let s := s.expireLocked lost
  if s.position < position then (s, .error .position)
  else
    match s.minimumOtherLocked exclude with
    | none => (s, .done)
    | some o =>
      if position ≤ s.ackedOf o then (s, .done)
      else
        let (s', channel) := s.notificationLocked
        (s', .wait channel ((s.horizons.head?.map s.horizonOf).getD 0))

/-- The targets that a withdrawal still waits for, `cache_footprint.go:129`. -/
def pendingTargets (s : Stream) (w : Withdrawal) : List Subscriber :=
  w.targets.filterMap fun token => (s.current token).filter fun x =>
    token.incarnation ∈ s.acks ∧ x.acked < w.position

/-- One turn of `WaitTargeted`, `cache_footprint.go:120`: it sleeps until the earliest horizon. -/
def waitTargeted (s : Stream) (w : Withdrawal) :
    Stream × WaitOutcome :=
  let s := s.expireLocked lost
  if s.position < w.position then (s, .error .position)
  else
    match ((s.pendingTargets w).map Subscriber.horizon).min? with
    | none => (s, .done)
    | some deadline =>
      let (s', channel) := s.notificationLocked
      (s', .wait channel deadline)

/-- `subscription.go:650`, with the handles that are closed. -/
def expireSession (s : Stream) (id : SessionID) : Stream :=
  let s := s.expireLocked lost
  match s.subscribers.lookup id with
  | none => s
  | some o => ((s.fence o).appendAll (lost 0)).signalLocked

/-- `subscription.go:678`. -/
def forgetSession (s : Stream) (id : SessionID) :
    Stream × Except CoherenceError Unit :=
  let s := s.expireLocked lost
  match s.subscribers.lookup id with
  | none => (s, .ok ())
  | some o =>
    if o ∈ s.horizons then (s, .error .sessionActive)
    else ({ s.appendAll (lost 0) with subscribers := s.subscribers.erase id }, .ok ())

end Stream

/-- What can happen to a stream. `control` is an operation of a delegation, once its subscriber is
admitted: it appends events, or wakes, or waits. `sweep` is `subscription.go:667`. -/
inductive Op where
  | tick (elapsed : ℕ)
  | subscribe (id : SessionID) (initial : CacheAdmission) (handles : List Identity)
  | checkSession (token : SubscriptionToken)
  | admitCache (token : SubscriptionToken) (a : CacheAdmission)
  | renew (token : SubscriptionToken)
  | ack (token : SubscriptionToken) (position : ℕ)
  | poll (token : SubscriptionToken) (after limit : ℕ) (implicitSource : Bool)
  | onCommitFrom (entries : List ChangeEntry) (source : SessionID)
  | onCommitTargeted (entries : List ChangeEntry) (source : SubscriptionToken) (a : CacheAdmission)
  | waitWithdrawn (position : ℕ) (exclude : SessionID)
  | waitTargeted (w : Stream.Withdrawal)
  | expireSession (id : SessionID)
  | forgetSession (id : SessionID)
  | sweep
  | control (events : List StreamEvent) (wakes waits : Bool)

namespace Stream

/-- The operation of a delegation, as the stream sees it. -/
def control (s : Stream) (events : List StreamEvent) (wakes waits : Bool) : Stream :=
  let s := s.appendAll events
  let s := if wakes then s.signalLocked else s
  if waits then s.notificationLocked.1 else s

/-- The stream after one operation. -/
def next (s : Stream) (lost : ℕ → List StreamEvent) : Op → Stream
  | .tick elapsed => { s with now := s.now + elapsed }
  | .subscribe id initial handles => (s.subscribe lost id initial handles).1
  | .checkSession token => (s.checkSession lost token).1
  | .admitCache token a => (s.admitCache lost token a).1
  | .renew token => (s.renew lost token).1
  | .ack token position => (s.ack lost token position).1
  | .poll token after limit implicitSource => (s.poll lost token after limit implicitSource).1
  | .onCommitFrom entries source => (s.onCommitFrom lost entries source).1
  | .onCommitTargeted entries source a => (s.onCommitTargeted lost entries source a).1
  | .waitWithdrawn position exclude => (s.waitWithdrawn lost position exclude).1
  | .waitTargeted w => (s.waitTargeted lost w).1
  | .expireSession id => s.expireSession lost id
  | .forgetSession id => (s.forgetSession lost id).1
  | .sweep => s.expireLocked lost
  | .control events wakes waits => s.control events wakes waits

def Step (s s' : Stream) : Prop := ∃ lost op, s' = s.next lost op

/-- The streams that operations reach. -/
def Reachable (config : Config) (s : Stream) : Prop :=
  ∃ now, Relation.ReflTransGen Step (new config now) s

end Stream

end PortableFS.Coherence
