import PortableFS.Base.Assoc
import PortableFS.Base.SlotHeap

/-!
# Vocabulary of the change stream

The types of `vcs/internal/volumeserver/subscription.go` and `cache_footprint.go`. An unset kind is
the zero value of the source. Times are nanoseconds of the coordinator's clock. The 64-bit counters
that the source stops at are natural numbers. What a change or an event of a delegation carries for
the client alone is left out.
-/

namespace PortableFS.Coherence

/-- Identity of a file; zero names none. -/
abbrev Identity := BitVec 128

/-- Session; zero names none. -/
abbrev SessionID := BitVec 128

/-- `SubscriptionTTL`. -/
def subscriptionTTL : ℕ := 10 * 10 ^ 9

/-- `SubscriptionToken`: incarnations are unique in the volume, so the token names the object. -/
structure SubscriptionToken where
  session : SessionID := 0
  incarnation : ℕ := 0
deriving DecidableEq

/-- The errors of the stream. -/
inductive CoherenceError where
  | subscription
  | sessionFenced
  | sessionActive
  | position
deriving DecidableEq

/-- `ChangeKind`. -/
inductive ChangeKind where
  | unset
  | namespaceChanged
  | attributesChanged
  | dataChanged
  | delegationGranted
  | delegationReleased
  | directoryChanged
deriving DecidableEq

/-- `ChangeEntry`. -/
structure ChangeEntry where
  position : ℕ := 0
  volumeVersion : ℕ := 0
  kind : ChangeKind := .unset
  identity : Identity := 0
  parentIdentity : Identity := 0
deriving DecidableEq

/-- `StreamEventKind`. -/
inductive StreamEventKind where
  | unset
  | change
  | recalled
  | breakForRead
  | delegationMode
  | loss
  | advance
deriving DecidableEq

/-- `StreamEvent`; a zero target is a broadcast. -/
structure StreamEvent where
  position : ℕ := 0
  kind : StreamEventKind := .unset
  target : SessionID := 0
  source : SessionID := 0
  localOwner : SubscriptionToken := {}
  change : ChangeEntry := {}
  cacheDeadline : ℕ := 0
  cacheTargeted : Bool := false
deriving DecidableEq

/-- `subscription.go:428`. -/
def StreamEvent.localTo (event : StreamEvent) (token : SubscriptionToken) : Bool :=
  if event.localOwner ≠ {} then event.localOwner = token else event.source = token.session

/-- `CacheAdmission`. -/
structure CacheAdmission where
  directories : List Identity := []
  attributes : List Identity := []
  data : List Identity := []

/-- `cacheFootprint`. -/
structure CacheFootprint where
  identities : Finset Identity := ∅
  all : Bool := false

namespace CacheFootprint

/-- One round of `add`, `cache_footprint.go:22`. -/
def addOne (limit : ℕ) (f : CacheFootprint) (id : Identity) : CacheFootprint :=
  if f.all ∨ id = 0 ∨ id ∈ f.identities then f
  else if limit ≤ f.identities.card then { identities := ∅, all := true }
  else { f with identities := insert id f.identities }

/-- `cache_footprint.go:17`: on overflow every identity counts as admitted. -/
def add (f : CacheFootprint) (ids : List Identity) (limit : ℕ) : CacheFootprint :=
  ids.foldl (addOne limit) f

/-- `cache_footprint.go:39`. -/
def has (f : CacheFootprint) (id : Identity) : Bool := f.all ∨ id ∈ f.identities

variable {limit : ℕ} {f : CacheFootprint} {id : Identity}

private theorem has_addOne {id' : Identity} (h : f.has id = true) :
    (addOne limit f id').has id = true := by
  unfold addOne
  split
  · exact h
  · split
    · simp [has]
    · simp only [has, decide_eq_true_eq, Finset.mem_insert] at h ⊢
      exact h.imp_right .inr

/-- A footprint only grows. -/
theorem has_add (ids : List Identity) (h : f.has id = true) : (f.add ids limit).has id = true := by
  unfold add
  induction ids generalizing f with
  | nil => exact h
  | cons id' ids ih => exact ih (has_addOne h)

end CacheFootprint

/-- `changeSubscriber` without what it holds, opened and lost. -/
structure Subscriber where
  token : SubscriptionToken
  acked : ℕ
  delivered : ℕ
  horizon : ℕ
  fenced : Bool := false
  directories : CacheFootprint := {}
  attributes : CacheFootprint := {}
  data : CacheFootprint := {}

namespace Subscriber

/-- `admit`, `cache_footprint.go:46`. -/
def addAdmission (x : Subscriber) (a : CacheAdmission) (limit : ℕ) : Subscriber :=
  { x with
    directories := x.directories.add a.directories limit
    attributes := x.attributes.add a.attributes limit
    data := x.data.add a.data limit }

/-- `cache_footprint.go:51`. -/
def couldCache (x : Subscriber) (e : ChangeEntry) : Bool :=
  match e.kind with
  | .namespaceChanged => x.directories.has e.parentIdentity
  | .directoryChanged => x.directories.has e.identity
  | .attributesChanged => x.attributes.has e.identity
  | .dataChanged => x.data.has e.identity
  | _ => true

/-- What a retirement leaves of a subscriber, `subscription.go:633`. -/
def retired (x : Subscriber) : Subscriber :=
  { x with fenced := true, directories := {}, attributes := {}, data := {} }

/-- The subscriber has to withdraw the change, `subscription.go:368`. -/
def owes (x : Subscriber) (event : StreamEvent) : Bool :=
  event.kind = .change ∧ !event.localTo x.token ∧ (!event.cacheTargeted ∨ x.couldCache event.change)

/-- What could be cached stays so within an incarnation. -/
theorem couldCache_addAdmission {x : Subscriber} {e : ChangeEntry} (a : CacheAdmission) (limit : ℕ)
    (h : x.couldCache e = true) : (x.addAdmission a limit).couldCache e = true := by
  unfold couldCache at h ⊢
  split at h <;> first | exact CacheFootprint.has_add _ h | rfl

end Subscriber

/-- `CoherenceConfig` as `NewCoherenceCoordinator` completes it: the log has an entry. -/
structure Config where
  maxLogEntries : ℕ
  maxCacheFootprint : ℕ
  someLog : 0 < maxLogEntries

end PortableFS.Coherence
