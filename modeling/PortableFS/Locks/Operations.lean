import PortableFS.Locks.Cascade

/-!
# What each call does

Module `volumeserver`, `vcs/internal/volumeserver/locks.go:389–661`. One lemma for each call says
everything it can do to a table between calls; from these the invariant follows for every
reachable table.
-/

namespace PortableFS.Locks

open PortableFS.Base

variable (o : Option ObjectLocks)

theorem conflictLocked_getD (want : Lock) :
    conflictLocked o want = conflictLocked (some (o.getD .empty)) want := by
  cases o <;> rfl

theorem queuedAheadLocked_getD (lock : Lock) (residual : List LockRange) (before : Option Nat) :
    queuedAheadLocked o lock residual before =
      queuedAheadLocked (some (o.getD .empty)) lock residual before := by
  cases o <;> rfl

theorem planAcquireLocked_getD (next : Lock) :
    planAcquireLocked o next = planAcquireLocked (some (o.getD .empty)) next := by
  cases o <;> rfl

theorem planReleaseLocked_getD (owner : LockOwner) (r : LockRange) :
    planReleaseLocked o owner r = planReleaseLocked (some (o.getD .empty)) owner r := by
  cases o <;> rfl

variable {lock : Lock}

/-- An absent object covers nothing, like an empty one. -/
theorem residualLocked_getD (hv : lock.range.start ≤ lock.range.stop) :
    residualLocked o lock = residualLocked (some (o.getD .empty)) lock := by
  cases o with
  | some o => rfl
  | none =>
    change [lock.range] = subtractFrom lock.range lock.range.start []
    unfold subtractFrom
    rw [dif_pos hv]

variable {w : Waiter}

theorem waiterEligibleLocked_getD (hv : w.lock.range.start ≤ w.lock.range.stop) :
    waiterEligibleLocked o w = waiterEligibleLocked (some (o.getD .empty)) w := by
  unfold waiterEligibleLocked
  dsimp only
  rw [conflictLocked_getD, residualLocked_getD o hv, queuedAheadLocked_getD]

namespace LockTable

/-- Every object entry holds a record or a waiter. -/
def Tidy (t : LockTable) : Prop :=
  ∀ k o, t.objects.lookup k = some o → ¬ (o.held.size = 0 ∧ o.waiting.size = 0)

/-- A table whose mutex is free. -/
structure Good (t : LockTable) : Prop where
  inv : Inv none t
  idle : t.Idle
  tidy : t.Tidy

variable {t : LockTable}

/-- Nothing is pruned from a tidy table. -/
theorem Tidy.prune (h : t.Tidy) (k : ObjectKey) : t.pruneObjectLocked k = t := by
  unfold pruneObjectLocked
  split
  · rfl
  · next o ho => rw [if_neg (h k o ho)]

variable {k : ObjectKey}

/-- A pruned object is absent or occupied. -/
theorem occupied_of_prune {o : ObjectLocks}
    (h : (t.pruneObjectLocked k).objects.lookup k = some o) :
    ¬ (o.held.size = 0 ∧ o.waiting.size = 0) := by
  unfold pruneObjectLocked at h
  split at h
  · next hn => simp [hn] at h
  next o' ho' =>
  split at h
  · exact absurd ((Assoc.lookup_erase_eq _ _ _).symm.trans h) (by simp)
  · next hne =>
    rw [ho'] at h
    cases h
    exact hne

variable {t' : LockTable}

/-- Pruning the only object that changed leaves a tidy table. -/
theorem Tidy.of_sameElsewhere (h : t.Tidy) (hs : SameElsewhere k t t') :
    (t'.pruneObjectLocked k).Tidy := by
  intro k' o ho
  by_cases hk : k' = k
  · rw [hk] at ho
    exact occupied_of_prune ho
  · rw [sameElsewhere_prune t' k k' hk, hs k' hk] at ho
    exact h k' o ho

theorem idle_prune (h : t.Idle) (k : ObjectKey) : (t.pruneObjectLocked k).Idle := by
  unfold pruneObjectLocked
  split
  · exact h
  · split
    · exact ⟨h.waking, h.pendingWake⟩
    · exact h

/-- A call that touched one object and prunes it ends in order. -/
theorem Good.prune (h : t.Good) (hi : Inv none t') (hidle : t'.Idle)
    (hs : SameElsewhere k t t') : (t'.pruneObjectLocked k).Good :=
  ⟨hi.same (sameCore_prune t' k), idle_prune hidle k, h.tidy.of_sameElsewhere hs⟩

variable {s : LockSession}

theorem liveSessionLocked_eq_some {id : SessionID}
    (h : t.liveSessionLocked id = some s) : t.sessions.lookup id = some s ∧ t.now < s.expires := by
  unfold liveSessionLocked at h
  split at h
  · simp at h
  next s' hs' =>
  split at h
  · next hlt =>
    cases h
    exact ⟨hs', hlt⟩
  · simp at h

/-- An admitted plan is installed and, if it weakens coverage, followed by a cascade. -/
def perform (t : LockTable) (k : ObjectKey) (id : SessionID) (plan : LockPlan)
    (history : List Grant) : LockTable :=
  if plan.weakens then (t.installPlan k id plan history).wakeEligibleLocked k plan.touched
  else t.installPlan k id plan history

theorem applyPlanLocked_eq (t : LockTable) (k : ObjectKey) (id : SessionID) (plan : LockPlan)
    (history : List Grant) :
    applyPlanLocked wakeEligibleLocked t k id plan history =
      if t.exceedsLimits id plan then .error .admission
      else .ok (t.perform k id plan history) := rfl

/-- Performing an admitted plan keeps the invariant, leaves all other objects and allocates no
waiter. -/
theorem perform_spec {owner : LockOwner} {plan : LockPlan} {rest : List (Entry Lock)}
    (hi : Inv none t) (hidle : t.Idle) (he : plan.Edits (t.objectLocked k) k owner rest)
    (history : List Grant) (hs : t.sessions.lookup owner.session = some s)
    (hlim : t.exceedsLimits owner.session plan = false) :
    Inv none (t.perform k owner.session plan history) ∧
      (t.perform k owner.session plan history).Idle ∧
      SameElsewhere k t (t.perform k owner.session plan history) ∧
      ∀ n, t.Fresh n → (t.perform k owner.session plan history).Fresh n := by
  have hinst := hi.install he history hs hlim
  have hsame := sameElsewhere_install t k owner.session plan history
  have hidle' : (t.installPlan k owner.session plan history).Idle :=
    ⟨hidle.waking, hidle.pendingWake⟩
  have hfresh : ∀ n, t.Fresh n → (t.installPlan k owner.session plan history).Fresh n :=
    fun n hf => ⟨hf.above, hf.le⟩
  unfold perform
  split
  · obtain ⟨h1, h2, h3, h4⟩ := wakeEligible_spec k plan.touched hinst hidle'
    exact ⟨h1, h2, hsame.trans h3, fun n hf => h4 n (hfresh n hf)⟩
  · exact ⟨hinst, hidle', hsame, hfresh⟩

/-- Outcomes of `set`. -/
inductive SetResult (t : LockTable) (lock : Lock) : LockTable × Option LockError → Prop
  | failed (err : LockError) : SetResult t lock (t, some err)
  | installed {s : LockSession} (hv : lock.range.start ≤ lock.range.stop)
      (hs : t.sessions.lookup lock.owner.session = some s) (hlive : t.now < s.expires)
      (hadm : (t.objectLocked lock.object).Admits lock none)
      (hlim : t.exceedsLimits lock.owner.session
        (planAcquireLocked (some (t.objectLocked lock.object)) lock) = false) :
      SetResult t lock ((t.perform lock.object lock.owner.session
        (planAcquireLocked (some (t.objectLocked lock.object)) lock)
        [⟨lock, none, t.objectLocked lock.object⟩]).pruneObjectLocked lock.object, none)

/-- `set` fails and changes nothing, or performs the plan of an admitted request. -/
theorem set_spec (hg : t.Good) (lock : Lock) : SetResult t lock (t.set lock) := by
  unfold set
  split
  · exact .failed .invalidLock
  next hvalid =>
  have hv : lock.range.start ≤ lock.range.stop := by simpa [validLock] using hvalid
  split
  · exact .failed .sessionExpired
  next s hlive =>
  obtain ⟨hs, hlt⟩ := liveSessionLocked_eq_some hlive
  have hobj : (t.objects.lookup lock.object).getD .empty = t.objectLocked lock.object := rfl
  dsimp only
  rw [conflictLocked_getD, residualLocked_getD _ hv, queuedAheadLocked_getD,
    planAcquireLocked_getD, hobj]
  split
  · exact .failed .conflict
  next hc =>
  split
  · exact .failed .conflict
  next hq =>
  have hadm : (t.objectLocked lock.object).Admits lock none := by
    rw [admits_iff (hg.inv.object _).indexed]
    simp only [Bool.not_eq_true, Option.isSome_eq_false_iff, Option.isNone_iff_eq_none]
      at hc
    refine ⟨hc, ?_⟩
    simpa [Bool.and_eq_true, Option.isSome_iff_ne_none, or_iff_not_imp_left] using hq
  rw [applyPlanLocked_eq]
  cases hlim : t.exceedsLimits lock.owner.session
      (planAcquireLocked (some (t.objectLocked lock.object)) lock) with
  | true =>
    simp only [if_true]
    rw [hg.tidy.prune]
    exact .failed .admission
  | false =>
    simp only [Bool.false_eq_true, if_false]
    exact .installed hv hs hlt hadm hlim

/-- A call to `set` ends in order. -/
theorem Good.set (hg : t.Good) (lock : Lock) : (t.set lock).1.Good := by
  have h := set_spec hg lock
  generalize t.set lock = result at h ⊢
  cases h with
  | failed err => exact hg
  | installed hv hs hlive hadm hlim =>
    obtain ⟨h1, h2, h3, _⟩ := perform_spec hg.inv hg.idle (hg.inv.acquire_edits hv hadm) _ hs hlim
    exact hg.prune h1 h2 h3

/-- Outcomes of `unlock`. -/
inductive UnlockResult (t : LockTable) (k : ObjectKey) (owner : LockOwner) (r : LockRange) :
    LockTable × Option LockError → Prop
  | failed (err : LockError) : UnlockResult t k owner r (t, some err)
  | nothing (hv : r.start ≤ r.stop)
      (hnone : (planReleaseLocked (some (t.objectLocked k)) owner r).remove = []) :
      UnlockResult t k owner r (t, none)
  | released {s : LockSession} (hv : r.start ≤ r.stop)
      (hs : t.sessions.lookup owner.session = some s) (hlive : t.now < s.expires)
      (hsome : (planReleaseLocked (some (t.objectLocked k)) owner r).remove ≠ [])
      (hlim : t.exceedsLimits owner.session
        (planReleaseLocked (some (t.objectLocked k)) owner r) = false) :
      UnlockResult t k owner r ((t.perform k owner.session
        (planReleaseLocked (some (t.objectLocked k)) owner r) []).pruneObjectLocked k, none)

/-- `unlock` fails and changes nothing, finds nothing to release, or performs the release. -/
theorem unlock_spec (hg : t.Good) (k : ObjectKey) (owner : LockOwner) (r : LockRange) :
    UnlockResult t k owner r (t.unlock k owner r) := by
  unfold unlock
  split
  · exact .failed .invalidUnlockRange
  next hv =>
  rw [Nat.not_lt] at hv
  split
  · exact .failed .sessionExpired
  next s hlive =>
  obtain ⟨hs, hlt⟩ := liveSessionLocked_eq_some hlive
  have hobj : (t.objects.lookup k).getD .empty = t.objectLocked k := rfl
  dsimp only
  rw [planReleaseLocked_getD, hobj]
  split
  · next he => exact .nothing hv (List.isEmpty_iff.mp he)
  next he =>
  rw [List.isEmpty_iff] at he
  rw [applyPlanLocked_eq]
  cases hlim : t.exceedsLimits owner.session
      (planReleaseLocked (some (t.objectLocked k)) owner r) with
  | true =>
    simp only [if_true]
    rw [hg.tidy.prune]
    exact .failed .admission
  | false =>
    simp only [Bool.false_eq_true, if_false]
    exact .released hv hs hlt he hlim

/-- The plan of a release edits the object's records. -/
theorem Inv.release_edits {dead : Option SessionID} (hi : Inv dead t) (k : ObjectKey)
    (owner : LockOwner) {r : LockRange} (hv : r.start ≤ r.stop) :
    (planReleaseLocked (some (t.objectLocked k)) owner r).Edits (t.objectLocked k) k owner
      (releaseRest (t.objectLocked k) owner r) :=
  planRelease_edits (hi.object k).indexed (hi.object k).compatible owner hv
    (hi.object k).held_object

/-- A call to `unlock` ends in order. -/
theorem Good.unlock (hg : t.Good) (k : ObjectKey) (owner : LockOwner) (r : LockRange) :
    (t.unlock k owner r).1.Good := by
  have h := unlock_spec hg k owner r
  generalize t.unlock k owner r = result at h ⊢
  cases h with
  | failed err => exact hg
  | nothing hv hnone => exact hg
  | released hv hs hlive hsome hlim =>
    obtain ⟨h1, h2, h3, _⟩ := perform_spec hg.inv hg.idle (hg.inv.release_edits k owner hv) _ hs hlim
    exact hg.prune h1 h2 h3

/-- The table with one more sequence number given out; `locks.go:556–557`. -/
def bumped (t : LockTable) : LockTable := { t with nextSeq := t.nextSeq + 1 }

/-- The waiter of a new blocking request. -/
def newWaiter (t : LockTable) (lock : Lock) : Waiter := ⟨lock, t.nextSeq + 1⟩

/-- The table with the request standing last in the queue. -/
def publish (t : LockTable) (lock : Lock) : LockTable :=
  t.bumped.insertWaiterLocked (t.newWaiter lock)

theorem queued_publish (t : LockTable) (lock : Lock) : (t.publish lock).Queued (t.newWaiter lock) :=
  (queued_insertWaiter _ _ _).mpr (.inr rfl)

theorem Good.idle_publish (hg : t.Good) (lock : Lock) : (t.publish lock).Idle :=
  ⟨hg.idle.waking, hg.idle.pendingWake⟩

/-- Outcomes of `beginWait`. -/
inductive BeginResult (t : LockTable) (lock : Lock) : LockTable × Except LockError Waiter → Prop
  | failed (err : LockError) (hne : err ≠ .deadlock) : BeginResult t lock (t, .error err)
  | limited : BeginResult t lock (t.bumped, .error .admission)
  | refused (hv : lock.range.start ≤ lock.range.stop)
      (hadm : (t.objectLocked lock.object).Admits lock (some (t.nextSeq + 1))) :
      BeginResult t lock (t.bumped.publishSettled (t.newWaiter lock) (some .admission),
        .ok (t.newWaiter lock))
  | granted {s : LockSession} (hv : lock.range.start ≤ lock.range.stop)
      (hs : t.sessions.lookup lock.owner.session = some s) (hlive : t.now < s.expires)
      (hadm : (t.objectLocked lock.object).Admits lock (some (t.nextSeq + 1)))
      (hlim : t.exceedsLimits lock.owner.session
        (planAcquireLocked (some (t.objectLocked lock.object)) lock) = false) :
      BeginResult t lock (((t.bumped.perform lock.object lock.owner.session
        (planAcquireLocked (some (t.objectLocked lock.object)) lock)
        [⟨lock, some (t.nextSeq + 1), t.objectLocked lock.object⟩]).pruneObjectLocked
          lock.object).publishSettled (t.newWaiter lock) none, .ok (t.newWaiter lock))
  | queued {s : LockSession} (hv : lock.range.start ≤ lock.range.stop)
      (hs : t.sessions.lookup lock.owner.session = some s) (hlive : t.now < s.expires)
      (hadm : ¬ (t.objectLocked lock.object).Admits lock (some (t.nextSeq + 1)))
      (hmax : t.held + t.waiting + 1 ≤ t.maxRecords) (hper : s.records + 1 ≤ t.maxPerSession)
      (hdead : (t.bumped.insertWaiterLocked (t.newWaiter lock)).deadlockLocked
        (t.newWaiter lock) = false) :
      BeginResult t lock (t.bumped.insertWaiterLocked (t.newWaiter lock), .ok (t.newWaiter lock))
  | deadlock {s : LockSession} (hv : lock.range.start ≤ lock.range.stop)
      (hs : t.sessions.lookup lock.owner.session = some s) (hlive : t.now < s.expires)
      (hadm : ¬ (t.objectLocked lock.object).Admits lock (some (t.nextSeq + 1)))
      (hmax : t.held + t.waiting + 1 ≤ t.maxRecords) (hper : s.records + 1 ≤ t.maxPerSession)
      (hdead : (t.bumped.insertWaiterLocked (t.newWaiter lock)).deadlockLocked
        (t.newWaiter lock) = true) :
      BeginResult t lock (((retireWaiter (some .deadlock)
        (t.bumped.insertWaiterLocked (t.newWaiter lock)) (t.newWaiter lock)).wakeEligibleLocked
          lock.object lock.range).pruneObjectLocked lock.object, .error .deadlock)

/-- `beginWait` does one of these. -/
theorem beginWait_spec (hg : t.Good) (lock : Lock) : BeginResult t lock (t.beginWait lock) := by
  unfold beginWait
  split
  · exact .failed .invalidLock (by decide)
  next hvalid =>
  have hv : lock.range.start ≤ lock.range.stop := by simpa [validLock] using hvalid
  split
  · exact .failed .sessionExpired (by decide)
  next s hlive =>
  obtain ⟨hs, hlt⟩ := liveSessionLocked_eq_some hlive
  have hobj : (t.objects.lookup lock.object).getD .empty = t.objectLocked lock.object := rfl
  have helig := waiterEligibleLocked_iff (hg.inv.object lock.object).indexed (t.newWaiter lock)
  dsimp only
  rw [waiterEligibleLocked_getD _ hv, planAcquireLocked_getD, hobj]
  split
  · next he =>
    have hadm := helig.mp he
    have htidy : t.bumped.Tidy := hg.tidy
    have hprune := htidy.prune lock.object
    rw [applyPlanLocked_eq]
    cases hlim : t.exceedsLimits lock.owner.session
        (planAcquireLocked (some (t.objectLocked lock.object)) lock) with
    | true =>
      have hlim' : exceedsLimits { t with nextSeq := t.nextSeq + 1 } lock.owner.session
          (planAcquireLocked (some (t.objectLocked lock.object)) lock) = true := hlim
      simp only [hlim', if_true]
      have hr := BeginResult.refused hv hadm
      rw [← hprune] at hr
      exact hr
    | false =>
      have hlim' : exceedsLimits { t with nextSeq := t.nextSeq + 1 } lock.owner.session
          (planAcquireLocked (some (t.objectLocked lock.object)) lock) = false := hlim
      simp only [hlim', Bool.false_eq_true, if_false]
      exact .granted hv hs hlt hadm hlim
  · next he =>
    have hadm : ¬ (t.objectLocked lock.object).Admits lock (some (t.nextSeq + 1)) :=
      fun h => he (helig.mpr h)
    split
    · exact .limited
    next hroom =>
    have hmax : t.held + t.waiting + 1 ≤ t.maxRecords := by omega
    have hper : s.records + 1 ≤ t.maxPerSession := by omega
    split
    · next hdead =>
      have hd := BeginResult.deadlock hv hs hlt hadm hmax hper hdead
      exact ((t.queued_publish lock).cancel_eq wakeEligibleLocked .deadlock).symm ▸ hd
    · next hdead =>
      rw [Bool.not_eq_true] at hdead
      exact .queued hv hs hlt hadm hmax hper hdead

theorem Inv.bumped (hi : Inv none t) : Inv none t.bumped :=
  hi.same ⟨fun _ => rfl, fun _ _ => rfl, rfl, rfl, rfl, rfl, rfl, Nat.le_succ _, rfl, rfl⟩

theorem Inv.fresh_bumped (hi : Inv none t) : t.bumped.Fresh (t.nextSeq + 1) :=
  ⟨fun seq s hs => Nat.lt_succ_of_le (hi.pending seq s hs).1, le_rfl⟩

theorem Good.bumped (hg : t.Good) : t.bumped.Good :=
  ⟨hg.inv.bumped, ⟨hg.idle.waking, hg.idle.pendingWake⟩, hg.tidy⟩

/-- Handing out a decided waiter ends in order. -/
theorem Good.publishSettled (hg : t.Good) (hf : t.Fresh w.seq) (err : Option LockError) :
    (t.publishSettled w err).Good :=
  ⟨hg.inv.publishSettled hf.above hf.le err, ⟨hg.idle.waking, hg.idle.pendingWake⟩, hg.tidy⟩

/-- An object with a queued waiter is occupied. -/
theorem Tidy.insertWaiter (h : t.Tidy) (w : Waiter) : (t.insertWaiterLocked w).Tidy := by
  intro k o ho
  change (t.objects.insert w.lock.object _).lookup k = some o at ho
  rw [Assoc.lookup_insert_eq] at ho
  split at ho
  · cases ho
    rintro ⟨_, hz⟩
    exact Nat.succ_ne_zero _ hz
  · exact h k o ho

/-- The new waiter of a blocking request can be queued. -/
theorem Inv.enqueue_new (hi : Inv none t)
    (hv : lock.range.start ≤ lock.range.stop) (hs : t.sessions.lookup lock.owner.session = some s)
    (hmax : t.held + t.waiting + 1 ≤ t.maxRecords) (hper : s.records + 1 ≤ t.maxPerSession) :
    Inv none (t.publish lock) :=
  hi.bumped.enqueue (w := t.newWaiter lock) hv hi.fresh_bumped.above hs le_rfl hmax hper

/-- Withdrawing a waiter with its cascade ends in order. -/
theorem Good.withdraw (hg : t.Good) (hi : Inv none t') (hidle : t'.Idle)
    (hsame : SameElsewhere w.lock.object t t') (hq : t'.Queued w) (err : Option LockError) :
    (((retireWaiter err t' w).wakeEligibleLocked w.lock.object w.lock.range).pruneObjectLocked
      w.lock.object).Good := by
  have hidle' : (retireWaiter err t' w).Idle := by
    obtain ⟨_, _, heq⟩ := removeWaiterLocked_eq (hi.object w.lock.object) hq
    unfold retireWaiter
    rw [heq]
    exact ⟨hidle.waking, hidle.pendingWake⟩
  obtain ⟨h1, h2, h3, _⟩ := wakeEligible_spec w.lock.object w.lock.range (hi.retire hq err) hidle'
  exact hg.prune h1 h2 ((hsame.trans (sameElsewhere_retire err t' w)).trans h3)

/-- A call to `beginWait` ends in order. -/
theorem Good.beginWait (hg : t.Good) (lock : Lock) : (t.beginWait lock).1.Good := by
  have h := beginWait_spec hg lock
  generalize t.beginWait lock = result at h ⊢
  cases h with
  | failed err hne => exact hg
  | limited => exact hg.bumped
  | refused hv hadm => exact hg.bumped.publishSettled hg.inv.fresh_bumped _
  | granted hv hs hlive hadm hlim =>
    obtain ⟨h1, h2, h3, h4⟩ := perform_spec hg.inv.bumped hg.bumped.idle
      (hg.inv.acquire_edits hv hadm) [⟨lock, some (t.nextSeq + 1), t.objectLocked lock.object⟩]
      hs hlim
    have hf := h4 _ hg.inv.fresh_bumped
    refine (hg.bumped.prune h1 h2 h3).publishSettled ⟨?_, ?_⟩ none
    · rw [(sameCore_prune _ _).waiters]
      exact hf.above
    · exact Nat.le_trans hf.le (sameCore_prune _ _).nextSeq
  | queued hv hs hlive hadm hmax hper hdead =>
    exact ⟨hg.inv.enqueue_new hv hs hmax hper, hg.idle_publish lock, hg.bumped.tidy.insertWaiter _⟩
  | deadlock hv hs hlive hadm hmax hper hdead =>
    have hi := hg.inv.enqueue_new hv hs hmax hper
    refine hg.withdraw hi (hg.idle_publish lock) ?_ (t.queued_publish lock) _
    exact fun _ hk => (Assoc.lookup_insert_eq _ _ _ _).trans (if_neg hk)

/-- Outcomes of a cancelled `await`. -/
inductive AwaitResult (t : LockTable) (seq : Nat) (err : LockError) : LockTable → Prop
  | settled : AwaitResult t seq err t
  | withdrawn (w : Waiter) (hq : t.Queued w) (hseq : w.seq = seq) :
      AwaitResult t seq err (((retireWaiter (some err) t w).wakeEligibleLocked w.lock.object
        w.lock.range).pruneObjectLocked w.lock.object)

/-- A cancelled `await` finds the waiter settled, or withdraws it. -/
theorem await_spec (hg : t.Good) (seq : Nat) (err : LockError) :
    AwaitResult t seq err (t.await seq err) := by
  unfold await
  split
  · exact .settled
  next s hs =>
  split
  · exact .settled
  next hun =>
  rw [Bool.not_eq_true] at hun
  have hq := (hg.inv.pending seq s hs).2 hun
  have hw : AwaitResult t seq err _ := .withdrawn ⟨s.lock, seq⟩ hq rfl
  rw [hq.cancel_eq]
  exact hw

/-- A cancelled `await` ends in order. -/
theorem Good.await (hg : t.Good) (seq : Nat) (err : LockError) : (t.await seq err).Good := by
  have h := await_spec hg seq err
  generalize t.await seq err = result at h ⊢
  cases h with
  | settled => exact hg
  | withdrawn w hq hseq => exact hg.withdraw hg.inv hg.idle (fun _ _ => rfl) hq _

end LockTable
end PortableFS.Locks
