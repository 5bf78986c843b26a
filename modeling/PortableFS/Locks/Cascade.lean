import PortableFS.Locks.Sessions

/-!
# Wake cascade

Module `volumeserver`, `vcs/internal/volumeserver/locks.go:957–1021`. A candidate of the cascade
is passed over, expired, refused or granted; nothing else happens. Everything a whole cascade
preserves follows from that one step, and its fuel is shown to be enough: each request that
is added is paid for by a waiter that leaves the queue.
-/

namespace PortableFS.Locks

open PortableFS.Base List

namespace LockTable

/-- The waiter object exists. -/
def Issued (t : LockTable) (w : Waiter) : Prop :=
  ∃ s, t.waiters.lookup w.seq = some s ∧ s.lock = w.lock

/-- The plan of a candidate's grant. -/
def grantPlan (t : LockTable) (w : Waiter) : LockPlan :=
  planAcquireLocked (some (t.objectLocked w.lock.object)) w.lock

/-- The table after a candidate's grant, before the wake of a weakening. -/
def granted (t : LockTable) (w : Waiter) : LockTable :=
  (retireWaiter none t w).installPlan w.lock.object w.lock.owner.session (t.grantPlan w)
    [⟨w.lock, some w.seq, t.objectLocked w.lock.object⟩]

/-- What becomes of the table when the cascade considers `w`. -/
inductive Considered (w : Waiter) (t : LockTable) : LockTable → Prop
  /-- Not queued any more, or still blocked. -/
  | pass (h : t.Queued w → ¬ (t.objectLocked w.lock.object).Admits w.lock (some w.seq)) :
      Considered w t t
  /-- The lease has run out: the request is withdrawn. -/
  | expire (hq : t.Queued w) (hlive : t.leaseLive w.lock.owner.session = false) :
      Considered w t (((retireWaiter (some .sessionExpired) t w).enqueueWake w.lock.object
        w.lock.range).pruneObjectLocked w.lock.object)
  /-- The grant would exceed a bound: the request is refused. -/
  | refuse (hq : t.Queued w) (hlive : t.leaseLive w.lock.owner.session = true)
      (hadm : (t.objectLocked w.lock.object).Admits w.lock (some w.seq)) :
      Considered w t ((retireWaiter (some .admission) t w).enqueueWake w.lock.object w.lock.range)
  /-- The request is granted, and wakes others if it weakens its owner's coverage. -/
  | grant (hq : t.Queued w) (hlive : t.leaseLive w.lock.owner.session = true)
      (hadm : (t.objectLocked w.lock.object).Admits w.lock (some w.seq))
      (hlim : (retireWaiter none t w).exceedsLimits w.lock.owner.session (t.grantPlan w) = false) :
      Considered w t (if (t.grantPlan w).weakens then
        (t.granted w).enqueueWake w.lock.object (t.grantPlan w).touched else t.granted w)

variable {t : LockTable} {w : Waiter}

private theorem not_queued_of_settled (hi : Inv none t)
    (hs : t.isSettled w = true) : ¬ t.Queued w := by
  intro hq
  simp [isSettled, hi.queued w hq] at hs

private theorem queued_of_unsettled (hi : Inv none t)
    (hw : t.Issued w) (hs : ¬ t.isSettled w = true) : t.Queued w := by
  obtain ⟨s, hl, hlock⟩ := hw
  simp only [isSettled, hl, Bool.not_eq_true] at hs
  have hq := (hi.pending w.seq s hl).2 hs
  rw [hlock] at hq
  exact hq

private theorem settle_installPlan (t : LockTable) (k : ObjectKey) (id : SessionID)
    (plan : LockPlan) (history : List Grant) (w : Waiter) (err : Option LockError) :
    (t.installPlan k id plan history).settleWaiterLocked w err =
      (t.settleWaiterLocked w err).installPlan k id plan history := rfl

private theorem settle_enqueueWake (t : LockTable) (k : ObjectKey) (span : LockRange) (w : Waiter)
    (err : Option LockError) :
    (t.enqueueWake k span).settleWaiterLocked w err =
      (t.settleWaiterLocked w err).enqueueWake k span := rfl

/-- The loop body does one of the four. -/
theorem considerCandidate_spec (hi : Inv none t) (hw : t.Issued w) :
    Considered w t (considerCandidate w.lock.object t w) := by
  unfold considerCandidate
  split
  · next hs => exact .pass fun hq => absurd hq (not_queued_of_settled hi hs)
  next hs =>
  have hq := queued_of_unsettled hi hw hs
  rw [hq.lookup]
  dsimp only
  split
  · next hl =>
    rw [Bool.not_eq_true'] at hl
    rw [hq.cancel_eq]
    exact .expire hq hl
  next hl =>
  simp only [Bool.not_eq_true', Bool.not_eq_false] at hl
  split
  · next he =>
    refine .pass fun _ hadm => ?_
    rw [Bool.not_eq_true'] at he
    rw [← waiterEligibleLocked_iff (hi.object _).indexed, he] at hadm
    simp at hadm
  next he =>
  simp only [Bool.not_eq_true', Bool.not_eq_false] at he
  have hadm := (waiterEligibleLocked_iff (hi.object _).indexed w).mp he
  have hplan : planAcquireLocked (some (t.objectLocked w.lock.object)) w.lock = t.grantPlan w := rfl
  rw [hplan]
  unfold applyPlanLocked
  cases hlim : (t.removeWaiterLocked w).exceedsLimits w.lock.owner.session (t.grantPlan w) with
  | true =>
    have hr := Considered.refuse hq hl hadm
    unfold retireWaiter at hr
    simp only [if_true]
    exact hr
  | false =>
    -- settling the waiter touches nothing the plan reads or writes
    have hg := Considered.grant hq hl hadm hlim
    simp only [Bool.false_eq_true, if_false]
    cases hweak : (t.grantPlan w).weakens with
    | true =>
      simp only [hweak, if_true] at hg ⊢
      rw [settle_enqueueWake, settle_installPlan]
      unfold granted retireWaiter at hg
      exact hg
    | false =>
      simp only [hweak, Bool.false_eq_true, if_false] at hg ⊢
      rw [settle_installPlan]
      unfold granted retireWaiter at hg
      exact hg

variable {id : SessionID}

theorem leaseLive_eq_true (h : t.leaseLive id = true) :
    ∃ s, t.sessions.lookup id = some s ∧ t.now < s.expires := by
  unfold leaseLive at h
  split at h
  · simp at h
  · next s hs => exact ⟨s, hs, by simpa using h⟩

variable {dead : Option SessionID}

/-- A queued waiter asks for a nonempty range. -/
theorem Inv.queued_valid (hi : Inv dead t)
    (hq : t.Queued w) : w.lock.range.start ≤ w.lock.range.stop :=
  (hi.object w.lock.object).indexed.waiting_valid hq

/-- The plan of an admitted request edits the object's records. -/
theorem Inv.acquire_edits (hi : Inv dead t) {lock : Lock}
    {before : Option Nat} (hv : lock.range.start ≤ lock.range.stop)
    (hadm : (t.objectLocked lock.object).Admits lock before) :
    (planAcquireLocked (some (t.objectLocked lock.object)) lock).Edits
      (t.objectLocked lock.object) lock.object lock.owner
      (acquireRest (t.objectLocked lock.object) lock) :=
  planAcquire_edits (hi.object _).indexed hv (hi.object _).compatible
    (hi.object _).held_object hadm.1

private theorem session_after_retire (hi : Inv dead t) (hq : t.Queued w) (err : Option LockError)
 {s : LockSession} (hs : t.sessions.lookup id = some s) :
    ∃ s', (retireWaiter err t w).sessions.lookup id = some s' := by
  obtain ⟨_, _, heq⟩ := removeWaiterLocked_eq (hi.object w.lock.object) hq
  apply Option.ne_none_iff_exists'.mp
  change (t.removeWaiterLocked w).sessions.lookup id ≠ none
  rw [heq]
  dsimp only
  rw [Ne, Assoc.lookup_modify_eq_none, hs]
  simp

/-- Granting a queued waiter keeps the invariant. -/
theorem Inv.granted (hi : Inv none t) (hq : t.Queued w)
    (hlive : t.leaseLive w.lock.owner.session = true)
    (hadm : (t.objectLocked w.lock.object).Admits w.lock (some w.seq))
    (hlim : (retireWaiter none t w).exceedsLimits w.lock.owner.session (t.grantPlan w) = false) :
    Inv none (t.granted w) := by
  obtain ⟨s, hs, _⟩ := leaseLive_eq_true hlive
  obtain ⟨s', hs'⟩ := session_after_retire hi hq none hs
  have hedit := hi.acquire_edits (hi.queued_valid hq) hadm
  exact (hi.retire hq none).install (hedit.of_held (held_retire hi hq none _)) _ hs' hlim

variable {t' : LockTable}

/-- Considering a candidate keeps the invariant. -/
theorem Inv.considered (hi : Inv none t) (h : Considered w t t') : Inv none t' := by
  cases h with
  | pass h => exact hi
  | expire hq hlive =>
    exact ((hi.retire hq _).same (sameCore_enqueueWake _ _ _)).same (sameCore_prune _ _)
  | refuse hq hlive hadm => exact (hi.retire hq _).same (sameCore_enqueueWake _ _ _)
  | grant hq hlive hadm hlim =>
    have hg := hi.granted hq hlive hadm hlim
    split
    · exact hg.same (sameCore_enqueueWake _ _ _)
    · exact hg

section

variable (t : LockTable)

theorem waiters_granted (w : Waiter) :
    (t.granted w).waiters = (retireWaiter none t w).waiters := rfl

theorem waiting_granted (w : Waiter) :
    (t.granted w).waiting = (retireWaiter none t w).waiting := rfl

theorem pendingWake_granted (w : Waiter) :
    (t.granted w).pendingWake = (retireWaiter none t w).pendingWake := rfl

theorem pendingWake_enqueueWake (k : ObjectKey) (span : LockRange) :
    (t.enqueueWake k span).pendingWake = t.pendingWake ++ [⟨k, span⟩] := rfl

theorem pendingWake_prune (k : ObjectKey) :
    (t.pruneObjectLocked k).pendingWake = t.pendingWake := by
  unfold pruneObjectLocked
  split
  · rfl
  · split <;> rfl

theorem pendingWake_retire (w : Waiter) (err : Option LockError) :
    (retireWaiter err t w).pendingWake = t.pendingWake := by
  change (t.removeWaiterLocked w).pendingWake = t.pendingWake
  unfold removeWaiterLocked
  split
  · rfl
  · split <;> rfl

end

section Considered

variable {t t' : LockTable} {w : Waiter} (hi : Inv none t) (h : Considered w t t')
include hi h

/-- Waiter objects never disappear. -/
theorem Considered.issued {w' : Waiter} (hw : t.Issued w') : t'.Issued w' := by
  have hret : ∀ err, t.Queued w → (retireWaiter err t w).Issued w' := by
    intro err hq
    obtain ⟨s, hs, hl⟩ := hw
    unfold Issued
    rw [waiters_retire hi hq]
    split
    · next heq =>
      refine ⟨_, rfl, ?_⟩
      rw [heq, hi.queued w hq] at hs
      cases hs
      exact hl
    · exact ⟨s, hs, hl⟩
  cases h with
  | pass h => exact hw
  | expire hq hlive =>
    unfold Issued
    rw [(sameCore_prune _ _).waiters]
    exact hret _ hq
  | refuse hq hlive hadm => exact hret _ hq
  | grant hq hlive hadm hlim =>
    have hg : (t.granted w).Issued w' := by
      unfold Issued
      rw [waiters_granted]
      exact hret none hq
    split
    · exact hg
    · exact hg

omit hi in
/-- Requests are only added, and only for the candidate's object. -/
theorem Considered.pending : ∃ extra, t'.pendingWake = t.pendingWake ++ extra ∧
    ∀ r ∈ extra, r.object = w.lock.object := by
  cases h with
  | pass h => exact ⟨[], by simp, by simp⟩
  | expire hq hlive =>
    refine ⟨[⟨w.lock.object, w.lock.range⟩], ?_, by simp⟩
    rw [pendingWake_prune, pendingWake_enqueueWake, pendingWake_retire]
  | refuse hq hlive hadm =>
    refine ⟨[⟨w.lock.object, w.lock.range⟩], ?_, by simp⟩
    rw [pendingWake_enqueueWake, pendingWake_retire]
  | grant hq hlive hadm hlim =>
    split
    · refine ⟨[⟨w.lock.object, (t.grantPlan w).touched⟩], ?_, by simp⟩
      rw [pendingWake_enqueueWake, pendingWake_granted, pendingWake_retire]
    · refine ⟨[], ?_, by simp⟩
      rw [append_nil, pendingWake_granted, pendingWake_retire]

/-- Every request that is added is paid for by a waiter that left. -/
theorem Considered.budget :
    t'.pendingWake.length + t'.waiting ≤ t.pendingWake.length + t.waiting := by
  have hpend : ∀ err, (retireWaiter err t w).pendingWake.length = t.pendingWake.length :=
    fun err => by rw [pendingWake_retire]
  cases h with
  | pass h => exact le_rfl
  | expire hq hlive =>
    have hw := waiting_retire hi hq (some .sessionExpired)
    rw [pendingWake_prune, (sameCore_prune _ _).waiting, (sameCore_enqueueWake _ _ _).waiting,
      pendingWake_enqueueWake, length_append, length_singleton, hpend]
    omega
  | refuse hq hlive hadm =>
    have hw := waiting_retire hi hq (some .admission)
    rw [(sameCore_enqueueWake _ _ _).waiting, pendingWake_enqueueWake, length_append,
      length_singleton, hpend]
    omega
  | grant hq hlive hadm hlim =>
    have hw := waiting_retire hi hq none
    split
    · rw [(sameCore_enqueueWake _ _ _).waiting, pendingWake_enqueueWake, length_append,
        length_singleton, waiting_granted, pendingWake_granted, hpend]
      omega
    · rw [waiting_granted, pendingWake_granted, hpend]
      omega

end Considered

/-- The candidates of one request, in queue order; `locks.go:981–992`. -/
def candidates (t : LockTable) (k : ObjectKey) (span : LockRange) : List Waiter :=
  (((t.objectLocked k).waiting.collect span.start span.stop fun _ => true).map
    Entry.value).insertionSort fun a b => a.seq ≤ b.seq

theorem grantEligibleLocked_eq (t : LockTable) (k : ObjectKey) (span : LockRange) :
    t.grantEligibleLocked k span = (t.candidates k span).foldl (considerCandidate k) t := by
  have hempty : ∀ o : ObjectLocks, t.objectLocked k = o → o.waiting.size = 0 →
      t = (t.candidates k span).foldl (considerCandidate k) t := by
    intro o ho hz
    have hc : t.candidates k span = [] := by
      unfold candidates
      rw [ho, IntervalTree.collect_eq, (IntervalTree.size_eq_zero_iff _).mp hz]
      rfl
    rw [hc]
    rfl
  unfold grantEligibleLocked
  cases ho : t.objects.lookup k with
  | none =>
    apply hempty .empty
    · simp [objectLocked, ho]
    · rfl
  | some o =>
    dsimp only
    split
    · next hz => exact hempty o (objectLocked_of_lookup ho) hz
    · unfold candidates
      rw [objectLocked_of_lookup ho]

/-- The candidates are the queued waiters of the object that overlap the span. -/
theorem mem_candidates (hi : Inv none t) (k : ObjectKey) (span : LockRange)
    (w : Waiter) : w ∈ t.candidates k span ↔
      t.Queued w ∧ w.lock.object = k ∧ overlaps w.lock.range span = true := by
  unfold candidates
  rw [(perm_insertionSort _ _).mem_iff, overlaps_iff]
  constructor
  · intro hm
    obtain ⟨e, he, rfl⟩ := mem_map.mp hm
    obtain ⟨he, h1, h2, _⟩ := (IntervalTree.mem_collect _ _ _ _ _).mp he
    obtain ⟨h3, h4, _⟩ := (hi.object k).indexed.waiting e he
    have hmem : e.value ∈ (t.objectLocked k).waiting.values := mem_map.mpr ⟨e, he, rfl⟩
    have hobj := (hi.object k).waiting_object _ hmem
    refine ⟨?_, hobj, by omega⟩
    unfold Queued
    rw [hobj]
    exact hmem
  · rintro ⟨hq, rfl, h1, h2⟩
    obtain ⟨e, he, hw⟩ := mem_map.mp hq
    obtain ⟨h3, h4, _⟩ := (hi.object _).indexed.waiting e he
    rw [hw] at h3 h4
    refine mem_map.mpr ⟨e, ?_, hw⟩
    rw [IntervalTree.mem_collect]
    exact ⟨he, by omega, by omega, rfl⟩

section Induction

variable {k : ObjectKey} {P : List Waiter → Nat → LockTable → Prop}
variable (hreq : ∀ i t r, Inv none t → t.pendingWake[i]? = some r → P [] i t →
  P (t.candidates k r.span) (i + 1) t)
variable (hstep : ∀ w ws i t t', Inv none t → w.lock.object = k → Considered w t t' →
  P (w :: ws) i t → P ws i t')

include hstep in
private theorem consider_induct (cands : List Waiter) (i : Nat) (t : LockTable) (hi : Inv none t)
    (hc : ∀ w ∈ cands, w.lock.object = k ∧ t.Issued w) (hr : ∀ r ∈ t.pendingWake, r.object = k)
    (hp : P cands i t) :
    Inv none (cands.foldl (considerCandidate k) t) ∧
      (∀ r ∈ (cands.foldl (considerCandidate k) t).pendingWake, r.object = k) ∧
      (cands.foldl (considerCandidate k) t).pendingWake.length +
        (cands.foldl (considerCandidate k) t).waiting ≤ t.pendingWake.length + t.waiting ∧
      P [] i (cands.foldl (considerCandidate k) t) := by
  induction cands generalizing t with
  | nil => exact ⟨hi, hr, le_rfl, hp⟩
  | cons w ws ih =>
    obtain ⟨hwk, hwi⟩ := hc w mem_cons_self
    have hcon := considerCandidate_spec hi hwi
    rw [hwk] at hcon
    obtain ⟨extra, hext, hobj⟩ := hcon.pending
    have hws : ∀ w' ∈ ws, w'.lock.object = k ∧ (considerCandidate k t w).Issued w' := by
      intro w' hw'
      obtain ⟨hk, hiss⟩ := hc w' (mem_cons_of_mem w hw')
      exact ⟨hk, hcon.issued hi hiss⟩
    have hrs : ∀ r ∈ (considerCandidate k t w).pendingWake, r.object = k := by
      intro r hrm
      rw [hext] at hrm
      rcases mem_append.mp hrm with hrm | hrm
      · exact hr r hrm
      · exact (hobj r hrm).trans hwk
    obtain ⟨h1, h2, h3, h4⟩ := ih (considerCandidate k t w) (hi.considered hcon) hws hrs
      (hstep w ws i t _ hi hwk hcon hp)
    exact ⟨h1, h2, h3.trans (hcon.budget hi), h4⟩

include hreq hstep in
private theorem drain_induct (fuel i : Nat) (t : LockTable) (hi : Inv none t)
    (hr : ∀ r ∈ t.pendingWake, r.object = k)
    (hfuel : t.pendingWake.length + t.waiting ≤ i + fuel) (hp : P [] i t) :
    Inv none (drain fuel i t) ∧
      ∃ j, (drain fuel i t).pendingWake.length ≤ j ∧ P [] j (drain fuel i t) := by
  induction fuel generalizing i t with
  | zero => exact ⟨hi, i, by unfold drain; omega, hp⟩
  | succ fuel ih =>
    unfold drain
    split
    · next hnone =>
      rw [List.getElem?_eq_none_iff] at hnone
      exact ⟨hi, i, hnone, hp⟩
    next r hsome =>
    have hrk := hr r (List.mem_of_getElem? hsome)
    have hcands : ∀ w ∈ t.candidates k r.span, w.lock.object = k ∧ t.Issued w := by
      intro w hw
      obtain ⟨hq, hk, _⟩ := (mem_candidates hi k r.span w).mp hw
      exact ⟨hk, _, hi.queued w hq, rfl⟩
    rw [grantEligibleLocked_eq, hrk]
    obtain ⟨h1, h2, h3, h4⟩ := consider_induct hstep (t.candidates k r.span) (i + 1) t hi
      hcands hr (hreq i t r hi hsome hp)
    exact ih (i + 1) _ h1 h2 (by omega) h4

include hreq hstep in
/-- Induction over a cascade: what requests and steps preserve holds once no request is
left. -/
theorem wakeEligible_induct {span : LockRange} (hi : Inv none t) (hwaking : t.waking = false)
    (hpend : t.pendingWake = []) (hp : P [] 0 { t.enqueueWake k span with waking := true }) :
    ∃ t₁ j, Inv none t₁ ∧ t₁.pendingWake.length ≤ j ∧ P [] j t₁ ∧
      t.wakeEligibleLocked k span = { t₁ with pendingWake := [], waking := false } := by
  have hflags : SameCore t { t.enqueueWake k span with waking := true } :=
    ⟨fun _ => rfl, fun _ _ => rfl, rfl, rfl, rfl, rfl, rfl, le_rfl, rfl, rfl⟩
  have hone : (t.enqueueWake k span).pendingWake = [⟨k, span⟩] := by simp [enqueueWake, hpend]
  obtain ⟨h1, j, hj, h2⟩ := drain_induct hreq hstep
    ((t.enqueueWake k span).pendingWake.length + (t.enqueueWake k span).waiting) 0 _
    (hi.same hflags) (by simp [hone]) (by simp) hp
  refine ⟨_, j, h1, hj, h2, ?_⟩
  unfold wakeEligibleLocked
  have hw : (t.enqueueWake k span).waking = false := hwaking
  dsimp only
  rw [hw]
  rfl

end Induction

/-- No cascade is running. -/
structure Idle (t : LockTable) : Prop where
  waking : t.waking = false
  pendingWake : t.pendingWake = []

variable {k : ObjectKey}

/-- What the steps of a cascade preserve, and what does not depend on its flags, the whole
cascade preserves. -/
theorem wakeEligible_preserves {P : LockTable → Prop}
    (hstep : ∀ w t t', Inv none t → w.lock.object = k → Considered w t t' → P t → P t')
    (hflags : ∀ t pendingWake waking, P t → P { t with pendingWake, waking })
    (span : LockRange) (hi : Inv none t) (hidle : t.Idle) (hp : P t) :
    Inv none (t.wakeEligibleLocked k span) ∧ (t.wakeEligibleLocked k span).Idle ∧
      P (t.wakeEligibleLocked k span) := by
  obtain ⟨t₁, _, hi₁, _, hp₁, heq⟩ :=
    wakeEligible_induct (k := k) (P := fun _ _ t => P t)
      (fun _ _ _ _ _ h => h) (fun w _ _ t t' hi hk hc hp => hstep w t t' hi hk hc hp) hi
      hidle.waking hidle.pendingWake (hflags t _ _ hp)
  rw [heq]
  refine ⟨hi₁.same ?_, ⟨rfl, rfl⟩, hflags t₁ _ _ hp₁⟩
  exact ⟨fun _ => rfl, fun _ _ => rfl, rfl, rfl, rfl, rfl, rfl, le_rfl, rfl, rfl⟩

/-- The tables have the same entries at every other object. -/
def SameElsewhere (k : ObjectKey) (t t' : LockTable) : Prop :=
  ∀ k', k' ≠ k → t'.objects.lookup k' = t.objects.lookup k'

theorem sameElsewhere_prune (t : LockTable) (k : ObjectKey) :
    SameElsewhere k t (t.pruneObjectLocked k) := by
  intro k' hk
  unfold pruneObjectLocked
  split
  · rfl
  · split
    · exact (Assoc.lookup_erase_eq _ _ _).trans (if_neg hk)
    · rfl

theorem sameElsewhere_retire (err : Option LockError) (t : LockTable) (w : Waiter) :
    SameElsewhere w.lock.object t (retireWaiter err t w) := by
  intro k' hk
  change (t.removeWaiterLocked w).objects.lookup k' = t.objects.lookup k'
  unfold removeWaiterLocked
  split
  · rfl
  · split
    · rfl
    · exact (Assoc.lookup_insert_eq _ _ _ _).trans (if_neg hk)

theorem sameElsewhere_install (t : LockTable) (k : ObjectKey) (id : SessionID) (plan : LockPlan)
    (history : List Grant) : SameElsewhere k t (t.installPlan k id plan history) :=
  fun _ hk => (Assoc.lookup_insert_eq _ _ _ _).trans (if_neg hk)

theorem SameElsewhere.trans {t'' : LockTable} (h : SameElsewhere k t t')
    (h' : SameElsewhere k t' t'') : SameElsewhere k t t'' :=
  fun k' hk => (h' k' hk).trans (h k' hk)

/-- A candidate of one object leaves every other object alone. -/
theorem Considered.sameElsewhere (h : Considered w t t') : SameElsewhere w.lock.object t t' := by
  cases h with
  | pass h => exact fun _ _ => rfl
  | expire hq hlive =>
    have hw : SameElsewhere w.lock.object t
        ((retireWaiter (some .sessionExpired) t w).enqueueWake w.lock.object w.lock.range) :=
      sameElsewhere_retire (some .sessionExpired) t w
    exact hw.trans (sameElsewhere_prune _ _)
  | refuse hq hlive hadm => exact sameElsewhere_retire (some .admission) t w
  | grant hq hlive hadm hlim =>
    have hg : SameElsewhere w.lock.object t (t.granted w) :=
      (sameElsewhere_retire none t w).trans (sameElsewhere_install _ _ _ _ _)
    split
    · exact hg
    · exact hg

/-- The sequence number has been given out and names no waiter object yet. -/
structure Fresh (t : LockTable) (n : Nat) : Prop where
  above : ∀ seq s, t.waiters.lookup seq = some s → seq < n
  le : n ≤ t.nextSeq

/-- A cascade allocates no waiter. -/
theorem Considered.fresh (hi : Inv none t) (h : Considered w t t')
    {n : Nat} (hf : t.Fresh n) : t'.Fresh n := by
  have hret : ∀ err, t.Queued w → (retireWaiter err t w).Fresh n := by
    intro err hq
    constructor
    · intro seq s hs
      rw [waiters_retire hi hq] at hs
      split at hs
      · next h => exact h ▸ hf.above _ _ (hi.queued w hq)
      · exact hf.above seq s hs
    · rw [nextSeq_retire hi hq]
      exact hf.le
  cases h with
  | pass h => exact hf
  | expire hq hlive =>
    have hr := hret (some .sessionExpired) hq
    constructor
    · rw [(sameCore_prune _ _).waiters]
      exact hr.above
    · exact Nat.le_trans (Nat.le_trans hr.le (sameCore_enqueueWake _ _ _).nextSeq)
        (sameCore_prune _ _).nextSeq
  | refuse hq hlive hadm =>
    have hr := hret (some .admission) hq
    exact ⟨hr.above, hr.le⟩
  | grant hq hlive hadm hlim =>
    have hr := hret none hq
    split <;> exact ⟨hr.above, hr.le⟩

/-- A cascade over an idle table keeps the invariant, ends idle, leaves the entries of all
other objects and allocates no waiter. -/
theorem wakeEligible_spec (k : ObjectKey) (span : LockRange) (hi : Inv none t) (hidle : t.Idle) :
    Inv none (t.wakeEligibleLocked k span) ∧ (t.wakeEligibleLocked k span).Idle ∧
      SameElsewhere k t (t.wakeEligibleLocked k span) ∧
      ∀ n, t.Fresh n → (t.wakeEligibleLocked k span).Fresh n := by
  apply wakeEligible_preserves
    (P := fun t' => SameElsewhere k t t' ∧ ∀ n, t.Fresh n → t'.Fresh n) _ _ span hi hidle
    ⟨fun _ _ => rfl, fun _ h => h⟩
  · rintro w t₁ t₂ hi₁ hk hc ⟨h1, h2⟩
    exact ⟨h1.trans (hk ▸ hc.sameElsewhere), fun n hf => hc.fresh hi₁ (h2 n hf)⟩
  · rintro t₁ _ _ ⟨h1, h2⟩
    exact ⟨h1, fun n hf => ⟨(h2 n hf).above, (h2 n hf).le⟩⟩

end LockTable
end PortableFS.Locks
