import PortableFS.Locks.Safety

/-!
# Queue order is respected

Module `volumeserver`, `vcs/internal/volumeserver/locks.go:486–580,682–754,979–1021`. Every coverage an
owner gains in a call comes from a grant recorded in that call, and no recorded grant covers a
new byte for which another owner stood ahead in the queue.
-/

namespace PortableFS.Locks

open PortableFS.Base List

/-- No byte the grant newly covers is contended by a waiter ahead of it: an earlier one, or
any waiter when the request was not queued at all. -/
def Grant.Fair (g : Grant) : Prop :=
  ∀ x ∈ g.lock.range, ¬ g.before.Covers g.lock.owner g.lock.type x → ∀ w ∈ g.before.waiting.values,
    (∀ n, g.seq = some n → w.seq < n) → ¬ Contends g.lock w.lock x

/-- The granted request was taken from the queue. -/
def Grant.FromQueue (g : Grant) : Prop :=
  ∃ n, g.seq = some n ∧ (⟨g.lock, n⟩ : Waiter) ∈ g.before.waiting.values

/-- The grant gave the owner the byte at a type it did not have there before. -/
structure Grant.Gains (g : Grant) (k : ObjectKey) (owner : LockOwner) (ty : LockType) (x : Nat) :
    Prop where
  object_eq : g.lock.object = k
  owner_eq : g.lock.owner = owner
  mem : x ∈ g.lock.range
  type_le : ty ≤ g.lock.type
  new : ¬ g.before.Covers owner ty x

namespace LockTable

/-- From `t` to `t'` only fair grants of the given kind were recorded, and every gain of
coverage is one of theirs. -/
def Accounted (kind : Grant → Prop) (t t' : LockTable) : Prop :=
  ∃ granted, t'.grants = granted ++ t.grants ∧ (∀ g ∈ granted, g.Fair ∧ kind g) ∧
    ∀ k owner ty x, (t'.objectLocked k).Covers owner ty x → ¬ (t.objectLocked k).Covers owner ty x →
      ∃ g ∈ granted, g.Gains k owner ty x

variable {kind : Grant → Prop} {t t' t'' : LockTable}

theorem Accounted.trans (h : Accounted kind t t') (h' : Accounted kind t' t'') :
    Accounted kind t t'' := by
  obtain ⟨gs, hg, hf, hc⟩ := h
  obtain ⟨gs', hg', hf', hc'⟩ := h'
  refine ⟨gs' ++ gs, by rw [hg', hg, append_assoc], ?_, ?_⟩
  · intro g hm
    rcases mem_append.mp hm with hm | hm
    · exact hf' g hm
    · exact hf g hm
  intro k owner ty x hend hstart
  by_cases hmid : (t'.objectLocked k).Covers owner ty x
  · obtain ⟨g, hm, hgain⟩ := hc k owner ty x hmid hstart
    exact ⟨g, mem_append_right _ hm, hgain⟩
  · obtain ⟨g, hm, hgain⟩ := hc' k owner ty x hend hmid
    exact ⟨g, mem_append_left _ hm, hgain⟩

theorem Accounted.imp {kind' : Grant → Prop} (h : Accounted kind t t')
    (hk : ∀ g, kind g → kind' g) : Accounted kind' t t' := by
  obtain ⟨gs, hg, hf, hc⟩ := h
  exact ⟨gs, hg, fun g hm => ⟨(hf g hm).1, hk g (hf g hm).2⟩, hc⟩

/-- Where no coverage appears, nothing has to be accounted for. -/
theorem accounted_of_covers (hg : t'.grants = t.grants)
    (hs : ∀ k owner ty x, (t'.objectLocked k).Covers owner ty x →
      (t.objectLocked k).Covers owner ty x) : Accounted kind t t' :=
  ⟨[], by rw [hg, nil_append], by simp,
    fun k owner ty x hend hstart => absurd (hs k owner ty x hend) hstart⟩

theorem accounted_of_held (hg : t'.grants = t.grants)
    (hs : ∀ k, (t'.objectLocked k).held = (t.objectLocked k).held) : Accounted kind t t' := by
  apply accounted_of_covers hg
  rintro k owner ty x ⟨l, hl, hrest⟩
  exact ⟨l, hs k ▸ hl, hrest⟩

theorem grants_prune (t : LockTable) (k : ObjectKey) :
    (t.pruneObjectLocked k).grants = t.grants := by
  unfold pruneObjectLocked
  split
  · rfl
  · split <;> rfl

theorem grants_retire (err : Option LockError) (t : LockTable) (w : Waiter) :
    (retireWaiter err t w).grants = t.grants := by
  change (t.removeWaiterLocked w).grants = t.grants
  unfold removeWaiterLocked
  split
  · rfl
  · split <;> rfl

theorem accounted_prune (t : LockTable) (k : ObjectKey) :
    Accounted kind t (t.pruneObjectLocked k) :=
  accounted_of_held (grants_prune t k) fun k' => by rw [objectLocked_prune]

variable {dead : Option SessionID} {w : Waiter}

theorem accounted_retire (hi : Inv dead t) (hq : t.Queued w) (err : Option LockError) :
    Accounted kind t (retireWaiter err t w) :=
  accounted_of_held (grants_retire err t w) (held_retire hi hq err)

theorem accounted_publishSettled (t : LockTable) (w : Waiter) (err : Option LockError) :
    Accounted kind t (t.publishSettled w err) :=
  accounted_of_held rfl fun _ => rfl

theorem accounted_enqueueWake (t : LockTable) (k : ObjectKey) (span : LockRange) :
    Accounted kind t (t.enqueueWake k span) :=
  accounted_of_held rfl fun _ => rfl

variable {o : ObjectLocks} {owner : LockOwner}

/-- Coverage of an object by its records, type by type. -/
theorem covers_iff_heldAt {ty : LockType} {x : Nat} :
    o.Covers owner ty x ↔ ∃ ty', ty ≤ ty' ∧ HeldAt o.held.values owner ty' x := by
  constructor
  · rintro ⟨l, hl, ho, ht, hx⟩
    exact ⟨l.type, ht, l, hl, ho, rfl, hx⟩
  · rintro ⟨ty', ht, l, hl, ho, rfl, hx⟩
    exact ⟨l, hl, ho, ht, hx⟩

variable {lock : Lock}

/-- Installing an acquisition covers what it asked for and leaves all other bytes. -/
theorem heldAt_install_acquire (hi : Inv dead t)
    {before : Option Nat} (hv : lock.range.start ≤ lock.range.stop)
    (ho : ObjectOk lock.object t.nextID o) (hheld : (t.objectLocked lock.object).held = o.held)
    (hadm : o.Admits lock before) (id : SessionID) (history : List Grant) (k : ObjectKey)
    (owner : LockOwner) (ty : LockType) (x : Nat) :
    HeldAt ((t.installPlan lock.object id (planAcquireLocked (some o) lock)
        history).objectLocked k).held.values owner ty x ↔
      if k = lock.object ∧ owner = lock.owner ∧ x ∈ lock.range then ty = lock.type
      else HeldAt (t.objectLocked k).held.values owner ty x := by
  have hedit := planAcquire_edits ho.indexed hv ho.compatible ho.held_object hadm.1
  rw [objectLocked_install]
  by_cases hk : k = lock.object
  · subst hk
    have hperm := values_install hi (hedit.of_held hheld)
    simp only [if_true, true_and]
    rw [HeldAt.perm hperm, planAcquire_heldAt ho.indexed hv ho.compatible]
    unfold IntervalTree.values
    rw [hheld]
  · rw [if_neg hk, if_neg fun h => hk h.1]

/-- Installing an admitted acquisition is accounted for by its own record. -/
theorem accounted_install (hi : Inv dead t) {seq : Option Nat}
    (hv : lock.range.start ≤ lock.range.stop) (ho : ObjectOk lock.object t.nextID o)
    (hheld : (t.objectLocked lock.object).held = o.held) (hadm : o.Admits lock seq)
    (hkind : kind ⟨lock, seq, o⟩) (id : SessionID) :
    Accounted kind t (t.installPlan lock.object id (planAcquireLocked (some o) lock)
      [⟨lock, seq, o⟩]) := by
  refine ⟨[⟨lock, seq, o⟩], rfl, ?_, ?_⟩
  · intro g hg
    rw [mem_singleton] at hg
    subst hg
    refine ⟨?_, hkind⟩
    intro x hx hn w hw hahead
    exact hadm.2 x hx hn w hw hahead
  intro k owner ty x hend hstart
  obtain ⟨ty', hle, hat⟩ := covers_iff_heldAt.mp hend
  rw [heldAt_install_acquire hi hv ho hheld hadm] at hat
  split at hat
  · next hnew =>
    obtain ⟨rfl, rfl, hx⟩ := hnew
    refine ⟨_, mem_singleton_self _, rfl, rfl, hx, hat ▸ hle, ?_⟩
    intro hcov
    apply hstart
    obtain ⟨l, hl, hrest⟩ := hcov
    refine ⟨l, ?_, hrest⟩
    unfold IntervalTree.values
    rw [hheld]
    exact hl
  · exact absurd (covers_iff_heldAt.mpr ⟨ty', hle, hat⟩) hstart

/-- A candidate is only ever granted from the queue, and fairly. -/
theorem Considered.accounted (hi : Inv none t) (h : Considered w t t') :
    Accounted Grant.FromQueue t t' := by
  cases h with
  | pass h => exact accounted_of_held rfl fun _ => rfl
  | expire hq hlive =>
    have hr : Accounted Grant.FromQueue t (retireWaiter (some .sessionExpired) t w) :=
      accounted_retire hi hq (some .sessionExpired)
    exact (hr.trans (accounted_enqueueWake _ _ _)).trans (accounted_prune _ _)
  | refuse hq hlive hadm =>
    have hr : Accounted Grant.FromQueue t (retireWaiter (some .admission) t w) :=
      accounted_retire hi hq (some .admission)
    exact hr.trans (accounted_enqueueWake _ _ _)
  | grant hq hlive hadm hlim =>
    have hr : Accounted Grant.FromQueue t (retireWaiter none t w) :=
      accounted_retire hi hq none
    have hnext : (retireWaiter none t w).nextID = t.nextID := nextID_retire hi hq none
    have hg : Accounted Grant.FromQueue t (t.granted w) :=
      hr.trans (accounted_install (hi.retire hq none) (hi.queued_valid hq)
        (hnext.symm ▸ hi.object w.lock.object) (held_retire hi hq none _) hadm ⟨w.seq, rfl, hq⟩ _)
    split
    · exact hg.trans (accounted_enqueueWake _ _ _)
    · exact hg

/-- Everything a cascade grants, it takes from the queue fairly. -/
theorem accounted_wake (hi : Inv none t) (hidle : t.Idle) (k : ObjectKey) (span : LockRange) :
    Accounted Grant.FromQueue t (t.wakeEligibleLocked k span) := by
  refine (wakeEligible_preserves (P := Accounted Grant.FromQueue t) ?_ ?_ span hi hidle
    (accounted_of_held rfl fun _ => rfl)).2.2
  · intro w t₁ t₂ hi₁ _ hc hp
    exact hp.trans (hc.accounted hi₁)
  · intro t₁ _ _ hp
    exact hp.trans (accounted_of_held rfl fun _ => rfl)

/-- Where a grant of one call comes from: the call's own request, at its place in the queue, or
the queue. -/
def Grant.Origin (t : LockTable) (op : Op) (g : Grant) : Prop :=
  (op = .set g.lock ∧ g.seq = none) ∨ (op = .beginWait g.lock ∧ g.seq = some (t.nextSeq + 1)) ∨
    g.FromQueue

variable {op : Op} {g : Grant}

private theorem origin_of_set (h : op = .set g.lock) (hs : g.seq = none) : Grant.Origin t op g :=
  .inl ⟨h, hs⟩

private theorem origin_of_beginWait (h : op = .beginWait g.lock)
    (hs : g.seq = some (t.nextSeq + 1)) : Grant.Origin t op g :=
  .inr (.inl ⟨h, hs⟩)

private theorem origin_of_queue (g : Grant) (h : g.FromQueue) : Grant.Origin t op g :=
  .inr (.inr h)

private theorem accounted_cascade (hi : Inv none t') (hidle : t'.Idle) (k : ObjectKey)
    (span : LockRange) : Accounted (Grant.Origin t op) t' (t'.wakeEligibleLocked k span) :=
  (accounted_wake hi hidle k span).imp origin_of_queue

private theorem accounted_perform {k : ObjectKey} {plan : LockPlan} {history : List Grant}
    (hinst : Inv none (t'.installPlan k owner.session plan history)) (hidle : t'.Idle)
    (hacc : Accounted (Grant.Origin t op) t' (t'.installPlan k owner.session plan history)) :
    Accounted (Grant.Origin t op) t' (t'.perform k owner.session plan history) := by
  unfold perform
  split
  · exact hacc.trans (accounted_cascade hinst ⟨hidle.waking, hidle.pendingWake⟩ _ _)
  · exact hacc

private theorem accounted_set (hg : t.Good) (lock : Lock) :
    Accounted (Grant.Origin t (.set lock)) t (t.set lock).1 := by
  have h := set_spec hg lock
  generalize t.set lock = result at h ⊢
  cases h with
  | failed err => exact accounted_of_held rfl fun _ => rfl
  | installed hv hs hlive hadm hlim =>
    have hinst := hg.inv.install (hg.inv.acquire_edits hv hadm)
      [⟨lock, none, t.objectLocked lock.object⟩] hs hlim
    have hacc := accounted_install hg.inv hv (hg.inv.object lock.object) rfl hadm
      (origin_of_set (t := t) rfl rfl) lock.owner.session
    exact (accounted_perform hinst hg.idle hacc).trans (accounted_prune _ _)

private theorem accounted_withdraw (hi : Inv none t') (hidle : t'.Idle)
    (hq : t'.Queued w) (err : Option LockError) :
    Accounted (Grant.Origin t op) t' (((retireWaiter err t' w).wakeEligibleLocked w.lock.object
      w.lock.range).pruneObjectLocked w.lock.object) := by
  have hw : Accounted (Grant.Origin t op) (retireWaiter err t' w) _ :=
    accounted_cascade (hi.retire hq err) (idle_retire hidle err w) w.lock.object w.lock.range
  exact ((accounted_retire hi hq err).trans hw).trans (accounted_prune _ _)

private theorem accounted_beginWait (hg : t.Good) (lock : Lock) :
    Accounted (Grant.Origin t (.beginWait lock)) t (t.beginWait lock).1 := by
  have hbump : Accounted (Grant.Origin t (.beginWait lock)) t t.bumped :=
    accounted_of_held rfl fun _ => rfl
  have h := beginWait_spec hg lock
  generalize t.beginWait lock = result at h ⊢
  cases h with
  | failed err hne => exact accounted_of_held rfl fun _ => rfl
  | limited => exact hbump
  | refused hv hadm => exact hbump.trans (accounted_publishSettled _ _ _)
  | granted hv hs hlive hadm hlim =>
    have hinst := hg.inv.bumped.install (hg.inv.acquire_edits hv hadm)
      [⟨lock, some (t.nextSeq + 1), t.objectLocked lock.object⟩] hs hlim
    have hacc := accounted_install hg.inv.bumped hv (hg.inv.object lock.object) rfl hadm
      (origin_of_beginWait (t := t) rfl rfl) lock.owner.session
    have hperf := (accounted_perform hinst hg.bumped.idle hacc).trans (accounted_prune _ lock.object)
    exact (hbump.trans hperf).trans (accounted_publishSettled _ _ _)
  | queued hv hs hlive hadm hmax hper hdead =>
    exact hbump.trans (accounted_of_held rfl (held_insertWaiter _ _))
  | deadlock hv hs hlive hadm hmax hper hdead =>
    have hins : Accounted (Grant.Origin t (.beginWait lock)) t.bumped (t.publish lock) :=
      accounted_of_held rfl (held_insertWaiter _ _)
    refine (hbump.trans hins).trans ?_
    exact accounted_withdraw (w := t.newWaiter lock) (hg.inv.enqueue_new hv hs hmax hper)
      (hg.idle_publish lock) (t.queued_publish lock) (some .deadlock)

/-- Installing a release covers nothing new. -/
theorem heldAt_install_release (hi : Inv dead t) (k : ObjectKey) (owner : LockOwner) {r : LockRange}
    (hv : r.start ≤ r.stop) (id : SessionID) (history : List Grant) (k' : ObjectKey) (o : LockOwner)
    (ty : LockType) (x : Nat) :
    HeldAt ((t.installPlan k id (planReleaseLocked (some (t.objectLocked k)) owner r)
        history).objectLocked k').held.values o ty x ↔
      ¬ (k' = k ∧ o = owner ∧ x ∈ r) ∧ HeldAt (t.objectLocked k').held.values o ty x := by
  have hok := hi.object k
  rw [objectLocked_install]
  by_cases hk : k' = k
  · subst hk
    simp only [if_true, true_and]
    rw [HeldAt.perm (values_install hi (hi.release_edits k' owner hv)),
      planRelease_heldAt hok.indexed hok.compatible owner hv]
  · simp only [hk, if_false, false_and, not_false_eq_true, true_and]

private theorem accounted_unlock (hg : t.Good) (k : ObjectKey) (owner : LockOwner) (r : LockRange) :
    Accounted (Grant.Origin t (.unlock k owner r)) t (t.unlock k owner r).1 := by
  have h := unlock_spec hg k owner r
  generalize t.unlock k owner r = result at h ⊢
  cases h with
  | failed | nothing => exact accounted_of_held rfl fun _ => rfl
  | released hv hs hlive hsome hlim =>
    have hinst := hg.inv.install (hg.inv.release_edits k owner hv) [] hs hlim
    have hacc : Accounted (Grant.Origin t (.unlock k owner r)) t (t.installPlan k owner.session
        (planReleaseLocked (some (t.objectLocked k)) owner r) []) := by
      refine accounted_of_covers ?_ ?_
      · rfl
      intro k' o ty x hcov
      obtain ⟨ty', hle, hat⟩ := covers_iff_heldAt.mp hcov
      rw [heldAt_install_release hg.inv k owner hv] at hat
      exact covers_iff_heldAt.mpr ⟨ty', hle, hat.2⟩
    exact (accounted_perform hinst hg.idle hacc).trans (accounted_prune _ _)

private theorem grants_foldl {α σ : Type} (table : σ → LockTable) (f : σ → α → σ)
    (hf : ∀ s a, (table (f s a)).grants = (table s).grants) (l : List α) (s : σ) :
    (table (l.foldl f s)).grants = (table s).grants := by
  induction l generalizing s with
  | nil => rfl
  | cons a l ih => rw [foldl_cons, ih, hf]

private theorem grants_releaseRecords (t : LockTable) (id : SessionID) (s : LockSession) :
    (t.releaseRecords id s).1.grants = t.grants := by
  unfold releaseRecords
  dsimp only
  rw [grants_foldl Prod.fst, grants_foldl Prod.fst]
  · intro st w
    exact grants_retire _ st.1 w
  intro st k
  unfold dropRecords
  split
  · rfl
  · exact grants_foldl Prod.fst (dropRecord k) (fun _ _ => rfl) _ _

private theorem accounted_wakeTouched (touched : Assoc ObjectKey LockRange)
    (keys : List ObjectKey) (hi : Inv none t') (hidle : t'.Idle) :
    Accounted (Grant.Origin t op) t' (keys.foldl (wakeTouched touched) t') := by
  induction keys generalizing t' with
  | nil => exact accounted_of_held rfl fun _ => rfl
  | cons k ks ih =>
    have hone : Accounted (Grant.Origin t op) t' (wakeTouched touched t' k) ∧
        Inv none (wakeTouched touched t' k) ∧ (wakeTouched touched t' k).Idle := by
      unfold wakeTouched
      split
      · exact ⟨accounted_of_held rfl fun _ => rfl, hi, hidle⟩
      · next span _ =>
        obtain ⟨h1, h2, _⟩ := wakeEligible_spec k span hi hidle
        exact ⟨accounted_cascade hi hidle k span, h1, h2⟩
    exact hone.1.trans (ih hone.2.1 hone.2.2)

private theorem accounted_releaseSession (hg : t.Good) (id : SessionID) (hint : List ObjectKey) :
    Accounted (Grant.Origin t op) t (t.releaseSession id hint) := by
  cases hs : t.sessions.lookup id with
  | none =>
    unfold releaseSession
    rw [hs]
    exact accounted_of_held rfl fun _ => rfl
  | some s =>
    obtain ⟨hrel, hi, _⟩ := releaseRecords_spec hg hs
    rw [releaseSession_eq hs]
    have hdrop : Accounted (Grant.Origin t op) t (t.releaseRecords id s).1 := by
      refine accounted_of_covers (grants_releaseRecords t id s) ?_
      rintro k owner ty x ⟨l, hl, hrest⟩
      exact ⟨l, hrel.held_sub k l hl, hrest⟩
    have hwake : Accounted (Grant.Origin t op) _ _ := accounted_wakeTouched (t.releaseRecords id s).2
      (arrange hint (t.releaseRecords id s).2.keys) hi hrel.idle
    refine (hdrop.trans hwake).trans (accounted_of_held ?_ ?_)
    · exact grants_foldl (fun t => t) _ grants_prune _ _
    · intro k
      rw [(sameCore_prune_all _ _).objectLocked]

/-- Every coverage gained in a call from a reachable table comes from a grant of that call; every
such grant is the call's own request or comes from the queue; and on the bytes it newly covers
no other owner's conflicting request stood ahead of it: none queued earlier, and for `Set` none
at all. -/
theorem reachable_grants_fair (h : Reachable t) (op : Op) :
    ∃ granted, (t.exec op).grants = granted ++ t.grants ∧
      (∀ g ∈ granted, g.Fair ∧ Grant.Origin t op g) ∧
      ∀ k owner ty x, ((t.exec op).objectLocked k).Covers owner ty x →
        ¬ (t.objectLocked k).Covers owner ty x → ∃ g ∈ granted, g.Gains k owner ty x := by
  have hg := h.good
  cases op with
  | registerSession id expires =>
    apply accounted_of_held
    · change (t.registerSession id expires).grants = t.grants
      unfold registerSession
      split <;> rfl
    · intro k
      change ((t.registerSession id expires).objectLocked k).held = _
      unfold registerSession
      split <;> rfl
  | renew | tick => exact accounted_of_held rfl fun _ => rfl
  | set lock => exact accounted_set hg lock
  | beginWait lock => exact accounted_beginWait hg lock
  | await seq err =>
    change Accounted _ t (t.await seq err)
    have h := await_spec hg seq err
    generalize t.await seq err = result at h ⊢
    cases h with
    | settled => exact accounted_of_held rfl fun _ => rfl
    | withdrawn w hq hseq => exact accounted_withdraw hg.inv hg.idle hq _
  | unlock object owner r => exact accounted_unlock hg object owner r
  | interruptWaiters err =>
    refine accounted_of_held ?_ (interruptWaiters_spec hg err).2.2
    change (t.interruptWaiters err).grants = t.grants
    unfold interruptWaiters
    dsimp only
    rw [grants_foldl (fun t => t) _ grants_prune, grants_foldl (fun t => t) _ (grants_retire _)]
  | releaseSession id hint => exact accounted_releaseSession hg id hint

/-- A writer queued behind a reader, and a later reader queued behind the writer. -/
def queuedWriter : LockTable :=
  small.run [.registerSession 1 10, .registerSession 2 10, .registerSession 3 10,
    .set (request 1 .read 0 9), .beginWait (request 2 .write 0 9),
    .beginWait (request 3 .read 5 6)]

/-- The first reader's unlock grants the writer, not the later reader. -/
theorem grants_fair_queuedWriter : queuedWriter.waiting = 2 ∧
    ((queuedWriter.exec (.unlock 7 (process 1) (bytes 0 9))).grants.map
      fun g => (g.lock.owner, g.seq)) = [(process 2, some 1), (process 1, none)] ∧
    ∃ granted, (queuedWriter.exec (.unlock 7 (process 1) (bytes 0 9))).grants =
        granted ++ queuedWriter.grants ∧
      ∀ g ∈ granted, g.Fair ∧ Grant.Origin queuedWriter (.unlock 7 (process 1) (bytes 0 9)) g := by
  obtain ⟨granted, h1, h2, _⟩ := reachable_grants_fair (t := queuedWriter)
    (reachable_small.run _) (.unlock 7 (process 1) (bytes 0 9))
  exact ⟨by decide +kernel, by decide +kernel, granted, h1, h2⟩

end LockTable
end PortableFS.Locks
