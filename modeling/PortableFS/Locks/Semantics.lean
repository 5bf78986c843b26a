import PortableFS.Locks.Fairness

/-!
# Byte-wise meaning of the calls

Module `volumeserver`, `vcs/internal/volumeserver/locks.go:486–661`. The records of an object stand
for a map from owner and byte to lock type. `Set` and `Unlock` change that map exactly on the
requested bytes of the requesting owner, before the cascade they may trigger. A call that
fails changes no record, no queue and no counter; a refused deadlock does so up to the cascade
over the range it had queued for.
-/

namespace PortableFS.Locks

open PortableFS.Base List

namespace LockTable

/-- The type the owner holds the byte at. -/
def modeAt (t : LockTable) (k : ObjectKey) (owner : LockOwner) (x : Nat) : Option LockType :=
  ((t.objectLocked k).held.values.find? fun l => decide (l.owner = owner ∧ x ∈ l.range)).map
    Lock.type

variable {t : LockTable} {k : ObjectKey} {owner : LockOwner} {x : Nat} {dead : Option SessionID}

/-- The map is what the records say. -/
theorem modeAt_eq_some (hi : Inv dead t) {ty : LockType} :
    t.modeAt k owner x = some ty ↔ HeldAt (t.objectLocked k).held.values owner ty x := by
  unfold modeAt
  rw [Option.map_eq_some_iff]
  constructor
  · rintro ⟨l, hl, rfl⟩
    have hp := find?_some hl
    rw [decide_eq_true_eq] at hp
    exact ⟨l, mem_of_find?_eq_some hl, hp.1, rfl, hp.2⟩
  · rintro ⟨l, hl, ho, rfl, hx⟩
    cases hf : (t.objectLocked k).held.values.find?
        fun l => decide (l.owner = owner ∧ x ∈ l.range) with
    | none =>
      have := find?_eq_none.mp hf l hl
      simp [ho, hx] at this
    | some l' =>
      have hp := find?_some hf
      rw [decide_eq_true_eq] at hp
      have heq := (hi.object k).compatible.eq_of_mem (mem_of_find?_eq_some hf) hl
        (hp.1.trans ho.symm) hp.2 hx
      exact ⟨l', rfl, by rw [heq]⟩

variable {t' : LockTable}

/-- A table described by what its records say has this map. -/
theorem modeAt_eq {dead' : Option SessionID} (hi : Inv dead t) (hi' : Inv dead' t') {k' : ObjectKey}
    (h : ∀ ty, HeldAt (t'.objectLocked k').held.values owner ty x ↔
      HeldAt (t.objectLocked k).held.values owner ty x) :
    t'.modeAt k' owner x = t.modeAt k owner x := by
  apply Option.ext
  intro ty
  rw [modeAt_eq_some hi', modeAt_eq_some hi, h]

variable {lock : Lock} {before : Option Nat} {s : LockSession}

/-- Installing an acquisition updates the map on the requested bytes of the owner. -/
theorem modeAt_install_acquire (hi : Inv none t)
    (hv : lock.range.start ≤ lock.range.stop) (hs : t.sessions.lookup lock.owner.session = some s)
    (hadm : (t.objectLocked lock.object).Admits lock before)
    (hlim : t.exceedsLimits lock.owner.session
      (planAcquireLocked (some (t.objectLocked lock.object)) lock) = false)
    (history : List Grant) (k : ObjectKey) (owner : LockOwner) (x : Nat) :
    (t.installPlan lock.object lock.owner.session
        (planAcquireLocked (some (t.objectLocked lock.object)) lock) history).modeAt k owner x =
      if k = lock.object ∧ owner = lock.owner ∧ x ∈ lock.range then some lock.type
      else t.modeAt k owner x := by
  have hi' := hi.install (hi.acquire_edits hv hadm) history hs hlim
  have hat := heldAt_install_acquire hi hv (hi.object lock.object) rfl hadm lock.owner.session
    history k owner
  split
  · next h =>
    rw [modeAt_eq_some hi', hat, if_pos h]
  · next h =>
    apply modeAt_eq hi hi'
    intro ty
    rw [hat, if_neg h]

variable {r : LockRange}

/-- Installing a release clears the map on the released bytes of the owner. -/
theorem modeAt_install_release (hi : Inv none t) (k : ObjectKey) (owner : LockOwner)
 (hv : r.start ≤ r.stop) (hs : t.sessions.lookup owner.session = some s)
    (hlim : t.exceedsLimits owner.session
      (planReleaseLocked (some (t.objectLocked k)) owner r) = false)
    (history : List Grant) (k' : ObjectKey) (o : LockOwner) (x : Nat) :
    (t.installPlan k owner.session (planReleaseLocked (some (t.objectLocked k)) owner r)
        history).modeAt k' o x =
      if k' = k ∧ o = owner ∧ x ∈ r then none else t.modeAt k' o x := by
  have hi' := hi.install (hi.release_edits k owner hv) history hs hlim
  have hat := heldAt_install_release hi k owner hv owner.session history k' o
  split
  · next h =>
    rw [Option.eq_none_iff_forall_ne_some]
    intro ty hty
    rw [modeAt_eq_some hi', hat] at hty
    exact hty.1 h
  · next h =>
    apply modeAt_eq hi hi'
    intro ty
    rw [hat]
    tauto

/-- Releasing a range without records of the owner changes nothing. -/
theorem modeAt_release_nothing (hi : Inv none t) (hv : r.start ≤ r.stop)
    (hnone : (planReleaseLocked (some (t.objectLocked k)) owner r).remove = [])
    (hx : x ∈ r) : t.modeAt k owner x = none := by
  rw [Option.eq_none_iff_forall_ne_some]
  intro ty hty
  rw [modeAt_eq_some hi] at hty
  obtain ⟨l, hl, ho, _, hxl⟩ := hty
  rw [planReleaseLocked_remove (hi.object k).indexed, filter_eq_nil_iff] at hnone
  have hov := (overlaps_iff_exists ((hi.object k).compatible.valid l hl) hv).mpr ⟨x, hxl, hx⟩
  obtain ⟨e, he, rfl⟩ := mem_map.mp hl
  exact hnone e he (by simp [released, ho, hov])

/-- Records, queues, counters and sessions agree. -/
structure SameLocks (t t' : LockTable) : Prop where
  records : ∀ k, (t'.objectLocked k).held = (t.objectLocked k).held
  queue : ∀ k, (t'.objectLocked k).waiting.values.Perm (t.objectLocked k).waiting.values
  held : t'.held = t.held
  waiting : t'.waiting = t.waiting
  sessions : ∀ id, t'.sessions.lookup id = t.sessions.lookup id

theorem sameLocks_of_eq (ho : t'.objects = t.objects) (hs : t'.sessions = t.sessions)
    (hh : t'.held = t.held) (hw : t'.waiting = t.waiting) : SameLocks t t' := by
  have hobj : ∀ k, t'.objectLocked k = t.objectLocked k := by
    intro k
    unfold objectLocked
    rw [ho]
  exact ⟨fun k => by rw [hobj], fun k => by rw [hobj], hh, hw, fun _ => by rw [hs]⟩

theorem SameLocks.prune (h : SameLocks t t') (k : ObjectKey) :
    SameLocks t (t'.pruneObjectLocked k) := by
  have hc := sameCore_prune t' k
  refine ⟨fun k' => ?_, fun k' => ?_, hc.held.trans h.held, hc.waiting.trans h.waiting, fun id => ?_⟩
  · rw [hc.objectLocked, h.records]
  · rw [hc.objectLocked]
    exact h.queue k'
  · rw [hc.sessions, h.sessions]

variable {w : Waiter}

/-- Withdrawing the waiter that was queued last restores everything. -/
theorem sameLocks_insert_retire (hi : Inv none (t.insertWaiterLocked w))
    (err : Option LockError) : SameLocks t (retireWaiter err (t.insertWaiterLocked w) w) := by
  have hq : (t.insertWaiterLocked w).Queued w := (queued_insertWaiter t w w).mpr (.inr rfl)
  have hheld : ∀ k, ((retireWaiter err (t.insertWaiterLocked w) w).objectLocked k).held =
      (t.objectLocked k).held :=
    fun k => (held_retire hi hq err k).trans (held_insertWaiter t w k)
  obtain ⟨waiting, hd, heq⟩ := removeWaiterLocked_eq (hi.object w.lock.object) hq
  have hret : retireWaiter err (t.insertWaiterLocked w) w =
      ((t.insertWaiterLocked w).removeWaiterLocked w).settleWaiterLocked w err := rfl
  refine ⟨hheld, ?_, ?_, ?_, ?_⟩
  · intro k
    by_cases hk : k = w.lock.object
    · subst hk
      have hobj : (retireWaiter err (t.insertWaiterLocked w) w).objectLocked w.lock.object =
          { (t.insertWaiterLocked w).objectLocked w.lock.object with waiting } := by
        rw [hret, heq]
        exact (objectLocked_insert _ _ _ _).trans (if_pos rfl)
      have hvals := hd.values
      rw [objectLocked_insertWaiter, if_pos rfl] at hvals
      rw [hobj]
      exact (hvals.symm.trans (IntervalTree.values_insert _ _ _ _ _)).cons_inv
    · have hobj : (retireWaiter err (t.insertWaiterLocked w) w).objectLocked k =
          (t.insertWaiterLocked w).objectLocked k := by
        rw [hret, heq]
        exact (objectLocked_insert _ _ _ _).trans (if_neg hk)
      rw [hobj, objectLocked_insertWaiter, if_neg hk]
  · rw [hret, heq]
    rfl
  · rw [hret, heq]
    rfl
  intro id
  rw [hret, heq]
  change (Assoc.modify (Assoc.modify t.sessions _ _) _ _).lookup id = _
  rw [Assoc.lookup_modify, Assoc.lookup_modify]
  by_cases hid : id = w.lock.owner.session
  · rw [if_pos hid, if_pos rfl, hid]
    cases t.sessions.lookup w.lock.owner.session with
    | none => rfl
    | some s => simp
  · rw [if_neg hid, Assoc.lookup_modify, if_neg hid]

/-- Every request queued in the span is live and blocked. -/
def QuietOver (t : LockTable) (k : ObjectKey) (span : LockRange) : Prop :=
  ∀ w, t.Queued w → w.lock.object = k → overlaps w.lock.range span = true →
    t.leaseLive w.lock.owner.session = true ∧
      ¬ (t.objectLocked w.lock.object).Admits w.lock (some w.seq)

/-- A cascade that finds every request in its span live and blocked does nothing. -/
theorem wakeEligible_quiet (hi : Inv none t) (hidle : t.Idle) (k : ObjectKey) (span : LockRange)
    (hquiet : t.QuietOver k span) : t.wakeEligibleLocked k span = t := by
  have hpend : (t.enqueueWake k span).pendingWake = [⟨k, span⟩] := by
    simp [enqueueWake, hidle.pendingWake]
  have hind := wakeEligible_induct (k := k) (t := t)
    (P := fun ws _ t' => t' = { t.enqueueWake k span with waking := true } ∧
      ∀ w ∈ ws, overlaps w.lock.range span = true) ?_ ?_ hi hidle.waking hidle.pendingWake
    ⟨rfl, by simp⟩
  · obtain ⟨t₁, _, _, _, ⟨rfl, _⟩, heq⟩ := hind
    rw [heq]
    have h1 := hidle.waking
    have h2 := hidle.pendingWake
    cases t
    simp only at h1 h2
    subst h1 h2
    rfl
  · rintro i t' r hi' hr ⟨rfl, _⟩
    refine ⟨rfl, fun w hw => ?_⟩
    have hmem : r ∈ (t.enqueueWake k span).pendingWake := mem_of_getElem? hr
    rw [hpend, mem_singleton] at hmem
    rw [hmem] at hw
    exact ((mem_candidates hi' k span w).mp hw).2.2
  · rintro w ws i t' t'' hi' hk hc ⟨rfl, hov⟩
    have hw := hov w mem_cons_self
    have hrest : ∀ w' ∈ ws, overlaps w'.lock.range span = true :=
      fun w' hw' => hov w' (mem_cons_of_mem w hw')
    cases hc with
    | pass h => exact ⟨rfl, hrest⟩
    | expire hq hlive => exact absurd ((hquiet w hq hk hw).1.symm.trans hlive) (by simp)
    | refuse hq hlive hadm | grant hq hlive hadm hlim => exact absurd hadm (hquiet w hq hk hw).2

private theorem set_meaning (hg : t.Good) (hset : t.set lock = (t', none)) :
    ∃ (t₁ : LockTable) (span : LockRange), (t' = t₁.pruneObjectLocked lock.object ∨
        t' = (t₁.wakeEligibleLocked lock.object span).pruneObjectLocked lock.object) ∧
      ∀ k owner x, t₁.modeAt k owner x =
        if k = lock.object ∧ owner = lock.owner ∧ x ∈ lock.range then some lock.type
        else t.modeAt k owner x := by
  have h := set_spec hg lock
  rw [hset] at h
  cases h with
  | installed hv hs hlive hadm hlim =>
    refine ⟨_, (planAcquireLocked (some (t.objectLocked lock.object)) lock).touched, ?_,
      modeAt_install_acquire hg.inv hv hs hadm hlim [⟨lock, none, t.objectLocked lock.object⟩]⟩
    unfold perform
    split
    · exact .inr rfl
    · exact .inl rfl

private theorem unlock_meaning (hg : t.Good) (hunlock : t.unlock k owner r = (t', none)) :
    ∃ (t₁ : LockTable) (span : LockRange), (t' = t₁ ∨ t' = (t₁.wakeEligibleLocked k span).pruneObjectLocked k) ∧
      ∀ k' o x, t₁.modeAt k' o x =
        if k' = k ∧ o = owner ∧ x ∈ r then none else t.modeAt k' o x := by
  have h := unlock_spec hg k owner r
  rw [hunlock] at h
  cases h with
  | nothing hv hnone =>
    refine ⟨t, r, .inl rfl, fun k' o x => ?_⟩
    split
    · next h =>
      obtain ⟨rfl, rfl, hx⟩ := h
      exact modeAt_release_nothing hg.inv hv hnone hx
    · rfl
  | released hv hs hlive hsome hlim =>
    refine ⟨_, (planReleaseLocked (some (t.objectLocked k)) owner r).touched, .inr ?_,
      modeAt_install_release hg.inv k owner hv hs hlim []⟩
    have hweak : (planReleaseLocked (some (t.objectLocked k)) owner r).weakens = true := by
      change (!(planReleaseLocked (some (t.objectLocked k)) owner r).remove.isEmpty) = true
      simpa using hsome
    unfold perform
    rw [if_pos hweak]

variable {err : LockError}

private theorem set_failed (hg : t.Good) (hset : (t.set lock).2 = some err) :
    (t.set lock).1 = t := by
  have h := set_spec hg lock
  generalize t.set lock = result at h hset ⊢
  cases h with
  | failed err => rfl
  | installed hv hs hlive hadm hlim => simp at hset

private theorem unlock_failed (hg : t.Good)
    (hunlock : (t.unlock k owner r).2 = some err) : (t.unlock k owner r).1 = t := by
  have h := unlock_spec hg k owner r
  generalize t.unlock k owner r = result at h hunlock ⊢
  cases h with
  | failed err => rfl
  | nothing hv hnone => rfl
  | released hv hs hlive hsome hlim => simp at hunlock

private theorem beginWait_failed (hg : t.Good) (hbegin : (t.beginWait lock).2 = .error err)
    (hne : err ≠ .deadlock) : SameLocks t (t.beginWait lock).1 := by
  have h := beginWait_spec hg lock
  generalize t.beginWait lock = result at h hbegin ⊢
  cases h with
  | failed | limited => exact sameLocks_of_eq rfl rfl rfl rfl
  | refused hv hadm => cases hbegin
  | granted hv hs hlive hadm hlim => cases hbegin
  | queued hv hs hlive hadm hmax hper hdead => cases hbegin
  | deadlock hv hs hlive hadm hmax hper hdead =>
    cases hbegin
    exact absurd rfl hne

private theorem beginWait_refused (hg : t.Good) {s : WaiterState}
    (hbegin : (t.beginWait lock).2 = .ok w)
    (hs : (t.beginWait lock).1.waiters.lookup w.seq = some s) (herr : s.err ≠ none) :
    SameLocks t (t.beginWait lock).1 := by
  have h := beginWait_spec hg lock
  generalize t.beginWait lock = result at h hbegin hs ⊢
  cases h with
  | failed err hne => cases hbegin
  | limited => cases hbegin
  | refused hv hadm => exact sameLocks_of_eq rfl rfl rfl rfl
  | granted hv hs' hlive hadm hlim =>
    cases hbegin
    unfold publishSettled at hs
    dsimp only at hs
    rw [AList.lookup_insert] at hs
    cases hs
    exact absurd rfl herr
  | queued hv hs' hlive hadm hmax hper hdead =>
    cases hbegin
    unfold insertWaiterLocked at hs
    dsimp only at hs
    rw [AList.lookup_insert] at hs
    cases hs
    exact absurd rfl herr
  | deadlock hv hs' hlive hadm hmax hper hdead => cases hbegin

private theorem admits_same (h : SameLocks t t')
    (hadm : (t'.objectLocked k).Admits lock before) : (t.objectLocked k).Admits lock before := by
  unfold ObjectLocks.Admits ObjectLocks.Covers at *
  rw [h.records] at hadm
  refine ⟨hadm.1, fun x hx hn w hw => ?_⟩
  exact hadm.2 x hx hn w ((h.queue k).mem_iff.mpr hw)

/-- A refused deadlock only wakes its range. -/
theorem beginWait_deadlock (hg : t.Good) (hbegin : (t.beginWait lock).2 = .error .deadlock) :
    ∃ t₁, SameLocks t t₁ ∧ (t.beginWait lock).1 =
        (t₁.wakeEligibleLocked lock.object lock.range).pruneObjectLocked lock.object ∧
      (t.QuietOver lock.object lock.range → SameLocks t (t.beginWait lock).1) := by
  have h := beginWait_spec hg lock
  generalize t.beginWait lock = result at h hbegin ⊢
  cases h with
  | failed err hne =>
    cases hbegin
    exact absurd rfl hne
  | limited => cases hbegin
  | refused hv hadm => cases hbegin
  | granted hv hs hlive hadm hlim => cases hbegin
  | queued hv hs hlive hadm hmax hper hdead => cases hbegin
  | deadlock hv hs hlive hadm hmax hper hdead =>
    have hi := hg.inv.enqueue_new hv hs hmax hper
    have hq := t.queued_publish lock
    have hsame : SameLocks t
        (retireWaiter (some .deadlock) (t.publish lock) (t.newWaiter lock)) := by
      have h := sameLocks_insert_retire hi (some .deadlock)
      exact ⟨h.records, h.queue, h.held, h.waiting, h.sessions⟩
    refine ⟨_, hsame, rfl, fun hquiet => ?_⟩
    have hlive : ∀ id, leaseLive (retireWaiter (some .deadlock) (t.publish lock)
        (t.newWaiter lock)) id = t.leaseLive id := by
      intro id
      unfold leaseLive
      rw [hsame.sessions, now_retire hi hq]
      rfl
    dsimp only
    change SameLocks t (((retireWaiter _ (t.publish lock) _).wakeEligibleLocked _ _).pruneObjectLocked
      lock.object)
    rw [wakeEligible_quiet (hi.retire hq _) (idle_retire (hg.idle_publish lock) _ _)
      lock.object lock.range]
    · exact hsame.prune lock.object
    · intro w hw hk hov
      obtain ⟨h1, h2⟩ := hquiet w ((hsame.queue _).mem_iff.mp hw) hk hov
      exact ⟨(hlive _).trans h1, fun hadm => h2 (admits_same hsame hadm)⟩

/-- A successful `set` or `unlock` changes the map of owners and bytes exactly on the requested
bytes of the owner, before the cascade it may trigger. A call that fails leaves records, queues
and counters: an invalid, conflicting, unregistered or limited one entirely, a refused deadlock
before the cascade over its range, which itself does nothing if every request there is live and
blocked. -/
theorem reachable_call_meaning {t : LockTable} (h : Reachable t) :
    (∀ lock t', t.set lock = (t', none) → ∃ (t₁ : LockTable) (span : LockRange),
      (t' = t₁.pruneObjectLocked lock.object ∨
        t' = (t₁.wakeEligibleLocked lock.object span).pruneObjectLocked lock.object) ∧
      ∀ k owner x, t₁.modeAt k owner x =
        if k = lock.object ∧ owner = lock.owner ∧ x ∈ lock.range then some lock.type
        else t.modeAt k owner x) ∧
    (∀ k owner r t', t.unlock k owner r = (t', none) → ∃ (t₁ : LockTable) (span : LockRange),
      (t' = t₁ ∨ t' = (t₁.wakeEligibleLocked k span).pruneObjectLocked k) ∧
      ∀ k' o x, t₁.modeAt k' o x =
        if k' = k ∧ o = owner ∧ x ∈ r then none else t.modeAt k' o x) ∧
    (∀ lock err, (t.set lock).2 = some err → (t.set lock).1 = t) ∧
    (∀ k owner r err, (t.unlock k owner r).2 = some err → (t.unlock k owner r).1 = t) ∧
    (∀ lock err, (t.beginWait lock).2 = .error err → err ≠ .deadlock →
      SameLocks t (t.beginWait lock).1) ∧
    (∀ lock w s, (t.beginWait lock).2 = .ok w →
      (t.beginWait lock).1.waiters.lookup w.seq = some s → s.err ≠ none →
      SameLocks t (t.beginWait lock).1) ∧
    ∀ lock, (t.beginWait lock).2 = .error .deadlock → ∃ t₁, SameLocks t t₁ ∧ (t.beginWait lock).1 =
        (t₁.wakeEligibleLocked lock.object lock.range).pruneObjectLocked lock.object ∧
      ((∀ w, t.Queued w → w.lock.object = lock.object → overlaps w.lock.range lock.range = true →
          t.leaseLive w.lock.owner.session = true ∧
            ¬ (t.objectLocked w.lock.object).Admits w.lock (some w.seq)) →
        SameLocks t (t.beginWait lock).1) := by
  have hg := h.good
  exact ⟨fun _ _ => set_meaning hg, fun _ _ _ _ => unlock_meaning hg, fun _ _ => set_failed hg,
    fun _ _ _ _ => unlock_failed hg, fun _ _ => beginWait_failed hg,
    fun _ _ _ => beginWait_refused hg, fun _ => beginWait_deadlock hg⟩

/-- Releasing the middle of a write lock clears exactly those bytes. -/
theorem call_meaning_splitWrite : (splitWrite.unlock 7 (process 1) (bytes 2 7)).2 = none ∧
    ∃ (t₁ : LockTable) (span : LockRange), ((splitWrite.unlock 7 (process 1) (bytes 2 7)).1 = t₁ ∨
        (splitWrite.unlock 7 (process 1) (bytes 2 7)).1 =
          (t₁.wakeEligibleLocked 7 span).pruneObjectLocked 7) ∧
      ∀ k' o x, t₁.modeAt k' o x =
        if k' = 7 ∧ o = process 1 ∧ x ∈ bytes 2 7 then none else splitWrite.modeAt k' o x := by
  have hok : (splitWrite.unlock 7 (process 1) (bytes 2 7)).2 = none := by decide +kernel
  refine ⟨hok, ?_⟩
  obtain ⟨_, hunlock, _⟩ := reachable_call_meaning (t := splitWrite) (reachable_small.run _)
  exact hunlock 7 (process 1) (bytes 2 7) _ (Prod.ext rfl hok)

/-- Two owners about to deadlock, and the request of a session whose lease has run out. -/
def expiredBehind : LockTable :=
  small.run [.registerSession 1 10, .registerSession 2 10, .registerSession 3 5,
    .set (request 1 .write 0 0), .set (request 2 .write 1 1),
    .beginWait (request 3 .read 0 0), .beginWait (request 1 .write 1 1), .tick 6]

/-- A deadlock that is refused retires the expired request in its range. -/
theorem deadlock_retires_expired : Reachable expiredBehind ∧
    (expiredBehind.beginWait (request 2 .write 0 0)).2 = .error .deadlock ∧
    expiredBehind.waiting = 2 ∧ (expiredBehind.beginWait (request 2 .write 0 0)).1.waiting = 1 ∧
    ¬ SameLocks expiredBehind (expiredBehind.beginWait (request 2 .write 0 0)).1 := by
  have h1 : expiredBehind.waiting = 2 := by decide +kernel
  have h2 : (expiredBehind.beginWait (request 2 .write 0 0)).1.waiting = 1 := by decide +kernel
  refine ⟨reachable_small.run _, by decide +kernel, h1, h2, fun hsame => ?_⟩
  have := hsame.waiting
  omega

/-- F_GETLK is exact: it reports no lock exactly when no byte of the range is held by another owner
at a type that clashes, and a lock that it reports is held and in the way. -/
theorem reachable_get_exact (h : Reachable t) {want : Lock} {found : Option Lock}
    (hget : t.get want = .ok found) :
    (found = none ↔ ∀ owner x ty, want.owner.flock = owner.flock → want.owner ≠ owner →
      x ∈ want.range → t.modeAt want.object owner x = some ty → ¬ Clash want.type ty) ∧
    ∀ l, found = some l → conflicts want l = true ∧
      ∀ x ∈ l.range, t.modeAt want.object l.owner x = some l.type := by
  have hok := h.good.inv.object want.object
  unfold get at hget
  split at hget
  · cases hget
  next hvalid =>
  split at hget <;> cases hget
  have heq : conflictLocked (t.objects.lookup want.object) want =
      conflictLocked (some (t.objectLocked want.object)) want := conflictLocked_getD ..
  rw [heq]
  have hoverlaps (l : Lock) (hl : l ∈ (t.objectLocked want.object).held.values) :=
    overlaps_iff_exists (by simpa [validLock] using hvalid) (hok.compatible.valid l hl)
  simp only [modeAt_eq_some h.good.inv]
  refine ⟨?_, fun l hl => ?_⟩
  · rw [conflictLocked_eq_none_iff hok.indexed]
    simp only [← Bool.not_eq_true, conflicts_iff, HeldAt]
    grind
  · obtain ⟨e, he, rfl⟩ := Option.map_eq_some_iff.mp hl
    rw [IntervalTree.first_eq] at he
    have hmem := mem_map_of_mem (f := Entry.value) (mem_filter.mp (mem_of_find?_eq_some he)).1
    have hconflict := find?_some he
    exact ⟨hconflict, fun x hx => ⟨_, hmem, rfl, rfl, hx⟩⟩

/-- A read of all bytes meets the first piece of the split. -/
theorem get_exact_splitWrite :
    (splitWrite.exec (.registerSession 2 10)).modeAt 7 (process 1) 3 = some .write := by
  have hget : (splitWrite.exec (.registerSession 2 10)).get (request 2 .read 0 9) =
      .ok (some (request 1 .write 0 3)) := by decide +kernel
  have hreach : Reachable splitWrite := reachable_small.run _
  exact ((reachable_get_exact (hreach.step _) hget).2 _ rfl).2 3 (by decide)

end LockTable
end PortableFS.Locks
