import PortableFS.Locks.Space

/-!
# Deadlocks and lost wakeups

Module `volumeserver`, `vcs/internal/volumeserver/locks.go:541–580,642–661,957–1082`. An owner that gives
up coverage under its own queued request gains wait-for edges that no search ever sees, and
through them a later grant can satisfy a request without waking it. Along runs without such
calls the wait-for relation stays acyclic and no request that could be granted stays queued.
-/

namespace PortableFS.Locks

open PortableFS.Base

namespace LockTable

/-- Some queued request of `a` cannot proceed without `b`; the edges of `locks.go:1025–1054`. -/
def WaitsFor (t : LockTable) (a b : LockOwner) : Prop :=
  ∃ w, t.Queued w ∧ w.lock.owner = a ∧ b ∈ t.blockersLocked w

variable {t : LockTable}

theorem waitsFor_iff (hi : Inv none t) (a b : LockOwner) :
    t.space.WaitsFor Clash a b ↔ t.WaitsFor a b := by
  constructor
  · rintro ⟨q, ⟨w, hw, rfl⟩, ha, hb⟩
    exact ⟨w, hw, ha, (space_blocks_iff hi (hi.queued_valid hw) b).mp hb⟩
  · rintro ⟨w, hw, ha, hb⟩
    exact ⟨w.request, ⟨w, hw, rfl⟩, ha, (space_blocks_iff hi (hi.queued_valid hw) b).mpr hb⟩

/-- A valid request of a live session that is not eligible and within the bounds;
`locks.go:545–566`. -/
def HasToQueue (t : LockTable) (lock : Lock) : Prop :=
  validLock lock = true ∧ ∃ s, t.liveSessionLocked lock.owner.session = some s ∧
    waiterEligibleLocked (t.objects.lookup lock.object) (t.newWaiter lock) = false ∧
    t.held + t.waiting + 1 ≤ t.maxRecords ∧ s.records + 1 ≤ t.maxPerSession

variable {lock : Lock}

private theorem beginWait_verdict (hq : t.HasToQueue lock) :
    (t.beginWait lock).2 = .error .deadlock ↔
      (t.publish lock).deadlockLocked (t.newWaiter lock) = true := by
  obtain ⟨hv, s, hs, helig, hmax, hper⟩ := hq
  have hroom : ¬ (t.maxRecords < t.held + t.waiting + 1 ∨ t.maxPerSession < s.records + 1) := by
    omega
  unfold newWaiter at helig
  unfold beginWait
  simp only [hv, hs, helig, hroom, Bool.not_true, Bool.false_eq_true, if_false]
  change _ ↔ (t.publish lock).deadlockLocked (t.newWaiter lock) = true
  split
  · next hdead => exact ⟨fun _ => hdead, fun _ => rfl⟩
  · next hdead => exact ⟨nofun, fun h => absurd h hdead⟩

/-- The search skips the waiter it is for, whose owner it would stop at. -/
private theorem reaches_iff (hi : Inv none t) (w : Waiter) (b : LockOwner) :
    Relation.ReflTransGen (fun a b => b ∈ t.ownerBlockers w a) b w.lock.owner ↔
      Relation.ReflTransGen t.WaitsFor b w.lock.owner := by
  constructor
  · apply Relation.ReflTransGen.mono
    intro a c hc
    obtain ⟨y, hy, _, ha, hb⟩ := (mem_ownerBlockers hi w a c).mp hc
    exact ⟨y, hy, ha, hb⟩
  · intro h
    induction h using Relation.ReflTransGen.head_induction_on with
    | refl => exact .refl
    | @head a c hac _ ih =>
      obtain ⟨y, hy, rfl, hb⟩ := hac
      by_cases hw : y = w
      · rw [hw]
      · exact ih.head ((mem_ownerBlockers hi w _ c).mpr ⟨y, hy, hw, rfl, hb⟩)

/-- A request that has to queue is refused exactly when its owner can be reached from its
blockers along the wait-for edges, itself standing last; the search ends and expands no owner
twice. A refusal leaves records, queues and counters before the cascade over its range, and
after it if every request there is live and blocked. -/
theorem reachable_deadlock_exact {t : LockTable} (h : Reachable t) {lock : Lock}
    (hq : t.HasToQueue lock) :
    ((t.beginWait lock).2 = .error .deadlock ↔
      ∃ b ∈ (t.publish lock).blockersLocked (t.newWaiter lock),
        Relation.ReflTransGen (t.publish lock).WaitsFor b lock.owner) ∧
    (∃ expanded : List LockOwner, expanded.Nodup ∧
      Explores (fun o => ((t.publish lock).ownerBlockers (t.newWaiter lock) o).reverse) lock.owner
        [] ((t.publish lock).blockersLocked (t.newWaiter lock)).reverse
        ((t.publish lock).deadlockLocked (t.newWaiter lock)) expanded) ∧
    ((t.beginWait lock).2 = .error .deadlock → ∃ t₁, SameLocks t t₁ ∧ (t.beginWait lock).1 =
        (t₁.wakeEligibleLocked lock.object lock.range).pruneObjectLocked lock.object ∧
      (t.QuietOver lock.object lock.range → SameLocks t (t.beginWait lock).1)) := by
  have hg := h.good
  refine ⟨?_, ?_, beginWait_deadlock hg⟩
  · obtain ⟨hv, s, hs, _, hmax, hper⟩ := id hq
    have hi : Inv none (t.publish lock) := hg.inv.enqueue_new (by simpa [validLock] using hv)
      (liveSessionLocked_eq_some hs).1 hmax hper
    rw [beginWait_verdict hq, deadlockLocked_iff]
    simp only [reaches_iff hi]
    rfl
  · obtain ⟨expanded, hx⟩ := (t.publish lock).deadlockLocked_explores (t.newWaiter lock)
    exact ⟨expanded, hx.nodup List.nodup_nil, hx⟩

/-- Owner 2 may not wait for owner 1, which waits for owner 2. -/
theorem deadlock_exact_expiredBehind : expiredBehind.HasToQueue (request 2 .write 0 0) ∧
      ∃ b ∈ (expiredBehind.publish (request 2 .write 0 0)).blockersLocked
          (expiredBehind.newWaiter (request 2 .write 0 0)),
        Relation.ReflTransGen (expiredBehind.publish (request 2 .write 0 0)).WaitsFor b
          (process 2) := by
  have hq : expiredBehind.HasToQueue (request 2 .write 0 0) :=
    ⟨by decide +kernel, _, rfl, by decide +kernel⟩
  refine ⟨hq, ?_⟩
  exact (reachable_deadlock_exact (reachable_small.run _) hq).1.mp (by decide +kernel)

/-- The refusal takes the request of owner 3, whose lease has run out, from the queue. -/
theorem refused_leaves_queue :
    ¬ ∀ t lock, Reachable t → t.HasToQueue lock → (t.beginWait lock).2 = .error .deadlock →
      SameLocks t (t.beginWait lock).1 := by
  intro hall
  have hq : expiredBehind.HasToQueue (request 2 .write 0 0) :=
    ⟨by decide +kernel, _, rfl, by decide +kernel⟩
  have hsame := hall _ _ (reachable_small.run _) hq (by decide +kernel)
  have := (hsame.queue 7).length_eq
  revert this
  decide +kernel

variable {w : Waiter}

/-- A queued waiter is eligible in the space exactly when the table admits it. -/
theorem eligible_request_iff (hi : Inv none t) (hv : w.lock.range.start ≤ w.lock.range.stop) :
    t.space.Eligible Clash w.request ↔ (t.objectLocked w.lock.object).Admits w.lock (some w.seq) :=
  space_eligible_iff hi hv w.seq

variable {p : Point}

/-- Requests share a point exactly when they overlap on one object and flock class. -/
theorem region_overlap {a b : Lock} (ha : p ∈ a.region) (hb : p ∈ b.region) :
    a.object = b.object ∧ overlaps a.range b.range = true := by
  obtain ⟨h1, h2, h3⟩ := ha
  obtain ⟨h4, h5, h6⟩ := hb
  rw [LockRange.mem_iff] at h3 h6
  exact ⟨h1.symm.trans h4, overlaps_iff.mpr ⟨by omega, by omega⟩⟩

variable {t' : LockTable}

/-- Tables with the same records and queues have the same space. -/
theorem space_congr (hh : ∀ k, (t'.objectLocked k).held = (t.objectLocked k).held)
    (hq : ∀ w, t'.Queued w ↔ t.Queued w) : t'.space = t.space := by
  unfold space modeAt
  simp only [hh, hq]

variable {k : ObjectKey}

/-- Admission depends on the records and the queue of the object. -/
theorem admits_congr (hl : t'.objects.lookup k = t.objects.lookup k) :
    t'.objectLocked k = t.objectLocked k := by
  unfold objectLocked
  rw [hl]

section

variable {t t' : LockTable} (hi : Inv none t) (hi' : Inv none t')
include hi hi'

/-- Records only weaken and waiters only leave, never under a request that was satisfied. -/
theorem space_recedes (hqueue : ∀ w, t'.Queued w → t.Queued w)
    (hat : ∀ k owner ty x, HeldAt (t'.objectLocked k).held.values owner ty x →
      HeldAt (t.objectLocked k).held.values owner ty x)
    (hkept : ∀ w, t'.Queued w → ∀ x ∈ w.lock.range,
      (t.objectLocked w.lock.object).Covers w.lock.owner w.lock.type x →
      (t'.objectLocked w.lock.object).Covers w.lock.owner w.lock.type x) :
    LockSpace.Recedes t.space t'.space := by
  constructor
  · rintro q ⟨w, hw, rfl⟩
    exact ⟨w, hqueue w hw, rfl⟩
  · intro o p ty hm
    obtain ⟨hf, hh⟩ := (space_mode_eq_some hi').mp hm
    exact ⟨ty, (space_mode_eq_some hi).mpr ⟨hf, hat _ _ _ _ hh⟩, le_refl ty⟩
  · rintro q ⟨w, hw, rfl⟩ p hp hh
    obtain ⟨x, hx, rfl⟩ := Lock.mem_region.mp hp
    exact (space_holds_iff hi').mpr (hkept w hw x hx ((space_holds_iff hi).mp hh))

/-- An admitted request turns into records of its owner; nothing else changes, and no other
request of the owner loses what satisfied it. -/
theorem space_grants {seq : Nat} (hv : lock.range.start ≤ lock.range.stop)
    (hadm : (t.objectLocked lock.object).Admits lock (some seq))
    (hat : ∀ k owner ty x, HeldAt (t'.objectLocked k).held.values owner ty x ↔
      if k = lock.object ∧ owner = lock.owner ∧ x ∈ lock.range then ty = lock.type
      else HeldAt (t.objectLocked k).held.values owner ty x)
    (hqueue : ∀ w, t'.Queued w ↔ t.Queued w ∧ w.seq ≠ seq)
    (huniq : ∀ w, t.Queued w → w.seq = seq → w.lock = lock)
    (hord : t.Queued ⟨lock, seq⟩ ∨ ∀ w, t.Queued w → w.seq < seq)
    (hkept : ∀ w, t'.Queued w → w.lock.owner = lock.owner → w.lock.object = lock.object →
      ∀ x ∈ w.lock.range, x ∈ lock.range →
      (t.objectLocked lock.object).Covers lock.owner w.lock.type x → w.lock.type ≤ lock.type) :
    LockSpace.Grants Clash t.space t'.space ⟨lock.owner, lock.type, lock.region, seq⟩ := by
  constructor
  · exact (space_eligible_iff hi hv seq).mpr hadm
  · intro p hp
    obtain ⟨x, hx, rfl⟩ := Lock.mem_region.mp hp
    rw [space_mode_eq_some hi', hat]
    exact ⟨rfl, by rw [if_pos ⟨rfl, rfl, hx⟩]⟩
  · intro o p hop
    apply Option.ext
    intro ty
    rw [space_mode_eq_some hi', space_mode_eq_some hi, hat]
    apply and_congr_right
    intro hf
    rw [if_neg]
    rintro ⟨hk, rfl, hx⟩
    rcases hop with hne | hnp
    · exact hne rfl
    · exact hnp ⟨hk, hf.symm, hx⟩
  · intro q
    constructor
    · rintro ⟨w, hw, rfl⟩
      obtain ⟨hw, hne⟩ := (hqueue w).mp hw
      exact ⟨⟨w, hw, rfl⟩, hne⟩
    · rintro ⟨⟨w, hw, rfl⟩, hne⟩
      exact ⟨w, (hqueue w).mpr ⟨hw, hne⟩, rfl⟩
  · rintro q ⟨w, hw, rfl⟩ hseq
    have hl := huniq w hw hseq
    unfold Waiter.request at hseq ⊢
    simp only at hseq
    rw [hl, hseq]
  · rcases hord with hq | hq
    · exact .inl ⟨⟨lock, seq⟩, hq, rfl⟩
    · right
      rintro q ⟨w, hw, rfl⟩
      exact hq w hw
  · rintro q ⟨w, hw, rfl⟩ ho p hp hpl hh
    obtain ⟨x, hx, rfl⟩ := Lock.mem_region.mp hp
    obtain ⟨hobj, _, hxl⟩ := Lock.point_mem_region.mp hpl
    have hcov := (space_holds_iff hi).mp hh
    have ho' : w.lock.owner = lock.owner := ho
    rw [hobj, ho'] at hcov
    exact hkept w hw ho hobj x hx hxl hcov

end

/-- One sequence number names one queued waiter. -/
theorem Inv.queued_seq_inj (hi : Inv none t) {w' : Waiter} (hw : t.Queued w)
    (hw' : t.Queued w') (h : w.seq = w'.seq) : w = w' := by
  have h1 := hi.queued w hw
  rw [h, hi.queued w' hw'] at h1
  cases w with
  | mk lock seq =>
    cases w' with
    | mk lock' seq' =>
      simp only [Option.some.injEq, WaiterState.mk.injEq] at h1 h
      rw [h1.1, h]

theorem recedes_retire (hi : Inv none t) (hq : t.Queued w) (err : Option LockError) :
    LockSpace.Recedes t.space (retireWaiter err t w).space := by
  have hheld := held_retire hi hq err
  apply space_recedes hi (hi.retire hq err)
  · intro w' hw'
    exact ((queued_retire hi hq err w').mp hw').1
  · intro k owner ty x h
    rwa [hheld] at h
  · rintro w' hw' x hx ⟨l, hl, hrest⟩
    exact ⟨l, by rwa [hheld], hrest⟩

/-- Queued requests of one owner that overlap are of one type. -/
def Uniform (t : LockTable) : Prop :=
  ∀ w w', t.Queued w → t.Queued w' → w.lock.owner = w'.lock.owner →
    w.lock.object = w'.lock.object → overlaps w.lock.range w'.lock.range = true →
    w.lock.type = w'.lock.type

theorem Uniform.mono (h : t.Uniform) (hq : ∀ w, t'.Queued w → t.Queued w) : t'.Uniform :=
  fun w w' hw hw' => h w w' (hq w hw) (hq w' hw')

theorem queued_granted (hi : Inv none t) (hq : t.Queued w) (w' : Waiter) :
    (t.granted w).Queued w' ↔ t.Queued w' ∧ w' ≠ w := by
  unfold granted
  rw [queued_install, queued_retire hi hq]

/-- Granting a queued waiter is a grant in the space, unless it weakens the owner's coverage
under another of its requests. -/
theorem grants_granted (hi : Inv none t) (hq : t.Queued w)
    (hlive : t.leaseLive w.lock.owner.session = true)
    (hadm : (t.objectLocked w.lock.object).Admits w.lock (some w.seq))
    (hlim : (retireWaiter none t w).exceedsLimits w.lock.owner.session (t.grantPlan w) = false)
    (huni : t.Uniform) : LockSpace.Grants Clash t.space (t.granted w).space w.request := by
  have hheld := held_retire hi hq none
  have hnext := nextID_retire hi hq none
  have hqueued := queued_granted hi hq
  apply space_grants hi (hi.granted hq hlive hadm hlim) (hi.queued_valid hq) hadm
  · intro k owner ty x
    unfold granted grantPlan
    rw [heldAt_install_acquire (hi.retire hq none) (hi.queued_valid hq)
      (hnext.symm ▸ hi.object w.lock.object) (hheld _) hadm]
    unfold IntervalTree.values
    rw [hheld]
  · intro w'
    rw [hqueued]
    apply and_congr_right
    intro hw'
    constructor
    · exact fun hne hseq => hne (hi.queued_seq_inj hw' hq hseq)
    · rintro hseq rfl
      exact hseq rfl
  · intro w' hw' hseq
    rw [hi.queued_seq_inj hw' hq hseq]
  · exact .inl hq
  · intro w' hw' ho hobj x hx hxw _
    have hw'q := ((hqueued w').mp hw').1
    have hov := (overlaps_iff_exists (hi.queued_valid hw'q) (hi.queued_valid hq)).mpr ⟨x, hx, hxw⟩
    rw [huni w' w hw'q hq ho hobj hov]

/-- A grant that frees a clashing point of its owner weakens coverage. -/
theorem weakens_of_clash (hi : Inv none t)
    (hv : lock.range.start ≤ lock.range.stop) (hp : p ∈ lock.region) {m ty : LockType}
    (hm : t.space.mode lock.owner p = some m) (hc : Clash m ty) (hn : ¬ Clash lock.type ty) :
    (planAcquireLocked (some (t.objectLocked lock.object)) lock).weakens = true := by
  have hok := hi.object lock.object
  obtain ⟨x, hx, rfl⟩ := Lock.mem_region.mp hp
  obtain ⟨_, hat⟩ := (space_mode_eq_some hi).mp hm
  rw [planAcquire_weakens hok.indexed hv hok.compatible.valid]
  unfold Clash at hc hn
  rw [not_or] at hn
  have hm : m = .write := hc.resolve_right hn.2
  refine ⟨?_, x, hx, hm ▸ hat⟩
  cases hty : lock.type with
  | read => rfl
  | write => exact absurd hty hn.1

/-- During a cascade over `k`: every admitted waiter of the object is a candidate still to be
considered or lies in a span still to be examined. -/
structure Waking (k : ObjectKey) (ws : List Waiter) (i : Nat) (t : LockTable) : Prop where
  acyclic : t.space.Acyclic Clash
  uniform : t.Uniform
  ready : i ≤ t.pendingWake.length
  pending : ∀ w, t.Queued w → w.lock.object = k →
    (t.objectLocked w.lock.object).Admits w.lock (some w.seq) →
    w ∈ ws ∨ ∃ j r, i ≤ j ∧ t.pendingWake[j]? = some r ∧ overlaps w.lock.range r.span = true

variable {ws : List Waiter} {i : Nat} {extra : List WakeRequest}

/-- What one step of the cascade may change: the space grows no edge, the queue shrinks, and a
waiter that becomes admitted overlaps a span that was added. -/
theorem Waking.next (h : Waking k (w :: ws) i t)
    (hpend : t'.pendingWake = t.pendingWake ++ extra) (hac : t'.space.Acyclic Clash)
    (hq : ∀ y, t'.Queued y → t.Queued y ∧ y ≠ w)
    (hadm : ∀ y, t'.Queued y → (t'.objectLocked y.lock.object).Admits y.lock (some y.seq) →
      (t.objectLocked y.lock.object).Admits y.lock (some y.seq) ∨
        ∃ r ∈ extra, overlaps y.lock.range r.span = true) : Waking k ws i t' where
  acyclic := hac
  uniform := h.uniform.mono fun y hy => (hq y hy).1
  ready := by
    rw [hpend, List.length_append]
    have := h.ready
    omega
  pending y hy hk had := by
    obtain ⟨hyq, hne⟩ := hq y hy
    rcases hadm y hy had with had | ⟨r, hr, hov⟩
    · rcases h.pending y hyq hk had with hm | ⟨j, r, hj, hr, hov⟩
      · exact .inl ((List.mem_cons.mp hm).resolve_left hne)
      · refine .inr ⟨j, r, hj, ?_, hov⟩
        rw [hpend, List.getElem?_append_left]
        · exact hr
        · exact (List.getElem?_eq_some_iff.mp hr).1
    · obtain ⟨n, hn, rfl⟩ := List.mem_iff_getElem.mp hr
      refine .inr ⟨t.pendingWake.length + n, extra[n], ?_, ?_, hov⟩
      · have := h.ready
        omega
      · rw [hpend, List.getElem?_append_right (by omega)]
        simp [hn]

theorem SameCore.space (h : SameCore t t') : t'.space = t.space :=
  space_congr (fun k => by rw [h.objectLocked]) h.queued

variable {y : Waiter}

/-- What becomes admitted while coverage recedes overlaps a lost byte or a waiter that left. -/
theorem admits_or_of_recedes (hi : Inv none t) (hi' : Inv none t')
    (h : LockSpace.Recedes t.space t'.space) (hy : t'.Queued y)
    (had : (t'.objectLocked y.lock.object).Admits y.lock (some y.seq)) :
    (t.objectLocked y.lock.object).Admits y.lock (some y.seq) ∨ (∃ x ∈ y.lock.range, ∃ owner ty,
        HeldAt (t.objectLocked y.lock.object).held.values owner ty x ∧
        ¬ HeldAt (t'.objectLocked y.lock.object).held.values owner ty x) ∨
      ∃ w, t.Queued w ∧ ¬ t'.Queued w ∧ w.lock.object = y.lock.object ∧
        overlaps y.lock.range w.lock.range = true := by
  have hv := hi'.queued_valid hy
  rw [← eligible_request_iff hi hv]
  rw [← eligible_request_iff hi' hv] at had
  rcases h.eligible_or had with he | ⟨p, hp, ⟨o, hne⟩ | ⟨_, ⟨w, hw, rfl⟩, hnot, hpw⟩⟩
  · exact .inl he
  · right
    left
    obtain ⟨x, hx, rfl⟩ := Lock.mem_region.mp hp
    refine ⟨x, hx, o, ?_⟩
    cases hm : t.space.mode o (y.lock.point x) with
    | none =>
      rw [hm] at hne
      obtain ⟨m', hm'⟩ := Option.ne_none_iff_exists'.mp hne
      obtain ⟨_, hm'', _⟩ := h.mode o _ m' hm'
      rw [hm] at hm''
      exact absurd hm'' nofun
    | some m =>
      obtain ⟨hf, hh⟩ := (space_mode_eq_some hi).mp hm
      refine ⟨m, hh, fun hh' => hne ?_⟩
      rw [hm]
      exact (space_mode_eq_some hi').mpr ⟨hf, hh'⟩
  · right
    right
    obtain ⟨hobj, hov⟩ := region_overlap hp hpw
    exact ⟨w, hw, fun hw' => hnot ⟨w, hw', rfl⟩, hobj.symm, hov⟩

/-- In an acyclic table a grant admits a queued request only by weakening coverage under it. -/
theorem admits_or_of_grants (hi : Inv none t) (hi' : Inv none t')
    {seq : Nat} (hv : lock.range.start ≤ lock.range.stop) (hac : t.space.Acyclic Clash)
    (h : LockSpace.Grants Clash t.space t'.space ⟨lock.owner, lock.type, lock.region, seq⟩)
 (hy : t'.Queued y) (had : (t'.objectLocked y.lock.object).Admits y.lock (some y.seq)) :
    (t.objectLocked y.lock.object).Admits y.lock (some y.seq) ∨
      (planAcquireLocked (some (t.objectLocked lock.object)) lock).weakens = true ∧
        y.lock.object = lock.object ∧ overlaps y.lock.range lock.range = true := by
  have hvy := hi'.queued_valid hy
  rw [← eligible_request_iff hi hvy]
  rw [← eligible_request_iff hi' hvy] at had
  rcases h.eligible_or Clash.symm Clash.mono hac ⟨y, hy, rfl⟩ had with
    he | ⟨p, hp, hpq, _, m, hm, hc, hn⟩
  · exact .inl he
  · exact .inr ⟨weakens_of_clash hi hv hpq hm hc hn, region_overlap hp hpq⟩

theorem overlaps_within {a b c : LockRange} (h : overlaps a b = true) (hw : Within b c) :
    overlaps a c = true := by
  rw [overlaps_iff] at h ⊢
  obtain ⟨h1, h2⟩ := hw
  omega

private theorem Waking.leave (hi : Inv none t) (h : Waking k (w :: ws) i t)
    (hq : t.Queued w) (err : Option LockError) (hcore : SameCore (retireWaiter err t w) t')
    (hpend : t'.pendingWake = t.pendingWake ++ [⟨w.lock.object, w.lock.range⟩]) :
    Waking k ws i t' := by
  have hrec := recedes_retire hi hq err
  have hqueued : ∀ y, t'.Queued y ↔ t.Queued y ∧ y ≠ w := by
    intro y
    rw [hcore.queued, queued_retire hi hq]
  apply h.next hpend
  · rw [hcore.space]
    exact h.acyclic.mono fun a b => hrec.waitsFor Clash.mono
  · exact fun y hy => (hqueued y).mp hy
  intro y hy had
  rw [hcore.objectLocked] at had
  rcases admits_or_of_recedes hi (hi.retire hq err) hrec ((hcore.queued y).mp hy) had with
    had | ⟨x, _, owner, ty, hh, hn⟩ | ⟨w', hw', hgone, _, hov⟩
  · exact .inl had
  · exact absurd hh (held_retire hi hq err _ ▸ hn)
  right
  refine ⟨_, List.mem_singleton_self _, ?_⟩
  rw [queued_retire hi hq] at hgone
  have hww : w' = w := by
    by_contra hne
    exact hgone ⟨hw', hne⟩
  exact hww ▸ hov

private theorem Waking.serve (hi : Inv none t) (h : Waking k (w :: ws) i t)
    (hq : t.Queued w) (hlive : t.leaseLive w.lock.owner.session = true)
    (hadm : (t.objectLocked w.lock.object).Admits w.lock (some w.seq))
    (hlim : (retireWaiter none t w).exceedsLimits w.lock.owner.session (t.grantPlan w) = false)
    (hcore : SameCore (t.granted w) t')
    (hpend : t'.pendingWake = t.pendingWake ++ extra)
    (hweak : (t.grantPlan w).weakens = true → ∃ r ∈ extra, Within w.lock.range r.span) :
    Waking k ws i t' := by
  have hi' := hi.granted hq hlive hadm hlim
  have hgr := grants_granted hi hq hlive hadm hlim h.uniform
  apply h.next hpend
  · rw [hcore.space]
    exact h.acyclic.mono fun a b => hgr.waitsFor Clash.symm Clash.mono
  · intro y hy
    exact (queued_granted hi hq y).mp ((hcore.queued y).mp hy)
  intro y hy had
  rw [hcore.objectLocked] at had
  refine (admits_or_of_grants hi hi' (hi.queued_valid hq) h.acyclic hgr
    ((hcore.queued y).mp hy) had).imp_right ?_
  rintro ⟨hw, _, hov⟩
  obtain ⟨r, hr, hin⟩ := hweak hw
  exact ⟨r, hr, overlaps_within hov hin⟩

theorem Waking.step (hi : Inv none t) (hc : Considered w t t')
    (h : Waking k (w :: ws) i t) : Waking k ws i t' := by
  cases hc with
  | pass hpass =>
    refine ⟨h.acyclic, h.uniform, h.ready, fun y hy hk had => ?_⟩
    refine (h.pending y hy hk had).imp_left fun hm => ?_
    rcases List.mem_cons.mp hm with rfl | hm
    · exact absurd had (hpass hy)
    · exact hm
  | expire hq hlive =>
    refine h.leave hi hq (some .sessionExpired)
      ((sameCore_enqueueWake _ _ _).trans (sameCore_prune _ _)) ?_
    rw [pendingWake_prune, pendingWake_enqueueWake, pendingWake_retire]
  | refuse hq hlive hadm =>
    refine h.leave hi hq (some .admission) (sameCore_enqueueWake _ _ _) ?_
    rw [pendingWake_enqueueWake, pendingWake_retire]
  | grant hq hlive hadm hlim =>
    have hin : Within w.lock.range (t.grantPlan w).touched := planAcquire_touched _ w.lock
    split
    · apply h.serve hi hq hlive hadm hlim (sameCore_enqueueWake _ _ _)
      · rw [pendingWake_enqueueWake, pendingWake_granted, pendingWake_retire]
      · exact fun _ => ⟨_, List.mem_singleton_self _, hin⟩
    · next hnot =>
      have hpend : (t.granted w).pendingWake = t.pendingWake ++ [] := by
        rw [List.append_nil, pendingWake_granted, pendingWake_retire]
      exact h.serve hi hq hlive hadm hlim (.refl _) hpend fun hw => absurd hw hnot

/-- The waiter is queued and nothing stands in its way any more. -/
def Ready (t : LockTable) (w : Waiter) : Prop :=
  t.Queued w ∧ (t.objectLocked w.lock.object).Admits w.lock (some w.seq)

theorem SameCore.ready (h : SameCore t t') (w : Waiter) : t'.Ready w ↔ t.Ready w := by
  unfold Ready
  rw [h.queued, h.objectLocked]

theorem SameElsewhere.ready (h : SameElsewhere k t t')
    (hk : w.lock.object ≠ k) : t'.Ready w ↔ t.Ready w := by
  unfold Ready Queued
  rw [admits_congr (h _ hk)]

private theorem Waking.request {r : WakeRequest} (hi : Inv none t) (hr : t.pendingWake[i]? = some r)
    (h : Waking k [] i t) : Waking k (t.candidates k r.span) (i + 1) t := by
  have hlt := (List.getElem?_eq_some_iff.mp hr).1
  refine ⟨h.acyclic, h.uniform, hlt, fun w hq hk had => ?_⟩
  rcases h.pending w hq hk had with hm | ⟨n, r', hn, hr', hov⟩
  · exact absurd hm List.not_mem_nil
  · by_cases hni : n = i
    · obtain rfl : r = r' := Option.some.inj (hr.symm.trans (hni ▸ hr'))
      exact .inl ((mem_candidates hi k r.span w).mpr ⟨hq, hk, hov⟩)
    · exact .inr ⟨n, r', by omega, hr', hov⟩

private theorem sameCore_flags (t : LockTable) (pendingWake : List WakeRequest) (waking : Bool) :
    SameCore t { t with pendingWake, waking } :=
  ⟨fun _ => rfl, fun _ _ => rfl, rfl, rfl, rfl, rfl, rfl, le_rfl, rfl, rfl⟩

/-- A cascade over a span that meets every ready waiter of the object leaves none ready. -/
theorem wakeEligible_serves (hi : Inv none t) (hidle : t.Idle)
    (hac : t.space.Acyclic Clash) (huni : t.Uniform) (k : ObjectKey) (span : LockRange)
    (hspan : ∀ w, t.Ready w → w.lock.object = k → overlaps w.lock.range span = true) :
    (t.wakeEligibleLocked k span).space.Acyclic Clash ∧ (t.wakeEligibleLocked k span).Uniform ∧
      ∀ w, (t.wakeEligibleLocked k span).Ready w → t.Ready w ∧ w.lock.object ≠ k := by
  have hstart : Waking k [] 0 { t.enqueueWake k span with waking := true } := by
    have hcore := sameCore_flags t (t.enqueueWake k span).pendingWake true
    refine ⟨?_, ?_, Nat.zero_le _, fun w hq hk had => ?_⟩
    · exact hcore.space ▸ hac
    · exact huni.mono fun w hw => (hcore.queued w).mp hw
    · refine .inr ⟨0, ⟨k, span⟩, Nat.le_refl 0, ?_, hspan w ⟨hq, had⟩ hk⟩
      simp [enqueueWake, hidle.pendingWake]
  obtain ⟨t₁, j, hi₁, hj, hp, heq⟩ := wakeEligible_induct
    (fun i t r hi hr h => h.request hi hr) (fun w ws i t t' hi _ hc h => h.step hi hc) hi
    hidle.waking hidle.pendingWake hstart
  have hfinal := sameCore_flags t₁ [] false
  have helse := (wakeEligible_spec k span hi hidle).2.2.1
  have hsettled : ∀ w, t₁.Ready w → w.lock.object ≠ k := by
    rintro w ⟨hq, had⟩ hk
    rcases hp.pending w hq hk had with hm | ⟨n, r, hn, hr, _⟩
    · exact absurd hm List.not_mem_nil
    · have := (List.getElem?_eq_some_iff.mp hr).1
      omega
  refine ⟨?_, ?_, fun w hw => ?_⟩
  · rw [heq, hfinal.space]
    exact hp.acyclic
  · rw [heq]
    exact hp.uniform.mono fun w hw => (hfinal.queued w).mp hw
  · have hk : w.lock.object ≠ k := by
      rw [heq, hfinal.ready] at hw
      exact hsettled w hw
    exact ⟨(helse.ready hk).mp hw, hk⟩

end LockTable
end PortableFS.Locks
