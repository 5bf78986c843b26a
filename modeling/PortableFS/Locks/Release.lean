import PortableFS.Locks.Operations

/-!
# Dropping what sessions own

Module `volumeserver`, `vcs/internal/volumeserver/locks.go:409–470,610–640`. `InterruptWaiters`
empties the queues. `ReleaseSession` retires the waiters of one session, drops its records,
and wakes the spans it touched; the touched spans contain everything that was dropped.
-/

namespace PortableFS.Locks

open PortableFS.Base List

namespace LockTable

variable {t : LockTable}

theorem SameCore.trans {t' t'' : LockTable} (h : SameCore t t') (h' : SameCore t' t'') :
    SameCore t t'' where
  objectLocked k := (h'.objectLocked k).trans (h.objectLocked k)
  count p q := (h'.count p q).trans (h.count p q)
  sessions := h'.sessions.trans h.sessions
  waiters := h'.waiters.trans h.waiters
  held := h'.held.trans h.held
  waiting := h'.waiting.trans h.waiting
  nextID := h'.nextID.trans h.nextID
  nextSeq := Nat.le_trans h.nextSeq h'.nextSeq
  maxRecords := h'.maxRecords.trans h.maxRecords
  maxPerSession := h'.maxPerSession.trans h.maxPerSession

theorem sameCore_prune_all (keys : List ObjectKey) (t : LockTable) :
    SameCore t (keys.foldl pruneObjectLocked t) := by
  induction keys generalizing t with
  | nil => exact .refl t
  | cons k ks ih => exact (sameCore_prune t k).trans (ih _)

/-- Pruning every object that may be empty ends in order. -/
theorem prune_all (keys : List ObjectKey) (hi : Inv none t) (hidle : t.Idle)
    (hocc : ∀ k, k ∉ keys → ∀ o, t.objects.lookup k = some o →
      ¬ (o.held.size = 0 ∧ o.waiting.size = 0)) :
    (keys.foldl pruneObjectLocked t).Good := by
  induction keys generalizing t with
  | nil => exact ⟨hi, hidle, fun k => hocc k not_mem_nil⟩
  | cons k ks ih =>
    apply ih (hi.same (sameCore_prune t k)) (idle_prune hidle k)
    intro k' hk' o ho
    by_cases hk : k' = k
    · rw [hk] at ho
      exact occupied_of_prune ho
    · rw [sameElsewhere_prune t k k' hk] at ho
      exact hocc k' (by simp [hk, hk']) o ho

theorem idle_retire (h : t.Idle) (err : Option LockError) (w : Waiter) :
    (retireWaiter err t w).Idle := by
  constructor
  · change (t.removeWaiterLocked w).waking = false
    unfold removeWaiterLocked
    repeat' split
    all_goals exact h.waking
  · change (t.removeWaiterLocked w).pendingWake = []
    unfold removeWaiterLocked
    repeat' split
    all_goals exact h.pendingWake

/-- Retiring distinct queued waiters one by one. -/
theorem retire_all {dead : Option SessionID} (err : Option LockError) (ws : List Waiter)
    (hi : Inv dead t) (hidle : t.Idle) (hn : ws.Nodup) (hq : ∀ w ∈ ws, t.Queued w) :
    Inv dead (ws.foldl (retireWaiter err) t) ∧ (ws.foldl (retireWaiter err) t).Idle ∧
      (∀ w, (ws.foldl (retireWaiter err) t).Queued w ↔ t.Queued w ∧ w ∉ ws) ∧
      (∀ k, ((ws.foldl (retireWaiter err) t).objectLocked k).held = (t.objectLocked k).held) ∧
      ∀ k, k ∉ ws.map (fun w => w.lock.object) →
        (ws.foldl (retireWaiter err) t).objects.lookup k = t.objects.lookup k := by
  induction ws generalizing t with
  | nil => exact ⟨hi, hidle, by simp, fun _ => rfl, fun _ _ => rfl⟩
  | cons w ws ih =>
    obtain ⟨hnw, hn⟩ := nodup_cons.mp hn
    have hqw := hq w mem_cons_self
    have hq' : ∀ w' ∈ ws, (retireWaiter err t w).Queued w' := by
      intro w' hw'
      refine (queued_retire hi hqw err w').mpr ⟨hq w' (mem_cons_of_mem w hw'), ?_⟩
      rintro rfl
      exact hnw hw'
    obtain ⟨h1, h2, h3, h4, h5⟩ := ih (hi.retire hqw err) (idle_retire hidle err w) hn hq'
    refine ⟨h1, h2, ?_, ?_, ?_⟩
    · intro w'
      rw [foldl_cons, h3, queued_retire hi hqw, mem_cons]
      tauto
    · intro k
      rw [foldl_cons, h4, held_retire hi hqw]
    · intro k hk
      rw [map_cons, mem_cons, not_or] at hk
      rw [foldl_cons, h5 k hk.2]
      exact sameElsewhere_retire err t w k hk.1

/-- All waiters of all sessions. -/
def allWaiters (t : LockTable) : List Waiter := t.sessions.entries.flatMap fun e => e.2.waiters

/-- The sessions' waiter sets together are the queues. -/
theorem mem_allWaiters (hi : Inv none t) (w : Waiter) : w ∈ t.allWaiters ↔ t.Queued w := by
  unfold allWaiters
  rw [mem_flatMap]
  constructor
  · rintro ⟨⟨id, s⟩, he, hw⟩
    exact ((hi.session id s ((Assoc.mem_entries_iff _ _ _).mp he)).waiters w).mp hw |>.1
  · intro hq
    rcases hi.waiting_known w hq with hs | hd
    · obtain ⟨s, hs⟩ := Option.ne_none_iff_exists'.mp hs
      refine ⟨⟨_, s⟩, (Assoc.mem_entries_iff _ _ _).mpr hs, ?_⟩
      exact ((hi.session _ s hs).waiters w).mpr ⟨hq, rfl⟩
    · simp at hd

theorem nodup_allWaiters (hi : Inv none t) : t.allWaiters.Nodup := by
  unfold allWaiters
  rw [nodup_flatMap]
  constructor
  · rintro ⟨id, s⟩ he
    exact (hi.session id s ((Assoc.mem_entries_iff _ _ _).mp he)).nodup
  · have hkeys := nodupKeys_iff_pairwise.mp t.sessions.nodupKeys
    apply hkeys.imp_of_mem
    rintro ⟨id, s⟩ ⟨id', s'⟩ he he' hne w hw hw'
    have h1 := ((hi.session id s ((Assoc.mem_entries_iff _ _ _).mp he)).waiters w).mp hw
    have h2 := ((hi.session id' s' ((Assoc.mem_entries_iff _ _ _).mp he')).waiters w).mp hw'
    exact hne (h1.2.symm.trans h2.2)

/-- `interruptWaiters` empties every queue, keeps every record and ends in order. -/
theorem interruptWaiters_spec (hg : t.Good) (err : Option LockError) :
    (t.interruptWaiters err).Good ∧ (∀ w, ¬ (t.interruptWaiters err).Queued w) ∧
      ∀ k, ((t.interruptWaiters err).objectLocked k).held = (t.objectLocked k).held := by
  obtain ⟨h1, h2, h3, h4, h5⟩ := retire_all (some (err.getD .sessionExpired)) t.allWaiters hg.inv
    hg.idle (nodup_allWaiters hg.inv) fun w hw => (mem_allWaiters hg.inv w).mp hw
  have h6 := prune_all (t.allWaiters.map fun w => w.lock.object).dedup h1 h2 (by
    intro k hk o ho
    rw [mem_dedup] at hk
    exact hg.tidy k o ((h5 k hk).symm.trans ho))
  have h7 := sameCore_prune_all (t.allWaiters.map fun w => w.lock.object).dedup
    (t.allWaiters.foldl (retireWaiter (some (err.getD .sessionExpired))) t)
  have heq : t.interruptWaiters err = (t.allWaiters.map fun w => w.lock.object).dedup.foldl
      pruneObjectLocked (t.allWaiters.foldl (retireWaiter (some (err.getD .sessionExpired))) t) :=
    rfl
  rw [heq]
  refine ⟨h6, ?_, ?_⟩
  · intro w hw
    rw [h7.queued, h3] at hw
    exact hw.2 ((mem_allWaiters hg.inv w).mpr hw.1)
  · intro k
    rw [h7.objectLocked, h4]

/-- The range lies in the touched span of its object. -/
def Spanned (touched : Assoc ObjectKey LockRange) (k : ObjectKey) (r : LockRange) : Prop :=
  ∃ span, touched.lookup k = some span ∧ Within r span

theorem spanned_extendTouched (touched : Assoc ObjectKey LockRange) (k : ObjectKey)
    (r : LockRange) : Spanned (extendTouched touched k r) k r := by
  unfold extendTouched Spanned
  split
  · next current _ =>
    rw [AList.lookup_insert]
    exact ⟨_, rfl, within_coverRange_right current r⟩
  · rw [AList.lookup_insert]
    exact ⟨r, rfl, le_rfl, le_rfl⟩

variable {touched : Assoc ObjectKey LockRange} {k' : ObjectKey}

theorem Spanned.extendTouched {r' : LockRange} (h : Spanned touched k' r') (k : ObjectKey)
    (r : LockRange) : Spanned (extendTouched touched k r) k' r' := by
  obtain ⟨span, hs, hw⟩ := h
  unfold LockTable.extendTouched Spanned
  split
  · next current hc =>
    rw [Assoc.lookup_insert_eq]
    split
    · next hk =>
      rw [hk, hc] at hs
      cases hs
      exact ⟨_, rfl, hw.trans (within_coverRange_left _ r)⟩
    · exact ⟨span, hs, hw⟩
  · next hn =>
    rw [Assoc.lookup_insert_eq]
    split
    · next hk =>
      rw [hk, hn] at hs
      simp at hs
    · exact ⟨span, hs, hw⟩

variable {k : ObjectKey}

theorem Spanned.of_lookup_none
    {r : LockRange} (h : (LockTable.extendTouched touched k r).lookup k' = none) :
    touched.lookup k' = none ∧ k' ≠ k := by
  have hk : k' ≠ k := by
    rintro rfl
    obtain ⟨span, hs, _⟩ := spanned_extendTouched touched k' r
    simp [hs] at h
  refine ⟨?_, hk⟩
  unfold LockTable.extendTouched at h
  split at h <;> rwa [Assoc.lookup_insert_eq, if_neg hk] at h

/-- Part of what the session owned in `t` is gone, and lies in the touched spans. -/
structure Releasing (id : SessionID) (t : LockTable)
    (st : LockTable × Assoc ObjectKey LockRange) : Prop where
  inv : Inv (some id) st.1
  idle : st.1.Idle
  untouched : ∀ k, st.2.lookup k = none → st.1.objects.lookup k = t.objects.lookup k
  queue_sub : ∀ w, st.1.Queued w → t.Queued w
  queue_gone : ∀ w, t.Queued w → ¬ st.1.Queued w →
    w.lock.owner.session = id ∧ Spanned st.2 w.lock.object w.lock.range
  held_sub : ∀ k, ∀ l ∈ (st.1.objectLocked k).held.values, l ∈ (t.objectLocked k).held.values
  held_gone : ∀ k, ∀ l ∈ (t.objectLocked k).held.values,
    l ∉ (st.1.objectLocked k).held.values → l.owner.session = id ∧ Spanned st.2 k l.range

section Releasing

variable {id : SessionID} {t : LockTable} {st : LockTable × Assoc ObjectKey LockRange}

/-- Retiring a waiter of the session; `locks.go:435–442`. -/
theorem Releasing.retire (h : Releasing id t st) {w : Waiter} (hq : st.1.Queued w)
    (hid : w.lock.owner.session = id) (err : Option LockError) :
    Releasing id t (retireWaiter err st.1 w, extendTouched st.2 w.lock.object w.lock.range) where
  inv := h.inv.retire hq err
  idle := idle_retire h.idle err w
  untouched k hk := by
    obtain ⟨hk, hne⟩ := Spanned.of_lookup_none hk
    exact (sameElsewhere_retire err st.1 w k hne).trans (h.untouched k hk)
  queue_sub w' hw' := h.queue_sub w' ((queued_retire h.inv hq err w').mp hw').1
  queue_gone w' hw' hn := by
    by_cases hq' : st.1.Queued w'
    · obtain rfl : w' = w := by
        by_contra hne
        exact hn ((queued_retire h.inv hq err w').mpr ⟨hq', hne⟩)
      exact ⟨hid, spanned_extendTouched _ _ _⟩
    · obtain ⟨h1, h2⟩ := h.queue_gone w' hw' hq'
      exact ⟨h1, h2.extendTouched _ _⟩
  held_sub k l hl := by
    dsimp only at hl
    rw [held_retire h.inv hq] at hl
    exact h.held_sub k l hl
  held_gone k l hl hn := by
    dsimp only at hn
    rw [held_retire h.inv hq] at hn
    obtain ⟨h1, h2⟩ := h.held_gone k l hl hn
    exact ⟨h1, h2.extendTouched _ _⟩

/-- What is left in `st'` was there in `st`. -/
structure Shrinks (st st' : LockTable × Assoc ObjectKey LockRange) : Prop where
  queue : ∀ w, st'.1.Queued w → st.1.Queued w
  held : ∀ k, ∀ l ∈ (st'.1.objectLocked k).held.values, l ∈ (st.1.objectLocked k).held.values

theorem Shrinks.refl (st : LockTable × Assoc ObjectKey LockRange) : Shrinks st st :=
  ⟨fun _ h => h, fun _ _ h => h⟩

theorem Shrinks.trans {st st' st'' : LockTable × Assoc ObjectKey LockRange} (h : Shrinks st st')
    (h' : Shrinks st' st'') : Shrinks st st'' :=
  ⟨fun w hw => h.queue w (h'.queue w hw), fun k l hl => h.held k l (h'.held k l hl)⟩

variable {e : Entry Lock}

private theorem shrinks_dropRecord (h : Releasing id t st) {e : Entry Lock}
    (he : e ∈ (st.1.objectLocked k).held.entries) : Shrinks st (dropRecord k st e) :=
  ⟨fun w hw => (queued_withoutRecord st.1 k e w).mp hw,
    fun _ _ hl => mem_of_mem_withoutRecord h.inv he hl⟩

/-- Dropping a record of the session; `locks.go:457–461`. -/
theorem Releasing.drop (h : Releasing id t st)
    (he : e ∈ (st.1.objectLocked k).held.entries) (hid : e.value.owner.session = id) :
    Releasing id t (dropRecord k st e) := by
  have hp := entries_remove_of_mem (h.inv.object k).ids.nodup he
  have hobj : ∀ k', ((dropRecord k st e).1.objectLocked k') = if k' = k then
      { st.1.objectLocked k with
        held := ((st.1.objectLocked k).held.remove e.start e.stop e.id).1 }
      else st.1.objectLocked k' := objectLocked_withoutRecord st.1 k e
  constructor
  · exact h.inv.withoutRecord he hid
  · exact ⟨h.idle.waking, h.idle.pendingWake⟩
  · intro k' hk'
    obtain ⟨hk', hne⟩ := Spanned.of_lookup_none hk'
    exact ((Assoc.lookup_insert_eq _ _ _ _).trans (if_neg hne)).trans (h.untouched k' hk')
  · intro w hw
    exact h.queue_sub w ((shrinks_dropRecord h he).queue w hw)
  · intro w hw hn
    have hn' : ¬ st.1.Queued w := fun hq => hn ((queued_withoutRecord st.1 k e w).mpr hq)
    obtain ⟨h1, h2⟩ := h.queue_gone w hw hn'
    exact ⟨h1, h2.extendTouched _ _⟩
  · intro k' l hl
    exact h.held_sub k' l ((shrinks_dropRecord h he).held k' l hl)
  · intro k' l hl hn
    by_cases hm : l ∈ (st.1.objectLocked k').held.values
    · rw [hobj] at hn
      split at hn
      · next hk =>
        subst hk
        -- the only record of the object that disappeared is the dropped one
        obtain ⟨x, hx, rfl⟩ := mem_map.mp hm
        rcases mem_cons.mp (hp.mem_iff.mp hx) with rfl | hx
        · exact ⟨hid, spanned_extendTouched _ _ _⟩
        · exact absurd (mem_map.mpr ⟨x, hx, rfl⟩) hn
      · exact absurd hm hn
    · obtain ⟨h1, h2⟩ := h.held_gone k' l hl hm
      exact ⟨h1, h2.extendTouched _ _⟩

private theorem releasing_waiters (ws : List Waiter) (h : Releasing id t st) (hn : ws.Nodup)
    (hq : ∀ w ∈ ws, st.1.Queued w ∧ w.lock.owner.session = id) (err : Option LockError) :
    let st' := ws.foldl (fun (st : LockTable × Assoc ObjectKey LockRange) w =>
      (retireWaiter err st.1 w, extendTouched st.2 w.lock.object w.lock.range)) st
    Releasing id t st' ∧ Shrinks st st' ∧ ∀ w ∈ ws, ¬ st'.1.Queued w := by
  induction ws generalizing st with
  | nil => exact ⟨h, .refl st, by simp⟩
  | cons w ws ih =>
    obtain ⟨hnw, hn⟩ := nodup_cons.mp hn
    obtain ⟨hqw, hid⟩ := hq w mem_cons_self
    have hqueued := queued_retire h.inv hqw err
    obtain ⟨h1, h2, h3⟩ := ih (h.retire hqw hid err) hn (by
      intro w' hw'
      obtain ⟨hq', hid'⟩ := hq w' (mem_cons_of_mem w hw')
      refine ⟨(hqueued w').mpr ⟨hq', ?_⟩, hid'⟩
      rintro rfl
      exact hnw hw')
    have hs : Shrinks st
        (retireWaiter err st.1 w, extendTouched st.2 w.lock.object w.lock.range) := by
      refine ⟨fun w' hw' => ((hqueued w').mp hw').1, fun k l hl => ?_⟩
      dsimp only at hl
      rwa [held_retire h.inv hqw] at hl
    refine ⟨h1, hs.trans h2, ?_⟩
    intro w' hw' hq'
    rcases mem_cons.mp hw' with rfl | hw'
    · exact ((hqueued w').mp (h2.queue w' hq')).2 rfl
    · exact h3 w' hw' hq'

private theorem releasing_entries (k : ObjectKey) (es : List (Entry Lock)) (h : Releasing id t st)
    (hn : es.Nodup)
    (he : ∀ e ∈ es, e ∈ (st.1.objectLocked k).held.entries ∧ e.value.owner.session = id) :
    let st' := es.foldl (dropRecord k) st
    Releasing id t st' ∧ Shrinks st st' ∧
      (st.1.objectLocked k).held.entries.Perm (es ++ (st'.1.objectLocked k).held.entries) := by
  induction es generalizing st with
  | nil => exact ⟨h, .refl st, List.Perm.refl _⟩
  | cons e es ih =>
    obtain ⟨hne, hn⟩ := nodup_cons.mp hn
    obtain ⟨hm, hid⟩ := he e mem_cons_self
    have hp := entries_remove_of_mem (h.inv.object k).ids.nodup hm
    have hentries : (dropRecord k st e).1.objectLocked k =
        { st.1.objectLocked k with
          held := ((st.1.objectLocked k).held.remove e.start e.stop e.id).1 } :=
      (objectLocked_withoutRecord st.1 k e k).trans (if_pos rfl)
    obtain ⟨h1, h2, h3⟩ := ih (h.drop hm hid) hn (by
      intro e' he'
      obtain ⟨hm', hid'⟩ := he e' (mem_cons_of_mem e he')
      refine ⟨?_, hid'⟩
      rw [hentries]
      rcases mem_cons.mp (hp.mem_iff.mp hm') with rfl | hm'
      · exact absurd he' hne
      · exact hm')
    refine ⟨h1, (shrinks_dropRecord h hm).trans h2, hp.trans ?_⟩
    rw [hentries] at h3
    exact h3.cons e

private theorem releasing_object (h : Releasing id t st) (k : ObjectKey) :
    Releasing id t (dropRecords id st k) ∧ Shrinks st (dropRecords id st k) ∧
      ∀ l ∈ ((dropRecords id st k).1.objectLocked k).held.values, l.owner.session ≠ id := by
  unfold dropRecords
  cases ho : st.1.objects.lookup k with
  | none =>
    refine ⟨h, .refl st, ?_⟩
    have hempty : st.1.objectLocked k = .empty := by simp [objectLocked, ho]
    simp [hempty, ObjectLocks.empty]
  | some o =>
    have hobj := objectLocked_of_lookup ho
    have hok := h.inv.object k
    rw [hobj] at hok
    have hmem : ∀ e, e ∈ o.held.collect 0 maxUint64 (fun e => decide (e.value.owner.session = id)) ↔
        e ∈ o.held.entries ∧ e.value.owner.session = id := by
      intro e
      rw [IntervalTree.mem_collect, decide_eq_true_eq]
      constructor
      · rintro ⟨h1, _, _, h2⟩
        exact ⟨h1, h2⟩
      · rintro ⟨h1, h2⟩
        have hle := e.value.range.start_le
        rw [← (hok.indexed.held e h1).1] at hle
        exact ⟨h1, hle, Nat.zero_le _, h2⟩
    have hn : (o.held.collect 0 maxUint64 fun e => decide (e.value.owner.session = id)).Nodup := by
      rw [IntervalTree.collect_eq]
      exact (hok.ids.nodup.of_map.filter _).filter _
    obtain ⟨h1, h2, h3⟩ := releasing_entries k _ h hn fun e he => hobj ▸ (hmem e).mp he
    refine ⟨h1, h2, ?_⟩
    intro l hl hid
    obtain ⟨e, he, rfl⟩ := mem_map.mp hl
    -- an entry of the session that stayed would occur twice in the index
    have hall := (h3.map Entry.id).nodup_iff.mp (h.inv.object k).ids.nodup
    rw [map_append, nodup_append] at hall
    have hin : e ∈ (st.1.objectLocked k).held.entries :=
      h3.mem_iff.mpr (mem_append_right _ he)
    have hdoomed := (hmem e).mpr ⟨hobj ▸ hin, hid⟩
    exact hall.2.2 e.id (mem_map.mpr ⟨e, hdoomed, rfl⟩) e.id (mem_map.mpr ⟨e, he, rfl⟩) rfl

private theorem releasing_objects (keys : List ObjectKey) (h : Releasing id t st) :
    let st' := keys.foldl (dropRecords id) st
    Releasing id t st' ∧ Shrinks st st' ∧
      ∀ k ∈ keys, ∀ l ∈ (st'.1.objectLocked k).held.values, l.owner.session ≠ id := by
  induction keys generalizing st with
  | nil => exact ⟨h, .refl st, by simp⟩
  | cons k ks ih =>
    obtain ⟨h1, h2, h3⟩ := releasing_object h k
    obtain ⟨h4, h5, h6⟩ := ih h1
    refine ⟨h4, h2.trans h5, ?_⟩
    intro k' hk' l hl
    rcases mem_cons.mp hk' with rfl | hk'
    · exact h3 l (h5.held k' l hl)
    · exact h6 k' hk' l hl

end Releasing

variable {id : SessionID} {s : LockSession}

/-- The session's waiters and records are gone from a whole table, and nothing else is. -/
theorem releaseRecords_spec (hg : t.Good) (hs : t.sessions.lookup id = some s) :
    Releasing id t (t.releaseRecords id s) ∧ Inv none (t.releaseRecords id s).1 ∧
      (∀ w, (t.releaseRecords id s).1.Queued w → w.lock.owner.session ≠ id) ∧
      ∀ k, ∀ l ∈ ((t.releaseRecords id s).1.objectLocked k).held.values, l.owner.session ≠ id := by
  have hok := hg.inv.session id s hs
  have hstart : Releasing id t ({ t with sessions := t.sessions.erase id }, ∅) :=
    ⟨hg.inv.unregister id, ⟨hg.idle.waking, hg.idle.pendingWake⟩, fun _ _ => rfl, fun _ h => h,
      fun _ h hn => absurd h hn, fun _ _ h => h, fun _ _ h hn => absurd h hn⟩
  obtain ⟨h1, h2, h3⟩ := releasing_waiters s.waiters hstart hok.nodup
    (fun w hw => (hok.waiters w).mp hw) (some .sessionExpired)
  obtain ⟨h4, h5, h6⟩ := releasing_objects s.objects.keys h1
  have hqueue : ∀ w, (t.releaseRecords id s).1.Queued w → w.lock.owner.session ≠ id := by
    intro w hw hid
    have hw1 := h5.queue w hw
    exact h3 w ((hok.waiters w).mpr ⟨h1.queue_sub w hw1, hid⟩) hw1
  have hheld : ∀ k, ∀ l ∈ ((t.releaseRecords id s).1.objectLocked k).held.values,
      l.owner.session ≠ id := by
    intro k l hl hid
    by_cases hk : k ∈ s.objects.keys
    · exact h6 k hk l hl hid
    -- an object outside the session's index holds no record of it
    have hnone : s.objects.lookup k = none := by
      by_contra hne
      exact hk ((Assoc.mem_keys_iff _ _).mpr (Option.ne_none_iff_exists'.mp hne))
    have hzero := hok.objects k
    rw [hnone, Option.getD_none, eq_comm, countP_eq_zero] at hzero
    exact hzero l (h4.held_sub k l hl) (by simp [ofSession, hid])
  exact ⟨h4, h4.inv.buried hheld hqueue, hqueue, hheld⟩

/-- Cascades over the touched spans, one object after the other; `locks.go:464–466`. -/
def wakeTouched (touched : Assoc ObjectKey LockRange) (t : LockTable) (object : ObjectKey) :
    LockTable :=
  match touched.lookup object with
  | none => t
  | some span => t.wakeEligibleLocked object span

/-- Cascades over several objects keep the invariant and leave all other objects. -/
theorem wakeTouched_all (touched : Assoc ObjectKey LockRange) (keys : List ObjectKey)
    (hi : Inv none t) (hidle : t.Idle) :
    Inv none (keys.foldl (wakeTouched touched) t) ∧ (keys.foldl (wakeTouched touched) t).Idle ∧
      ∀ k, k ∉ keys → (keys.foldl (wakeTouched touched) t).objects.lookup k =
        t.objects.lookup k := by
  induction keys generalizing t with
  | nil => exact ⟨hi, hidle, fun _ _ => rfl⟩
  | cons k ks ih =>
    have hone : Inv none (wakeTouched touched t k) ∧ (wakeTouched touched t k).Idle ∧
        SameElsewhere k t (wakeTouched touched t k) := by
      unfold wakeTouched
      split
      · exact ⟨hi, hidle, fun _ _ => rfl⟩
      · next span _ =>
        obtain ⟨h1, h2, h3, _⟩ := wakeEligible_spec k span hi hidle
        exact ⟨h1, h2, h3⟩
    obtain ⟨h1, h2, h3⟩ := ih hone.1 hone.2.1
    refine ⟨h1, h2, ?_⟩
    intro k' hk'
    rw [mem_cons, not_or] at hk'
    exact (h3 k' hk'.2).trans (hone.2.2 k' hk'.1)

/-- `releaseSession` spelled out: drop everything, wake the touched spans, prune. -/
theorem releaseSession_eq (hs : t.sessions.lookup id = some s) (hint : List ObjectKey) :
    t.releaseSession id hint = (t.releaseRecords id s).2.keys.foldl pruneObjectLocked
      ((arrange hint (t.releaseRecords id s).2.keys).foldl
        (wakeTouched (t.releaseRecords id s).2) (t.releaseRecords id s).1) := by
  unfold releaseSession
  rw [hs]
  rfl

/-- A call to `releaseSession` ends in order. -/
theorem Good.releaseSession (hg : t.Good) (id : SessionID)
    (hint : List ObjectKey) : (t.releaseSession id hint).Good := by
  cases hs : t.sessions.lookup id with
  | none =>
    unfold LockTable.releaseSession
    rw [hs]
    exact hg
  | some s =>
    obtain ⟨hrel, hi, _⟩ := releaseRecords_spec hg hs
    rw [releaseSession_eq hs]
    obtain ⟨h1, h2, h3⟩ := wakeTouched_all (t.releaseRecords id s).2
      (arrange hint (t.releaseRecords id s).2.keys) hi hrel.idle
    refine prune_all _ h1 h2 ?_
    intro k hk o ho
    have hk' : k ∉ arrange hint (t.releaseRecords id s).2.keys := by
      rwa [(arrange_perm _ _ (AList.keys_nodup _)).mem_iff]
    have hnone : (t.releaseRecords id s).2.lookup k = none := by
      by_contra hne
      exact hk ((Assoc.mem_keys_iff _ _).mpr (Option.ne_none_iff_exists'.mp hne))
    rw [h3 k hk', hrel.untouched k hnone] at ho
    exact hg.tidy k o ho

end LockTable
end PortableFS.Locks
