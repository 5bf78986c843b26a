import PortableFS.Locks.Mutations

/-!
# Sessions coming and going

Module `volumeserver`, `vcs/internal/volumeserver/locks.go:389–470`. Registering and renewing a
session keep the invariant. A release unregisters the session, drops its waiters and records
one by one while the session counts as dead, and ends in a whole table.
-/

namespace PortableFS.Locks

open PortableFS.Base List

namespace LockTable

variable {t : LockTable}

/-- Handing out a decided waiter under a fresh sequence number keeps the invariant. -/
theorem Inv.publishSettled {dead : Option SessionID} {w : Waiter}
    (hi : Inv dead t) (hfresh : ∀ seq s, t.waiters.lookup seq = some s → seq < w.seq)
    (hseq : w.seq ≤ t.nextSeq) (err : Option LockError) : Inv dead (t.publishSettled w err) := by
  constructor
  · exact hi.dead_gone
  · exact hi.object
  · intro w' hw'
    have hlook := hi.queued w' hw'
    have := hfresh _ _ hlook
    change (t.waiters.insert w.seq _).lookup w'.seq = _
    rw [Assoc.lookup_insert_eq, if_neg (by omega)]
    exact hlook
  · intro seq st hst
    change (t.waiters.insert w.seq _).lookup seq = _ at hst
    rw [Assoc.lookup_insert_eq] at hst
    split at hst
    · next h =>
      cases hst
      exact ⟨h ▸ hseq, fun hf => by simp at hf⟩
    · exact hi.pending seq st hst
  · exact hi.held_known
  · exact hi.waiting_known
  · intro id s hs
    obtain ⟨h1, h2, h3, h4, h5, h6⟩ := hi.session id s hs
    exact ⟨h1, h2, h3, h4, h5, h6⟩
  · exact hi.held_eq
  · exact hi.waiting_eq
  · exact hi.limit

variable {id : SessionID}

/-- Nothing is charged to a session that is not registered. -/
theorem Inv.count_unknown (hi : Inv none t) (hid : t.sessions.lookup id = none) :
    t.count (ofSession id) (fun w => ofSession id w.lock) = 0 := by
  have hunknown : ¬ t.Known none id := by
    rintro (hs | h)
    · exact hs hid
    · simp at h
  unfold count
  rw [Assoc.total_eq_zero_iff]
  intro k o ho
  have hobj := objectLocked_of_lookup ho
  unfold ObjectLocks.load
  rw [Nat.add_eq_zero_iff, countP_eq_zero, countP_eq_zero]
  constructor
  · intro l hl hof
    simp only [ofSession, decide_eq_true_eq] at hof
    exact hunknown (hof ▸ hi.held_known k l (hobj ▸ hl))
  · intro w hw hof
    simp only [ofSession, decide_eq_true_eq] at hof
    have hwk := (hi.object k).waiting_object w (hobj ▸ hw)
    refine hunknown (hof ▸ hi.waiting_known w ?_)
    unfold Queued
    rw [hwk, hobj]
    exact hw

/-- A session without charges has no record on any object. -/
theorem countP_held_of_count {p : Lock → Bool} {q : Waiter → Bool}
    (h : t.count p q = 0) (k : ObjectKey) : (t.objectLocked k).held.values.countP p = 0 := by
  have := t.load_le_count k p q
  unfold ObjectLocks.load at this
  omega

/-- Registering a session keeps the invariant. -/
theorem Inv.registerSession (hi : Inv none t) (id : SessionID) (expires : Int) :
    Inv none (t.registerSession id expires) := by
  unfold LockTable.registerSession
  split
  · exact hi
  next hid =>
  have hzero := hi.count_unknown hid
  have hknown : ∀ id', t.Known none id' →
      Known { t with sessions := t.sessions.insert id ⟨expires, 0, ∅, []⟩ } none id' := by
    rintro id' (hs | h)
    · left
      change (t.sessions.insert id _).lookup id' ≠ none
      rw [Assoc.lookup_insert_eq]
      split
      · simp
      · exact hs
    · exact .inr h
  refine ⟨by simp, hi.object, hi.queued, hi.pending, fun k l hl => hknown _ (hi.held_known k l hl),
    fun w hw => hknown _ (hi.waiting_known w hw), ?_, hi.held_eq, hi.waiting_eq, hi.limit⟩
  intro id' s hs
  change (t.sessions.insert id _).lookup id' = some s at hs
  rw [Assoc.lookup_insert_eq] at hs
  split at hs
  · next h =>
    cases hs
    subst h
    refine ⟨hzero.symm, Nat.zero_le _, ?_, ?_, nodup_nil, ?_⟩
    · intro k
      exact (countP_held_of_count hzero k).symm
    · intro k n hn
      simp at hn
    intro w
    refine ⟨nofun, ?_⟩
    rintro ⟨hw, rfl⟩
    rcases hi.waiting_known w hw with hs | h
    · exact absurd hid hs
    · simp at h
  · obtain ⟨h1, h2, h3, h4, h5, h6⟩ := hi.session id' s hs
    exact ⟨h1, h2, h3, h4, h5, h6⟩

/-- Renewing a lease keeps the invariant. -/
theorem Inv.renew (hi : Inv none t) (id : SessionID) (expires : Int) :
    Inv none (t.renew id expires) := by
  have hknown : ∀ id', t.Known none id' → (t.renew id expires).Known none id' := by
    intro id' h
    exact h.imp (fun hs hn => hs ((Assoc.lookup_modify_eq_none _ _ _ _).mp hn)) fun hd => hd
  refine ⟨by simp, hi.object, hi.queued, hi.pending, fun k l hl => hknown _ (hi.held_known k l hl),
    fun w hw => hknown _ (hi.waiting_known w hw), ?_, hi.held_eq, hi.waiting_eq, hi.limit⟩
  intro id' s hs
  change (Assoc.modify t.sessions id _).lookup id' = some s at hs
  rw [Assoc.lookup_modify] at hs
  split at hs
  · next h =>
    obtain ⟨s₀, hs₀, rfl⟩ := Option.map_eq_some_iff.mp hs
    obtain ⟨h1, h2, h3, h4, h5, h6⟩ := hi.session id s₀ hs₀
    rw [h]
    exact ⟨h1, h2, h3, h4, h5, h6⟩
  · obtain ⟨h1, h2, h3, h4, h5, h6⟩ := hi.session id' s hs
    exact ⟨h1, h2, h3, h4, h5, h6⟩

/-- Unregistering a session marks it dead. -/
theorem Inv.unregister (hi : Inv none t) (id : SessionID) :
    Inv (some id) { t with sessions := t.sessions.erase id } := by
  have hknown : ∀ id', t.Known none id' →
      Known { t with sessions := t.sessions.erase id } (some id) id' := by
    rintro id' (hs | h)
    · by_cases h : id' = id
      · exact .inr (by rw [h])
      · left
        dsimp only
        rw [Assoc.lookup_erase_eq, if_neg h]
        exact hs
    · simp at h
  refine ⟨?_, hi.object, hi.queued, hi.pending, fun k l hl => hknown _ (hi.held_known k l hl),
    fun w hw => hknown _ (hi.waiting_known w hw), ?_, hi.held_eq, hi.waiting_eq, hi.limit⟩
  · rintro id' h
    dsimp only
    rw [← Option.some.inj h, Assoc.lookup_erase_eq, if_pos rfl]
  intro id' s hs
  dsimp only at hs
  rw [Assoc.lookup_erase_eq] at hs
  split at hs
  · simp at hs
  · obtain ⟨h1, h2, h3, h4, h5, h6⟩ := hi.session id' s hs
    exact ⟨h1, h2, h3, h4, h5, h6⟩

/-- Once nothing of the dead session is left, the table is whole again. -/
theorem Inv.buried (hi : Inv (some id) t)
    (hheld : ∀ k, ∀ l ∈ (t.objectLocked k).held.values, l.owner.session ≠ id)
    (hwait : ∀ w, t.Queued w → w.lock.owner.session ≠ id) : Inv none t := by
  refine ⟨by simp, hi.object, hi.queued, hi.pending, ?_, ?_, hi.session, hi.held_eq,
    hi.waiting_eq, hi.limit⟩
  · intro k l hl
    left
    exact (hi.held_known k l hl).resolve_right fun h => hheld k l hl (Option.some.inj h).symm
  · intro w hw
    left
    exact (hi.waiting_known w hw).resolve_right fun h => hwait w hw (Option.some.inj h).symm

/-- The table after dropping one record; the first component of `dropRecord`. -/
def withoutRecord (t : LockTable) (k : ObjectKey) (e : Entry Lock) : LockTable :=
  { t with
    objects := t.objects.insert k
      { t.objectLocked k with held := ((t.objectLocked k).held.remove e.start e.stop e.id).1 }
    held := t.held - 1 }

section Drop

variable {id : SessionID} {t : LockTable} {k : ObjectKey} {e : Entry Lock}

theorem objectLocked_withoutRecord (t : LockTable) (k : ObjectKey) (e : Entry Lock)
    (k' : ObjectKey) : (t.withoutRecord k e).objectLocked k' =
      if k' = k then
        { t.objectLocked k with held := ((t.objectLocked k).held.remove e.start e.stop e.id).1 }
      else t.objectLocked k' :=
  objectLocked_insert t k k' _

/-- Dropping a record leaves every queue. -/
theorem queued_withoutRecord (t : LockTable) (k : ObjectKey) (e : Entry Lock) (w : Waiter) :
    (t.withoutRecord k e).Queued w ↔ t.Queued w := by
  unfold Queued
  rw [objectLocked_withoutRecord]
  split
  · next h => rw [h]
  · rfl

variable (hi : Inv (some id) t) (he : e ∈ (t.objectLocked k).held.entries)
include hi he

private theorem entries_dropped : (t.objectLocked k).held.entries.Perm
    (e :: ((t.objectLocked k).held.remove e.start e.stop e.id).1.entries) :=
  entries_remove_of_mem (hi.object k).ids.nodup he

/-- The records that are left were there. -/
theorem mem_of_mem_withoutRecord {k' : ObjectKey} {l : Lock}
    (hl : l ∈ ((t.withoutRecord k e).objectLocked k').held.values) :
    l ∈ (t.objectLocked k').held.values := by
  rw [objectLocked_withoutRecord] at hl
  split at hl
  · next hk =>
    rw [hk]
    obtain ⟨x, hx, rfl⟩ := mem_map.mp hl
    exact mem_map.mpr ⟨x, (entries_dropped hi he).mem_iff.mpr (mem_cons_of_mem e hx), rfl⟩
  · exact hl

/-- Dropping a record lowers the counts it was part of. -/
theorem count_withoutRecord (p : Lock → Bool) (q : Waiter → Bool) :
    (t.withoutRecord k e).count p q + (if p e.value then 1 else 0) = t.count p q := by
  have hc := t.count_insert k { t.objectLocked k with
    held := ((t.objectLocked k).held.remove e.start e.stop e.id).1 } p q
  have hv := ((entries_dropped hi he).map Entry.value).countP_eq p
  rw [map_cons, countP_cons] at hv
  have hdef : (t.withoutRecord k e).count p q = Assoc.total (t.objects.insert k
      { t.objectLocked k with held := ((t.objectLocked k).held.remove e.start e.stop e.id).1 })
      fun _ o => o.load p q := rfl
  rw [hdef]
  simp only [ObjectLocks.load, IntervalTree.values] at *
  omega

/-- Dropping a record of the dead session keeps the invariant. -/
theorem Inv.withoutRecord (hid : e.value.owner.session = id) :
    Inv (some id) (t.withoutRecord k e) := by
  have hp := entries_dropped hi he
  have hcount := count_withoutRecord hi he
  have hsub : ∀ x ∈ ((t.objectLocked k).held.remove e.start e.stop e.id).1.entries,
      x ∈ (t.objectLocked k).held.entries := fun x hx => hp.mem_iff.mpr (mem_cons_of_mem e hx)
  constructor
  · exact hi.dead_gone
  · intro k'
    rw [objectLocked_withoutRecord]
    split
    · next h =>
      rw [h]
      have hok := hi.object k
      have hids := (hp.map Entry.id).nodup_iff.mp hok.ids.nodup
      have hvals := hok.compatible.perm (hp.map Entry.value)
      refine ⟨⟨fun x hx => hok.indexed.held x (hsub x hx), hok.indexed.waiting⟩, ?_,
        hok.waiting_object, ⟨(nodup_cons.mp hids).2, fun x hx => hok.ids.le x (hsub x hx)⟩,
        ⟨fun l hl => hvals.valid l (mem_cons_of_mem _ hl),
          (pairwise_cons.mp hvals.compatible).2⟩, hok.seqs⟩
      intro l hl
      obtain ⟨x, hx, rfl⟩ := mem_map.mp hl
      exact hok.held_object x.value (mem_map.mpr ⟨x, hsub x hx, rfl⟩)
    · exact hi.object k'
  · intro w hw
    exact hi.queued w ((t.queued_withoutRecord k e w).mp hw)
  · intro seq s hs
    rw [queued_withoutRecord]
    exact hi.pending seq s hs
  · intro k' l hl
    exact hi.held_known k' l (mem_of_mem_withoutRecord hi he hl)
  · intro w hw
    exact hi.waiting_known w ((t.queued_withoutRecord k e w).mp hw)
  · intro id' s hs
    have hok := hi.session id' s hs
    by_cases h : id' = id
    · -- the dead session is not registered
      have hnone := hi.dead_gone id rfl
      rw [← h] at hnone
      exact absurd (hs.symm.trans hnone) (by simp)
    have hof : ofSession id' e.value = false := by
      simp [ofSession, hid, Ne.symm h]
    have hc := hcount (ofSession id') fun w => ofSession id' w.lock
    rw [hof] at hc
    refine hok.frame (by simpa using hc) rfl (fun k' => ?_) fun w _ => queued_withoutRecord ..
    rw [objectLocked_withoutRecord]
    split
    · next hk =>
      have hv := (hp.map Entry.value).countP_eq (ofSession id')
      rw [map_cons, countP_cons, hof] at hv
      rw [hk]
      exact hv.symm
    · rfl
  · have hc := hcount (fun _ => true) fun _ => false
    rw [← hi.held_eq] at hc
    change t.held - 1 = _
    simp only [if_true] at hc
    omega
  · have hc := hcount (fun _ => false) fun _ => true
    rw [← hi.waiting_eq] at hc
    exact hc.symm
  · have := hi.limit
    change t.held - 1 + t.waiting ≤ t.maxRecords
    omega

end Drop

end LockTable
end PortableFS.Locks
