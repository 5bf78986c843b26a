import PortableFS.Locks.Plan

/-!
# Invariant of the lock table

Module `volumeserver`, `vcs/internal/volumeserver/locks.go:280–362,893–906`. The invariant ties
the two indices of every object, the sessions, the waiter objects and the counters together.
-/

namespace PortableFS.Locks

open PortableFS.Base

variable {o : ObjectLocks}

/-- An object without records and waiters is the empty one. -/
theorem ObjectLocks.eq_empty (hh : o.held.size = 0) (hw : o.waiting.size = 0) : o = .empty := by
  cases o with
  | mk held waiting =>
    simp only at hh hw
    rw [IntervalTree.eq_empty_of_size hh, IntervalTree.eq_empty_of_size hw]
    rfl

/-- Held records satisfying `p` and queued waiters satisfying `q`. -/
def ObjectLocks.load (o : ObjectLocks) (p : Lock → Bool) (q : Waiter → Bool) : Nat :=
  o.held.values.countP p + o.waiting.values.countP q

namespace LockTable

variable {t : LockTable}

theorem objectLocked_of_lookup {k : ObjectKey} (h : t.objects.lookup k = some o) :
    t.objectLocked k = o := by
  simp [objectLocked, h]

/-- Storing an object changes what is observed at its key only. -/
theorem objectLocked_insert (t : LockTable) (k k' : ObjectKey) (o : ObjectLocks) :
    (((t.objects.insert k o).lookup k').getD .empty) =
      if k' = k then o else t.objectLocked k' := by
  rw [Assoc.lookup_insert_eq]
  split
  · rfl
  · rfl

/-- The waiter stands in the queue of its object. -/
def Queued (t : LockTable) (w : Waiter) : Prop :=
  w ∈ (t.objectLocked w.lock.object).waiting.values

instance (t : LockTable) (w : Waiter) : Decidable (t.Queued w) :=
  inferInstanceAs (Decidable (w ∈ (t.objectLocked w.lock.object).waiting.values))

/-- Held records satisfying `p` and queued waiters satisfying `q`, over all objects. -/
def count (t : LockTable) (p : Lock → Bool) (q : Waiter → Bool) : Nat :=
  t.objects.total fun _ o => o.load p q

section

variable (t : LockTable)

private theorem at_load (k : ObjectKey) (p : Lock → Bool) (q : Waiter → Bool) :
    t.objects.at? (fun _ o => o.load p q) k = (t.objectLocked k).load p q := by
  unfold Assoc.at? objectLocked
  cases t.objects.lookup k with
  | none => rfl
  | some o => rfl

/-- Storing an object replaces its load in the count. -/
theorem count_insert (k : ObjectKey) (o : ObjectLocks) (p : Lock → Bool) (q : Waiter → Bool) :
    (Assoc.total (t.objects.insert k o) fun _ o => o.load p q) + (t.objectLocked k).load p q =
      t.count p q + o.load p q := by
  rw [← at_load]
  exact Assoc.total_insert t.objects _ k o

/-- The load of one object is part of the count. -/
theorem load_le_count (k : ObjectKey) (p : Lock → Bool) (q : Waiter → Bool) :
    (t.objectLocked k).load p q ≤ t.count p q := by
  rw [← at_load]
  exact Assoc.at_le_total t.objects _ k

/-- Pruning changes no observation. -/
theorem objectLocked_prune (k k' : ObjectKey) :
    (t.pruneObjectLocked k).objectLocked k' = t.objectLocked k' := by
  unfold pruneObjectLocked
  split
  · rfl
  next o ho =>
  split
  · next he =>
    unfold objectLocked
    dsimp only
    rw [Assoc.lookup_erase_eq]
    split
    · next hk =>
      rw [hk, ho]
      exact (ObjectLocks.eq_empty he.1 he.2).symm
    · rfl
  · rfl

/-- Pruning changes no count. -/
theorem count_prune (k : ObjectKey) (p : Lock → Bool) (q : Waiter → Bool) :
    (t.pruneObjectLocked k).count p q = t.count p q := by
  unfold pruneObjectLocked
  split
  · rfl
  next o ho =>
  split
  · next he =>
    have h := Assoc.total_erase t.objects (fun _ o => o.load p q) k
    rw [at_load, objectLocked_of_lookup ho, ObjectLocks.eq_empty he.1 he.2] at h
    exact h
  · rfl

end

/-- One object: both indices agree with their values, which belong to the object, ids and
sequence numbers are distinct, and the held records may coexist. -/
structure ObjectOk (k : ObjectKey) (nextID : Nat) (o : ObjectLocks) : Prop where
  indexed : o.Indexed
  held_object : ∀ l ∈ o.held.values, l.object = k
  waiting_object : ∀ w ∈ o.waiting.values, w.lock.object = k
  ids : IdsOk o.held nextID
  compatible : HeldOk o.held.values
  seqs : (o.waiting.entries.map Entry.id).Nodup

/-- Belongs to the session. -/
def ofSession (id : SessionID) (l : Lock) : Bool := decide (l.owner.session = id)

/-- One registered session: its counters and its waiter set are the true ones. -/
structure SessionOk (t : LockTable) (id : SessionID) (s : LockSession) : Prop where
  records : s.records = t.count (ofSession id) (fun w => ofSession id w.lock)
  records_le : s.records ≤ t.maxPerSession
  objects : ∀ k, (s.objects.lookup k).getD 0 = (t.objectLocked k).held.values.countP (ofSession id)
  objects_pos : ∀ k n, s.objects.lookup k = some n → 0 < n
  nodup : s.waiters.Nodup
  waiters : ∀ w, w ∈ s.waiters ↔ t.Queued w ∧ w.lock.owner.session = id

variable {t' : LockTable}

/-- A session stays in order over a change that does not concern it. -/
theorem SessionOk.frame {id : SessionID} {s : LockSession} (h : t.SessionOk id s)
    (hcount : t'.count (ofSession id) (fun w => ofSession id w.lock) =
      t.count (ofSession id) fun w => ofSession id w.lock)
    (hmax : t'.maxPerSession = t.maxPerSession)
    (hheld : ∀ k, (t'.objectLocked k).held.values.countP (ofSession id) =
      (t.objectLocked k).held.values.countP (ofSession id))
    (hqueued : ∀ w, w.lock.owner.session = id → (t'.Queued w ↔ t.Queued w)) :
    t'.SessionOk id s where
  records := h.records.trans hcount.symm
  records_le := hmax ▸ h.records_le
  objects k := (h.objects k).trans (hheld k).symm
  objects_pos := h.objects_pos
  nodup := h.nodup
  waiters w := (h.waiters w).trans (and_congr_left fun ho => (hqueued w ho).symm)

/-- Registered, or the session whose release is under way. -/
def Known (t : LockTable) (dead : Option SessionID) (id : SessionID) : Prop :=
  t.sessions.lookup id ≠ none ∨ dead = some id

/-- The table between two mutations; `dead` names a session that has been unregistered and
whose records and waiters are still being dropped. -/
structure Inv (dead : Option SessionID) (t : LockTable) : Prop where
  dead_gone : ∀ id, dead = some id → t.sessions.lookup id = none
  object : ∀ k, ObjectOk k t.nextID (t.objectLocked k)
  queued : ∀ w, t.Queued w → t.waiters.lookup w.seq = some ⟨w.lock, false, none⟩
  pending : ∀ seq s, t.waiters.lookup seq = some s →
    seq ≤ t.nextSeq ∧ (s.settled = false → t.Queued ⟨s.lock, seq⟩)
  held_known : ∀ k, ∀ l ∈ (t.objectLocked k).held.values, t.Known dead l.owner.session
  waiting_known : ∀ w, t.Queued w → t.Known dead w.lock.owner.session
  session : ∀ id s, t.sessions.lookup id = some s → t.SessionOk id s
  held_eq : t.held = t.count (fun _ => true) (fun _ => false)
  waiting_eq : t.waiting = t.count (fun _ => false) (fun _ => true)
  limit : t.held + t.waiting ≤ t.maxRecords

/-- The tables agree in everything but the flags of the cascade, the clock, the history, empty
object entries and sequence numbers given out in vain. -/
structure SameCore (t t' : LockTable) : Prop where
  objectLocked : ∀ k, t'.objectLocked k = t.objectLocked k
  count : ∀ p q, t'.count p q = t.count p q
  sessions : t'.sessions = t.sessions
  waiters : t'.waiters = t.waiters
  held : t'.held = t.held
  waiting : t'.waiting = t.waiting
  nextID : t'.nextID = t.nextID
  nextSeq : t.nextSeq ≤ t'.nextSeq
  maxRecords : t'.maxRecords = t.maxRecords
  maxPerSession : t'.maxPerSession = t.maxPerSession

theorem SameCore.refl (t : LockTable) : SameCore t t :=
  ⟨fun _ => rfl, fun _ _ => rfl, rfl, rfl, rfl, rfl, rfl, le_rfl, rfl, rfl⟩

theorem SameCore.queued (h : SameCore t t') (w : Waiter) : t'.Queued w ↔ t.Queued w := by
  unfold Queued
  rw [h.objectLocked]

theorem SameCore.known (h : SameCore t t') (dead : Option SessionID)
    (id : SessionID) : t'.Known dead id ↔ t.Known dead id := by
  unfold Known
  rw [h.sessions]

theorem Inv.same {dead : Option SessionID} (hi : Inv dead t) (h : SameCore t t') : Inv dead t' where
  dead_gone id hd := by
    rw [h.sessions]
    exact hi.dead_gone id hd
  object k := by
    rw [h.objectLocked, h.nextID]
    exact hi.object k
  queued w hw := by
    rw [h.waiters]
    exact hi.queued w ((h.queued w).mp hw)
  pending seq s hs := by
    rw [h.waiters] at hs
    rw [h.queued]
    exact (hi.pending seq s hs).imp (fun hle => hle.trans h.nextSeq) id
  held_known k l hl := by
    rw [h.objectLocked] at hl
    rw [h.known]
    exact hi.held_known k l hl
  waiting_known w hw := by
    rw [h.known]
    exact hi.waiting_known w ((h.queued w).mp hw)
  session id s hs := by
    rw [h.sessions] at hs
    exact (hi.session id s hs).frame (h.count _ _) h.maxPerSession (fun k => by rw [h.objectLocked])
      fun w _ => h.queued w
  held_eq := by
    rw [h.held, h.count]
    exact hi.held_eq
  waiting_eq := by
    rw [h.waiting, h.count]
    exact hi.waiting_eq
  limit := by
    rw [h.held, h.waiting, h.maxRecords]
    exact hi.limit

theorem sameCore_prune (t : LockTable) (k : ObjectKey) : SameCore t (t.pruneObjectLocked k) := by
  refine ⟨t.objectLocked_prune k, t.count_prune k, ?_, ?_, ?_, ?_, ?_, Nat.le_of_eq ?_, ?_, ?_⟩ <;>
  · unfold pruneObjectLocked
    split
    · rfl
    · split <;> rfl

theorem sameCore_enqueueWake (t : LockTable) (k : ObjectKey) (span : LockRange) :
    SameCore t (t.enqueueWake k span) :=
  ⟨fun _ => rfl, fun _ _ => rfl, rfl, rfl, rfl, rfl, rfl, le_rfl, rfl, rfl⟩

end LockTable
end PortableFS.Locks
