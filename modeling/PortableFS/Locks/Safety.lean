import PortableFS.Locks.Release

/-!
# Exclusion and accounting in every reachable table

Module `volumeserver`, `vcs/internal/volumeserver/locks.go:339–661`. Every sequence of calls ends in
a table whose records may coexist, whose counters are the true numbers and within their
bounds, and which stores nothing for an unregistered session or an empty object.
-/

namespace PortableFS.Locks

open PortableFS.Base List

namespace LockTable

variable {t : LockTable}

/-- A new table is in order. -/
theorem good_newLockTable {maxRecords maxPerSession : Nat} {now : Int}
    (h : newLockTable maxRecords maxPerSession now = some t) : t.Good := by
  unfold newLockTable at h
  split at h
  · simp at h
  cases h
  refine ⟨?_, ⟨rfl, rfl⟩, fun k o ho => by simp at ho⟩
  constructor
  · simp
  · intro k
    refine ⟨ObjectLocks.indexed_empty, ?_, ?_, ⟨nodup_nil, ?_⟩,
      ⟨?_, List.Pairwise.nil⟩, nodup_nil⟩ <;>
    · intro x hx
      exact absurd hx not_mem_nil
  · intro w hw
    exact absurd hw not_mem_nil
  · intro seq s hs
    simp at hs
  · intro k l hl
    exact absurd hl not_mem_nil
  · intro w hw
    exact absurd hw not_mem_nil
  · intro id s hs
    simp at hs
  · rfl
  · rfl
  · exact Nat.zero_le _

/-- Every call ends in order. -/
theorem Good.exec (hg : t.Good) (op : Op) : (t.exec op).Good := by
  cases op with
  | registerSession id expires =>
    have hobj : (t.registerSession id expires).objects = t.objects := by
      unfold LockTable.registerSession
      split <;> rfl
    refine ⟨hg.inv.registerSession id expires, ?_, ?_⟩
    · change (t.registerSession id expires).Idle
      unfold LockTable.registerSession
      split
      · exact hg.idle
      · exact ⟨hg.idle.waking, hg.idle.pendingWake⟩
    · intro k o ho
      exact hg.tidy k o (hobj ▸ ho)
  | renew id expires =>
    exact ⟨hg.inv.renew id expires, ⟨hg.idle.waking, hg.idle.pendingWake⟩, hg.tidy⟩
  | tick now =>
    refine ⟨hg.inv.same ?_, ⟨hg.idle.waking, hg.idle.pendingWake⟩, hg.tidy⟩
    exact ⟨fun _ => rfl, fun _ _ => rfl, rfl, rfl, rfl, rfl, rfl, le_rfl, rfl, rfl⟩
  | set lock => exact hg.set lock
  | beginWait lock => exact hg.beginWait lock
  | await seq err => exact hg.await seq err
  | unlock object owner r => exact hg.unlock object owner r
  | interruptWaiters err => exact (interruptWaiters_spec hg err).1
  | releaseSession id hint => exact hg.releaseSession id hint

/-- Every reachable table is in order. -/
theorem Reachable.good (h : Reachable t) : t.Good := by
  induction h with
  | new h => exact good_newLockTable h
  | step op _ ih => exact ih.exec op

/-- The table after a sequence of calls. -/
def run (t : LockTable) (ops : List Op) : LockTable := ops.foldl exec t

theorem Reachable.run (h : Reachable t) (ops : List Op) : Reachable (t.run ops) := by
  induction ops generalizing t with
  | nil => exact h
  | cons op ops ih => exact ih (h.step op)

/-- On every object of a reachable table no two held records conflict, records of one owner
share no byte, and records of one owner and type are not adjacent. -/
theorem reachable_held_coalesced {t : LockTable} (h : Reachable t) {k : ObjectKey} {o : ObjectLocks}
    (ho : t.objects.lookup k = some o) :
    o.held.values.Pairwise fun a b => conflicts a b = false ∧
      (a.owner = b.owner → overlaps a.range b.range = false ∧
        (a.type = b.type → adjacent a.range b.range = false)) := by
  have hok := (h.good.inv.object k).compatible
  rw [objectLocked_of_lookup ho] at hok
  apply hok.compatible.imp_of_mem
  rintro a b ha hb ⟨hc, how⟩
  refine ⟨hc, fun heq => ?_⟩
  obtain ⟨hap, hgap⟩ := how heq
  exact ⟨apart_iff.mp hap, fun ht => (hgap ht).not_adjacent (hok.valid a ha) (hok.valid b hb)⟩

/-- A table for eight records, four of them for one session. -/
def small : LockTable :=
  { objects := ∅, sessions := ∅, held := 0, waiting := 0, nextID := 0, nextSeq := 0,
    maxRecords := 8, maxPerSession := 4, now := 0, waking := false, pendingWake := [],
    waiters := ∅, grants := [] }

theorem reachable_small : Reachable small := @Reachable.new 8 4 0 small rfl

/-- A process of session `n`. -/
def process (n : Nat) : LockOwner := ⟨BitVec.ofNat 128 n, 0, false⟩

instance : NeZero 4096 := ⟨by decide⟩

/-- Bytes `a` to `b`. -/
def bytes (a b : Fin 4096) : LockRange where
  start := a
  stop := b
  start_le := by unfold maxUint64; omega
  stop_le := by unfold maxUint64; omega

/-- A request on object 7. -/
def request (n : Nat) (type : LockType) (a b : Fin 4096) : Lock := ⟨7, process n, type, bytes a b⟩

/-- A write lock split by a read lock in its middle. -/
def splitWrite : LockTable :=
  small.run [.registerSession 1 10, .set (request 1 .write 0 9), .set (request 1 .read 4 5)]

/-- The three records of the split are coalesced. -/
theorem held_coalesced_splitWrite :
    (splitWrite.objectLocked 7).held.values.map (fun l => (l.type, l.range.start, l.range.stop)) =
      [(.write, 0, 3), (.read, 4, 5), (.write, 6, 9)] ∧
    (splitWrite.objectLocked 7).held.values.Pairwise fun a b => conflicts a b = false ∧
      (a.owner = b.owner → overlaps a.range b.range = false ∧
        (a.type = b.type → adjacent a.range b.range = false)) := by
  have hlookup : splitWrite.objects.lookup 7 = some (splitWrite.objectLocked 7) := by
    have hsome : (splitWrite.objects.lookup 7).isSome = true := by decide +kernel
    unfold objectLocked
    cases ho : splitWrite.objects.lookup 7 with
    | none =>
      rw [ho] at hsome
      exact absurd hsome Bool.false_ne_true
    | some o => rfl
  refine ⟨by decide +kernel, ?_⟩
  exact reachable_held_coalesced (reachable_small.run _) hlookup

/-- All held records. -/
def heldRecords (t : LockTable) : List Lock := t.objects.entries.flatMap fun e => e.2.held.values

/-- All queued waiters. -/
def queuedWaiters (t : LockTable) : List Waiter :=
  t.objects.entries.flatMap fun e => e.2.waiting.values

theorem count_eq (t : LockTable) (p : Lock → Bool) (q : Waiter → Bool) :
    t.count p q = t.heldRecords.countP p + t.queuedWaiters.countP q := by
  unfold count heldRecords queuedWaiters
  rw [countP_flatMap, countP_flatMap]
  exact Assoc.total_add t.objects (fun _ o => o.held.values.countP p)
    fun _ o => o.waiting.values.countP q

/-- The counters of a reachable table and of its sessions are the true numbers and respect the
bounds; records and waiters belong to registered sessions; every object entry is in use. -/
theorem reachable_accounting {t : LockTable} (h : Reachable t) :
    t.held = t.heldRecords.length ∧ t.waiting = t.queuedWaiters.length ∧
    t.held + t.waiting ≤ t.maxRecords ∧
    (∀ id s, t.sessions.lookup id = some s →
      s.records = t.heldRecords.countP (fun l => l.owner.session = id) +
        t.queuedWaiters.countP (fun w => w.lock.owner.session = id) ∧
      s.records ≤ t.maxPerSession ∧
      ∀ k, s.objects.lookup k =
        if (t.objectLocked k).held.values.countP (fun l => l.owner.session = id) = 0 then none
        else some ((t.objectLocked k).held.values.countP fun l => l.owner.session = id)) ∧
    (∀ l ∈ t.heldRecords, ∃ s, t.sessions.lookup l.owner.session = some s) ∧
    (∀ w ∈ t.queuedWaiters, ∃ s, t.sessions.lookup w.lock.owner.session = some s) ∧
    ∀ k o, t.objects.lookup k = some o → o.held.values ≠ [] ∨ o.waiting.values ≠ [] := by
  have hi := h.good.inv
  have hknown : ∀ id, t.Known none id → ∃ s, t.sessions.lookup id = some s := by
    rintro id (hs | hd)
    · exact Option.ne_none_iff_exists'.mp hs
    · simp at hd
  refine ⟨?_, ?_, hi.limit, ?_, ?_, ?_, ?_⟩
  · rw [hi.held_eq, count_eq]
    simp
  · rw [hi.waiting_eq, count_eq]
    simp
  · intro id s hs
    have hok := hi.session id s hs
    refine ⟨hok.records.trans (count_eq t _ _), hok.records_le, ?_⟩
    intro k
    have hobj := hok.objects k
    change _ = countP (fun l : Lock => decide (l.owner.session = id)) _ at hobj
    cases hn : s.objects.lookup k with
    | none =>
      rw [hn, Option.getD_none] at hobj
      rw [if_pos hobj.symm]
    | some n =>
      have hpos := hok.objects_pos k n hn
      rw [hn, Option.getD_some] at hobj
      rw [← hobj, if_neg (by omega)]
  · intro l hl
    obtain ⟨⟨k, o⟩, he, hl⟩ := mem_flatMap.mp hl
    have ho := objectLocked_of_lookup ((Assoc.mem_entries_iff _ _ _).mp he)
    exact hknown _ (hi.held_known k l (ho ▸ hl))
  · intro w hw
    obtain ⟨⟨k, o⟩, he, hw⟩ := mem_flatMap.mp hw
    have ho := objectLocked_of_lookup ((Assoc.mem_entries_iff _ _ _).mp he)
    apply hknown _ (hi.waiting_known w _)
    unfold Queued
    rw [(hi.object k).waiting_object w (ho ▸ hw), ho]
    exact hw
  · intro k o ho
    have hocc := h.good.tidy k o ho
    rw [IntervalTree.size_eq_zero_iff, IntervalTree.size_eq_zero_iff] at hocc
    simp only [IntervalTree.values, ne_eq, map_eq_nil_iff]
    tauto

/-- The accounting of the split: one session is charged three records. -/
theorem accounting_splitWrite : splitWrite.held = 3 ∧
    splitWrite.held = splitWrite.heldRecords.length ∧
    splitWrite.held + splitWrite.waiting ≤ splitWrite.maxRecords := by
  obtain ⟨h1, _, h2, _⟩ := reachable_accounting (t := splitWrite) (reachable_small.run _)
  exact ⟨by decide +kernel, h1, h2⟩

end LockTable
end PortableFS.Locks
