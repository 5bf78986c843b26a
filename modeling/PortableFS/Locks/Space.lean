import PortableFS.Locks.Semantics

/-!
# The lock table as a lock space

Module `volumeserver`, `vcs/internal/volumeserver/locks.go:665–754,1025–1082`. The table is observed as
a lock space whose points are the bytes of all objects, one copy for each flock class. A waiter
is eligible, and an owner blocks it, exactly as in that space, and the search of
`deadlockLocked` decides whether queueing a waiter closes a cycle.
-/

namespace PortableFS.Locks

open PortableFS.Base List

/-- A byte of an object in one flock class. -/
abbrev Point := ObjectKey × Bool × Nat

/-- The points a lock asks for. -/
def Lock.region (l : Lock) : Set Point :=
  {p | p.1 = l.object ∧ p.2.1 = l.owner.flock ∧ p.2.2 ∈ l.range}

/-- The point of a lock at a byte. -/
def Lock.point (l : Lock) (x : Nat) : Point := (l.object, l.owner.flock, x)

variable {l : Lock} {p : Point}

theorem Lock.mem_region : p ∈ l.region ↔ ∃ x ∈ l.range, p = l.point x := by
  constructor
  · rintro ⟨h1, h2, h3⟩
    exact ⟨p.2.2, h3, by rw [Lock.point, ← h1, ← h2]⟩
  · rintro ⟨x, hx, rfl⟩
    exact ⟨rfl, rfl, hx⟩

variable {x : Nat}

theorem Lock.point_mem_region {l' : Lock} :
    l.point x ∈ l'.region ↔ l.object = l'.object ∧ l.owner.flock = l'.owner.flock ∧
      x ∈ l'.range := Iff.rfl

/-- The request of a waiter. -/
def Waiter.request (w : Waiter) : Request LockOwner Point LockType :=
  ⟨w.lock.owner, w.lock.type, w.lock.region, w.seq⟩

namespace LockTable

/-- The lock space of a table. -/
def space (t : LockTable) : LockSpace LockOwner Point LockType where
  mode owner p := if owner.flock = p.2.1 then t.modeAt p.1 owner p.2.2 else none
  queue := {q | ∃ w, t.Queued w ∧ q = w.request}

section

variable {t : LockTable} (hi : Inv none t)
include hi

variable {ty : LockType}

/-- The space's coverage is that of the records. -/
theorem space_mode_eq_some {owner : LockOwner} : t.space.mode owner p = some ty ↔
      owner.flock = p.2.1 ∧ HeldAt (t.objectLocked p.1).held.values owner ty p.2.2 := by
  simp only [space]
  split
  · next h => rw [modeAt_eq_some hi, and_iff_right h]
  · next h => simp [h]

variable {lock : Lock}

/-- An owner holds a point of its request exactly when its records cover the byte. -/
theorem space_holds_iff : t.space.Holds lock.owner (lock.point x) ty ↔
      (t.objectLocked lock.object).Covers lock.owner ty x := by
  rw [covers_iff_heldAt]
  constructor
  · rintro ⟨ty', hm, hle⟩
    exact ⟨ty', hle, ((space_mode_eq_some hi).mp hm).2⟩
  · rintro ⟨ty', hle, hat⟩
    exact ⟨ty', (space_mode_eq_some hi).mpr ⟨rfl, hat⟩, hle⟩

/-- Held coverage blocks a request exactly when a record conflicts with it. -/
theorem space_heldBlocks_iff (hv : lock.range.start ≤ lock.range.stop) (seq : Nat) (o : LockOwner) :
    t.space.HeldBlocks Clash ⟨lock.owner, lock.type, lock.region, seq⟩ o ↔
      ∃ l ∈ (t.objectLocked lock.object).held.values, conflicts lock l = true ∧ l.owner = o := by
  constructor
  · rintro ⟨hne, p, hp, ty, hm, hc⟩
    obtain ⟨x, hx, rfl⟩ := Lock.mem_region.mp hp
    obtain ⟨hf, l, hl, rfl, rfl, hxl⟩ := (space_mode_eq_some hi).mp hm
    have hov := (overlaps_iff_exists hv ((hi.object lock.object).compatible.valid l hl)).mpr
      ⟨x, hx, hxl⟩
    exact ⟨l, hl, conflicts_iff.mpr ⟨hf.symm, Ne.symm hne, hov, hc.symm⟩, rfl⟩
  · rintro ⟨l, hl, hc, rfl⟩
    obtain ⟨hf, hne, hov, hclash⟩ := conflicts_iff.mp hc
    obtain ⟨x, hx, hxl⟩ := (overlaps_iff_exists hv
      ((hi.object lock.object).compatible.valid l hl)).mp hov
    refine ⟨Ne.symm hne, lock.point x, Lock.mem_region.mpr ⟨x, hx, rfl⟩, l.type, ?_, hclash.symm⟩
    exact (space_mode_eq_some hi).mpr ⟨hf.symm, l, hl, rfl, rfl, hxl⟩

/-- A queued request blocks another exactly when it stands ahead and contends for a byte the
other does not cover yet. -/
theorem space_queueBlocks_iff (seq : Nat) (o : LockOwner) :
    (∃ x, t.space.QueueBlocks Clash ⟨lock.owner, lock.type, lock.region, seq⟩ x ∧ x.owner = o) ↔
      ∃ w ∈ (t.objectLocked lock.object).waiting.values, w.seq < seq ∧ w.lock.owner = o ∧
        ∃ x ∈ lock.range, ¬ (t.objectLocked lock.object).Covers lock.owner lock.type x ∧
          Contends lock w.lock x := by
  constructor
  · rintro ⟨q, ⟨⟨w, hw, rfl⟩, hlt, hne, hc, p, hp, hpw, hn⟩, rfl⟩
    obtain ⟨x, hx, rfl⟩ := Lock.mem_region.mp hp
    obtain ⟨ho, hf, hxw⟩ := Lock.point_mem_region.mp hpw
    refine ⟨w, ?_, hlt, rfl, x, hx, ?_, hf, Ne.symm hne, hc.symm, hxw⟩
    · rw [ho]
      exact hw
    · rwa [space_holds_iff hi] at hn
  · rintro ⟨w, hw, hlt, rfl, x, hx, hn, hf, hne, hc, hxw⟩
    have ho := (hi.object lock.object).waiting_object w hw
    refine ⟨w.request, ⟨⟨w, ?_, rfl⟩, hlt, Ne.symm hne, hc.symm, lock.point x,
      Lock.mem_region.mpr ⟨x, hx, rfl⟩, Lock.point_mem_region.mpr ⟨ho.symm, hf, hxw⟩, ?_⟩, rfl⟩
    · unfold Queued
      rw [ho]
      exact hw
    · rwa [space_holds_iff hi]

/-- A request is eligible in the space exactly when the table admits it at its place. -/
theorem space_eligible_iff (hv : lock.range.start ≤ lock.range.stop) (seq : Nat) :
    t.space.Eligible Clash ⟨lock.owner, lock.type, lock.region, seq⟩ ↔
      (t.objectLocked lock.object).Admits lock (some seq) := by
  unfold LockSpace.Eligible LockSpace.Blocks ObjectLocks.Admits
  simp only [space_heldBlocks_iff hi hv, space_queueBlocks_iff hi]
  constructor
  · intro h
    refine ⟨fun l hl => ?_, fun x hx hn w hw hahead hcon => ?_⟩
    · rw [← Bool.not_eq_true]
      exact fun hc => h l.owner (.inl ⟨l, hl, hc, rfl⟩)
    · exact h w.lock.owner (.inr ⟨w, hw, hahead seq rfl, rfl, x, hx, hn, hcon⟩)
  · rintro ⟨h1, h2⟩ o (⟨l, hl, hc, rfl⟩ | ⟨w, hw, hlt, rfl, x, hx, hn, hcon⟩)
    · rw [h1 l hl] at hc
      simp at hc
    · refine h2 x hx hn w hw ?_ hcon
      rintro n hn
      exact Option.some.inj hn ▸ hlt

/-- `blockersLocked` lists exactly the owners that block a waiter in the space. -/
theorem space_blocks_iff {w : Waiter} (hv : w.lock.range.start ≤ w.lock.range.stop)
    (o : LockOwner) : t.space.Blocks Clash w.request o ↔ o ∈ t.blockersLocked w := by
  have hok := hi.object w.lock.object
  unfold LockSpace.Blocks Waiter.request
  rw [space_heldBlocks_iff hi hv, space_queueBlocks_iff hi]
  have hlist : t.blockersLocked w =
      ((t.objectLocked w.lock.object).held.collect w.lock.range.start w.lock.range.stop
        fun e => conflicts w.lock e.value).map (fun e => e.value.owner) ++
      (residualLocked (some (t.objectLocked w.lock.object)) w.lock).flatMap fun segment =>
        ((t.objectLocked w.lock.object).waiting.collect segment.start segment.stop fun e =>
          decide (e.value.seq < w.seq) &&
            conflicts { w.lock with range := segment } e.value.lock).map
          fun e => e.value.lock.owner := by
    unfold blockersLocked objectLocked
    cases t.objects.lookup w.lock.object with
    | some o => rfl
    | none =>
      symm
      rw [append_eq_nil_iff]
      exact ⟨rfl, flatMap_eq_nil_iff.mpr fun _ _ => rfl⟩
  rw [hlist, mem_append]
  apply or_congr
  · constructor
    · rintro ⟨l, hl, hc, rfl⟩
      obtain ⟨e, he, rfl⟩ := mem_map.mp hl
      obtain ⟨h1, h2, _⟩ := hok.indexed.held e he
      have hov := overlaps_iff.mp (conflicts_iff.mp hc).2.2.1
      refine mem_map.mpr ⟨e, ?_, rfl⟩
      rw [IntervalTree.mem_collect]
      exact ⟨he, by omega, by omega, hc⟩
    · intro hm
      obtain ⟨e, he, rfl⟩ := mem_map.mp hm
      obtain ⟨he, _, _, hc⟩ := (IntervalTree.mem_collect _ _ _ _ _).mp he
      exact ⟨e.value, mem_map.mpr ⟨e, he, rfl⟩, hc, rfl⟩
  · have hres := mem_residualLocked_iff hok.indexed w.lock
    have hval := residualLocked_valid (t.objectLocked w.lock.object) w.lock
    rw [mem_flatMap]
    constructor
    · rintro ⟨w', hw', hlt, rfl, x, hx, hn, hf, hne, hc, hxw⟩
      obtain ⟨seg, hseg, hxs⟩ := (hres x).mpr ⟨hx, hn⟩
      obtain ⟨e, he, rfl⟩ := mem_map.mp hw'
      obtain ⟨h1, h2, _, h4⟩ := hok.indexed.waiting e he
      have hov := (overlaps_iff_exists (hval seg hseg) h4).mpr ⟨x, hxs, hxw⟩
      refine ⟨seg, hseg, mem_map.mpr ⟨e, ?_, rfl⟩⟩
      rw [IntervalTree.mem_collect, Bool.and_eq_true, decide_eq_true_eq, conflicts_iff]
      have hov' := overlaps_iff.mp hov
      exact ⟨he, by omega, by omega, hlt, hf, hne, hov, hc⟩
    · rintro ⟨seg, hseg, hm⟩
      obtain ⟨e, he, rfl⟩ := mem_map.mp hm
      rw [IntervalTree.mem_collect, Bool.and_eq_true, decide_eq_true_eq, conflicts_iff] at he
      obtain ⟨he, _, _, hlt, hf, hne, hov, hc⟩ := he
      obtain ⟨_, _, _, h4⟩ := hok.indexed.waiting e he
      obtain ⟨x, hxs, hxw⟩ := (overlaps_iff_exists (hval seg hseg) h4).mp hov
      obtain ⟨hx, hn⟩ := (hres x).mp ⟨seg, hseg, hxs⟩
      exact ⟨e.value, mem_map.mpr ⟨e, he, rfl⟩, hlt, rfl, x, hx, hn, hf, hne, hc, hxw⟩

end

/-- The search expands an owner to the blockers of its other waiters. -/
theorem mem_ownerBlockers {t : LockTable} (hi : Inv none t) (w : Waiter) (a b : LockOwner) :
    b ∈ t.ownerBlockers w a ↔
      ∃ y, t.Queued y ∧ y ≠ w ∧ y.lock.owner = a ∧ b ∈ t.blockersLocked y := by
  unfold ownerBlockers
  constructor
  · split
    · simp
    next s hs =>
    intro hb
    obtain ⟨y, hy, hb⟩ := mem_flatMap.mp hb
    simp only [LockSession.waitersOf, mem_filter, decide_eq_true_eq] at hy
    exact ⟨y, (((hi.session _ s hs).waiters y).mp hy.1.1).1, hy.2, hy.1.2, hb⟩
  · rintro ⟨y, hq, hne, rfl, hb⟩
    rcases hi.waiting_known y hq with hs | hd
    · obtain ⟨s, hs⟩ := Option.ne_none_iff_exists'.mp hs
      rw [hs]
      refine mem_flatMap.mpr ⟨y, ?_, hb⟩
      simp only [LockSession.waitersOf, mem_filter, decide_eq_true_eq]
      exact ⟨⟨((hi.session _ s hs).waiters y).mpr ⟨hq, rfl⟩, trivial⟩, hne⟩
    · simp at hd

/-- Blockers of the waiters of one session whose owners are still unvisited. -/
private def openBlockers (t : LockTable) (visited : List LockOwner) (ws : List Waiter) : Nat :=
  ((ws.filter fun y => decide (y.lock.owner ∉ visited)).map
    fun y => (t.blockersLocked y).length).sum

variable (t : LockTable)

private theorem openBlockers_visit {visited : List LockOwner} {o : LockOwner}
    (ho : o ∉ visited) (ws : List Waiter) :
    t.openBlockers (o :: visited) ws + ((ws.filter fun y => decide (y.lock.owner = o)).map
        fun y => (t.blockersLocked y).length).sum = t.openBlockers visited ws := by
  induction ws with
  | nil => rfl
  | cons y ws ih =>
    unfold openBlockers at *
    by_cases hy : y.lock.owner = o
    · have hn : y.lock.owner ∉ visited := hy ▸ ho
      simp only [filter_cons, mem_cons, hy, true_or, not_true_eq_false, decide_false,
        Bool.false_eq_true, if_false, decide_true, if_true, map_cons, sum_cons, ho,
        not_false_eq_true] at ih ⊢
      omega
    · by_cases hv : y.lock.owner ∈ visited
      · simp only [filter_cons, mem_cons, hy, hv, or_true, not_true_eq_false,
          decide_false, Bool.false_eq_true, if_false] at ih ⊢
        exact ih
      · simp only [filter_cons, mem_cons, hy, hv, or_false, not_false_eq_true,
          decide_true, if_true, decide_false, Bool.false_eq_true, if_false, map_cons,
          sum_cons] at ih ⊢
        omega

private theorem length_ownerBlockers_le (w : Waiter) (o : LockOwner) :
    (t.ownerBlockers w o).length ≤ t.sessions.at? (fun _ s =>
      ((s.waiters.filter fun y => decide (y.lock.owner = o)).map
        fun y => (t.blockersLocked y).length).sum) o.session := by
  unfold ownerBlockers Assoc.at?
  split
  · next hn =>
    rw [hn]
    exact le_rfl
  · next s hs =>
    rw [hs, length_flatMap]
    exact (filter_sublist.map _).sum_le_sum (by simp)

/-- The deadlock search ends, and is the loop over the owners' blockers. -/
theorem deadlockLocked_explores (w : Waiter) :
    ∃ expanded, Explores (fun owner => (t.ownerBlockers w owner).reverse) w.lock.owner []
      (t.blockersLocked w).reverse (t.deadlockLocked w) expanded := by
  apply search_explores fun visited => t.sessions.total fun _ s => t.openBlockers visited s.waiters
  · intro visited o ho
    have hsplit : (t.sessions.total fun _ s => t.openBlockers visited s.waiters) =
        (t.sessions.total fun _ s => t.openBlockers (o :: visited) s.waiters) +
          t.sessions.total fun _ s => ((s.waiters.filter fun y => decide (y.lock.owner = o)).map
            fun y => (t.blockersLocked y).length).sum := by
      rw [← Assoc.total_add]
      apply Assoc.total_congr
      intro id s _
      exact (t.openBlockers_visit ho s.waiters).symm
    have hone := Assoc.at_le_total t.sessions (fun _ s =>
      ((s.waiters.filter fun y => decide (y.lock.owner = o)).map
        fun y => (t.blockersLocked y).length).sum) o.session
    have hlen := t.length_ownerBlockers_le w o
    rw [length_reverse]
    omega
  · have hzero : (t.sessions.total fun _ s => t.openBlockers [] s.waiters) = t.blockerCount := by
      unfold blockerCount
      apply Assoc.total_congr
      intro id s _
      unfold openBlockers
      simp
    rw [hzero]
    omega

/-- The search finds a deadlock exactly when some blocker waits, transitively, for the owner. -/
theorem deadlockLocked_iff (w : Waiter) : t.deadlockLocked w = true ↔ ∃ b ∈ t.blockersLocked w,
      Relation.ReflTransGen (fun a b => b ∈ t.ownerBlockers w a) b w.lock.owner := by
  obtain ⟨expanded, h⟩ := t.deadlockLocked_explores w
  simpa only [mem_reverse] using h.verdict_iff

end LockTable
end PortableFS.Locks
