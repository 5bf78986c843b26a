import PortableFS.Base.LockSpace
import PortableFS.Locks.Table

/-!
# What the queries of the lock table decide

Module `volumeserver`, `vcs/internal/volumeserver/locks.go:665–754,1056–1082`. Each query is
restated byte by byte over the held records and the queue of one object, and the table is
observed as a lock space whose points are the bytes of all objects, one copy for each flock
class. A waiter is eligible, and an owner blocks it, exactly as in that space.
-/

namespace PortableFS.Locks

open PortableFS.Base List

/-- Index keys are those of the stored values, and no stored range is empty. -/
structure ObjectLocks.Indexed (o : ObjectLocks) : Prop where
  held : ∀ e ∈ o.held.entries, e.start = e.value.range.start ∧ e.stop = e.value.range.stop ∧
    e.value.range.start ≤ e.value.range.stop
  waiting : ∀ e ∈ o.waiting.entries, e.start = e.value.lock.range.start ∧
    e.stop = e.value.lock.range.stop ∧ e.id = e.value.seq ∧
    e.value.lock.range.start ≤ e.value.lock.range.stop

theorem ObjectLocks.indexed_empty : ObjectLocks.empty.Indexed := by
  constructor <;> intro e he <;> simp [ObjectLocks.empty] at he

namespace ObjectLocks.Indexed

variable {o : ObjectLocks} (h : o.Indexed)
include h

theorem waiting_valid {w : Waiter} (hw : w ∈ o.waiting.values) :
    w.lock.range.start ≤ w.lock.range.stop := by
  obtain ⟨e, he, rfl⟩ := mem_map.mp hw
  exact (h.waiting e he).2.2.2

end ObjectLocks.Indexed

variable {o : ObjectLocks}

/-- No conflict is reported exactly when no held record conflicts. -/
theorem conflictLocked_eq_none_iff (h : o.Indexed) (want : Lock) :
    conflictLocked (some o) want = none ↔ ∀ l ∈ o.held.values, conflicts want l = false := by
  unfold conflictLocked
  dsimp only
  rw [Option.map_eq_none_iff, IntervalTree.first_eq_none_iff]
  constructor
  · intro hn l hl
    obtain ⟨e, he, rfl⟩ := mem_map.mp hl
    obtain ⟨h1, h2, _⟩ := h.held e he
    by_contra hc
    rw [Bool.not_eq_false] at hc
    have ho := overlaps_iff.mp (conflicts_iff.mp hc).2.2.1
    have := hn e he (by omega) (by omega)
    simp [hc] at this
  · intro hn e he _ _
    exact hn e.value (mem_map.mpr ⟨e, he, rfl⟩)

private theorem mem_subtractFrom_valid (r : LockRange) (cursor : Nat) (covered : List LockRange) :
    ∀ s ∈ subtractFrom r cursor covered, s.start ≤ s.stop := by
  induction covered generalizing cursor with
  | nil =>
    intro s hs
    unfold subtractFrom at hs
    split at hs
    · next h =>
      rw [mem_singleton] at hs
      subst hs
      exact h
    · simp at hs
  | cons c cs ih =>
    intro s hs
    unfold subtractFrom at hs
    split at hs
    · exact ih cursor s hs
    rcases mem_append.mp hs with hs | hs
    · split at hs
      · next h =>
        rw [mem_singleton] at hs
        subst hs
        simp only
        omega
      · simp at hs
    · split at hs
      · simp at hs
      · exact ih _ s hs

-- Coverage sorted by start suffices: whatever lies before the current piece is uncovered by
-- all later ones.
private theorem mem_subtractFrom_iff (r : LockRange) (cursor : Nat) (covered : List LockRange)
    (hs : covered.Pairwise fun a b => a.start ≤ b.start) (hv : ∀ c ∈ covered, c.start ≤ r.stop)
    (x : Nat) :
    (∃ s ∈ subtractFrom r cursor covered, x ∈ s) ↔
      cursor ≤ x ∧ x ≤ r.stop ∧ ∀ c ∈ covered, x ∉ c := by
  induction covered generalizing cursor with
  | nil =>
    unfold subtractFrom
    split
    · next h => simp [LockRange.mem_iff]
    · next h =>
      simp
      omega
  | cons c cs ih =>
    obtain ⟨hc, hs⟩ := pairwise_cons.mp hs
    have hvc := hv c (by simp)
    have ih := fun cursor => ih cursor hs (fun d hd => hv d (by simp [hd]))
    unfold subtractFrom
    split
    · next hlt =>
      rw [ih]
      simp only [mem_cons, forall_eq_or_imp, LockRange.mem_iff]
      constructor
      · rintro ⟨h1, h2, h3⟩
        exact ⟨h1, h2, by omega, h3⟩
      · rintro ⟨h1, h2, _, h3⟩
        exact ⟨h1, h2, h3⟩
    next hge =>
    simp only [mem_append, mem_cons, forall_eq_or_imp]
    constructor
    · rintro ⟨s, hs | hs, hx⟩
      · split at hs
        · next h =>
          rw [mem_singleton] at hs
          subst hs
          obtain ⟨h1, h2⟩ := hx
          simp only at h1 h2
          refine ⟨h1, by omega, ?_, ?_⟩
          · rw [LockRange.mem_iff]; omega
          · intro d hd hxd
            have := hc d hd
            rw [LockRange.mem_iff] at hxd
            omega
        · simp at hs
      · split at hs
        · simp at hs
        · next h =>
          obtain ⟨h1, h2, h3⟩ := (ih (c.stop + 1)).mp ⟨s, hs, hx⟩
          refine ⟨by omega, h2, ?_, h3⟩
          rw [LockRange.mem_iff]; omega
    · rintro ⟨h1, h2, h3, h4⟩
      rw [LockRange.mem_iff] at h3
      by_cases hxc : x < c.start
      · have hcur : cursor < c.start := by omega
        rw [dif_pos hcur]
        refine ⟨_, .inl (mem_singleton_self _), h1, ?_⟩
        simp only
        omega
      · have hstop : ¬ r.stop ≤ c.stop := by omega
        rw [if_neg hstop]
        obtain ⟨s, hs, hx⟩ := (ih (c.stop + 1)).mpr ⟨by omega, h2, h4⟩
        exact ⟨s, .inr hs, hx⟩

/-- The owner holds the byte at a type that satisfies `want`. -/
def ObjectLocks.Covers (o : ObjectLocks) (owner : LockOwner) (want : LockType) (x : Nat) : Prop :=
  ∃ l ∈ o.held.values, l.owner = owner ∧ want ≤ l.type ∧ x ∈ l.range

/-- Residual segments are nonempty. -/
theorem residualLocked_valid (o : ObjectLocks) (lock : Lock) :
    ∀ s ∈ residualLocked (some o) lock, s.start ≤ s.stop :=
  mem_subtractFrom_valid _ _ _

/-- The residual covers exactly the requested bytes the owner does not already hold. -/
theorem mem_residualLocked_iff (h : o.Indexed) (lock : Lock) (x : Nat) :
    (∃ s ∈ residualLocked (some o) lock, x ∈ s) ↔
      x ∈ lock.range ∧ ¬ o.Covers lock.owner lock.type x := by
  unfold residualLocked subtractCoverage
  dsimp only
  rw [mem_subtractFrom_iff]
  · constructor
    · rintro ⟨h1, h2, h3⟩
      refine ⟨⟨h1, h2⟩, ?_⟩
      rintro ⟨l, hl, ho, ht, hx⟩
      obtain ⟨e, he, rfl⟩ := mem_map.mp hl
      obtain ⟨hs1, hs2, _⟩ := h.held e he
      rw [LockRange.mem_iff] at hx
      refine h3 e.value.range (mem_map.mpr ⟨e, ?_, rfl⟩) hx
      rw [IntervalTree.mem_collect]
      refine ⟨he, by omega, by omega, ?_⟩
      simp only [Bool.and_eq_true, decide_eq_true_eq]
      exact ⟨ho, ht⟩
    · rintro ⟨⟨h1, h2⟩, hn⟩
      refine ⟨h1, h2, ?_⟩
      intro c hc hx
      obtain ⟨e, he, rfl⟩ := mem_map.mp hc
      rw [IntervalTree.mem_collect] at he
      simp only [Bool.and_eq_true, decide_eq_true_eq] at he
      exact hn ⟨e.value, mem_map.mpr ⟨e, he.1, rfl⟩, he.2.2.2.1, he.2.2.2.2, hx⟩
  · rw [pairwise_map, IntervalTree.collect_eq]
    have hsort := o.held.starts_sorted
    apply ((hsort.filter _).filter _).imp_of_mem
    intro a b ha hb hab
    have ha := h.held a (mem_of_mem_filter (mem_of_mem_filter ha))
    have hb := h.held b (mem_of_mem_filter (mem_of_mem_filter hb))
    omega
  · intro c hc
    obtain ⟨e, he, rfl⟩ := mem_map.mp hc
    rw [IntervalTree.mem_collect] at he
    obtain ⟨hs1, _, _⟩ := h.held e he.1
    omega

/-- Two requests of different owners exclude each other at the byte. -/
def Contends (a b : Lock) (x : Nat) : Prop :=
  a.owner.flock = b.owner.flock ∧ a.owner ≠ b.owner ∧ Clash a.type b.type ∧ x ∈ b.range

/-- Nothing is queued ahead exactly when no earlier waiter contends for a residual byte. -/
theorem queuedAheadLocked_eq_none_iff (h : o.Indexed) (lock : Lock) (before : Option Nat) :
    queuedAheadLocked (some o) lock (residualLocked (some o) lock) before = none ↔
      ∀ x ∈ lock.range, ¬ o.Covers lock.owner lock.type x → ∀ w ∈ o.waiting.values,
        (∀ seq, before = some seq → w.seq < seq) → ¬ Contends lock w.lock x := by
  have hres := mem_residualLocked_iff h lock
  have hval := residualLocked_valid o lock
  unfold queuedAheadLocked
  dsimp only
  split
  · next hz =>
    rw [IntervalTree.size_eq_zero_iff] at hz
    simp [IntervalTree.values, hz]
  rw [List.findSome?_eq_none_iff]
  constructor
  · intro hn x hx hnc w hw hb hcon
    obtain ⟨s, hs, hxs⟩ := (hres x).mpr ⟨hx, hnc⟩
    have hn := hn s hs
    rw [Option.map_eq_none_iff, IntervalTree.first_eq_none_iff] at hn
    obtain ⟨e, he, rfl⟩ := mem_map.mp hw
    obtain ⟨h1, h2, h3, h4⟩ := h.waiting e he
    obtain ⟨c1, c2, c3, c4⟩ := hcon
    rw [LockRange.mem_iff] at hxs c4
    have hn := hn e he (by omega) (by omega)
    rw [Bool.and_eq_false_iff] at hn
    rcases hn with hn | hn
    · cases before with
      | none => simp at hn
      | some seq =>
        have := hb seq rfl
        simp at hn
        omega
    · rw [← Bool.not_eq_true, conflicts_iff] at hn
      apply hn
      refine ⟨c1, c2, ?_, c3⟩
      rw [overlaps_iff]
      simp only
      omega
  · intro hn s hs
    rw [Option.map_eq_none_iff, IntervalTree.first_eq_none_iff]
    intro e he _ _
    rw [← Bool.not_eq_true, Bool.and_eq_true, conflicts_iff]
    rintro ⟨hb, c1, c2, c3, c4⟩
    obtain ⟨h1, h2, h3, h4⟩ := h.waiting e he
    obtain ⟨x, hxs, hxw⟩ := (overlaps_iff_exists (hval s hs) h4).mp c3
    obtain ⟨hx, hnc⟩ := (hres x).mp ⟨s, hs, hxs⟩
    refine hn x hx hnc e.value (mem_map.mpr ⟨e, he, rfl⟩) ?_ ⟨c1, c2, c4, hxw⟩
    rintro seq rfl
    simpa using hb

private theorem residual_isEmpty (h : o.Indexed) (lock : Lock)
    (he : (residualLocked (some o) lock).isEmpty = true) (x : Nat) (hx : x ∈ lock.range) :
    o.Covers lock.owner lock.type x := by
  by_contra hn
  obtain ⟨s, hs, _⟩ := (mem_residualLocked_iff h lock x).mpr ⟨hx, hn⟩
  rw [List.isEmpty_iff] at he
  simp [he] at hs

/-- A request may be installed now: no held record conflicts, and no earlier waiter contends
for a byte it would newly cover. `before = none` puts every waiter ahead. -/
def ObjectLocks.Admits (o : ObjectLocks) (lock : Lock) (before : Option Nat) : Prop :=
  (∀ l ∈ o.held.values, conflicts lock l = false) ∧
    ∀ x ∈ lock.range, ¬ o.Covers lock.owner lock.type x → ∀ w ∈ o.waiting.values,
      (∀ seq, before = some seq → w.seq < seq) → ¬ Contends lock w.lock x

/-- The two checks of `Set` and of `waiterEligibleLocked` decide admission. -/
theorem admits_iff (h : o.Indexed) (lock : Lock) (before : Option Nat) :
    o.Admits lock before ↔ conflictLocked (some o) lock = none ∧
      ((residualLocked (some o) lock).isEmpty = true ∨
        queuedAheadLocked (some o) lock (residualLocked (some o) lock) before = none) := by
  unfold ObjectLocks.Admits
  rw [conflictLocked_eq_none_iff h, queuedAheadLocked_eq_none_iff h]
  constructor
  · rintro ⟨h1, h2⟩
    exact ⟨h1, .inr h2⟩
  · rintro ⟨h1, h2 | h2⟩
    · exact ⟨h1, fun x hx hn => absurd (residual_isEmpty h lock h2 x hx) hn⟩
    · exact ⟨h1, h2⟩

/-- `waiterEligibleLocked` decides admission at the waiter's place in the queue. -/
theorem waiterEligibleLocked_iff (h : o.Indexed) (w : Waiter) :
    waiterEligibleLocked (some o) w = true ↔ o.Admits w.lock (some w.seq) := by
  rw [admits_iff h]
  unfold waiterEligibleLocked
  cases hc : conflictLocked (some o) w.lock with
  | some l => simp
  | none =>
    dsimp only
    cases hr : (residualLocked (some o) w.lock).isEmpty with
    | true => simp
    | false => simp [Option.isNone_iff_eq_none]

end PortableFS.Locks
