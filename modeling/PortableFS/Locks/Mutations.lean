import PortableFS.Locks.Invariant

/-!
# Primitive mutations of the lock table

Module `volumeserver`, `vcs/internal/volumeserver/locks.go:862–955`. The methods of the table
mutate it in three ways: they retire a waiter, install a plan, or queue a waiter. Each of
them is given by what it does to the records, the queues and the counts, and keeps the
invariant.
-/

namespace PortableFS.Locks

open PortableFS.Base List

namespace LockTable

variable {w : Waiter} {t : LockTable}

/-- A queued waiter's object has an entry. -/
theorem Queued.lookup (h : t.Queued w) :
    t.objects.lookup w.lock.object = some (t.objectLocked w.lock.object) := by
  unfold Queued objectLocked at *
  cases ho : t.objects.lookup w.lock.object with
  | none => simp [ho, ObjectLocks.empty] at h
  | some o => rfl

/-- A queued request is cancelled at its object. -/
theorem Queued.cancel_eq (h : t.Queued w) (wake : Wake)
    (err : LockError) : cancelWaiterLocked wake t w err =
      (wake (retireWaiter (some err) t w) w.lock.object w.lock.range).pruneObjectLocked
        w.lock.object := by
  unfold cancelWaiterLocked
  rw [h.lookup]

/-- The queue entry of `w` has left the index. -/
def Dequeued (waiting waiting' : IntervalTree Waiter) (w : Waiter) : Prop :=
  ∃ e, e.value = w ∧ waiting.entries.Perm (e :: waiting'.entries)

variable {waiting : IntervalTree Waiter}

theorem Dequeued.values {waiting' : IntervalTree Waiter}
    (h : Dequeued waiting waiting' w) : waiting.values.Perm (w :: waiting'.values) := by
  obtain ⟨e, rfl, hp⟩ := h
  exact hp.map Entry.value

variable {k : ObjectKey} {n : Nat} {o : ObjectLocks}

private theorem values_nodup (h : ObjectOk k n o) :
    o.waiting.values.Nodup := by
  have hid : o.waiting.entries.map Entry.id = o.waiting.values.map Waiter.seq := by
    unfold IntervalTree.values
    rw [map_map]
    apply map_congr_left
    intro e he
    exact (h.indexed.waiting e he).2.2.1
  have hs := h.seqs
  rw [hid] at hs
  exact hs.of_map

/-- Removing a queued waiter, spelled out. -/
theorem removeWaiterLocked_eq
    (ho : ObjectOk w.lock.object t.nextID (t.objectLocked w.lock.object)) (hq : t.Queued w) :
    ∃ waiting, Dequeued (t.objectLocked w.lock.object).waiting waiting w ∧ t.removeWaiterLocked w =
        { t with
          objects := t.objects.insert w.lock.object { t.objectLocked w.lock.object with waiting }
          sessions := Assoc.modify t.sessions w.lock.owner.session fun s =>
            { s with waiters := s.waiters.erase w, records := s.records - 1 }
          waiting := t.waiting - 1 } := by
  have hl := hq.lookup
  generalize ho' : t.objectLocked w.lock.object = o at *
  obtain ⟨e, he, hew⟩ := mem_map.mp (ho' ▸ hq : w ∈ o.waiting.values)
  obtain ⟨h1, h2, h3, _⟩ := ho.indexed.waiting e he
  rw [hew] at h1 h2 h3
  unfold removeWaiterLocked
  rw [hl]
  dsimp only
  rcases o.waiting.entries_remove w.lock.range.start w.lock.range.stop w.seq with
    ⟨_, _, hno⟩ | ⟨hr, e', hk, he', hp⟩
  · exact absurd ⟨h1, h2, h3⟩ (hno e he)
  have hee : e' = e := List.inj_on_of_nodup_map ho.seqs he' he (hk.2.2.trans h3.symm)
  refine ⟨(o.waiting.remove w.lock.range.start w.lock.range.stop w.seq).1, ⟨e', hee ▸ hew, hp⟩, ?_⟩
  cases hrem : o.waiting.remove w.lock.range.start w.lock.range.stop w.seq with
  | mk waiting found =>
    rw [hrem] at hr
    simp only at hr
    subst hr
    rfl

/-- An object whose queue lost an entry is still in order. -/
theorem ObjectOk.dequeue
    (h : ObjectOk k n o) (hd : Dequeued o.waiting waiting w) : ObjectOk k n { o with waiting } := by
  obtain ⟨e, rfl, hp⟩ := hd
  have hsub : ∀ x ∈ waiting.entries, x ∈ o.waiting.entries := by
    intro x hx
    exact hp.mem_iff.mpr (mem_cons_of_mem e hx)
  constructor
  · exact ⟨h.indexed.held, fun x hx => h.indexed.waiting x (hsub x hx)⟩
  · exact h.held_object
  · intro w' hw'
    obtain ⟨x, hx, rfl⟩ := mem_map.mp hw'
    exact h.waiting_object x.value (mem_map.mpr ⟨x, hsub x hx, rfl⟩)
  · exact h.ids
  · exact h.compatible
  · have hn := (hp.map Entry.id).nodup_iff.mp h.seqs
    exact (nodup_cons.mp hn).2

section Retire

variable {dead : Option SessionID} {t : LockTable} {w : Waiter}
variable (hi : Inv dead t) (hq : t.Queued w) (err : Option LockError)
include hi hq

private theorem retireWaiter_eq :
    ∃ waiting, Dequeued (t.objectLocked w.lock.object).waiting waiting w ∧ retireWaiter err t w =
        { t with
          objects := t.objects.insert w.lock.object { t.objectLocked w.lock.object with waiting }
          sessions := Assoc.modify t.sessions w.lock.owner.session fun s =>
            { s with waiters := s.waiters.erase w, records := s.records - 1 }
          waiting := t.waiting - 1
          waiters := Assoc.modify t.waiters w.seq fun s =>
            if s.settled then s else { s with settled := true, err } } := by
  obtain ⟨waiting, hd, heq⟩ := removeWaiterLocked_eq (hi.object w.lock.object) hq
  refine ⟨waiting, hd, ?_⟩
  unfold retireWaiter
  rw [heq]
  rfl

private theorem objectLocked_retire :
    ∃ waiting, Dequeued (t.objectLocked w.lock.object).waiting waiting w ∧
      ∀ k, (retireWaiter err t w).objectLocked k =
        if k = w.lock.object then { t.objectLocked w.lock.object with waiting }
        else t.objectLocked k := by
  obtain ⟨waiting, hd, heq⟩ := retireWaiter_eq hi hq err
  refine ⟨waiting, hd, fun k => ?_⟩
  rw [heq]
  exact objectLocked_insert t _ k _

/-- Retiring a waiter leaves every held record. -/
theorem held_retire (k : ObjectKey) :
    ((retireWaiter err t w).objectLocked k).held = (t.objectLocked k).held := by
  obtain ⟨waiting, _, hobj⟩ := objectLocked_retire hi hq err
  rw [hobj]
  split
  · next h => rw [h]
  · rfl

/-- Retiring a waiter removes exactly it from the queues. -/
theorem queued_retire (w' : Waiter) : (retireWaiter err t w).Queued w' ↔ t.Queued w' ∧ w' ≠ w := by
  obtain ⟨waiting, hd, hobj⟩ := objectLocked_retire hi hq err
  unfold Queued
  rw [hobj]
  split
  · next h =>
    have hp := hd.values
    have hn := hp.nodup_iff.mp (values_nodup (hi.object w.lock.object))
    rw [h, hp.mem_iff, mem_cons]
    constructor
    · intro hw'
      refine ⟨.inr hw', ?_⟩
      rintro rfl
      exact (nodup_cons.mp hn).1 hw'
    · rintro ⟨rfl | hw', hne⟩
      · exact absurd rfl hne
      · exact hw'
  · next h =>
    refine ⟨fun hw' => ⟨hw', ?_⟩, fun hw' => hw'.1⟩
    rintro rfl
    exact h rfl

/-- Retiring a waiter lowers the counts it was part of. -/
theorem count_retire (p : Lock → Bool) (q : Waiter → Bool) :
    (retireWaiter err t w).count p q + (if q w then 1 else 0) = t.count p q := by
  obtain ⟨waiting, hd, heq⟩ := retireWaiter_eq hi hq err
  have hc := t.count_insert w.lock.object { t.objectLocked w.lock.object with waiting } p q
  have hload : (t.objectLocked w.lock.object).waiting.values.countP q =
      waiting.values.countP q + if q w then 1 else 0 := by
    rw [hd.values.countP_eq, countP_cons]
  rw [heq]
  unfold count at *
  simp only [ObjectLocks.load] at *
  omega

/-- Retiring a waiter decides it and touches no other waiter object. -/
theorem waiters_retire (seq : Nat) : (retireWaiter err t w).waiters.lookup seq =
      if seq = w.seq then some ⟨w.lock, true, err⟩ else t.waiters.lookup seq := by
  obtain ⟨waiting, hd, heq⟩ := retireWaiter_eq hi hq err
  rw [heq]
  dsimp only
  rw [Assoc.lookup_modify, hi.queued w hq]
  rfl

variable {id : SessionID}

private theorem session_retire {s : LockSession}
    (hs : (retireWaiter err t w).sessions.lookup id = some s) :
    ∃ s₀, t.sessions.lookup id = some s₀ ∧ s = if id = w.lock.owner.session then
        { s₀ with waiters := s₀.waiters.erase w, records := s₀.records - 1 } else s₀ := by
  obtain ⟨waiting, hd, heq⟩ := retireWaiter_eq hi hq err
  rw [heq] at hs
  dsimp only at hs
  rw [Assoc.lookup_modify] at hs
  split at hs
  · next h =>
    obtain ⟨s₀, hs₀, rfl⟩ := Option.map_eq_some_iff.mp hs
    exact ⟨s₀, h ▸ hs₀, by rw [if_pos h]⟩
  · next h => exact ⟨s, hs, by rw [if_neg h]⟩

private theorem known_retire (h : t.Known dead id) : (retireWaiter err t w).Known dead id := by
  obtain ⟨waiting, hd, heq⟩ := retireWaiter_eq hi hq err
  refine h.imp (fun hs hn => hs ?_) (fun hd => hd)
  rw [heq] at hn
  exact (Assoc.lookup_modify_eq_none _ _ _ _).mp hn

theorem nextID_retire : (retireWaiter err t w).nextID = t.nextID := by
  obtain ⟨waiting, hd, heq⟩ := retireWaiter_eq hi hq err
  rw [heq]

theorem now_retire : (retireWaiter err t w).now = t.now := by
  obtain ⟨waiting, hd, heq⟩ := retireWaiter_eq hi hq err
  rw [heq]

theorem nextSeq_retire : (retireWaiter err t w).nextSeq = t.nextSeq := by
  obtain ⟨waiting, hd, heq⟩ := retireWaiter_eq hi hq err
  rw [heq]

/-- Retiring a waiter lowers the waiting counter. -/
theorem waiting_retire : (retireWaiter err t w).waiting + 1 = t.waiting := by
  obtain ⟨waiting, hd, heq⟩ := retireWaiter_eq hi hq err
  have hc := count_retire hi hq err (fun _ => false) fun _ => true
  rw [← hi.waiting_eq] at hc
  rw [heq]
  simp only [if_true] at hc ⊢
  omega

/-- Retiring a queued waiter keeps the invariant. -/
theorem Inv.retire : Inv dead (retireWaiter err t w) := by
  obtain ⟨waiting, hd, heq⟩ := retireWaiter_eq hi hq err
  have hcount := count_retire hi hq err
  have hqueued := queued_retire hi hq err
  have hheld := held_retire hi hq err
  have hnext : (retireWaiter err t w).nextID = t.nextID := by rw [heq]
  have hh : (retireWaiter err t w).held = t.held := by rw [heq]
  have hw : (retireWaiter err t w).waiting = t.waiting - 1 := by rw [heq]
  constructor
  · intro id hd
    rw [heq]
    exact (Assoc.lookup_modify_eq_none _ _ _ _).mpr (hi.dead_gone id hd)
  · intro k
    obtain ⟨waiting, hd, hobj⟩ := objectLocked_retire hi hq err
    rw [hobj, hnext]
    split
    · next h =>
      rw [h]
      exact (hi.object w.lock.object).dequeue hd
    · exact hi.object k
  · intro w' hw'
    obtain ⟨hw', hne⟩ := (hqueued w').mp hw'
    rw [waiters_retire hi hq]
    split
    · next hseq =>
      -- one sequence number names one waiter object
      have h1 := hi.queued w' hw'
      rw [hseq, hi.queued w hq] at h1
      apply absurd _ hne
      cases w' with
      | mk lock seq =>
        cases w with
        | mk lock' seq' =>
          simp only [Option.some.injEq, WaiterState.mk.injEq] at h1 hseq
          rw [h1.1, hseq]
    · exact hi.queued w' hw'
  · intro seq s hs
    rw [waiters_retire hi hq] at hs
    have hseq : (retireWaiter err t w).nextSeq = t.nextSeq := by rw [heq]
    rw [hseq]
    split at hs
    · next h =>
      cases hs
      refine ⟨h ▸ (hi.pending w.seq _ (hi.queued w hq)).1, fun hf => ?_⟩
      simp at hf
    next h =>
    obtain ⟨hle, hun⟩ := hi.pending seq s hs
    refine ⟨hle, fun hf => (hqueued _).mpr ⟨hun hf, ?_⟩⟩
    rintro rfl
    exact h rfl
  · intro k l hl
    rw [hheld] at hl
    exact known_retire hi hq err (hi.held_known k l hl)
  · intro w' hw'
    exact known_retire hi hq err (hi.waiting_known w' ((hqueued w').mp hw').1)
  · intro id s hs
    obtain ⟨s₀, hs₀, hs⟩ := session_retire hi hq err hs
    have hok := hi.session id s₀ hs₀
    have hc := hcount (ofSession id) (fun w => ofSession id w.lock)
    have hmax : (retireWaiter err t w).maxPerSession = t.maxPerSession := by rw [heq]
    by_cases hid : id = w.lock.owner.session
    · rw [if_pos hid] at hs
      subst hs
      have hof : ofSession id w.lock = true := by simp [ofSession, hid]
      rw [if_pos hof, ← hok.records] at hc
      constructor
      · simp only
        omega
      · rw [hmax]
        exact Nat.le_trans (Nat.sub_le _ _) hok.records_le
      · intro k
        rw [hheld]
        exact hok.objects k
      · exact hok.objects_pos
      · exact hok.nodup.erase w
      · intro w'
        rw [hqueued, hok.nodup.mem_erase_iff, hok.waiters]
        tauto
    · rw [if_neg hid] at hs
      subst hs
      have hof : ofSession id w.lock = false := by simp [ofSession, Ne.symm hid]
      rw [hof] at hc
      refine hok.frame (by simpa using hc) hmax (fun k => by rw [hheld]) fun w' hw' => ?_
      rw [hqueued, and_iff_left]
      rintro rfl
      exact hid hw'.symm
  · rw [hh, hi.held_eq]
    simpa using (hcount (fun _ => true) (fun _ => false)).symm
  · have hc := hcount (fun _ => false) (fun _ => true)
    rw [hw, hi.waiting_eq]
    simp only [if_true] at hc
    omega
  · have hmax : (retireWaiter err t w).maxRecords = t.maxRecords := by rw [heq]
    have := hi.limit
    rw [hh, hw, hmax]
    omega

end Retire

section Install

variable {dead : Option SessionID} {t : LockTable} {k : ObjectKey} {owner : LockOwner}
variable {plan : LockPlan} {rest : List (Entry Lock)}
variable (hi : Inv dead t) (he : plan.Edits (t.objectLocked k) k owner rest) (history : List Grant)

theorem objectLocked_install (t : LockTable) (k : ObjectKey) (id : SessionID) (plan : LockPlan)
    (history : List Grant) (k' : ObjectKey) :
    (t.installPlan k id plan history).objectLocked k' =
      if k' = k then
        { t.objectLocked k with
          held := (installRecords (t.objectLocked k).held t.nextID plan).1 }
      else t.objectLocked k' :=
  objectLocked_insert t k k' _

/-- Installing a plan leaves every queue. -/
theorem queued_install (t : LockTable) (k : ObjectKey) (id : SessionID) (plan : LockPlan)
    (history : List Grant) (w : Waiter) :
    (t.installPlan k id plan history).Queued w ↔ t.Queued w := by
  unfold Queued
  rw [objectLocked_install]
  split
  · next h => rw [h]
  · rfl

include hi he

/-- After the installation the object holds the rest and the plan's records. -/
theorem values_install : (installRecords (t.objectLocked k).held t.nextID plan).1.values.Perm
      (rest.map Entry.value ++ plan.insert) := by
  obtain ⟨fresh, hp, hvals, _⟩ := installRecords_spec (hi.object k).ids he.split
  have := hp.map Entry.value
  rw [map_append, hvals] at this
  exact this.trans perm_append_comm

private theorem objectOk_install :
    ObjectOk k (installRecords (t.objectLocked k).held t.nextID plan).2
      { t.objectLocked k with
        held := (installRecords (t.objectLocked k).held t.nextID plan).1 } := by
  have hok := hi.object k
  obtain ⟨fresh, hp, hvals, hfresh, _, hids⟩ := installRecords_spec hok.ids he.split
  have hperm := values_install hi he
  have hnew := he.ok.perm hperm.symm
  constructor
  · refine ⟨?_, hok.indexed.waiting⟩
    intro e hm
    have hv := hnew.valid e.value (mem_map.mpr ⟨e, hm, rfl⟩)
    rcases mem_append.mp (hp.mem_iff.mp hm) with hf | hr
    · exact ⟨(hfresh e hf).start_eq, (hfresh e hf).stop_eq, hv⟩
    · exact hok.indexed.held e (he.split.mem_iff.mpr (mem_append_right _ hr))
  · intro l hl
    rcases mem_append.mp (hperm.mem_iff.mp hl) with hl | hl
    · obtain ⟨e, hm, rfl⟩ := mem_map.mp hl
      exact hok.held_object e.value
        (mem_map.mpr ⟨e, he.split.mem_iff.mpr (mem_append_right _ hm), rfl⟩)
    · exact (he.inserted l hl).2
  · exact hok.waiting_object
  · exact hids
  · exact hnew
  · exact hok.seqs

private theorem countP_install (p : Lock → Bool) :
    (installRecords (t.objectLocked k).held t.nextID plan).1.values.countP p +
      (plan.remove.map Entry.value).countP p =
      (t.objectLocked k).held.values.countP p + plan.insert.countP p := by
  have h1 := (values_install hi he).countP_eq p
  have h2 := (he.split.map Entry.value).countP_eq p
  rw [map_append, countP_append] at h2
  rw [countP_append] at h1
  unfold IntervalTree.values at *
  omega

/-- Installing a plan moves the counts by what it removes and adds. -/
theorem count_install (id : SessionID) (p : Lock → Bool) (q : Waiter → Bool) :
    (t.installPlan k id plan history).count p q + (plan.remove.map Entry.value).countP p =
      t.count p q + plan.insert.countP p := by
  have hc := t.count_insert k { t.objectLocked k with
    held := (installRecords (t.objectLocked k).held t.nextID plan).1 } p q
  have hp := countP_install hi he p
  have hdef : (t.installPlan k id plan history).count p q =
      Assoc.total (t.objects.insert k { t.objectLocked k with
        held := (installRecords (t.objectLocked k).held t.nextID plan).1 })
        fun _ o => o.load p q := rfl
  rw [hdef]
  simp only [ObjectLocks.load] at *
  omega

omit hi in
private theorem countP_removed (id : SessionID) :
    (plan.remove.map Entry.value).countP (ofSession id) =
      if id = owner.session then plan.remove.length else 0 := by
  split
  · next h =>
    rw [← length_map (f := Entry.value), countP_eq_length]
    intro l hl
    obtain ⟨e, hm, rfl⟩ := mem_map.mp hl
    simp [ofSession, he.removed e hm, h]
  · next h =>
    rw [countP_eq_zero]
    intro l hl
    obtain ⟨e, hm, rfl⟩ := mem_map.mp hl
    simp [ofSession, he.removed e hm, Ne.symm h]

omit hi in
private theorem countP_inserted (id : SessionID) :
    plan.insert.countP (ofSession id) = if id = owner.session then plan.insert.length else 0 := by
  split
  · next h =>
    rw [countP_eq_length]
    intro l hl
    simp [ofSession, (he.inserted l hl).1, h]
  · next h =>
    rw [countP_eq_zero]
    intro l hl
    simp [ofSession, (he.inserted l hl).1, Ne.symm h]

omit hi in
private theorem length_remove_le :
    plan.remove.length ≤ (t.objectLocked k).held.values.countP (ofSession owner.session) := by
  have h := (he.split.map Entry.value).countP_eq (ofSession owner.session)
  rw [map_append, countP_append, countP_removed he, if_pos rfl] at h
  unfold IntervalTree.values
  omega

omit hi in
private theorem length_remove_le_held : plan.remove.length ≤ t.count (fun _ => true) fun _ => false := by
  have h1 := t.load_le_count k (fun _ => true) fun _ => false
  have h2 := he.split.length_eq
  have h3 : (t.objectLocked k).held.values.countP (fun _ => true) =
      (t.objectLocked k).held.entries.length := by
    simp [IntervalTree.values]
  simp only [ObjectLocks.load, length_append] at *
  omega

variable {s : LockSession}

private theorem sessionOk_install (hs : t.SessionOk owner.session s)
    (hle : s.records - plan.remove.length + plan.insert.length ≤ t.maxPerSession) :
    (t.installPlan k owner.session plan history).SessionOk owner.session
      (chargePlan k plan.remove.length plan.insert.length s) := by
  have hrem := length_remove_le he
  have hload := t.load_le_count k (ofSession owner.session) fun w => ofSession owner.session w.lock
  have hcount := count_install hi he history owner.session (ofSession owner.session)
    fun w => ofSession owner.session w.lock
  have hheld := countP_install hi he (ofSession owner.session)
  have hobj := hs.objects k
  rw [countP_removed he, countP_inserted he, if_pos rfl, if_pos rfl] at hcount hheld
  simp only [ObjectLocks.load] at hload
  constructor
  · simp only [chargePlan]
    have := hs.records
    omega
  · exact hle
  · intro k'
    rw [objectLocked_install]
    simp only [chargePlan]
    by_cases hk : k' = k
    · rw [if_pos hk, hk]
      dsimp only
      split
      · next hz =>
        rw [Assoc.lookup_erase_eq, if_pos rfl, Option.getD_none]
        omega
      · rw [Assoc.lookup_insert_eq, if_pos rfl, Option.getD_some]
        omega
    · rw [if_neg hk]
      split
      · rw [Assoc.lookup_erase_eq, if_neg hk]
        exact hs.objects k'
      · rw [Assoc.lookup_insert_eq, if_neg hk]
        exact hs.objects k'
  · intro k' n hn
    simp only [chargePlan] at hn
    split at hn
    · rw [Assoc.lookup_erase_eq] at hn
      split at hn
      · simp at hn
      · exact hs.objects_pos k' n hn
    next hz =>
    rw [Assoc.lookup_insert_eq] at hn
    split at hn
    · cases hn
      omega
    · exact hs.objects_pos k' n hn
  · exact hs.nodup
  · intro w
    rw [queued_install]
    exact hs.waiters w

private theorem sessionOk_install_ne {id : SessionID} (hs : t.SessionOk id s)
    (hid : id ≠ owner.session) : (t.installPlan k owner.session plan history).SessionOk id s := by
  have hcount := count_install hi he history owner.session (ofSession id)
    fun w => ofSession id w.lock
  have hheld := countP_install hi he (ofSession id)
  rw [countP_removed he, countP_inserted he, if_neg hid, if_neg hid] at hcount hheld
  refine hs.frame hcount rfl (fun k' => ?_) fun w _ => queued_install ..
  rw [objectLocked_install]
  split
  · next hk =>
    rw [hk]
    exact hheld
  · rfl

/-- Installing an admitted plan of a registered session keeps the invariant. -/
theorem Inv.install (hs : t.sessions.lookup owner.session = some s)
    (hlim : t.exceedsLimits owner.session plan = false) :
    Inv dead (t.installPlan k owner.session plan history) := by
  have hold := hi.session owner.session s hs
  have hrec : t.recordsOf owner.session = s.records := by simp [recordsOf, hs]
  have hgrow : plan.remove.length < plan.insert.length →
      t.held + t.waiting + (plan.insert.length - plan.remove.length) ≤ t.maxRecords ∧
      s.records + (plan.insert.length - plan.remove.length) ≤ t.maxPerSession := by
    intro hlt
    simp only [exceedsLimits, hrec, Bool.and_eq_false_iff, Bool.or_eq_false_iff,
      decide_eq_false_iff_not] at hlim
    omega
  have hknown : ∀ id, t.Known dead id → (t.installPlan k owner.session plan history).Known dead id := by
    intro id h
    exact h.imp (fun hs hn => hs ((Assoc.lookup_modify_eq_none _ _ _ _).mp hn)) fun hd => hd
  have hrem := length_remove_le he
  have hload := t.load_le_count k (ofSession owner.session) fun w => ofSession owner.session w.lock
  simp only [ObjectLocks.load, ← hold.records] at hload
  have hremh := length_remove_le_held he
  rw [← hi.held_eq] at hremh
  constructor
  · intro id hd
    exact (Assoc.lookup_modify_eq_none _ _ _ _).mpr (hi.dead_gone id hd)
  · intro k'
    rw [objectLocked_install]
    split
    · next hk =>
      rw [hk]
      exact objectOk_install hi he
    · obtain ⟨_, _, _, _, hle, _⟩ := installRecords_spec (hi.object k).ids he.split
      have hok := hi.object k'
      exact ⟨hok.indexed, hok.held_object, hok.waiting_object,
        ⟨hok.ids.nodup, fun e hm => Nat.le_trans (hok.ids.le e hm) hle⟩, hok.compatible, hok.seqs⟩
  · intro w hw
    exact hi.queued w ((queued_install t k owner.session plan history w).mp hw)
  · intro seq st hst
    rw [queued_install]
    exact hi.pending seq st hst
  · intro k' l hl
    apply hknown
    rw [objectLocked_install] at hl
    split at hl
    · rcases mem_append.mp ((values_install hi he).mem_iff.mp hl) with hl | hl
      · obtain ⟨e, hm, rfl⟩ := mem_map.mp hl
        exact hi.held_known k e.value
          (mem_map.mpr ⟨e, he.split.mem_iff.mpr (mem_append_right _ hm), rfl⟩)
      · rw [(he.inserted l hl).1]
        exact .inl (by simp [hs])
    · exact hi.held_known k' l hl
  · intro w hw
    exact hknown _ (hi.waiting_known w ((queued_install t k owner.session plan history w).mp hw))
  · intro id s' hs'
    change (Assoc.modify t.sessions owner.session _).lookup id = some s' at hs'
    rw [Assoc.lookup_modify] at hs'
    split at hs'
    · next hid =>
      rw [hs] at hs'
      cases hs'
      rw [hid]
      apply sessionOk_install hi he history hold
      have := hold.records_le
      omega
    · next hid => exact sessionOk_install_ne hi he history (hi.session id s' hs') hid
  · have hc := count_install hi he history owner.session (fun _ => true) fun _ => false
    simp only [countP_true, length_map] at hc
    change t.held - plan.remove.length + plan.insert.length = _
    rw [← hi.held_eq] at hc
    omega
  · have hc := count_install hi he history owner.session (fun _ => false) fun _ => true
    simp only [countP_false, Function.const_apply, Nat.add_zero] at hc
    change t.waiting = _
    rw [hc]
    exact hi.waiting_eq
  · change t.held - plan.remove.length + plan.insert.length + t.waiting ≤ t.maxRecords
    have := hi.limit
    omega

end Install

section Enqueue

variable {dead : Option SessionID} {t : LockTable} {w : Waiter}

theorem objectLocked_insertWaiter (t : LockTable) (w : Waiter) (k : ObjectKey) :
    (t.insertWaiterLocked w).objectLocked k =
      if k = w.lock.object then
        { t.objectLocked w.lock.object with
          waiting := (t.objectLocked w.lock.object).waiting.insert w.lock.range.start
            w.lock.range.stop w.seq w }
      else t.objectLocked k :=
  objectLocked_insert t _ k _

/-- Queueing a waiter leaves every held record. -/
theorem held_insertWaiter (t : LockTable) (w : Waiter) (k : ObjectKey) :
    ((t.insertWaiterLocked w).objectLocked k).held = (t.objectLocked k).held := by
  rw [objectLocked_insertWaiter]
  split
  · next h => rw [h]
  · rfl

/-- Queueing a waiter adds exactly it to the queues. -/
theorem queued_insertWaiter (t : LockTable) (w w' : Waiter) :
    (t.insertWaiterLocked w).Queued w' ↔ t.Queued w' ∨ w' = w := by
  unfold Queued
  rw [objectLocked_insertWaiter]
  split
  · next h =>
    rw [((t.objectLocked w.lock.object).waiting.values_insert _ _ _ _).mem_iff, mem_cons, h]
    tauto
  · next h =>
    refine ⟨.inl, fun hw' => hw'.resolve_right ?_⟩
    rintro rfl
    exact h rfl

/-- Queueing a waiter raises the counts it becomes part of. -/
theorem count_insertWaiter (t : LockTable) (w : Waiter) (p : Lock → Bool) (q : Waiter → Bool) :
    (t.insertWaiterLocked w).count p q = t.count p q + if q w then 1 else 0 := by
  have hc := t.count_insert w.lock.object { t.objectLocked w.lock.object with
    waiting := (t.objectLocked w.lock.object).waiting.insert w.lock.range.start
      w.lock.range.stop w.seq w } p q
  have hv := ((t.objectLocked w.lock.object).waiting.values_insert w.lock.range.start
    w.lock.range.stop w.seq w).countP_eq q
  rw [countP_cons] at hv
  have hdef : (t.insertWaiterLocked w).count p q =
      Assoc.total (t.objects.insert w.lock.object { t.objectLocked w.lock.object with
        waiting := (t.objectLocked w.lock.object).waiting.insert w.lock.range.start
          w.lock.range.stop w.seq w }) fun _ o => o.load p q := rfl
  rw [hdef]
  simp only [ObjectLocks.load] at *
  omega

variable (hi : Inv dead t) (hv : w.lock.range.start ≤ w.lock.range.stop)
variable (hfresh : ∀ seq s, t.waiters.lookup seq = some s → seq < w.seq)
include hi hv hfresh

private theorem objectOk_enqueue :
    ObjectOk w.lock.object t.nextID { t.objectLocked w.lock.object with
      waiting := (t.objectLocked w.lock.object).waiting.insert w.lock.range.start
        w.lock.range.stop w.seq w } := by
  have hok := hi.object w.lock.object
  have hp := (t.objectLocked w.lock.object).waiting.entries_insert w.lock.range.start
    w.lock.range.stop w.seq w
  constructor
  · refine ⟨hok.indexed.held, ?_⟩
    intro e he
    rcases mem_cons.mp (hp.mem_iff.mp he) with rfl | he
    · exact ⟨rfl, rfl, rfl, hv⟩
    · exact hok.indexed.waiting e he
  · exact hok.held_object
  · intro w' hw'
    obtain ⟨e, he, rfl⟩ := mem_map.mp hw'
    rcases mem_cons.mp (hp.mem_iff.mp he) with rfl | he
    · rfl
    · exact hok.waiting_object e.value (mem_map.mpr ⟨e, he, rfl⟩)
  · exact hok.ids
  · exact hok.compatible
  rw [(hp.map Entry.id).nodup_iff, map_cons, nodup_cons]
  refine ⟨?_, hok.seqs⟩
  intro hm
  obtain ⟨e, he, heq⟩ := mem_map.mp hm
  obtain ⟨_, _, hid, _⟩ := hok.indexed.waiting e he
  have hmem : e.value ∈ (t.objectLocked w.lock.object).waiting.values :=
    mem_map.mpr ⟨e, he, rfl⟩
  have hq : t.Queued e.value := by
    unfold Queued
    rw [hok.waiting_object e.value hmem]
    exact hmem
  have := hfresh _ _ (hi.queued e.value hq)
  simp only at heq
  omega

/-- Queueing a fresh waiter of a registered session within the bounds keeps the invariant. -/
theorem Inv.enqueue {s : LockSession} (hs : t.sessions.lookup w.lock.owner.session = some s)
    (hseq : w.seq ≤ t.nextSeq) (hmax : t.held + t.waiting + 1 ≤ t.maxRecords)
    (hper : s.records + 1 ≤ t.maxPerSession) : Inv dead (t.insertWaiterLocked w) := by
  have hqueued := t.queued_insertWaiter w
  have hcount := t.count_insertWaiter w
  have hheld := t.held_insertWaiter w
  have hnot : ¬ t.Queued w := by
    intro hq
    have := hfresh _ _ (hi.queued w hq)
    omega
  have hknown : ∀ id, t.Known dead id → (t.insertWaiterLocked w).Known dead id := by
    intro id h
    exact h.imp (fun hs hn => hs ((Assoc.lookup_modify_eq_none _ _ _ _).mp hn)) fun hd => hd
  constructor
  · intro id hd
    exact (Assoc.lookup_modify_eq_none _ _ _ _).mpr (hi.dead_gone id hd)
  · intro k
    rw [objectLocked_insertWaiter]
    split
    · next hk =>
      rw [hk]
      exact objectOk_enqueue hi hv hfresh
    · exact hi.object k
  · intro w' hw'
    change (t.waiters.insert w.seq _).lookup w'.seq = _
    rw [Assoc.lookup_insert_eq]
    rcases (hqueued w').mp hw' with hw' | rfl
    · have hlook := hi.queued w' hw'
      have := hfresh _ _ hlook
      rw [if_neg (by omega)]
      exact hlook
    · rw [if_pos rfl]
  · intro seq st hst
    change (t.waiters.insert w.seq _).lookup seq = _ at hst
    rw [Assoc.lookup_insert_eq] at hst
    split at hst
    · next h =>
      cases hst
      refine ⟨h ▸ hseq, fun _ => (hqueued _).mpr (.inr ?_)⟩
      rw [h]
    · obtain ⟨hle, hun⟩ := hi.pending seq st hst
      exact ⟨hle, fun hf => (hqueued _).mpr (.inl (hun hf))⟩
  · intro k l hl
    rw [hheld] at hl
    exact hknown _ (hi.held_known k l hl)
  · intro w' hw'
    apply hknown
    rcases (hqueued w').mp hw' with hw' | rfl
    · exact hi.waiting_known w' hw'
    · exact .inl (by simp [hs])
  · intro id s' hs'
    change (Assoc.modify t.sessions w.lock.owner.session _).lookup id = some s' at hs'
    have hc := hcount (ofSession id) (fun w => ofSession id w.lock)
    rw [Assoc.lookup_modify] at hs'
    split at hs'
    · next hid =>
      rw [hs] at hs'
      cases hs'
      have hok := hi.session _ s hs
      have hof : ofSession id w.lock = true := by simp [ofSession, hid]
      rw [if_pos hof] at hc
      rw [hid] at hc ⊢
      constructor
      · rw [hc, ← hok.records]
      · exact hper
      · intro k
        rw [hheld]
        exact hok.objects k
      · exact hok.objects_pos
      · rw [nodup_cons]
        exact ⟨fun hm => hnot ((hok.waiters w).mp hm).1, hok.nodup⟩
      intro w'
      rw [mem_cons, hqueued, hok.waiters]
      constructor
      · rintro (rfl | h)
        · exact ⟨.inr rfl, rfl⟩
        · exact ⟨.inl h.1, h.2⟩
      · rintro ⟨h | h, h'⟩
        · exact .inr ⟨h, h'⟩
        · exact .inl h
    · next hid =>
      have hof : ofSession id w.lock = false := by simp [ofSession, Ne.symm hid]
      rw [hof] at hc
      refine (hi.session id s' hs').frame hc rfl (fun k => by rw [hheld]) fun w' hw' => ?_
      rw [hqueued, or_iff_left]
      rintro rfl
      exact hid hw'.symm
  · change t.held = _
    rw [hcount, hi.held_eq]
    rfl
  · change t.waiting + 1 = _
    rw [hcount, hi.waiting_eq]
    rfl
  · change t.held + (t.waiting + 1) ≤ t.maxRecords
    omega

end Enqueue

end LockTable
end PortableFS.Locks
