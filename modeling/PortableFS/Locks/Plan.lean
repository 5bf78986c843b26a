import PortableFS.Locks.Records

/-!
# What the mutation plans do

Module `volumeserver`, `vcs/internal/volumeserver/locks.go:756–891`. A plan splits the held
records of an object into those it removes and the rest, and adds others; installing it over
the index yields exactly the rest and the additions.
-/

namespace PortableFS.Locks

open List

/-- The plan removes all records but `rest`, all it touches belongs to `owner`, and what it
leaves is compatible. -/
structure LockPlan.Edits (plan : LockPlan) (o : ObjectLocks) (object : ObjectKey)
    (owner : LockOwner) (rest : List (Entry Lock)) : Prop where
  split : o.held.entries.Perm (plan.remove ++ rest)
  removed : ∀ e ∈ plan.remove, e.value.owner = owner
  inserted : ∀ l ∈ plan.insert, l.owner = owner ∧ l.object = object
  ok : HeldOk (rest.map Entry.value ++ plan.insert)

variable {o : ObjectLocks} {plan : LockPlan} {object : ObjectKey} {rest : List (Entry Lock)}

/-- A plan reads and edits the held records only. -/
theorem LockPlan.Edits.of_held {o' : ObjectLocks}
    {owner : LockOwner} (h : plan.Edits o object owner rest)
    (hh : o'.held = o.held) : plan.Edits o' object owner rest :=
  ⟨hh ▸ h.split, h.removed, h.inserted, h.ok⟩

/-- The entries an acquisition leaves alone. -/
def acquireRest (o : ObjectLocks) (next : Lock) : List (Entry Lock) :=
  o.held.entries.filter fun e => !replaced next e.value

/-- The entries a release leaves alone. -/
def releaseRest (o : ObjectLocks) (owner : LockOwner) (r : LockRange) : List (Entry Lock) :=
  o.held.entries.filter fun e => !released owner r e.value

private theorem map_value_filter (es : List (Entry Lock)) (p : Lock → Bool) :
    (es.filter fun e => p e.value).map Entry.value = (es.map Entry.value).filter p := by
  rw [filter_map]
  rfl

private theorem perm_filter_split (es : List (Entry Lock)) (p : Lock → Bool) :
    es.Perm ((es.filter fun e => p e.value) ++ es.filter fun e => !p e.value) :=
  (filter_append_perm _ es).symm

/-- The widened query finds every record the acquisition replaces. -/
theorem acquireRemoves_eq (h : o.Indexed) {next : Lock} (hv : next.range.start ≤ next.range.stop) :
    acquireRemoves o next = o.held.entries.filter fun e => replaced next e.value := by
  unfold acquireRemoves
  dsimp only
  rw [IntervalTree.collect_eq, filter_filter, filter_filter]
  apply filter_congr
  intro e he
  obtain ⟨h1, h2, h3⟩ := h.held e he
  have hb := e.value.range.start_le
  have hw1 : (widen next.range).start ≤ next.range.start - 1 := by
    simp only [widen]
    split <;> omega
  have hw2 : next.range.stop + 1 ≤ (widen next.range).stop ∨
      maxUint64 ≤ (widen next.range).stop := by
    simp only [widen]
    split <;> omega
  apply Bool.eq_iff_iff.mpr
  simp only [replaced, Entry.intersects, Bool.and_eq_true, Bool.or_eq_true,
    decide_eq_true_eq, overlaps_iff, adjacent_iff]
  constructor
  · rintro ⟨⟨h4, h5⟩, _⟩
    exact ⟨h5, h4⟩
  · rintro ⟨h5, h4⟩
    exact ⟨⟨h4, h5⟩, by omega, by omega⟩

/-- The query of a release finds every record it cuts. -/
theorem planReleaseLocked_remove (h : o.Indexed) (owner : LockOwner)
    (r : LockRange) : (planReleaseLocked (some o) owner r).remove =
      o.held.entries.filter fun e => released owner r e.value := by
  change o.held.collect r.start r.stop _ = _
  rw [IntervalTree.collect_eq, filter_filter]
  apply filter_congr
  intro e he
  obtain ⟨h1, h2, h3⟩ := h.held e he
  apply Bool.eq_iff_iff.mpr
  simp only [released, Entry.intersects, Bool.and_eq_true, decide_eq_true_eq, overlaps_iff]
  rw [h1, h2]

section Acquire

variable {o : ObjectLocks} (h : o.Indexed) {next : Lock} (hv : next.range.start ≤ next.range.stop)

include h hv in
private theorem planAcquire_absorbed :
    ∃ m keep, (planAcquireLocked (some o) next).insert = keep ++ [m] ∧
      Absorbed next (pieces next o.held.values) m keep ∧
      ∀ c ∈ keep, c.type = next.type → ¬ Touches m.range c.range := by
  have hkeep : ((acquireRemoves o next).flatMap fun e => acquireKeeps next e.value) =
      pieces next o.held.values := by
    unfold pieces IntervalTree.values
    rw [acquireRemoves_eq h hv, ← map_value_filter, flatMap_map]
  unfold planAcquireLocked
  dsimp only
  rw [hkeep]
  cases hr : absorb ((pieces next o.held.values).length + 1) next (pieces next o.held.values) with
  | mk m keep =>
    obtain ⟨habs, hend⟩ := absorb_spec (Nat.lt_succ_self _) hr
    exact ⟨m, keep, rfl, habs, hend⟩

variable (hok : HeldOk o.held.values)
include h hok hv

/-- An acquisition without conflict replaces records of the owner by compatible ones. -/
theorem planAcquire_edits (hobj : ∀ l ∈ o.held.values, l.object = next.object)
    (hc : ∀ l ∈ o.held.values, conflicts next l = false) :
    (planAcquireLocked (some o) next).Edits o next.object next.owner (acquireRest o next) := by
  have hrem : (planAcquireLocked (some o) next).remove =
      o.held.entries.filter fun e => replaced next e.value := acquireRemoves_eq h hv
  obtain ⟨m, keep, hins, habs, hend⟩ := planAcquire_absorbed h hv
  constructor
  · rw [hrem]
    exact perm_filter_split _ _
  · intro e he
    rw [hrem] at he
    have hr := (mem_filter.mp he).2
    simp only [replaced, Bool.and_eq_true, decide_eq_true_eq] at hr
    exact hr.1
  · intro l hl
    rw [hins, mem_append, mem_singleton] at hl
    rcases hl with hl | rfl
    · obtain ⟨c, hch, _, _, hobj', hlo, _⟩ := of_mem_pieces hok (habs.sublist.subset hl)
      exact ⟨hlo, hobj'.trans (hobj c hch)⟩
    · rw [habs.same]
      exact ⟨rfl, rfl⟩
  · rw [hins]
    unfold acquireRest
    rw [map_value_filter _ fun l => !replaced next l]
    exact heldOk_acquire hok hv hc habs hend

/-- Byte by byte, an acquisition gives the owner the requested type on the requested range. -/
theorem planAcquire_heldAt (owner : LockOwner) (ty : LockType) (x : Nat) :
    HeldAt ((acquireRest o next).map Entry.value ++ (planAcquireLocked (some o) next).insert)
        owner ty x ↔
      if owner = next.owner ∧ x ∈ next.range then ty = next.type
      else HeldAt o.held.values owner ty x := by
  obtain ⟨m, keep, hins, habs, _⟩ := planAcquire_absorbed h hv
  rw [hins]
  unfold acquireRest
  rw [map_value_filter _ fun l => !replaced next l]
  exact heldAt_acquire hok hv habs owner ty x

omit hok in
/-- A plan weakens exactly when it turns bytes the owner holds for writing into read ones. -/
theorem planAcquire_weakens (hvalid : ∀ l ∈ o.held.values, l.range.start ≤ l.range.stop) :
    (planAcquireLocked (some o) next).weakens = true ↔
      next.type = .read ∧ ∃ x ∈ next.range, HeldAt o.held.values next.owner .write x := by
  have hw : (planAcquireLocked (some o) next).weakens = (acquireRemoves o next).any fun e =>
      overlaps e.value.range next.range && decide (e.value.type = .write) &&
        decide (next.type = .read) := rfl
  rw [hw, acquireRemoves_eq h hv, any_eq_true]
  simp only [mem_filter, Bool.and_eq_true, decide_eq_true_eq]
  constructor
  · rintro ⟨e, ⟨he, hr⟩, ⟨hov, ht⟩, hn⟩
    have hl : e.value ∈ o.held.values := mem_map.mpr ⟨e, he, rfl⟩
    obtain ⟨x, hx, hxn⟩ := (overlaps_iff_exists (hvalid _ hl) hv).mp hov
    simp only [replaced, Bool.and_eq_true, decide_eq_true_eq] at hr
    exact ⟨hn, x, hxn, e.value, hl, hr.1, ht, hx⟩
  · rintro ⟨hn, x, hxn, l, hl, ho, ht, hx⟩
    have hov := (overlaps_iff_exists (hvalid l hl) hv).mpr ⟨x, hx, hxn⟩
    obtain ⟨e, he, rfl⟩ := mem_map.mp hl
    exact ⟨e, ⟨he, by simp [replaced, ho, hov]⟩, ⟨hov, ht⟩, hn⟩

end Acquire

private theorem within_foldl_cover (es : List (Entry Lock)) (r : LockRange) :
    Within r (es.foldl (fun t e => coverRange t e.value.range) r) := by
  induction es generalizing r with
  | nil => exact ⟨le_rfl, le_rfl⟩
  | cons e es ih => exact (within_coverRange_left r e.value.range).trans (ih _)

/-- The touched span of an acquisition contains the request. -/
theorem planAcquire_touched (o : Option ObjectLocks) (next : Lock) :
    Within next.range (planAcquireLocked o next).touched :=
  (within_foldl_cover _ _).trans (within_coverRange_left _ _)

/-- The touched span of a release contains the released range. -/
theorem planRelease_touched (o : Option ObjectLocks) (owner : LockOwner) (r : LockRange) :
    Within r (planReleaseLocked o owner r).touched :=
  within_foldl_cover _ _

section Release

variable {o : ObjectLocks} (h : o.Indexed) (hok : HeldOk o.held.values)
variable (owner : LockOwner) {r : LockRange} (hv : r.start ≤ r.stop)

include h in
private theorem planRelease_insert : (planReleaseLocked (some o) owner r).insert =
    (o.held.values.filter (released owner r)).flatMap fun l => subtractLock l r := by
  have hins : (planReleaseLocked (some o) owner r).insert =
      (planReleaseLocked (some o) owner r).remove.flatMap fun e => subtractLock e.value r := rfl
  rw [hins, planReleaseLocked_remove h]
  unfold IntervalTree.values
  rw [← map_value_filter, flatMap_map]

include h hok hv

/-- A release replaces records of the owner by compatible ones. -/
theorem planRelease_edits (hobj : ∀ l ∈ o.held.values, l.object = object) :
    (planReleaseLocked (some o) owner r).Edits o object owner (releaseRest o owner r) := by
  constructor
  · rw [planReleaseLocked_remove h]
    exact perm_filter_split _ _
  · intro e he
    rw [planReleaseLocked_remove h] at he
    have hr := (mem_filter.mp he).2
    simp only [released, Bool.and_eq_true, decide_eq_true_eq] at hr
    exact hr.1
  · intro c hc
    rw [planRelease_insert h] at hc
    obtain ⟨l, hl, hcl⟩ := mem_flatMap.mp hc
    obtain ⟨hlh, hlr⟩ := mem_filter.mp hl
    simp only [released, Bool.and_eq_true, decide_eq_true_eq] at hlr
    obtain ⟨hco, hcw, _⟩ := of_mem_subtractLock hlr.2 hcl
    exact ⟨hcw.trans hlr.1, hco.trans (hobj l hlh)⟩
  · rw [planRelease_insert h]
    unfold releaseRest
    rw [map_value_filter _ fun l => !released owner r l]
    exact heldOk_release hok owner hv

/-- Byte by byte, a release clears the owner's bytes of the range. -/
theorem planRelease_heldAt (o' : LockOwner) (ty : LockType) (x : Nat) :
    HeldAt ((releaseRest o owner r).map Entry.value ++ (planReleaseLocked (some o) owner r).insert)
        o' ty x ↔
      ¬ (o' = owner ∧ x ∈ r) ∧ HeldAt o.held.values o' ty x := by
  rw [planRelease_insert h]
  unfold releaseRest
  rw [map_value_filter _ fun l => !released owner r l]
  exact heldAt_release hok owner hv o' ty x

end Release

/-- Record ids of an index are distinct and already given out. -/
structure IdsOk (held : IntervalTree Lock) (nextID : Nat) : Prop where
  nodup : (held.entries.map Entry.id).Nodup
  le : ∀ e ∈ held.entries, e.id ≤ nextID

private theorem eq_of_id_eq {es : List (Entry Lock)} (h : (es.map Entry.id).Nodup)
    {a b : Entry Lock} (ha : a ∈ es) (hb : b ∈ es) (hab : a.id = b.id) : a = b :=
  List.inj_on_of_nodup_map h ha hb hab

variable {held : IntervalTree Lock}

/-- Removing a stored entry by its key removes that entry. -/
theorem entries_remove_of_mem
    (hn : (held.entries.map Entry.id).Nodup) {e : Entry Lock} (he : e ∈ held.entries) :
    held.entries.Perm (e :: (held.remove e.start e.stop e.id).1.entries) := by
  rcases held.entries_remove e.start e.stop e.id with ⟨_, _, hno⟩ | ⟨_, e', hk, he', hp⟩
  · exact absurd ⟨rfl, rfl, rfl⟩ (hno e he)
  · obtain rfl : e' = e := eq_of_id_eq hn he' he hk.2.2
    exact hp

private theorem entries_removeAll (es rest : List (Entry Lock)) (held : IntervalTree Lock)
    (hn : (held.entries.map Entry.id).Nodup) (hp : held.entries.Perm (es ++ rest)) :
    (es.foldl (fun held e => (held.remove e.start e.stop e.id).1) held).entries.Perm rest := by
  induction es generalizing held with
  | nil => exact hp
  | cons e es ih =>
    have hrem := entries_remove_of_mem hn (hp.mem_iff.mpr mem_cons_self)
    have hn' := (hrem.map Entry.id).nodup_iff.mp hn
    exact ih _ (nodup_cons.mp hn').2 (hrem.symm.trans hp).cons_inv

/-- An entry installed for a record of a plan under an id above `nextID`. -/
structure FreshEntry (nextID nextID' : Nat) (e : Entry Lock) : Prop where
  start_eq : e.start = e.value.range.start
  stop_eq : e.stop = e.value.range.stop
  above : nextID < e.id
  le : e.id ≤ nextID'

private theorem entries_insertAll (locks : List Lock) (held : IntervalTree Lock) (nextID : Nat) :
    ∃ fresh : List (Entry Lock),
      (locks.foldl (fun (held, id) lock =>
          (held.insert lock.range.start lock.range.stop (id + 1) lock, id + 1))
        (held, nextID)).1.entries.Perm (fresh ++ held.entries) ∧
      fresh.map Entry.value = locks ∧ (fresh.map Entry.id).Nodup ∧
      (∀ e ∈ fresh, FreshEntry nextID (nextID + locks.length) e) ∧
      (locks.foldl (fun (held, id) lock =>
          (held.insert lock.range.start lock.range.stop (id + 1) lock, id + 1))
        (held, nextID)).2 = nextID + locks.length := by
  induction locks generalizing held nextID with
  | nil => exact ⟨[], List.Perm.refl _, rfl, nodup_nil, by simp, rfl⟩
  | cons l ls ih =>
    obtain ⟨fresh, hp, hvals, hnd, hfresh, hid⟩ :=
      ih (held.insert l.range.start l.range.stop (nextID + 1) l) (nextID + 1)
    rw [foldl_cons]
    refine ⟨⟨l.range.start, l.range.stop, nextID + 1, splitmix64 (UInt64.ofNat (nextID + 1)), l⟩ ::
      fresh, hp.trans ?_, ?_, ?_, ?_, ?_⟩
    · exact ((held.entries_insert _ _ _ _).append_left fresh).trans perm_middle
    · rw [map_cons, hvals]
    · rw [map_cons, nodup_cons]
      refine ⟨?_, hnd⟩
      intro hm
      obtain ⟨e, he, heq⟩ := mem_map.mp hm
      have := (hfresh e he).above
      simp only at heq
      omega
    · intro e he
      rw [length_cons]
      rcases mem_cons.mp he with rfl | he
      · exact ⟨rfl, rfl, Nat.lt_succ_self _, by simp only; omega⟩
      · obtain ⟨h1, h2, h3, h4⟩ := hfresh e he
        exact ⟨h1, h2, by omega, by omega⟩
    · rw [hid, length_cons]
      omega

/-- Installing a plan leaves the rest of the records and adds one fresh entry for each record
of the plan. -/
theorem installRecords_spec {nextID : Nat} (hids : IdsOk held nextID)
    (hp : held.entries.Perm (plan.remove ++ rest)) :
    ∃ fresh : List (Entry Lock),
      (LockTable.installRecords held nextID plan).1.entries.Perm (fresh ++ rest) ∧
      fresh.map Entry.value = plan.insert ∧
      (∀ e ∈ fresh, FreshEntry nextID (LockTable.installRecords held nextID plan).2 e) ∧
      nextID ≤ (LockTable.installRecords held nextID plan).2 ∧
      IdsOk (LockTable.installRecords held nextID plan).1 (LockTable.installRecords held nextID plan).2 := by
  have hrest := entries_removeAll plan.remove rest held hids.nodup hp
  obtain ⟨fresh, hperm, hvals, hnd, hfresh, hid⟩ := entries_insertAll plan.insert
    (plan.remove.foldl (fun held e => (held.remove e.start e.stop e.id).1) held) nextID
  have hperm' : (LockTable.installRecords held nextID plan).1.entries.Perm (fresh ++ rest) :=
    hperm.trans (hrest.append_left fresh)
  have hid' : (LockTable.installRecords held nextID plan).2 = nextID + plan.insert.length := hid
  have hrestle : ∀ e ∈ rest, e.id ≤ nextID := by
    intro e he
    exact hids.le e (hp.mem_iff.mpr (mem_append_right _ he))
  refine ⟨fresh, hperm', hvals, hid' ▸ hfresh, by omega, ?_, ?_⟩
  · rw [(hperm'.map Entry.id).nodup_iff, map_append, nodup_append]
    refine ⟨hnd, ?_, ?_⟩
    · have hall := (hp.map Entry.id).nodup_iff.mp hids.nodup
      rw [map_append] at hall
      exact (nodup_append.mp hall).2.1
    intro a ha b hb hab
    obtain ⟨e, he, rfl⟩ := mem_map.mp ha
    obtain ⟨e', he', rfl⟩ := mem_map.mp hb
    have h1 := (hfresh e he).above
    have h2 := hrestle e' he'
    omega
  · intro e he
    rcases mem_append.mp (hperm'.mem_iff.mp he) with he | he
    · have := (hfresh e he).le
      omega
    · have := hrestle e he
      omega

end PortableFS.Locks
