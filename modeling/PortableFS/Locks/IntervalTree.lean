import PortableFS.Locks.IntervalNode

/-!
# Interval index

Module `volumeserver`, `vcs/internal/volumeserver/locks.go:122–125,195–278`. The tree carries
its search order, heap order, augmentation and size as fields, so a malformed index cannot be
built; callers see only the sorted entry list and the laws below.
-/

namespace PortableFS.Locks

open List

/-- `intervalTree[T]` with its structural invariants; `locks.go:122–125`. -/
structure IntervalTree (T : Type) where
  root : IntervalNode T
  size : Nat
  sorted : root.Sorted
  heap : root.HeapOk
  maxEnd : root.MaxEndOk
  size_eq : size = root.entries.length

namespace IntervalTree

variable {T σ : Type}

/-- The zero value. -/
def empty : IntervalTree T where
  root := .nil
  size := 0
  sorted := List.Pairwise.nil
  heap := trivial
  maxEnd := trivial
  size_eq := rfl

instance : Inhabited (IntervalTree T) := ⟨empty⟩

/-- Stored entries in key order. -/
def entries (t : IntervalTree T) : List (Entry T) := t.root.entries

/-- Stored values in key order. -/
def values (t : IntervalTree T) : List T := t.entries.map Entry.value

private theorem sorted_insert (fresh : Entry T) (n : IntervalNode T) (hs : n.Sorted) :
    (IntervalNode.insertInterval fresh n).Sorted := by
  obtain ⟨before, after, hn, hi, hb, ha⟩ := IntervalNode.entries_insertInterval fresh n hs
  unfold IntervalNode.Sorted at *
  rw [hn] at hs
  rw [hi]
  obtain ⟨hbs, has, hba⟩ := pairwise_append.mp hs
  refine pairwise_append.mpr ⟨hbs, pairwise_cons.mpr ⟨fun x hx => (ha x hx).le, has⟩, ?_⟩
  intro x hx y hy
  rcases mem_cons.mp hy with rfl | hy
  · exact hb x hx
  · exact hba x hx y hy

/-- Add one entry under a unique id; `locks.go:195–200`. -/
def insert (t : IntervalTree T) (start stop id : Nat) (value : T) : IntervalTree T :=
  let fresh : Entry T := ⟨start, stop, id, splitmix64 (UInt64.ofNat id), value⟩
  { root := t.root.insertInterval fresh
    size := t.size + 1
    sorted := sorted_insert fresh t.root t.sorted
    heap := IntervalNode.heapOk_insertInterval fresh t.root t.sorted t.heap
    maxEnd := IntervalNode.maxEndOk_insertInterval fresh t.root t.maxEnd
    size_eq := by
      rw [(IntervalNode.perm_insertInterval fresh t.root t.sorted).length_eq, length_cons, t.size_eq] }

private theorem sublist_remove (start stop id : Nat) (n : IntervalNode T) (hs : n.Sorted) :
    (n.removeInterval start stop id).1.entries.Sublist n.entries := by
  rcases n.entries_removeInterval start stop id hs with ⟨_, he, _⟩ | ⟨_, bs, e, as, hn, _, he⟩
  · rw [he]
  · rw [he, hn]
    exact List.Sublist.append (List.Sublist.refl bs) (sublist_cons_self e as)

/-- Remove one key and report whether it was present; `locks.go:239–246`. -/
def remove (t : IntervalTree T) (start stop id : Nat) : IntervalTree T × Bool :=
  let removed := t.root.removeInterval start stop id
  ({ root := removed.1
     size := if removed.2 then t.size - 1 else t.size
     sorted := t.sorted.sublist (sublist_remove start stop id t.root t.sorted)
     heap := IntervalNode.heapOk_removeInterval start stop id t.root t.sorted t.heap
     maxEnd := IntervalNode.maxEndOk_removeInterval start stop id t.root t.maxEnd
     size_eq := by
       rcases t.root.entries_removeInterval start stop id t.sorted with
         ⟨hf, he, _⟩ | ⟨hf, bs, e, as, hn, _, he⟩
       · rw [hf, he, t.size_eq]; rfl
       have hl := t.size_eq
       rw [hn] at hl
       rw [hf, he]
       simp only [length_append, length_cons, if_true] at hl ⊢
       omega }, removed.2)

/-- Visit in key order every entry intersecting the inclusive range; `locks.go:266–271`. -/
def overlap (t : IntervalTree T) (lo hi : Nat) (visit : Entry T → σ → Bool × σ) (s : σ) : σ :=
  (t.root.overlapWalk lo hi visit s).2

/-- Collect the intersecting entries a predicate selects: the visitor never stops. -/
def collect (t : IntervalTree T) (lo hi : Nat) (keep : Entry T → Bool) : List (Entry T) :=
  t.overlap lo hi (fun e acc => (true, if keep e then acc ++ [e] else acc)) []

/-- First intersecting entry a predicate selects: the visitor stops there. -/
def first (t : IntervalTree T) (lo hi : Nat) (p : Entry T → Bool) : Option (Entry T) :=
  t.overlap lo hi (fun e acc => if p e then (false, some e) else (true, acc)) none

@[simp]
theorem entries_empty : (empty : IntervalTree T).entries = [] := rfl

@[simp]
theorem values_empty : (empty : IntervalTree T).values = [] := rfl

variable (t : IntervalTree T)

/-- The stored size is the number of entries. -/
theorem size_eq_length : t.size = t.entries.length := t.size_eq

/-- An index of size zero is exactly one without entries. -/
theorem size_eq_zero_iff : t.size = 0 ↔ t.entries = [] := by
  rw [size_eq_length, length_eq_zero_iff]

/-- An index of size zero is the zero value. -/
theorem eq_empty_of_size {t : IntervalTree T} (h : t.size = 0) : t = empty := by
  rcases t with ⟨root, size, sorted, heap, maxEnd, size_eq⟩
  cases root with
  | nil =>
    subst size_eq
    rfl
  | node e m l r =>
    simp only at h
    simp [h, IntervalNode.entries] at size_eq

/-- Entries are sorted by start. -/
theorem starts_sorted : t.entries.Pairwise (fun a b => a.start ≤ b.start) :=
  t.sorted.imp Entry.KeyLe.start_le

/-- Insertion adds exactly the fresh entry. -/
theorem entries_insert (start stop id : Nat) (value : T) :
    (t.insert start stop id value).entries.Perm
      (⟨start, stop, id, splitmix64 (UInt64.ofNat id), value⟩ :: t.entries) :=
  IntervalNode.perm_insertInterval _ t.root t.sorted

/-- Insertion adds exactly the fresh value. -/
theorem values_insert (start stop id : Nat) (value : T) :
    (t.insert start stop id value).values.Perm (value :: t.values) :=
  (t.entries_insert start stop id value).map Entry.value

/-- Removal either finds no entry under the key and changes nothing, or deletes one. -/
theorem entries_remove (start stop id : Nat) :
    ((t.remove start stop id).2 = false ∧ (t.remove start stop id).1.entries = t.entries ∧
      ∀ x ∈ t.entries, ¬ x.HasKey start stop id) ∨
    ((t.remove start stop id).2 = true ∧ ∃ e, e.HasKey start stop id ∧ e ∈ t.entries ∧
      t.entries.Perm (e :: (t.remove start stop id).1.entries)) := by
  rcases t.root.entries_removeInterval start stop id t.sorted with
    ⟨hf, he, hn⟩ | ⟨hf, bs, e, as, hn, hk, he⟩
  · exact .inl ⟨hf, he, hn⟩
  refine .inr ⟨hf, e, hk, ?_, ?_⟩
  · change e ∈ t.root.entries
    rw [hn]; simp
  · change t.root.entries.Perm (e :: (t.root.removeInterval start stop id).1.entries)
    rw [hn, he]
    exact perm_middle

private theorem visitList_collect (keep : Entry T → Bool) (es acc : List (Entry T)) :
    visitList (fun e acc => (true, if keep e then acc ++ [e] else acc)) es acc =
      acc ++ es.filter keep := by
  induction es generalizing acc with
  | nil => simp [visitList]
  | cons e es ih =>
    simp only [visitList, ih]
    by_cases h : keep e <;> simp [h]

/-- Collecting is filtering the sorted entry list. -/
theorem collect_eq (lo hi : Nat) (keep : Entry T → Bool) :
    t.collect lo hi keep = (t.entries.filter (Entry.intersects lo hi)).filter keep := by
  rw [collect, overlap, IntervalNode.overlapWalk_eq_visitList _ _ _ _ t.sorted t.maxEnd,
    visitList_collect]
  rfl

/-- Collected entries are the stored ones that intersect and are selected. -/
theorem mem_collect (lo hi : Nat) (keep : Entry T → Bool) (e : Entry T) : e ∈ t.collect lo hi keep ↔
      e ∈ t.entries ∧ e.start ≤ hi ∧ lo ≤ e.stop ∧ keep e = true := by
  rw [collect_eq, mem_filter, mem_filter]
  simp only [Entry.intersects, Bool.and_eq_true, decide_eq_true_eq]
  tauto

private theorem visitList_first (p : Entry T → Bool) (es : List (Entry T)) :
    visitList (fun e acc => if p e then (false, some e) else (true, acc)) es none = es.find? p := by
  induction es with
  | nil => rfl
  | cons e es ih =>
    by_cases h : p e
    · simp [visitList, h]
    · simp [visitList, h, ih]

/-- Stopping at the first selected entry is a search in the sorted entry list. -/
theorem first_eq (lo hi : Nat) (p : Entry T → Bool) :
    t.first lo hi p = (t.entries.filter (Entry.intersects lo hi)).find? p := by
  rw [first, overlap, IntervalNode.overlapWalk_eq_visitList _ _ _ _ t.sorted t.maxEnd,
    visitList_first]
  rfl

/-- Nothing is found exactly when no stored entry intersects and is selected. -/
theorem first_eq_none_iff (lo hi : Nat) (p : Entry T → Bool) : t.first lo hi p = none ↔
      ∀ e ∈ t.entries, e.start ≤ hi → lo ≤ e.stop → p e = false := by
  rw [first_eq, find?_eq_none]
  constructor
  · intro h e he hs hl
    have hm : e ∈ t.entries.filter (Entry.intersects lo hi) := by
      simp [mem_filter, he, Entry.intersects, hs, hl]
    simpa using h e hm
  · intro h e he
    obtain ⟨he, hi'⟩ := mem_filter.mp he
    simp only [Entry.intersects, Bool.and_eq_true, decide_eq_true_eq] at hi'
    simp [h e he hi'.1 hi'.2]

/-- An index after insertions under ids that it does not store and removals, with what it stores. -/
inductive Built : IntervalTree T → List (Entry T) → Prop
  | empty : Built empty []
  | insert {t : IntervalTree T} {stored : List (Entry T)} {start stop id : Nat} {value : T}
      (h : Built t stored) (hid : ∀ x ∈ stored, x.id ≠ id) :
      Built (t.insert start stop id value)
        (⟨start, stop, id, splitmix64 (UInt64.ofNat id), value⟩ :: stored)
  | remove {t : IntervalTree T} {stored : List (Entry T)} {start stop id : Nat}
      (h : Built t stored) :
      Built (t.remove start stop id).1 (stored.filter fun x => ¬ x.HasKey start stop id)

variable {t} {stored : List (Entry T)}

private theorem Built.ids (h : Built t stored) : stored.Pairwise fun x y => x.id ≠ y.id := by
  induction h with
  | empty => exact .nil
  | insert _ hid ih => exact pairwise_cons.mpr ⟨fun x hx => (hid x hx).symm, ih⟩
  | remove _ ih => exact ih.filter _

private theorem Built.perm (h : Built t stored) : t.entries.Perm stored := by
  induction h with
  | empty => exact .nil
  | insert _ _ ih => exact (entries_insert ..).trans (ih.cons _)
  | @remove t stored start stop id h ih =>
    rcases t.entries_remove start stop id with ⟨-, he, hnone⟩ | ⟨-, e, hkey, -, hperm⟩
    · rw [he, filter_eq_self.mpr]
      · exact ih
      · exact fun x hx => decide_eq_true (hnone x (ih.mem_iff.mpr hx))
    have hids := h.ids
    rw [← (hperm.symm.trans ih).pairwise_iff Ne.symm, pairwise_cons] at hids
    have hfilter := (hperm.symm.trans ih).filter fun x => decide (¬ x.HasKey start stop id)
    rw [filter_cons_of_neg (by simpa using hkey), filter_eq_self.mpr] at hfilter
    · exact hfilter
    · intro x hx
      exact decide_eq_true fun hx' => hids.1 x hx (hkey.2.2.trans hx'.2.2.symm)

/-- The index over every history: it stores what was inserted and not removed, as a search tree with
heap order and the largest end in every node, and a walk visits in key order the stored entries that
intersect until the visitor stops. -/
theorem Built.interval_index (h : Built t stored) :
    t.entries.Perm stored ∧ t.entries.Pairwise Entry.KeyLess ∧ t.size = stored.length ∧
      (∀ e m l r, IntervalNode.Subtree (.node e m l r) t.root →
        (∀ x ∈ (IntervalNode.node e m l r).entries, x.stop ≤ m ∧ x.priority ≤ e.priority) ∧
          ∃ x ∈ (IntervalNode.node e m l r).entries, x.stop = m) ∧
      ∀ (σ : Type) lo hi (visit : Entry T → σ → Bool × σ) s, t.overlap lo hi visit s =
        visitList visit (t.entries.filter (Entry.intersects lo hi)) s := by
  refine ⟨h.perm, ?_, t.size_eq.trans h.perm.length_eq, fun e m l r hsub => ?_, ?_⟩
  · have hids := (h.perm.pairwise_iff Ne.symm).mpr h.ids
    refine (t.sorted.and hids).imp fun {a b} hab => ?_
    have hle := Entry.keyLe_iff.mp hab.1
    rw [Entry.keyLess_iff]
    omega
  · obtain ⟨hmax, hheap⟩ := hsub.ok t.maxEnd t.heap
    refine ⟨fun x hx => ⟨hmax.stop_le x hx, hheap.le_root (UInt64.le_refl _) x hx⟩, ?_⟩
    exact hmax.attained.resolve_left nofun
  · intro σ lo hi visit s
    rw [overlap, IntervalNode.overlapWalk_eq_visitList _ _ _ _ t.sorted t.maxEnd]
    rfl

theorem interval_index_removed :
    (((empty.insert 0 9 1 'a').insert 5 7 2 'b').remove 0 9 1).1.size = 1 := by
  have h : Built (((empty.insert 0 9 1 'a').insert 5 7 2 'b').remove 0 9 1).1 _ :=
    .remove (.insert (.insert .empty (by simp)) (by simp))
  exact h.interval_index.2.2.1

end IntervalTree
end PortableFS.Locks
