import Mathlib

/-!
# Treap nodes of the interval index

Module `volumeserver`, `vcs/internal/volumeserver/locks.go:103–278`. A node holds one entry
and the largest end below it; the tree is ordered by `(start, end, id)` and heap ordered by
priority. Every operation is related to the in-order entry list, so that later modules
reason about sorted lists and never about rotations.
-/

namespace PortableFS.Locks

open List

/-- Payload of one `intervalNode`; `locks.go:111–120`. Both ends are inclusive. -/
structure Entry (T : Type) where
  start : Nat
  stop : Nat
  id : Nat
  priority : UInt64
  value : T
  deriving DecidableEq

/-- Treap of entries, each node augmented with `maxEnd`; `locks.go:111–120`. -/
inductive IntervalNode (T : Type) where
  | nil
  | node (entry : Entry T) (maxEnd : Nat) (left right : IntervalNode T)
  deriving DecidableEq

/-- Priority derived from the entry's unique id; `locks.go:129–136`. -/
def splitmix64 (x : UInt64) : UInt64 :=
  let x := x + 0x9e3779b97f4a7c15
  let x := (x ^^^ (x >>> 30)) * 0xbf58476d1ce4e5b9
  let x := (x ^^^ (x >>> 27)) * 0x94d049bb133111eb
  x ^^^ (x >>> 31)

/-- Lexicographic order on `(start, end, id)`; `locks.go:138–146`. -/
def intervalKeyLess (aStart aEnd aID bStart bEnd bID : Nat) : Bool :=
  if aStart ≠ bStart then decide (aStart < bStart)
  else if aEnd ≠ bEnd then decide (aEnd < bEnd)
  else decide (aID < bID)

namespace Entry

variable {T : Type}

/-- Key comparison of two entries. -/
def KeyLess (a b : Entry T) : Prop :=
  intervalKeyLess a.start a.stop a.id b.start b.stop b.id = true

/-- Key order: `a` does not come after `b`. -/
def KeyLe (a b : Entry T) : Prop := ¬ b.KeyLess a

/-- The entry is stored under exactly this key. -/
def HasKey (e : Entry T) (start stop id : Nat) : Prop :=
  e.start = start ∧ e.stop = stop ∧ e.id = id

instance (e : Entry T) (start stop id : Nat) : Decidable (e.HasKey start stop id) :=
  inferInstanceAs (Decidable (_ ∧ _))

/-- The entry shares a byte with the inclusive range. -/
def intersects (lo hi : Nat) (e : Entry T) : Bool := decide (e.start ≤ hi) && decide (lo ≤ e.stop)

end Entry

/-- Comparison of keys as a disjunction of the three lexicographic cases. -/
theorem intervalKeyLess_iff (a b c x y z : Nat) : intervalKeyLess a b c x y z = true ↔
      a < x ∨ a = x ∧ (b < y ∨ b = y ∧ c < z) := by
  unfold intervalKeyLess
  split
  · next h => simp only [decide_eq_true_eq]; omega
  · next h =>
    split <;> (simp only [decide_eq_true_eq]; omega)

namespace Entry

variable {T : Type} {a b c : Entry T}

theorem keyLess_iff : a.KeyLess b ↔ a.start < b.start ∨ a.start = b.start ∧
        (a.stop < b.stop ∨ a.stop = b.stop ∧ a.id < b.id) :=
  intervalKeyLess_iff _ _ _ _ _ _

theorem keyLe_iff : a.KeyLe b ↔ a.start < b.start ∨ a.start = b.start ∧
        (a.stop < b.stop ∨ a.stop = b.stop ∧ a.id ≤ b.id) := by
  unfold KeyLe
  rw [keyLess_iff]
  omega

/-- The key order is transitive. -/
theorem KeyLe.trans (h : a.KeyLe b) (h' : b.KeyLe c) : a.KeyLe c := by
  rw [keyLe_iff] at *
  omega

/-- A strictly smaller key precedes. -/
theorem KeyLess.le (h : a.KeyLess b) : a.KeyLe b := by
  rw [keyLe_iff]
  rw [keyLess_iff] at h
  omega

/-- The key order sorts by start first. -/
theorem KeyLe.start_le (h : a.KeyLe b) : a.start ≤ b.start := by
  rw [keyLe_iff] at h
  omega

end Entry

namespace IntervalNode

variable {T : Type}

/-- In-order entries. -/
def entries : IntervalNode T → List (Entry T)
  | nil => []
  | node e _ l r => l.entries ++ e :: r.entries

/-- Stored augmentation; an absent child contributes nothing to a maximum. -/
def maxEnd : IntervalNode T → Nat
  | nil => 0
  | node _ m _ _ => m

/-- Recompute the augmentation of the root from its children; `locks.go:148–156`. -/
def update : IntervalNode T → IntervalNode T
  | nil => nil
  | node e _ l r => node e (max e.stop (max l.maxEnd r.maxEnd)) l r

/-- `locks.go:158–165`. A missing pivot leaves the node alone; the source never asks for it. -/
def rotateRight : IntervalNode T → IntervalNode T
  | node e m (node pe pm pl pr) r => update (node pe pm pl (update (node e m pr r)))
  | n => n

/-- `locks.go:167–174`. -/
def rotateLeft : IntervalNode T → IntervalNode T
  | node e m l (node pe pm pl pr) => update (node pe pm (update (node e m l pl)) pr)
  | n => n

/-- The child's root has a strictly larger priority than `p`. -/
def outranks : IntervalNode T → UInt64 → Bool
  | nil, _ => false
  | node e _ _ _, p => decide (p < e.priority)

/-- Recursive treap insertion; `locks.go:176–193`. -/
def insertInterval (fresh : Entry T) : IntervalNode T → IntervalNode T
  | nil => node fresh fresh.stop nil nil
  | node e m l r =>
    if intervalKeyLess fresh.start fresh.stop fresh.id e.start e.stop e.id then
      let l' := insertInterval fresh l
      let n := node e m l' r
      update (if l'.outranks e.priority then rotateRight n else n)
    else
      let r' := insertInterval fresh r
      let n := node e m l r'
      update (if r'.outranks e.priority then rotateLeft n else n)

/-- Inner loop of `mergeIntervals`: the left operand is the node `(e, m, l, r)`, and
`mergeRest` merges its right subtree. -/
def mergeInto (e : Entry T) (m : Nat) (l r : IntervalNode T)
    (mergeRest : IntervalNode T → IntervalNode T) : IntervalNode T → IntervalNode T
  | nil => node e m l r
  | node be bm bl br =>
    if be.priority < e.priority then update (node e m l (mergeRest (node be bm bl br)))
    else update (node be bm (mergeInto e m l r mergeRest bl) br)

/-- Merge of two treaps with every left key before every right key; `locks.go:202–217`. -/
def mergeIntervals : IntervalNode T → IntervalNode T → IntervalNode T
  | nil => fun b => b
  | node e m l r => mergeInto e m l r (mergeIntervals r)

/-- Remove one key, reporting whether it was present; `locks.go:219–237`. -/
def removeInterval (start stop id : Nat) : IntervalNode T → IntervalNode T × Bool
  | nil => (nil, false)
  | node e m l r =>
    if e.HasKey start stop id then (mergeIntervals l r, true)
    else if intervalKeyLess start stop id e.start e.stop e.id then
      let (child, removed) := removeInterval start stop id l
      (update (node e m child r), removed)
    else
      let (child, removed) := removeInterval start stop id r
      (update (node e m l child), removed)

/-- Pruned in-order walk with an accumulator; `locks.go:248–264`. The visitor and the walk
return `false` to stop. -/
def overlapWalk {σ : Type} (lo hi : Nat) (visit : Entry T → σ → Bool × σ) :
    IntervalNode T → σ → Bool × σ
  | nil, s => (true, s)
  | node e m l r, s =>
    if m < lo then (true, s) else
    match overlapWalk lo hi visit l s with
    | (false, s) => (false, s)
    | (true, s) =>
      if hi < e.start then (false, s) else
      match (if lo ≤ e.stop then visit e s else (true, s)) with
      | (false, s) => (false, s)
      | (true, s) => overlapWalk lo hi visit r s

/-- Key-sorted entries. -/
def Sorted (n : IntervalNode T) : Prop := n.entries.Pairwise Entry.KeyLe

/-- Every node's augmentation is the largest end of its subtree. -/
def MaxEndOk : IntervalNode T → Prop
  | nil => True
  | node e m l r => m = max e.stop (max l.maxEnd r.maxEnd) ∧ l.MaxEndOk ∧ r.MaxEndOk

/-- Heap order of the priorities. -/
def HeapOk : IntervalNode T → Prop
  | nil => True
  | node e _ l r =>
    (∀ x ∈ l.entries, x.priority ≤ e.priority) ∧ (∀ x ∈ r.entries, x.priority ≤ e.priority) ∧
      l.HeapOk ∧ r.HeapOk

variable (n : IntervalNode T)

@[simp]
theorem entries_update : n.update.entries = n.entries := by
  cases n <;> rfl

@[simp]
theorem entries_rotateRight : n.rotateRight.entries = n.entries := by
  unfold rotateRight
  split
  · simp [entries]
  · rfl

@[simp]
theorem entries_rotateLeft : n.rotateLeft.entries = n.entries := by
  unfold rotateLeft
  split
  · simp [entries]
  · rfl

variable (fresh : Entry T)

/-- Insertion places the fresh entry between the keys that do not exceed it and those that do. -/
theorem entries_insertInterval (n : IntervalNode T) (hs : n.Sorted) :
    ∃ before after, n.entries = before ++ after ∧
      (insertInterval fresh n).entries = before ++ fresh :: after ∧
      (∀ x ∈ before, x.KeyLe fresh) ∧ (∀ x ∈ after, fresh.KeyLess x) := by
  induction n with
  | nil => exact ⟨[], [], rfl, rfl, by simp, by simp⟩
  | node e m l r ihl ihr =>
    obtain ⟨hl, hr, hlr⟩ := pairwise_append.mp hs
    obtain ⟨her, hr⟩ := pairwise_cons.mp hr
    unfold insertInterval
    split
    · next h =>
      -- the walk goes left: the root and everything right of it exceed the fresh key
      obtain ⟨before, after, hn, hi, hb, ha⟩ := ihl hl
      refine ⟨before, after ++ e :: r.entries, by simp [entries, hn], ?_, hb, ?_⟩
      · rw [entries_update]
        split <;> simp [entries, hi]
      intro x hx
      have hfe : fresh.KeyLess e := h
      rcases mem_append.mp hx with hx | hx
      · exact ha x hx
      rcases mem_cons.mp hx with rfl | hx
      · exact hfe
      · have hex := her x hx
        rw [Entry.keyLe_iff] at hex
        rw [Entry.keyLess_iff] at *
        omega
    · next h =>
      obtain ⟨before, after, hn, hi, hb, ha⟩ := ihr hr
      refine ⟨l.entries ++ e :: before, after, by simp [entries, hn], ?_, ?_, ha⟩
      · rw [entries_update]
        split <;> simp [entries, hi]
      intro x hx
      have hef : e.KeyLe fresh := h
      rcases mem_append.mp hx with hx | hx
      · exact (hlr x hx e (by simp)).trans hef
      · rcases mem_cons.mp hx with rfl | hx
        · exact hef
        · exact hb x hx

private theorem entries_mergeInto (e : Entry T) (m : Nat) (l r : IntervalNode T)
    (mergeRest : IntervalNode T → IntervalNode T)
    (hm : ∀ b, (mergeRest b).entries = r.entries ++ b.entries) (b : IntervalNode T) :
    (mergeInto e m l r mergeRest b).entries = l.entries ++ e :: r.entries ++ b.entries := by
  induction b with
  | nil => simp [mergeInto, entries]
  | node be bm bl br ihl _ =>
    unfold mergeInto
    split
    · simp [entries, hm]
    · simp [entries, ihl]

/-- Merging concatenates the entry lists. -/
theorem entries_mergeIntervals (a b : IntervalNode T) :
    (mergeIntervals a b).entries = a.entries ++ b.entries := by
  induction a generalizing b with
  | nil => rfl
  | node e m l r _ ihr => exact entries_mergeInto e m l r _ ihr b

/-- Removal of an absent key changes nothing; removal of a present one deletes one entry
stored under that key. -/
theorem entries_removeInterval (start stop id : Nat) (n : IntervalNode T) (hs : n.Sorted) :
    ((removeInterval start stop id n).2 = false ∧
      (removeInterval start stop id n).1.entries = n.entries ∧
      ∀ x ∈ n.entries, ¬ x.HasKey start stop id) ∨
    ((removeInterval start stop id n).2 = true ∧
      ∃ before e after, n.entries = before ++ e :: after ∧ e.HasKey start stop id ∧
        (removeInterval start stop id n).1.entries = before ++ after) := by
  induction n with
  | nil => exact .inl ⟨rfl, rfl, by simp [entries]⟩
  | node e m l r ihl ihr =>
    obtain ⟨hl, hr, hlr⟩ := pairwise_append.mp hs
    obtain ⟨her, hr⟩ := pairwise_cons.mp hr
    unfold removeInterval
    split
    · next h =>
      exact .inr ⟨rfl, l.entries, e, r.entries, rfl, h, entries_mergeIntervals l r⟩
    next h =>
    split
    · next hk =>
      rw [intervalKeyLess_iff] at hk
      rcases ihl hl with ⟨hf, he, hn⟩ | ⟨hf, before, x, after, hx, hkey, he⟩
      · refine .inl ⟨hf, by simp [entries, he], ?_⟩
        intro y hy hyk
        rcases mem_append.mp hy with hy | hy
        · exact hn y hy hyk
        rcases mem_cons.mp hy with rfl | hy
        · exact h hyk
        · have hey := Entry.keyLe_iff.mp (her y hy)
          obtain ⟨h1, h2, h3⟩ := hyk
          omega
      · exact .inr ⟨hf, before, x, after ++ e :: r.entries, by simp [entries, hx], hkey,
          by simp [entries, he]⟩
    · next hk =>
      rw [intervalKeyLess_iff] at hk
      rcases ihr hr with ⟨hf, he, hn⟩ | ⟨hf, before, x, after, hx, hkey, he⟩
      · refine .inl ⟨hf, by simp [entries, he], ?_⟩
        intro y hy hyk
        rcases mem_append.mp hy with hy | hy
        · have hye := Entry.keyLe_iff.mp (hlr y hy e (by simp))
          obtain ⟨h1, h2, h3⟩ := hyk
          have hne : ¬ (e.start = start ∧ e.stop = stop ∧ e.id = id) := h
          omega
        · rcases mem_cons.mp hy with rfl | hy
          · exact h hyk
          · exact hn y hy hyk
      · exact .inr ⟨hf, l.entries ++ e :: before, x, after, by simp [entries, hx], hkey,
          by simp [entries, he]⟩

/-- A correct augmentation bounds every end below the node. -/
theorem MaxEndOk.stop_le {n : IntervalNode T} (h : n.MaxEndOk) :
    ∀ x ∈ n.entries, x.stop ≤ n.maxEnd := by
  induction n with
  | nil => simp [entries]
  | node e m l r ihl ihr =>
    obtain ⟨hm, hl, hr⟩ := h
    intro x hx
    change x.stop ≤ m
    rcases mem_append.mp hx with hx | hx
    · have := ihl hl x hx
      omega
    · rcases mem_cons.mp hx with rfl | hx
      · omega
      · have := ihr hr x hx
        omega

/-- A correct augmentation is an end below the node. -/
theorem MaxEndOk.attained {n : IntervalNode T} (h : n.MaxEndOk) :
    n = nil ∨ ∃ x ∈ n.entries, x.stop = n.maxEnd := by
  induction n with
  | nil => exact .inl rfl
  | node e m l r ihl ihr =>
    obtain ⟨hm, hl, hr⟩ := h
    refine .inr ?_
    change ∃ x ∈ l.entries ++ e :: r.entries, x.stop = m
    by_cases he : e.stop = m
    · exact ⟨e, by simp, he⟩
    by_cases hlm : l.maxEnd = m
    · rcases ihl hl with rfl | ⟨x, hx, hxm⟩
      · change 0 = m at hlm
        omega
      · exact ⟨x, by simp [hx], hxm.trans hlm⟩
    · rcases ihr hr with rfl | ⟨x, hx, hxm⟩
      · change m = max e.stop (max l.maxEnd 0) at hm
        omega
      · exact ⟨x, by simp [hx], by omega⟩

variable {e : Entry T} {m : Nat} {l r : IntervalNode T}

private theorem maxEndOk_update (hl : l.MaxEndOk) (hr : r.MaxEndOk) :
    (update (node e m l r)).MaxEndOk :=
  ⟨rfl, hl, hr⟩

private theorem maxEndOk_rotateRight (hl : l.MaxEndOk) (hr : r.MaxEndOk) :
    (update (rotateRight (node e m l r))).MaxEndOk := by
  cases l with
  | nil => exact maxEndOk_update hl hr
  | node pe pm pl pr =>
    obtain ⟨_, hpl, hpr⟩ := hl
    exact maxEndOk_update hpl (maxEndOk_update hpr hr)

private theorem maxEndOk_rotateLeft (hl : l.MaxEndOk) (hr : r.MaxEndOk) :
    (update (rotateLeft (node e m l r))).MaxEndOk := by
  cases r with
  | nil => exact maxEndOk_update hl hr
  | node pe pm pl pr =>
    obtain ⟨_, hpl, hpr⟩ := hr
    exact maxEndOk_update (maxEndOk_update hl hpl) hpr

/-- Insertion restores the augmentation along the walked path. -/
theorem maxEndOk_insertInterval (n : IntervalNode T) (h : n.MaxEndOk) :
    (insertInterval fresh n).MaxEndOk := by
  induction n with
  | nil => exact ⟨by simp [maxEnd], trivial, trivial⟩
  | node e m l r ihl ihr =>
    obtain ⟨_, hl, hr⟩ := h
    unfold insertInterval
    split
    · dsimp only
      split
      · exact maxEndOk_rotateRight (ihl hl) hr
      · exact maxEndOk_update (ihl hl) hr
    · dsimp only
      split
      · exact maxEndOk_rotateLeft hl (ihr hr)
      · exact maxEndOk_update hl (ihr hr)

variable {mergeRest : IntervalNode T → IntervalNode T}

private theorem maxEndOk_mergeInto
    (hm : ∀ b, b.MaxEndOk → (mergeRest b).MaxEndOk) (h : (node e m l r).MaxEndOk)
    (b : IntervalNode T) (hb : b.MaxEndOk) : (mergeInto e m l r mergeRest b).MaxEndOk := by
  induction b with
  | nil => exact h
  | node be bm bl br ihl _ =>
    unfold mergeInto
    split
    · exact maxEndOk_update h.2.1 (hm _ hb)
    · exact maxEndOk_update (ihl hb.2.1) hb.2.2

/-- Merging restores the augmentation. -/
theorem maxEndOk_mergeIntervals (a b : IntervalNode T) (ha : a.MaxEndOk) (hb : b.MaxEndOk) :
    (mergeIntervals a b).MaxEndOk := by
  induction a generalizing b with
  | nil => exact hb
  | node e m l r _ ihr => exact maxEndOk_mergeInto (fun c hc => ihr c ha.2.2 hc) ha b hb

/-- Removal restores the augmentation. -/
theorem maxEndOk_removeInterval (start stop id : Nat) (n : IntervalNode T) (h : n.MaxEndOk) :
    (removeInterval start stop id n).1.MaxEndOk := by
  induction n with
  | nil => trivial
  | node e m l r ihl ihr =>
    obtain ⟨_, hl, hr⟩ := h
    unfold removeInterval
    split
    · exact maxEndOk_mergeIntervals l r hl hr
    · split
      · exact maxEndOk_update (m := m) (ihl hl) hr
      · exact maxEndOk_update (m := m) hl (ihr hr)

@[simp]
theorem heapOk_update : n.update.HeapOk ↔ n.HeapOk := by
  cases n <;> rfl

variable {p : UInt64}

/-- The root has the largest priority. -/
theorem HeapOk.le_root (h : (node e m l r).HeapOk) (hp : e.priority ≤ p) :
    ∀ x ∈ (node e m l r).entries, x.priority ≤ p := by
  intro x hx
  simp only [entries, mem_append, mem_cons] at hx
  rcases hx with hx | rfl | hx
  · exact UInt64.le_trans (h.1 x hx) hp
  · exact hp
  · exact UInt64.le_trans (h.2.1 x hx) hp

-- The rotated-up pivot is the fresh entry, since every older entry below the node already
-- respects its priority; cancelling it leaves the older entries on both sides of the pivot.
private theorem pivot_is_fresh {fresh pe : Entry T} {before after old : List (Entry T)}
    (hp : (before ++ pe :: after).Perm (fresh :: old)) (ho : ∀ x ∈ old, x.priority ≤ p)
    (hpe : p < pe.priority) : pe = fresh ∧ ∀ x ∈ before ++ after, x ∈ old := by
  have hmem : pe ∈ fresh :: old := hp.mem_iff.mp (by simp)
  have hpf : pe = fresh := by
    rcases mem_cons.mp hmem with h | h
    · exact h
    · exact absurd hpe (UInt64.not_lt.mpr (ho pe h))
  subst hpf
  refine ⟨rfl, fun x hx => ?_⟩
  have hc := (perm_middle.symm.trans hp).cons_inv
  exact hc.mem_iff.mp hx

theorem perm_insertInterval (n : IntervalNode T) (hs : n.Sorted) :
    (insertInterval fresh n).entries.Perm (fresh :: n.entries) := by
  obtain ⟨before, after, hn, hi, _, _⟩ := entries_insertInterval fresh n hs
  rw [hn, hi]
  exact perm_middle

/-- Insertion keeps the heap order: a rotation happens exactly when the fresh entry has to
rise above the node. -/
theorem heapOk_insertInterval (n : IntervalNode T) (hs : n.Sorted)
    (h : n.HeapOk) : (insertInterval fresh n).HeapOk := by
  induction n with
  | nil => exact ⟨by simp [entries], by simp [entries], trivial, trivial⟩
  | node e m l r ihl ihr =>
    obtain ⟨hl, hr, hlo, hro⟩ := h
    obtain ⟨hsl, hsr, _⟩ := pairwise_append.mp hs
    have hsr : r.Sorted := (pairwise_cons.mp hsr).2
    unfold insertInterval
    split
    · have hp := perm_insertInterval fresh l hsl
      have hh := ihl hsl hlo
      generalize insertInterval fresh l = l' at hp hh
      dsimp only
      rw [heapOk_update]
      cases l' with
      | nil => simp [entries] at hp
      | node pe pm pl pr =>
        split
        · next ho =>
          have hpe : e.priority < pe.priority := by simpa [outranks] using ho
          obtain ⟨rfl, hold⟩ := pivot_is_fresh hp hl hpe
          obtain ⟨hpl, hpr, hpl', hpr'⟩ := hh
          simp only [rotateRight, heapOk_update]
          refine ⟨hpl, ?_, hpl', ?_⟩
          · intro x hx
            simp only [entries_update, entries, mem_append, mem_cons] at hx
            rcases hx with hx | rfl | hx
            · exact hpr x hx
            · exact UInt64.le_of_lt hpe
            · exact UInt64.le_trans (hr x hx) (UInt64.le_of_lt hpe)
          · rw [heapOk_update]
            exact ⟨fun x hx => hl x (hold x (by simp [hx])), hr, hpr', hro⟩
        · next ho =>
          have hpe : pe.priority ≤ e.priority := by simpa [outranks] using ho
          exact ⟨hh.le_root hpe, hr, hh, hro⟩
    · have hp := perm_insertInterval fresh r hsr
      have hh := ihr hsr hro
      generalize insertInterval fresh r = r' at hp hh
      dsimp only
      rw [heapOk_update]
      cases r' with
      | nil => simp [entries] at hp
      | node pe pm pl pr =>
        split
        · next ho =>
          have hpe : e.priority < pe.priority := by simpa [outranks] using ho
          obtain ⟨rfl, hold⟩ := pivot_is_fresh hp hr hpe
          obtain ⟨hpl, hpr, hpl', hpr'⟩ := hh
          simp only [rotateLeft, heapOk_update]
          refine ⟨?_, hpr, ?_, hpr'⟩
          · intro x hx
            simp only [entries_update, entries, mem_append, mem_cons] at hx
            rcases hx with hx | rfl | hx
            · exact UInt64.le_trans (hl x hx) (UInt64.le_of_lt hpe)
            · exact UInt64.le_of_lt hpe
            · exact hpl x hx
          · rw [heapOk_update]
            exact ⟨hl, fun x hx => hr x (hold x (by simp [hx])), hlo, hpl'⟩
        · next ho =>
          have hpe : pe.priority ≤ e.priority := by simpa [outranks] using ho
          exact ⟨hl, hh.le_root hpe, hlo, hh⟩

private theorem heapOk_mergeInto (he : ∀ b, (mergeRest b).entries = r.entries ++ b.entries)
    (hm : ∀ b, b.HeapOk → (mergeRest b).HeapOk) (h : (node e m l r).HeapOk) (b : IntervalNode T)
    (hb : b.HeapOk) : (mergeInto e m l r mergeRest b).HeapOk := by
  induction b with
  | nil => exact h
  | node be bm bl br ihl _ =>
    obtain ⟨hl, hr, hlo, hro⟩ := id h
    obtain ⟨hbl, hbr, hblo, hbro⟩ := id hb
    unfold mergeInto
    split
    · next hlt =>
      have hle := UInt64.le_of_lt hlt
      rw [heapOk_update]
      refine ⟨hl, ?_, hlo, hm _ hb⟩
      intro x hx
      rw [he] at hx
      rcases mem_append.mp hx with hx | hx
      · exact hr x hx
      · exact hb.le_root hle x hx
    · next hlt =>
      have hle := UInt64.not_lt.mp hlt
      rw [heapOk_update]
      refine ⟨?_, hbr, ihl hblo, hbro⟩
      intro x hx
      rw [entries_mergeInto e m l r mergeRest he] at hx
      rcases mem_append.mp hx with hx | hx
      · exact h.le_root hle x hx
      · exact hbl x hx

/-- Merging keeps the heap order. -/
theorem heapOk_mergeIntervals (a b : IntervalNode T) (ha : a.HeapOk) (hb : b.HeapOk) :
    (mergeIntervals a b).HeapOk := by
  induction a generalizing b with
  | nil => exact hb
  | node e m l r _ ihr =>
    exact heapOk_mergeInto (entries_mergeIntervals r) (fun c hc => ihr c ha.2.2.2 hc) ha b hb

/-- Removal keeps the heap order. -/
theorem heapOk_removeInterval (start stop id : Nat) (n : IntervalNode T) (hs : n.Sorted)
    (h : n.HeapOk) : (removeInterval start stop id n).1.HeapOk := by
  induction n with
  | nil => trivial
  | node e m l r ihl ihr =>
    obtain ⟨hl, hr, hlo, hro⟩ := h
    obtain ⟨hsl, hsr, _⟩ := pairwise_append.mp hs
    have hsr : r.Sorted := (pairwise_cons.mp hsr).2
    have mem_of_removed : ∀ n : IntervalNode T, n.Sorted →
        ∀ x ∈ (removeInterval start stop id n).1.entries, x ∈ n.entries := by
      intro n hn x hx
      rcases entries_removeInterval start stop id n hn with ⟨_, he, _⟩ | ⟨_, bs, y, as, he, _, hr⟩
      · rwa [he] at hx
      · rw [hr] at hx
        rw [he]
        simp only [mem_append, mem_cons] at hx ⊢
        tauto
    unfold removeInterval
    split
    · exact heapOk_mergeIntervals l r hlo hro
    split
    · refine (heapOk_update (node e m _ r)).mpr ⟨?_, hr, ihl hsl hlo, hro⟩
      exact fun x hx => hl x (mem_of_removed l hsl x hx)
    · refine (heapOk_update (node e m l _)).mpr ⟨hl, ?_, hlo, ihr hsr hro⟩
      exact fun x hx => hr x (mem_of_removed r hsr x hx)

/-- A tree and what hangs below its nodes. -/
inductive Subtree (n : IntervalNode T) : IntervalNode T → Prop
  | self : Subtree n n
  | left {e : Entry T} {m : Nat} {l r : IntervalNode T} (h : Subtree n l) : Subtree n (node e m l r)
  | right {e : Entry T} {m : Nat} {l r : IntervalNode T} (h : Subtree n r) : Subtree n (node e m l r)

theorem Subtree.ok {n t : IntervalNode T} (h : Subtree n t) (hmax : t.MaxEndOk) (hheap : t.HeapOk) :
    n.MaxEndOk ∧ n.HeapOk := by
  induction h with
  | self => exact ⟨hmax, hheap⟩
  | left _ ih => exact ih hmax.2.1 hheap.2.2.1
  | right _ ih => exact ih hmax.2.2 hheap.2.2.2

end IntervalNode

/-- Visit a list until the visitor asks to stop. -/
def visitList {T σ : Type} (visit : Entry T → σ → Bool × σ) : List (Entry T) → σ → σ
  | [], s => s
  | e :: es, s =>
    match visit e s with
    | (false, s) => s
    | (true, s) => visitList visit es s

namespace IntervalNode

variable {T σ : Type} {es : List (Entry T)}

private theorem filter_eq_nil_of_start (lo : Nat) {hi : Nat}
    (h : ∀ x ∈ es, hi < x.start) : es.filter (Entry.intersects lo hi) = [] := by
  apply filter_eq_nil_iff.mpr
  intro x hx
  have := h x hx
  simp [Entry.intersects]
  omega

private theorem filter_eq_nil_of_stop {lo : Nat} (hi : Nat)
    (h : ∀ x ∈ es, x.stop < lo) : es.filter (Entry.intersects lo hi) = [] := by
  apply filter_eq_nil_iff.mpr
  intro x hx
  have := h x hx
  simp [Entry.intersects]
  omega

-- The continuation `rest` stands for everything right of the subtree: the walk either
-- leaves it to be visited, or has already seen that it need not be.
private theorem overlapWalk_append (lo hi : Nat) (visit : Entry T → σ → Bool × σ)
    (n : IntervalNode T) (hm : n.MaxEndOk) (rest : List (Entry T))
    (hs : (n.entries ++ rest).Pairwise Entry.KeyLe) (s : σ) :
    visitList visit ((n.entries ++ rest).filter (Entry.intersects lo hi)) s =
      if (overlapWalk lo hi visit n s).1 then
        visitList visit (rest.filter (Entry.intersects lo hi)) (overlapWalk lo hi visit n s).2
      else (overlapWalk lo hi visit n s).2 := by
  induction n generalizing rest s with
  | nil => rfl
  | node e m l r ihl ihr =>
    have hmax := hm.stop_le
    obtain ⟨hme, hml, hmr⟩ := hm
    unfold overlapWalk
    by_cases hlt : m < lo
    · have hnil : (node e m l r).entries.filter (Entry.intersects lo hi) = [] :=
        filter_eq_nil_of_stop hi (fun x hx => Nat.lt_of_le_of_lt (hmax x hx) hlt)
      rw [filter_append, hnil, nil_append]
      simp [hlt]
    have hs' : (l.entries ++ (e :: r.entries ++ rest)).Pairwise Entry.KeyLe := by
      simpa [entries] using hs
    have hl := ihl hml (e :: r.entries ++ rest) hs' s
    have hlist : (node e m l r).entries ++ rest = l.entries ++ (e :: r.entries ++ rest) := by
      simp [entries]
    rw [hlist, hl]
    obtain ⟨_, hsr, _⟩ := pairwise_append.mp hs'
    obtain ⟨her, hsr⟩ := pairwise_cons.mp hsr
    obtain ⟨c, s'⟩ := overlapWalk lo hi visit l s
    cases c with
    | false => simp [hlt]
    | true =>
      simp only [hlt, if_false, if_true]
      by_cases hgt : hi < e.start
      · -- past the range: keys are sorted by start, so nothing later intersects
        have hnil : (e :: r.entries ++ rest).filter (Entry.intersects lo hi) = [] := by
          apply filter_eq_nil_of_start
          exact forall_mem_cons.mpr ⟨hgt, fun x hx => hgt.trans_le (her x hx).start_le⟩
        rw [hnil]
        simp [hgt, visitList]
      · have hr := ihr hmr rest hsr
        by_cases hstop : lo ≤ e.stop
        · have hi' : Entry.intersects lo hi e = true := by
            simp [Entry.intersects, hstop]; omega
          rw [cons_append, filter_cons_of_pos hi', visitList]
          simp only [hgt, hstop, if_true, if_false]
          obtain ⟨c, s''⟩ := visit e s'
          cases c with
          | false => simp
          | true => exact hr s''
        · have hi' : ¬ Entry.intersects lo hi e = true := by simp [Entry.intersects, hstop]
          rw [cons_append, filter_cons_of_neg hi']
          simp only [hgt, hstop, if_false]
          exact hr s'

/-- The pruned walk visits, in key order, exactly the entries that intersect the range, and
stops early only when the visitor asks for it. -/
theorem overlapWalk_eq_visitList (lo hi : Nat) (visit : Entry T → σ → Bool × σ)
    (n : IntervalNode T) (hs : n.Sorted) (hm : n.MaxEndOk) (s : σ) :
    (overlapWalk lo hi visit n s).2 =
      visitList visit (n.entries.filter (Entry.intersects lo hi)) s := by
  have h := overlapWalk_append lo hi visit n hm [] (by rw [append_nil]; exact hs) s
  rw [append_nil] at h
  rw [h]
  split <;> rfl

end IntervalNode
end PortableFS.Locks
