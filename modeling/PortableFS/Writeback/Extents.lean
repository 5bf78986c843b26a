import PortableFS.Writeback.Types
import PortableFS.Base.Intervals

/-!
# The extent tree

Module `writeback`, `vcs/internal/writeback/extents.go:1–157`. A balanced tree of disjoint extents in
the order of their starts. Rotations, insertions and removals are seen only through the list of
extents from left to right and through the stored end of the data extents.
-/

namespace PortableFS.Writeback

open List

/-- What a tree node keeps from `get` to `put`; `extents.go:6–14`. `node` is its place in the arena,
a missing payload is a zero mask, and the owner is the sequence of a record. -/
structure Extent where
  node : Nat
  lo : Nat
  hi : Nat
  data : Option (List UInt8)
  owner : Option Nat
deriving DecidableEq, Repr

/-- The tree under `extentMap.root`, with the stored height and end of every node. -/
inductive Tree
  | nil
  | node (e : Extent) (height : Nat) (stop : Nat) (left right : Tree)
deriving Repr

namespace Tree

/-- `extents.go:67–72`. -/
def height : Tree → Nat
  | nil => 0
  | node _ h _ _ _ => h

/-- `extents.go:73–78`. -/
def extentEnd : Tree → Nat
  | nil => 0
  | node _ _ s _ _ => s

/-- Recompute what the root stores about its subtree; `extents.go:79–85`. -/
def fix : Tree → Tree
  | nil => nil
  | node e _ _ l r =>
    let stop := max l.extentEnd r.extentEnd
    node e (1 + max l.height r.height) (if e.data.isSome then max stop e.hi else stop) l r

/-- `extents.go:86–93`. The source only rotates towards a child that exists. -/
def rotateLeft : Tree → Tree
  | node e h s l (node re rh rs rl rr) => fix (node re rh rs (fix (node e h s l rl)) rr)
  | n => n

/-- `extents.go:94–101`. -/
def rotateRight : Tree → Tree
  | node e h s (node le lh ls ll lr) r => fix (node le lh ls ll (fix (node e h s lr r)))
  | n => n

/-- The left child is lower than the right one. -/
def leansRight : Tree → Bool
  | nil => false
  | node _ _ _ l r => decide (l.height < r.height)

/-- The right child is lower than the left one. -/
def leansLeft : Tree → Bool
  | nil => false
  | node _ _ _ l r => decide (r.height < l.height)

/-- `extents.go:102–120`. -/
def balance : Tree → Tree
  | nil => nil
  | node e h s l r =>
    if l.height > r.height + 1 then
      rotateRight (fix (node e h s (if l.leansRight then rotateLeft l else l) r))
    else if r.height > l.height + 1 then
      rotateLeft (fix (node e h s l (if r.leansLeft then rotateRight r else r)))
    else fix (node e h s l r)

/-- A node fresh from the arena; `extents.go:39–42`. -/
def leaf (e : Extent) : Tree := node e 1 (if e.data.isSome then e.hi else 0) nil nil

/-- `extents.go:121–131`. -/
def insert (fresh : Extent) : Tree → Tree
  | nil => leaf fresh
  | node e h s l r =>
    if fresh.lo < e.lo then balance (node e h s (insert fresh l) r)
    else balance (node e h s l (insert fresh r))

/-- The leftmost extent; the loop of `extents.go:149–152`. -/
def first : Tree → Option Extent
  | nil => none
  | node e _ _ nil _ => some e
  | node _ _ _ l _ => l.first

/-- Remove the extent that starts at `lo`; `extents.go:132–157`. The source is only called for a
start that is in the tree. -/
def remove (lo : Nat) : Tree → Tree × Option Extent
  | nil => (nil, none)
  | node e h s l r =>
    if lo < e.lo then
      let rest := remove lo l
      (balance (node e h s rest.1 r), rest.2)
    else if e.lo < lo then
      let rest := remove lo r
      (balance (node e h s l rest.1), rest.2)
    else
      match l with
      | nil => (r, some e)
      | node .. =>
        match r.first with
        | none => (l, some e)
        | some next => (balance (node next h s l (remove next.lo r).1), some e)

/-- Some extent that meets the range; `extents.go:158–170`. -/
def overlap (lo hi : Nat) : Tree → Option Extent
  | nil => none
  | node e _ _ l r =>
    if e.hi ≤ lo then overlap lo hi r
    else if hi ≤ e.lo then overlap lo hi l
    else some e

/-- The extents from left to right. -/
def toList : Tree → List Extent
  | nil => []
  | node e _ _ l r => l.toList ++ e :: r.toList

/-- The number of nodes. -/
def size (t : Tree) : Nat := t.toList.length

/-- The nodes in the order in which `clear` gives them back; `extents.go:197–205`. -/
def postorder : Tree → List Extent
  | nil => []
  | node e _ _ l r => l.postorder ++ (r.postorder ++ [e])

variable (t : Tree)

@[simp]
theorem toList_fix : t.fix.toList = t.toList := by
  cases t <;> rfl

@[simp]
theorem toList_rotateLeft : t.rotateLeft.toList = t.toList := by
  unfold rotateLeft
  split
  · simp [toList]
  · rfl

@[simp]
theorem toList_rotateRight : t.rotateRight.toList = t.toList := by
  unfold rotateRight
  split
  · simp [toList]
  · rfl

@[simp]
theorem toList_balance : t.balance.toList = t.toList := by
  cases t with
  | nil => rfl
  | node e h s l r =>
    simp only [balance]
    split
    · rw [toList_rotateRight, toList_fix]
      split <;> simp [toList]
    · split
      · rw [toList_rotateLeft, toList_fix]
        split <;> simp [toList]
      · rw [toList_fix]

theorem postorder_perm : t.postorder.Perm t.toList := by
  induction t with
  | nil => exact List.Perm.refl _
  | node e h s l r ihl ihr =>
    exact ihl.append ((ihr.append_right [e]).trans (perm_append_singleton e r.toList))

/-- Nonempty extents in the order of their starts, sharing no byte. -/
structure Ordered (t : Tree) : Prop where
  nonempty : ∀ e ∈ t.toList, e.lo < e.hi
  sorted : t.toList.Pairwise fun a b => a.hi ≤ b.lo

theorem Ordered.nil : Ordered nil := ⟨by simp [toList], List.Pairwise.nil⟩

variable {t : Tree}

/-- Two extents of an ordered tree share no byte. -/
theorem Ordered.apart (ho : t.Ordered) {a b : Extent} (ha : a ∈ t.toList) (hb : b ∈ t.toList)
    (hne : a ≠ b) : a.hi ≤ b.lo ∨ b.hi ≤ a.lo := by
  have hsymm : Std.Symm fun a b : Extent => a.hi ≤ b.lo ∨ b.hi ≤ a.lo := ⟨fun _ _ => Or.symm⟩
  have hp : t.toList.Pairwise fun a b : Extent => a.hi ≤ b.lo ∨ b.hi ≤ a.lo := ho.sorted.imp .inl
  exact hp.forall ha hb hne

theorem Ordered.nodup (ho : t.Ordered) : t.toList.Nodup := by
  refine ho.sorted.imp_of_mem ?_
  rintro a b ha hb hlt rfl
  have := ho.nonempty a ha
  omega

variable {e : Extent}

/-- Removing an extent of the tree leaves all others. -/
theorem Ordered.perm_remove (ho : t.Ordered) (he : e ∈ t.toList) {rest : List Extent}
    (hrest : rest = t.toList.filter fun a => decide (a.lo ≠ e.lo)) : t.toList.Perm (e :: rest) := by
  have herase : rest = t.toList.erase e := by
    rw [hrest, ho.nodup.erase_eq_filter]
    apply filter_congr
    intro a ha
    rw [Bool.eq_iff_iff, decide_eq_true_eq, bne_iff_ne]
    constructor
    · rintro hlo rfl
      exact hlo rfl
    · intro hne hlo
      have := ho.apart ha he hne
      have := ho.nonempty a ha
      have := ho.nonempty e he
      omega
  rw [herase]
  exact perm_cons_erase he

section Node

variable {e : Extent} {h s : Nat} {l r : Tree}

section

variable (ho : Ordered (node e h s l r))
include ho

theorem Ordered.left : l.Ordered :=
  ⟨fun a ha => ho.nonempty a (mem_append_left _ ha), (pairwise_append.mp ho.sorted).1⟩

theorem Ordered.right : r.Ordered :=
  ⟨fun a ha => ho.nonempty a (mem_append_right _ (mem_cons_of_mem e ha)),
    (pairwise_cons.mp (pairwise_append.mp ho.sorted).2.1).2⟩

theorem Ordered.root : e.lo < e.hi :=
  ho.nonempty e (by simp [toList])

theorem Ordered.left_le : ∀ a ∈ l.toList, a.hi ≤ e.lo :=
  fun a ha => (pairwise_append.mp ho.sorted).2.2 a ha e mem_cons_self

theorem Ordered.le_right : ∀ a ∈ r.toList, e.hi ≤ a.lo :=
  (pairwise_cons.mp (pairwise_append.mp ho.sorted).2.1).1

end

end Node

/-- Insertion adds the extent. -/
theorem perm_insert (fresh : Extent) (t : Tree) : (insert fresh t).toList.Perm (fresh :: t.toList) := by
  induction t with
  | nil => exact List.Perm.refl _
  | node e h s l r ihl ihr =>
    unfold insert
    split
    · rw [toList_balance]
      exact ihl.append_right (e :: r.toList)
    · rw [toList_balance]
      have hswap := (ihr.cons e).trans (List.Perm.swap fresh e r.toList)
      exact (hswap.append_left l.toList).trans perm_middle

/-- Inserting an extent apart from all others keeps the order. -/
theorem Ordered.insert {fresh : Extent} (ho : t.Ordered) (hf : fresh.lo < fresh.hi)
    (hap : ∀ e ∈ t.toList, e.hi ≤ fresh.lo ∨ fresh.hi ≤ e.lo) : (insert fresh t).Ordered := by
  constructor
  · intro e he
    rcases mem_cons.mp ((perm_insert fresh t).mem_iff.mp he) with rfl | he
    · exact hf
    · exact ho.nonempty e he
  · induction t with
    | nil => exact pairwise_singleton _ _
    | node e h s l r ihl ihr =>
      have he := ho.root
      have hapl : ∀ a ∈ l.toList, a.hi ≤ fresh.lo ∨ fresh.hi ≤ a.lo :=
        fun a ha => hap a (mem_append_left _ ha)
      have hapr : ∀ a ∈ r.toList, a.hi ≤ fresh.lo ∨ fresh.hi ≤ a.lo :=
        fun a ha => hap a (mem_append_right _ (mem_cons_of_mem e ha))
      have hape := hap e (by simp [toList])
      unfold Tree.insert
      split
      · next hlt =>
        rw [toList_balance]
        refine pairwise_append.mpr ⟨ihl ho.left hapl, ?_, ?_⟩
        · exact (pairwise_append.mp ho.sorted).2.1
        intro a ha b hb
        have hbe : e.lo ≤ b.lo := by
          rcases mem_cons.mp hb with rfl | hb
          · exact le_rfl
          · have := ho.le_right b hb
            omega
        rcases mem_cons.mp ((perm_insert fresh l).mem_iff.mp ha) with rfl | ha
        · omega
        · have := ho.left_le a ha
          omega
      · next hge =>
        rw [toList_balance]
        refine pairwise_append.mpr ⟨ho.left.sorted, ?_, ?_⟩
        · refine pairwise_cons.mpr ⟨?_, ihr ho.right hapr⟩
          intro a ha
          rcases mem_cons.mp ((perm_insert fresh r).mem_iff.mp ha) with rfl | ha
          · omega
          · exact ho.le_right a ha
        · intro a ha b hb
          have hae := ho.left_le a ha
          rcases mem_cons.mp hb with rfl | hb
          · exact hae
          · rcases mem_cons.mp ((perm_insert fresh r).mem_iff.mp hb) with rfl | hb
            · omega
            · have := ho.le_right b hb
              omega

theorem first_eq (t : Tree) : t.first = t.toList.head? := by
  induction t with
  | nil => rfl
  | node e h s l r ihl ihr =>
    cases l with
    | nil => rfl
    | node le lh ls ll lr =>
      have hne : (node le lh ls ll lr).toList ≠ [] := by simp [toList]
      change (node le lh ls ll lr).first = _
      rw [ihl]
      change _ = ((node le lh ls ll lr).toList ++ e :: r.toList).head?
      rw [List.head?_append_of_ne_nil _ hne]

/-- Removal deletes the extent that starts at `lo`. -/
theorem toList_remove (ho : t.Ordered) (lo : Nat) :
    (remove lo t).1.toList = t.toList.filter fun e => decide (e.lo ≠ lo) := by
  induction t generalizing lo with
  | nil => rfl
  | node e h s l r ihl ihr =>
    have he := ho.root
    have hkeep : ∀ u : List Extent, (∀ a ∈ u, a.lo ≠ lo) →
        (u.filter fun a => decide (a.lo ≠ lo)) = u :=
      fun u hu => filter_eq_self.mpr fun a ha => decide_eq_true (hu a ha)
    have hl : ∀ a ∈ l.toList, a.lo < e.lo := by
      intro a ha
      have := ho.left_le a ha
      have := ho.left.nonempty a ha
      omega
    have hr : ∀ a ∈ r.toList, e.lo < a.lo := by
      intro a ha
      have := ho.le_right a ha
      omega
    unfold remove
    split
    · next hlt =>
      rw [toList_balance]
      simp only [toList, filter_append, ihl ho.left, filter_cons]
      rw [if_pos (by simp; omega), hkeep r.toList fun a ha => by have := hr a ha; omega]
    next hge =>
    split
    · next hgt =>
      rw [toList_balance]
      simp only [toList, filter_append, ihr ho.right, filter_cons]
      rw [if_pos (by simp; omega), hkeep l.toList fun a ha => by have := hl a ha; omega]
    next hle =>
    have heq : e.lo = lo := by omega
    have hall : (node e h s l r).toList.filter (fun a => decide (a.lo ≠ lo)) =
        l.toList ++ r.toList := by
      simp only [toList, filter_append, filter_cons]
      rw [if_neg (by simp [heq]), hkeep l.toList fun a ha => by have := hl a ha; omega,
        hkeep r.toList fun a ha => by have := hr a ha; omega]
    rw [hall]
    cases l with
    | nil => rfl
    | node le lh ls ll lr =>
      dsimp only
      rw [first_eq]
      cases hr' : r.toList with
      | nil => exact (append_nil _).symm
      | cons next rest =>
        -- the successor moves to the root, the rest of the right subtree stays
        simp only [List.head?_cons]
        rw [toList_balance]
        change (node le lh ls ll lr).toList ++ next :: (remove next.lo r).1.toList = _
        rw [ihr ho.right, hr', filter_cons, if_neg (by simp)]
        congr 2
        apply filter_eq_self.mpr
        intro a ha
        have hsort := ho.right.sorted
        rw [hr'] at hsort
        have h1 := (pairwise_cons.mp hsort).1 a ha
        have h2 := ho.right.nonempty next (by simp [hr'])
        simp
        omega

theorem Ordered.remove (ho : t.Ordered) (lo : Nat) : (remove lo t).1.Ordered := by
  constructor
  · intro e he
    rw [toList_remove ho] at he
    exact ho.nonempty e (mem_of_mem_filter he)
  · rw [toList_remove ho]
    exact ho.sorted.filter _

variable {lo hi : Nat}

/-- What the search finds meets the range. -/
theorem mem_of_overlap (h : overlap lo hi t = some e) : e ∈ t.toList ∧ lo < e.hi ∧ e.lo < hi := by
  induction t with
  | nil => cases h
  | node a ht s l r ihl ihr =>
    unfold overlap at h
    split at h
    · exact ⟨mem_append_right _ (mem_cons_of_mem a (ihr h).1), (ihr h).2⟩
    · split at h
      · exact ⟨mem_append_left _ (ihl h).1, (ihl h).2⟩
      · cases h
        exact ⟨by simp [toList], by omega, by omega⟩

/-- A search that finds nothing leaves nothing that meets the range. -/
theorem apart_of_overlap (ho : t.Ordered) (h : overlap lo hi t = none) :
    ∀ e ∈ t.toList, e.hi ≤ lo ∨ hi ≤ e.lo := by
  induction t with
  | nil => simp [toList]
  | node a ht s l r ihl ihr =>
    have ha := ho.root
    intro e he
    unfold overlap at h
    rcases mem_append.mp he with he | he
    · have hle := ho.left_le e he
      split at h
      · left
        omega
      · split at h
        · exact ihl ho.left h e he
        · cases h
    · split at h
      · rcases mem_cons.mp he with rfl | he
        · exact .inl (by assumption)
        · exact ihr ho.right h e he
      split at h
      · rcases mem_cons.mp he with rfl | he
        · exact .inr (by assumption)
        · have := ho.le_right e he
          right
          omega
      · cases h

/-- Every node stores the largest end of a data extent below it. -/
def EndOk : Tree → Prop
  | nil => True
  | node e _ s l r =>
    s = (if e.data.isSome then max (max l.extentEnd r.extentEnd) e.hi
      else max l.extentEnd r.extentEnd) ∧ l.EndOk ∧ r.EndOk

variable {h s : Nat} {l r : Tree}

theorem EndOk.fix (hl : l.EndOk) (hr : r.EndOk) : (fix (node e h s l r)).EndOk :=
  ⟨rfl, hl, hr⟩

theorem EndOk.rotateLeft (h : t.EndOk) : t.rotateLeft.EndOk := by
  unfold Tree.rotateLeft
  split
  · exact EndOk.fix (EndOk.fix h.2.1 h.2.2.2.1) h.2.2.2.2
  · exact h

theorem EndOk.rotateRight (h : t.EndOk) : t.rotateRight.EndOk := by
  unfold Tree.rotateRight
  split
  · exact EndOk.fix h.2.1.2.1 (EndOk.fix h.2.1.2.2 h.2.2)
  · exact h

theorem EndOk.balance (hl : l.EndOk) (hr : r.EndOk) : (balance (node e h s l r)).EndOk := by
  simp only [Tree.balance]
  split
  · apply EndOk.rotateRight
    split
    · exact EndOk.fix hl.rotateLeft hr
    · exact EndOk.fix hl hr
  split
  · apply EndOk.rotateLeft
    split
    · exact EndOk.fix hl hr.rotateRight
    · exact EndOk.fix hl hr
  · exact EndOk.fix hl hr

theorem EndOk.insert (h : t.EndOk) (fresh : Extent) : (insert fresh t).EndOk := by
  induction t with
  | nil =>
    refine ⟨?_, trivial, trivial⟩
    simp [extentEnd]
  | node e ht s l r ihl ihr =>
    unfold Tree.insert
    split
    · exact EndOk.balance (ihl h.2.1) h.2.2
    · exact EndOk.balance h.2.1 (ihr h.2.2)

theorem EndOk.remove (h : t.EndOk) (lo : Nat) : (remove lo t).1.EndOk := by
  induction t generalizing lo with
  | nil => trivial
  | node e ht s l r ihl ihr =>
    unfold Tree.remove
    split
    · exact EndOk.balance (ihl h.2.1 lo) h.2.2
    split
    · exact EndOk.balance h.2.1 (ihr h.2.2 lo)
    cases l with
    | nil => exact h.2.2
    | node le lh ls ll lr =>
      dsimp only
      split
      · exact h.2.1
      · exact EndOk.balance h.2.1 (ihr h.2.2 _)

/-- The stored end bounds the data extents, and one of them reaches it unless it is zero. -/
theorem EndOk.le_iff (h : t.EndOk) (n : Nat) :
    t.extentEnd ≤ n ↔ ∀ e ∈ t.toList, e.data.isSome = true → e.hi ≤ n := by
  induction t with
  | nil => simp [extentEnd, toList]
  | node e ht s l r ihl ihr =>
    obtain ⟨hs, hl, hr⟩ := h
    have hl := ihl hl
    have hr := ihr hr
    simp only [toList, mem_append, mem_cons, or_imp, forall_and, forall_eq]
    rw [← hl, ← hr]
    change s ≤ n ↔ _
    rw [hs]
    split
    · next hd =>
      simp only [hd, true_implies]
      omega
    · next hd =>
      rw [Bool.not_eq_true] at hd
      simp only [hd, Bool.false_eq_true, false_implies, true_and]
      omega

end Tree
end PortableFS.Writeback
