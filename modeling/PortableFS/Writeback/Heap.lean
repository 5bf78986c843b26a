import PortableFS.Base.SlotHeap
import PortableFS.Writeback.Types

/-!
# Notification heaps

Module `writeback`, `vcs/internal/writeback/heap.go`. A binary heap of records in the order of their
applied sequences; every record knows its position, so that a drop can take it from the middle.
-/

namespace PortableFS.Writeback

open Base
open List hiding swap_comm swap_perm swap_self
open SlotHeap hiding up down swap child push

/-- A record in a heap: its file, its name and the key of the heap. -/
structure HeapItem where
  file : Identity
  seq : Nat
  applied : Nat
deriving DecidableEq, Repr

/-- A heap together with the `heapIndex` fields of the records. -/
structure Heap where
  items : List HeapItem
  index : Nat → Nat

namespace Heap

/-- `heap.go:7–11`. -/
def swap (h : Heap) (i j : Nat) : Heap :=
  match h.items[i]?, h.items[j]? with
  | some a, some b =>
    { items := (h.items.set i b).set j a
      index := Function.update (Function.update h.index b.seq i) a.seq j }
  | _, _ => h

/-- Move an item towards the root, returning its position; `heap.go:12–22`. Every round at least
halves the position, so as many rounds as the position are enough. -/
def up : Nat → Heap → Nat → Heap × Nat
  | 0, h, i => (h, i)
  | n + 1, h, i =>
    if i = 0 then (h, i) else
    match h.items[(i - 1) / 2]?, h.items[i]? with
    | some p, some a =>
      if p.applied ≤ a.applied then (h, i) else up n (h.swap i ((i - 1) / 2)) ((i - 1) / 2)
    | _, _ => (h, i)

/-- The child with the smaller key; `heap.go:25–31`. -/
def child (h : Heap) (i : Nat) : Nat :=
  match h.items[2 * i + 1]?, h.items[2 * i + 2]? with
  | some a, some b => if b.applied < a.applied then 2 * i + 2 else 2 * i + 1
  | _, _ => 2 * i + 1

/-- Move an item towards the leaves; `heap.go:23–38`. Every round goes one level down. -/
def down : Nat → Heap → Nat → Heap
  | 0, h, _ => h
  | n + 1, h, i =>
    match h.items[i]?, h.items[h.child i]? with
    | some a, some c =>
      if a.applied ≤ c.applied then h else down n (h.swap i (h.child i)) (h.child i)
    | _, _ => h

/-- `heap.go:39`. -/
def push (h : Heap) (r : HeapItem) : Heap :=
  let last := h.items.length
  (up last ⟨h.items ++ [r], Function.update h.index r.seq last⟩ last).1

/-- Remove the item at a position; `heap.go:40–51`. -/
def remove (h : Heap) (i : Nat) : Heap × Option HeapItem :=
  let last := h.items.length - 1
  let swapped := h.swap i last
  let shorter : Heap := { swapped with items := swapped.items.dropLast }
  if i < last then
    let moved := shorter.up i i
    (moved.1.down last moved.2, h.items[i]?)
  else (shorter, h.items[i]?)

variable (h : Heap) (i : Nat)

private theorem items_swap (j : Nat) : (h.swap i j).items = SlotHeap.swap h.items i j := by
  unfold swap SlotHeap.swap
  cases h.items[i]? <;> cases h.items[j]? <;> rfl

theorem items_up (n : Nat) : (up n h i).1.items = SlotHeap.up HeapItem.applied n h.items i ∧
      (¬ slot HeapItem.applied h.items i <
        slot HeapItem.applied h.items ((i - 1) / 2) → (up n h i).2 = i) := by
  induction n generalizing h i with
  | zero => exact ⟨rfl, fun _ => rfl⟩
  | succ n ih =>
    unfold up SlotHeap.up
    by_cases hi : i = 0
    · subst hi
      rw [if_pos rfl, if_neg (lt_irrefl _)]
      exact ⟨rfl, fun _ => rfl⟩
    rw [if_neg hi]
    rcases Nat.lt_or_ge i h.items.length with hlt | hge
    · have hp : (i - 1) / 2 < h.items.length := by omega
      rw [getElem?_eq_getElem hlt, getElem?_eq_getElem hp, slot_of_lt hlt,
        slot_of_lt hp]
      dsimp only
      split
      · next hle =>
        rw [if_neg (not_lt.mpr (WithTop.coe_le_coe.mpr hle))]
        exact ⟨rfl, fun _ => rfl⟩
      · next hle =>
        have hlow := WithTop.coe_lt_coe.mpr (not_le.mp hle)
        rw [if_pos hlow, (ih ..).1, items_swap, swap_comm]
        exact ⟨rfl, fun hge => absurd hlow hge⟩
    · rw [slot_of_ge hge, if_neg not_top_lt, getElem?_eq_none hge]
      cases h.items[(i - 1) / 2]? <;> exact ⟨rfl, fun _ => rfl⟩

private theorem child_eq : h.child i = SlotHeap.child HeapItem.applied h.items i := by
  unfold child SlotHeap.child slot
  cases ha : h.items[2 * i + 1]? with
  | none =>
    rw [getElem?_eq_none ((getElem?_eq_none_iff.mp ha).trans (Nat.le_succ _))]
    exact (if_neg (lt_irrefl _)).symm
  | some a =>
    cases h.items[2 * i + 2]? with
    | none => exact (if_neg not_top_lt).symm
    | some b => simp

theorem items_down (n : Nat) : (down n h i).items = SlotHeap.down HeapItem.applied n h.items i := by
  induction n generalizing h i with
  | zero => rfl
  | succ n ih =>
    have hi := child_gt HeapItem.applied h.items i
    unfold down SlotHeap.down
    rw [child_eq]
    rcases Nat.lt_or_ge (SlotHeap.child HeapItem.applied h.items i) h.items.length with hlt | hge
    · rw [getElem?_eq_getElem hlt, getElem?_eq_getElem (hi.trans hlt), slot_of_lt hlt,
        slot_of_lt (hi.trans hlt)]
      dsimp only
      split
      · next hle => rw [if_neg (not_lt.mpr (WithTop.coe_le_coe.mpr hle))]
      · next hle => rw [if_pos (WithTop.coe_lt_coe.mpr (not_le.mp hle)), ih, items_swap]
    · rw [slot_of_ge hge, if_neg not_top_lt, getElem?_eq_none hge]
      cases h.items[i]? <;> rfl

/-- Pushing adds the item. -/
theorem push_perm (r : HeapItem) : (h.push r).items.Perm (r :: h.items) := by
  unfold push
  rw [(items_up ..).1]
  exact (up_perm ..).trans (perm_append_singleton r h.items)

variable {h i} {r : HeapItem}

/-- Removing takes the item at the position. -/
theorem remove_perm (hr : h.items[i]? = some r) : h.items.Perm (r :: (h.remove i).1.items) := by
  obtain ⟨hi, rfl⟩ := List.getElem?_eq_some_iff.mp hr
  refine (dropLast_swap_perm hi).symm.trans (List.Perm.cons _ ?_)
  unfold remove
  dsimp only
  split
  · rw [items_down, (items_up ..).1, items_swap]
    exact ((down_perm ..).trans (up_perm ..)).symm
  · rw [items_swap]

/-- What remains after a removal was there before. -/
theorem mem_of_mem_remove (hr : r ∈ (h.remove i).1.items) : r ∈ h.items := by
  cases hi : h.items[i]? with
  | some a => exact (remove_perm hi).mem_iff.mpr (mem_cons_of_mem a hr)
  | none =>
    have hge := getElem?_eq_none_iff.mp hi
    unfold remove at hr
    dsimp only at hr
    rw [if_neg (by omega), items_swap] at hr
    exact (swap_perm ..).mem_iff.mp ((dropLast_sublist _).mem hr)

section

variable (hh : IsHeap HeapItem.applied h.items)
include hh

theorem isHeap_push (r : HeapItem) : IsHeap HeapItem.applied (h.push r).items := by
  unfold push
  rw [(items_up ..).1]
  exact hh.up_append _ r le_rfl

theorem isHeap_remove (hi : i < h.items.length) :
    IsHeap HeapItem.applied (h.remove i).1.items := by
  unfold remove
  dsimp only
  split
  · next hlt =>
    rw [items_down, (items_up ..).1]
    refine AlmostHeap.isHeap_up_down _ ?_ ?_ (items_up ..).2
    · rw [items_swap]
      exact hh.almostHeap_swap hlt
    · rw [items_swap, length_dropLast, (swap_perm ..).length_eq]
      omega
  · rw [items_swap, show i = h.items.length - 1 by omega, swap_self]
    exact hh.dropLast

end

/-- Every record knows its position. -/
def Indexed (h : Heap) : Prop := ∀ k r, h.items[k]? = some r → h.index r.seq = k

section

variable (hx : h.Indexed)
include hx

private theorem Indexed.swap (i j : Nat) : (h.swap i j).Indexed := by
  unfold Heap.swap
  split
  · next a b ha hb =>
    have hi := hx i a ha
    have hj := hx j b hb
    intro k r hr
    simp only [getElem?_set, length_set] at hr
    simp only [Function.update_apply]
    split at hr
    · next hk =>
      split at hr
      · cases hr
        rw [if_pos rfl, hk]
      · cases hr
    next hjk =>
    split at hr
    · next hk =>
      split at hr
      · cases hr
        rw [if_neg fun heq => hjk (by rw [← hj, heq, hi, hk]), if_pos rfl, hk]
      · cases hr
    · next hik =>
      have hr' := hx k r hr
      rw [if_neg fun heq => hik (by rw [← hi, ← heq, hr']),
        if_neg fun heq => hjk (by rw [← hj, ← heq, hr']), hr']
  · exact hx

private theorem Indexed.up (n i : Nat) : (up n h i).1.Indexed := by
  induction n generalizing h i with
  | zero => exact hx
  | succ n ih =>
    unfold Heap.up
    split
    · exact hx
    split
    · split
      · exact hx
      · exact ih (hx.swap _ _) _
    · exact hx

private theorem Indexed.down (n i : Nat) : (down n h i).Indexed := by
  induction n generalizing h i with
  | zero => exact hx
  | succ n ih =>
    unfold Heap.down
    split
    · split
      · exact hx
      · exact ih (hx.swap _ _) _
    · exact hx

theorem Indexed.push (hr : ∀ a ∈ h.items, a.seq ≠ r.seq) : (h.push r).Indexed := by
  refine Indexed.up (fun k a ha => ?_) _ _
  change Function.update h.index r.seq h.items.length a.seq = k
  rcases Nat.lt_or_ge k h.items.length with hlt | hge
  · rw [getElem?_append_left hlt] at ha
    rw [Function.update_of_ne (hr a (mem_of_getElem? ha)), hx k a ha]
  rw [getElem?_append_right hge, getElem?_singleton] at ha
  split at ha
  · cases ha
    rw [Function.update_self]
    omega
  · cases ha

theorem Indexed.remove (i : Nat) : (h.remove i).1.Indexed := by
  have hshort : Indexed { h.swap i (h.items.length - 1) with
      items := (h.swap i (h.items.length - 1)).items.dropLast } := by
    intro k r hr
    dsimp only at hr
    rw [getElem?_dropLast] at hr
    split at hr
    · exact hx.swap i _ k r hr
    · cases hr
  unfold Heap.remove
  dsimp only
  split
  · exact (hshort.up _ _).down _ _
  · exact hshort

end

/-- A heap after records that it does not hold were pushed and records at any position removed, with
its members. -/
inductive Built : Heap → List HeapItem → Prop
  | empty (index : Nat → Nat) : Built ⟨[], index⟩ []
  | push {h : Heap} {members : List HeapItem} {r : HeapItem} (hb : Built h members)
      (hr : ∀ a ∈ members, a.seq ≠ r.seq) : Built (h.push r) (r :: members)
  | remove {h : Heap} {members : List HeapItem} {i : Nat} {r : HeapItem} (hb : Built h members)
      (hr : h.items[i]? = some r) : Built (h.remove i).1 (members.erase r)

theorem Built.ok {members : List HeapItem} (hb : Built h members) :
    h.items.Perm members ∧ IsHeap HeapItem.applied h.items ∧ h.Indexed := by
  induction hb with
  | empty index => exact ⟨.nil, fun _ _ => le_rfl, nofun⟩
  | push _ hr ih =>
    obtain ⟨hperm, hheap, hx⟩ := ih
    exact ⟨(push_perm ..).trans (hperm.cons _), isHeap_push hheap _,
      hx.push fun a ha => hr a (hperm.mem_iff.mp ha)⟩
  | @remove _ _ _ r _ hr ih =>
    obtain ⟨hperm, hheap, hx⟩ := ih
    refine ⟨?_, isHeap_remove hheap (List.getElem?_eq_some_iff.mp hr).1, hx.remove _⟩
    have herase := ((remove_perm hr).symm.trans hperm).erase r
    rwa [erase_cons_head] at herase

end Heap
end PortableFS.Writeback
