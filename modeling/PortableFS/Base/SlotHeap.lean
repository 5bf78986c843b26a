import Mathlib

/-!
# Binary heaps in a list

Library `Base`. The heap of Go's `container/heap` over a slice: the parent of slot `k` is slot
`(k - 1) / 2`, an item that was put into a slot moves down or up until the order is restored. The
items know their slots, so an operation at an item is an operation at its index. A slot past the
end counts as above every key.
-/

namespace PortableFS.Base.SlotHeap

open List

variable {α β : Type*} [LinearOrder β] {key key' : α → β} {l : List α} {a : α} {i j k : ℕ}

/-- The key in a slot. -/
def slot (key : α → β) (l : List α) (k : ℕ) : WithTop β :=
  (l[k]?.map fun a => (key a : WithTop β)).getD ⊤

/-- Exchange two slots. -/
def swap (l : List α) (i j : ℕ) : List α :=
  match l[i]?, l[j]? with
  | some a, some b => (l.set i b).set j a
  | _, _ => l

/-- Move an item towards the root. Every round lowers the slot. -/
def up (key : α → β) : ℕ → List α → ℕ → List α
  | 0, l, _ => l
  | n + 1, l, j =>
    if slot key l j < slot key l ((j - 1) / 2) then up key n (swap l ((j - 1) / 2) j) ((j - 1) / 2)
    else l

/-- The smaller child of a slot. -/
def child (key : α → β) (l : List α) (i : ℕ) : ℕ :=
  if slot key l (2 * i + 2) < slot key l (2 * i + 1) then 2 * i + 2 else 2 * i + 1

/-- Move an item towards the leaves. Every round raises the slot. -/
def down (key : α → β) : ℕ → List α → ℕ → List α
  | 0, l, _ => l
  | n + 1, l, i =>
    if slot key l (child key l i) < slot key l i then
      down key n (swap l i (child key l i)) (child key l i)
    else l

/-- `heap.Fix` at a slot: the item moves down, and up if it did not. -/
def fixAt (key : α → β) (l : List α) (i : ℕ) : List α :=
  if slot key l (child key l i) < slot key l i then down key l.length l i
  else up key l.length l i

/-- `heap.Push`. -/
def push (key : α → β) (l : List α) (a : α) : List α :=
  up key (l ++ [a]).length (l ++ [a]) l.length

/-- `heap.Remove` at a slot: the last item takes the slot. -/
def removeAt (key : α → β) (l : List α) (i : ℕ) : List α :=
  if i = l.length - 1 then l.dropLast
  else fixAt key (swap l i (l.length - 1)).dropLast i

/-- Heap order. -/
def IsHeap (key : α → β) (l : List α) : Prop :=
  ∀ k, 0 < k → slot key l ((k - 1) / 2) ≤ slot key l k

/-- Heap order but around one slot, whose parent is below its children. -/
structure AlmostHeap (key : α → β) (l : List α) (i : ℕ) : Prop where
  order : ∀ k, 0 < k → k ≠ i → (k - 1) / 2 ≠ i → slot key l ((k - 1) / 2) ≤ slot key l k
  across : ∀ k, 0 < k → (k - 1) / 2 = i → 0 < i → slot key l ((i - 1) / 2) ≤ slot key l k

omit [LinearOrder β] in
theorem slot_of_lt (h : k < l.length) : slot key l k = (key l[k] : WithTop β) := by
  unfold slot
  rw [getElem?_eq_getElem h]
  rfl

omit [LinearOrder β] in
theorem slot_of_ge (h : l.length ≤ k) : slot key l k = ⊤ := by
  unfold slot
  rw [getElem?_eq_none h]
  rfl

theorem lt_of_slot_lt {x : WithTop β} (h : slot key l k < x) : k < l.length := by
  by_contra hk
  rw [slot_of_ge (Nat.le_of_not_lt hk)] at h
  exact not_top_lt h

theorem swap_perm (l : List α) (i j : ℕ) : (swap l i j).Perm l := by
  unfold swap
  split
  · next a b ha hb =>
    obtain ⟨hi, rfl⟩ := List.getElem?_eq_some_iff.mp ha
    obtain ⟨hj, rfl⟩ := List.getElem?_eq_some_iff.mp hb
    exact List.set_set_perm hi hj
  · exact List.Perm.refl _

theorem swap_self (l : List α) (i : ℕ) : swap l i i = l := by
  unfold swap
  cases h : l[i]? with
  | none => rfl
  | some a =>
    obtain ⟨hi, rfl⟩ := List.getElem?_eq_some_iff.mp h
    exact (List.set_set ..).trans (List.set_getElem_self hi)

theorem swap_comm (l : List α) (i j : ℕ) : swap l i j = swap l j i := by
  by_cases hij : i = j
  · rw [hij]
  unfold swap
  cases l[i]? <;> cases l[j]? <;> first | rfl | exact List.set_comm _ _ hij

theorem getElem?_swap (hi : i < l.length) (hj : j < l.length) (k : ℕ) :
    (swap l i j)[k]? = if k = i then l[j]? else if k = j then l[i]? else l[k]? := by
  unfold swap
  rw [getElem?_eq_getElem hi, getElem?_eq_getElem hj]
  simp only [getElem?_set, length_set]
  split
  · next h =>
    subst h
    split
    · next hk => subst hk; simp
    · simp
  · next h =>
    split
    · next hk => subst hk; simp
    · next hk => rw [if_neg (Ne.symm h), if_neg (Ne.symm hk)]

omit [LinearOrder β] in
theorem slot_swap (key : α → β) (hi : i < l.length) (hj : j < l.length) (k : ℕ) :
    slot key (swap l i j) k =
      if k = i then slot key l j else if k = j then slot key l i else slot key l k := by
  unfold slot
  rw [getElem?_swap hi hj]
  split
  · rfl
  · split <;> rfl

variable (n : ℕ)

theorem up_perm (l : List α) (j : ℕ) : (up key n l j).Perm l := by
  induction n generalizing l j with
  | zero => exact List.Perm.refl _
  | succ n ih =>
    unfold up
    split
    · exact (ih _ _).trans (swap_perm _ _ _)
    · exact List.Perm.refl _

theorem down_perm (l : List α) (i : ℕ) : (down key n l i).Perm l := by
  induction n generalizing l i with
  | zero => exact List.Perm.refl _
  | succ n ih =>
    unfold down
    split
    · exact (ih _ _).trans (swap_perm _ _ _)
    · exact List.Perm.refl _

theorem fixAt_perm (l : List α) (i : ℕ) : (fixAt key l i).Perm l := by
  unfold fixAt
  split
  · exact down_perm _ _ _
  · exact up_perm _ _ _

theorem push_perm (l : List α) (a : α) : (push key l a).Perm (a :: l) :=
  (up_perm _ _ _).trans (perm_append_singleton a l)

/-- The last item takes the slot of the one that leaves. -/
theorem dropLast_swap_perm (hi : i < l.length) :
    (l[i] :: (swap l i (l.length - 1)).dropLast).Perm l := by
  have hlen := (swap_perm l i (l.length - 1)).length_eq
  have hne : swap l i (l.length - 1) ≠ [] := by
    intro hnil
    rw [hnil, length_nil] at hlen
    omega
  have hget : (swap l i (l.length - 1)).getLast hne = l[i] := by
    apply Option.some.inj
    rw [← getLast?_eq_some_getLast, getLast?_eq_getElem?, hlen, getElem?_swap hi (by omega),
      ← getElem?_eq_getElem hi]
    split
    · next heq => rw [heq]
    · rw [if_pos rfl]
  have hsplit := dropLast_concat_getLast hne
  rw [hget] at hsplit
  exact (perm_append_singleton l[i] _).symm.trans ((List.Perm.of_eq hsplit).trans (swap_perm _ _ _))

theorem removeAt_perm [DecidableEq α] (h : a ∈ l) :
    (removeAt key l (l.idxOf a)).Perm (l.erase a) := by
  have hperm := dropLast_swap_perm (idxOf_lt_length_iff.mpr h)
  rw [getElem_idxOf] at hperm
  apply List.Perm.cons_inv (a := a)
  refine List.Perm.trans ?_ (hperm.trans (perm_cons_erase h))
  unfold removeAt
  split
  · next heq => rw [← heq, swap_self]
  · exact (fixAt_perm _ _).cons a

theorem child_gt (key : α → β) (l : List α) (i : ℕ) : i < child key l i := by
  unfold child
  split <;> omega

theorem parent_child (key : α → β) (l : List α) (i : ℕ) : (child key l i - 1) / 2 = i := by
  unfold child
  split <;> omega

theorem slot_child_le (hk : 0 < k) (hp : (k - 1) / 2 = i) :
    slot key l (child key l i) ≤ slot key l k := by
  have hcases : k = 2 * i + 1 ∨ k = 2 * i + 2 := by omega
  unfold child
  rcases hcases with rfl | rfl
  · split
    · next h => exact h.le
    · exact le_rfl
  · split
    · exact le_rfl
    · next h => exact not_lt.mp h

private theorem AlmostHeap.swap_child (h : AlmostHeap key l i)
    (hlt : slot key l (child key l i) < slot key l i) :
    AlmostHeap key (swap l i (child key l i)) (child key l i) ∧
      slot key (swap l i (child key l i)) i ≤
        slot key (swap l i (child key l i)) (child key l i) := by
  have hc := child_gt key l i
  have hpc := parent_child key l i
  have hcl : child key l i < l.length := lt_of_slot_lt hlt
  have hs := fun k => slot_swap key (show i < l.length by omega) hcl k
  refine ⟨⟨fun k hk hne hpar => ?_, fun k hk hpar hi => ?_⟩, ?_⟩
  · rw [hs, hs, if_neg hpar, if_neg hne]
    by_cases hki : k = i
    · subst hki
      rw [if_neg (by omega), if_pos rfl]
      exact h.across _ (by omega) hpc hk
    · rw [if_neg hki]
      split
      · next hp => exact slot_child_le hk hp
      · next hp => exact h.order k hk hki hp
  · rw [hs, hs, hpc, if_pos rfl, if_neg (by omega), if_neg (by omega)]
    have := h.order k hk (by omega) (by omega)
    rwa [hpar] at this
  · rw [hs, hs, if_pos rfl, if_neg (by omega), if_pos rfl]
    exact hlt.le

theorem isHeap_down (h : AlmostHeap key l i) (hn : l.length ≤ i + n)
    (hparent : 0 < i → slot key l ((i - 1) / 2) ≤ slot key l i) : IsHeap key (down key n l i) := by
  induction n generalizing l i with
  | zero =>
    intro k hk
    unfold down
    by_cases hki : k = i
    · exact hki ▸ hparent (hki ▸ hk)
    · by_cases hp : (k - 1) / 2 = i
      · rw [slot_of_ge (by omega)]
        exact le_of_le_of_eq le_top (slot_of_ge (by omega)).symm
      · exact h.order k hk hki hp
  | succ n ih =>
    unfold down
    split
    · next hlt =>
      obtain ⟨halmost, hle⟩ := h.swap_child hlt
      have hc := child_gt key l i
      apply ih halmost
      · rw [(swap_perm _ _ _).length_eq]
        omega
      · intro _
        rwa [parent_child key l i]
    · next hge =>
      intro k hk
      by_cases hki : k = i
      · exact hki ▸ hparent (hki ▸ hk)
      · by_cases hp : (k - 1) / 2 = i
        · rw [hp]
          exact (not_lt.mp hge).trans (slot_child_le hk hp)
        · exact h.order k hk hki hp

theorem isHeap_up (h : AlmostHeap key l j) (hn : j ≤ n)
    (hbelow : ∀ k, 0 < k → (k - 1) / 2 = j → slot key l j ≤ slot key l k) :
    IsHeap key (up key n l j) := by
  induction n generalizing l j with
  | zero =>
    intro k hk
    unfold up
    by_cases hp : (k - 1) / 2 = j
    · rw [hp]
      exact hbelow k hk hp
    · exact h.order k hk (by omega) hp
  | succ n ih =>
    unfold up
    split
    · next hlt =>
      have hjl : j < l.length := lt_of_slot_lt hlt
      have hj : 0 < j := by
        by_contra hj
        obtain rfl : j = 0 := by omega
        exact lt_irrefl _ hlt
      have hpl : (j - 1) / 2 < l.length := by omega
      have hs := fun k => slot_swap key hpl hjl k
      apply ih
      · refine ⟨fun k hk hne hpar => ?_, fun k hk hpar hp => ?_⟩
        · rw [hs, hs, if_neg hpar, if_neg hne]
          have hkj : k ≠ j := fun hkj => hpar (hkj ▸ rfl)
          rw [if_neg hkj]
          split
          · next hpj => exact h.across k hk hpj hj
          · next hpj => exact h.order k hk hkj hpj
        · have hpp := h.order ((j - 1) / 2) hp (by omega) (by omega)
          rw [hs, hs, if_neg (by omega), if_neg (by omega), if_neg (by omega)]
          split
          · exact hpp
          · next hkj =>
            have := h.order k hk hkj (by omega)
            rw [hpar] at this
            exact hpp.trans this
      · omega
      intro k hk hpar
      rw [hs, hs, if_pos rfl, if_neg (by omega)]
      split
      · exact hlt.le
      · next hkj =>
        have := h.order k hk hkj (by omega)
        rw [hpar] at this
        exact hlt.le.trans this
    · next hge =>
      intro k hk
      by_cases hkj : k = j
      · exact hkj ▸ not_lt.mp hge
      · by_cases hp : (k - 1) / 2 = j
        · rw [hp]
          exact hbelow k hk hp
        · exact h.order k hk hkj hp

theorem AlmostHeap.isHeap_fixAt (h : AlmostHeap key l i) (hi : i < l.length) :
    IsHeap key (fixAt key l i) := by
  unfold fixAt
  split
  · next hlt =>
    have hc := child_gt key l i
    apply isHeap_down _ h (by omega)
    intro hpos
    exact (h.across _ (by omega) (parent_child key l i) hpos).trans hlt.le
  · next hge =>
    apply isHeap_up _ h (by omega)
    intro k hk hp
    exact (not_lt.mp hge).trans (slot_child_le hk hp)

section

variable (h : IsHeap key l)
include h

/-- A new item moves up from the end. -/
theorem IsHeap.up_append (a : α) (hn : l.length ≤ n) : IsHeap key (up key n (l ++ [a]) l.length) := by
  have hold : ∀ k, k < l.length → slot key (l ++ [a]) k = slot key l k := by
    intro k hk
    unfold slot
    rw [getElem?_append_left hk]
  have hpast : ∀ k, l.length < k → slot key (l ++ [a]) k = ⊤ := by
    intro k hk
    apply slot_of_ge
    simpa using hk
  apply isHeap_up _ _ hn
  · intro k hk hpar
    rw [hpast k (by omega)]
    exact le_top
  refine ⟨fun k hk hne hpar => ?_, fun k hk hpar hi => ?_⟩
  · by_cases hkl : k < l.length
    · rw [hold _ (by omega), hold _ hkl]
      exact h k hk
    · rw [hpast k (by omega)]
      exact le_top
  · rw [hpast k (by omega)]
    exact le_top

theorem IsHeap.push (a : α) : IsHeap key (push key l a) :=
  h.up_append _ a (by simp)

theorem IsHeap.dropLast : IsHeap key l.dropLast := by
  intro k hk
  by_cases hkl : k < l.length - 1
  · have heq : ∀ j, j ≤ k → slot key l.dropLast j = slot key l j := by
      intro j hj
      unfold slot
      rw [getElem?_dropLast, if_pos (by omega)]
    rw [heq _ (by omega), heq k le_rfl]
    exact h k hk
  · rw [slot_of_ge (k := k) (by simpa using hkl)]
    exact le_top

/-- The last item in the slot of the one that leaves is out of place there at most. -/
theorem IsHeap.almostHeap_swap (hi : i < l.length - 1) :
    AlmostHeap key (swap l i (l.length - 1)).dropLast i := by
  have hlen : (swap l i (l.length - 1)).length = l.length := (swap_perm _ _ _).length_eq
  have hslot : ∀ k, k ≠ i → slot key (swap l i (l.length - 1)).dropLast k = slot key l.dropLast k := by
    intro k hk
    unfold slot
    rw [getElem?_dropLast, getElem?_dropLast, hlen]
    split
    · rw [getElem?_swap (by omega) (by omega), if_neg hk, if_neg (by omega)]
    · rfl
  refine ⟨fun k hk hki hpar => ?_, fun k hk hpar hpos => ?_⟩
  · rw [hslot k hki, hslot _ hpar]
    exact h.dropLast k hk
  · rw [hslot k (by omega), hslot _ (by omega)]
    have hnext := h.dropLast k hk
    rw [hpar] at hnext
    exact (h.dropLast i hpos).trans hnext

/-- An item leaves and the last one finds its place. -/
theorem IsHeap.removeAt (hi : i < l.length) : IsHeap key (removeAt key l i) := by
  unfold SlotHeap.removeAt
  split
  · exact h.dropLast
  · apply (h.almostHeap_swap (by omega)).isHeap_fixAt
    rw [length_dropLast, (swap_perm _ _ _).length_eq]
    omega

/-- Nothing moves down in a heap. -/
theorem IsHeap.down_eq (i : ℕ) : down key n l i = l := by
  cases n with
  | zero => rfl
  | succ n =>
    have hle := h (child key l i) (Nat.zero_lt_of_lt (child_gt key l i))
    rw [parent_child] at hle
    exact if_neg (not_lt.mpr hle)

end

/-- An item out of place moves up or down: once it moved up, nothing is below it. -/
theorem AlmostHeap.isHeap_up_down (h : AlmostHeap key l i) (hn : l.length ≤ i + n)
    (hj : ¬ slot key l i < slot key l ((i - 1) / 2) → j = i) :
    IsHeap key (down key n (up key i l i) j) := by
  by_cases hlt : slot key l i < slot key l ((i - 1) / 2)
  · have hpos : 0 < i := Nat.pos_of_ne_zero (by rintro rfl; exact lt_irrefl _ hlt)
    have hheap := isHeap_up i h le_rfl fun k hk hp => hlt.le.trans (h.across k hk hp hpos)
    rw [hheap.down_eq]
    exact hheap
  have hsame : up key i l i = l := by
    cases i with
    | zero => rfl
    | succ i => exact if_neg hlt
  rw [hsame, hj hlt]
  exact isHeap_down n h hn fun _ => not_lt.mp hlt

section

variable (h : IsHeap key l)
include h

private theorem IsHeap.root_le (k : ℕ) : slot key l 0 ≤ slot key l k := by
  induction k using Nat.strong_induction_on with
  | _ k ih =>
    by_cases hk : k = 0
    · rw [hk]
    · exact (ih _ (by omega)).trans (h k (by omega))

/-- The first item has the least key. -/
theorem IsHeap.head_le (ha : l.head? = some a) {b : α} (hb : b ∈ l) : key a ≤ key b := by
  obtain ⟨k, hk, rfl⟩ := getElem_of_mem hb
  have hroot := h.root_le k
  rw [slot_of_lt hk] at hroot
  unfold slot at hroot
  rw [← head?_eq_getElem?, ha] at hroot
  exact WithTop.coe_le_coe.mp hroot

/-- Keys that agree on the items give the same order. -/
theorem IsHeap.congr (hkey : ∀ a ∈ l, key a = key' a) : IsHeap key' l := by
  have hslot (k : ℕ) : slot key' l k = slot key l k := by
    unfold slot
    cases hk : l[k]? with
    | none => rfl
    | some a => simp [hkey a (mem_of_getElem? hk)]
  intro k hk
  rw [hslot, hslot]
  exact h k hk

/-- One item gets another key and finds its place. -/
theorem IsHeap.rekey [DecidableEq α] (key' : α → β) (hnodup : l.Nodup) (ha : a ∈ l)
    (hkey : ∀ b, b ≠ a → key b = key' b) : IsHeap key' (fixAt key' l (l.idxOf a)) ∧
      (fixAt key' l (l.idxOf a)).Perm l := by
  have hlt := idxOf_lt_length_iff.mpr ha
  have hslot (k : ℕ) (hk : k ≠ l.idxOf a) : slot key' l k = slot key l k := by
    unfold slot
    cases hb : l[k]? with
    | none => rfl
    | some b =>
      have hne : b ≠ a := by
        rintro rfl
        obtain ⟨hlen, rfl⟩ := List.getElem?_eq_some_iff.mp hb
        exact hk (hnodup.idxOf_getElem k hlen).symm
      simp [hkey b hne]
  refine ⟨AlmostHeap.isHeap_fixAt ⟨fun k hk hki hpar => ?_, fun k hk hpar hpos => ?_⟩ hlt,
    fixAt_perm ..⟩
  · rw [hslot k hki, hslot _ hpar]
    exact h k hk
  · have hchild := h k hk
    rw [hpar] at hchild
    rw [hslot k (by omega), hslot _ (by omega)]
    exact (h _ hpos).trans hchild

/-- Behind the first item, one of the next two has the least key. -/
theorem IsHeap.second_le {d : α} (hd : d ∈ l.tail) :
    min (slot key l 1) (slot key l 2) ≤ (key d : WithTop β) := by
  have hslot (k : ℕ) : min (slot key l 1) (slot key l 2) ≤ slot key l (k + 1) := by
    induction k using Nat.strong_induction_on with
    | _ k ih =>
      match k with
      | 0 => exact min_le_left ..
      | 1 => exact min_le_right ..
      | k + 2 =>
        have hparent : (k + 2 + 1 - 1) / 2 = k / 2 + 1 := by omega
        exact (ih (k / 2) (by omega)).trans (hparent ▸ h (k + 2 + 1) (by omega))
  obtain ⟨k, hk, rfl⟩ := getElem_of_mem hd
  have hle := hslot k
  rw [length_tail] at hk
  rwa [slot_of_lt (k := k + 1) (by omega), ← getElem_tail] at hle

end

end PortableFS.Base.SlotHeap
