import Mathlib

/-!
# Painting labelled intervals

Sets of disjoint half-open intervals that carry a label, as lists up to order. Painting an
interval cuts it out of what is there and adds it: it shows wherever it lies, adds at most two
intervals, and commutes with erasing the intervals of another label.
-/

namespace PortableFS.Base

/-- The positions from `lo` to before `hi`, with a label. -/
structure Band (β : Type) where
  lo : Nat
  hi : Nat
  label : β
deriving DecidableEq

namespace Band

variable {β : Type}

/-- The position lies in the interval. -/
def Contains (e : Band β) (x : Nat) : Prop := e.lo ≤ x ∧ x < e.hi

instance (e : Band β) (x : Nat) : Decidable (e.Contains x) :=
  inferInstanceAs (Decidable (_ ∧ _))

/-- The intervals share no position. -/
def Apart (a b : Band β) : Prop := a.hi ≤ b.lo ∨ b.hi ≤ a.lo

/-- The parts of the interval before `lo` and from `hi` on. -/
def outside (lo hi : Nat) (e : Band β) : List (Band β) :=
  (if e.lo < lo then [⟨e.lo, min e.hi lo, e.label⟩] else []) ++
    if hi < e.hi then [⟨max e.lo hi, e.hi, e.label⟩] else []

variable {lo hi : Nat} {e : Band β} {a : Band β}

theorem mem_outside : a ∈ outside lo hi e ↔ (e.lo < lo ∧ a = ⟨e.lo, min e.hi lo, e.label⟩) ∨
      (hi < e.hi ∧ a = ⟨max e.lo hi, e.hi, e.label⟩) := by
  unfold outside
  rw [List.mem_append]
  split <;> split <;> simp [*]

/-- An interval apart from the cut stays whole. -/
theorem outside_of_apart (he : e.lo < e.hi) (hlt : lo < hi) (h : e.hi ≤ lo ∨ hi ≤ e.lo) :
    outside lo hi e = [e] := by
  unfold outside
  rcases h with h | h
  · rw [if_pos (by omega), if_neg (by omega), Nat.min_eq_left h, List.append_nil]
  · rw [if_neg (by omega), if_pos (by omega), Nat.max_eq_left h, List.nil_append]

/-- Every part lies inside the interval and apart from the cut. -/
theorem of_mem_outside (he : e.lo < e.hi) (ha : a ∈ outside lo hi e) :
    a.label = e.label ∧ e.lo ≤ a.lo ∧ a.lo < a.hi ∧ a.hi ≤ e.hi ∧ (a.hi ≤ lo ∨ hi ≤ a.lo) := by
  rcases mem_outside.mp ha with ⟨h, rfl⟩ | ⟨h, rfl⟩
  · refine ⟨rfl, le_rfl, ?_, ?_, ?_⟩ <;> simp only <;> omega
  · refine ⟨rfl, ?_, ?_, le_rfl, ?_⟩ <;> simp only <;> omega

/-- Only an interval that surrounds the cut falls in two. -/
theorem length_outside_le (h : ¬ (e.lo < lo ∧ hi < e.hi)) : (outside lo hi e).length ≤ 1 := by
  unfold outside
  split <;> split <;> simp
  omega

end Band

open Band List

namespace Intervals

variable {β : Type}

/-- Nonempty intervals that share no position. -/
structure Ok (l : List (Band β)) : Prop where
  nonempty : ∀ e ∈ l, e.lo < e.hi
  apart : l.Pairwise Apart

theorem Ok.nil : Ok ([] : List (Band β)) := ⟨by simp, List.Pairwise.nil⟩

/-- Some interval with the label contains the position. -/
def Covers (l : List (Band β)) (x : Nat) (b : β) : Prop :=
  ∃ e ∈ l, e.label = b ∧ e.Contains x

variable {l : List (Band β)} {l' : List (Band β)}

theorem Covers.perm (hp : l.Perm l') (x : Nat) (b : β) : Covers l x b ↔ Covers l' x b := by
  unfold Covers
  simp only [hp.mem_iff]

/-- Cut the positions from `lo` to before `hi` out of every interval. -/
def carve (lo hi : Nat) (l : List (Band β)) : List (Band β) := l.flatMap (outside lo hi)

theorem carve_append (lo hi : Nat) (l l' : List (Band β)) :
    carve lo hi (l ++ l') = carve lo hi l ++ carve lo hi l' :=
  flatMap_append

variable {lo hi : Nat}

/-- What is already apart from the cut stays as it is. -/
theorem carve_of_apart (hlt : lo < hi) (hne : ∀ e ∈ l, e.lo < e.hi)
    (h : ∀ e ∈ l, e.hi ≤ lo ∨ hi ≤ e.lo) : carve lo hi l = l := by
  induction l with
  | nil => rfl
  | cons e l ih =>
    have hrest := ih (fun a ha => hne a (mem_cons_of_mem e ha))
      fun a ha => h a (mem_cons_of_mem e ha)
    unfold carve at hrest ⊢
    rw [flatMap_cons, hrest, outside_of_apart (hne e mem_cons_self) hlt (h e mem_cons_self)]
    rfl

variable {e : Band β}

/-- Cutting one interval first makes no difference. -/
theorem carve_outside (hlt : lo < hi) (he : e.lo < e.hi) :
    carve lo hi (outside lo hi e) = outside lo hi e := by
  apply carve_of_apart hlt
  · exact fun a ha => (of_mem_outside he ha).2.2.1
  · exact fun a ha => (of_mem_outside he ha).2.2.2.2

/-- What is left after a cut comes from one of the intervals. -/
theorem of_mem_carve {a : Band β} (ha : a ∈ carve lo hi l) :
    ∃ e ∈ l, a.label = e.label ∧ a.hi ≤ e.hi := by
  obtain ⟨e, he, ha⟩ := mem_flatMap.mp ha
  rcases mem_outside.mp ha with ⟨_, rfl⟩ | ⟨_, rfl⟩
  · exact ⟨e, he, rfl, min_le_left _ _⟩
  · exact ⟨e, he, rfl, le_rfl⟩

/-- A cut does not move ends that lie behind it. -/
theorem forall_carve_hi_le {W : β → Prop} {n : Nat} (hn : hi ≤ n) :
    (∀ a ∈ carve lo hi l, W a.label → a.hi ≤ n) ↔ ∀ e ∈ l, W e.label → e.hi ≤ n := by
  constructor
  · intro h e he hw
    by_contra hgt
    have hmem : (⟨max e.lo hi, e.hi, e.label⟩ : Band β) ∈ carve lo hi l :=
      mem_flatMap.mpr ⟨e, he, mem_outside.mpr (.inr ⟨by omega, rfl⟩)⟩
    have hle := h _ hmem hw
    exact hgt hle
  · intro h a ha hw
    obtain ⟨e, he, hl, hle⟩ := of_mem_carve ha
    exact hle.trans (h e he (hl ▸ hw))

/-- A cut up to the end of everything leaves what lies before it. -/
theorem hi_le_of_mem_carve (h : ∀ e ∈ l, e.hi ≤ hi) {a : Band β}
    (ha : a ∈ carve lo hi l) : a.hi ≤ lo := by
  obtain ⟨e, he, ha⟩ := mem_flatMap.mp ha
  rcases mem_outside.mp ha with ⟨_, rfl⟩ | ⟨hlt, rfl⟩
  · exact min_le_right _ _
  · exact absurd hlt (not_lt.mpr (h e he))

/-- Paint an interval over what is there. -/
def paint (lo hi : Nat) (b : β) (l : List (Band β)) : List (Band β) :=
  ⟨lo, hi, b⟩ :: carve lo hi l

variable {b : β}

theorem paint_perm (h : l.Perm l') : (paint lo hi b l).Perm (paint lo hi b l') :=
  (h.flatMap_right _).cons _

variable {c : β} {x : Nat}

theorem covers_carve : Covers (carve lo hi l) x c ↔ ¬ (lo ≤ x ∧ x < hi) ∧ Covers l x c := by
  unfold Covers carve
  constructor
  · rintro ⟨a, ha, hc, h1, h2⟩
    obtain ⟨e, he, ha⟩ := mem_flatMap.mp ha
    rcases mem_outside.mp ha with ⟨h, rfl⟩ | ⟨h, rfl⟩ <;>
    · simp only at h1 h2
      exact ⟨by omega, e, he, hc, by omega, by omega⟩
  · rintro ⟨hx, e, he, hc, h1, h2⟩
    by_cases hlo : x < lo
    · refine ⟨⟨e.lo, min e.hi lo, e.label⟩, ?_, hc, h1, by simp only; omega⟩
      exact mem_flatMap.mpr ⟨e, he, mem_outside.mpr (.inl ⟨by omega, rfl⟩)⟩
    · refine ⟨⟨max e.lo hi, e.hi, e.label⟩, ?_, hc, by simp only; omega, h2⟩
      exact mem_flatMap.mpr ⟨e, he, mem_outside.mpr (.inr ⟨by omega, rfl⟩)⟩

/-- Painting shows the new label where it lies and the old ones elsewhere. -/
theorem covers_paint :
    Covers (paint lo hi b l) x c ↔ if lo ≤ x ∧ x < hi then c = b else Covers l x c := by
  have hsplit : Covers (paint lo hi b l) x c ↔
      (b = c ∧ lo ≤ x ∧ x < hi) ∨ Covers (carve lo hi l) x c := by
    unfold Covers paint
    simp only [mem_cons, exists_eq_or_imp]
    rfl
  rw [hsplit, covers_carve]
  split
  · next h => simp [h, eq_comm]
  · next h => simp [h]

theorem Ok.carve (hlt : lo < hi) (h : Ok l) : Ok (carve lo hi l) := by
  constructor
  · intro a ha
    obtain ⟨e, he, ha⟩ := mem_flatMap.mp ha
    exact (of_mem_outside (h.nonempty e he) ha).2.2.1
  · unfold Intervals.carve
    rw [pairwise_flatMap]
    constructor
    · intro e he
      unfold outside Apart
      split <;> split <;> simp
      omega
    · refine h.apart.imp_of_mem ?_
      intro e e' he he' hap a ha a' ha'
      obtain ⟨_, h1, _, h2, _⟩ := of_mem_outside (h.nonempty e he) ha
      obtain ⟨_, h3, _, h4, _⟩ := of_mem_outside (h.nonempty e' he') ha'
      unfold Apart at *
      omega

/-- Painting a nonempty interval keeps the intervals disjoint. -/
theorem Ok.paint (hlt : lo < hi) (b : β) (h : Ok l) : Ok (paint lo hi b l) := by
  have hc : Ok (Intervals.carve lo hi l) := h.carve hlt
  constructor
  · exact forall_mem_cons.mpr ⟨hlt, hc.nonempty⟩
  · refine pairwise_cons.mpr ⟨?_, hc.apart⟩
    intro a ha
    obtain ⟨e, he, ha⟩ := mem_flatMap.mp ha
    exact (of_mem_outside (h.nonempty e he) ha).2.2.2.2.symm

private theorem length_carve_le_of (h : ∀ e ∈ l, ¬ (e.lo < lo ∧ hi < e.hi)) :
    (carve lo hi l).length ≤ l.length := by
  induction l with
  | nil => exact le_rfl
  | cons e l ih =>
    have h1 := length_outside_le (h e mem_cons_self)
    have h2 := ih fun a ha => h a (mem_cons_of_mem e ha)
    unfold carve at h2 ⊢
    rw [flatMap_cons, length_append, length_cons]
    omega

/-- Cutting splits at most one interval in two. -/
theorem length_carve_le (hlt : lo < hi) (h : Ok l) : (carve lo hi l).length ≤ l.length + 1 := by
  induction l with
  | nil => exact Nat.zero_le _
  | cons e l ih =>
    obtain ⟨hap, hrest⟩ := pairwise_cons.mp h.apart
    have hne : ∀ a ∈ l, a.lo < a.hi := fun a ha => h.nonempty a (mem_cons_of_mem e ha)
    have heq : (carve lo hi (e :: l)).length = (outside lo hi e).length + (carve lo hi l).length := by
      unfold carve
      rw [flatMap_cons, length_append]
    rw [heq, length_cons]
    by_cases hboth : e.lo < lo ∧ hi < e.hi
    · -- the split interval surrounds the cut, so every other one is apart from it
      have h1 : (outside lo hi e).length ≤ 2 := by
        unfold outside
        split <;> split <;> simp
      have h2 : (carve lo hi l).length ≤ l.length := by
        apply length_carve_le_of
        intro a ha
        have := hap a ha
        have := hne a ha
        unfold Apart at *
        omega
      omega
    · have h1 := length_outside_le hboth
      have h2 := ih ⟨hne, hrest⟩
      omega

/-- Erasing a label commutes with painting another one. -/
theorem filter_paint (p : β → Bool) (hb : p b = true) (l : List (Band β)) :
    (paint lo hi b l).filter (fun e => p e.label) =
      paint lo hi b (l.filter fun e => p e.label) := by
  have hcarve : (carve lo hi l).filter (fun e => p e.label) =
      carve lo hi (l.filter fun e => p e.label) := by
    induction l with
    | nil => rfl
    | cons e l ih =>
      unfold carve at ih ⊢
      rw [flatMap_cons, filter_append, ih, filter_cons]
      have hlabel : ∀ a ∈ outside lo hi e, p a.label = p e.label := by
        intro a ha
        rcases mem_outside.mp ha with ⟨_, rfl⟩ | ⟨_, rfl⟩ <;> rfl
      cases hp : p e.label with
      | true =>
        rw [filter_eq_self.mpr fun a ha => (hlabel a ha).trans hp, if_pos rfl, flatMap_cons]
      | false =>
        rw [filter_eq_nil_iff.mpr fun a ha => by simp [hlabel a ha, hp], if_neg (by simp)]
        rfl
  unfold paint
  rw [filter_cons, if_pos hb, hcarve]

/-- Intervals painted one after the other, the last one on top. -/
def layers (es : List (Band β)) : List (Band β) :=
  es.foldl (fun l e => paint e.lo e.hi e.label l) []

theorem layers_append_singleton (es : List (Band β)) (e : Band β) :
    layers (es ++ [e]) = paint e.lo e.hi e.label (layers es) := by
  unfold layers
  rw [foldl_append]
  rfl

variable {es : List (Band β)}

/-- What shows is a part of one of the layers. -/
theorem of_mem_layers {i : Band β} (hi : i ∈ layers es) :
    ∃ e ∈ es, i.label = e.label ∧ i.hi ≤ e.hi := by
  induction es using List.reverseRecOn generalizing i with
  | nil => cases hi
  | append_singleton es e ih =>
    rw [layers_append_singleton] at hi
    rcases mem_cons.mp hi with rfl | hi
    · exact ⟨e, by simp, rfl, le_rfl⟩
    · obtain ⟨a, ha, hl, hle⟩ := of_mem_carve hi
      obtain ⟨c, hc, hl', hle'⟩ := ih ha
      exact ⟨c, mem_append_left _ hc, hl.trans hl', hle.trans hle'⟩

/-- The intervals that are to be painted are nonempty. -/
theorem ok_layers (h : ∀ e ∈ es, e.lo < e.hi) : Ok (layers es) := by
  induction es using List.reverseRecOn with
  | nil => exact Ok.nil
  | append_singleton es e ih =>
    rw [layers_append_singleton]
    exact (ih fun a ha => h a (mem_append_left _ ha)).paint (h e (by simp)) _

/-- Every layer adds at most two intervals. -/
theorem length_layers_le (h : ∀ e ∈ es, e.lo < e.hi) : (layers es).length ≤ 2 * es.length := by
  induction es using List.reverseRecOn with
  | nil => exact le_rfl
  | append_singleton es e ih =>
    have hes : ∀ a ∈ es, a.lo < a.hi := fun a ha => h a (mem_append_left _ ha)
    have h1 := ih hes
    have h2 := length_carve_le (h e (by simp)) (ok_layers hes)
    rw [layers_append_singleton, length_append, length_singleton]
    unfold paint
    rw [length_cons]
    omega

/-- Erasing a label that no layer has. -/
theorem filter_layers_self (p : β → Bool) (hes : ∀ a ∈ es, p a.label = true) :
    (layers es).filter (fun a => p a.label) = layers es := by
  induction es using List.reverseRecOn with
  | nil => rfl
  | append_singleton es a ih =>
    rw [layers_append_singleton, filter_paint p (hes a (by simp)),
      ih fun c hc => hes c (mem_append_left _ hc)]

/-- Erasing the label of the lowest layer removes the layer. -/
theorem filter_layers_cons (p : β → Bool) (he : p e.label = false)
    (hes : ∀ a ∈ es, p a.label = true) :
    (layers (e :: es)).filter (fun a => p a.label) = layers es := by
  induction es using List.reverseRecOn with
  | nil => simp [layers, paint, carve, he]
  | append_singleton es a ih =>
    have hpa : p a.label = true := hes a (by simp)
    rw [← cons_append, layers_append_singleton, layers_append_singleton,
      filter_paint p hpa, ih fun c hc => hes c (mem_append_left _ hc)]

end Intervals
end PortableFS.Base
