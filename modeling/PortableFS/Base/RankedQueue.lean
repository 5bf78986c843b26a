import Mathlib

/-!
# Queues in order of a rank

A queue whose members have a rank and that is kept in order of it, first come first served among
equals. A new member goes behind the last member that does not outrank it, whether the place is
searched from the front or from the back. Restricting a queue to some members commutes with
inserting, so that several queues over one order agree with each other.
-/

namespace PortableFS.Base.RankedQueue

open List

variable {α : Type} (rank : α → ℕ)

/-- Insert before the first member of a higher rank, searching from the front. -/
def insertFromFront (a : α) (q : List α) : List α :=
  q.takeWhile (fun b => rank b ≤ rank a) ++ a :: q.dropWhile (fun b => rank b ≤ rank a)

/-- Insert behind the last member of no higher rank, searching from the back. -/
def insertFromBack (a : α) (q : List α) : List α :=
  (q.reverse.takeWhile (fun b => rank a < rank b) ++
    a :: q.reverse.dropWhile (fun b => rank a < rank b)).reverse

/-- Where both put the new member in a queue that is in order. -/
def place (a : α) (q : List α) : List α :=
  q.filter (fun b => rank b ≤ rank a) ++ a :: q.filter (fun b => rank a < rank b)

/-- The queue is in order. -/
def InOrder (q : List α) : Prop := q.Pairwise fun a b => rank a ≤ rank b

variable {rank} {a b : α} {q : List α} {p : α → Bool}

private theorem takeWhile_eq_filter (h : q.Pairwise fun a b => p b → p a) :
    q.takeWhile p = q.filter p ∧ q.dropWhile p = q.filter (fun b => !p b) := by
  induction q with
  | nil => exact ⟨rfl, rfl⟩
  | cons c q ih =>
    obtain ⟨hc, hq⟩ := pairwise_cons.mp h
    obtain ⟨htake, hdrop⟩ := ih hq
    by_cases hp : p c = true
    · simp [hp, htake, hdrop]
    have hnone : ∀ b ∈ q, ¬p b = true := fun b hb hpb => hp (hc b hb hpb)
    have hfalse : q.filter p = [] := filter_eq_nil_iff.mpr hnone
    have hall : q.filter (fun b => !p b) = q := by
      apply filter_eq_self.mpr
      intro b hb
      simp [hnone b hb]
    simp [hp, hfalse, hall]

theorem insertFromFront_eq (h : InOrder rank q) : insertFromFront rank a q = place rank a q := by
  have hp : q.Pairwise fun b c => decide (rank c ≤ rank a) → decide (rank b ≤ rank a) := by
    apply h.imp
    intro b c hbc
    simp only [decide_eq_true_eq]
    omega
  obtain ⟨htake, hdrop⟩ := takeWhile_eq_filter hp
  have hrest : (fun b => !decide (rank b ≤ rank a)) = fun b => decide (rank a < rank b) := by
    funext b
    rw [Bool.eq_iff_iff]
    simp
  unfold insertFromFront place
  rw [htake, hdrop, hrest]

theorem insertFromBack_eq (h : InOrder rank q) : insertFromBack rank a q = place rank a q := by
  have hp : q.reverse.Pairwise fun b c => decide (rank a < rank c) → decide (rank a < rank b) := by
    apply (pairwise_reverse.mpr h).imp
    intro b c hbc
    simp only [decide_eq_true_eq]
    omega
  obtain ⟨htake, hdrop⟩ := takeWhile_eq_filter hp
  have hrest : (fun b => !decide (rank a < rank b)) = fun b => decide (rank b ≤ rank a) := by
    funext b
    rw [Bool.eq_iff_iff]
    simp
  unfold insertFromBack place
  rw [htake, hdrop, hrest, reverse_append, reverse_cons, filter_reverse,
    filter_reverse, reverse_reverse, reverse_reverse, append_assoc]
  rfl

theorem mem_place : b ∈ place rank a q ↔ b = a ∨ b ∈ q := by
  unfold place
  simp only [mem_append, mem_filter, mem_cons, decide_eq_true_eq]
  constructor
  · rintro (⟨hb, -⟩ | rfl | ⟨hb, -⟩)
    · exact .inr hb
    · exact .inl rfl
    · exact .inr hb
  · rintro (rfl | hb)
    · exact .inr (.inl rfl)
    · rcases lt_or_ge (rank a) (rank b) with hlt | hle
      · exact .inr (.inr ⟨hb, hlt⟩)
      · exact .inl ⟨hb, hle⟩

theorem inOrder_place (h : InOrder rank q) : InOrder rank (place rank a q) := by
  unfold InOrder place
  refine pairwise_append.mpr ⟨h.filter _, pairwise_cons.mpr ⟨?_, h.filter _⟩, ?_⟩
  · intro b hb
    have hlt := of_decide_eq_true (mem_filter.mp hb).2
    omega
  intro b hb c hc
  have hle := of_decide_eq_true (mem_filter.mp hb).2
  rcases mem_cons.mp hc with rfl | hc
  · exact hle
  · have hlt := of_decide_eq_true (mem_filter.mp hc).2
    omega

theorem nodup_place (h : q.Nodup) (ha : a ∉ q) : (place rank a q).Nodup := by
  unfold place
  refine List.Nodup.append (h.filter _) (nodup_cons.mpr ⟨?_, h.filter _⟩) ?_
  · exact fun hin => ha (mem_filter.mp hin).1
  intro b hb hc
  have hle := of_decide_eq_true (mem_filter.mp hb).2
  rcases mem_cons.mp hc with rfl | hc
  · exact ha (mem_filter.mp hb).1
  · have hlt := of_decide_eq_true (mem_filter.mp hc).2
    omega

/-- Inserting a member that belongs to the restricted queue. -/
theorem filter_place_of_pos (ha : p a = true) :
    (place rank a q).filter p = place rank a (q.filter p) := by
  unfold place
  rw [filter_append, filter_cons_of_pos ha, filter_filter, filter_filter,
    filter_filter, filter_filter]
  simp only [Bool.and_comm]

/-- Inserting a member that does not. -/
theorem filter_place_of_neg (h : InOrder rank q) (ha : ¬p a = true) :
    (place rank a q).filter p = q.filter p := by
  have hsplit : q.filter (fun b => rank b ≤ rank a) ++ q.filter (fun b => rank a < rank b) = q := by
    induction q with
    | nil => rfl
    | cons c q ih =>
      obtain ⟨hc, hq⟩ := pairwise_cons.mp h
      by_cases hle : rank c ≤ rank a
      · rw [filter_cons_of_pos (by simpa using hle),
          filter_cons_of_neg (by simpa using hle), cons_append, ih hq]
      have hnone : q.filter (fun b => rank b ≤ rank a) = [] := by
        apply filter_eq_nil_iff.mpr
        intro b hb
        have := hc b hb
        simp only [decide_eq_true_eq]
        omega
      rw [filter_cons_of_neg (by simpa using hle), filter_cons_of_pos (by simpa using hle), hnone]
      rw [hnone, nil_append] at ih
      rw [nil_append, ih hq]
  unfold place
  rw [filter_append, filter_cons_of_neg ha, ← filter_append, hsplit]

/-- The head of a queue in order has the lowest rank. -/
theorem InOrder.head_le (h : InOrder rank q) (ha : q.head? = some a) (hb : b ∈ q) :
    rank a ≤ rank b := by
  cases q with
  | nil => cases ha
  | cons c q =>
    cases ha
    rcases mem_cons.mp hb with rfl | hb
    · exact le_rfl
    · exact (pairwise_cons.mp h).1 b hb

/-- Another member stays at the head only if it was there. -/
theorem head_of_head_place (h : InOrder rank q) (hb : (place rank a q).head? = some b)
    (hne : b ≠ a) : q.head? = some b := by
  unfold place at hb
  cases q with
  | nil => exact absurd (Option.some.inj hb).symm hne
  | cons c q =>
    by_cases hle : rank c ≤ rank a
    · rw [filter_cons_of_pos (by simpa using hle)] at hb
      exact hb
    have hnone : (c :: q).filter (fun b => rank b ≤ rank a) = [] := by
      apply filter_eq_nil_iff.mpr
      intro d hd
      have := h.head_le rfl hd
      simp only [decide_eq_true_eq]
      omega
    rw [hnone] at hb
    exact absurd (Option.some.inj hb).symm hne

section Table

variable {κ β : Type} [DecidableEq κ]

/-- Change a table at several keys, one after the other. -/
def updateAll (f : κ → β) (g : β → β) (keys : List κ) : κ → β :=
  keys.foldl (fun f k => Function.update f k (g (f k))) f

theorem updateAll_apply {f : κ → β} {g : β → β} {keys : List κ} (h : keys.Nodup) (k : κ)
    [Decidable (k ∈ keys)] : updateAll f g keys k = if k ∈ keys then g (f k) else f k := by
  have hall : ∀ f : κ → β, (k ∈ keys → updateAll f g keys k = g (f k)) ∧
      (k ∉ keys → updateAll f g keys k = f k) := by
    unfold updateAll
    induction keys with
    | nil => simp
    | cons c keys ih =>
      classical
      obtain ⟨hc, hkeys⟩ := nodup_cons.mp h
      intro f
      rw [foldl_cons]
      by_cases hk : k = c
      · subst hk
        refine ⟨fun _ => ?_, fun hout => absurd mem_cons_self hout⟩
        rw [(ih hkeys _).2 hc, Function.update_self]
      · have hrest := ih hkeys (Function.update f c (g (f c)))
        rw [Function.update_of_ne hk] at hrest
        simp only [mem_cons, hk, false_or]
        exact hrest
  split
  · next hk => exact (hall f).1 hk
  · next hk => exact (hall f).2 hk

end Table

end PortableFS.Base.RankedQueue
