import Mathlib

/-!
# Wildcard patterns

Library `Base`. A pattern is a list of elements; a star spans any run of symbols and every other
element takes one symbol it accepts. The scan goes forward greedily and keeps one point to resume
from, after the last star it saw. That is enough: what stands between two stars is best matched at
its first place, since the later star can span whatever is left.
-/

namespace PortableFS.Base.Wildcard

open List

variable {α β : Type*}

/-- A pattern covers a text. -/
inductive Matches (Star : β → Prop) (Takes : β → α → Prop) : List β → List α → Prop
  | nil : Matches Star Takes [] []
  | star {p : β} {ps : List β} {xs : List α} (run : List α) (hstar : Star p)
      (h : Matches Star Takes ps xs) : Matches Star Takes (p :: ps) (run ++ xs)
  | one {p : β} {x : α} {ps : List β} {xs : List α} (hstar : ¬ Star p)
      (htakes : Takes p x) (h : Matches Star Takes ps xs) : Matches Star Takes (p :: ps) (x :: xs)

/-- The point to resume from, one symbol further. -/
def next : Option (List β × List α) → Option (List β × List α)
  | some (qs, _ :: ys) => some (qs, ys)
  | _ => none

/-- The scan: the rest of the pattern, the rest of the text, and where to resume. -/
def scan (isStar : β → Bool) (accepts : β → α → Bool) :
    ℕ → List β → List α → Option (List β × List α) → Bool
  | 0, _, _, _ => false
  | _ + 1, ps, [], _ => (ps.dropWhile isStar).isEmpty
  | n + 1, p :: ps, x :: xs, back =>
    if isStar p then scan isStar accepts n ps (x :: xs) (some (ps, x :: xs))
    else if accepts p x then scan isStar accepts n ps xs back
    else
      match next back with
      | some (qs, ys) => scan isStar accepts n qs ys (some (qs, ys))
      | none => false
  | n + 1, [], _ :: _, back =>
    match next back with
    | some (qs, ys) => scan isStar accepts n qs ys (some (qs, ys))
    | none => false

/-- Rounds that a scan needs at most: between two resumptions the pattern gets shorter. -/
def rounds (ps : List β) (xs : List α) : ℕ := xs.length * (ps.length + 1) + ps.length + 1

/-- Whether a pattern covers a text. -/
def covers (isStar : β → Bool) (accepts : β → α → Bool) (ps : List β) (xs : List α) : Bool :=
  scan isStar accepts (rounds ps xs) ps xs none

section
variable {Star : β → Prop} {Takes : β → α → Prop} {p : β} {x : α} {ps qs : List β}
  {xs ys : List α}

@[simp] theorem matches_nil_iff : Matches Star Takes [] xs ↔ xs = [] := by
  constructor
  · rintro ⟨⟩
    rfl
  · rintro rfl
    exact .nil

theorem matches_star_iff (h : Star p) :
    Matches Star Takes (p :: ps) xs ↔ ∃ k, k ≤ xs.length ∧ Matches Star Takes ps (xs.drop k) := by
  constructor
  · intro hm
    cases hm with
    | star run _ hrest =>
      exact ⟨run.length, by simp, by simpa using hrest⟩
    | one hstar _ _ => exact absurd h hstar
  · rintro ⟨k, -, hrest⟩
    have hm := Matches.star (xs.take k) h hrest
    rwa [take_append_drop] at hm

theorem matches_one_iff (h : ¬ Star p) : Matches Star Takes (p :: ps) xs ↔
      ∃ y ys, xs = y :: ys ∧ Takes p y ∧ Matches Star Takes ps ys := by
  constructor
  · intro hm
    cases hm with
    | star _ hstar _ => exact absurd hstar h
    | one _ hacc hrest => exact ⟨_, _, rfl, hacc, hrest⟩
  · rintro ⟨y, ys, rfl, hacc, hrest⟩
    exact .one h hacc hrest

/-- A star in front spans any further symbols in front. -/
theorem Matches.absorb (hstar : Star p) (run : List α) (h : Matches Star Takes (p :: ps) xs) :
    Matches Star Takes (p :: ps) (run ++ xs) := by
  obtain ⟨k, -, hrest⟩ := (matches_star_iff hstar).mp h
  have hm := Matches.star (run ++ xs.take k) hstar hrest
  rwa [append_assoc, take_append_drop] at hm

/-- Elements that are no stars take one symbol each. -/
theorem Matches.drop_seg {seg : List β} (hseg : ∀ p ∈ seg, ¬ Star p)
    (h : Matches Star Takes (seg ++ ps) xs) :
    seg.length ≤ xs.length ∧ Matches Star Takes ps (xs.drop seg.length) := by
  induction seg generalizing xs with
  | nil => exact ⟨Nat.zero_le _, h⟩
  | cons p seg ih =>
    obtain ⟨y, ys, rfl, -, hrest⟩ := (matches_one_iff (hseg p mem_cons_self)).mp h
    obtain ⟨hle, hm⟩ := ih (fun q hq => hseg q (mem_cons_of_mem _ hq)) hrest
    exact ⟨Nat.succ_le_succ hle, hm⟩

/-- Two stars in a row are one. -/
theorem matches_star_star_iff {q : β} (hp : Star p) (hq : Star q) :
    Matches Star Takes (p :: q :: ps) xs ↔ Matches Star Takes (q :: ps) xs := by
  constructor
  · intro h
    obtain ⟨k, -, hrest⟩ := (matches_star_iff hp).mp h
    have habs := hrest.absorb hq (xs.take k)
    rwa [take_append_drop] at habs
  · intro h
    exact Matches.star [] hp h

/-- What covers the same texts may be exchanged after a common beginning. -/
theorem matches_append_congr (seg : List β)
    (h : ∀ xs, Matches Star Takes ps xs ↔ Matches Star Takes qs xs) (xs : List α) :
    Matches Star Takes (seg ++ ps) xs ↔ Matches Star Takes (seg ++ qs) xs := by
  induction seg generalizing xs with
  | nil => exact h xs
  | cons p seg ih =>
    by_cases hp : Star p
    · simp only [cons_append, matches_star_iff hp, ih]
    · simp only [cons_append, matches_one_iff hp, ih]

/-- A pattern may be spelled with other elements that mean the same. -/
theorem matches_map_iff {γ : Type*} {Star' : γ → Prop} {Takes' : γ → α → Prop} (f : β → γ)
    (hstar : ∀ p ∈ ps, Star' (f p) ↔ Star p)
    (htakes : ∀ p ∈ ps, ¬ Star p → ∀ x, Takes' (f p) x ↔ Takes p x) (xs : List α) :
    Matches Star' Takes' (ps.map f) xs ↔ Matches Star Takes ps xs := by
  induction ps generalizing xs with
  | nil => simp
  | cons p ps ih =>
    have hrest := ih (fun q hq => hstar q (mem_cons_of_mem _ hq))
      (fun q hq => htakes q (mem_cons_of_mem _ hq))
    have hsame := hstar p mem_cons_self
    by_cases hp : Star p
    · simp only [map_cons, matches_star_iff hp, matches_star_iff (hsame.mpr hp), hrest]
    · have hp' : ¬ Star' (f p) := fun h => hp (hsame.mp h)
      simp only [map_cons, matches_one_iff hp, matches_one_iff hp', hrest,
        htakes p mem_cons_self hp]

end

section
variable {isStar : β → Bool} {accepts : β → α → Bool} {p : β} {x : α} {ps qs : List β}
  {xs ys : List α}

theorem matches_nil_text_iff :
    Matches (isStar ·) (accepts · ·) ps [] ↔ (ps.dropWhile isStar).isEmpty = true := by
  induction ps with
  | nil => simp
  | cons p ps ih =>
    cases hp : isStar p with
    | true =>
      rw [matches_star_iff (p := p) hp, dropWhile_cons_of_pos hp, ← ih]
      simp
    | false =>
      rw [matches_one_iff (by simp [hp]), dropWhile_cons_of_neg (by simp [hp])]
      simp

/-- A resumption further on covers the text. -/
def Later (isStar : β → Bool) (accepts : β → α → Bool) : Option (List β × List α) → Prop
  | none => False
  | some (qs, ys) => ∃ k, 1 ≤ k ∧ k ≤ ys.length ∧ Matches (isStar ·) (accepts · ·) qs (ys.drop k)

/-- The scan has taken elements without a star since the point it resumes from. -/
def Resumes (isStar : β → Bool) (ps : List β) (xs : List α) : Option (List β × List α) → Prop
  | none => True
  | some (qs, ys) => ∃ seg, qs = seg ++ ps ∧ (∀ p ∈ seg, ¬ isStar p) ∧
      seg.length ≤ ys.length ∧ xs = ys.drop seg.length

/-- The text that is left for resumptions. -/
def left (n : ℕ) : Option (List β × List α) → ℕ
  | none => n
  | some (_, ys) => ys.length

private theorem later_cons_iff {y : α} : Later isStar accepts (some (qs, y :: ys)) ↔
      Matches (isStar ·) (accepts · ·) qs ys ∨ Later isStar accepts (some (qs, ys)) := by
  constructor
  · rintro ⟨k, hpos, hle, hm⟩
    obtain ⟨k, rfl⟩ : ∃ j, k = j + 1 := ⟨k - 1, by omega⟩
    rw [drop_succ_cons] at hm
    by_cases hk : k = 0
    · subst hk
      exact .inl hm
    · exact .inr ⟨k, by omega, by simpa using hle, hm⟩
  · rintro (hm | ⟨k, hpos, hle, hm⟩)
    · exact ⟨1, le_rfl, by simp, hm⟩
    · exact ⟨k + 1, by omega, by simpa using hle, hm⟩

variable {back : Option (List β × List α)}

private theorem not_later_of_next (h : next back = none) : ¬ Later isStar accepts back := by
  rcases back with _ | ⟨qs, _ | ⟨y, ys⟩⟩
  · exact id
  · rintro ⟨k, hpos, hle, -⟩
    rw [length_nil] at hle
    omega
  · cases h

private theorem later_iff_of_next (h : next back = some (qs, ys)) : (Later isStar accepts back ↔
      Matches (isStar ·) (accepts · ·) qs ys ∨ Later isStar accepts (some (qs, ys))) ∧
      ∃ y, back = some (qs, y :: ys) := by
  rcases back with _ | ⟨qs', _ | ⟨y, ys'⟩⟩
  · cases h
  · cases h
  · obtain ⟨rfl, rfl⟩ := Prod.mk.inj (Option.some.inj h)
    exact ⟨later_cons_iff, y, rfl⟩

private theorem Resumes.not_later (h : Resumes isStar ps [] back) :
    ¬ Later isStar accepts back := by
  rcases back with _ | ⟨qs, ys⟩
  · exact id
  obtain ⟨seg, hqs, hseg, hle, hnil⟩ := h
  rintro ⟨k, hpos, hk, hm⟩
  rw [hqs] at hm
  have hlen := (hm.drop_seg hseg).1
  have hdrop := drop_eq_nil_iff.mp hnil.symm
  rw [length_drop] at hlen
  omega

private theorem Resumes.matches_of_later (hstar : isStar p = true)
    (h : Resumes isStar (p :: ps) xs back) (hl : Later isStar accepts back) :
    Matches (isStar ·) (accepts · ·) (p :: ps) xs := by
  rcases back with _ | ⟨qs, ys⟩
  · exact hl.elim
  obtain ⟨seg, hqs, hseg, hle, hxs⟩ := h
  obtain ⟨k, hpos, hk, hm⟩ := hl
  rw [hqs] at hm
  have hrest := (hm.drop_seg hseg).2
  rw [drop_drop, Nat.add_comm, ← drop_drop, ← hxs] at hrest
  have habs := hrest.absorb (p := p) hstar (xs.take k)
  rwa [take_append_drop] at habs

private theorem Resumes.cons (hstar : ¬ isStar p) (h : Resumes isStar (p :: ps) (x :: xs) back) :
    Resumes isStar ps xs back := by
  rcases back with _ | ⟨qs, ys⟩
  · trivial
  obtain ⟨seg, hqs, hseg, hle, hxs⟩ := h
  have hlen := congrArg List.length hxs
  rw [length_cons, length_drop] at hlen
  refine ⟨seg ++ [p], by rw [hqs, append_assoc]; rfl, ?_, ?_, ?_⟩
  · intro q hq
    rcases mem_append.mp hq with hold | hnew
    · exact hseg q hold
    · exact mem_singleton.mp hnew ▸ hstar
  · rw [length_append, length_singleton]
    omega
  · rw [length_append, length_singleton, ← drop_drop, ← hxs]
    rfl

private theorem resumes_self (ps : List β) (xs : List α) : Resumes isStar ps xs (some (ps, xs)) :=
  ⟨[], rfl, nofun, Nat.zero_le _, rfl⟩

/-- With enough rounds, the scan decides whether the rest of the pattern covers the rest of the
text or some resumption does. -/
private theorem scan_iff {n m k : ℕ} (hfuel : left m back * (k + 1) + ps.length < n)
    (hps : ps.length ≤ k) (hback : ∀ qs ys, back = some (qs, ys) → qs.length ≤ k)
    (hxs : xs.length ≤ left m back) (hres : Resumes isStar ps xs back) :
    scan isStar accepts n ps xs back = true ↔
      Matches (isStar ·) (accepts · ·) ps xs ∨ Later isStar accepts back := by
  induction n generalizing ps xs back with
  | zero => omega
  | succ n ih =>
    -- a resumption gives up one symbol of the text and may lengthen the pattern again
    have hresume : ∀ qs ys, next back = some (qs, ys) →
        (scan isStar accepts n qs ys (some (qs, ys)) = true ↔ Later isStar accepts back) := by
      intro qs ys hnext
      obtain ⟨hlater, y, rfl⟩ := later_iff_of_next hnext
      have hqs : qs.length ≤ k := hback qs (y :: ys) rfl
      rw [hlater]
      refine ih ?_ hqs ?_ le_rfl (resumes_self qs ys)
      · have hexp : (ys.length + 1) * (k + 1) = ys.length * (k + 1) + (k + 1) := by ring
        simp only [left, length_cons, hexp] at hfuel
        simp only [left]
        omega
      · rintro qs' ys' heq
        obtain ⟨rfl, rfl⟩ := Prod.mk.inj (Option.some.inj heq)
        exact hqs
    cases xs with
    | nil =>
      rw [matches_nil_text_iff, or_iff_left hres.not_later]
      cases ps <;> rfl
    | cons x xs =>
      cases ps with
      | nil =>
        have hnot : ¬ Matches (isStar ·) (accepts · ·) [] (x :: xs) := by simp
        rw [or_iff_right hnot]
        cases hnext : next back with
        | none => simp [scan, hnext, not_later_of_next hnext]
        | some b =>
          simp only [scan, hnext]
          exact hresume b.1 b.2 hnext
      | cons p ps =>
        rw [length_cons] at hps hfuel
        cases hp : isStar p with
        | true =>
          have hstep : scan isStar accepts (n + 1) (p :: ps) (x :: xs) back =
              scan isStar accepts n ps (x :: xs) (some (ps, x :: xs)) := by
            simp [scan, hp]
          have hle : (x :: xs).length * (k + 1) ≤ left m back * (k + 1) :=
            Nat.mul_le_mul_right _ hxs
          rw [hstep, ih (by simp only [left]; omega) (by omega) ?_ le_rfl (resumes_self _ _)]
          · have hall : (Matches (isStar ·) (accepts · ·) ps (x :: xs) ∨
                Later isStar accepts (some (ps, x :: xs))) ↔
                  Matches (isStar ·) (accepts · ·) (p :: ps) (x :: xs) := by
              rw [matches_star_iff (p := p) hp]
              constructor
              · rintro (hm | ⟨j, -, hj, hm⟩)
                · exact ⟨0, Nat.zero_le _, hm⟩
                · exact ⟨j, hj, hm⟩
              · rintro ⟨j, hj, hm⟩
                rcases Nat.eq_zero_or_pos j with rfl | hpos
                · exact .inl hm
                · exact .inr ⟨j, hpos, hj, hm⟩
            rw [hall, or_iff_left_of_imp (hres.matches_of_later hp)]
          · rintro qs ys heq
            obtain ⟨rfl, rfl⟩ := Prod.mk.inj (Option.some.inj heq)
            omega
        | false =>
          cases hacc : accepts p x with
          | true =>
            have hstep : scan isStar accepts (n + 1) (p :: ps) (x :: xs) back =
                scan isStar accepts n ps xs back := by
              simp [scan, hp, hacc]
            have hone : Matches (isStar ·) (accepts · ·) (p :: ps) (x :: xs) ↔
                Matches (isStar ·) (accepts · ·) ps xs := by
              rw [matches_one_iff (by simp [hp])]
              simp [hacc]
            rw [hstep, hone]
            rw [length_cons] at hxs
            exact ih (by omega) (by omega) hback (by omega) (hres.cons (by simp [hp]))
          | false =>
            have hnot : ¬ Matches (isStar ·) (accepts · ·) (p :: ps) (x :: xs) := by
              rw [matches_one_iff (by simp [hp])]
              simp [hacc]
            rw [or_iff_right hnot]
            cases hnext : next back with
            | none => simp [scan, hp, hacc, hnext, not_later_of_next hnext]
            | some b =>
              simp only [scan, hp, hacc, hnext, Bool.false_eq_true, if_false]
              exact hresume b.1 b.2 hnext

/-- One point to resume from is enough. -/
theorem covers_iff : covers isStar accepts ps xs = true ↔ Matches (isStar ·) (accepts · ·) ps xs := by
  have h := @scan_iff α β isStar accepts ps xs none (rounds ps xs) xs.length ps.length
    (by simp only [left, rounds]; omega) le_rfl (by simp) le_rfl trivial
  rw [covers, h]
  exact or_iff_left id

end

end PortableFS.Base.Wildcard
