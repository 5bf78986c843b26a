import Mathlib

/-!
# Graph search with a visited list

Library `Base`. Depth-first search for a goal over a successor function. The fuel is enough
when some cost of the visited list pays for the successors of every node that is expanded;
then the search is a loop that expands no node twice and decides whether the goal can be
reached.
-/

namespace PortableFS.Base

open List

variable {O : Type}

/-- Pop a node: stop at the goal, skip a visited one, expand any other. From the
visited nodes and the frontier the loop ends with a verdict and the nodes it expanded. -/
inductive Explores (succ : O → List O) (goal : O) : List O → List O → Bool → List O → Prop
  | exhausted {visited : List O} : Explores succ goal visited [] false visited
  | found {visited frontier : List O} : Explores succ goal visited (goal :: frontier) true visited
  | skip {o : O} {visited frontier expanded : List O} {verdict : Bool} (hgoal : o ≠ goal)
      (hv : o ∈ visited) (h : Explores succ goal visited frontier verdict expanded) :
      Explores succ goal visited (o :: frontier) verdict expanded
  | expand {o : O} {visited frontier expanded : List O} {verdict : Bool} (hgoal : o ≠ goal)
      (hv : o ∉ visited)
      (h : Explores succ goal (o :: visited) (succ o ++ frontier) verdict expanded) :
      Explores succ goal visited (o :: frontier) verdict expanded

variable {succ : O → List O} {goal : O} {visited frontier expanded : List O} {verdict : Bool}

section

variable (h : Explores succ goal visited frontier verdict expanded)
include h

/-- The loop expands no node twice. -/
theorem Explores.nodup (hn : visited.Nodup) : expanded.Nodup := by
  induction h with
  | exhausted => exact hn
  | found => exact hn
  | skip _ _ _ ih => exact ih hn
  | expand _ hv _ ih => exact ih (nodup_cons.mpr ⟨hv, hn⟩)

private theorem Explores.closed (hf : verdict = false) :
    (∀ o ∈ frontier, o ∈ expanded) ∧ (∀ o ∈ visited, o ∈ expanded) ∧
      ∀ o ∈ expanded, o ∉ visited → o ≠ goal ∧ ∀ b ∈ succ o, b ∈ expanded := by
  induction h with
  | exhausted => exact ⟨nofun, fun _ h => h, fun _ h hn => absurd h hn⟩
  | found => cases hf
  | skip _ hv _ ih =>
    obtain ⟨hfr, hvis, hc⟩ := ih hf
    exact ⟨forall_mem_cons.mpr ⟨hvis _ hv, hfr⟩, hvis, hc⟩
  | @expand o _ _ _ _ hgoal _ _ ih =>
    obtain ⟨hfr, hvis, hc⟩ := ih hf
    obtain ⟨ho, hvis⟩ := forall_mem_cons.mp hvis
    obtain ⟨hsucc, hfr⟩ := forall_mem_append.mp hfr
    refine ⟨forall_mem_cons.mpr ⟨ho, hfr⟩, hvis, fun b hb hnv => ?_⟩
    by_cases hbo : b = o
    · exact hbo ▸ ⟨hgoal, hsucc⟩
    · exact hc b hb (by simp [hbo, hnv])

private theorem Explores.reaches (ht : verdict = true) :
    ∃ o ∈ frontier, Relation.ReflTransGen (fun a b => b ∈ succ a) o goal := by
  induction h with
  | exhausted => cases ht
  | found => exact ⟨_, mem_cons_self, .refl⟩
  | skip _ _ _ ih =>
    obtain ⟨o, ho, hreach⟩ := ih ht
    exact ⟨o, mem_cons_of_mem _ ho, hreach⟩
  | expand _ _ _ ih =>
    obtain ⟨o, ho, hreach⟩ := ih ht
    rcases mem_append.mp ho with ho | ho
    · exact ⟨_, mem_cons_self, hreach.head ho⟩
    · exact ⟨o, mem_cons_of_mem _ ho, hreach⟩

end

/-- The verdict says whether the goal can be reached from the frontier. -/
theorem Explores.verdict_iff (h : Explores succ goal [] frontier verdict expanded) :
    verdict = true ↔ ∃ o ∈ frontier, Relation.ReflTransGen (fun a b => b ∈ succ a) o goal := by
  refine ⟨h.reaches, fun ⟨o, ho, hreach⟩ => ?_⟩
  by_contra hf
  obtain ⟨hfr, _, hc⟩ := h.closed (Bool.not_eq_true _ ▸ hf)
  have hclosed : ∀ b, Relation.ReflTransGen (fun a b => b ∈ succ a) o b → b ∈ expanded := by
    intro b hb
    induction hb with
    | refl => exact hfr o ho
    | tail _ hbc ih => exact (hc _ ih not_mem_nil).2 _ hbc
  exact (hc goal (hclosed goal hreach) not_mem_nil).1 rfl

variable [DecidableEq O]

/-- The loop with fuel. -/
def search (succ : O → List O) (goal : O) : Nat → List O → List O → Bool
  | 0, _, _ => false
  | _ + 1, _, [] => false
  | fuel + 1, visited, o :: frontier =>
    if o = goal then true
    else if o ∈ visited then search succ goal fuel visited frontier
    else search succ goal fuel (o :: visited) (succ o ++ frontier)

/-- With enough fuel the search is the loop. -/
theorem search_explores (cost : List O → Nat)
    (hcost : ∀ visited o, o ∉ visited → cost (o :: visited) + (succ o).length ≤ cost visited)
    {fuel : Nat} (hfuel : frontier.length + cost visited < fuel) :
    ∃ expanded, Explores succ goal visited frontier (search succ goal fuel visited frontier)
      expanded := by
  induction fuel generalizing visited frontier with
  | zero => omega
  | succ fuel ih =>
    cases frontier with
    | nil => exact ⟨visited, .exhausted⟩
    | cons o frontier =>
      simp only [length_cons] at hfuel
      unfold search
      split
      · next hgoal => exact ⟨visited, hgoal ▸ .found⟩
      next hgoal =>
      split
      · next hv =>
        have hless : frontier.length + cost visited < fuel := by omega
        obtain ⟨expanded, h⟩ := ih hless
        exact ⟨expanded, .skip hgoal hv h⟩
      next hv =>
      have hpay := hcost visited o hv
      have hless : (succ o ++ frontier).length + cost (o :: visited) < fuel := by
        rw [length_append]
        omega
      obtain ⟨expanded, h⟩ := ih hless
      exact ⟨expanded, .expand hgoal hv h⟩

end PortableFS.Base
