import Mathlib

/-!
# Lock spaces

Library `Base`. A lock space is a set of owners, each covering points in some mode, together
with a queue of requests for regions. The library fixes when a request is blocked, which
owner waits for which, and how the wait-for relation and the set of grantable requests react
when coverage recedes, a request is granted, or a request joins the queue. Owners, points and
modes are arbitrary types; modes are preordered by strength and `clash` says which two modes
of different owners exclude each other.
-/

namespace PortableFS.Base

/-- A request for a whole region in one mode. `seq` is the place in the queue. -/
structure Request (O P M : Type) where
  owner : O
  mode : M
  region : Set P
  seq : Nat

/-- Coverage of points by owners, and the queued requests. -/
structure LockSpace (O P M : Type) where
  mode : O → P → Option M
  queue : Set (Request O P M)

namespace LockSpace

variable {O P M : Type} [Preorder M]

/-- The owner covers the point at least in the wanted mode. -/
def Holds (S : LockSpace O P M) (o : O) (p : P) (m : M) : Prop :=
  ∃ m', S.mode o p = some m' ∧ m ≤ m'

variable (clash : M → M → Prop)

/-- Coverage of another owner excludes the request. -/
def HeldBlocks (S : LockSpace O P M) (q : Request O P M) (o : O) : Prop :=
  o ≠ q.owner ∧ ∃ p ∈ q.region, ∃ m, S.mode o p = some m ∧ clash m q.mode

/-- A request queued earlier excludes `q` at a point that `q` would newly cover. -/
def QueueBlocks (S : LockSpace O P M) (q x : Request O P M) : Prop :=
  x ∈ S.queue ∧ x.seq < q.seq ∧ x.owner ≠ q.owner ∧ clash x.mode q.mode ∧
    ∃ p ∈ q.region, p ∈ x.region ∧ ¬ S.Holds q.owner p q.mode

/-- `q` cannot proceed without owner `o`. -/
def Blocks (S : LockSpace O P M) (q : Request O P M) (o : O) : Prop :=
  S.HeldBlocks clash q o ∨ ∃ x, S.QueueBlocks clash q x ∧ x.owner = o

/-- Nothing blocks the request. -/
def Eligible (S : LockSpace O P M) (q : Request O P M) : Prop := ∀ o, ¬ S.Blocks clash q o

/-- Some queued request of `a` is blocked by `b`. -/
def WaitsFor (S : LockSpace O P M) (a b : O) : Prop :=
  ∃ q ∈ S.queue, q.owner = a ∧ S.Blocks clash q b

/-- No owner waits, transitively, for itself. -/
def Acyclic (S : LockSpace O P M) : Prop := ∀ a, ¬ Relation.TransGen (S.WaitsFor clash) a a

/-- Coverage only weakens, requests only leave, and no queued request loses coverage that
already satisfied it. -/
structure Recedes (S S' : LockSpace O P M) : Prop where
  queue : S'.queue ⊆ S.queue
  mode : ∀ o p m, S'.mode o p = some m → ∃ m', S.mode o p = some m' ∧ m ≤ m'
  kept : ∀ q ∈ S'.queue, ∀ p ∈ q.region,
    S.Holds q.owner p q.mode → S'.Holds q.owner p q.mode

/-- An eligible request becomes coverage: its owner covers the region in exactly the
requested mode, and nothing else changes. The request either leaves the queue or was newer
than all of it. No other request of the owner loses coverage that satisfied it. -/
structure Grants (S S' : LockSpace O P M) (q : Request O P M) : Prop where
  eligible : S.Eligible clash q
  gained : ∀ p ∈ q.region, S'.mode q.owner p = some q.mode
  others : ∀ o p, o ≠ q.owner ∨ p ∉ q.region → S'.mode o p = S.mode o p
  queue : ∀ x, x ∈ S'.queue ↔ x ∈ S.queue ∧ x.seq ≠ q.seq
  unique : ∀ x ∈ S.queue, x.seq = q.seq → x = q
  ordered : q ∈ S.queue ∨ ∀ x ∈ S.queue, x.seq < q.seq
  kept : ∀ x ∈ S'.queue, x.owner = q.owner → ∀ p ∈ x.region, p ∈ q.region →
    S.Holds x.owner p x.mode → x.mode ≤ q.mode

variable {clash} {S S' : LockSpace O P M} {q : Request O P M}

/-- A relation contained in an acyclic one is acyclic. -/
theorem Acyclic.mono (h : S.Acyclic clash)
    (hw : ∀ a b, S'.WaitsFor clash a b → S.WaitsFor clash a b) : S'.Acyclic clash :=
  fun a ha => h a (Relation.TransGen.mono hw a a ha)

variable {a b : O}

/-- In an acyclic space no two owners wait for each other. -/
theorem Acyclic.not_mutual (h : S.Acyclic clash) (hab : S.WaitsFor clash a b)
    (hba : S.WaitsFor clash b a) : False :=
  h a (.tail (.single hab) hba)

section Recede

variable (hmono : ∀ a a' b : M, a ≤ a' → clash a b → clash a' b)
include hmono

/-- Receding coverage blocks nothing that was not blocked. -/
theorem Recedes.blocks (h : Recedes S S') (hq : q ∈ S'.queue) {o : O}
    (hb : S'.Blocks clash q o) : S.Blocks clash q o := by
  rcases hb with ⟨ho, p, hp, m, hm, hc⟩ | ⟨x, ⟨hx, hlt, hne, hc, p, hp, hpx, hn⟩, rfl⟩
  · obtain ⟨m', hm', hle⟩ := h.mode o p m hm
    exact .inl ⟨ho, p, hp, m', hm', hmono _ _ _ hle hc⟩
  · exact .inr ⟨x, ⟨h.queue hx, hlt, hne, hc, p, hp, hpx, fun hh => hn (h.kept q hq p hp hh)⟩, rfl⟩

/-- Receding coverage adds no wait-for edge. -/
theorem Recedes.waitsFor (h : Recedes S S') (hw : S'.WaitsFor clash a b) :
    S.WaitsFor clash a b := by
  obtain ⟨q, hq, ha, hb⟩ := hw
  exact ⟨q, h.queue hq, ha, h.blocks hmono hq hb⟩

end Recede

/-- A request that becomes eligible while coverage recedes has a point where coverage changed
or where a queued request left. -/
theorem Recedes.eligible_or (h : Recedes S S') (he : S'.Eligible clash q) : S.Eligible clash q ∨
      ∃ p ∈ q.region, (∃ o, S'.mode o p ≠ S.mode o p) ∨
        ∃ x ∈ S.queue, x ∉ S'.queue ∧ p ∈ x.region := by
  by_contra hcon
  rw [not_or] at hcon
  obtain ⟨hne, hnp⟩ := hcon
  apply hne
  intro o hb
  apply he o
  rcases hb with ⟨ho, p, hp, m, hm, hc⟩ | ⟨x, ⟨hx, hlt, hxo, hc, p, hp, hpx, hn⟩, rfl⟩
  · refine .inl ⟨ho, p, hp, m, ?_, hc⟩
    by_contra hm'
    exact hnp ⟨p, hp, .inl ⟨o, fun heq => hm' (heq.trans hm)⟩⟩
  refine .inr ⟨x, ⟨?_, hlt, hxo, hc, p, hp, hpx, ?_⟩, rfl⟩
  · by_contra hx'
    exact hnp ⟨p, hp, .inr ⟨x, hx, hx', hpx⟩⟩
  · rintro ⟨m, hm, hle⟩
    obtain ⟨m', hm', hle'⟩ := h.mode _ _ _ hm
    exact hn ⟨m', hm', le_trans hle hle'⟩

section Grant

variable (hsymm : ∀ a b : M, clash a b → clash b a)
variable (hmono : ∀ a a' b : M, a ≤ a' → clash a b → clash a' b)
include hsymm hmono

variable {y : Request O P M}

/-- Whoever is blocked by the freshly granted coverage was blocked by the same owner before:
by the coverage itself, or by the request standing ahead in the queue. -/
theorem Grants.blocks (h : Grants clash S S' q) (hy : y ∈ S'.queue) {o : O}
    (hb : S'.Blocks clash y o) : S.Blocks clash y o := by
  obtain ⟨hyS, hyq⟩ := (h.queue y).mp hy
  rcases hb with ⟨ho, p, hp, m, hm, hc⟩ | ⟨x, ⟨hx, hlt, hxo, hc, p, hp, hpx, hn⟩, rfl⟩
  · by_cases hop : o ≠ q.owner ∨ p ∉ q.region
    · rw [h.others o p hop] at hm
      exact .inl ⟨ho, p, hp, m, hm, hc⟩
    simp only [not_or, not_not] at hop
    obtain ⟨rfl, hpq⟩ := hop
    obtain rfl : q.mode = m := Option.some.inj ((h.gained p hpq).symm.trans hm)
    by_cases hold : S.Holds q.owner p q.mode
    · obtain ⟨m', hm', hle⟩ := hold
      exact .inl ⟨ho, p, hp, m', hm', hmono _ _ _ hle hc⟩
    -- the point is newly covered: queue order decides who was ahead of whom
    rcases Nat.lt_or_gt_of_ne hyq with hlt | hlt
    · refine absurd (.inr ⟨y, ⟨hyS, hlt, ?_, hsymm _ _ hc, p, hpq, hp, hold⟩, rfl⟩)
        (h.eligible y.owner)
      exact Ne.symm ho
    have hqS : q ∈ S.queue := by
      rcases h.ordered with hq | hq
      · exact hq
      · exact absurd (hq y hyS) (lt_asymm hlt)
    by_cases hyp : S.Holds y.owner p y.mode
    · obtain ⟨m', hm', hle⟩ := hyp
      refine absurd (.inl ⟨Ne.symm ho, p, hpq, m', hm', ?_⟩) (h.eligible y.owner)
      exact hmono _ _ _ hle (hsymm _ _ hc)
    · exact .inr ⟨q, ⟨hqS, hlt, ho, hc, p, hp, hpq, hyp⟩, rfl⟩
  · refine .inr ⟨x, ⟨((h.queue x).mp hx).1, hlt, hxo, hc, p, hp, hpx, ?_⟩, rfl⟩
    intro hh
    apply hn
    by_cases hop : y.owner ≠ q.owner ∨ p ∉ q.region
    · unfold Holds
      rw [h.others y.owner p hop]
      exact hh
    simp only [not_or, not_not] at hop
    obtain ⟨hyo, hpq⟩ := hop
    refine ⟨q.mode, ?_, h.kept y hy hyo p hp hpq hh⟩
    rw [hyo]
    exact h.gained p hpq

/-- A grant adds no wait-for edge. -/
theorem Grants.waitsFor (h : Grants clash S S' q) (hw : S'.WaitsFor clash a b) :
    S.WaitsFor clash a b := by
  obtain ⟨y, hy, ha, hb⟩ := hw
  exact ⟨y, ((h.queue y).mp hy).1, ha, h.blocks hsymm hmono hy hb⟩

/-- In an acyclic space a grant makes a queued request eligible only where it weakened the
owner's own coverage. -/
theorem Grants.eligible_or (h : Grants clash S S' q) (hac : S.Acyclic clash)
 (hy : y ∈ S'.queue) (he : S'.Eligible clash y) :
    S.Eligible clash y ∨ ∃ p ∈ y.region, p ∈ q.region ∧ S'.mode q.owner p ≠ S.mode q.owner p ∧
        ∃ m, S.mode q.owner p = some m ∧ clash m y.mode ∧ ¬ clash q.mode y.mode := by
  by_contra hcon
  rw [not_or] at hcon
  obtain ⟨hne, hnp⟩ := hcon
  obtain ⟨hyS, hyq⟩ := (h.queue y).mp hy
  apply hne
  intro o hb
  have hb0 := hb
  rcases hb with ⟨ho, p, hp, m, hm, hc⟩ | ⟨x, ⟨hx, hlt, hxo, hc, p, hp, hpx, hn⟩, rfl⟩
  · by_cases hop : o ≠ q.owner ∨ p ∉ q.region
    · exact he o (.inl ⟨ho, p, hp, m, (h.others o p hop).trans hm, hc⟩)
    simp only [not_or, not_not] at hop
    obtain ⟨rfl, hpq⟩ := hop
    have hg := h.gained p hpq
    by_cases hcq : clash q.mode y.mode
    · exact he q.owner (.inl ⟨ho, p, hp, q.mode, hg, hcq⟩)
    · refine hnp ⟨p, hp, hpq, ?_, m, hm, hc, hcq⟩
      rw [hg, hm]
      intro heq
      exact hcq (Option.some.inj heq ▸ hc)
  by_cases hxq : x.seq = q.seq
  · -- the granted request stood ahead of `y`; its coverage now excludes `y`
    obtain rfl := h.unique x hx hxq
    exact he x.owner (.inl ⟨hxo, p, hp, x.mode, h.gained p hpx, hc⟩)
  have hxS' : x ∈ S'.queue := (h.queue x).mpr ⟨hx, hxq⟩
  have hh : S'.Holds y.owner p y.mode := by
    by_contra hn'
    exact he x.owner (.inr ⟨x, ⟨hxS', hlt, hxo, hc, p, hp, hpx, hn'⟩, rfl⟩)
  by_cases hop : y.owner ≠ q.owner ∨ p ∉ q.region
  · unfold Holds at hh
    rw [h.others y.owner p hop] at hh
    exact hn hh
  -- the grant covered the contested point for another request of the same owner;
  -- then that owner and the owner of `x` were waiting for each other
  simp only [not_or, not_not] at hop
  obtain ⟨hyo, hpq⟩ := hop
  obtain ⟨m, hm, hle⟩ := hh
  rw [hyo, h.gained p hpq] at hm
  cases hm
  have hcq : clash x.mode q.mode := hsymm _ _ (hmono _ _ _ hle (hsymm _ _ hc))
  have hxqo : x.owner ≠ q.owner := hyo ▸ hxo
  have hnq : ¬ S.Holds q.owner p q.mode := by
    rintro ⟨m, hm, hle'⟩
    exact hn ⟨m, hyo ▸ hm, le_trans hle hle'⟩
  rcases Nat.lt_or_gt_of_ne hxq with hltq | hltq
  · exact h.eligible x.owner (.inr ⟨x, ⟨hx, hltq, hxqo, hcq, p, hpq, hpx, hnq⟩, rfl⟩)
  have hqS : q ∈ S.queue := by
    rcases h.ordered with hq | hq
    · exact hq
    · exact absurd (hq x hx) (lt_asymm hltq)
  by_cases hxp : S.Holds x.owner p x.mode
  · obtain ⟨m', hm', hle'⟩ := hxp
    exact h.eligible x.owner (.inl ⟨hxqo, p, hpq, m', hm', hmono _ _ _ hle' hcq⟩)
  · apply hac.not_mutual (a := q.owner) (b := x.owner)
    · exact ⟨y, hyS, hyo, hb0⟩
    · exact ⟨x, hx, rfl, .inr ⟨q, ⟨hqS, hltq, Ne.symm hxqo, hsymm _ _ hcq, p, hpx, hpq, hxp⟩, rfl⟩⟩

end Grant

/-- With the same coverage, a longer queue blocks more. -/
theorem Blocks.enqueue (hmode : ∀ o p, S'.mode o p = S.mode o p)
    (hqueue : ∀ x ∈ S.queue, x ∈ S'.queue) {o : O} (h : S.Blocks clash q o) :
    S'.Blocks clash q o := by
  rcases h with ⟨ho, p, hp, m, hm, hc⟩ | ⟨x, ⟨hx, hlt, hxo, hc, p, hp, hpx, hn⟩, rfl⟩
  · exact .inl ⟨ho, p, hp, m, (hmode _ _).trans hm, hc⟩
  · refine .inr ⟨x, ⟨hqueue x hx, hlt, hxo, hc, p, hp, hpx, ?_⟩, rfl⟩
    rintro ⟨m, hm, hle⟩
    exact hn ⟨m, (hmode _ _).symm.trans hm, hle⟩

/-- A request queued last adds exactly the edges from its owner to what blocks it. -/
theorem waitsFor_enqueue (hlast : ∀ x ∈ S.queue, x.seq < q.seq)
    (hmode : ∀ o p, S'.mode o p = S.mode o p) (hqueue : ∀ x, x ∈ S'.queue ↔ x ∈ S.queue ∨ x = q)
    (hw : S'.WaitsFor clash a b) : S.WaitsFor clash a b ∨ a = q.owner ∧ S.Blocks clash q b := by
  have hholds : ∀ o p m, S'.Holds o p m ↔ S.Holds o p m := by
    intro o p m
    simp only [Holds, hmode]
  have hblocks : ∀ y, (y ∈ S.queue ∨ y = q) → ∀ c, S'.Blocks clash y c → S.Blocks clash y c := by
    intro y hy c hb
    rcases hb with ⟨ho, p, hp, m, hm, hc⟩ | ⟨x, ⟨hx, hlt, hxo, hc, p, hp, hpx, hn⟩, rfl⟩
    · exact .inl ⟨ho, p, hp, m, (hmode _ _).symm.trans hm, hc⟩
    rcases (hqueue x).mp hx with hx | rfl
    · exact .inr ⟨x, ⟨hx, hlt, hxo, hc, p, hp, hpx, fun hh => hn ((hholds _ _ _).mpr hh)⟩, rfl⟩
    · -- the new request stands behind everything, itself included
      rcases hy with hy | rfl
      · exact absurd (hlast y hy) (lt_asymm hlt)
      · exact absurd hlt (lt_irrefl _)
  obtain ⟨y, hy, ha, hb⟩ := hw
  have hyq := (hqueue y).mp hy
  have hb' := hblocks y hyq b hb
  rcases hyq with hyS | rfl
  · exact .inl ⟨y, hyS, ha, hb'⟩
  · exact .inr ⟨ha.symm, hb'⟩

/-- Queueing keeps the space acyclic when no blocker of the request waits, transitively, for
its owner. -/
theorem Acyclic.enqueue (h : S.Acyclic clash) (hlast : ∀ x ∈ S.queue, x.seq < q.seq)
    (hmode : ∀ o p, S'.mode o p = S.mode o p) (hqueue : ∀ x, x ∈ S'.queue ↔ x ∈ S.queue ∨ x = q)
    (hfree : ∀ b, S.Blocks clash q b → ¬ Relation.ReflTransGen (S.WaitsFor clash) b q.owner) :
    S'.Acyclic clash := by
  -- a path that ends in the owner reaches it first by old edges only
  have hreach : ∀ c d, Relation.ReflTransGen (S'.WaitsFor clash) c d →
      Relation.ReflTransGen (S.WaitsFor clash) c d ∨
        Relation.ReflTransGen (S.WaitsFor clash) c q.owner := by
    intro c d hcd
    induction hcd using Relation.ReflTransGen.head_induction_on with
    | refl => exact .inl .refl
    | head hce _ ih =>
      rcases waitsFor_enqueue hlast hmode hqueue hce with hold | ⟨rfl, _⟩
      · exact ih.imp (.head hold) (.head hold)
      · exact .inr .refl
  -- a path either uses old edges only, or passes through the owner along a new edge
  have hsplit : ∀ a d, Relation.TransGen (S'.WaitsFor clash) a d →
      Relation.TransGen (S.WaitsFor clash) a d ∨
        ∃ b, S.Blocks clash q b ∧ Relation.ReflTransGen (S'.WaitsFor clash) a q.owner ∧
          Relation.ReflTransGen (S'.WaitsFor clash) b d := by
    intro a d had
    induction had with
    | single h =>
      rcases waitsFor_enqueue hlast hmode hqueue h with hold | ⟨rfl, hb⟩
      · exact .inl (.single hold)
      · exact .inr ⟨_, hb, .refl, .refl⟩
    | tail hac hcd ih =>
      rcases ih with ih | ⟨b, hb, hao, hbc⟩
      · rcases waitsFor_enqueue hlast hmode hqueue hcd with hold | ⟨rfl, hb⟩
        · exact .inl (.tail ih hold)
        · exact .inr ⟨_, hb, hac.to_reflTransGen, .refl⟩
      · exact .inr ⟨b, hb, hao, .tail hbc hcd⟩
  intro a ha
  rcases hsplit a a ha with hold | ⟨b, hb, hao, hba⟩
  · exact h a hold
  · rcases hreach b q.owner (hba.trans hao) with hbo | hbo
    · exact hfree b hb hbo
    · exact hfree b hb hbo

end LockSpace
end PortableFS.Base
