import PortableFS.Sequencer.Invariant

/-!
# Exclusion, order and progress of the sequencer

In every reachable state no two granted waiters share a key, the tables name exactly the granted
and the queued waiters, a key goes to no waiter while one of a lower ordinal is queued for it, and
no queued waiter is at the front of all its queues with all its keys free. Hence there is a
granted waiter whenever there is a queued one.
-/

namespace PortableFS.Sequencer

open Base.RankedQueue List Function

/-- The operation requeues this waiter. -/
def Op.Requeues (op : Op) (w : Wid) : Prop := ∃ deps, op = .requeue w deps

namespace MutationSequencer

variable {s s' : MutationSequencer} {w v : Wid} {x y : Waiter} {deps : MutationDependencies}

/-- The invariant between two operations: nobody is left eligible, and granted waiters are not
settled. -/
structure Settled (s : MutationSequencer) : Prop where
  inv : s.Inv
  calm : ∀ w, ¬s.Eligible w
  live : ∀ w x, s.pool w = some x → x.granted = true → x.settled = false

/-- What an operation does to the held keys: a key goes to a waiter only if no waiter of a lower
ordinal is left queued for it. A waiter that is requeued gets its keys anew. -/
def Fair (s s' : MutationSequencer) (again : Wid → Prop) : Prop :=
  ∀ key w, s'.held key = some w → (s.held key = some w ∧ ¬again w) ∨
    ∀ v ∈ s'.waiters, key ∈ s'.keysOf v → s'.ordOf w ≤ s'.ordOf v

variable {keys : List Key}

private theorem releaseEach_spec {readOnly : Bool} (hkeys : keys.Nodup)
    (h : s.releaseEach w readOnly keys = some s') :
    s'.waiters = s.waiters ∧ s'.claims = s.claims ∧ s'.pool = s.pool ∧
      ∀ key, s'.held key = if key ∈ keys then none else s.held key := by
  induction keys generalizing s with
  | nil =>
    cases h
    simp
  | cons key keys ih =>
    unfold releaseEach at h
    split at h
    · cases h
    split at h
    · cases h
    obtain ⟨hout, hkeys⟩ := nodup_cons.mp hkeys
    obtain ⟨hw, hc, hp, hh⟩ := ih hkeys h
    refine ⟨hw, hc, hp, fun k => ?_⟩
    rw [hh]
    by_cases hk : k = key
    · subst hk
      simp [hout]
    · simp [hk]

private theorem releaseKeys_spec {f : Waiter → Waiter} (h : s.Inv) (hx : s.pool w = some x)
    (hg : x.granted = true)
    (hord : (f x).ordinal = x.ordinal) (hrel : (s.setWaiter w f).releaseKeysLocked w x = some s') :
    Changed s s' w { f x with granted := false } ∧ s'.waiters = s.waiters.erase w ∧
      (∀ key, s'.claims key = (s.claims key).erase w) ∧
      ∀ key, s'.held key = if x.granted = true ∧ key ∈ x.keys then none else s.held key := by
  obtain ⟨herase, hclaims⟩ := h.erase_of_not_queued hx (h.not_queued hx hg)
  unfold releaseKeysLocked at hrel
  cases heach : (s.setWaiter w f).releaseEach w x.readOnly x.keys with
  | none =>
    rw [heach] at hrel
    cases hrel
  | some s₁ =>
    rw [heach] at hrel
    cases hrel
    obtain ⟨hw, hc, hp, hh⟩ := releaseEach_spec (h.nodup_keys hx) heach
    refine ⟨changed_of hx ?_ hord, hw.trans herase.symm, fun key => ?_, fun key => ?_⟩
    · simp only [setWaiter] at hp ⊢
      rw [hp, hx]
      simp
    · rw [hclaims]
      exact congrFun hc key
    · simp only [hg, true_and]
      exact hh key

variable {x' : Waiter} {s₁ : MutationSequencer}

private theorem Settled.live_grants (h : s.Settled)
    (hc : Changed s s₁ w x') (hg : x'.granted = false) (hgrants : Grants s₁ s') (v : Wid)
    (y : Waiter) (hy : s'.pool v = some y) (hgy : y.granted = true) : y.settled = false := by
  obtain ⟨z, hz, hs, hgz⟩ := hgrants.settled v y hy
  rw [hs]
  rcases hgz hgy with hgz | hsz
  · refine hc.all h.live (fun hg' => ?_) v z hz hgz
    rw [hg] at hg'
    cases hg'
  · exact hsz

private theorem Settled.left (h : s.Settled) (hx : s.pool w = some x)
 (hc : Changed s s₁ w x') (hq : x'.queued = false)
    (hg : x'.granted = false) (hkeys : x'.keys = x.keys) (hwaiters : s₁.waiters = s.waiters.erase w)
    (hclaims : ∀ key, s₁.claims key = (s.claims key).erase w)
    (hheld : ∀ key, s₁.held key = if x.granted = true ∧ key ∈ x.keys then none else s.held key) :
    (s₁.admitNext x.keys).Settled ∧ Fair s (s₁.admitNext x.keys) fun _ => False := by
  have hinv : s₁.Inv := h.inv.dropped hx hc hq hg (hkeys ▸ h.inv.ascending w x hx) hwaiters hclaims
    hheld
  have hcover : ∀ v, s₁.Eligible v → v ∈ s₁.addFrontCandidates [] x.keys := by
    intro v hv
    obtain ⟨key, hkey, hfree, hhead⟩ :=
      h.inv.eligible_dropped hx hc hq hclaims hheld h.calm hv
    exact hinv.mem_addFrontCandidates [] hkey hfree hhead
  obtain ⟨hinv', hgrants, hnone⟩ := hinv.grantCandidates hcover
  refine ⟨⟨hinv', hnone, h.live_grants hc hg hgrants⟩, fun key u hu => ?_⟩
  rcases hgrants.held key u hu with hold | hfair
  · left
    rw [hheld] at hold
    split at hold
    · cases hold
    · exact ⟨hold, id⟩
  · exact .inr hfair

/-- The flags that tell a waiter's place. -/
private def Same (x y : Waiter) : Prop :=
  y.keys = x.keys ∧ y.ordinal = x.ordinal ∧ y.queued = x.queued ∧ y.granted = x.granted ∧
    y.settled = x.settled

/-- Queues, held keys and the places of all waiters are the same. -/
private structure Alike (s s' : MutationSequencer) : Prop where
  waiters : s'.waiters = s.waiters
  claims : s'.claims = s.claims
  held : s'.held = s.held
  forth : ∀ w x, s.pool w = some x → ∃ y, s'.pool w = some y ∧ Same x y
  back : ∀ w y, s'.pool w = some y → ∃ x, s.pool w = some x ∧ Same x y

private theorem alike_of_pool (hw : s'.waiters = s.waiters) (hc : s'.claims = s.claims)
    (hh : s'.held = s.held) (hp : s'.pool = s.pool) : Alike s s' := by
  refine ⟨hw, hc, hh, fun w x hx => ⟨x, by rw [hp]; exact hx, rfl, rfl, rfl, rfl, rfl⟩,
    fun w y hy => ⟨y, by rw [← hp]; exact hy, rfl, rfl, rfl, rfl, rfl⟩⟩

private theorem Alike.map {β : Type} (h : Alike s s') {f : Waiter → β}
    (hf : ∀ x y, Same x y → f y = f x) (w : Wid) : (s'.pool w).map f = (s.pool w).map f := by
  cases hx : s.pool w with
  | some x =>
    obtain ⟨y, hy, hsame⟩ := h.forth w x hx
    rw [hy, Option.map_some, Option.map_some, hf x y hsame]
  | none =>
    cases hy : s'.pool w with
    | some y =>
      obtain ⟨x, hx', -⟩ := h.back w y hy
      rw [hx] at hx'
      cases hx'
    | none => rfl

private theorem Alike.keysOf (h : Alike s s') : s'.keysOf = s.keysOf := by
  funext w
  unfold MutationSequencer.keysOf
  rw [h.map fun _ _ hsame => hsame.1]

private theorem Alike.ordOf (h : Alike s s') : s'.ordOf = s.ordOf := by
  funext w
  unfold MutationSequencer.ordOf
  rw [h.map fun _ _ hsame => hsame.2.1]

private theorem Alike.settled (ha : Alike s s') (h : s.Settled) : s'.Settled where
  inv := by
    refine ⟨fun key => ?_, ?_, ?_, fun w => ?_, fun key w => ?_, fun w y hy hq => ?_, fun w y hy => ?_⟩
    · rw [ha.claims, ha.waiters, ha.keysOf]
      exact h.inv.claims key
    · rw [ha.waiters, ha.ordOf]
      exact h.inv.inOrder
    · rw [ha.waiters]
      exact h.inv.nodup
    · rw [ha.waiters, h.inv.queued]
      constructor
      · rintro ⟨x, hx, hq⟩
        obtain ⟨y, hy, -, -, hqy, -⟩ := ha.forth w x hx
        exact ⟨y, hy, hqy.trans hq⟩
      · rintro ⟨y, hy, hq⟩
        obtain ⟨x, hx, -, -, hqy, -⟩ := ha.back w y hy
        exact ⟨x, hx, hqy ▸ hq⟩
    · rw [ha.held, h.inv.held]
      constructor
      · rintro ⟨x, hx, hg, hk⟩
        obtain ⟨y, hy, hkeys, -, -, hgy, -⟩ := ha.forth w x hx
        exact ⟨y, hy, hgy.trans hg, hkeys ▸ hk⟩
      · rintro ⟨y, hy, hg, hk⟩
        obtain ⟨x, hx, hkeys, -, -, hgy, -⟩ := ha.back w y hy
        exact ⟨x, hx, hgy ▸ hg, hkeys ▸ hk⟩
    · obtain ⟨x, hx, -, -, hqy, hgy, hsy⟩ := ha.back w y hy
      rw [hgy, hsy]
      exact h.inv.phase w x hx (hqy ▸ hq)
    · obtain ⟨x, hx, hkeys, -⟩ := ha.back w y hy
      rw [hkeys]
      exact h.inv.ascending w x hx
  calm w := by
    rintro ⟨y, hy, hq, hfront⟩
    obtain ⟨x, hx, hkeys, -, hqy, -⟩ := ha.back w y hy
    refine h.calm w ⟨x, hx, hqy ▸ hq, fun key hk => ?_⟩
    rw [← ha.held, ← ha.claims]
    exact hfront key (hkeys ▸ hk)
  live w y hy hg := by
    obtain ⟨x, hx, -, -, -, hgy, hsy⟩ := ha.back w y hy
    rw [hsy]
    exact h.live w x hx (hgy ▸ hg)

private theorem Alike.fair (ha : Alike s s') : Fair s s' fun _ => False := by
  intro key w hw
  rw [ha.held] at hw
  exact .inl ⟨hw, id⟩

private theorem Settled.added (h : s.Settled) (hnew : s.pool w = none) (hq : x.queued = false)
    (hg : x.granted = false) (hk : x.keys.Pairwise (· < ·))
    (hwaiters : s'.waiters = s.waiters) (hclaims : s'.claims = s.claims) (hheld : s'.held = s.held)
    (hpool : s'.pool = update s.pool w (some x)) : s'.Settled := by
  have hc : Changed s s' w x := by
    refine ⟨hpool, fun y hy => ?_⟩
    rw [hnew] at hy
    cases hy
  have hqueued : ∀ v ∈ s.waiters, v ≠ w := by
    rintro v hv rfl
    obtain ⟨y, hy, -⟩ := (h.inv.queued v).mp hv
    rw [hnew] at hy
    cases hy
  have hordOf : ∀ v, v ≠ w → s'.ordOf v = s.ordOf v := by
    intro v hv
    unfold ordOf
    rw [hc.other hv]
  refine ⟨⟨fun key => ?_, ?_, ?_, fun v => ?_, fun key v => ?_, hc.all h.inv.phase fun hqx => ?_,
    hc.all h.inv.ascending hk⟩, ?_, hc.all h.live fun hgx => ?_⟩
  · rw [hclaims, hwaiters, h.inv.claims]
    apply filter_congr
    intro v hv
    rw [hc.keysOf_other (hqueued v hv)]
  · rw [hwaiters]
    refine h.inv.inOrder.imp_of_mem fun {a b} ha hb hab => ?_
    rw [hordOf a (hqueued a ha), hordOf b (hqueued b hb)]
    exact hab
  · rw [hwaiters]
    exact h.inv.nodup
  · rw [hwaiters, h.inv.queued]
    by_cases hv : v = w
    · subst hv
      rw [hc.self, hnew]
      simp [hq]
    · rw [hc.other hv]
  · rw [hheld, h.inv.held]
    by_cases hv : v = w
    · subst hv
      rw [hc.self, hnew]
      simp [hg]
    · rw [hc.other hv]
  · rw [hq] at hqx
    cases hqx
  · rintro v ⟨y, hy, hqy, hfront⟩
    rw [hheld, hclaims] at hfront
    exact h.calm v ⟨y, hc.other (hc.ne_of_queued hq hy hqy) ▸ hy, hqy, hfront⟩
  · rw [hg] at hgx
    cases hgx

private theorem Inv.eligible_insertLocked (h : s.Inv) (hx : s.pool w = some x)
    (hv : (s.insertLocked w).Eligible v) (hne : v ≠ w) : s.Eligible v := by
  obtain ⟨y, hy, hq, hfront⟩ := hv
  refine ⟨y, by rwa [(changed_insertLocked hx).other hne] at hy, hq, fun key hk => ?_⟩
  obtain ⟨hfree, hhead⟩ := hfront key hk
  refine ⟨hfree, ?_⟩
  change (updateAll s.claims (insertFromBack s.ordOf w) (s.keysOf w) key).head? = _ at hhead
  rw [keysOf_eq hx, updateAll_apply (h.nodup_keys hx), insertFromBack_eq (h.inOrder_claims key)]
    at hhead
  split at hhead
  · exact head_of_head_place (h.inOrder_claims key) hhead hne
  · exact hhead

section

variable (h : s.Settled)
include h

private theorem Settled.entered (hx : s.pool w = some x) (hq : x.queued = false)
    (hg : x.granted = false) (hs : x.settled = false)
    (hs' : s' = if (s.insertLocked w).eligibleLocked w then (s.insertLocked w).grantLocked w
      else s.insertLocked w) : s'.Settled ∧ Fair s s' fun _ => False := by
  have hinv := h.inv.insertLocked hx hq hg hs
  have hc := changed_insertLocked hx
  have hcover : ∀ v, (s.insertLocked w).Eligible v → v = w := by
    intro v hv
    by_contra hne
    exact h.calm v (h.inv.eligible_insertLocked hx hv hne)
  by_cases he : (s.insertLocked w).eligibleLocked w = true
  · rw [if_pos he] at hs'
    subst hs'
    have he := hinv.eligible_iff.mp he
    have hgrants := hinv.grants_grantLocked he
    refine ⟨⟨hinv.grantLocked he, fun v hv => ?_, h.live_grants hc hg hgrants⟩, fun key u hu => ?_⟩
    · obtain ⟨hne, hv⟩ := hinv.eligible_grantLocked he hv
      exact hne (hcover v hv)
    · rcases hgrants.held key u hu with hold | hfair
      · exact .inl ⟨hold, id⟩
      · exact .inr hfair
  · rw [if_neg he] at hs'
    subst hs'
    refine ⟨⟨hinv, fun v hv => ?_, h.live_grants hc hg (Grants.refl _)⟩,
      fun key u hu => .inl ⟨hu, id⟩⟩
    obtain rfl := hcover v hv
    exact he (hinv.eligible_iff.mpr hv)

private theorem Settled.enqueueFor {reserved : ℕ}
    (hop : s.enqueueFor w deps reserved = some s') : s'.Settled ∧ Fair s s' fun _ => False := by
  unfold MutationSequencer.enqueueFor at hop
  split at hop
  · cases hop
  next hstart =>
  have hnew : s.pool w = none := by
    rw [not_or, Option.not_isSome_iff_eq_none] at hstart
    exact hstart.2
  -- the ordinal is new or was reserved; nothing else depends on it
  have henter : ∀ (s₀ : MutationSequencer) (ordinal : ℕ), Alike s s₀ → s₀.pool w = none →
      let s₁ := { s₀ with
        pool := update s₀.pool w (some ⟨deps.keys, ordinal, false, false, false, false⟩) }
      s' = (if (s₁.insertLocked w).eligibleLocked w then (s₁.insertLocked w).grantLocked w
        else s₁.insertLocked w) → s'.Settled ∧ Fair s s' fun _ => False := by
    intro s₀ ordinal ha hnew₀ s₁ hs'
    have h₁ : s₁.Settled := (ha.settled h).added hnew₀ rfl rfl deps.ascending rfl rfl rfl rfl
    obtain ⟨hset, hfair⟩ := h₁.entered (update_self ..) rfl rfl rfl hs'
    refine ⟨hset, fun key u hu => ?_⟩
    have hheld : s₁.held = s.held := ha.held
    rw [← hheld]
    exact hfair key u hu
  split at hop
  · cases hop
  next ordinal s₀ hord =>
  have ha : Alike s s₀ ∧ s₀.pool w = none := by
    split at hord
    · unfold nextOrdinalLocked at hord
      split at hord
      · cases hord
      · obtain ⟨-, rfl⟩ := Prod.mk.inj (Option.some.inj hord)
        exact ⟨alike_of_pool rfl rfl rfl rfl, hnew⟩
    · obtain ⟨-, rfl⟩ := Prod.mk.inj (Option.some.inj hord)
      exact ⟨alike_of_pool rfl rfl rfl rfl, hnew⟩
  exact henter s₀ ordinal ha.1 ha.2 (Option.some.inj hop).symm

private theorem Settled.requeue (hop : s.requeue w deps = some s') :
    s'.Settled ∧ Fair s s' (· = w) := by
  unfold MutationSequencer.requeue at hop
  split at hop
  · cases hop
  next x hx =>
  split at hop
  · cases hop
  next hstart =>
  simp only [not_or, not_not] at hstart
  obtain ⟨-, hsettled, hg⟩ := hstart
  have hq := h.inv.not_queued hx hg
  split at hop
  · cases hop
  next s₁ hrel =>
  have hid : s.setWaiter w id = s := by
    unfold setWaiter
    rw [Option.map_id, id, update_eq_self]
  rw [← hid] at hrel
  obtain ⟨hc₁, hw₁, hcl₁, hh₁⟩ := releaseKeys_spec h.inv hx hg rfl hrel
  have hinv₁ : s₁.Inv := h.inv.dropped hx hc₁ hq rfl (h.inv.ascending w x hx) hw₁ hcl₁ hh₁
  generalize hs₂ : s₁.setWaiter w (fun x => { x with keys := deps.keys }) = s₂ at hop
  have hc₂ : Changed s s₂ w { x with granted := false, keys := deps.keys } := by
    refine changed_of hx ?_ rfl
    subst hs₂
    change update s₁.pool w ((s₁.pool w).map _) = _
    rw [hc₁.self, hc₁.pool, update_idem]
    rfl
  have hw₂ : s₂.waiters = s.waiters.erase w := by
    subst hs₂
    exact hw₁
  have hcl₂ : ∀ key, s₂.claims key = (s.claims key).erase w := by
    subst hs₂
    exact hcl₁
  have hh₂ : ∀ key, s₂.held key =
      if x.granted = true ∧ key ∈ x.keys then none else s.held key := by
    subst hs₂
    exact hh₁
  have hsame : s₂.held = s₁.held ∧ s₂.claims = s₁.claims := by
    subst hs₂
    exact ⟨rfl, rfl⟩
  have hinv₂ : s₂.Inv := h.inv.dropped hx hc₂ hq rfl deps.ascending hw₂ hcl₂ hh₂
  have hset : x.settled = false := Bool.eq_false_of_not_eq_true hsettled
  have hinv₃ := hinv₂.insertLocked hc₂.self hq rfl hset
  have hc₃ := changed_insertLocked hc₂.self
  have hcover : ∀ v, (s₂.insertLocked w).Eligible v →
      v ∈ (s₂.insertLocked w).addCandidate (s₁.addFrontCandidates [] x.keys) w := by
    intro v hv
    by_cases hvw : v = w
    · subst hvw
      exact mem_addCandidate _ hc₃.self hset rfl
    obtain ⟨key, hkey, hfree, hhead⟩ := h.inv.eligible_dropped hx hc₂ hq hcl₂ hh₂ h.calm
      (hinv₂.eligible_insertLocked hc₂.self hv hvw)
    rw [hsame.1] at hfree
    rw [hsame.2] at hhead
    exact subset_addCandidate _ _ (hinv₁.mem_addFrontCandidates [] hkey hfree hhead)
  obtain ⟨hinv', hgrants, hnone⟩ := hinv₃.grantCandidates hcover
  cases hop
  refine ⟨⟨hinv', hnone, fun v y hy hgy => ?_⟩, fun key u hu => ?_⟩
  · obtain ⟨z, hz, hsz, hgz⟩ := hgrants.settled v y hy
    rw [hsz]
    rcases hgz hgy with hgz | hfine
    · exact hc₃.all (hc₂.all h.live fun _ => hset) (fun _ => hset) v z hz hgz
    · exact hfine
  rcases hgrants.held key u hu with hold | hfair
  · left
    change s₂.held key = some u at hold
    rw [hh₂] at hold
    split at hold
    · cases hold
    next hout =>
    refine ⟨hold, ?_⟩
    rintro rfl
    obtain ⟨y, hy, hyg, hyk⟩ := (h.inv.held key u).mp hold
    rw [hx] at hy
    cases hy
    exact hout ⟨hyg, hyk⟩
  · exact .inr hfair

private theorem Settled.settleGranted (hx : s.pool w = some x) (hg : x.granted = true)
    (hop : ((s.setWaiter w fun x => { x with settled := true }).releaseKeysLocked w x).map
      (·.admitNext x.keys) = some s') : s'.Settled ∧ Fair s s' fun _ => False := by
  have hq := h.inv.not_queued hx hg
  obtain ⟨s₁, hrel, rfl⟩ := Option.map_eq_some_iff.mp hop
  obtain ⟨hc, hw, hcl, hh⟩ := releaseKeys_spec h.inv hx hg rfl hrel
  exact h.left hx hc hq rfl rfl hw hcl hh

private theorem Settled.abandon (hop : s.abandon w = some s') :
    s'.Settled ∧ Fair s s' fun _ => False := by
  unfold MutationSequencer.abandon at hop
  split at hop
  · cases hop
  next x hx =>
  split at hop
  · cases hop
    exact ⟨h, (alike_of_pool rfl rfl rfl rfl).fair⟩
  split at hop
  · next hg => exact h.settleGranted hx hg hop
  next hg =>
  have hg := Bool.eq_false_of_not_eq_true hg
  have hheld : ∀ key, s.held key =
      if x.granted = true ∧ key ∈ x.keys then none else s.held key := by
    intro key
    rw [if_neg]
    rw [hg]
    simp
  split at hop
  · cases hop
    have hkeys : (s.setWaiter w fun x => { x with settled := true }).keysOf w = s.keysOf w := by
      simp only [keysOf, setWaiter, update_self, hx, Option.map_some]
    have hc : Changed s ((s.setWaiter w fun x => { x with settled := true }).removeLocked w) w
        { x with settled := true, queued := false } := by
      refine changed_of hx ?_ rfl
      simp only [removeLocked, setWaiter, hx, Option.map_some, update_self, update_idem]
    refine h.left hx hc rfl hg rfl rfl (fun key => ?_) hheld
    have hclaims := h.inv.claims_removeLocked w key
    rw [← hkeys] at hclaims
    exact hclaims
  · next hq =>
    cases hop
    have hq := Bool.eq_false_of_not_eq_true hq
    obtain ⟨herase, hclaims⟩ := h.inv.erase_of_not_queued hx hq
    have hc : Changed s (s.setWaiter w fun x => { x with settled := true }) w
        { x with settled := true } := by
      refine changed_of hx ?_ rfl
      simp only [setWaiter, hx, Option.map_some]
    exact h.left hx hc hq hg rfl herase.symm (fun key => (hclaims key).symm) hheld

private theorem Settled.release (hop : s.release w = some s') :
    s'.Settled ∧ Fair s s' fun _ => False := by
  unfold MutationSequencer.release at hop
  split at hop
  · cases hop
  next x hx =>
  split at hop
  · cases hop
  · next hstart =>
    simp only [not_or, not_not] at hstart
    exact h.settleGranted hx hstart.2 hop

private theorem Settled.settle (hop : s.settle w = some s') :
    s'.Settled ∧ Fair s s' fun _ => False := by
  unfold MutationSequencer.settle at hop
  split at hop
  · cases hop
  next x hx =>
  split at hop
  · cases hop
    exact ⟨h, (alike_of_pool rfl rfl rfl rfl).fair⟩
  split at hop
  · cases hop
  · next hg =>
    simp only [not_not] at hg
    exact h.settleGranted hx hg hop

end

/-- The keys of an expansion: the old ones are among them, nobody else holds one, and nobody of a
lower ordinal is queued for a new one. -/
private theorem expands_spec {own : List Key} (h : s.expands w own keys = true) :
    own ⊆ keys ∧ ∀ key ∈ keys, (s.held key = none ∨ s.held key = some w) ∧
      (key ∈ own ∨ ∀ v, (s.claims key).head? = some v → s.ordOf w ≤ s.ordOf v) := by
  induction keys generalizing own with
  | nil =>
    unfold expands at h
    rw [decide_eq_true_eq] at h
    subst h
    exact ⟨.refl _, nofun⟩
  | cons key keys ih =>
    unfold expands at h
    split at h
    · cases h
    split at h
    · cases h
    next hheld =>
    have hfree : s.held key = none ∨ s.held key = some w := by
      by_contra hnot
      exact hheld (not_or.mp hnot)
    split at h
    · next hhead =>
      obtain ⟨rest, rfl⟩ : ∃ rest, own = key :: rest := by
        cases own with
        | nil => cases hhead
        | cons k rest => exact ⟨rest, by rw [Option.some.inj hhead]⟩
      obtain ⟨hsub, hall⟩ := ih h
      refine ⟨cons_subset_cons key hsub, fun k hk => ?_⟩
      rcases mem_cons.mp hk with rfl | hk
      · exact ⟨hfree, .inl mem_cons_self⟩
      · obtain ⟨hf, ho⟩ := hall k hk
        exact ⟨hf, ho.imp_left (mem_cons_of_mem _)⟩
    · split at h
      · cases h
      next hord =>
      obtain ⟨hsub, hall⟩ := ih h
      refine ⟨subset_cons_of_subset key hsub, fun k hk => ?_⟩
      rcases mem_cons.mp hk with rfl | hk
      · refine ⟨hfree, .inr fun v hv => ?_⟩
        rw [hv] at hord
        simpa using hord
      · exact hall k hk

private theorem Settled.tryExpand (h : s.Settled) {ok : Bool}
    (hop : s.tryExpand w deps = some (ok, s')) : s'.Settled ∧ Fair s s' fun _ => False := by
  unfold MutationSequencer.tryExpand at hop
  split at hop
  · cases hop
  next x hx =>
  split at hop
  · obtain ⟨-, rfl⟩ := Prod.mk.inj (Option.some.inj hop)
    exact ⟨h, (alike_of_pool rfl rfl rfl rfl).fair⟩
  next hstart =>
  simp only [not_or, not_not] at hstart
  obtain ⟨-, hset, hg, hexp⟩ := hstart
  obtain ⟨hsub, hall⟩ := expands_spec hexp
  have hq := h.inv.not_queued hx hg
  obtain ⟨herase, hclaims⟩ := h.inv.erase_of_not_queued hx hq
  obtain ⟨-, hs'⟩ := Prod.mk.inj (Option.some.inj hop)
  have hc : Changed s s' w { x with keys := deps.keys } := by
    refine changed_of hx ?_ rfl
    subst hs'
    simp only [setWaiter, hx, Option.map_some]
  have hheld : ∀ key, s'.held key = if key ∈ deps.keys then some w else s.held key := by
    intro key
    subst hs'
    change updateAll s.held (fun _ => some w) deps.keys key = _
    rw [updateAll_apply (nodup_of_ascending deps.ascending)]
  have hcl : ∀ key, s'.claims key = (s.claims key).erase w := by
    intro key
    subst hs'
    exact (hclaims key).symm
  have hw : s'.waiters = s.waiters.erase w := by
    subst hs'
    exact herase.symm
  refine ⟨⟨?_, fun v hv => ?_, hc.all h.live fun _ => Bool.eq_false_of_not_eq_true hset⟩,
    fun key u hu => ?_⟩
  · exact h.inv.holds hx hc hq hg deps.ascending (fun key hk => (hall key hk).1) (fun _ => hsub) hw
      hcl hheld
  · -- keys only get taken, so nobody becomes eligible
    obtain ⟨y, hy, hyq, hyfront⟩ := hv
    have hne := hc.ne_of_queued hq hy hyq
    refine h.calm v ⟨y, by rwa [hc.other hne] at hy, hyq, fun key hk => ?_⟩
    obtain ⟨hfree, hhead⟩ := hyfront key hk
    rw [hheld] at hfree
    rw [hcl, hclaims] at hhead
    split at hfree
    · cases hfree
    · exact ⟨hfree, hhead⟩
  rw [hheld] at hu
  split at hu
  · next hin =>
    cases hu
    rcases (hall key hin).2 with hold | hhead
    · exact .inl ⟨(h.inv.held key w).mpr ⟨x, hx, hg, hold⟩, id⟩
    right
    intro v hv hk
    have hvw : v ≠ w := by
      rintro rfl
      rw [hw, h.inv.nodup.mem_erase_iff] at hv
      exact hv.1 rfl
    rw [hc.keysOf_other hvw] at hk
    rw [hc.ordOf hx]
    have hin' : v ∈ s.claims key := h.inv.mem_claims.mpr ⟨by
      rw [hw, herase] at hv
      exact hv, hk⟩
    cases hfirst : (s.claims key).head? with
    | none =>
      rw [List.head?_eq_none_iff.mp hfirst] at hin'
      exact absurd hin' not_mem_nil
    | some first =>
      exact (hhead first hfirst).trans ((h.inv.inOrder_claims key).head_le hfirst hin')
  · exact .inl ⟨hu, id⟩

private theorem alike_readOnly (s : MutationSequencer) (w : Wid) :
    Alike s (s.setWaiter w fun x => { x with readOnly := true }) := by
  refine ⟨rfl, rfl, rfl, fun v x hx => ?_, fun v y hy => ?_⟩
  · by_cases hv : v = w
    · subst hv
      refine ⟨{ x with readOnly := true }, ?_, rfl, rfl, rfl, rfl, rfl⟩
      simp only [setWaiter, update_self, hx, Option.map_some]
    · refine ⟨x, ?_, rfl, rfl, rfl, rfl, rfl⟩
      simp only [setWaiter, update_of_ne hv, hx]
  · by_cases hv : v = w
    · subst hv
      simp only [setWaiter, update_self] at hy
      obtain ⟨x, hx, rfl⟩ := Option.map_eq_some_iff.mp hy
      exact ⟨x, hx, rfl, rfl, rfl, rfl, rfl⟩
    · simp only [setWaiter, update_of_ne hv] at hy
      exact ⟨y, hy, rfl, rfl, rfl, rfl, rfl⟩

private theorem alike_releaseSnapshot {id : ℕ} (h : s.releaseSnapshot id = some s') :
    Alike s s' := by
  unfold releaseSnapshot at h
  split at h
  · cases h
  split at h
  · cases h
    exact alike_of_pool rfl rfl rfl rfl
  split at h
  · cases h
  · cases h
    exact alike_of_pool rfl rfl rfl rfl

private theorem Fair.imp {p q : Wid → Prop} (h : Fair s s' p) (hpq : ∀ w, q w → p w) :
    Fair s s' q := by
  intro key w hw
  rcases h key w hw with ⟨hold, hnot⟩ | hfair
  · exact .inl ⟨hold, fun hq => hnot (hpq w hq)⟩
  · exact .inr hfair

/-- One operation keeps the invariant and hands keys out in order. -/
theorem Settled.next (h : s.Settled) {op : Op} (hop : s.next op = some s') :
    s'.Settled ∧ Fair s s' op.Requeues := by
  have halike : Alike s s' → s'.Settled ∧ Fair s s' fun _ => False :=
    fun ha => ⟨ha.settled h, ha.fair⟩
  have hplain : (s'.Settled ∧ Fair s s' fun _ => False) → (∀ w, ¬op.Requeues w) →
      s'.Settled ∧ Fair s s' op.Requeues :=
    fun hs hnot => ⟨hs.1, hs.2.imp hnot⟩
  cases op with
  | requeue w deps =>
    obtain ⟨hs, hfair⟩ := h.requeue hop
    refine ⟨hs, hfair.imp ?_⟩
    rintro v ⟨deps', heq⟩
    injection heq with hw
    exact hw.symm
  | reserve =>
    refine hplain (halike ?_) (by rintro w ⟨_, ⟨⟩⟩)
    obtain ⟨⟨_, s₁⟩, hnext, rfl⟩ := Option.map_eq_some_iff.mp hop
    unfold nextOrdinalLocked at hnext
    split at hnext
    · cases hnext
    · obtain ⟨-, rfl⟩ := Prod.mk.inj (Option.some.inj hnext)
      exact alike_of_pool rfl rfl rfl rfl
  | enqueue w deps reserved => exact hplain (h.enqueueFor hop) (by rintro v ⟨_, ⟨⟩⟩)
  | abandon w => exact hplain (h.abandon hop) (by rintro v ⟨_, ⟨⟩⟩)
  | release w => exact hplain (h.release hop) (by rintro v ⟨_, ⟨⟩⟩)
  | settle w => exact hplain (h.settle hop) (by rintro v ⟨_, ⟨⟩⟩)
  | readOnly w =>
    cases hop
    exact hplain (halike (alike_readOnly s w)) (by rintro v ⟨_, ⟨⟩⟩)
  | tryExpand w deps =>
    obtain ⟨⟨ok, s₁⟩, hexp, rfl⟩ := Option.map_eq_some_iff.mp hop
    exact hplain (h.tryExpand hexp) (by rintro v ⟨_, ⟨⟩⟩)
  | snapshot id deps =>
    refine hplain (halike ?_) (by rintro w ⟨_, ⟨⟩⟩)
    change s.snapshot id deps = some s' at hop
    unfold MutationSequencer.snapshot at hop
    split at hop
    · cases hop
    · cases hop
      exact alike_of_pool rfl rfl rfl rfl
  | unchanged id =>
    refine hplain (halike ?_) (by rintro w ⟨_, ⟨⟩⟩)
    obtain ⟨⟨ok, s₁⟩, hsame, rfl⟩ := Option.map_eq_some_iff.mp hop
    unfold MutationSequencer.unchanged at hsame
    split at hsame
    · cases hsame
    · obtain ⟨s₂, hrel, heq⟩ := Option.map_eq_some_iff.mp hsame
      obtain ⟨-, rfl⟩ := Prod.mk.inj heq
      exact alike_releaseSnapshot hrel
  | releaseSnapshot id =>
    exact hplain (halike (alike_releaseSnapshot hop)) (by rintro w ⟨_, ⟨⟩⟩)

theorem settled_empty : MutationSequencer.empty.Settled := by
  refine ⟨inv_empty, ?_, fun w x hx => by cases hx⟩
  rintro w ⟨x, hx, -⟩
  cases hx

theorem Reachable.settled (h : s.Reachable) : s.Settled := by
  induction h with
  | empty => exact settled_empty
  | next _ op hop ih => exact (ih.next hop).1

/-- No two granted waiters share a key; the table of held keys and the queues name exactly the
granted and the queued waiters, the queues in order of ordinals; a waiter has all its keys or none;
and no operation gives a key to a waiter while one of a lower ordinal stays queued for it. -/
theorem Reachable.exclusion (h : s.Reachable) :
    (∀ v w x y, v ≠ w → s.pool v = some x → s.pool w = some y → x.granted = true →
      y.granted = true → ∀ key ∈ x.keys, key ∉ y.keys) ∧
    (∀ key w, s.held key = some w ↔ ∃ x, s.pool w = some x ∧ x.granted = true ∧ key ∈ x.keys) ∧
    (∀ key w, w ∈ s.claims key ↔ ∃ x, s.pool w = some x ∧ x.queued = true ∧ key ∈ x.keys) ∧
    (∀ key, (s.claims key).Nodup ∧ InOrder s.ordOf (s.claims key)) ∧
    (∀ w x, s.pool w = some x → (x.granted = true ∧ ∀ key ∈ x.keys, s.held key = some w) ∨
        (x.granted = false ∧ ∀ key, s.held key ≠ some w)) ∧
    (∀ w x, s.pool w = some x → x.queued = true → x.granted = false ∧ x.settled = false) ∧
    ∀ op s', s.next op = some s' → Fair s s' op.Requeues := by
  have hs := h.settled
  have hinv := hs.inv
  refine ⟨?_, hinv.held, fun key w => ?_, fun key => ⟨?_, hinv.inOrder_claims key⟩, ?_, hinv.phase,
    fun op s' hop => (hs.next hop).2⟩
  · intro v w x y hne hx hy hgx hgy key hkx hky
    have hv := (hinv.held key v).mpr ⟨x, hx, hgx, hkx⟩
    have hw := (hinv.held key w).mpr ⟨y, hy, hgy, hky⟩
    rw [hv] at hw
    exact hne (Option.some.inj hw)
  · rw [hinv.mem_claims, hinv.queued]
    constructor
    · rintro ⟨⟨x, hx, hq⟩, hk⟩
      exact ⟨x, hx, hq, keysOf_eq hx ▸ hk⟩
    · rintro ⟨x, hx, hq, hk⟩
      exact ⟨⟨x, hx, hq⟩, keysOf_eq hx ▸ hk⟩
  · rw [hinv.claims]
    exact hinv.nodup.filter _
  intro w x hx
  cases hg : x.granted with
  | true => exact .inl ⟨rfl, fun key hk => (hinv.held key w).mpr ⟨x, hx, hg, hk⟩⟩
  | false =>
    refine .inr ⟨rfl, fun key hheld => ?_⟩
    obtain ⟨y, hy, hgy, -⟩ := (hinv.held key w).mp hheld
    rw [hx] at hy
    cases hy
    rw [hg] at hgy
    cases hgy

/-- One inode. -/
private def inode (last : UInt8) : MutationDependencies :=
  ⟨[105 :: List.replicate 15 0 ++ [last]], List.pairwise_singleton _ _⟩

private theorem contended :
    ∃ s : MutationSequencer, s.Reachable ∧ s.held ((inode 1).keys.headD []) = some 0 ∧
      s.waiters = [1] := by
  have hrun : ∃ s₁ s₂, MutationSequencer.empty.next (.enqueue 0 (inode 1) 0) = some s₁ ∧
      s₁.next (.enqueue 1 (inode 1) 0) = some s₂ ∧ s₂.held ((inode 1).keys.headD []) = some 0 ∧
      s₂.waiters = [1] :=
    ⟨_, _, rfl, rfl, by decide +kernel, by decide +kernel⟩
  obtain ⟨s₁, s₂, h₁, h₂, hheld, hqueued⟩ := hrun
  exact ⟨s₂, (Reachable.empty.next _ h₁).next _ h₂, hheld, hqueued⟩

/-- The holder of an inode and the waiter queued for it stay apart. -/
theorem exclusion_contended : ∃ s : MutationSequencer, s.waiters = [1] ∧
    ∀ key w, s.held key = some w ↔ ∃ x, s.pool w = some x ∧ x.granted = true ∧ key ∈ x.keys := by
  obtain ⟨s, hreach, -, hqueued⟩ := contended
  exact ⟨s, hqueued, (Reachable.exclusion hreach).2.1⟩

/-- A queued waiter waits for another: that one holds one of its keys, or stands before it in the
queue of one. -/
def WaitsFor (s : MutationSequencer) (w v : Wid) : Prop :=
  w ∈ s.waiters ∧ ∃ key ∈ s.keysOf w, s.held key = some v ∨ [v, w].Sublist (s.claims key)

end MutationSequencer

end PortableFS.Sequencer
