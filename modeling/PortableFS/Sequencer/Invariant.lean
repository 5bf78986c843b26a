import PortableFS.Sequencer.Model

/-!
# What every operation of the sequencer keeps

The global list and the queues of the keys name the queued waiters, in one order; the table of
held keys names the granted ones. A waiter enters a queue, leaves it, is granted or gives up its
keys; each of the four keeps this, and every operation is a sequence of them.
-/

namespace PortableFS.Sequencer

open Base.RankedQueue List Function

namespace MutationSequencer

variable {s s' : MutationSequencer} {w v : Wid} {x y : Waiter}

/-- The invariant. -/
structure Inv (s : MutationSequencer) : Prop where
  claims : ∀ key, s.claims key = s.waiters.filter fun w => decide (key ∈ s.keysOf w)
  inOrder : InOrder s.ordOf s.waiters
  nodup : s.waiters.Nodup
  queued : ∀ w, w ∈ s.waiters ↔ ∃ x, s.pool w = some x ∧ x.queued = true
  held : ∀ key w, s.held key = some w ↔
    ∃ x, s.pool w = some x ∧ x.granted = true ∧ key ∈ x.keys
  phase : ∀ w x, s.pool w = some x → x.queued = true → x.granted = false ∧ x.settled = false
  ascending : ∀ w x, s.pool w = some x → x.keys.Pairwise (· < ·)

theorem inv_empty : MutationSequencer.empty.Inv where
  claims _ := rfl
  inOrder := List.Pairwise.nil
  nodup := nodup_nil
  queued w := by simp [MutationSequencer.empty]
  held key w := by simp [MutationSequencer.empty]
  phase w x h := by cases h
  ascending w x h := by cases h

theorem keysOf_eq (h : s.pool w = some x) : s.keysOf w = x.keys := by
  unfold keysOf
  rw [h]
  rfl

theorem ordOf_eq (h : s.pool w = some x) : s.ordOf w = x.ordinal := by
  unfold ordOf
  rw [h]
  rfl

variable {keys : List Key}

theorem nodup_of_ascending (h : keys.Pairwise (· < ·)) : keys.Nodup := by
  refine h.imp ?_
  rintro a b hlt rfl
  exact List.lt_irrefl a hlt

theorem Inv.nodup_keys (h : s.Inv) (hx : s.pool w = some x) : x.keys.Nodup :=
  nodup_of_ascending (h.ascending w x hx)

variable {key : Key}

/-- The members of the queue of a key. -/
theorem Inv.mem_claims (h : s.Inv) : w ∈ s.claims key ↔ w ∈ s.waiters ∧ key ∈ s.keysOf w := by
  rw [h.claims, mem_filter, decide_eq_true_eq]

theorem Inv.inOrder_claims (h : s.Inv) (key : Key) : InOrder s.ordOf (s.claims key) := by
  rw [h.claims]
  exact h.inOrder.filter _

/-- A granted waiter is not queued. -/
theorem Inv.not_queued (h : s.Inv) (hx : s.pool w = some x) (hg : x.granted = true) :
    x.queued = false := by
  by_contra hq
  have hfree := (h.phase w x hx (Bool.eq_true_of_not_eq_false hq)).1
  rw [hg] at hfree
  cases hfree

theorem Inv.not_mem_waiters (h : s.Inv) (hx : s.pool w = some x) (hq : x.queued = false) :
    w ∉ s.waiters := by
  intro hin
  obtain ⟨y, hy, hyq⟩ := (h.queued w).mp hin
  rw [hx] at hy
  cases hy
  rw [hq] at hyq
  cases hyq

/-- One waiter changed, and not its ordinal. -/
structure Changed (s s' : MutationSequencer) (w : Wid) (x' : Waiter) : Prop where
  pool : s'.pool = update s.pool w (some x')
  ordinal : ∀ x, s.pool w = some x → x'.ordinal = x.ordinal

variable {x' : Waiter}

theorem changed_of (hx : s.pool w = some x) (hpool : s'.pool = update s.pool w (some x'))
    (hord : x'.ordinal = x.ordinal) : Changed s s' w x' := by
  refine ⟨hpool, fun y hy => ?_⟩
  rw [hx] at hy
  rw [← Option.some.inj hy, hord]

section

variable (h : Changed s s' w x')
include h

theorem Changed.self : s'.pool w = some x' := by
  rw [h.pool, update_self]

theorem Changed.other (hv : v ≠ w) : s'.pool v = s.pool v := by
  rw [h.pool, update_of_ne hv]

/-- A waiter of the new pool is the changed one, or another that did not change. -/
theorem Changed.cases (hy : s'.pool v = some y) :
    v = w ∧ y = x' ∨ v ≠ w ∧ s.pool v = some y := by
  by_cases hv : v = w
  · subst hv
    rw [h.self] at hy
    exact .inl ⟨rfl, (Option.some.inj hy).symm⟩
  · exact .inr ⟨hv, h.other hv ▸ hy⟩

theorem Changed.all {P : Waiter → Prop} (hall : ∀ v y, s.pool v = some y → P y) (hx' : P x') :
    ∀ v y, s'.pool v = some y → P y := by
  intro v y hy
  rcases h.cases hy with ⟨-, rfl⟩ | ⟨-, hy⟩
  · exact hx'
  · exact hall v y hy

theorem Changed.ne_of_queued (hq : x'.queued = false) (hy : s'.pool v = some y)
    (hyq : y.queued = true) : v ≠ w := by
  rcases h.cases hy with ⟨-, rfl⟩ | ⟨hv, -⟩
  · rw [hq] at hyq
    cases hyq
  · exact hv

theorem Changed.keysOf_other (hv : v ≠ w) : s'.keysOf v = s.keysOf v := by
  unfold keysOf
  rw [h.other hv]

theorem Changed.ordOf (hx : s.pool w = some x) : s'.ordOf = s.ordOf := by
  funext v
  by_cases hv : v = w
  · subst hv
    rw [ordOf_eq h.self, ordOf_eq hx, h.ordinal x hx]
  · unfold MutationSequencer.ordOf
    rw [h.other hv]

end

section

variable (h : s.Inv)
include h

private theorem claims_erase (hc : Changed s s' w x') (hwaiters : s'.waiters = s.waiters.erase w)
    (hclaims : ∀ key, s'.claims key = (s.claims key).erase w) (key : Key) :
    s'.claims key = s'.waiters.filter fun v => decide (key ∈ s'.keysOf v) := by
  rw [hclaims, hwaiters, h.claims, (h.nodup.filter _).erase_eq_filter, h.nodup.erase_eq_filter,
    filter_filter, filter_filter]
  apply filter_congr
  intro v _
  by_cases hv : v = w
  · simp [hv]
  · rw [hc.keysOf_other hv, Bool.and_comm]

section

variable (hx : s.pool w = some x) (hc : Changed s s' w x')
include hx hc

private theorem Inv.unqueued (hq : x'.queued = false) (hk : x'.keys.Pairwise (· < ·))
    (hwaiters : s'.waiters = s.waiters.erase w)
    (hclaims : ∀ key, s'.claims key = (s.claims key).erase w)
    (hheld : ∀ key, s'.held key = some w ↔ x'.granted = true ∧ key ∈ x'.keys)
    (hother : ∀ key v, v ≠ w → (s'.held key = some v ↔ s.held key = some v)) : s'.Inv where
  claims := claims_erase h hc hwaiters hclaims
  inOrder := by
    rw [hwaiters, hc.ordOf hx]
    exact h.inOrder.sublist erase_sublist
  nodup := by
    rw [hwaiters]
    exact h.nodup.erase w
  queued v := by
    rw [hwaiters, h.nodup.mem_erase_iff]
    by_cases hv : v = w
    · subst hv
      rw [hc.self]
      simp [hq]
    · rw [hc.other hv, h.queued]
      simp [hv]
  held key v := by
    by_cases hv : v = w
    · subst hv
      rw [hc.self, hheld]
      simp
    · rw [hc.other hv, hother key v hv, h.held]
  phase := hc.all h.phase fun hqueued => by
    rw [hq] at hqueued
    cases hqueued
  ascending := hc.all h.ascending hk

/-- A waiter leaves the queues and gives up its keys. -/
theorem Inv.dropped (hq : x'.queued = false) (hg : x'.granted = false) (hk : x'.keys.Pairwise (· < ·))
    (hwaiters : s'.waiters = s.waiters.erase w)
    (hclaims : ∀ key, s'.claims key = (s.claims key).erase w)
    (hheld : ∀ key, s'.held key = if x.granted = true ∧ key ∈ x.keys then none else s.held key) :
    s'.Inv := by
  refine h.unqueued hx hc hq hk hwaiters hclaims (fun key => ?_) fun key v hv => ?_
  · rw [hheld]
    split
    · simp [hg]
    · next hout =>
      rw [h.held, hx]
      simp only [Option.some.injEq, exists_eq_left', hg]
      tauto
  · rw [hheld]
    split
    · next hin =>
      rw [(h.held key w).mpr ⟨x, hx, hin⟩]
      simp [Ne.symm hv]
    · rfl

/-- A waiter that is neither queued nor granted enters the queues. -/
theorem Inv.inserted (hq : x.queued = false) (hg : x.granted = false) (hkeys : x'.keys = x.keys)
    (hq' : x'.queued = true) (hg' : x'.granted = false) (hs' : x'.settled = false)
    (hwaiters : s'.waiters = place s.ordOf w s.waiters) (hclaims : ∀ key, s'.claims key =
      if key ∈ x.keys then place s.ordOf w (s.claims key) else s.claims key)
    (hheld : s'.held = s.held) : s'.Inv := by
  have hout := h.not_mem_waiters hx hq
  have hkeysOf : s'.keysOf = s.keysOf := by
    funext v
    by_cases hv : v = w
    · subst hv
      rw [keysOf_eq hc.self, keysOf_eq hx, hkeys]
    · exact hc.keysOf_other hv
  refine ⟨fun key => ?_, ?_, ?_, fun v => ?_, fun key v => ?_, hc.all h.phase fun _ => ⟨hg', hs'⟩,
    hc.all h.ascending (hkeys ▸ h.ascending w x hx)⟩
  · rw [hclaims, hwaiters, hkeysOf, h.claims]
    split
    · next hin => rw [filter_place_of_pos (by simpa [keysOf_eq hx] using hin)]
    · next hin => rw [filter_place_of_neg h.inOrder (by simpa [keysOf_eq hx] using hin)]
  · rw [hwaiters, hc.ordOf hx]
    exact inOrder_place h.inOrder
  · rw [hwaiters]
    exact nodup_place h.nodup hout
  · rw [hwaiters, mem_place]
    by_cases hv : v = w
    · subst hv
      rw [hc.self]
      simp [hq']
    · rw [hc.other hv, h.queued]
      simp [hv]
  · rw [hheld, h.held]
    by_cases hv : v = w
    · subst hv
      rw [hc.self, hx]
      simp [hg, hg']
    · rw [hc.other hv]

/-- A waiter gets keys that nobody else holds. -/
theorem Inv.holds (hq' : x'.queued = false) (hg' : x'.granted = true) (hk : x'.keys.Pairwise (· < ·))
    (hfree : ∀ key ∈ x'.keys, s.held key = none ∨ s.held key = some w)
    (hsub : x.granted = true → x.keys ⊆ x'.keys) (hwaiters : s'.waiters = s.waiters.erase w)
    (hclaims : ∀ key, s'.claims key = (s.claims key).erase w)
    (hheld : ∀ key, s'.held key = if key ∈ x'.keys then some w else s.held key) : s'.Inv := by
  refine h.unqueued hx hc hq' hk hwaiters hclaims (fun key => ?_) fun key v hv => ?_
  · rw [hheld]
    split
    · next hin => simp [hg', hin]
    next hout =>
    rw [h.held, hx]
    simp only [Option.some.injEq, exists_eq_left', hout, and_false, iff_false]
    rintro ⟨hg, hin⟩
    exact hout (hsub hg hin)
  · rw [hheld]
    split
    · next hin => rcases hfree key hin with hf | hf <;> simp [hf, Ne.symm hv]
    · rfl

end

theorem Inv.insertGlobal_eq (w : Wid) : s.insertGlobal w = place s.ordOf w s.waiters := by
  unfold insertGlobal
  cases hback : s.waiters.getLast? with
  | none =>
    rw [List.getLast?_eq_none_iff.mp hback]
    rfl
  | some back =>
    dsimp only
    split
    · next hle =>
      -- the last waiter does not outrank the new one, and so no waiter does
      obtain ⟨init, hinit⟩ := List.getLast?_eq_some_iff.mp hback
      have hall : ∀ v ∈ s.waiters, s.ordOf v ≤ s.ordOf w := by
        intro v hv
        have horder := h.inOrder
        rw [hinit] at hv horder
        rcases mem_append.mp hv with hv | hv
        · have := (pairwise_append.mp horder).2.2 v hv back mem_cons_self
          omega
        · rw [mem_singleton.mp hv]
          exact hle
      unfold place
      rw [filter_eq_self.mpr (by simpa using hall), filter_eq_nil_iff.mpr (by simpa using hall)]
    · exact insertFromFront_eq h.inOrder

end

theorem changed_insertLocked (hx : s.pool w = some x) :
    Changed s (s.insertLocked w) w { x with queued := true } := by
  refine changed_of hx ?_ rfl
  change update s.pool w ((s.pool w).map _) = _
  rw [hx]
  rfl

theorem Inv.insertLocked (h : s.Inv) (hx : s.pool w = some x) (hq : x.queued = false)
    (hg : x.granted = false) (hs : x.settled = false) : (s.insertLocked w).Inv := by
  refine h.inserted hx (changed_insertLocked hx) hq hg rfl rfl hg hs (h.insertGlobal_eq w) ?_ rfl
  intro key
  change updateAll s.claims (insertFromBack s.ordOf w) (s.keysOf w) key = _
  rw [keysOf_eq hx, updateAll_apply (h.nodup_keys hx), insertFromBack_eq (h.inOrder_claims key)]

/-- Leaving the queues of its keys, a waiter leaves every queue. -/
theorem Inv.claims_removeLocked (h : s.Inv) (w : Wid) (key : Key) :
    updateAll s.claims (·.erase w) (s.keysOf w) key = (s.claims key).erase w := by
  have hnodup : (s.keysOf w).Nodup := by
    unfold keysOf
    cases hx : s.pool w with
    | none => exact nodup_nil
    | some x => exact h.nodup_keys hx
  rw [updateAll_apply hnodup]
  split
  · rfl
  · next hout =>
    rw [erase_of_not_mem]
    exact fun hin => hout (h.mem_claims.mp hin).2

/-- A waiter that is not queued is in no queue. -/
theorem Inv.erase_of_not_queued (h : s.Inv) (hx : s.pool w = some x) (hq : x.queued = false) :
    s.waiters.erase w = s.waiters ∧ ∀ key, (s.claims key).erase w = s.claims key := by
  have hout := h.not_mem_waiters hx hq
  exact ⟨erase_of_not_mem hout, fun key =>
    erase_of_not_mem fun hin => hout (h.mem_claims.mp hin).1⟩

/-- A queued waiter at the front of all its queues whose keys are all free. -/
def Eligible (s : MutationSequencer) (w : Wid) : Prop :=
  ∃ x, s.pool w = some x ∧ x.queued = true ∧
    ∀ key ∈ x.keys, s.held key = none ∧ (s.claims key).head? = some w

theorem Inv.eligible_iff (h : s.Inv) : s.eligibleLocked w = true ↔ s.Eligible w := by
  unfold eligibleLocked Eligible
  cases hx : s.pool w with
  | none => simp
  | some x =>
    simp only [Option.some.injEq, exists_eq_left']
    by_cases hq : x.queued = true
    · obtain ⟨hg, hs⟩ := h.phase w x hx hq
      simp [hq, hg, hs]
    · simp [hq]

theorem changed_grantLocked (hx : s.pool w = some x) :
    Changed s (s.grantLocked w) w { x with queued := false, granted := true } := by
  refine changed_of hx ?_ rfl
  simp only [grantLocked, removeLocked, setWaiter, hx, Option.map_some, update_self, update_idem]

theorem Inv.held_grantLocked (h : s.Inv) (hx : s.pool w = some x) (key : Key) :
    (s.grantLocked w).held key = if key ∈ x.keys then some w else s.held key := by
  change updateAll s.held (fun _ => some w) (s.keysOf w) key = _
  rw [keysOf_eq hx, updateAll_apply (h.nodup_keys hx)]

theorem Inv.grantLocked (h : s.Inv) (he : s.Eligible w) : (s.grantLocked w).Inv := by
  obtain ⟨x, hx, hq, hfront⟩ := he
  have hg : x.granted = false := (h.phase w x hx hq).1
  refine h.holds hx (changed_grantLocked hx) rfl rfl (h.ascending w x hx)
    (fun key hk => .inl (hfront key hk).1) (fun hgr => ?_) rfl (h.claims_removeLocked w)
    (fun key => h.held_grantLocked hx key)
  rw [hg] at hgr
  cases hgr

/-- Granting makes no other waiter eligible. -/
theorem Inv.eligible_grantLocked (h : s.Inv) (he : s.Eligible w)
    (hv : (s.grantLocked w).Eligible v) : v ≠ w ∧ s.Eligible v := by
  obtain ⟨x, hx, hq, hfront⟩ := he
  have hc := changed_grantLocked hx
  obtain ⟨y, hy, hyq, hyfront⟩ := hv
  have hne := hc.ne_of_queued rfl hy hyq
  refine ⟨hne, y, by rwa [hc.other hne] at hy, hyq, fun key hk => ?_⟩
  obtain ⟨hfree, hhead⟩ := hyfront key hk
  rw [h.held_grantLocked hx] at hfree
  split at hfree
  · cases hfree
  next hout =>
  refine ⟨hfree, ?_⟩
  have hclaims : (s.grantLocked w).claims key = s.claims key := by
    change updateAll s.claims (·.erase w) (s.keysOf w) key = _
    rw [h.claims_removeLocked, erase_of_not_mem]
    intro hin
    rw [h.mem_claims, keysOf_eq hx] at hin
    exact hout hin.2
  rwa [hclaims] at hhead

/-- What granting does besides: ordinals and keys stay, queues only lose waiters, and a key goes
to a waiter only if no waiter of a lower ordinal is left queued for it. -/
structure Grants (s s' : MutationSequencer) : Prop where
  ordOf : s'.ordOf = s.ordOf
  keysOf : s'.keysOf = s.keysOf
  waiters : s'.waiters ⊆ s.waiters
  held : ∀ key w, s'.held key = some w → s.held key = some w ∨
    ∀ v ∈ s'.waiters, key ∈ s'.keysOf v → s'.ordOf w ≤ s'.ordOf v
  settled : ∀ w y, s'.pool w = some y → ∃ x, s.pool w = some x ∧ y.settled = x.settled ∧
    (y.granted = true → x.granted = true ∨ x.settled = false)

theorem Grants.refl (s : MutationSequencer) : Grants s s :=
  ⟨rfl, rfl, .refl _, fun _ _ h => .inl h, fun _ y h => ⟨y, h, rfl, .inl⟩⟩

theorem Grants.trans {s₁ s₂ s₃ : MutationSequencer} (h : Grants s₁ s₂) (h' : Grants s₂ s₃) :
    Grants s₁ s₃ where
  ordOf := h'.ordOf.trans h.ordOf
  keysOf := h'.keysOf.trans h.keysOf
  waiters := List.Subset.trans h'.waiters h.waiters
  held key w hw := by
    rcases h'.held key w hw with hw | hfair
    · rcases h.held key w hw with hw | hfair
      · exact .inl hw
      right
      intro v hv hk
      rw [h'.keysOf] at hk
      rw [h'.ordOf]
      exact hfair v (h'.waiters hv) hk
    · exact .inr hfair
  settled w z hz := by
    obtain ⟨y, hy, hsy, hgy⟩ := h'.settled w z hz
    obtain ⟨x, hx, hsx, hgx⟩ := h.settled w y hy
    refine ⟨x, hx, hsy.trans hsx, fun hg => ?_⟩
    rcases hgy hg with hg | hs
    · exact hgx hg
    · exact .inr (hsx ▸ hs)

theorem Inv.grants_grantLocked (h : s.Inv) (he : s.Eligible w) : Grants s (s.grantLocked w) := by
  obtain ⟨x, hx, hq, hfront⟩ := he
  have hc := changed_grantLocked hx
  have hkeysOf : (s.grantLocked w).keysOf = s.keysOf := by
    funext v
    by_cases hv : v = w
    · subst hv
      rw [keysOf_eq hc.self, keysOf_eq hx]
    · exact hc.keysOf_other hv
  have hsub : (s.grantLocked w).waiters ⊆ s.waiters := erase_subset
  refine ⟨hc.ordOf hx, hkeysOf, hsub, fun key u hu => ?_, fun u y hy => ?_⟩
  · rw [h.held_grantLocked hx] at hu
    split at hu
    · next hin =>
      cases hu
      right
      intro v hv hk
      rw [hkeysOf] at hk
      rw [hc.ordOf hx]
      exact (h.inOrder_claims key).head_le (hfront key hin).2 (h.mem_claims.mpr ⟨hsub hv, hk⟩)
    · exact .inl hu
  · rcases hc.cases hy with ⟨rfl, rfl⟩ | ⟨-, hy⟩
    · exact ⟨x, hx, rfl, fun _ => .inr (h.phase u x hx hq).2⟩
    · exact ⟨y, hy, rfl, .inl⟩

private theorem Inv.grantEach (h : s.Inv) (candidates : List Wid)
    (hcover : ∀ v, s.Eligible v → v ∈ candidates) {s' : MutationSequencer}
    (hs' : s' = candidates.foldl (fun s w => if s.eligibleLocked w then s.grantLocked w else s) s) :
    s'.Inv ∧ Grants s s' ∧ ∀ v, ¬s'.Eligible v := by
  induction candidates generalizing s with
  | nil =>
    subst hs'
    exact ⟨h, Grants.refl _, fun v hv => absurd (hcover v hv) not_mem_nil⟩
  | cons c cs ih =>
    rw [foldl_cons] at hs'
    by_cases hc : s.eligibleLocked c = true
    · rw [if_pos hc] at hs'
      have he : s.Eligible c := h.eligible_iff.mp hc
      obtain ⟨hinv, hgrants, hnone⟩ := ih (h.grantLocked he) (fun v hv => by
        obtain ⟨hne, hv⟩ := h.eligible_grantLocked he hv
        exact (mem_cons.mp (hcover v hv)).resolve_left hne) hs'
      exact ⟨hinv, (h.grants_grantLocked he).trans hgrants, hnone⟩
    · rw [if_neg hc] at hs'
      refine ih h (fun v hv => (mem_cons.mp (hcover v hv)).resolve_left ?_) hs'
      rintro rfl
      exact hc (h.eligible_iff.mpr hv)

theorem Inv.grantCandidates (h : s.Inv) {candidates : List Wid}
    (hcover : ∀ v, s.Eligible v → v ∈ candidates) :
    (s.grantCandidates candidates).Inv ∧ Grants s (s.grantCandidates candidates) ∧
      ∀ v, ¬(s.grantCandidates candidates).Eligible v :=
  h.grantEach _ (fun v hv => (mem_insertionSort _).mpr (hcover v hv)) rfl

theorem subset_addCandidate (candidates : List Wid) (w : Wid) :
    candidates ⊆ s.addCandidate candidates w := by
  unfold addCandidate
  split
  · exact .refl _
  · split
    · exact .refl _
    · exact subset_append_left _ _

theorem mem_addCandidate (candidates : List Wid) (hx : s.pool w = some x)
    (hs : x.settled = false) (hg : x.granted = false) : w ∈ s.addCandidate candidates w := by
  unfold addCandidate
  rw [hx]
  simp only [hs, hg, Bool.false_eq_true, false_or]
  split
  · next hin => exact hin
  · exact mem_append_right _ mem_cons_self

private theorem subset_addFrontCandidates (candidates : List Wid) (keys : List Key) :
    candidates ⊆ s.addFrontCandidates candidates keys := by
  unfold addFrontCandidates
  induction keys generalizing candidates with
  | nil => exact .refl _
  | cons key keys ih =>
    rw [foldl_cons]
    refine List.Subset.trans ?_ (ih _)
    split
    · split
      · exact subset_addCandidate _ _
      · exact .refl _
    · exact .refl _

/-- The waiter at the front of a free key is a candidate. -/
theorem Inv.mem_addFrontCandidates (h : s.Inv) (candidates : List Wid)
    (hkey : key ∈ keys) (hfree : s.held key = none) (hhead : (s.claims key).head? = some w) :
    w ∈ s.addFrontCandidates candidates keys := by
  induction keys generalizing candidates with
  | nil => exact absurd hkey not_mem_nil
  | cons k keys ih =>
    rcases mem_cons.mp hkey with rfl | hkey
    · have hin := (h.mem_claims.mp (List.mem_of_mem_head? hhead)).1
      obtain ⟨x, hx, hq⟩ := (h.queued w).mp hin
      obtain ⟨hg, hs⟩ := h.phase w x hx hq
      have hfirst : w ∈ s.addCandidate candidates w := mem_addCandidate candidates hx hs hg
      unfold addFrontCandidates
      rw [foldl_cons, if_pos hfree, hhead]
      exact subset_addFrontCandidates _ _ hfirst
    · unfold addFrontCandidates
      rw [foldl_cons]
      exact ih _ hkey

/-- After a waiter dropped its keys and left its queues, whoever is newly eligible is at the front
of one of these keys. -/
theorem Inv.eligible_dropped (h : s.Inv) (hx : s.pool w = some x) (hc : Changed s s' w x')
    (hq : x'.queued = false) (hclaims : ∀ key, s'.claims key = (s.claims key).erase w)
    (hheld : ∀ key, s'.held key = if x.granted = true ∧ key ∈ x.keys then none else s.held key)
    (hnone : ∀ u, ¬s.Eligible u) (hv : s'.Eligible v) :
    ∃ key ∈ x.keys, s'.held key = none ∧ (s'.claims key).head? = some v := by
  obtain ⟨y, hy, hyq, hyfront⟩ := hv
  have hne := hc.ne_of_queued hq hy hyq
  by_contra hnot
  push Not at hnot
  refine hnone v ⟨y, by rwa [hc.other hne] at hy, hyq, fun key hk => ?_⟩
  obtain ⟨hfree, hhead⟩ := hyfront key hk
  have hout : key ∉ x.keys := fun hin => hnot key hin hfree hhead
  rw [hheld, if_neg (fun hin => hout hin.2)] at hfree
  rw [hclaims, erase_of_not_mem] at hhead
  · exact ⟨hfree, hhead⟩
  · intro hin
    rw [h.mem_claims, keysOf_eq hx] at hin
    exact hout hin.2

end MutationSequencer

end PortableFS.Sequencer
