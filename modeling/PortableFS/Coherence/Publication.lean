import PortableFS.Coherence.Turns

/-!
# Delivery and withdrawal

What the stream promises over whole runs: the polls of a subscriber show it the history without a
gap, and a wait for the withdrawal of a change is over only when every cache that it concerns is.
-/

namespace PortableFS.Coherence.Stream

open Base SlotHeap List Relation

variable {s s' : Stream} {E : ℕ → Prop} {o : ℕ} {x : Subscriber} {lost : ℕ → List StreamEvent}
variable {config : Config} {token : SubscriptionToken} {after limit : ℕ} {implicitSource : Bool}

/-- What a move does to a subscriber that stays. -/
structure Kept (s : Stream) (x y : Subscriber) : Prop where
  token : y.token = x.token
  acked : x.acked ≤ y.acked
  cached : ∀ e, x.couldCache e = true → y.couldCache e = true
  horizon : y.horizon = x.horizon ∨
    y.horizon = s.renewal x ∧ y.acked = x.acked ∧ s.first ≤ x.acked + 1

/-- What any move leaves. -/
structure Frame (s s' : Stream) : Prop where
  incarnation : s'.incarnation = s.incarnation
  history : s.history <+: s'.history
  kept : ∀ o y, s'.subs o = some y → o ∈ s'.acks →
    ∃ x, s.subs o = some x ∧ o ∈ s.acks ∧ s.Kept x y

theorem Kept.refl : s.Kept x x := ⟨rfl, le_rfl, fun _ => id, .inl rfl⟩

theorem Move.frame (hm : Move E s s') (h : s.Inv E) : s.Frame s' := by
  have hkept (o : ℕ) (y : Subscriber) (hy : s.subs o = some y) (ho : o ∈ s.acks) :
      ∃ x, s.subs o = some x ∧ o ∈ s.acks ∧ s.Kept x y := ⟨y, hy, ho, .refl⟩
  cases hm with
  | tick | signal | forget => exact ⟨rfl, prefix_rfl, hkept⟩
  | notify =>
    unfold notificationLocked
    split <;> exact ⟨rfl, prefix_rfl, hkept⟩
  | append watermark event =>
    rw [appendLocked, truncateLocked_eq]
    exact ⟨rfl, prefix_append .., hkept⟩
  | edit hf =>
    refine ⟨rfl, prefix_rfl, fun o y hy ho => ?_⟩
    obtain ⟨x, hx, rfl⟩ := Option.map_eq_some_iff.mp ((subs_setSub o).symm.trans hy)
    refine ⟨x, hx, ho, ?_⟩
    split
    · exact ⟨hf.token x, (hf.acked x).ge, hf.cached x, .inl (hf.horizon x)⟩
    · exact .refl
  | ack hx hp hlt hle =>
    rw [ackTo, truncateLocked_eq]
    refine ⟨rfl, prefix_rfl, fun o y hy ho => ?_⟩
    obtain ⟨z, hz, rfl⟩ := Option.map_eq_some_iff.mp ((subs_setSub o).symm.trans hy)
    refine ⟨z, hz, (fixAt_perm _ _).mem_iff.mp ho, ?_⟩
    split
    next heq =>
      subst heq
      cases hx.symm.trans hz
      exact ⟨rfl, hlt.le, fun _ => id, .inl rfl⟩
    · exact .refl
  | extend hx hp hfirst =>
    refine ⟨rfl, prefix_rfl, fun o y hy ho => ?_⟩
    obtain ⟨z, hz, rfl⟩ := Option.map_eq_some_iff.mp ((subs_setSub o).symm.trans hy)
    refine ⟨z, hz, ho, ?_⟩
    split
    next heq =>
      subst heq
      cases hx.symm.trans hz
      exact ⟨rfl, le_rfl, fun _ => id, .inr ⟨rfl, rfl, hfirst⟩⟩
    · exact .refl
  | retire hp events =>
    obtain ⟨log, first, added, heq⟩ := s.retired_eq events
    rw [heq]
    refine ⟨rfl, prefix_append .., fun o y hy ho => ?_⟩
    obtain ⟨ho, hne⟩ := (h.members.mem_retire o).mp ho
    exact hkept o y ((Function.update_of_ne hne ..).symm.trans hy) ho

/-- A run only adds to the history. -/
theorem run_history (hrun : ReflTransGen Step s s') (h : s.Inv Nobody) :
    s'.Inv Nobody ∧ s.history <+: s'.history := by
  refine run_keeps (P := (s.history <+: ·.history)) (fun _ _ _ h hm hP => hP.trans (hm.frame h).history)
    ?_ hrun h prefix_rfl
  intro s' x _ h
  rwa [truncateLocked_eq]

/-- The part of a run's history between two cursors. -/
def window (s : Stream) (after stop : ℕ) : List StreamEvent := (s.history.take stop).drop after

/-- The ring shows an admitted subscriber the history. -/
theorem window_eq (h : s.Logged) {stop : ℕ} (hfirst : s.first ≤ after + 1)
    (hstop : stop ≤ s.position) :
    s.window after stop = (range' (after + 1) (stop - after)).map s.entry := by
  ext i e
  rw [window, getElem?_drop, getElem?_take, getElem?_map]
  split
  next hlt =>
    have hring := h.ring (after + i + 1) (by omega) (by omega)
    rw [Nat.add_sub_cancel] at hring
    rw [hring, getElem?_range' (by omega)]
    simp [Nat.add_right_comm]
  next hge =>
    rw [getElem?_eq_none (by simp; omega)]
    simp

/-- What one turn of a poll with its cursor at `after` shows of a history: the events from there on,
each once and in order, masked where they are not for the subscriber. It acknowledges in the
subscriber's place only changes of its own. -/
def Shows (s : Stream) (token : SubscriptionToken) (implicitSource : Bool) (after : ℕ) :
    PollOutcome → Prop
  | .events events stop => after < stop ∧ stop ≤ s.position ∧
      events = (s.window after stop).mapIdx fun i => shown token implicitSource (after + i + 1)
  | .again stop => after < stop ∧ stop ≤ s.position ∧
      ∀ e ∈ s.window after stop, e.kind = .change ∧ own token implicitSource e = true
  | .wait _ _ => s.position ≤ after

private theorem pollTurn_shows {outcome : PollOutcome} (h : s.Inv E) (hx : s.Admitted token x)
    (hlimit : limit ≠ 0) (hp : s.pollTurn x after limit implicitSource = (s', .ok outcome)) :
    s'.history = s.history ∧ s'.position = s.position ∧
      s.Shows token implicitSource after outcome := by
  unfold pollTurn at hp
  rw [hx.named] at hp
  split at hp
  · cases hp
  next hcursor =>
  split at hp
  next hlt =>
    dsimp only at hp
    have hstop : min s.position (after + limit) ≤ s.position := min_le_left ..
    have hfirst := hx.first
    have hentries : s.window after (min s.position (after + limit)) = _ :=
      window_eq h.log (by omega) hstop
    split at hp
    next hown =>
      cases hp
      rw [ackTo, truncateLocked_eq]
      refine ⟨rfl, rfl, by omega, hstop, fun e he => ?_⟩
      rw [hentries] at he
      obtain ⟨p, hp, rfl⟩ := mem_map.mp he
      simpa using all_eq_true.mp hown.2.2.2 p hp
    next hown =>
      cases hp
      refine ⟨rfl, rfl, by omega, hstop, ?_⟩
      rw [hentries]
      ext i e
      simp only [getElem?_map, getElem?_mapIdx, Option.map_map]
      by_cases hi : i < min s.position (after + limit) - after
      · simp [getElem?_range' hi, Nat.add_right_comm]
      · rw [getElem?_eq_none (by simp; omega)]
        simp
  next hge =>
    have hle : s.position ≤ after := not_lt.mp hge
    have hkept : s.notificationLocked.1.history = s.history ∧
        s.notificationLocked.1.position = s.position := by
      unfold notificationLocked
      split <;> exact ⟨rfl, rfl⟩
    cases hp
    exact ⟨hkept.1, hkept.2, hle⟩

/-- The polls of a subscriber show it the history without a gap, and a run only adds to what was
shown. -/
theorem poll_delivers {outcome : PollOutcome} (h : Reachable config s)
    (hp : s.poll lost token after limit implicitSource = (s', .ok outcome)) :
    s'.Shows token implicitSource after outcome ∧
      ∀ s'', ReflTransGen Step s' s'' → s'.history <+: s''.history := by
  have hstep : Step s s' := ⟨lost, .poll token after limit implicitSource, by rw [next, hp]⟩
  refine ⟨?_, fun s'' hrun => (run_history hrun (run_history (.single hstep) h.inv).1).2⟩
  unfold poll at hp
  split at hp
  · cases hp
  next hlimit =>
  rcases admitted_cases h.inv with ⟨e, he, -⟩ | ⟨s₁, x, -, hinv, hx, heq⟩
  · rw [hp] at he
    cases he
  · obtain ⟨hhistory, hposition, hshows⟩ := pollTurn_shows hinv hx hlimit (heq ▸ hp)
    cases outcome <;> simpa only [Shows, window, hhistory, hposition] using hshows

/-- One subscriber, which may cache a file. -/
def cached : Stream := ((new ⟨2, 1, by decide⟩ 0).subscribe (fun _ => []) 1 { data := [7] } []).1

/-- The file changes. -/
def once : Stream :=
  (cached.onCommitTargeted (fun _ => []) [{ kind := .dataChanged, identity := 7 }] {} {}).1

theorem reachable_cached : Reachable ⟨2, 1, by decide⟩ cached :=
  ⟨0, .single ⟨fun _ => [], .subscribe 1 { data := [7] } [], rfl⟩⟩

theorem reachable_once : Reachable ⟨2, 1, by decide⟩ once := by
  obtain ⟨now, hrun⟩ := reachable_cached
  exact ⟨now, hrun.tail ⟨fun _ => [], .onCommitTargeted .., rfl⟩⟩

theorem poll_delivers_once :
    ∃ e, (once.poll (fun _ => []) ⟨1, 1⟩ 0 1 false).2 = .ok (.events [e] 1) ∧
      (once.poll (fun _ => []) ⟨1, 1⟩ 0 1 false).1.Shows ⟨1, 1⟩ false 0 (.events [e] 1) :=
  ⟨_, rfl, (poll_delivers reachable_once (Prod.ext rfl rfl)).1⟩

/-- The caches of a subscriber hold nothing from before a position: it acknowledged the position, or
its horizon has passed, or a cold subscription took its place. -/
def Withdrew (s : Stream) (position o : ℕ) (x : Subscriber) : Prop :=
  position ≤ x.acked ∨ x.horizon ≤ s.now ∨
    ∃ b y, o < b ∧ s.subs b = some y ∧ y.token.session = x.token.session

theorem Members.withdrew {position : ℕ} (h : s.Members Nobody) (hx : s.subs o = some x)
    (hacked : o ∈ s.acks → position ≤ x.acked) : s.Withdrew position o x := by
  by_cases ho : o ∈ s.acks
  · exact .inl (hacked ho)
  · exact .inr ((h.gone o x hx ho).imp_right fun hgone => hgone.resolve_right id)

/-- The minimum of the others is found at the top of the heap. -/
theorem minimumOther_le {exclude : SessionID} (h : s.Members E) (hx : s.subs o = some x)
    (ho : o ∈ s.acks) (hne : x.token.session ≠ exclude) :
    ∃ b, s.minimumOtherLocked exclude = some b ∧ s.ackedOf b ≤ x.acked := by
  have hacked : s.ackedOf o = x.acked := by simp [ackedOf, hx]
  have hleast {b : ℕ} := h.acksHeap.head_le (a := b) (b := o)
  have hsecond := h.acksHeap.second_le (d := o)
  rw [← hacked]
  unfold minimumOtherLocked
  generalize hacks : s.acks = acks at ho hleast hsecond
  cases acks with
  | nil => cases ho
  | cons o₀ rest =>
    dsimp only
    split
    · exact ⟨o₀, rfl, hleast rfl ho⟩
    next hown =>
    have hrest : o ∈ rest := by
      refine (mem_cons.mp ho).resolve_left fun heq => hown ?_
      simpa [← heq, hx] using hne
    rcases rest with - | ⟨o₁, - | ⟨o₂, rest⟩⟩
    · cases hrest
    · rw [mem_singleton.mp hrest]
      exact ⟨o₁, rfl, le_rfl⟩
    · have hmin := hsecond hrest
      rw [slot_of_lt (by simp), slot_of_lt (by simp), ← WithTop.coe_min, WithTop.coe_le_coe] at hmin
      simp only [getElem_cons_succ, getElem_cons_zero] at hmin
      dsimp only
      split
      · exact ⟨o₂, rfl, by omega⟩
      · exact ⟨o₁, rfl, by omega⟩

/-- Whom a wait is still for. -/
theorem mem_pendingTargets {w : Withdrawal} (h : s.Members E) :
    x ∈ s.pendingTargets w ↔ x.token ∈ w.targets ∧ s.subs x.token.incarnation = some x ∧
      x.token.incarnation ∈ s.acks ∧ x.acked < w.position := by
  simp only [pendingTargets, mem_filterMap, Option.filter_eq_some_iff, decide_eq_true_eq]
  constructor
  · rintro ⟨token, htoken, hcurrent, hmem, hlt⟩
    obtain ⟨hx, rfl, -⟩ := current_eq_some h hcurrent
    exact ⟨htoken, hx, hmem, hlt⟩
  · rintro ⟨htoken, hx, hmem, hlt⟩
    obtain ⟨y, hy, hcurrent⟩ := h.current _ hmem
    cases hx.symm.trans hy
    exact ⟨x.token, htoken, by simp [current, hcurrent, hx], hmem, hlt⟩

/-- A wait succeeds only when every subscriber that it concerns has withdrawn. -/
theorem wait_sound (h : Reachable config s) :
    (∀ position exclude, s.waitWithdrawn lost position exclude = (s', .done) → ∀ o x,
      s'.subs o = some x → x.token.session ≠ exclude → s'.Withdrew position o x) ∧
    ∀ w, s.waitTargeted lost w = (s', .done) → ∀ token ∈ w.targets, ∀ x,
      s'.subs token.incarnation = some x → x.token = token →
        s'.Withdrew w.position token.incarnation x := by
  have hinv := (moves_inv expireLocked_moves h.inv : (s.expireLocked lost).Inv _).members
  constructor
  · intro position exclude hw o x hx hne
    unfold waitWithdrawn at hw
    dsimp only at hw
    split at hw
    · cases hw
    split at hw
    next hnone =>
      cases hw
      refine hinv.withdrew hx fun ho => ?_
      obtain ⟨b, hb, -⟩ := minimumOther_le hinv hx ho hne
      cases hnone.symm.trans hb
    next b hb =>
      split at hw
      next hle =>
        cases hw
        refine hinv.withdrew hx fun ho => ?_
        obtain ⟨b', hb', hle'⟩ := minimumOther_le hinv hx ho hne
        cases hb.symm.trans hb'
        exact hle.trans hle'
      · cases hw
  · intro w hw token htoken x hx hnamed
    unfold waitTargeted at hw
    dsimp only at hw
    split at hw
    · cases hw
    split at hw
    next hnone =>
      cases hw
      refine hinv.withdrew hx fun ho => ?_
      by_contra hlt
      have hmem := (mem_pendingTargets (w := w) hinv).mpr
        ⟨hnamed ▸ htoken, hnamed ▸ hx, hnamed ▸ ho, not_le.mp hlt⟩
      simp only [min?_eq_none_iff, map_eq_nil_iff] at hnone
      rw [hnone] at hmem
      cases hmem
    · cases hw

/-- The horizon of the subscriber passes, and the commit looks again. -/
def late : Stream := once.next (fun _ => []) (.tick subscriptionTTL)

def awaited : Stream × WaitOutcome := late.waitTargeted (fun _ => []) ⟨false, 1, [⟨1, 1⟩]⟩

theorem wait_sound_late : ∃ x, awaited.1.subs 1 = some x ∧ awaited.1.Withdrew 1 1 x := by
  have hname : (awaited.1.subs 1).map Subscriber.token = some ⟨1, 1⟩ := by decide
  obtain ⟨x, hx, hname⟩ := Option.map_eq_some_iff.mp hname
  obtain ⟨now, hrun⟩ := reachable_once
  have hlate : Reachable ⟨2, 1, by decide⟩ late := ⟨now, hrun.tail ⟨_, _, rfl⟩⟩
  exact ⟨x, hx, (wait_sound hlate).2 _ (Prod.ext rfl (by decide)) ⟨1, 1⟩ (by decide) x hx hname⟩

end PortableFS.Coherence.Stream
