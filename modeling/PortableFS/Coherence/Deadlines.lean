import PortableFS.Coherence.Publication

/-!
# Bounded withdrawal

A subscriber that does not withdraw a change cannot renew its horizon past the deadline of the
change, so a commit waits for it no longer than that.
-/

namespace PortableFS.Coherence.Stream

open Base SlotHeap List Relation

variable {s s' : Stream} {E : ℕ → Prop} {o : ℕ} {x : Subscriber} {lost : ℕ → List StreamEvent}
variable {config : Config} {position : ℕ} {event : StreamEvent} {source : SubscriptionToken}
variable {e : ChangeEntry} {entries : List ChangeEntry}

/-- A renewal does not pass the deadline of a change that the subscriber has to withdraw. -/
theorem renewal_le_deadline (h : s.Logged) (hfirst : s.first ≤ x.acked + 1)
    (hmem : event ∈ s.window x.acked s.position) (howes : x.owes event = true) :
    s.renewal x ≤ max x.horizon event.cacheDeadline := by
  have hwindow := window_eq h hfirst le_rfl
  have hsome : (s.obligation x).isSome = true := by
    rw [obligation, ← hwindow, find?_isSome]
    exact ⟨event, hmem, howes⟩
  obtain ⟨first, hfound⟩ := Option.isSome_iff_exists.mp hsome
  have hle : first.cacheDeadline ≤ event.cacheDeadline := by
    rw [obligation, ← hwindow, find?_eq_some_iff_append] at hfound
    obtain ⟨hfirst, before, behind, heq, hnone⟩ := hfound
    have hsorted := h.deadlines.sublist ((drop_sublist x.acked _).trans (take_sublist s.position _))
    rw [← window, heq, pairwise_append, pairwise_cons] at hsorted
    rw [heq] at hmem
    rcases mem_append.mp hmem with hmem | hmem
    · have hnot := hnone event hmem
      rw [howes] at hnot
      cases hnot
    · rcases mem_cons.mp hmem with rfl | hmem
      · exact le_rfl
      · simp only [Subscriber.owes, decide_eq_true_eq] at howes hfirst
        exact hsorted.2.1.1 event hmem hfirst.1 howes.1
  rw [renewal, hfound]
  dsimp only
  omega

/-- A change in the log that a subscriber has to withdraw bounds its horizon. -/
structure Owed (s : Stream) (o position : ℕ) (event : StreamEvent) : Prop where
  known : o ≤ s.incarnation
  logged : s.history[position]? = some event
  bound : ∀ x, s.subs o = some x → o ∈ s.acks →
    x.owes event = true ∧ (position < x.acked ∨ x.horizon ≤ event.cacheDeadline)

theorem Owed.move (h : s.Owed o position event)
    (hm : Move E s s') (hinv : s.Inv E) : s'.Owed o position event := by
  have hlt := (List.getElem?_eq_some_iff.mp h.logged).1
  have hframe := hm.frame hinv
  obtain ⟨added, hadded⟩ := hframe.history
  refine ⟨hframe.incarnation ▸ h.known, by rw [← hadded, getElem?_append_left hlt, h.logged], ?_⟩
  intro y hy ho
  obtain ⟨x, hx, ho, hkept⟩ := hframe.kept o y hy ho
  obtain ⟨howes, hbound⟩ := h.bound x hx ho
  constructor
  · simp only [Subscriber.owes, hkept.token, decide_eq_true_eq] at howes ⊢
    exact ⟨howes.1, howes.2.1, howes.2.2.imp_right (hkept.cached _)⟩
  rw [or_iff_not_imp_left, not_lt]
  intro hge
  have hacked := hkept.acked
  have hle : x.horizon ≤ event.cacheDeadline := hbound.resolve_left (by omega)
  rcases hkept.horizon with heq | ⟨heq, hsame, hfirst⟩
  · rwa [heq]
  have hmem : event ∈ s.window x.acked s.position := by
    rw [hinv.log.length] at hlt
    apply mem_of_getElem? (i := position - x.acked)
    rw [window, getElem?_drop, getElem?_take, if_pos (by omega), ← h.logged]
    congr 1
    omega
  rw [heq]
  exact (renewal_le_deadline hinv.log hfirst hmem howes).trans (max_le hle le_rfl)

theorem Owed.moves (h : s.Owed o position event)
    (hm : Moves E s s') (hinv : s.Inv E) : s'.Owed o position event :=
  (moves_keep (P := (·.Owed o position event)) (fun _ _ hinv hm h => h.move hm hinv) hm hinv h).2

theorem Owed.run (h : s.Owed o position event)
    (hrun : ReflTransGen Step s s') (hinv : s.Inv Nobody) : s'.Owed o position event := by
  refine (run_keeps (P := (·.Owed o position event)) (fun _ _ _ hinv hm h => h.move hm hinv) ?_ hrun
    hinv h).2
  intro s x hx h
  have hknown := h.known
  have hnew := hx.incarnation
  have hne : o ≠ x.token.incarnation := by omega
  rw [truncateLocked_eq]
  refine ⟨by simp only [register, signalLocked]; omega, h.logged, fun y hy ho => ?_⟩
  apply h.bound y ((Function.update_of_ne hne ..).symm.trans hy)
  exact (mem_cons.mp ((push_perm _ _).mem_iff.mp ho)).resolve_left hne

/-- Nobody is left whose horizon has passed. -/
theorem expireRounds_spec {rounds : ℕ} (h : s.Inv E) (hr : s.acks.length ≤ rounds) :
    (expireRounds lost rounds s).now = s.now ∧
      ∀ o ∈ (expireRounds lost rounds s).acks, s.now < (expireRounds lost rounds s).horizonOf o := by
  have hsame (o : ℕ) := h.members.same.mem_iff (a := o)
  induction rounds generalizing s with
  | zero =>
    refine ⟨rfl, fun o ho => ?_⟩
    rw [expireRounds, length_eq_zero_iff.mp (Nat.le_zero.mp hr)] at ho
    cases ho
  | succ rounds ih =>
    rw [expireRounds]
    split
    next hnone =>
      refine ⟨rfl, fun o ho => ?_⟩
      rw [← hsame, head?_eq_none_iff.mp hnone] at ho
      cases ho
    next p hp =>
      split
      next hle =>
        have hinv := Move.inv (.retire (.inl hle) (lost p)) h
        have hlength := h.members.acks_retire (o := p).length_eq
        rw [length_erase_of_mem ((hsame p).mp (mem_of_mem_head? hp))] at hlength
        obtain ⟨log, first, added, heq⟩ := s.retired_eq (o := p) (lost p)
        rw [heq] at hinv
        rw [retireSubscriberLocked, heq]
        exact ih hinv (by simp only; omega) fun o => hinv.members.same.mem_iff
      next hlt =>
        refine ⟨rfl, fun o ho => ?_⟩
        have hleast := h.members.horizonsHeap.head_le hp ((hsame o).mpr ho)
        omega

theorem expireLocked_spec (h : s.Inv E) : (s.expireLocked lost).now = s.now ∧
    ∀ o ∈ (s.expireLocked lost).acks, s.now < (s.expireLocked lost).horizonOf o :=
  expireRounds_spec h h.members.same.length_eq.ge

/-- An entry of a commit is owed by the subscribers that could cache it. -/
private theorem owed_append (h : s.Inv E)
    (hx : s.subs o = some x) (ho : o ∈ s.acks) (hne : x.token ≠ source)
    (hcache : x.couldCache e = true) :
    (s.appendLocked (targeted source e)).Owed o s.position (s.stamp (targeted source e)) := by
  have hknown := h.members.known o x hx
  have hhorizon := h.members.horizon o ho
  rw [appendLocked, truncateLocked_eq]
  refine ⟨hknown.2.1, ?_, fun y hy _ => ?_⟩
  · rw [← h.log.length]
    exact getElem?_concat_length
  · cases hx.symm.trans hy
    have hlocal : (targeted source e).localTo x.token = false := by
      unfold StreamEvent.localTo targeted
      split
      · exact decide_eq_false hne.symm
      · next hzero =>
        have hsource : source = {} := not_not.mp hzero
        rw [hsource]
        exact decide_eq_false hknown.2.2.symm
    refine ⟨?_, .inr (by simpa [horizonOf, hx, stamp, targeted] using hhorizon)⟩
    exact decide_eq_true ⟨rfl, by rw [Bool.not_eq_true']; exact hlocal, .inr hcache⟩

theorem appendLocked_frame (event : StreamEvent) :
    (s.appendLocked event).subs = s.subs ∧ (s.appendLocked event).acks = s.acks ∧
      (s.appendLocked event).now = s.now ∧ (s.appendLocked event).position = s.position + 1 := by
  rw [appendLocked, truncateLocked_eq]
  exact ⟨rfl, rfl, rfl, rfl⟩

theorem owed_commit {i : ℕ} (h : s.Inv E) (hx : s.subs o = some x) (ho : o ∈ s.acks)
    (hne : x.token ≠ source) (he : entries[i]? = some e) (hcache : x.couldCache e = true) :
    ∃ event, event.cacheDeadline = s.now + subscriptionTTL ∧
      (s.appendCommit entries (targeted source)).Owed o (s.position + i) event := by
  induction entries generalizing s i with
  | nil => cases he
  | cons e' entries ih =>
    have hinv := Move.inv (.append (max s.watermark e'.volumeVersion) (targeted source e')) h
    have hmoves {s : Stream} : Moves E s (s.appendCommit entries (targeted source)) :=
      appendCommit_moves ..
    cases i with
    | zero =>
      cases he
      have howed := owed_append (s := { s with watermark := max s.watermark e.volumeVersion })
        ⟨{ h.log with }, { h.members with }⟩ hx ho hne hcache
      exact ⟨_, rfl, howed.moves hmoves hinv⟩
    | succ i =>
      obtain ⟨hsubs, hacks, hnow, hposition⟩ :=
        Stream.appendLocked_frame (s := { s with watermark := max s.watermark e'.volumeVersion })
          (targeted source e')
      obtain ⟨event, hdeadline, howed⟩ := ih hinv (by rw [hsubs]; exact hx) (by rw [hacks]; exact ho) he
      rw [hposition, Nat.add_assoc, Nat.add_comm 1] at howed
      exact ⟨event, hdeadline.trans (by rw [hnow]), howed⟩

theorem mem_targets {token : SubscriptionToken} (h : s.Members E)
    (ht : token ∈ s.targets entries source) : ∃ x,
      s.subs token.incarnation = some x ∧ token.incarnation ∈ s.acks ∧ x.token = token ∧
        token ≠ source ∧ ∃ e ∈ entries, x.couldCache e = true := by
  obtain ⟨⟨id, p⟩, -, hp⟩ := mem_filterMap.mp ht
  split at hp
  · cases hp
  next x hx =>
  split at hp
  next hif =>
    cases hp
    obtain ⟨hne, hmem, hany⟩ := hif
    have hp := (h.known p x hx).1
    rw [hp]
    exact ⟨x, hx, hmem, rfl, hne, any_eq_true.mp hany⟩
  · cases hp

theorem onCommitTargeted_spec {a : CacheAdmission} {w : Withdrawal} (h : (s.expireLocked lost).Inv E)
    (hc : s.onCommitTargeted lost entries source a = (s', w)) :
    Moves E ((s.expireLocked lost).appendCommit entries (targeted source)) s' ∧
      w.targets ⊆ (s.expireLocked lost).targets entries source ∧ w.position ≤ s'.position ∧
      s'.position = ((s.expireLocked lost).appendCommit entries (targeted source)).position := by
  have hinv := moves_inv (appendCommit_moves entries (targeted source)) h
  unfold onCommitTargeted at hc
  dsimp only at hc
  split at hc <;> cases hc
  · refine ⟨.single (.edit (admission_edit hinv a _)), ?_, ?_, rfl⟩ <;> dsimp only [setSub] <;>
      split <;> simp
  · refine ⟨.refl, ?_, ?_, rfl⟩ <;> dsimp only <;> split <;> simp

/-- A commit is withdrawn in bounded time: once its time to live has passed, whoever a wait is still
for has acknowledged every entry that it could cache at the commit. The wait for a commit of one
entry is over. -/
theorem commit_bounded {a : CacheAdmission} {s₁ s₂ : Stream} {w : Withdrawal}
    {lost' : ℕ → List StreamEvent} (h : Reachable config s)
    (hc : s.onCommitTargeted lost entries source a = (s₁, w)) (hrun : ReflTransGen Step s₁ s₂)
    (hlate : s.now + subscriptionTTL ≤ s₂.now) :
    (∀ x ∈ (s₂.expireLocked lost').pendingTargets w, ∀ i e x₀, entries[i]? = some e →
      (s.expireLocked lost).subs x.token.incarnation = some x₀ → x₀.couldCache e = true →
        (s.expireLocked lost).position + i < x.acked) ∧
    (entries.length = 1 → (s₂.waitTargeted lost' w).2 = .done) := by
  have hinv₀ : (s.expireLocked lost).Inv _ := moves_inv expireLocked_moves h.inv
  have hinv := moves_inv (appendCommit_moves entries (targeted source)) hinv₀
  obtain ⟨hedit, htargets, hposition, hcommit⟩ := onCommitTargeted_spec hinv₀ hc
  have hinv₁ := moves_inv hedit hinv
  have hexpire : ReflTransGen Step s₁ (s₂.expireLocked lost') := hrun.tail ⟨lost', .sweep, rfl⟩
  obtain ⟨hinv₃, hprefix⟩ := run_history hexpire hinv₁
  have hnow : (s.expireLocked lost).now = s.now := (expireLocked_spec h.inv).1
  have hlive : ∀ o ∈ (s₂.expireLocked lost').acks, s₂.now < _ :=
    (expireLocked_spec (run_history hrun hinv₁).1).2
  refine (and_iff_left_of_imp fun hacked hone => ?_).mpr ?_
  case refine_2 =>
    intro x hx i e x₀ he hx₀ hcache
    obtain ⟨htoken, hsub, hmem, -⟩ := (mem_pendingTargets hinv₃.members).mp hx
    obtain ⟨y, hy, hmem₀, hname, hne, -⟩ := mem_targets hinv₀.members (htargets htoken)
    cases hx₀.symm.trans hy
    obtain ⟨event, hdeadline, howed⟩ := owed_commit hinv₀ hx₀ hmem₀ (hname ▸ hne) he hcache
    have hbound := ((howed.moves hedit hinv).run hexpire hinv₁).bound x hsub hmem
    have hlt := hlive _ hmem
    simp only [horizonOf, hsub, Option.map_some, Option.getD_some] at hlt
    exact hbound.2.resolve_right (by omega)
  obtain ⟨e, rfl⟩ := length_eq_one_iff.mp hone
  have hempty : (s₂.expireLocked lost').pendingTargets w = [] := by
    refine eq_nil_iff_forall_not_mem.mpr fun x hx => ?_
    obtain ⟨htoken, hsub, hmem, hlt⟩ := (mem_pendingTargets hinv₃.members).mp hx
    obtain ⟨x₀, hx₀, -, -, -, e', he', hcache⟩ := mem_targets hinv₀.members (htargets htoken)
    rw [mem_singleton.mp he'] at hcache
    have hle := hacked x hx 0 e x₀ rfl hx₀ hcache
    have hnext := Stream.appendLocked_frame (targeted source e) (s :=
      { s.expireLocked lost with watermark := max (s.expireLocked lost).watermark e.volumeVersion })
    have hone : s₁.position = (s.expireLocked lost).position + 1 := hcommit.trans hnext.2.2.2
    omega
  have hle := hprefix.length_le
  rw [hinv₁.log.length, hinv₃.log.length] at hle
  rw [waitTargeted]
  simp [hempty, Nat.not_lt.mpr (hposition.trans hle)]

theorem commit_bounded_late : awaited.2 = .done := by
  have hcommit : cached.onCommitTargeted (fun _ => []) [{ kind := .dataChanged, identity := 7 }] {} {} =
      (once, ⟨false, 1, [⟨1, 1⟩]⟩) := Prod.ext rfl (by decide)
  have hrun : ReflTransGen Step once late := .single ⟨_, _, rfl⟩
  exact (commit_bounded reachable_cached hcommit hrun (by decide)).2 rfl

end PortableFS.Coherence.Stream
