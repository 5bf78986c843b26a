import PortableFS.Coherence.Stream

/-!
# Invariant of the change stream

The ring holds the end of the history. The two heaps hold the same subscribers, each the one of its
session, with their cursors in order. A subscriber that left the heaps let its horizon pass or was
replaced by a cold subscription. `Members` leaves out the subscribers of `E`, for the moment between
the two halves of such a subscription.
-/

namespace PortableFS.Coherence.Stream

open Base SlotHeap List

/-- Nobody is between the halves of a subscription. -/
abbrev Nobody : ℕ → Prop := fun _ => False

/-- The ring and the history. -/
structure Logged (s : Stream) : Prop where
  size : 0 < s.logSize
  first_pos : 1 ≤ s.first
  first_le : s.first ≤ s.position + 1
  fits : s.position < s.first + s.logSize
  length : s.history.length = s.position
  ring : ∀ p, s.first ≤ p → p ≤ s.position → s.history[p - 1]? = some (s.entry p)
  stamped : ∀ e ∈ s.history, e.kind = .change → e.cacheDeadline ≤ s.now + subscriptionTTL
  deadlines : s.history.Pairwise fun a b =>
    a.kind = .change → b.kind = .change → a.cacheDeadline ≤ b.cacheDeadline

/-- The subscribers and the heaps. -/
structure Members (E : ℕ → Prop) (s : Stream) : Prop where
  known : ∀ o x, s.subs o = some x →
    x.token.incarnation = o ∧ o ≤ s.incarnation ∧ x.token.session ≠ 0
  cursors : ∀ o x, s.subs o = some x → x.acked ≤ x.delivered ∧ x.delivered ≤ s.position
  acksHeap : IsHeap s.ackedOf s.acks
  horizonsHeap : IsHeap s.horizonOf s.horizons
  same : s.horizons.Perm s.acks
  nodup : s.acks.Nodup
  registered : ∀ id o, s.subscribers.lookup id = some o →
    ∃ x, s.subs o = some x ∧ x.token.session = id
  current : ∀ o ∈ s.acks, ∃ x, s.subs o = some x ∧ s.subscribers.lookup x.token.session = some o
  live : ∀ id o x, s.subscribers.lookup id = some o → s.subs o = some x → x.fenced = false →
    o ∈ s.acks
  horizon : ∀ o ∈ s.acks, s.horizonOf o ≤ s.now + subscriptionTTL
  gone : ∀ o x, s.subs o = some x → o ∉ s.acks → x.horizon ≤ s.now ∨
    (∃ b y, o < b ∧ s.subs b = some y ∧ y.token.session = x.token.session) ∨ E o

variable {s : Stream} {E : ℕ → Prop} {o : ℕ} {x : Subscriber}

/-- Two positions of a window no longer than the ring have slots of their own. -/
private theorem slot_ne {p q n : ℕ} (hlt : p < q) (hfit : q < p + n) : p % n ≠ q % n := by
  intro heq
  have hzero := Nat.sub_mod_eq_zero_of_mod_eq heq.symm
  rw [Nat.mod_eq_of_lt (by omega)] at hzero
  omega

private theorem clearEntries_eq (rounds : ℕ) : s.clearEntries rounds =
    { s with log := (s.clearEntries rounds).log, first := s.first + rounds } := by
  induction rounds generalizing s with
  | zero => rfl
  | succ rounds ih =>
    rw [clearEntries, ih]
    simp only [Stream.mk.injEq, true_and, and_true]
    omega

/-- A truncation touches the ring alone. -/
theorem truncateLocked_eq : s.truncateLocked =
    { s with log := s.truncateLocked.log, first := max s.first (s.through + 1) } := by
  have heq := clearEntries_eq (s := s) (s.through + 1 - s.first)
  unfold truncateLocked
  rw [heq]
  simp only [Stream.mk.injEq, true_and, and_true]
  omega

private theorem Logged.clearEntries {rounds : ℕ} (h : s.Logged)
    (hr : s.first + rounds ≤ s.position + 1) : (s.clearEntries rounds).Logged := by
  induction rounds generalizing s with
  | zero => exact h
  | succ rounds ih =>
    have hfirst := h.first_pos
    have hfits := h.fits
    apply ih _ (by simp only; omega)
    refine { h with first_pos := by simp, first_le := ?_, fits := ?_, ring := ?_ }
    · simp only
      omega
    · simp only
      omega
    · intro p hp hle
      simp only at hp hle
      rw [h.ring p (by omega) hle]
      exact congrArg some (Function.update_of_ne (slot_ne (by omega) (by omega)).symm _ _).symm

theorem Logged.truncateLocked (h : s.Logged) (ht : s.through ≤ s.position) :
    s.truncateLocked.Logged := by
  apply h.clearEntries
  have hle := h.first_le
  omega

private theorem Logged.enter (h : s.Logged) (event : StreamEvent) : (s.enter event).Logged := by
  have hfirst := h.first_pos
  have hfits := h.fits
  have hsize := h.size
  have hle := h.first_le
  have hlength := h.length
  have hdeadline : (s.stamp event).kind = .change →
      (s.stamp event).cacheDeadline = s.now + subscriptionTTL := by
    unfold stamp
    split
    · exact fun _ => rfl
    · intro hkind
      contradiction
  refine ⟨hsize, by grind [Stream.enter], by grind [Stream.enter], by grind [Stream.enter],
    by simp [Stream.enter, hlength], ?_, ?_, ?_⟩
  · intro p hp hpos
    simp only [Stream.enter] at hp hpos
    have hlow : s.first ≤ p ∧ s.position + 1 < p + s.logSize := by
      split at hp <;> omega
    show (s.history ++ [s.stamp event])[p - 1]? = some (Function.update s.log
      ((s.position + 1 - 1) % s.logSize) (s.stamp event) ((p - 1) % s.logSize))
    by_cases hnew : p = s.position + 1
    · subst hnew
      rw [Function.update_self, Nat.add_sub_cancel, ← hlength, getElem?_concat_length]
    · rw [Function.update_of_ne (slot_ne (by omega) (by omega)),
        getElem?_append_left (by omega), h.ring p hlow.1 (by omega), entry]
  · intro e he hkind
    rcases mem_append.mp he with he | he
    · exact h.stamped e he hkind
    · rw [mem_singleton.mp he] at hkind ⊢
      exact (hdeadline hkind).le
  · apply pairwise_append.mpr ⟨h.deadlines, pairwise_singleton .., ?_⟩
    intro a ha b hb hka hkb
    rw [mem_singleton.mp hb] at hkb ⊢
    rw [hdeadline hkb]
    exact h.stamped a ha hka

structure Inv (E : ℕ → Prop) (s : Stream) : Prop where
  log : s.Logged
  members : s.Members E

theorem Members.through_le (h : s.Members E) : s.through ≤ s.position := by
  unfold through
  split
  · exact le_rfl
  · next o ho =>
    obtain ⟨x, hx, -⟩ := h.current o (mem_of_mem_head? ho)
    have hcursors := h.cursors o x hx
    simp only [ackedOf, hx, Option.map_some, Option.getD_some]
    omega

theorem Inv.truncateLocked (h : s.Inv E) : s.truncateLocked.Inv E := by
  refine ⟨h.log.truncateLocked h.members.through_le, ?_⟩
  rw [truncateLocked_eq]
  exact { h.members with }

theorem Inv.signalLocked (h : s.Inv E) : s.signalLocked.Inv E := ⟨{ h.log with }, { h.members with }⟩

theorem Inv.appendLocked (h : s.Inv E) (event : StreamEvent) : (s.appendLocked event).Inv E := by
  apply Inv.truncateLocked
  refine ⟨h.log.enter event, { h.members with cursors := ?_ }⟩
  intro o x hx
  have hcursors := h.members.cursors o x hx
  simp only [enter]
  omega

theorem Inv.appendAll (h : s.Inv E) (events : List StreamEvent) : (s.appendAll events).Inv E := by
  unfold Stream.appendAll
  induction events generalizing s with
  | nil => exact h
  | cons event events ih => exact ih (h.appendLocked event)

section

variable {f : Subscriber → Subscriber}

theorem subs_setSub (p : ℕ) :
    (s.setSub o f).subs p = (s.subs p).map fun x => if p = o then f x else x := by
  unfold setSub
  by_cases h : p = o
  · subst h
    simp
  · simp [h]

private theorem map_setSub {g : Subscriber → ℕ} (hf : ∀ x, g (f x) = g x) (p : ℕ) :
    ((s.setSub o f).subs p).map g = (s.subs p).map g := by
  rw [subs_setSub]
  cases s.subs p with
  | none => rfl
  | some x => by_cases h : p = o <;> simp [h, hf]

theorem ackedOf_setSub (hf : ∀ x, (f x).acked = x.acked) : (s.setSub o f).ackedOf = s.ackedOf := by
  ext p
  rw [ackedOf, map_setSub hf, ackedOf]

theorem horizonOf_setSub (hf : ∀ x, (f x).horizon = x.horizon) :
    (s.setSub o f).horizonOf = s.horizonOf := by
  ext p
  rw [horizonOf, map_setSub hf, horizonOf]

/-- A subscriber changes, and it may leave the heaps if it is fenced. -/
theorem Members.put (h : s.Members E) {acks horizons : List ℕ} (htoken : ∀ x, (f x).token = x.token)
    (hcursors : ∀ x, s.subs o = some x →
      (f x).acked ≤ (f x).delivered ∧ (f x).delivered ≤ s.position)
    (hhorizon : ∀ x, s.subs o = some x → (f x).horizon = x.horizon ∨
      o ∈ acks ∧ (f x).horizon ≤ s.now + subscriptionTTL)
    (hfenced : ∀ x, (f x).fenced = false → x.fenced = false)
    (hacks : IsHeap (s.setSub o f).ackedOf acks) (hsub : acks ⊆ s.acks) (hnodup : acks.Nodup)
    (hhorizons : IsHeap (s.setSub o f).horizonOf horizons) (hsame : horizons.Perm acks)
    (hleft : ∀ p ∈ s.acks, p ∉ acks →
      p = o ∧ (∀ x, (f x).fenced = true) ∧ (s.horizonOf o ≤ s.now ∨ E o)) :
    { s.setSub o f with acks := acks, horizons := horizons }.Members E := by
  have hsubs (p : ℕ) : { s.setSub o f with acks := acks, horizons := horizons }.subs p =
      (s.subs p).map fun x => if p = o then f x else x := subs_setSub p
  obtain ⟨known, cursors, -, -, -, -, registered, current, live, horizon, gone⟩ := h
  refine ⟨?_, ?_, hacks, hhorizons, hsame, hnodup, ?_, ?_, ?_, ?_, ?_⟩
  · intro p y hy
    rw [hsubs, Option.map_eq_some_iff] at hy
    grind [setSub]
  · intro p y hy
    rw [hsubs, Option.map_eq_some_iff] at hy
    grind [setSub]
  · intro id p hp
    obtain ⟨x, hx, hid⟩ := registered id p hp
    rw [hsubs, hx]
    grind
  · intro p hp
    obtain ⟨x, hx, hid⟩ := current p (hsub hp)
    rw [hsubs, hx]
    grind [setSub]
  · intro id p y hp hy hfree
    rw [hsubs, Option.map_eq_some_iff] at hy
    grind [setSub]
  · intro p hp
    obtain ⟨x, hx, hid⟩ := current p (hsub hp)
    have hle := horizon p (hsub hp)
    unfold horizonOf at hle ⊢
    rw [hsubs, hx]
    grind [setSub]
  · intro p y hy hp
    rw [hsubs, Option.map_eq_some_iff] at hy
    obtain ⟨x, hx, hxy⟩ := hy
    by_cases hold : p ∈ s.acks
    · have hgone := hleft p hold hp
      unfold horizonOf at hgone
      grind [setSub]
    rcases gone p x hx hold with hle | ⟨b, z, hlt, hz, hid⟩ | he
    · grind [setSub]
    · refine .inr (.inl ⟨b, if b = o then f z else z, hlt, by rw [hsubs, hz]; rfl, ?_⟩)
      grind
    · exact .inr (.inr he)

/-- The list without an item that may be in it. -/
private theorem removed {key : ℕ → ℕ} {l : List ℕ} (h : IsHeap key l) :
    IsHeap key (if o ∈ l then removeAt key l (l.idxOf o) else l) ∧
      (if o ∈ l then removeAt key l (l.idxOf o) else l).Perm (l.erase o) := by
  by_cases ho : o ∈ l
  · rw [if_pos ho]
    exact ⟨h.removeAt (idxOf_lt_length_iff.mpr ho), removeAt_perm ho⟩
  · rw [if_neg ho, erase_of_not_mem ho]
    exact ⟨h, .rfl⟩

/-- A subscriber that is retired leaves the heaps. -/
theorem Members.acks_retire (h : s.Members E) : (s.retire o).acks.Perm (s.acks.erase o) := by
  have hacked : (s.setSub o Subscriber.retired).ackedOf = s.ackedOf := ackedOf_setSub fun _ => rfl
  exact (removed (hacked ▸ h.acksHeap)).2

theorem Members.mem_retire (h : s.Members E) (p : ℕ) :
    p ∈ (s.retire o).acks ↔ p ∈ s.acks ∧ p ≠ o := by
  rw [h.acks_retire.mem_iff, h.nodup.mem_erase_iff, and_comm]

theorem Members.retire (h : s.Members E) (he : s.horizonOf o ≤ s.now ∨ E o) :
    (s.retire o).Members E := by
  have hacked : (s.setSub o Subscriber.retired).ackedOf = s.ackedOf := ackedOf_setSub fun _ => rfl
  have hhorizonOf : (s.setSub o Subscriber.retired).horizonOf = s.horizonOf :=
    horizonOf_setSub fun _ => rfl
  obtain ⟨hacks, hperm⟩ := removed (o := o) (hacked ▸ h.acksHeap)
  obtain ⟨hhorizons, hperm'⟩ := removed (o := o) (hhorizonOf ▸ h.horizonsHeap)
  apply h.put (f := Subscriber.retired) (fun _ => rfl) (h.cursors o) (fun _ _ => .inl rfl)
    (fun _ hx => by cases hx) hacks (fun p hp => mem_of_mem_erase (hperm.subset hp))
    (hperm.nodup_iff.mpr (h.nodup.erase o)) hhorizons
    (hperm'.trans ((h.same.erase o).trans hperm.symm))
  intro p hp hleft
  refine ⟨?_, fun _ => rfl, he⟩
  by_contra hne
  exact hleft (hperm.mem_iff.mpr ((mem_erase_of_ne hne).mpr hp))

end

theorem Members.mono {E' : ℕ → Prop} (h : s.Members E) (hE : ∀ p, E p → E' p) : s.Members E' :=
  { h with gone := fun o x hx ho => (h.gone o x hx ho).imp_right (.imp_right (hE o)) }

/-- A new subscriber makes up for the old one of its session. -/
theorem Members.register (h : s.Members E) (hnew : x.token.incarnation = s.incarnation + 1)
    (hid : x.token.session ≠ 0)
    (hold : ∀ p, s.subscribers.lookup x.token.session = some p → p ∉ s.acks)
    (hE : ∀ p y, E p → s.subs p = some y → y.token.session = x.token.session)
    (hcursors : x.acked ≤ x.delivered ∧ x.delivered ≤ s.position)
    (hhorizon : x.horizon ≤ s.now + subscriptionTTL) : (s.register x).Members Nobody := by
  obtain ⟨known, cursors, acksHeap, horizonsHeap, same, nodup, registered, current, live, horizon,
    gone⟩ := h
  have hne (p : ℕ) (y : Subscriber) (hy : s.subs p = some y) : p ≠ x.token.incarnation := by
    have hle := (known p y hy).2.1
    omega
  have hsubs (p : ℕ) : (s.register x).subs p =
      if p = x.token.incarnation then some x else s.subs p := Function.update_apply ..
  have hlookup (id : SessionID) : (s.register x).subscribers.lookup id =
      if id = x.token.session then some x.token.incarnation else s.subscribers.lookup id :=
    Assoc.lookup_insert_eq ..
  have hkept (p : ℕ) (hp : p ∈ s.acks) : (s.register x).subs p = s.subs p := by
    obtain ⟨y, hy, -⟩ := current p hp
    rw [hsubs, if_neg (hne p y hy)]
  have hmem (p : ℕ) : p ∈ (s.register x).acks ↔ p = x.token.incarnation ∨ p ∈ s.acks :=
    (push_perm _ _).mem_iff.trans mem_cons
  have hout : x.token.incarnation ∉ s.acks := by
    intro hin
    obtain ⟨y, hy, -⟩ := current _ hin
    exact hne _ y hy rfl
  have hacked : IsHeap (s.register x).ackedOf s.acks :=
    acksHeap.congr fun p hp => by simp only [ackedOf, hkept p hp]
  have hhorizonOf : IsHeap (s.register x).horizonOf s.horizons :=
    horizonsHeap.congr fun p hp => by simp only [horizonOf, hkept p (same.subset hp)]
  refine ⟨?_, ?_, hacked.push _, hhorizonOf.push _, ?_, ?_, ?_, ?_, ?_, ?_, ?_⟩
  · intro p y hy
    rw [hsubs] at hy
    grind [Stream.register]
  · intro p y hy
    rw [hsubs] at hy
    grind [Stream.register]
  · exact (push_perm _ _).trans ((same.cons _).trans (push_perm _ _).symm)
  · exact (push_perm _ _).nodup_iff.mpr (nodup_cons.mpr ⟨hout, nodup⟩)
  · intro id p hp
    rw [hlookup] at hp
    rw [hsubs]
    grind
  · intro p hp
    rw [hsubs]
    simp only [hlookup]
    grind
  · intro id p y hp hy hfree
    rw [hlookup] at hp
    rw [hsubs] at hy
    rw [hmem]
    grind
  · intro p hp
    rcases (hmem p).mp hp with rfl | hp
    · simp only [horizonOf, hsubs, if_true, Option.map_some, Option.getD_some]
      exact hhorizon
    · simp only [horizonOf, hkept p hp]
      exact horizon p hp
  · intro p y hy hp
    rw [hmem, not_or] at hp
    rw [hsubs, if_neg hp.1] at hy
    rcases gone p y hy hp.2 with hle | ⟨b, z, hlt, hz, hid⟩ | he
    · exact .inl hle
    · exact .inr (.inl ⟨b, z, hlt, by rw [hsubs, if_neg (hne b z hz), hz], hid⟩)
    · have hle := (known p y hy).2.1
      exact .inr (.inl ⟨x.token.incarnation, x, by omega, by rw [hsubs, if_pos rfl],
        (hE p y he hy).symm⟩)

end PortableFS.Coherence.Stream
