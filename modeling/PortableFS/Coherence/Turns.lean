import PortableFS.Coherence.StreamInvariant

/-!
# What an operation does to the stream

Every operation is a sequence of a few kinds of moves, and a cold subscription ends in a new
subscriber. What holds over runs is shown for the moves.
-/

namespace PortableFS.Coherence.Stream

open Base SlotHeap List Relation

/-- A change of a subscriber that moves no cursor of a heap. -/
structure Edit (s : Stream) (o : ℕ) (f : Subscriber → Subscriber) : Prop where
  token : ∀ x, (f x).token = x.token := by exact fun _ => rfl
  acked : ∀ x, (f x).acked = x.acked := by exact fun _ => rfl
  horizon : ∀ x, (f x).horizon = x.horizon := by exact fun _ => rfl
  delivered : ∀ x, s.subs o = some x → x.delivered ≤ (f x).delivered ∧ (f x).delivered ≤ s.position
  fenced : ∀ x, (f x).fenced = false → x.fenced = false := by exact fun _ => id
  cached : ∀ x e, x.couldCache e = true → (f x).couldCache e = true := by exact fun _ _ => id

/-- A move; the subscribers of `E` may leave before their time. -/
inductive Move (E : ℕ → Prop) (s : Stream) : Stream → Prop where
  | tick (elapsed : ℕ) : Move E s { s with now := s.now + elapsed }
  | notify : Move E s s.notificationLocked.1
  | signal : Move E s s.signalLocked
  | append (watermark : ℕ) (event : StreamEvent) :
      Move E s ({ s with watermark := watermark }.appendLocked event)
  | edit {o : ℕ} {f : Subscriber → Subscriber} (h : s.Edit o f) : Move E s (s.setSub o f)
  | ack {o position : ℕ} {x : Subscriber} (hx : s.subs o = some x) (ho : o ∈ s.acks)
      (hlt : x.acked < position) (hle : position ≤ x.delivered) : Move E s (s.ackTo o position)
  | extend {o : ℕ} {x : Subscriber} (hx : s.subs o = some x) (ho : o ∈ s.acks)
      (hfirst : s.first ≤ x.acked + 1) : Move E s (s.extend o)
  | retire {o : ℕ} (ho : s.horizonOf o ≤ s.now ∨ E o) (events : List StreamEvent) :
      Move E s ((s.retire o).appendAll events).truncateLocked.signalLocked
  | forget {id : SessionID} {o : ℕ} (hid : s.subscribers.lookup id = some o) (ho : o ∉ s.acks) :
      Move E s { s with subscribers := s.subscribers.erase id }

abbrev Moves (E : ℕ → Prop) : Stream → Stream → Prop := ReflTransGen (Move E)

/-- The subscriber that a cold subscription starts with. -/
structure Fresh (s : Stream) (x : Subscriber) : Prop where
  incarnation : x.token.incarnation = s.incarnation + 1
  session : x.token.session ≠ 0
  out : ∀ p, s.subscribers.lookup x.token.session = some p → p ∉ s.acks
  acked : x.acked = s.position
  delivered : x.delivered = s.position
  horizon : x.horizon = s.now + subscriptionTTL

/-- An operation: moves, and perhaps a new subscriber in the place of those of `E`. -/
inductive Turn (s : Stream) : Stream → Prop where
  | moves {s' : Stream} (h : Moves Nobody s s') : Turn s s'
  | cold {E : ℕ → Prop} {s' : Stream} {x : Subscriber} (h : Moves E s s')
      (hx : s'.Fresh x) (hE : ∀ p y, E p → s'.subs p = some y → y.token.session = x.token.session) :
      Turn s (s'.register x).truncateLocked.signalLocked

variable {s s' : Stream} {E : ℕ → Prop} {o : ℕ} {x : Subscriber}

theorem Inv.setSub {f : Subscriber → Subscriber} (h : s.Inv E) (hf : s.Edit o f) :
    (s.setSub o f).Inv E := by
  refine ⟨{ h.log with }, h.members.put hf.token ?_ (fun x _ => .inl (hf.horizon x)) hf.fenced
    (by rw [ackedOf_setSub hf.acked]; exact h.members.acksHeap) (Subset.refl _) h.members.nodup
    (by rw [horizonOf_setSub hf.horizon]; exact h.members.horizonsHeap) h.members.same
    fun p hp hout => absurd hp hout⟩
  intro x hx
  have hcursors := h.members.cursors o x hx
  have hdelivered := hf.delivered x hx
  rw [hf.acked x]
  omega

theorem Inv.ackTo {position : ℕ} (h : s.Inv E) (hx : s.subs o = some x) (ho : o ∈ s.acks)
    (hle : position ≤ x.delivered) : (s.ackTo o position).Inv E := by
  let f : Subscriber → Subscriber := fun x => { x with acked := position }
  have hhorizonOf : (s.setSub o f).horizonOf = s.horizonOf := horizonOf_setSub fun _ => rfl
  obtain ⟨hheap, hperm⟩ := h.members.acksHeap.rekey (s.setSub o f).ackedOf h.members.nodup ho
    fun p hp => by simp only [ackedOf, Stream.setSub, Function.update_of_ne hp]
  apply Inv.signalLocked
  apply Inv.truncateLocked
  refine ⟨{ h.log with }, h.members.put (f := f) (fun _ => rfl) ?_ (fun _ _ => .inl rfl)
    (fun _ hf => hf) hheap hperm.subset (hperm.nodup_iff.mpr h.members.nodup)
    (hhorizonOf ▸ h.members.horizonsHeap) (h.members.same.trans hperm.symm)
    fun p hp hout => absurd (hperm.mem_iff.mpr hp) hout⟩
  intro y hy
  have hcursors := h.members.cursors o y hy
  cases hx.symm.trans hy
  exact ⟨hle, hcursors.2⟩

theorem Inv.extend (h : s.Inv E) (ho : o ∈ s.acks) : (s.extend o).Inv E := by
  let f : Subscriber → Subscriber := fun x => { x with horizon := s.renewal x }
  have hacked : (s.setSub o f).ackedOf = s.ackedOf := ackedOf_setSub fun _ => rfl
  obtain ⟨hheap, hperm⟩ := h.members.horizonsHeap.rekey (s.setSub o f).horizonOf
    (h.members.same.nodup_iff.mpr h.members.nodup) (h.members.same.mem_iff.mpr ho)
    fun p hp => by simp only [horizonOf, Stream.setSub, Function.update_of_ne hp]
  apply Inv.signalLocked
  refine ⟨{ h.log with }, h.members.put (f := f) (fun _ => rfl) (h.members.cursors o)
    (fun x hx => .inr ⟨ho, ?_⟩) (fun _ hf => hf) (hacked ▸ h.members.acksHeap) (Subset.refl _)
    h.members.nodup hheap (hperm.trans h.members.same) fun p hp hout => absurd hp hout⟩
  have hle := h.members.horizon o ho
  simp only [horizonOf, hx, Option.map_some, Option.getD_some] at hle
  unfold f renewal
  dsimp only
  split <;> omega

theorem Move.inv (hm : Move E s s') (h : s.Inv E) : s'.Inv E := by
  cases hm with
  | tick elapsed =>
    refine ⟨{ h.log with stamped := ?_ }, { h.members with horizon := ?_, gone := ?_ }⟩
    · intro e he hkind
      have hle := h.log.stamped e he hkind
      simp only
      omega
    · intro o ho
      have hle := h.members.horizon o ho
      simp only [horizonOf] at hle ⊢
      omega
    · intro o x hx ho
      exact (h.members.gone o x hx ho).imp_left fun hle => Nat.le_add_right_of_le hle
  | notify =>
    unfold notificationLocked
    split
    · exact h
    · exact ⟨{ h.log with }, { h.members with }⟩
  | signal => exact h.signalLocked
  | append watermark event =>
    apply Inv.appendLocked
    exact ⟨{ h.log with }, { h.members with }⟩
  | edit hf => exact h.setSub hf
  | ack hx ho hlt hle => exact h.ackTo hx ho hle
  | extend hx ho hfirst => exact h.extend ho
  | retire ho events =>
    have hretired : (s.retire _).Inv E := ⟨{ h.log with }, h.members.retire ho⟩
    exact (hretired.appendAll events).truncateLocked.signalLocked
  | @forget id o hid ho =>
    have hlookup (id' : SessionID) := Assoc.lookup_erase_eq s.subscribers id id'
    refine ⟨{ h.log with }, { h.members with registered := ?_, current := ?_, live := ?_ }⟩
    · intro id' p hp
      apply h.members.registered id' p
      grind
    · intro p hp
      obtain ⟨x, hx, hcurrent⟩ := h.members.current p hp
      refine ⟨x, hx, ?_⟩
      grind
    · intro id' p x hp
      apply h.members.live id' p x
      grind

/-- What every move keeps, moves keep. -/
theorem moves_keep {P : Stream → Prop} (hmove : ∀ s s', s.Inv E → Move E s s' → P s → P s')
    (hm : Moves E s s') (h : s.Inv E) (hP : P s) : s'.Inv E ∧ P s' := by
  induction hm with
  | refl => exact ⟨h, hP⟩
  | tail _ hm ih => exact ⟨hm.inv ih.1, hmove _ _ ih.1 hm ih.2⟩

theorem moves_inv (hm : Moves E s s') (h : s.Inv E) : s'.Inv E :=
  (moves_keep (P := fun _ => True) (fun _ _ _ _ => id) hm h trivial).1

/-- What every move and every new subscriber keep, an operation keeps. -/
theorem Turn.keeps {P : Stream → Prop} (hmove : ∀ E s s', s.Inv E → Move E s s' → P s → P s')
    (hcold : ∀ s x, s.Fresh x → P s → P (s.register x).truncateLocked.signalLocked)
    (ht : Turn s s') (h : s.Inv Nobody) (hP : P s) : s'.Inv Nobody ∧ P s' := by
  cases ht with
  | moves hm => exact moves_keep (hmove _) hm h hP
  | cold hm hx hE =>
    obtain ⟨hinv, hP⟩ := moves_keep (hmove _) hm ⟨h.log, h.members.mono fun _ => False.elim⟩ hP
    have hnew := hinv.members.register hx.incarnation hx.session hx.out hE
      (by rw [hx.acked, hx.delivered]; exact ⟨le_rfl, le_rfl⟩) hx.horizon.le
    exact ⟨Inv.signalLocked (Inv.truncateLocked ⟨{ hinv.log with }, hnew⟩), hcold _ _ hx hP⟩

variable {lost : ℕ → List StreamEvent} {token : SubscriptionToken}

theorem appendAll_eq (events : List StreamEvent) : ∃ log first added changed, s.appendAll events =
    { s with
      log := log, first := first, position := s.position + events.length
      history := s.history ++ added, changed := changed } := by
  unfold Stream.appendAll
  induction events generalizing s with
  | nil => exact ⟨s.log, s.first, [], s.changed, by simp⟩
  | cons event events ih =>
    obtain ⟨log, first, added, changed, heq⟩ := ih (s := s.appendLocked event)
    rw [foldl_cons, heq]
    unfold appendLocked
    rw [truncateLocked_eq]
    refine ⟨log, first, s.stamp event :: added, changed, ?_⟩
    simp [enter, Nat.add_comm, Nat.add_left_comm]

theorem retired_eq (events : List StreamEvent) : ∃ log first added,
    ((s.retire o).appendAll events).truncateLocked.signalLocked =
      { s.retire o with
        log := log, first := first, position := s.position + events.length
        history := s.history ++ added, changed := none } := by
  obtain ⟨log, first, added, changed, heq⟩ := (s.retire o).appendAll_eq events
  rw [truncateLocked_eq, heq]
  exact ⟨_, _, added, rfl⟩

theorem appendAll_moves (events : List StreamEvent) : Moves E s (s.appendAll events) := by
  unfold Stream.appendAll
  induction events generalizing s with
  | nil => exact .refl
  | cons event events ih => exact .head (.append s.watermark event) ih

theorem expireLocked_moves : Moves E s (s.expireLocked lost) := by
  unfold expireLocked
  generalize s.horizons.length = rounds
  induction rounds generalizing s with
  | zero => exact .refl
  | succ rounds ih =>
    unfold expireRounds
    split
    · exact .refl
    · split
      · next hle => exact .head (.retire (.inl hle) _) ih
      · exact .refl

/-- The subscriber may act. -/
structure Admitted (s : Stream) (token : SubscriptionToken) (x : Subscriber) : Prop where
  sub : s.subs token.incarnation = some x
  named : x.token = token
  mem : token.incarnation ∈ s.acks
  first : s.first ≤ x.acked + 1

theorem current_eq_some (h : s.Members E)
    (hx : s.current token = some x) : s.subs token.incarnation = some x ∧ x.token = token ∧
      s.subscribers.lookup token.session = some token.incarnation := by
  unfold current at hx
  split at hx
  · cases hx
  · next o ho =>
    rw [Option.filter_eq_some_iff, decide_eq_true_eq] at hx
    obtain ⟨hx, rfl⟩ := hx
    rw [(h.known o x hx).1]
    exact ⟨hx, rfl, ho⟩

theorem fence_edit (h : s.Inv E) : s.Edit o fun x => { x with fenced := true } where
  delivered x hx := ⟨le_rfl, (h.members.cursors o x hx).2⟩
  fenced _ hf := by cases hf

theorem admission_edit (h : s.Inv E) (a : CacheAdmission) (limit : ℕ) :
    s.Edit o (·.addAdmission a limit) where
  delivered x hx := ⟨le_rfl, (h.members.cursors o x hx).2⟩
  cached _ _ he := Subscriber.couldCache_addAdmission a limit he

theorem deliver_edit (h : s.Inv E) (stop : ℕ) (hstop : stop ≤ s.position) :
    s.Edit o fun x => { x with delivered := max x.delivered stop } where
  delivered x hx := ⟨le_max_left .., max_le (h.members.cursors o x hx).2 hstop⟩

variable {R : Type} {run : Stream → Subscriber → Stream × Except CoherenceError R}

/-- An operation expires what it may, and then runs if its subscriber is admitted. -/
theorem admitted_cases (h : s.Inv Nobody) :
    (∃ e, (s.admitted lost token run).2 = .error e ∧
      Moves Nobody s (s.admitted lost token run).1) ∨
    ∃ s₁ x, Moves Nobody s s₁ ∧ s₁.Inv Nobody ∧
      s₁.Admitted token x ∧ s.admitted lost token run = run s₁ x := by
  have hmoves : Moves Nobody s (s.expireLocked lost) := expireLocked_moves
  have hinv := moves_inv hmoves h
  unfold admitted
  dsimp only
  split
  · exact .inl ⟨_, rfl, hmoves⟩
  · next x hx =>
    obtain ⟨hsub, htoken, hlookup⟩ := current_eq_some hinv.members hx
    split
    · exact .inl ⟨_, rfl, hmoves⟩
    next hfenced =>
    split
    · refine .inl ⟨_, rfl, hmoves.trans ?_⟩
      exact .tail (.head (.edit (fence_edit hinv)) (appendAll_moves _)) .signal
    next hfirst =>
    have hmem := hinv.members.live _ _ x hlookup hsub (by simpa using hfenced)
    exact .inr ⟨_, x, hmoves, hinv, ⟨hsub, htoken, hmem, by omega⟩, rfl⟩

theorem admitted_moves (h : s.Inv Nobody)
    (hrun : ∀ s x, s.Inv Nobody → s.Admitted token x → Moves Nobody s (run s x).1) :
    Moves Nobody s (s.admitted lost token run).1 := by
  rcases admitted_cases h with ⟨e, -, hm⟩ | ⟨s₁, x, hm, hinv, hx, heq⟩
  · exact hm
  · rw [heq]
    exact hm.trans (hrun s₁ x hinv hx)

theorem appendCommit_moves (entries : List ChangeEntry) (event : ChangeEntry → StreamEvent) :
    Moves E s (s.appendCommit entries event) := by
  unfold appendCommit
  induction entries generalizing s with
  | nil => exact .refl
  | cons e entries ih => exact .head (.append _ (event e)) ih

theorem pollTurn_moves {after limit : ℕ} {implicitSource : Bool}
    (h : s.Inv E) (hx : s.Admitted token x) (hlimit : limit ≠ 0) :
    Moves E s (s.pollTurn x after limit implicitSource).1 := by
  unfold pollTurn
  split
  · exact .refl
  split
  next hlt =>
    have hedit := deliver_edit (o := x.token.incarnation) h (min s.position (after + limit))
      (min_le_left ..)
    dsimp only
    split
    next hown =>
      have hsub := hx.sub
      rw [← hx.named] at hsub
      refine .tail (.single (.edit hedit)) (.ack (by rw [subs_setSub, hsub]; rfl) ?_ ?_ ?_)
      · rw [hx.named]
        exact hx.mem
      · simp only [if_true]
        omega
      · simp only [if_true]
        omega
    · exact .single (.edit hedit)
  · exact .single .notify

theorem subscribe_turn (h : s.Inv Nobody) (id : SessionID) (initial : CacheAdmission)
    (handles : List Identity) : Turn s (s.subscribe lost id initial handles).1 := by
  unfold subscribe
  split
  · exact .moves .refl
  next hzero =>
  dsimp only
  have hmoves (E : ℕ → Prop) : Moves E s (s.expireLocked lost) := expireLocked_moves
  have hinv := moves_inv (hmoves _) h
  split
  next hnone =>
    refine .cold (hmoves Nobody) ⟨rfl, hzero, ?_, rfl, rfl, rfl⟩ fun _ _ he => he.elim
    intro p hp
    rw [newSubscriber] at hp
    cases hnone.symm.trans hp
  next o ho =>
    have hretire := (hmoves (o = ·)).tail (.retire (.inr rfl) (lost 0))
    have hmem := hinv.members.mem_retire (o := o)
    obtain ⟨x, hx, hid⟩ := hinv.members.registered id o ho
    rw [retireSubscriberLocked]
    obtain ⟨log, first, added, heq⟩ := (s.expireLocked lost).retired_eq (o := o) (lost 0)
    rw [heq] at hretire ⊢
    refine .cold hretire ⟨rfl, hzero, ?_, rfl, rfl, rfl⟩ ?_
    · intro p hp
      cases ho.symm.trans hp
      exact fun hin => ((hmem o).mp hin).2 rfl
    · rintro p y rfl hy
      rw [retire, setSub] at hy
      simp only [Function.update_self, hx, Option.map_some, Option.some.injEq] at hy
      rw [← hy]
      exact hid

theorem next_turn (h : s.Inv Nobody) (op : Op) : Turn s (s.next lost op) := by
  have hexpire : Moves Nobody s (s.expireLocked lost) := expireLocked_moves
  have hinv := moves_inv hexpire h
  cases op with
  | tick elapsed => exact .moves (.single (.tick elapsed))
  | subscribe id initial handles => exact subscribe_turn h id initial handles
  | checkSession token => exact .moves (admitted_moves h fun _ _ _ _ => .refl)
  | admitCache token a =>
    exact .moves (admitted_moves h fun _ _ hs _ => .single (.edit (admission_edit hs a _)))
  | renew token =>
    exact .moves (admitted_moves h fun _ _ _ hx => .single (.extend hx.sub hx.mem hx.first))
  | ack token position =>
    refine .moves (admitted_moves h fun s x _ hx => ?_)
    split
    · exact .refl
    split
    · exact .refl
    · exact .single (.ack hx.sub hx.mem (by omega) (by omega))
  | poll token after limit implicitSource =>
    simp only [next, poll]
    split
    · exact .moves .refl
    next hlimit => exact .moves (admitted_moves h fun _ _ hs hx => pollTurn_moves hs hx hlimit)
  | onCommitFrom entries source => exact .moves (hexpire.trans (appendCommit_moves ..))
  | onCommitTargeted entries source a =>
    have hcommit := hexpire.trans (appendCommit_moves entries (targeted source))
    simp only [next, onCommitTargeted]
    split
    · exact .moves (hcommit.tail (.edit (admission_edit (moves_inv hcommit h) a _)))
    · exact .moves hcommit
  | waitWithdrawn position exclude =>
    simp only [next, waitWithdrawn]
    repeat' split
    all_goals first | exact .moves hexpire | exact .moves (hexpire.tail .notify)
  | waitTargeted w =>
    simp only [next, waitTargeted]
    repeat' split
    all_goals first | exact .moves hexpire | exact .moves (hexpire.tail .notify)
  | expireSession id =>
    simp only [next, expireSession]
    split
    · exact .moves hexpire
    · exact .moves (((hexpire.tail (.edit (fence_edit hinv))).trans (appendAll_moves _)).tail .signal)
  | forgetSession id =>
    simp only [next, forgetSession]
    split
    · exact .moves hexpire
    next o ho =>
    split
    · exact .moves hexpire
    next hout =>
    have happend := hexpire.trans (appendAll_moves (lost 0))
    obtain ⟨log, first, added, changed, heq⟩ := (s.expireLocked lost).appendAll_eq (lost 0)
    rw [heq] at happend ⊢
    exact .moves (happend.tail (.forget ho fun hin => hout (hinv.members.same.mem_iff.mpr hin)))
  | sweep => exact .moves hexpire
  | control events wakes waits =>
    have happend : Moves Nobody s (s.appendAll events) := appendAll_moves _
    simp only [next, control]
    split <;> split
    · exact .moves ((happend.tail .signal).tail .notify)
    · exact .moves (happend.tail .notify)
    · exact .moves (happend.tail .signal)
    · exact .moves happend

theorem inv_new (config : Config) (now : ℕ) : (new config now).Inv Nobody := by
  refine ⟨⟨config.someLog, le_rfl, le_rfl, ?_, rfl, ?_, nofun, .nil⟩, ?_⟩
  · have hlog := config.someLog
    simp only [new]
    omega
  · intro p hp hle
    simp only [new] at hp hle
    omega
  · exact ⟨nofun, nofun, fun _ _ => by simp [new, slot], fun _ _ => by simp [new, slot], .nil, .nil,
      nofun, nofun, nofun, nofun, nofun⟩

/-- What every move and every new subscriber keep, a run keeps. -/
theorem run_keeps {P : Stream → Prop} (hmove : ∀ E s s', s.Inv E → Move E s s' → P s → P s')
    (hcold : ∀ s x, s.Fresh x → P s → P (s.register x).truncateLocked.signalLocked)
    (hrun : ReflTransGen Step s s') (h : s.Inv Nobody) (hP : P s) : s'.Inv Nobody ∧ P s' := by
  induction hrun with
  | refl => exact ⟨h, hP⟩
  | tail _ hstep ih =>
    obtain ⟨lost, op, rfl⟩ := hstep
    exact (next_turn ih.1 op).keeps hmove hcold ih.1 ih.2

theorem Reachable.inv {config : Config} (h : Reachable config s) : s.Inv Nobody := by
  obtain ⟨now, hrun⟩ := h
  exact (run_keeps (P := fun _ => True) (fun _ _ _ _ _ => id) (fun _ _ _ => id) hrun
    (inv_new config now) trivial).1

end PortableFS.Coherence.Stream
