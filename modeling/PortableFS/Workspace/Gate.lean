import Mathlib

/-!
# The workspace admission gate

`vcs/internal/workspaceadmission/gate_linux.go`. One word of a shared page is written by the
supervisor and read by the child: its low bit is the serving state, the rest is a serial. A call of
the supervisor holds its lock and is one event. The reader holds no lock, so its functions take what
their loads of `dead` and of the word returned. The fields of a permit are private: what `Prepared`
is given is the zero permit or came from a call that returned no error.
-/

namespace PortableFS.Workspace

/-- `math.MaxUint64>>1`, the last serial. -/
def maxSerial : ℕ := 2 ^ 63 - 1

/-- `gate_linux.go:45`. -/
structure Binding where
  boot : Vector UInt8 16
  hostService : Vector UInt8 16
  guestService : Vector UInt8 16
  incarnation : Vector UInt8 16
  supervisorPID : ℤ
  supervisorStart : ℕ
deriving DecidableEq

/-- The binding of a zero permit. -/
def Binding.zero : Binding :=
  let none := Vector.replicate 16 0
  ⟨none, none, none, none, 0, 0⟩

/-- The check of `header`, `gate_linux.go:52`, without which `New` makes no supervisor. -/
def Binding.complete (b : Binding) : Bool :=
  ¬ (b.boot = Binding.zero.boot ∨ b.hostService = Binding.zero.boot ∨
    b.guestService = Binding.zero.boot ∨ b.incarnation = Binding.zero.boot ∨
    b.supervisorPID ≤ 0 ∨ b.supervisorStart = 0)

/-- `gate_linux.go:165`. -/
structure RecoveryPermit where
  binding : Binding
  word : ℕ
  generation : ℕ
deriving DecidableEq

/-- `gate_linux.go:170`. -/
def RecoveryPermit.serial (p : RecoveryPermit) : ℕ := p.word / 2

/-- The permit that comes with an error. -/
def RecoveryPermit.zero : RecoveryPermit := ⟨.zero, 0, 0⟩

/-- A `Supervisor`, `gate_linux.go:68`, the shared word, and `dead` of its reader. `mapped` says that
the supervisor still has the word. -/
structure State where
  binding : Binding
  word : ℕ
  mapped : Bool
  generation : ℕ
  prepared : Option RecoveryPermit
  exhausted : Bool
  finalSerial : ℕ
  dead : Bool

/-- A gate after `New` and `Adopt`. -/
def State.opened (b : Binding) : State := ⟨b, 0, true, 0, none, false, 0, false⟩

namespace State

/-- The serial of the shared word. -/
def serial (s : State) : ℕ := s.word / 2

/-- `gate_linux.go:140`. -/
def close (s : State) (generation : ℕ) : ℕ × State :=
  if ¬ s.mapped then (s.finalSerial, s)
  else
    let serial := if s.serial = maxSerial then s.serial else s.serial + 1
    (serial,
      { s with
        word := 2 * serial, generation := max s.generation generation, prepared := none,
        exhausted := s.exhausted || s.serial = maxSerial || serial = maxSerial })

/-- `Recovery` of the supervisor, `gate_linux.go:172`; no permit is `ErrClosed`. -/
def recovery (s : State) (generation : ℕ) : Option RecoveryPermit × State :=
  if ¬ s.mapped ∨ s.exhausted ∨ s.serial = maxSerial ∨ s.word % 2 ≠ 0 ∨
      generation < s.generation then (none, s)
  else (some ⟨s.binding, s.word, generation⟩, { s with generation })

/-- The conditions of `Prepared`, `gate_linux.go:191`. -/
def accepts (s : State) (p : RecoveryPermit) : Bool :=
  s.mapped ∧ ¬ s.exhausted ∧ p.binding = s.binding ∧ p.generation = s.generation ∧
    p.word = s.word ∧ p.word % 2 = 0

/-- `Prepared`, `gate_linux.go:188`. -/
def prepare (s : State) (p : RecoveryPermit) : State :=
  if s.accepts p then { s with prepared := some p } else s

/-- The conditions of `Open`, `gate_linux.go:201`, with those of its `CompareAndSwap`. -/
def opens (s : State) (generation serial : ℕ) : Bool :=
  s.prepared.any fun p => s.mapped ∧ ¬ s.exhausted ∧ p.generation = generation ∧
    p.generation = s.generation ∧ p.serial = serial ∧ s.word = p.word

/-- `Open`, `gate_linux.go:197`. The word of a prepared permit is even. -/
def openGate (s : State) (generation serial : ℕ) : State :=
  if s.opens generation serial then { s with word := s.word + 1, prepared := none } else s

/-- `gate_linux.go:211`. -/
def dispose (s : State) : State :=
  let serial := if s.serial < maxSerial then s.serial + 1 else s.serial
  if s.mapped then
    { s with word := 2 * serial, finalSerial := serial, mapped := false, exhausted := true,
             prepared := none }
  else { s with exhausted := true, prepared := none }

end State

/-- `Check` of a `ServingPermit`, `gate_linux.go:253`. -/
def servingCheck (dead : Bool) (word permit : ℕ) : Bool :=
  ¬ (permit / 2 = maxSerial ∨ permit % 2 = 0 ∨ dead ∨ word ≠ permit)

/-- `Check` of a `Reader`, `gate_linux.go:347`: the permit, and whether it passed its own check with
two later loads. -/
def readerCheck (dead : Bool) (word : ℕ) (dead' : Bool) (word' : ℕ) : Option ℕ × Bool :=
  if dead then (none, false) else (some word, servingCheck dead' word' word)

/-- Why a `Recover` is refused. -/
inductive Refusal
  | closed
  /-- `PermitOvertaken`, `gate_linux.go:33`. -/
  | overtaken (generation serial successor : ℕ)

/-- `gate_linux.go:355`. -/
def recover (b : Binding) (dead : Bool) (word : ℕ) (p : RecoveryPermit) : Except Refusal Unit :=
  if dead ∨ p.serial = maxSerial ∨ p.binding ≠ b ∨ p.word % 2 ≠ 0 then .error .closed
  else if word ≠ p.word then
    if p.serial < word / 2 then .error (.overtaken p.generation p.serial (word / 2))
    else .error .closed
  else .ok ()

/-- `Recovery` of the reader, `gate_linux.go:382`. -/
def readerRecovery (b : Binding) (dead : Bool) (word generation serial : ℕ) :
    Except Refusal RecoveryPermit := do
  let p : RecoveryPermit := ⟨b, 2 * serial, generation⟩
  if maxSerial < serial then throw .closed
  recover b dead word p
  return p

/-- `gate_linux.go:392`. -/
def installed (b : Binding) (dead : Bool) (word : ℕ) (p : RecoveryPermit) : Bool :=
  ¬ dead ∧ p.serial ≠ maxSerial ∧ p.binding = b ∧ p.word % 2 = 0 ∧ word = p.word + 1

/-- What happens to a gate. `readerRecovery` comes with the `dead` that it loaded before. -/
inductive Event
  | close (generation : ℕ)
  | recovery (generation : ℕ)
  | prepared (p : RecoveryPermit)
  | openGate (generation serial : ℕ)
  | dispose
  | readerRecovery (dead : Bool) (generation serial : ℕ)
  /-- The owner's pipe ended, or the reader was retired. -/
  | die

namespace State

/-- The gate after an event. -/
def next (s : State) : Event → State
  | .close generation => (s.close generation).2
  | .recovery generation => (s.recovery generation).2
  | .prepared p => s.prepare p
  | .openGate generation serial => s.openGate generation serial
  | .dispose => s.dispose
  | .readerRecovery _ _ _ => s
  | .die => { s with dead := true }

/-- The gate after events in order. -/
def run (s : State) (events : List Event) : State := events.foldl next s

/-- The permit that an event issues. -/
def issues (s : State) : Event → Option RecoveryPermit
  | .recovery generation => (s.recovery generation).1
  | .readerRecovery dead generation serial =>
    (readerRecovery s.binding dead s.word generation serial).toOption
  | _ => none

end State

/-- A `Close` or a `Dispose`. -/
def Event.cuts : Event → Bool
  | .close _ | .dispose => true
  | _ => false

/-- What callers have seen: every permit issued, those issued and those prepared since the last cut,
the generations given to a `Close` or to a `Recovery` that succeeded, and all that were given to the
supervisor. -/
structure History where
  issued : List RecoveryPermit
  fresh : List RecoveryPermit
  ready : List RecoveryPermit
  taken : List ℕ
  named : List ℕ

/-- The generation that an event gives to the supervisor. -/
def Event.names : Event → Option ℕ
  | .close generation | .recovery generation | .openGate generation _ => some generation
  | .prepared p => some p.generation
  | _ => none

/-- The generation that an event gives to the supervisor and the supervisor takes. -/
def State.takes (s : State) : Event → Option ℕ
  | .close generation => some generation
  | .recovery generation => (s.recovery generation).1.map (·.generation)
  | _ => none

/-- The permit that an event prepares. -/
def State.readies (s : State) : Event → Option RecoveryPermit
  | .prepared p => if s.accepts p then some p else none
  | _ => none

/-- The history after an event. -/
def History.note (h : History) (s : State) (e : Event) : History where
  issued := (s.issues e).toList ++ h.issued
  fresh := if e.cuts then [] else (s.issues e).toList ++ h.fresh
  ready := if e.cuts then [] else (s.readies e).toList ++ h.ready
  taken := (s.takes e).toList ++ h.taken
  named := e.names.toList ++ h.named

/-- The gates that a complete binding leads to, with their histories. -/
inductive Reachable (b : Binding) : State → History → Prop
  | opened (hb : b.complete) : Reachable b (.opened b) ⟨[], [], [], [], []⟩
  | next {s : State} {h : History} (e : Event) (hr : Reachable b s h)
      (hp : ∀ p, e = .prepared p → p = .zero ∨ p ∈ h.issued) :
      Reachable b (s.next e) (h.note s e)

/-- The word never passes the closed word of the last serial, where the gate is exhausted, and is
closed once the supervisor has given it up. -/
structure WordInv (s : State) : Prop where
  le : s.word ≤ 2 * maxSerial
  final : s.serial = maxSerial → s.exhausted = true
  disposed : s.mapped = false → s.word % 2 = 0 ∧ s.exhausted = true ∧ s.prepared = none
  prepared : ∀ p, s.prepared = some p → s.word = p.word ∧ s.word % 2 = 0

private theorem wordInv_opened (b : Binding) : WordInv (.opened b) := by
  constructor <;> simp [State.opened, State.serial, maxSerial]

variable {s : State} {generation serial : ℕ}

private theorem opens_word (hs : WordInv s) (h : s.opens generation serial = true) :
    s.word % 2 = 0 ∧ s.serial < maxSerial ∧ s.mapped = true := by
  simp only [State.opens, Option.any_eq_true, decide_eq_true_eq] at h
  obtain ⟨p, hp, hm, hex, -⟩ := h
  have hne : s.serial ≠ maxSerial := fun hf => hex (hs.final hf)
  have hle := hs.le
  refine ⟨(hs.prepared p hp).2, ?_, hm⟩
  unfold State.serial at hne ⊢
  omega

private theorem recovery_cases (s : State) (generation : ℕ) : s.recovery generation = (none, s) ∨
      s.recovery generation = (some ⟨s.binding, s.word, generation⟩, { s with generation }) ∧
      s.generation ≤ generation ∧ s.serial ≠ maxSerial := by
  unfold State.recovery
  split
  next => exact .inl rfl
  next hn =>
    push Not at hn
    exact .inr ⟨rfl, hn.2.2.2.2, hn.2.2.1⟩

/-- An event keeps the invariant, and the word does not decrease. -/
theorem WordInv.next (hs : WordInv s) (e : Event) :
    WordInv (s.next e) ∧ s.word ≤ (s.next e).word := by
  have hkeep : WordInv s ∧ s.word ≤ s.word := ⟨hs, le_rfl⟩
  obtain ⟨hle, hfinal, hdisposed, hprepared⟩ := hs
  cases e with
  | close generation =>
    by_cases hm : s.mapped = true
    · by_cases hf : s.word / 2 = maxSerial <;> refine ⟨⟨?_, ?_, ?_, ?_⟩, ?_⟩ <;>
        simp [State.next, State.close, State.serial, hm, hf] <;> omega
    · have hsame : s.next (.close generation) = s := by simp [State.next, State.close, hm]
      rw [hsame]
      exact hkeep
  | recovery generation =>
    rcases recovery_cases s generation with hr | ⟨hr, -⟩ <;> simp only [State.next, hr]
    · exact hkeep
    · exact ⟨⟨hle, hfinal, hdisposed, hprepared⟩, le_rfl⟩
  | prepared p =>
    simp only [State.next, State.prepare]
    split
    next ha =>
      simp only [State.accepts, decide_eq_true_eq] at ha
      refine ⟨⟨hle, hfinal, fun hm => ?_, fun q hq => ?_⟩, le_rfl⟩
      · simp [ha.1] at hm
      · cases hq
        dsimp only
        omega
    next => exact hkeep
  | openGate generation serial =>
    simp only [State.next, State.openGate]
    split
    next ho =>
      obtain ⟨heven, hlt, hm⟩ := opens_word ⟨hle, hfinal, hdisposed, hprepared⟩ ho
      unfold State.serial at hlt
      refine ⟨⟨?_, ?_, ?_, nofun⟩, ?_⟩ <;> simp [State.serial, hm] <;> omega
    next => exact hkeep
  | dispose =>
    by_cases hm : s.mapped = true
    · by_cases hf : s.word / 2 < maxSerial <;> refine ⟨⟨?_, ?_, ?_, ?_⟩, ?_⟩ <;>
        simp [State.next, State.dispose, State.serial, hm, hf] <;> omega
    · simp only [State.next, State.dispose, if_neg hm]
      have hd := hdisposed (by simpa using hm)
      exact ⟨⟨hle, fun _ => rfl, fun _ => ⟨hd.1, rfl, rfl⟩, nofun⟩, le_rfl⟩
  | readerRecovery dead generation serial => exact hkeep
  | die => exact ⟨⟨hle, hfinal, hdisposed, hprepared⟩, le_rfl⟩

/-- Events in order keep the invariant, and the word does not decrease. -/
theorem WordInv.run (hs : WordInv s) (events : List Event) :
    WordInv (s.run events) ∧ s.word ≤ (s.run events).word := by
  induction events generalizing s with
  | nil => exact ⟨hs, le_rfl⟩
  | cons e rest ih =>
    have hstep := hs.next e
    have hrest := ih hstep.1
    exact ⟨hrest.1, hstep.2.trans hrest.2⟩

variable {e : Event}

/-- A cut leaves the word closed, and past its old value unless the gate is exhausted. -/
theorem WordInv.cut (hs : WordInv s) (he : e.cuts = true) :
    (s.next e).word % 2 = 0 ∧ ((s.next e).exhausted = false → s.word < (s.next e).word) := by
  have hle := hs.le
  by_cases hm : s.mapped = true
  · cases e <;> simp [Event.cuts] at he
    · by_cases hf : s.word / 2 = maxSerial <;>
        simp [State.next, State.close, State.serial, hm, hf]
      omega
    · by_cases hf : s.serial < maxSerial <;> simp [State.next, State.dispose, hm, hf]
  · obtain ⟨heven, hex, -⟩ := hs.disposed (by simpa using hm)
    cases e <;> simp [Event.cuts] at he <;>
      simp [State.next, State.close, State.dispose, hm, heven, hex]

/-- What an event leaves of a gate beside its word. -/
structure Stepped (s : State) (e : Event) (s' : State) : Prop where
  binding : s'.binding = s.binding
  exhausted : s.exhausted = true → s'.exhausted = true
  dead : s.dead = true → s'.dead = true
  mapped : s'.mapped = true → s.mapped = true
  generation : s.generation ≤ s'.generation
  takes : s'.mapped = true → ∀ n, s.takes e = some n → n ≤ s'.generation
  prepared : ∀ p, s'.prepared = some p →
    e.cuts = false ∧ (s.prepared = some p ∨ s.readies e = some p)

private theorem stepped_next (hs : WordInv s) (e : Event) : Stepped s e (s.next e) := by
  have hdisposed := hs.disposed
  cases e with
  | close generation =>
    by_cases hm : s.mapped = true <;> constructor <;>
      simp_all [State.next, State.close, State.takes]
  | recovery generation =>
    rcases recovery_cases s generation with hr | ⟨hr, hle, -⟩ <;> constructor <;>
      simp_all [State.next, State.takes, Event.cuts]
  | prepared p =>
    by_cases ha : s.accepts p = true <;> constructor <;>
      simp_all [State.next, State.prepare, State.takes, State.readies, Event.cuts]
  | openGate generation serial =>
    by_cases ho : s.opens generation serial = true <;> constructor <;>
      simp_all [State.next, State.openGate, State.takes, Event.cuts]
  | dispose =>
    by_cases hm : s.mapped = true <;> constructor <;>
      simp_all [State.next, State.dispose, State.takes]
  | readerRecovery dead generation serial =>
    constructor <;> simp_all [State.next, State.takes, Event.cuts]
  | die => constructor <;> simp_all [State.next, State.takes, Event.cuts]

variable {b : Binding} {p : RecoveryPermit} {dead : Bool} {word : ℕ}

private theorem recover_ok {u : Unit} (h : recover b dead word p = .ok u) :
    dead = false ∧ p.serial ≠ maxSerial ∧ p.binding = b ∧ word = p.word := by
  unfold recover at h
  split at h
  next => cases h
  next hn =>
    split at h
    next => split at h <;> cases h
    next hw =>
      push Not at hn hw
      exact ⟨by simpa using hn.1, hn.2.1, hn.2.2.1, hw⟩

private theorem readerRecovery_ok (h : readerRecovery b dead word generation serial = .ok p) :
    recover b dead word p = .ok () := by
  unfold readerRecovery at h
  split at h
  next => cases h
  next =>
    cases hr : recover b dead word ⟨b, 2 * serial, generation⟩ with
    | error e => simp [hr, bind, Except.bind] at h
    | ok u =>
      simp only [hr, bind, Except.bind, pure, Except.pure] at h
      cases h
      exact hr

private theorem issues_word (h : s.issues e = some p) :
    p.word = s.word ∧ (s.next e).word = s.word ∧ e.cuts = false := by
  cases e <;> simp only [State.issues, reduceCtorEq] at h
  case recovery generation =>
    rcases recovery_cases s generation with hr | ⟨hr, -⟩ <;> rw [hr] at h <;> cases h
    simp only [State.next, hr, Event.cuts, and_self]
  case readerRecovery dead generation serial =>
    cases hr : readerRecovery s.binding dead s.word generation serial with
    | error e => simp [hr, Except.toOption] at h
    | ok q =>
      simp only [hr, Except.toOption, Option.some.injEq] at h
      subst h
      exact ⟨(recover_ok (readerRecovery_ok hr)).2.2.2.symm, rfl, rfl⟩

/-- What holds of a gate and its history: an issued permit whose word is still current is fresh, a
prepared one is fresh and ready, and no generation that was taken is above the gate's. -/
structure Inv (b : Binding) (s : State) (h : History) : Prop where
  word : WordInv s
  binding : s.binding = b
  complete : b.complete = true
  issued : ∀ p ∈ h.issued, p.word ≤ s.word ∧
    (p.word = s.word → s.exhausted = false → p ∈ h.fresh)
  prepared : ∀ p, s.prepared = some p → p ∈ h.fresh ∧ p ∈ h.ready
  taken : s.mapped = true → ∀ n ∈ h.taken, n ≤ s.generation

private theorem Inv.opened (hb : b.complete = true) : Inv b (.opened b) ⟨[], [], [], [], []⟩ :=
  ⟨wordInv_opened b, rfl, hb, nofun, nofun, fun _ => nofun⟩

private theorem zero_binding_ne (hb : b.complete = true) : RecoveryPermit.zero.binding ≠ b := by
  rintro rfl
  simp [RecoveryPermit.zero, Binding.complete] at hb

variable {h : History}

private theorem Inv.issued_next (hi : Inv b s h) (e : Event) :
    ∀ p ∈ (h.note s e).issued, p.word ≤ (s.next e).word ∧
      (p.word = (s.next e).word → (s.next e).exhausted = false → p ∈ (h.note s e).fresh) := by
  intro p hp
  have hmono := (hi.word.next e).2
  rcases List.mem_append.mp hp with hnew | hold
  · obtain ⟨hword, hkeep, hcut⟩ := issues_word (Option.mem_toList.mp hnew)
    refine ⟨by omega, fun _ _ => ?_⟩
    simp only [History.note, hcut, Bool.false_eq_true, if_false]
    exact List.mem_append_left _ hnew
  obtain ⟨hle, hfresh⟩ := hi.issued p hold
  refine ⟨hle.trans hmono, fun heq hex => ?_⟩
  cases hcut : e.cuts with
  | true =>
    have hlt := (hi.word.cut hcut).2 hex
    omega
  | false =>
    have hex' : s.exhausted = false := by
      by_contra hne
      simp [(stepped_next hi.word e).exhausted (by simpa using hne)] at hex
    simp only [History.note, hcut, Bool.false_eq_true, if_false]
    exact List.mem_append_right _ (hfresh (by omega) hex')

private theorem Inv.prepared_next (hi : Inv b s h)
    (hp : ∀ p, e = .prepared p → p = .zero ∨ p ∈ h.issued) (hsome : (s.next e).prepared = some p) :
    p ∈ (h.note s e).fresh ∧ p ∈ (h.note s e).ready := by
  obtain ⟨hcut, hold | hnew⟩ := (stepped_next hi.word e).prepared p hsome
  · simp [History.note, hcut, hi.prepared p hold]
  cases e <;> simp only [State.readies, reduceCtorEq] at hnew
  case prepared q =>
    split at hnew
    next ha =>
      cases hnew
      have haccepts := ha
      simp only [State.accepts, decide_eq_true_eq] at haccepts
      obtain ⟨-, hex, hbinding, -, hword, -⟩ := haccepts
      -- the zero permit has another binding, so this one was issued, and at this word
      rcases hp p rfl with rfl | hissued
      · exact absurd (hbinding.trans hi.binding) (zero_binding_ne hi.complete)
      · have hfresh := (hi.issued p hissued).2 hword (by simpa using hex)
        simp [History.note, Event.cuts, State.readies, ha, hfresh]
    next => cases hnew

private theorem Inv.taken_next (hi : Inv b s h) (e : Event) (hm : (s.next e).mapped = true) :
    ∀ n ∈ (h.note s e).taken, n ≤ (s.next e).generation := by
  have hstep := stepped_next hi.word e
  intro n hn
  rcases List.mem_append.mp hn with hnew | hold
  · exact hstep.takes hm n (Option.mem_toList.mp hnew)
  · exact (hi.taken (hstep.mapped hm) n hold).trans hstep.generation

theorem Reachable.inv (hr : Reachable b s h) : Inv b s h := by
  induction hr with
  | opened hb => exact Inv.opened hb
  | next e _ hp ih =>
    exact ⟨(ih.word.next e).1, (stepped_next ih.word e).binding.trans ih.binding, ih.complete, ih.issued_next e,
      fun p hsome => ih.prepared_next hp hsome, ih.taken_next e⟩

/-- Every check of the reader refuses every permit. -/
structure Refuses (b : Binding) (dead : Bool) (word : ℕ) : Prop where
  serving : ∀ permit, servingCheck dead word permit = false
  check : ∀ dead' word', (readerCheck dead word dead' word').2 = false
  recover : ∀ p, recover b dead word p ≠ .ok ()
  recovery : ∀ generation serial p, readerRecovery b dead word generation serial ≠ .ok p
  installed : ∀ p, installed b dead word p = false

private theorem refuses_of (h : dead = true ∨ word = 2 * maxSerial) : Refuses b dead word := by
  have hrecover : ∀ p, Workspace.recover b dead word p ≠ .ok () := by
    intro p hok
    obtain ⟨hdead, hserial, -, hword⟩ := recover_ok hok
    unfold RecoveryPermit.serial at hserial
    simp only [hdead, Bool.false_eq_true, false_or] at h
    omega
  refine ⟨fun permit => ?_, fun dead' word' => ?_, hrecover, fun _ _ p hok =>
    hrecover p (readerRecovery_ok hok), fun p => ?_⟩
  · cases dead <;> simp [servingCheck] at h ⊢
    omega
  · cases dead <;> simp [readerCheck, servingCheck] at h ⊢
    omega
  · cases dead <;> simp [Workspace.installed, RecoveryPermit.serial] at h ⊢
    omega

private theorem dead_run (hs : WordInv s) (events : List Event) (h : s.dead = true) :
    (s.run events).dead = true := by
  induction events generalizing s with
  | nil => exact h
  | cons e rest ih => exact ih (hs.next e).1 ((stepped_next hs e).dead h)

private theorem serial_run (hs : WordInv s) (events : List Event) (h : s.serial = maxSerial) :
    (s.run events).word = 2 * maxSerial := by
  have hrun := hs.run events
  have hle := hrun.1.le
  unfold State.serial at h
  omega

private theorem servingCheck_cut (hs : WordInv s) (between later : List Event) {cut : Event}
    (hcut : cut.cuts = true) (dead : Bool) :
    servingCheck dead (s.run (between ++ cut :: later)).word s.word = false := by
  have hbetween := hs.run between
  have hnext := hbetween.1.next cut
  have hlater := hnext.1.run later
  have heven := (hbetween.1.cut hcut).1
  have hrun : s.run (between ++ cut :: later) = (((s.run between).next cut).run later) := by
    simp [State.run]
  simp only [servingCheck, hrun, decide_eq_false_iff_not, not_not]
  omega

/-- For every gate that a run reaches: the serial does not decrease and each `Close` before the last
serial adds one; a serving permit does not pass after a later cut; `Open` succeeds only with a permit
issued and prepared since the last cut, at a generation that no generation taken is above; at the
last serial nobody accepts a permit, and a dead reader refuses all. -/
theorem admission_cut {b : Binding} {s : State} {h : History} (hr : Reachable b s h) :
    (∀ e, s.serial ≤ (s.next e).serial) ∧
    (∀ generation, s.mapped = true → s.serial < maxSerial →
      (s.next (.close generation)).serial = s.serial + 1) ∧
    (∀ between cut later dead, cut.cuts = true →
      servingCheck dead (s.run (between ++ cut :: later)).word s.word = false) ∧
    (∀ generation serial, s.opens generation serial = true →
      ∃ p ∈ h.fresh, p ∈ h.ready ∧ p.generation = generation ∧ p.serial = serial ∧
        ∀ n ∈ h.taken, n ≤ generation) ∧
    (∀ later, s.serial = maxSerial → (∀ dead, Refuses b dead (s.run later).word) ∧
      (∀ generation, ((s.run later).recovery generation).1 = none) ∧
      (∀ p, (s.run later).accepts p = false) ∧
      ∀ generation serial, (s.run later).opens generation serial = false) ∧
    ∀ later word, s.dead = true → Refuses b (s.run later).dead word := by
  have hi := hr.inv
  refine ⟨fun e => ?_, fun generation hm hlt => ?_, fun between cut later dead hcut =>
    servingCheck_cut hi.word between later hcut dead, fun generation serial ho => ?_,
    fun later hlast => ?_, fun later word hdead => refuses_of (.inl (dead_run hi.word later hdead))⟩
  · have hmono := (hi.word.next e).2
    unfold State.serial
    omega
  · have hne : s.serial ≠ maxSerial := by omega
    simp [State.next, State.close, hm, hne]
    simp [State.serial]
  · have hm := (opens_word hi.word ho).2.2
    simp only [State.opens, Option.any_eq_true, decide_eq_true_eq] at ho
    obtain ⟨p, hp, -, -, hgeneration, hcurrent, hserial, -⟩ := ho
    obtain ⟨hfresh, hready⟩ := hi.prepared p hp
    refine ⟨p, hfresh, hready, hgeneration, hserial, fun n hn => ?_⟩
    have hle := hi.taken hm n hn
    omega
  · have hword := serial_run hi.word later hlast
    have hinv := (hi.word.run later).1
    have hserial : (s.run later).serial = maxSerial := by
      unfold State.serial
      omega
    have hex := hinv.final hserial
    refine ⟨fun dead => refuses_of (.inr hword), fun generation => ?_, fun p => ?_,
      fun generation serial => ?_⟩
    · simp [State.recovery, hserial]
    · simp [State.accepts, hex]
    · simp [State.opens, hex]

private def someBinding : Binding :=
  let id := Vector.replicate 16 1
  ⟨id, id, id, id, 1, 1⟩

/-- A gate that was prepared once opens. -/
theorem admission_cut_prepared : ∃ s h, Reachable someBinding s h ∧ s.opens 0 0 = true ∧
    ∃ p ∈ h.fresh, p ∈ h.ready ∧ p.generation = 0 ∧ p.serial = 0 ∧ ∀ n ∈ h.taken, n ≤ 0 := by
  have h₀ : Reachable someBinding _ _ := .opened (by decide)
  have h₁ := h₀.next (.recovery 0) nofun
  have h₂ := h₁.next (.prepared ⟨someBinding, 0, 0⟩) (fun p hp => .inr (by cases hp; decide))
  exact ⟨_, _, h₂, by decide, (admission_cut h₂).2.2.2.1 0 0 (by decide)⟩

/-- A `Recovery` that is refused while the gate serves leaves its generation unrecorded, so the gate
opens at an older one later. -/
theorem open_below_refused : ¬ ∀ b s h, Reachable b s h → ∀ generation serial,
    s.opens generation serial = true → ∀ n ∈ h.named, n ≤ generation := by
  intro hall
  have h₀ : Reachable someBinding _ _ := .opened (by decide)
  have h₁ := h₀.next (.recovery 0) nofun
  have h₂ := h₁.next (.prepared ⟨someBinding, 0, 0⟩) (fun p hp => .inr (by cases hp; decide))
  have h₃ := h₂.next (.openGate 0 0) nofun
  have h₄ := h₃.next (.recovery 9) nofun
  have h₅ := h₄.next (.close 0) nofun
  have h₆ := h₅.next (.recovery 0) nofun
  have h₇ := h₆.next (.prepared ⟨someBinding, 2, 0⟩) (fun p hp => .inr (by cases hp; decide))
  exact absurd (hall _ _ _ h₇ 0 1 (by decide) 9 (by decide)) (by decide)

end PortableFS.Workspace
