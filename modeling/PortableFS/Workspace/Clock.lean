import Mathlib

/-!
# The workspace clock

`vcs/internal/workspaceclock/clock.go`. A measurement reads the RTC, sets the wall if it is off,
verifies it and reports the clock available. It holds a lock for sampling, so one is under way at a
time, but `Begin` and `Pause` come between its parts. What the backend tells a part is an argument.
Times and durations are nanoseconds.
-/

namespace PortableFS.Workspace.Clock

/-- `time.Second`. -/
def second : ℤ := 10 ^ 9

/-- `clock.go:19`. -/
def maxUTCError : ℤ := 3 * second

/-- `clock.go:20`. -/
def sourceError : ℤ := second

/-- `clock.go:21`. -/
def quantization : ℤ := second

/-- `clock.go:22`. -/
def maxSampleAge : ℤ := second / 4

/-- `clock.go:23`. -/
def driftBudget : ℤ := second / 4

/-- Arithmetic of `int64`. -/
def wrap (d : ℤ) : ℤ := d.bmod (2 ^ 64)

/-- `Sub` of two times, which saturates. -/
def sub (a b : ℤ) : ℤ := max (-2 ^ 63) (min (2 ^ 63 - 1) (a - b))

/-- `clock.go:152`. -/
def distance (a b : ℤ) : ℤ := if sub a b < 0 then wrap (-sub a b) else sub a b

/-- `clock.go:159`. -/
def fits (wall low high : ℤ) : Bool :=
  wrap (max (distance wall low) (distance wall high) + driftBudget) ≤ maxUTCError

/-- The check of `clock.go:194`: a whole second of the years 2020 to 2100. -/
def wellFormed (rtc : ℤ) : Bool :=
  rtc % second = 0 ∧ 1577836800 * second ≤ rtc ∧ rtc < 4133980800 * second

/-- `clock.go:27–28`, with what is unavailable. -/
inductive ClockError where
  | obsolete
  | unavailable (what : String)
deriving DecidableEq

/-- `clock.go:39`. -/
structure Measurement where
  elapsedEnd : ℤ
  generation : ℕ
  rtc : ℤ
  wallBefore : ℤ
  wallAfter : ℤ
  sampleAge : ℤ
  correction : ℤ
  contention : ℤ

/-- What a measurement reads at its start. -/
structure Sample where
  start : ℤ
  generation : ℕ
  revision : ℕ
  contention : ℤ

/-- A measurement that holds the lock for sampling, before and after it looks at the clocks. -/
inductive Flight where
  | sampled (s : Sample)
  | read (s : Sample) (m : Measurement)

/-- What happened to the wall. It was set while a channel was current, or a measurement that had set
it returned an error, or one reported the clock available, with the channels closed by then. -/
inductive Event where
  | corrected (channel : ℕ)
  | abandoned
  | available (closed : ℕ)
deriving DecidableEq

/-- `clock.go:49`. The channels of `Corrections` are numbered: `correctionRevision` of them are
closed, and the next one is current. The trace is kept for statements only. -/
structure Owner where
  generation : ℕ
  active : Bool
  ready : Bool
  closed : Bool
  measured : ℤ
  low : ℤ
  high : ℤ
  revision : ℕ
  correctionRevision : ℕ
  flight : Option Flight
  trace : List Event

namespace Owner

/-- `clock.go:71`. -/
def new : Owner := ⟨0, false, false, false, 0, 0, 0, 0, 0, none, []⟩

/-- `clock.go:97`. -/
def begin (o : Owner) (generation : ℕ) : Owner × Option ClockError :=
  if o.closed ∨ generation < o.generation ∨ o.active ∧ generation = o.generation then
    (o, some .obsolete)
  else
    ({ o with
      ready := false, generation, active := true, revision := (o.revision + 1) % 2 ^ 64 }, none)

/-- `clock.go:116`. -/
def pause (o : Owner) : Owner :=
  if o.closed then o
  else { o with ready := false, active := false, revision := (o.revision + 1) % 2 ^ 64 }

/-- What `Measure` returns, if it does. -/
abbrev Result := Option (Measurement × Option ClockError)

/-- A measurement returns an error, `clock.go:170`. -/
def fail (o : Owner) (m : Measurement) (e : ClockError) : Owner × Result :=
  ({ o with
    ready := o.ready && e = .obsolete, flight := none
    trace := if m.correction = 0 then o.trace else o.trace ++ [.abandoned] }, some (m, some e))

/-- The start of `Measure`, `clock.go:166–188`. -/
def sample (o : Owner) (queued start : ℤ) : Owner × Result :=
  let contention := wrap (start - queued)
  let m : Measurement := ⟨0, 0, 0, 0, 0, 0, 0, contention⟩
  if start < 0 ∨ queued < 0 then o.fail m (.unavailable "")
  else if o.active ∧ !o.closed then
    ({ o with flight := some (.sampled ⟨start, o.generation, o.revision, contention⟩) }, none)
  else o.fail m .obsolete

/-- The RTC is read and the wall set, `clock.go:189–210`; `set` says that `CorrectWall` returned no
error. -/
def correct (o : Owner) (s : Sample) (rtc : Except String ℤ) (wall elapsed : ℤ) (set : Bool) :
    Owner × Result :=
  let m : Measurement := ⟨0, s.generation, 0, 0, 0, 0, 0, s.contention⟩
  match rtc with
  | .error e => o.fail m (.unavailable ("RTC read: " ++ e))
  | .ok rtc =>
    let age := wrap (elapsed - s.start)
    let low := rtc - sourceError
    let high := rtc + (quantization + sourceError + age)
    if !wellFormed rtc then o.fail m (.unavailable "malformed RTC UTC")
    else
      let m := { m with rtc, wallBefore := wall }
      if age < 0 ∨ maxSampleAge < age then o.fail m (.unavailable "RTC sample age")
      else if fits wall low high then ({ o with flight := some (.read s m) }, none)
      else if set then
        let target := low + (sub high low).tdiv 2
        ({ o with
          flight := some (.read s { m with correction := sub target wall })
          trace := o.trace ++ [.corrected o.correctionRevision] }, none)
      else o.fail m (.unavailable "wall set")

/-- The wall is verified and the clock reported available, `clock.go:211–238`. -/
def finish (o : Owner) (s : Sample) (m : Measurement) (elapsed wall : ℤ) : Owner × Result :=
  let m := { m with sampleAge := wrap (elapsed - s.start), wallAfter := wall }
  let low := m.rtc - sourceError
  let high := m.rtc + (quantization + sourceError + m.sampleAge)
  if m.sampleAge < 0 ∨ maxSampleAge < m.sampleAge then o.fail m (.unavailable "correction age")
  else if !fits wall low high then o.fail m (.unavailable "correction verification")
  else if !o.active ∨ o.closed ∨ o.generation ≠ s.generation ∨ o.revision ≠ s.revision then
    o.fail m .obsolete
  else
    let closed := if m.correction = 0 then o.correctionRevision else o.correctionRevision + 1
    ({ o with
      measured := elapsed, low, high, ready := true, correctionRevision := closed, flight := none
      trace := o.trace ++ [.available closed] }, some ({ m with elapsedEnd := elapsed }, none))

/-- What can happen to a clock. `close` is the part of `Close` after its `Pause`, `clock.go:135`. -/
inductive Op where
  | begin (generation : ℕ)
  | pause
  | close
  | sample (queued start : ℤ)
  | correct (rtc : Except String ℤ) (wall elapsed : ℤ) (set : Bool)
  | finish (elapsed wall : ℤ)

/-- One operation; one that has to wait does nothing. -/
def step (o : Owner) (op : Op) : Owner :=
  match op, o.flight with
  | .begin generation, _ => (o.begin generation).1
  | .pause, _ => o.pause
  | .close, none => { o with closed := true }
  | .sample queued start, none => (o.sample queued start).1
  | .correct rtc wall elapsed set, some (.sampled s) => (o.correct s rtc wall elapsed set).1
  | .finish elapsed wall, some (.read s m) => (o.finish s m elapsed wall).1
  | _, _ => o

/-- A clock after some operations. -/
def run (ops : List Op) : Owner := ops.foldl step new

/-- When the clock is reported available, the channels are closed that were current before the wall
was set. -/
def Announced (trace : List Event) : Prop :=
  trace.Pairwise fun e e' => ∀ c n, e = .corrected c → e' = .available n → c < n

/-- The measurement under way has set the wall. -/
private def pending (o : Owner) : Prop := ∃ s m, o.flight = some (.read s m) ∧ m.correction ≠ 0

private theorem correction_ne_zero {wall low high : ℤ} (hlt : low < high)
    (hwidth : high - low < 4 * second) (h : ¬ fits wall low high) :
    sub (low + (sub high low).tdiv 2) wall ≠ 0 := by
  have hwrap {d : ℤ} (h0 : 0 ≤ d) (hd : d < 2 ^ 62) : wrap d = d :=
    Int.bmod_eq_of_le (by omega) (by omega)
  unfold second at hwidth
  have hwide : sub high low = high - low := by
    unfold sub
    omega
  -- The middle of the interval fits.
  intro hzero
  rw [hwide, Int.tdiv_eq_ediv_of_nonneg (by omega)] at hzero
  have hlow : sub wall low = (high - low) / 2 := by
    unfold sub at *
    omega
  have hhigh : sub wall high = (high - low) / 2 - (high - low) := by
    unfold sub at *
    omega
  apply h
  unfold fits distance maxUTCError driftBudget second
  rw [hlow, hhigh, if_neg (by omega), if_pos (by omega), hwrap (d := -_) (by omega) (by omega),
    hwrap (by omega) (by omega)]
  exact decide_eq_true (by omega)

open List

/-- What an operation does to the trace. -/
private def Turn (o o' : Owner) : Prop :=
  (o'.trace = o.trace ∧ o'.correctionRevision = o.correctionRevision ∧ (o.pending → o'.pending)) ∨
  o'.trace = o.trace ++ [.abandoned] ∨
  (o'.trace = o.trace ++ [.corrected o.correctionRevision] ∧
    o'.correctionRevision = o.correctionRevision ∧ o'.pending) ∨
  (o'.trace = o.trace ++ [.available o'.correctionRevision] ∧
    o.correctionRevision ≤ o'.correctionRevision ∧
    (o.pending → o.correctionRevision < o'.correctionRevision))

variable {o : Owner} {s : Sample} {m : Measurement}

private theorem turn_fail (e : ClockError) (hm : o.pending → m.correction ≠ 0) :
    o.Turn (o.fail m e).1 := by
  unfold fail
  by_cases hzero : m.correction = 0
  · exact .inl ⟨if_pos hzero, rfl, fun hp => absurd hzero (hm hp)⟩
  · exact .inr (.inl (if_neg hzero))

private theorem turn_correct (hf : o.flight = some (.sampled s)) (rtc : Except String ℤ)
    (wall elapsed : ℤ) (set : Bool) : o.Turn (o.correct s rtc wall elapsed set).1 := by
  have hnot {q : Prop} : o.pending → q := by
    rintro ⟨s, m, hr, -⟩
    cases hf.symm.trans hr
  unfold Owner.correct
  cases rtc with
  | error e => exact turn_fail _ hnot
  | ok rtc =>
    dsimp only
    split
    · exact turn_fail _ hnot
    split
    · exact turn_fail _ hnot
    next hage =>
    split
    · exact .inl ⟨rfl, rfl, hnot⟩
    next hfits =>
    split
    · unfold quantization sourceError maxSampleAge at *
      unfold second at *
      have hne := correction_ne_zero (by omega) (by unfold second; omega) hfits
      exact .inr (.inr (.inl ⟨rfl, rfl, s, _, rfl, hne⟩))
    · exact turn_fail _ hnot

private theorem turn_finish (hf : o.flight = some (.read s m)) (elapsed wall : ℤ) :
    o.Turn (o.finish s m elapsed wall).1 := by
  have hset : o.pending → m.correction ≠ 0 := by
    rintro ⟨s, m, hr, hne⟩
    cases hf.symm.trans hr
    exact hne
  unfold Owner.finish
  dsimp only
  split
  · exact turn_fail _ hset
  split
  · exact turn_fail _ hset
  split
  · exact turn_fail _ hset
  refine .inr (.inr (.inr ⟨rfl, ?_, fun hp => ?_⟩))
  · dsimp only
    split <;> omega
  · exact (if_neg (hset hp)).symm ▸ Nat.lt_succ_self _

private theorem turn_step (op : Op) : o.Turn (o.step op) := by
  unfold step
  split
  · unfold Owner.begin
    split <;> exact .inl ⟨rfl, rfl, fun hp => hp⟩
  · unfold pause
    split <;> exact .inl ⟨rfl, rfl, fun hp => hp⟩
  · exact .inl ⟨rfl, rfl, fun hp => hp⟩
  · next hnone =>
    have hnot {q : Prop} : o.pending → q := by
      rintro ⟨s, m, hr, -⟩
      cases hnone.symm.trans hr
    unfold sample
    dsimp only
    split
    · exact turn_fail _ hnot
    split
    · exact .inl ⟨rfl, rfl, hnot⟩
    · exact turn_fail _ hnot
  · next hf => exact turn_correct hf ..
  · next hf => exact turn_finish hf ..
  · exact .inl ⟨rfl, rfl, fun hp => hp⟩

/-- If no measurement that set the wall returns an error, every correction is announced. -/
theorem correction_announced (ops : List Op) (h : .abandoned ∉ (run ops).trace) :
    Announced (run ops).trace := by
  suffices hinv : Announced (run ops).trace ∧ ∀ c, .corrected c ∈ (run ops).trace →
      c < (run ops).correctionRevision ∨ c = (run ops).correctionRevision ∧ (run ops).pending from
    hinv.1
  induction ops using reverseRecOn with
  | nil => exact ⟨.nil, nofun⟩
  | append_singleton ops op ih =>
    have hstep : run (ops ++ [op]) = (run ops).step op := foldl_append
    rw [hstep] at h ⊢
    generalize run ops = o at *
    have hturn := o.turn_step op
    generalize o.step op = o' at *
    rcases hturn with ⟨ht, hr, hp⟩ | ht | ⟨ht, hr, hp⟩ | ⟨ht, hle, hlt⟩ <;> rw [ht] at h ⊢
    · obtain ⟨ha, hc⟩ := ih h
      exact ⟨ha, fun c hm => hr ▸ (hc c hm).imp_right fun hp' => ⟨hp'.1, hp hp'.2⟩⟩
    · exact absurd (mem_append_right _ mem_cons_self) h
    · obtain ⟨ha, hc⟩ := ih fun hm => h (mem_append_left _ hm)
      refine ⟨pairwise_append.mpr ⟨ha, pairwise_singleton .., by simp⟩, fun c hm => hr ▸ ?_⟩
      rcases mem_append.mp hm with hm | hm
      · exact (hc c hm).imp_right fun hp' => ⟨hp'.1, hp⟩
      · cases mem_singleton.mp hm
        exact .inr ⟨rfl, hp⟩
    · obtain ⟨ha, hc⟩ := ih fun hm => h (mem_append_left _ hm)
      have hclosed (c : ℕ) (hm : .corrected c ∈ o.trace) : c < o'.correctionRevision := by
        rcases hc c hm with hold | ⟨rfl, hp⟩
        · exact hold.trans_le hle
        · exact hlt hp
      refine ⟨pairwise_append.mpr ⟨ha, pairwise_singleton .., ?_⟩, fun c hm => .inl ?_⟩
      · rintro e he e' he' c n rfl rfl
        cases mem_singleton.mp he'
        exact hclosed c he
      · exact hclosed c (by simpa using hm)

/-- The wall is five seconds behind the RTC. The clock is paused and begun again between the
correction and the end of the measurement, and the next one finds nothing to correct. -/
private def overtaken : List Op :=
  let rtc := 1700000000 * second
  [.begin 1, .sample 0 0, .correct (.ok rtc) (rtc - 5 * second) 0 true, .pause, .begin 2,
    .finish 0 (rtc + second / 2), .sample 1 1, .correct (.ok rtc) (rtc + second / 2) 1 true,
    .finish 1 (rtc + second / 2)]

/-- The channel that was current stays open. -/
theorem correction_unannounced : ¬ ∀ ops, Announced (run ops).trace := by
  intro h
  have htrace : (run overtaken).trace = [.corrected 0, .abandoned, .available 0] := by decide
  have hpair := h overtaken
  rw [htrace] at hpair
  exact lt_irrefl 0 (rel_of_pairwise_cons hpair (mem_cons_of_mem _ mem_cons_self) 0 0 rfl rfl)

/-- A measurement that is not overtaken closes it. -/
theorem correction_announced_once :
    let rtc := 1700000000 * second
    let ops := [.begin 1, .sample 0 0, .correct (.ok rtc) (rtc - 5 * second) 0 true,
      .finish 0 (rtc + second / 2)]
    (run ops).trace = [.corrected 0, .available 1] ∧ Announced (run ops).trace :=
  ⟨by decide, correction_announced _ (by decide)⟩

end Owner
end PortableFS.Workspace.Clock
