import Mathlib

/-!
# Byte ranges, locks and their algebra

Module `volumeserver`, `vcs/internal/volumeserver/locks.go:16–101`. Ranges are inclusive and
carry their 64-bit bounds, so the increments and decrements of the source are shown not to
wrap where they are written.
-/

namespace PortableFS.Locks

/-- `math.MaxUint64`. -/
def maxUint64 : Nat := 2 ^ 64 - 1

/-- `SessionID`, `vcs/internal/volumeserver/session.go:38`: sixteen bytes, compared only. -/
abbrev SessionID := BitVec 128

/-- `ObjectKey`, `locks.go:28`: sixteen bytes, compared only. -/
abbrev ObjectKey := BitVec 128

/-- `locks.go:30–34`. -/
structure LockOwner where
  session : SessionID
  kernel : UInt64
  flock : Bool
  deriving DecidableEq

/-- `locks.go:36–41`. Other codes of the source's byte are refused by `validLock` and are not
representable here. -/
inductive LockType where
  | read
  | write
  deriving DecidableEq

/-- Inclusive byte range; `locks.go:43–47`. `stop = maxUint64` is POSIX "to EOF". -/
@[ext]
structure LockRange where
  start : Nat
  stop : Nat
  start_le : start ≤ maxUint64
  stop_le : stop ≤ maxUint64
  deriving DecidableEq

/-- The bytes of a range. -/
instance : Membership Nat LockRange := ⟨fun r b => r.start ≤ b ∧ b ≤ r.stop⟩

instance (r : LockRange) (b : Nat) : Decidable (b ∈ r) :=
  inferInstanceAs (Decidable (r.start ≤ b ∧ b ≤ r.stop))

/-- `locks.go:51–56`. -/
structure Lock where
  object : ObjectKey
  owner : LockOwner
  type : LockType
  range : LockRange
  deriving DecidableEq

/-- Errors of the lock table; `locks.go:17–26` and `session.go:22,27`. `canceled` stands for
the error of a cancelled context. -/
inductive LockError where
  | conflict
  | deadlock
  | invalidLock
  | invalidUnlockRange
  | sessionExpired
  | admission
  | canceled
  deriving DecidableEq

/-- `locks.go:58–60`. -/
def validLock (lock : Lock) : Bool := decide (lock.range.start ≤ lock.range.stop)

/-- `locks.go:62`. -/
def overlaps (a b : LockRange) : Bool := decide (a.start ≤ b.stop) && decide (b.start ≤ a.stop)

/-- `locks.go:64–66`. -/
def adjacent (a b : LockRange) : Bool :=
  (decide (a.stop ≠ maxUint64) && decide (a.stop + 1 = b.start)) ||
    (decide (b.stop ≠ maxUint64) && decide (b.stop + 1 = a.start))

/-- Smallest range containing both; `locks.go:69–77`. -/
def coverRange (a b : LockRange) : LockRange where
  start := if b.start < a.start then b.start else a.start
  stop := if a.stop < b.stop then b.stop else a.stop
  start_le := by split; exacts [b.start_le, a.start_le]
  stop_le := by split; exacts [b.stop_le, a.stop_le]

/-- `locks.go:79–81`. -/
def conflicts (a b : Lock) : Bool :=
  decide (a.owner.flock = b.owner.flock) && decide (a.owner ≠ b.owner) &&
    overlaps a.range b.range && (decide (a.type = .write) || decide (b.type = .write))

/-- A record held at mode `held` covers a request for mode `want`; `locks.go:83–85`. -/
def satisfies (held want : LockType) : Bool := decide (held = .write) || decide (want = .read)

theorem LockRange.pred_start_le (r : LockRange) : r.start - 1 ≤ maxUint64 :=
  Nat.le_trans (Nat.sub_le _ _) r.start_le

/-- What remains of `held` once `cut` is removed from it; `locks.go:87–101`. -/
def subtractLock (held : Lock) (cut : LockRange) : List Lock :=
  (if held.range.start < cut.start then
    [{ held with range := ⟨held.range.start, cut.start - 1, held.range.start_le,
        cut.pred_start_le⟩ }]
  else []) ++
  (if h : cut.stop < held.range.stop then
    [{ held with range := ⟨cut.stop + 1, held.range.stop,
        Nat.le_trans h held.range.stop_le, held.range.stop_le⟩ }]
  else [])

/-- `a ≤ b`: a record of type `b` satisfies a request of type `a`. -/
instance : LE LockType := ⟨fun a b => satisfies b a = true⟩

instance (a b : LockType) : Decidable (a ≤ b) :=
  inferInstanceAs (Decidable (satisfies b a = true))

instance : Preorder LockType where
  le_refl a := by cases a <;> rfl
  le_trans a b c := by cases a <;> cases b <;> cases c <;> decide

/-- Two types of different owners exclude each other. -/
def Clash (a b : LockType) : Prop := a = .write ∨ b = .write

theorem Clash.symm (a b : LockType) (h : Clash a b) : Clash b a := Or.symm h

/-- A stronger type excludes at least as much. -/
theorem Clash.mono (a a' b : LockType) (h : a ≤ a') (hc : Clash a b) : Clash a' b := by
  rcases hc with rfl | rfl
  · cases a'
    · exact absurd h (by decide)
    · exact .inl rfl
  · exact .inr rfl

theorem LockRange.mem_iff {r : LockRange} {b : Nat} : b ∈ r ↔ r.start ≤ b ∧ b ≤ r.stop := Iff.rfl

variable {a b : LockRange}

theorem overlaps_iff : overlaps a b = true ↔ a.start ≤ b.stop ∧ b.start ≤ a.stop := by
  simp [overlaps]

theorem overlaps_comm (a b : LockRange) : overlaps a b = overlaps b a := by
  simp [overlaps, Bool.and_comm]

/-- Nonempty ranges overlap exactly when they share a byte. -/
theorem overlaps_iff_exists (ha : a.start ≤ a.stop) (hb : b.start ≤ b.stop) :
    overlaps a b = true ↔ ∃ x, x ∈ a ∧ x ∈ b := by
  rw [overlaps_iff]
  constructor
  · rintro ⟨h1, h2⟩
    rcases le_total a.start b.start with h | h
    · exact ⟨b.start, ⟨h, h2⟩, ⟨le_rfl, hb⟩⟩
    · exact ⟨a.start, ⟨le_rfl, ha⟩, ⟨h, h1⟩⟩
  · rintro ⟨x, ⟨h1, h2⟩, ⟨h3, h4⟩⟩
    omega

/-- The bounds make the overflow guards redundant. -/
theorem adjacent_iff : adjacent a b = true ↔ a.stop + 1 = b.start ∨ b.stop + 1 = a.start := by
  have h1 := a.start_le
  have h2 := b.start_le
  simp only [adjacent, Bool.or_eq_true, Bool.and_eq_true, decide_eq_true_eq]
  omega

theorem coverRange_start (a b : LockRange) : (coverRange a b).start = min a.start b.start := by
  simp only [coverRange]
  split <;> omega

theorem coverRange_stop (a b : LockRange) : (coverRange a b).stop = max a.stop b.stop := by
  simp only [coverRange]
  split <;> omega

variable {x : Nat}

/-- The cover of touching ranges adds no byte. -/
theorem mem_coverRange_iff (ha : a.start ≤ a.stop) (hb : b.start ≤ b.stop)
    (h : overlaps a b = true ∨ adjacent a b = true) : x ∈ coverRange a b ↔ x ∈ a ∨ x ∈ b := by
  rw [overlaps_iff, adjacent_iff] at h
  simp only [LockRange.mem_iff, coverRange_start, coverRange_stop]
  omega

/-- Two ranges share no byte. -/
def Apart (a b : LockRange) : Prop := a.stop < b.start ∨ b.stop < a.start

/-- Two ranges share no byte and leave a gap. -/
def Gapped (a b : LockRange) : Prop := a.stop + 1 < b.start ∨ b.stop + 1 < a.start

theorem Apart.symm (h : Apart a b) : Apart b a := Or.symm h

theorem Gapped.symm (h : Gapped a b) : Gapped b a := Or.symm h

theorem apart_iff : Apart a b ↔ overlaps a b = false := by
  rw [← Bool.not_eq_true, overlaps_iff]
  unfold Apart
  omega

theorem Gapped.apart (h : Gapped a b) : Apart a b := by
  unfold Apart
  unfold Gapped at h
  omega

theorem gapped_of_not_adjacent (h : Apart a b) (hn : adjacent a b = false) : Gapped a b := by
  rw [← Bool.not_eq_true, adjacent_iff] at hn
  unfold Apart at h
  unfold Gapped
  omega

/-- A gap between nonempty ranges excludes adjacency. -/
theorem Gapped.not_adjacent (h : Gapped a b) (ha : a.start ≤ a.stop) (hb : b.start ≤ b.stop) :
    adjacent a b = false := by
  rw [← Bool.not_eq_true, adjacent_iff]
  unfold Gapped at h
  omega

/-- One range lies inside another. -/
def Within (a b : LockRange) : Prop := b.start ≤ a.start ∧ a.stop ≤ b.stop

variable {a' : LockRange}

theorem Apart.within (h : Apart a b) (hw : Within a' a) : Apart a' b := by
  unfold Apart Within at *
  omega

theorem Gapped.within (h : Gapped a b) (hw : Within a' a) : Gapped a' b := by
  unfold Gapped Within at *
  omega

variable {c : LockRange}

/-- Growing over a touching range keeps a third range apart that was apart from both. -/
theorem Apart.cover (ha : Apart a c) (hb : Apart b c) (hac : a.start ≤ a.stop)
    (hbc : b.start ≤ b.stop) (hcc : c.start ≤ c.stop)
    (h : overlaps a b = true ∨ adjacent a b = true) : Apart (coverRange a b) c := by
  rw [overlaps_iff, adjacent_iff] at h
  unfold Apart at *
  rw [coverRange_start, coverRange_stop]
  omega

theorem Gapped.cover (ha : Gapped a c) (hb : Gapped b c) (hac : a.start ≤ a.stop)
    (hbc : b.start ≤ b.stop) (hcc : c.start ≤ c.stop)
    (h : overlaps a b = true ∨ adjacent a b = true) : Gapped (coverRange a b) c := by
  rw [overlaps_iff, adjacent_iff] at h
  unfold Gapped at *
  rw [coverRange_start, coverRange_stop]
  omega

theorem conflicts_iff {a b : Lock} :
    conflicts a b = true ↔ a.owner.flock = b.owner.flock ∧ a.owner ≠ b.owner ∧
      overlaps a.range b.range = true ∧ Clash a.type b.type := by
  simp only [conflicts, Clash, Bool.and_eq_true, Bool.or_eq_true, decide_eq_true_eq]
  tauto

theorem conflicts_comm (a b : Lock) : conflicts a b = conflicts b a := by
  apply Bool.eq_iff_iff.mpr
  rw [conflicts_iff, conflicts_iff, overlaps_comm]
  unfold Clash
  constructor <;>
  · rintro ⟨h1, h2, h3, h4⟩
    exact ⟨h1.symm, h2.symm, h3, h4.symm⟩

variable {cut : LockRange} {held : Lock}

/-- A remaining piece keeps everything but its range, which stays inside the record and off
the cut. -/
theorem of_mem_subtractLock {l : Lock}
    (ho : overlaps held.range cut = true) (h : l ∈ subtractLock held cut) :
    l.object = held.object ∧ l.owner = held.owner ∧ l.type = held.type ∧
      l.range.start ≤ l.range.stop ∧ Within l.range held.range ∧ Apart l.range cut := by
  rw [overlaps_iff] at ho
  unfold subtractLock at h
  rcases List.mem_append.mp h with h | h
  all_goals
    split at h
    · next hc =>
      rw [List.mem_singleton] at h
      subst h
      refine ⟨rfl, rfl, rfl, ?_, ⟨?_, ?_⟩, ?_⟩ <;> simp only [Apart] <;> omega
    · simp at h

/-- The remaining pieces cover exactly the bytes of the record outside the cut. -/
theorem mem_subtractLock_bytes (ho : overlaps held.range cut = true) :
    (∃ l ∈ subtractLock held cut, x ∈ l.range) ↔ x ∈ held.range ∧ x ∉ cut := by
  rw [overlaps_iff] at ho
  constructor
  · rintro ⟨l, hl, hx⟩
    obtain ⟨_, _, _, _, hw, ha⟩ := of_mem_subtractLock (overlaps_iff.mpr ho) hl
    simp only [LockRange.mem_iff, Within, Apart] at *
    omega
  · rintro ⟨⟨h1, h2⟩, hx⟩
    simp only [LockRange.mem_iff] at hx
    unfold subtractLock
    by_cases hlt : x < cut.start
    · rw [if_pos (by omega)]
      refine ⟨_, List.mem_append_left _ (List.mem_singleton_self _), h1, ?_⟩
      simp only
      omega
    have hgt : cut.stop < held.range.stop := by omega
    rw [dif_pos hgt]
    refine ⟨_, List.mem_append_right _ (List.mem_singleton_self _), ?_, h2⟩
    simp only
    omega

/-- The two pieces of one record leave the cut between them. -/
theorem pairwise_subtractLock (held : Lock) (hc : cut.start ≤ cut.stop) :
    (subtractLock held cut).Pairwise (fun a b => Gapped a.range b.range) := by
  unfold subtractLock
  split
  · next h1 =>
    split
    · next h2 =>
      simp only [List.singleton_append, List.pairwise_cons, List.mem_singleton, Gapped]
      refine ⟨?_, by simp⟩
      rintro _ rfl
      left
      simp only
      omega
    · simp
  · split <;> simp

end PortableFS.Locks
