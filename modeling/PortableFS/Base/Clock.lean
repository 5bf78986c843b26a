import Mathlib

/-!
# Clock readings and Unix seconds

Library `Base`. A clock reading is a number of nanoseconds since 1970; Go's `Unix` rounds it down to
seconds in 64 bits, and `time.Unix` keeps seconds since year one in 64 bits. Both are exact for
readings from 1970 to 2262, which nanoseconds in 64 bits can express.
-/

namespace PortableFS.Base.Clock

/-- Nanoseconds in a second. -/
def second : ℤ := 1000000000

/-- `t.Unix()`. -/
def unix (t : ℤ) : Int64 := Int64.ofInt (t / second)

/-- Seconds from year one to 1970. -/
def unixToInternal : Int64 := 62135596800

/-- `time.Unix(s, 0)`. -/
def ofUnix (s : Int64) : ℤ := ((s + unixToInternal).toInt - unixToInternal.toInt) * second

/-- Readings that nanoseconds since 1970 express in 64 bits. -/
def InRange (t : ℤ) : Prop := 0 ≤ t ∧ t < 2 ^ 63

variable {t : ℤ}

theorem toInt_unix (h : InRange t) : (unix t).toInt = t / second := by
  obtain ⟨hnonneg, hlt⟩ := h
  unfold unix second
  exact Int64.toInt_ofInt_of_le (by omega) (by omega)

variable {s : Int64}

theorem ofUnix_eq (hlow : -2 ^ 62 ≤ s.toInt) (hhigh : s.toInt < 2 ^ 62) :
    ofUnix s = s.toInt * second := by
  have hbase : unixToInternal.toInt = 62135596800 := rfl
  have hadd : (s + unixToInternal).toInt = s.toInt + 62135596800 := by
    rw [Int64.toInt_add, hbase]
    exact Int.bmod_eq_of_le (by omega) (by omega)
  rw [ofUnix, hadd, hbase]
  ring

/-- A reading is before a whole second exactly when its seconds are. -/
theorem lt_ofUnix (ht : InRange t) (hlow : -2 ^ 62 ≤ s.toInt)
    (hhigh : s.toInt < 2 ^ 62) : t < ofUnix s ↔ unix t < s := by
  rw [ofUnix_eq hlow hhigh, Int64.lt_iff_toInt_lt, toInt_unix ht, second]
  omega

end PortableFS.Base.Clock
