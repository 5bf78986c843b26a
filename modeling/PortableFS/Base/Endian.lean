import Mathlib

/-!
# Fixed-width integers as bytes

Library `Base`. A natural number as exactly `width` bytes, in either order, and back. Both
directions are exact: bytes are the encoding of the number they stand for.
-/

namespace PortableFS.Base

/-- The `width` lowest bytes of a number, lowest first. -/
def littleEndian : ℕ → ℕ → List UInt8
  | 0, _ => []
  | width + 1, x => UInt8.ofNat x :: littleEndian width (x / 256)

/-- The number that bytes stand for, lowest first. -/
def ofLittleEndian : List UInt8 → ℕ
  | [] => 0
  | byte :: bytes => byte.toNat + 256 * ofLittleEndian bytes

/-- The `width` lowest bytes of a number, highest first. -/
def bigEndian (width x : ℕ) : List UInt8 := (littleEndian width x).reverse

/-- The number that bytes stand for, highest first. -/
def ofBigEndian (bytes : List UInt8) : ℕ := ofLittleEndian bytes.reverse

@[simp] theorem length_littleEndian (width x : ℕ) : (littleEndian width x).length = width := by
  induction width generalizing x with
  | zero => rfl
  | succ width ih => simp [littleEndian, ih]

@[simp] theorem length_bigEndian (width x : ℕ) : (bigEndian width x).length = width := by
  simp [bigEndian]

theorem ofLittleEndian_lt (bytes : List UInt8) : ofLittleEndian bytes < 256 ^ bytes.length := by
  induction bytes with
  | nil => simp [ofLittleEndian]
  | cons byte bytes ih =>
    have hbyte : byte.toNat < 256 := byte.toNat_lt
    rw [ofLittleEndian, List.length_cons, pow_succ]
    omega

variable {width x : ℕ}

theorem ofLittleEndian_littleEndian (h : x < 256 ^ width) :
    ofLittleEndian (littleEndian width x) = x := by
  induction width generalizing x with
  | zero =>
    rw [pow_zero] at h
    simp only [littleEndian, ofLittleEndian]
    omega
  | succ width ih =>
    have hdiv : x / 256 < 256 ^ width := by
      rw [pow_succ] at h
      omega
    rw [littleEndian, ofLittleEndian, ih hdiv, UInt8.toNat_ofNat']
    omega

theorem littleEndian_ofLittleEndian (bytes : List UInt8) :
    littleEndian bytes.length (ofLittleEndian bytes) = bytes := by
  induction bytes with
  | nil => rfl
  | cons byte bytes ih =>
    have hbyte : byte.toNat < 256 := byte.toNat_lt
    have hdiv : (byte.toNat + 256 * ofLittleEndian bytes) / 256 = ofLittleEndian bytes := by omega
    have hmod : (byte.toNat + 256 * ofLittleEndian bytes) % 256 = byte.toNat := by omega
    rw [List.length_cons, ofLittleEndian, littleEndian, hdiv, ih]
    congr 1
    apply UInt8.toNat_inj.mp
    rw [UInt8.toNat_ofNat']
    exact hmod

theorem ofBigEndian_bigEndian (h : x < 256 ^ width) : ofBigEndian (bigEndian width x) = x := by
  rw [ofBigEndian, bigEndian, List.reverse_reverse, ofLittleEndian_littleEndian h]

end PortableFS.Base
