import Mathlib

/-!
# Files of fixed-size frames

A byte sequence cut into frames of one size, with a possibly torn rest that is no whole frame.
Cutting the sequence keeps a prefix of its frames, and appending to a sequence that has no torn
rest appends the frames of what is added.
-/

namespace PortableFS.Base.Frames

open List

variable {α : Type} {size : Nat}

/-- The whole frames of the sequence, in order. -/
def frames (size : Nat) (bytes : List α) : List (List α) :=
  (List.range (bytes.length / size)).map fun i => (bytes.drop (size * i)).take size

theorem length_frames (bytes : List α) : (frames size bytes).length = bytes.length / size := by
  simp [frames]

theorem frames_nil : frames size ([] : List α) = [] := by
  simp [frames]

theorem getElem?_frames (bytes : List α) (i : Nat) : (frames size bytes)[i]? =
      if i < bytes.length / size then some ((bytes.drop (size * i)).take size) else none := by
  unfold frames
  rw [List.getElem?_map]
  split
  · next h => rw [List.getElem?_range h, Option.map_some]
  · next h =>
    rw [List.getElem?_eq_none (by simpa using h), Option.map_none]

private theorem frame_end_le {size length i : Nat} (h : i < length / size) :
    size * i + size ≤ length := by
  have hs : size * (i + 1) ≤ size * (length / size) := Nat.mul_le_mul_left size h
  have hl : size * (length / size) ≤ length := Nat.mul_div_le length size
  rw [Nat.mul_succ] at hs
  omega

/-- Cutting the sequence keeps the frames that lie below the cut. -/
theorem frames_take (bytes : List α) (n : Nat) :
    frames size (bytes.take n) = (frames size bytes).take (n / size) := by
  apply List.ext_getElem?
  intro i
  rw [getElem?_frames, List.getElem?_take, getElem?_frames, length_take]
  have hmin : i < min n bytes.length / size ↔ i < n / size ∧ i < bytes.length / size := by
    rcases le_total n bytes.length with hle | hle
    · rw [Nat.min_eq_left hle]
      exact ⟨fun h => ⟨h, h.trans_le (Nat.div_le_div_right hle)⟩, fun h => h.1⟩
    · rw [Nat.min_eq_right hle]
      exact ⟨fun h => ⟨h.trans_le (Nat.div_le_div_right hle), h⟩, fun h => h.2⟩
  by_cases hn : i < n / size
  · rw [if_pos hn]
    by_cases hb : i < bytes.length / size
    · rw [if_pos (hmin.mpr ⟨hn, hb⟩), if_pos hb]
      have hend := frame_end_le hn
      rw [drop_take, take_take, Nat.min_eq_left (by omega)]
    · rw [if_neg (fun h => hb (hmin.mp h).2), if_neg hb]
  · rw [if_neg hn, if_neg (fun h => hn (hmin.mp h).1)]

/-- Appending behind a sequence without a torn rest appends the frames. -/
theorem frames_append {bytes : List α} (hsize : 0 < size) (h : bytes.length % size = 0)
    (more : List α) : frames size (bytes ++ more) = frames size bytes ++ frames size more := by
  obtain ⟨k, hk⟩ := Nat.dvd_of_mod_eq_zero h
  apply List.ext_getElem?
  intro i
  have hdiv : (bytes.length + more.length) / size = k + more.length / size := by
    rw [hk, Nat.mul_add_div hsize]
  have hk' : bytes.length / size = k := by
    rw [hk, Nat.mul_div_cancel_left k hsize]
  rw [List.getElem?_append, getElem?_frames, getElem?_frames, getElem?_frames, length_frames,
    length_append, hdiv, hk']
  by_cases hi : i < k
  · have hend : size * i + size ≤ bytes.length := frame_end_le (by rwa [hk'])
    rw [if_pos (Nat.lt_add_right _ hi), if_pos hi, if_pos hi, drop_append_of_le_length (by omega),
      take_append_of_le_length (by rw [length_drop]; omega)]
  rw [if_neg hi]
  by_cases hm : i - k < more.length / size
  · rw [if_pos ((Nat.sub_lt_iff_lt_add' (not_lt.mp hi)).mp hm), if_pos hm]
    have hdrop : size * i = bytes.length + size * (i - k) := by
      rw [hk, ← Nat.mul_add]
      congr 1
      omega
    rw [hdrop, drop_length_add_append]
  · rw [if_neg (by omega), if_neg hm]

variable {fs : List (List α)}

/-- A sequence made of frames has exactly these frames. -/
theorem frames_flatten (hsize : 0 < size) (h : ∀ f ∈ fs, f.length = size) :
    frames size fs.flatten = fs := by
  induction fs with
  | nil => exact frames_nil
  | cons f fs ih =>
    have hf : f.length = size := h f mem_cons_self
    have hone : frames size f = [f] := by
      unfold frames
      rw [hf, Nat.div_self hsize]
      simp [← hf]
    rw [flatten_cons, frames_append hsize (by rw [hf, Nat.mod_self]), hone,
      ih fun g hg => h g (mem_cons_of_mem f hg)]
    rfl

theorem length_flatten_frames (h : ∀ f ∈ fs, f.length = size) :
    fs.flatten.length = size * fs.length := by
  induction fs with
  | nil => rfl
  | cons f fs ih =>
    rw [flatten_cons, length_append, h f mem_cons_self,
      ih fun g hg => h g (mem_cons_of_mem f hg), length_cons, Nat.mul_succ]
    omega

end PortableFS.Base.Frames
