import Mathlib

/-!
# Files as sequences of bytes

Positioned writes and resizes of a byte sequence that reads zero beyond its end. A list of edits
acts on a file through the last edit that touches a position and through the size it leaves;
hence replaying edits over a file that already went through a prefix of them changes nothing.
-/

namespace PortableFS.Base.ByteFile

open List

variable {α : Type} [Zero α]

/-- Cut the file at `size`, or extend it with zeros. -/
def resize (file : List α) (size : Nat) : List α :=
  file.take size ++ List.replicate (size - file.length) 0

/-- Overwrite the bytes from `off` on, extending the file if necessary. -/
def write (file : List α) (off : Nat) (data : List α) : List α :=
  match data with
  | [] => file
  | _ :: _ => resize file off ++ data ++ file.drop (off + data.length)

/-- One change of a file. -/
inductive Edit (α : Type) where
  | write (off : Nat) (data : List α)
  | resize (size : Nat)

/-- The file after the edit. -/
def Edit.apply (file : List α) : Edit α → List α
  | .write off data => ByteFile.write file off data
  | .resize size => ByteFile.resize file size

/-- The file after several edits, in order. -/
def replay (file : List α) (edits : List (Edit α)) : List α := edits.foldl Edit.apply file

variable (file : List α)

theorem replay_append (es es' : List (Edit α)) :
    replay file (es ++ es') = replay (replay file es) es' :=
  foldl_append

/-- Files of one length with the same bytes are equal. -/
theorem ext_getD {f g : List α} (hl : f.length = g.length)
    (h : ∀ x, f.getD x 0 = g.getD x 0) : f = g := by
  apply ext_getElem hl
  intro x hf hg
  have hx := h x
  rwa [getD_eq_getElem _ _ hf, getD_eq_getElem _ _ hg] at hx

theorem length_resize (size : Nat) : (resize file size).length = size := by
  simp only [resize, length_append, length_take, length_replicate]
  omega

theorem getD_resize (size x : Nat) :
    (resize file size).getD x 0 = if size ≤ x then 0 else file.getD x 0 := by
  unfold resize
  simp only [List.getD_eq_getElem?_getD, List.getElem?_append, List.getElem?_take,
    length_take, List.getElem?_replicate]
  split
  · next h =>
    have h1 : x < size := by omega
    rw [if_neg (not_le.mpr h1), if_pos h1]
  next h =>
  split
  · next hr =>
    rw [if_neg (by omega), List.getElem?_eq_none (by omega)]
    rfl
  · rw [if_pos (by omega)]
    rfl

theorem length_write (off : Nat) (data : List α) : (write file off data).length =
      if data = [] then file.length else max file.length (off + data.length) := by
  cases data with
  | nil => rfl
  | cons b bs =>
    rw [if_neg (cons_ne_nil b bs)]
    simp only [write, length_append, length_resize, length_drop]
    omega

theorem getD_write (off : Nat) (data : List α) (x : Nat) : (write file off data).getD x 0 =
      if off ≤ x ∧ x < off + data.length then data.getD (x - off) 0 else file.getD x 0 := by
  cases data with
  | nil =>
    rw [if_neg (by simp)]
    rfl
  | cons b bs =>
    have hr := getD_resize file off x
    simp only [List.getD_eq_getElem?_getD] at hr
    simp only [write, List.getD_eq_getElem?_getD, append_assoc, List.getElem?_append,
      length_resize, List.getElem?_drop]
    split
    · next h => rw [hr, if_neg (not_le.mpr h), if_neg (by omega)]
    next h =>
    split
    · next h' => rw [if_pos (by omega)]
    · next h' =>
      rw [if_neg (by omega)]
      congr 2
      omega

/-- What the edit puts at the position, if it touches it. -/
def Edit.touch (x : Nat) : Edit α → Option α
  | .write off data => if off ≤ x ∧ x < off + data.length then some (data.getD (x - off) 0) else none
  | .resize size => if size ≤ x then some 0 else none

theorem getD_apply (e : Edit α) (x : Nat) :
    (e.apply file).getD x 0 = (e.touch x).getD (file.getD x 0) := by
  cases e with
  | write off data =>
    simp only [Edit.apply, Edit.touch, getD_write]
    split <;> rfl
  | resize size =>
    simp only [Edit.apply, Edit.touch, getD_resize]
    split <;> rfl

/-- What the last edit that touches the position puts there. -/
def lastTouch (x : Nat) : List (Edit α) → Option α
  | [] => none
  | e :: es => (lastTouch x es).or (e.touch x)

theorem lastTouch_append (x : Nat) (es es' : List (Edit α)) :
    lastTouch x (es ++ es') = (lastTouch x es').or (lastTouch x es) := by
  induction es with
  | nil => simp [lastTouch]
  | cons e es ih => rw [cons_append, lastTouch, ih, lastTouch, Option.or_assoc]

theorem getD_replay (es : List (Edit α)) (x : Nat) :
    (replay file es).getD x 0 = (lastTouch x es).getD (file.getD x 0) := by
  induction es generalizing file with
  | nil => rfl
  | cons e es ih =>
    have h : replay file (e :: es) = replay (e.apply file) es := rfl
    rw [h, ih, getD_apply, lastTouch]
    cases lastTouch x es with
    | none => rfl
    | some v => rfl

/-- The edit fixes the size whatever the file was. -/
def Edit.isResize : Edit α → Bool
  | .write _ _ => false
  | .resize _ => true

/-- The size after edits: the size they leave of an empty file if one of them fixes it, and at
least that otherwise. -/
theorem length_replay (es : List (Edit α)) : (replay file es).length =
      if es.any Edit.isResize then (replay ([] : List α) es).length
      else max file.length (replay ([] : List α) es).length := by
  induction es using List.reverseRecOn with
  | nil => simp [replay]
  | append_singleton es e ih =>
    rw [replay_append, replay_append]
    simp only [any_append, any_cons, any_nil, Bool.or_false]
    cases e with
    | resize size => simp [replay, Edit.apply, Edit.isResize, length_resize]
    | write off data =>
      simp only [replay, foldl_cons, foldl_nil, Edit.apply, Edit.isResize, Bool.or_false,
        length_write] at ih ⊢
      split
      · exact ih
      · rw [ih]
        split
        · rfl
        · omega

/-- Replaying edits over a file that already went through a prefix of them. -/
theorem replay_of_prefix {es es' : List (Edit α)} (h : es <+: es') :
    replay (replay file es) es' = replay file es' := by
  obtain ⟨rest, rfl⟩ := h
  apply ext_getD
  · rw [length_replay, length_replay file (es ++ rest)]
    split
    · rfl
    next hn =>
    simp only [any_append, Bool.or_eq_true, not_or] at hn
    have hlen := length_replay (replay ([] : List α) es) rest
    rw [if_neg hn.2, ← replay_append] at hlen
    rw [length_replay file es, if_neg hn.1]
    omega
  · intro x
    rw [getD_replay, getD_replay file (es ++ rest), getD_replay]
    rw [lastTouch_append]
    cases lastTouch x rest with
    | some v => rfl
    | none =>
      cases lastTouch x es with
      | some v => rfl
      | none => rfl

/-- A write as writes of its single bytes. -/
def bytesAt (off : Nat) : List α → List (Edit α)
  | [] => []
  | b :: bs => .write off [b] :: bytesAt (off + 1) bs

theorem replay_bytesAt (off : Nat) (data : List α) :
    replay file (bytesAt off data) = write file off data := by
  induction data generalizing file off with
  | nil => rfl
  | cons b bs ih =>
    have h : replay file (bytesAt off (b :: bs)) =
        replay (write file off [b]) (bytesAt (off + 1) bs) := rfl
    rw [h, ih]
    apply ext_getD
    · simp only [length_write, cons_ne_nil, if_false, length_cons, length_nil]
      split
      · next hb =>
        subst hb
        rfl
      · omega
    intro x
    simp only [getD_write, length_cons, length_nil]
    by_cases hx : off = x
    · subst hx
      rw [if_neg (by omega), if_pos (by omega), if_pos (by omega)]
      simp
    by_cases hin : off + 1 ≤ x ∧ x < off + 1 + bs.length
    · rw [if_pos hin, if_pos (by omega)]
      obtain ⟨n, rfl⟩ : ∃ n, x = off + 1 + n := ⟨x - (off + 1), by omega⟩
      have h1 : off + 1 + n - off = n + 1 := by omega
      have h2 : off + 1 + n - (off + 1) = n := by omega
      rw [h1, h2, getD_cons_succ]
    · rw [if_neg hin, if_neg (by omega), if_neg (by omega)]

end PortableFS.Base.ByteFile
