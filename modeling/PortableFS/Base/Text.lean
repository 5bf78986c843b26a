import Mathlib

/-!
# Encoded text

Library `Base`. `strings.TrimSpace` over the bytes of a text: the encodings of Unicode's white
space are cut from both ends. Bytes that are not a valid encoding are no white space. The laws are
about decimals, and about splitting a text at a separator and joining the pieces again.
-/

namespace PortableFS.Base.Text

open List

/-- The encodings of the characters that `unicode.IsSpace` accepts. -/
def spaces : List (List UInt8) :=
  [[9], [10], [11], [12], [13], [32], [0xC2, 0x85], [0xC2, 0xA0], [0xE1, 0x9A, 0x80],
    [0xE2, 0x80, 0x80], [0xE2, 0x80, 0x81], [0xE2, 0x80, 0x82], [0xE2, 0x80, 0x83],
    [0xE2, 0x80, 0x84], [0xE2, 0x80, 0x85], [0xE2, 0x80, 0x86], [0xE2, 0x80, 0x87],
    [0xE2, 0x80, 0x88], [0xE2, 0x80, 0x89], [0xE2, 0x80, 0x8A], [0xE2, 0x80, 0xA8],
    [0xE2, 0x80, 0xA9], [0xE2, 0x80, 0xAF], [0xE2, 0x81, 0x9F], [0xE3, 0x80, 0x80]]

/-- Cut words of a list from the front while there is one. Every round shortens the text. -/
def cutFront (words : List (List UInt8)) : ℕ → List UInt8 → List UInt8
  | 0, text => text
  | n + 1, text =>
    match words.find? (·.isPrefixOf text) with
    | some word => cutFront words n (text.drop word.length)
    | none => text

/-- `strings.TrimSpace`. -/
def trimSpace (text : List UInt8) : List UInt8 :=
  let front := cutFront spaces text.length text
  (cutFront (spaces.map List.reverse) front.length front.reverse).reverse

/-- A number in decimal. -/
def decimal (n : ℕ) : List UInt8 := (Nat.toDigits 10 n).map fun c => UInt8.ofNat c.toNat

private theorem isDigit_bounds {c : Char} (h : c.isDigit = true) : 48 ≤ c.toNat ∧ c.toNat ≤ 57 := by
  simp only [Char.isDigit, Bool.and_eq_true, decide_eq_true_eq, ge_iff_le] at h
  exact ⟨h.1, h.2⟩

variable {n : ℕ}

/-- A decimal has digits only. -/
theorem mem_decimal {b : UInt8} (h : b ∈ decimal n) : 48 ≤ b ∧ b ≤ 57 := by
  obtain ⟨c, hc, rfl⟩ := mem_map.mp h
  have hb := isDigit_bounds (Nat.isDigit_of_mem_toDigits (by decide) (by decide) hc)
  rw [UInt8.le_iff_toNat_le, UInt8.le_iff_toNat_le, UInt8.toNat_ofNat']
  simp only [UInt8.reduceToNat]
  omega

theorem decimal_inj {m : ℕ} (h : decimal m = decimal n) : m = n := by
  have hback : ∀ k, (decimal k).map (fun b => Char.ofNat b.toNat) = Nat.toDigits 10 k := by
    intro k
    rw [decimal, map_map]
    conv_rhs => rw [← map_id (Nat.toDigits 10 k)]
    apply map_congr_left
    intro c hc
    have hb := isDigit_bounds (Nat.isDigit_of_mem_toDigits (by decide) (by decide) hc)
    rw [Function.comp_apply, UInt8.toNat_ofNat', Nat.mod_eq_of_lt (by omega), Char.ofNat_toNat]
    rfl
  have hdigits : Nat.toDigits 10 m = Nat.toDigits 10 n := by rw [← hback, ← hback, h]
  have hvalue := congrArg (fun l => Nat.ofDigitChars 10 l 0) hdigits
  rwa [Nat.ofDigitChars_toDigits (by decide) (by decide),
    Nat.ofDigitChars_toDigits (by decide) (by decide)] at hvalue

section
variable {α : Type*} [BEq α] [LawfulBEq α] {x : α} {piece : List α}

/-- No piece contains the separator. -/
theorem notMem_of_mem_splitOn {l : List α} (h : piece ∈ l.splitOn x) : x ∉ piece := by
  rw [splitOn_eq_splitOnP] at h
  induction l generalizing piece with
  | nil =>
    rw [splitOnP_nil, mem_singleton] at h
    exact h ▸ not_mem_nil
  | cons y l ih =>
    rw [splitOnP_cons_eq_if_modifyHead] at h
    split at h
    · rcases mem_cons.mp h with rfl | hmem
      · exact not_mem_nil
      · exact ih hmem
    next hy =>
    obtain ⟨first, rest, hsplit⟩ :=
      exists_cons_of_ne_nil (splitOnP_ne_nil (· == x) l)
    rw [hsplit] at h ih
    rcases mem_cons.mp h with rfl | hmem
    · intro hx
      rcases mem_cons.mp hx with rfl | hmem
      · exact hy (beq_self_eq_true _)
      · exact ih mem_cons_self hmem
    · exact ih (mem_cons_of_mem _ hmem)

/-- A separator between two texts separates their pieces. -/
theorem splitOn_append_cons (l l' : List α) :
    (l ++ x :: l').splitOn x = l.splitOn x ++ l'.splitOn x := by
  rw [splitOn_eq_splitOnP, splitOn_eq_splitOnP, splitOn_eq_splitOnP]
  exact splitOnP_append_cons l l' (beq_self_eq_true _)

variable {ls ls' : List (List α)}

omit [BEq α] [LawfulBEq α] in
/-- Pieces join in two parts. -/
theorem intercalate_append (h : ls ≠ []) (h' : ls' ≠ []) :
    [x].intercalate (ls ++ ls') = [x].intercalate ls ++ x :: [x].intercalate ls' := by
  induction ls with
  | nil => exact absurd rfl h
  | cons l ls ih =>
    cases ls with
    | nil =>
      obtain ⟨l', rest, rfl⟩ := exists_cons_of_ne_nil h'
      rw [singleton_append, intercalate_cons_cons, intercalate_singleton, append_assoc]
      rfl
    | cons l₂ ls =>
      rw [cons_append, cons_append, intercalate_cons_cons,
        intercalate_cons_cons, ← cons_append, ih (cons_ne_nil _ _)]
      simp only [append_assoc]

/-- Pieces without the separator are told by their join. -/
theorem intercalate_inj (hne : ls ≠ []) (hne' : ls' ≠ [])
    (h : ∀ l ∈ ls, x ∉ l) (h' : ∀ l ∈ ls', x ∉ l)
    (heq : [x].intercalate ls = [x].intercalate ls') : ls = ls' := by
  have hsplit := congrArg (splitOn x) heq
  rwa [splitOn_intercalate x h hne, splitOn_intercalate x h' hne'] at hsplit

end

end PortableFS.Base.Text
