import Mathlib

/-!
# Finite maps with iteration

Library `Base`. A source map is an `AList`: lookups are extensional, the entry list is what an
iteration visits. The laws here are about totals over the entries, about updating one key, and
about choosing an iteration order.
-/

namespace PortableFS.Base

open List

universe u v

/-- Finite map with distinct keys. -/
abbrev Assoc (K : Type u) (V : Type v) := AList (fun _ : K => V)

namespace Assoc

variable {K : Type u} {V : Type v} [DecidableEq K]

/-- Update the value of a present key; an absent key stays absent. -/
def modify (m : Assoc K V) (k : K) (f : V → V) : Assoc K V :=
  match m.lookup k with
  | none => m
  | some v => m.insert k (f v)

/-- Total of a quantity over the entries. -/
def total (m : Assoc K V) (f : K → V → Nat) : Nat := (m.entries.map fun e => f e.1 e.2).sum

/-- The quantity at one key, nothing when the key is absent. -/
def at? (m : Assoc K V) (f : K → V → Nat) (k : K) : Nat :=
  match m.lookup k with
  | none => 0
  | some v => f k v

variable (m : Assoc K V)

theorem lookup_modify (k k' : K) (f : V → V) :
    (modify m k f).lookup k' = if k' = k then (m.lookup k).map f else m.lookup k' := by
  unfold modify
  split
  · next h =>
    split
    · next he => rw [he, h]; rfl
    · rfl
  · next v h =>
    split
    · next he => rw [he, AList.lookup_insert, h]; rfl
    · next he => rw [AList.lookup_insert_ne he]

/-- Updating a value neither adds nor removes a key. -/
theorem lookup_modify_eq_none (k k' : K) (f : V → V) :
    (modify m k f).lookup k' = none ↔ m.lookup k' = none := by
  rw [lookup_modify]
  split
  · next h => rw [h, Option.map_eq_none_iff]
  · rfl

theorem lookup_insert_eq (k k' : K) (v : V) :
    (m.insert k v).lookup k' = if k' = k then some v else m.lookup k' := by
  split
  · next h => rw [h, AList.lookup_insert]
  · next h => rw [AList.lookup_insert_ne h]

theorem lookup_erase_eq (k k' : K) :
    (m.erase k).lookup k' = if k' = k then none else m.lookup k' := by
  split
  · next h => rw [h, AList.lookup_erase]
  · next h => rw [AList.lookup_erase_ne h]

/-- An entry is a lookup. -/
theorem mem_entries_iff (k : K) (v : V) :
    (⟨k, v⟩ : (_ : K) × V) ∈ m.entries ↔ m.lookup k = some v := by
  rw [← AList.mem_lookup_iff, Option.mem_def]

/-- A listed key is a present lookup. -/
theorem mem_keys_iff (k : K) : k ∈ m.keys ↔ ∃ v, m.lookup k = some v := by
  rw [← AList.mem_keys, ← AList.lookup_isSome, Option.isSome_iff_exists]

variable (f : K → V → Nat)

private theorem sum_kerase (k : K) (l : List ((_ : K) × V)) :
    ((l.kerase k).map fun e => f e.1 e.2).sum +
      (match l.dlookup k with | none => 0 | some v => f k v) =
      (l.map fun e => f e.1 e.2).sum := by
  induction l with
  | nil => rfl
  | cons e l ih =>
    rcases e with ⟨k', v⟩
    by_cases h : k = k'
    · subst h
      have he : kerase k ((⟨k, v⟩ : (_ : K) × V) :: l) = l := kerase_cons_eq rfl
      rw [he, dlookup_cons_eq]
      simp only [map_cons, sum_cons]
      omega
    · rw [kerase_cons_ne h, dlookup_cons_ne _ _ h]
      simp only [map_cons, sum_cons]
      omega

/-- Erasing a key subtracts its quantity from the total. -/
theorem total_erase (k : K) : (total (m.erase k) f) + m.at? f k = m.total f :=
  sum_kerase f k m.entries

/-- Storing a key replaces its quantity in the total. -/
theorem total_insert (k : K) (v : V) :
    (total (m.insert k v) f) + m.at? f k = m.total f + f k v := by
  have h := total_erase m f k
  have hi : total (m.insert k v) f = f k v + total (m.erase k) f := rfl
  omega

/-- The quantity at one key is part of the total. -/
theorem at_le_total (k : K) : m.at? f k ≤ m.total f := by
  have := total_erase m f k
  omega

/-- Totals agree when the quantities agree on every entry. -/
theorem total_congr (f g : K → V → Nat)
    (h : ∀ k v, m.lookup k = some v → f k v = g k v) : m.total f = m.total g := by
  unfold total
  congr 1
  apply map_congr_left
  intro e he
  exact h e.1 e.2 ((mem_entries_iff m e.1 e.2).mp he)

/-- A total is zero exactly when every entry contributes nothing. -/
theorem total_eq_zero_iff : m.total f = 0 ↔ ∀ k v, m.lookup k = some v → f k v = 0 := by
  unfold total
  rw [List.sum_eq_zero_iff_forall_eq_nat]
  constructor
  · intro h k v hk
    exact h _ (mem_map.mpr ⟨⟨k, v⟩, (mem_entries_iff m k v).mpr hk, rfl⟩)
  · intro h x hx
    obtain ⟨e, he, rfl⟩ := mem_map.mp hx
    exact h e.1 e.2 ((mem_entries_iff m e.1 e.2).mp he)

omit [DecidableEq K] in
/-- Totals add up pointwise. -/
theorem total_add (f g : K → V → Nat) : m.total (fun k v => f k v + g k v) = m.total f + m.total g :=
  sum_map_add

/-- Totals compare when the quantities do on every entry. -/
theorem total_le_total (f g : K → V → Nat)
    (h : ∀ k v, m.lookup k = some v → f k v ≤ g k v) : m.total f ≤ m.total g := by
  unfold total
  apply sum_le_sum
  intro e he
  exact h e.1 e.2 ((mem_entries_iff m e.1 e.2).mp he)

private theorem at_erase (k k' : K) : at? (m.erase k) f k' = if k' = k then 0 else m.at? f k' := by
  unfold at?
  rw [lookup_erase_eq]
  by_cases h : k' = k
  · rw [if_pos h, if_pos h]
  · rw [if_neg h, if_neg h]

variable {m' : Assoc K V}

/-- A total depends on the quantities at the keys only. -/
theorem total_congr_at {m : Assoc K V} {f : K → V → Nat} (h : ∀ k, m.at? f k = m'.at? f k) :
    m.total f = m'.total f := by
  induction hn : m.entries.length generalizing m m' with
  | zero =>
    have hnone : ∀ k, m.lookup k = none := by
      intro k
      rw [AList.lookup_eq_none, AList.mem_keys, AList.keys, length_eq_zero_iff.mp hn]
      exact not_mem_nil
    have hzero : m.total f = 0 := (total_eq_zero_iff m f).mpr fun k v hk => by
      rw [hnone k] at hk
      cases hk
    rw [hzero, eq_comm, total_eq_zero_iff]
    intro k v hk
    have hat := h k
    unfold at? at hat
    rw [hk, hnone k] at hat
    exact hat.symm
  | succ n ih =>
    obtain ⟨e, es, hes⟩ := exists_cons_of_length_eq_add_one hn
    have hlen : (AList.erase e.1 m).entries.length = n := by
      have hkerase : (AList.erase e.1 m).entries = es := by
        change m.entries.kerase e.1 = es
        rw [hes]
        exact kerase_cons_eq rfl
      rw [hes, length_cons] at hn
      rw [hkerase]
      omega
    have hrec : total (m.erase e.1) f = total (m'.erase e.1) f := by
      apply ih _ hlen
      intro k
      rw [at_erase, at_erase, h k]
    have h1 := total_erase m f e.1
    have h2 := total_erase m' f e.1
    have h3 := h e.1
    omega

/-- Totals of maps that differ at one key. -/
theorem total_change {m : Assoc K V} {f : K → V → Nat} {k : K}
    (h : ∀ k', k' ≠ k → m.at? f k' = m'.at? f k') :
    m'.total f + m.at? f k = m.total f + m'.at? f k := by
  have hrec : total (m.erase k) f = total (m'.erase k) f := by
    apply total_congr_at
    intro k'
    rw [at_erase, at_erase]
    split
    · rfl
    · next hne => exact h k' hne
  have h1 := total_erase m f k
  have h2 := total_erase m' f k
  omega

end Assoc

/-- The keys in an order that follows the hint: iteration order of a source map is unspecified,
and every order is chosen by some hint. -/
def arrange {K : Type u} [DecidableEq K] (hint keys : List K) : List K :=
  (hint.filter (· ∈ keys)).dedup ++ keys.filter (· ∉ hint)

/-- Arranging distinct keys permutes them. -/
theorem arrange_perm {K : Type u} [DecidableEq K] (hint keys : List K) (h : keys.Nodup) :
    (arrange hint keys).Perm keys := by
  apply (perm_ext_iff_of_nodup ?_ h).mpr
  · intro k
    simp only [arrange, mem_append, mem_dedup, mem_filter, decide_eq_true_eq]
    tauto
  · apply List.Nodup.append (nodup_dedup _) (h.filter _)
    intro k hk hk'
    simp only [mem_dedup, mem_filter, decide_eq_true_eq] at hk hk'
    exact hk'.2 hk.1

end PortableFS.Base
