import PortableFS.Base.Assoc
import PortableFS.LocalRoutes.Language

/-!
# Routing

The lookup returns the topmost directory that some declared line matches. On the way from the lines to
the lookup three things happen to the rules: equal texts are one rule, rules inside the subtree of
another are dropped, and the rest are split into two maps and a list. A rule is determined by its
text; a dropped rule is dropped for one that is kept; and the maps answer what the matcher would.
-/

namespace PortableFS.LocalRoutes

open Base List

variable {line name : Text} {names : List Text} {comps comps' : List Component} {r other : Rule}
  {rules byText : List Rule} {data : Text} {rs : RuleSet}

/-- A rule is determined by its text. -/
theorem Rule.WellFormed.eq_of_text {r' : Rule} (h : r.WellFormed comps) (h' : r'.WellFormed comps')
    (heq : r.text = r'.text) : r = r' := by
  have hne : comps ≠ [] := by
    rintro rfl
    exact h.roots rfl
  have hne' : comps' ≠ [] := by
    rintro rfl
    exact h'.roots rfl
  have htext := heq
  rw [h.built, h'.built] at htext
  simp only [buildRule] at htext
  have htail := append_cancel_right htext
  have hfloating : r.floating = r'.floating := by
    cases hf : r.floating <;> cases hf' : r'.floating <;> simp [hf, hf'] at htail ⊢
  rw [hfloating] at htail
  have hjoin := append_cancel_left htail
  have hparts : comps.map Component.text = comps'.map Component.text := by
    apply Text.intercalate_inj (x := 47) (by simpa using hne) (by simpa using hne') _ _ hjoin
    · intro l hl
      obtain ⟨c, hc, rfl⟩ := mem_map.mp hl
      exact (h.proper c hc).slash_notMem
    · intro l hl
      obtain ⟨c, hc, rfl⟩ := mem_map.mp hl
      exact (h'.proper c hc).slash_notMem
  have hcomps : comps = comps' := by
    apply ext_getElem
    · simpa using congrArg List.length hparts
    · intro i hi hi'
      apply (h.proper _ (List.getElem_mem hi)).text_inj (h'.proper _ (List.getElem_mem hi'))
      have hget := congrArg (·[i]?) hparts
      simpa [List.getElem?_eq_getElem hi, List.getElem?_eq_getElem hi'] using hget
  rw [h.built, h'.built, hfloating, hcomps]

theorem literalComps_eq_some_iff : literalComps comps = some names ↔ comps = names.map .lit := by
  induction comps generalizing names with
  | nil => cases names <;> simp [literalComps]
  | cons c comps ih =>
    cases c with
    | lit text =>
      rw [literalComps, Option.map_eq_some_iff]
      constructor
      · rintro ⟨rest, hrest, rfl⟩
        rw [ih.mp hrest, map_cons]
      · intro h
        cases names with
        | nil => cases h
        | cons first rest =>
          rw [map_cons, List.cons.injEq] at h
          obtain ⟨hfirst, hrest⟩ := h
          exact ⟨rest, ih.mpr hrest, by rw [Component.lit.inj hfirst]⟩
    | globstar | pat => cases names <;> simp [literalComps]

variable {literal : List Text}

/-- Literals cover themselves. -/
theorem matchComps_lit_iff : matchComps (literal.map .lit) names = true ↔ literal = names := by
  rw [matchComps, Wildcard.covers_iff]
  induction literal generalizing names with
  | nil => exact Wildcard.matches_nil_iff.trans eq_comm
  | cons first literal ih =>
    have hfirst : ¬ (Component.lit first).isGlobstar = true := Bool.false_ne_true
    rw [map_cons, Wildcard.matches_one_iff (p := Component.lit first) hfirst]
    constructor
    · rintro ⟨name, rest, rfl, haccepts, hrest⟩
      rw [ih.mp hrest, of_decide_eq_true haccepts]
    · rintro rfl
      exact ⟨first, literal, rfl, decide_eq_true rfl, ih.mpr rfl⟩

/-- A leading `**` covers any components in front. -/
theorem matchComps_globstar_iff : matchComps (.globstar :: comps) names = true ↔
      ∃ k, k ≤ names.length ∧ matchComps comps (names.drop k) = true := by
  have hstar : Component.globstar.isGlobstar = true := rfl
  simp only [matchComps, Wildcard.covers_iff]
  exact Wildcard.matches_star_iff (p := Component.globstar) hstar

/-- What a rule with a literal covers. -/
theorem Rule.WellFormed.matchComps_literal (h : r.WellFormed comps)
    (hliteral : r.literal = some literal) :
    matchComps r.comps names = true ↔
      if r.floating then literal <:+ names else literal = names := by
  have hcomps : comps = literal.map .lit := by
    rw [h.built] at hliteral
    exact literalComps_eq_some_iff.mp hliteral
  have hr : r.comps = if r.floating then .globstar :: comps else comps := by
    rw [h.built, buildRule]
  rw [hr]
  split
  · rw [matchComps_globstar_iff, hcomps]
    simp only [matchComps_lit_iff]
    constructor
    · rintro ⟨k, -, rfl⟩
      exact drop_suffix k names
    · rintro ⟨front, rfl⟩
      exact ⟨front.length, by simp, by simp⟩
  · rw [hcomps, matchComps_lit_iff]

/-- Every rule that was collected is a declared line's, every declared line has a rule with its text,
and no text appears twice. -/
theorem collect_eq_ok {i : ℕ} {raws : List Text} {before : List Rule}
    (h : collect i raws before = .ok byText) :
    (∀ r ∈ byText, r ∈ before ∨
      ∃ raw ∈ raws, lineText raw ≠ [] ∧ compileRule (lineText raw) = .ok r) ∧
    (∀ r ∈ before, r ∈ byText) ∧
    ∀ raw ∈ raws, lineText raw ≠ [] → ∃ r, compileRule (lineText raw) = .ok r ∧
      ∃ r' ∈ byText, r'.text = r.text := by
  induction raws generalizing i before with
  | nil =>
    cases h
    exact ⟨fun r hr => .inl hr, fun r hr => hr, by simp⟩
  | cons raw raws ih =>
    rw [collect] at h
    split at h
    · next hblank =>
      obtain ⟨hfrom, hkeep, hhas⟩ := ih h
      refine ⟨fun r hr => (hfrom r hr).imp_right exists_mem_cons_of_exists, hkeep, ?_⟩
      · intro raw' hraw' hne
        rcases mem_cons.mp hraw' with rfl | hmem
        · exact absurd hblank hne
        · exact hhas raw' hmem hne
    next hne =>
    split at h
    · cases h
    next r hcompile =>
    split at h
    · next hdup =>
      obtain ⟨hfrom, hkeep, hhas⟩ := ih h
      refine ⟨fun r' hr' => (hfrom r' hr').imp_right exists_mem_cons_of_exists, hkeep, ?_⟩
      intro raw' hraw' hne'
      rcases mem_cons.mp hraw' with rfl | hmem
      · obtain ⟨r', hr', htext⟩ := any_eq_true.mp hdup
        exact ⟨r, hcompile, r', hkeep r' hr', of_decide_eq_true htext⟩
      · exact hhas raw' hmem hne'
    · obtain ⟨hfrom, hkeep, hhas⟩ := ih h
      refine ⟨fun r' hr' => ?_, fun r' hr' => hkeep r' (mem_append_left _ hr'), ?_⟩
      · rcases hfrom r' hr' with hbefore | hlater
        · rcases mem_append.mp hbefore with hold | hnew
          · exact .inl hold
          · obtain rfl := mem_singleton.mp hnew
            exact .inr ⟨raw, mem_cons_self, hne, hcompile⟩
        · exact .inr (exists_mem_cons_of_exists hlater)
      · intro raw' hraw' hne'
        rcases mem_cons.mp hraw' with rfl | hmem
        · exact ⟨r, hcompile, r, hkeep r (mem_append_right _ (by simp)), rfl⟩
        · exact hhas raw' hmem hne'

/-- A directory that some rule of a list matches. -/
def Hit (rules : List Rule) (names : List Text) : Prop :=
  ∃ r ∈ rules, matchComps r.comps names = true

/-- The rules by text declare what the lines declare. -/
theorem hit_byText_iff (h : collect 0 (data.splitOn 10) [] = .ok byText) :
    (∀ r ∈ byText, ∃ comps, r.WellFormed comps) ∧
      ∀ names, Hit byText names ↔ Declared data names := by
  obtain ⟨hfrom, -, hhas⟩ := collect_eq_ok h
  have hline : ∀ r ∈ byText, ∃ line ∈ declaredLines data, compileRule line = .ok r := by
    intro r hr
    rcases hfrom r hr with hnil | ⟨raw, hraw, hne, hcompile⟩
    · exact absurd hnil not_mem_nil
    · exact ⟨lineText raw, mem_filter.mpr ⟨mem_map_of_mem hraw, by simpa using hne⟩, hcompile⟩
  have hwf : ∀ r ∈ byText, ∃ comps, r.WellFormed comps := by
    intro r hr
    obtain ⟨line, -, hcompile⟩ := hline r hr
    exact (compileRule_eq_ok hcompile).1
  refine ⟨hwf, fun names => ⟨?_, ?_⟩⟩
  · rintro ⟨r, hr, hmatch⟩
    obtain ⟨line, hmem, hcompile⟩ := hline r hr
    exact ⟨line, hmem, ((compileRule_eq_ok hcompile).2 names).mp hmatch⟩
  rintro ⟨line, hmem, hmatch⟩
  obtain ⟨hmap, hne⟩ := mem_filter.mp hmem
  obtain ⟨raw, hraw, rfl⟩ := mem_map.mp hmap
  obtain ⟨r, hcompile, r', hr', htext⟩ := hhas raw hraw (by simpa using hne)
  obtain ⟨⟨comps, hrwf⟩, hline'⟩ := compileRule_eq_ok hcompile
  obtain ⟨comps', hrwf'⟩ := hwf r' hr'
  obtain rfl := hrwf'.eq_of_text hrwf htext
  exact ⟨r', hr', (hline' names).mpr hmatch⟩

/-- The order in which literals drop each other: shorter ones first, floating before anchored. -/
private def weight (r : Rule) : ℕ := 2 * (r.literal.getD []).length + if r.floating then 0 else 1

private theorem subsumed_eq_true_iff :
    subsumed r byText = true ↔ ∃ literal, r.literal = some literal ∧ ∃ other ∈ byText,
      other.text ≠ r.text ∧ (r.floating = true → other.floating = true) ∧
        ∃ k, 0 < k ∧ k ≤ literal.length ∧ matchComps other.comps (literal.take k) = true := by
  unfold subsumed
  cases hlit : r.literal with
  | none => simp
  | some literal =>
    have hancestor : ∀ other : Rule, matchesAncestorOf other r = true ↔
        (r.floating = true → other.floating = true) ∧
          ∃ k, 0 < k ∧ k ≤ literal.length ∧ matchComps other.comps (literal.take k) = true := by
      intro other
      unfold matchesAncestorOf
      dsimp only
      rw [hlit, Option.getD_some]
      split
      · next hdepth => simp [hdepth.1, hdepth.2]
      next hdepth =>
      rw [any_eq_true]
      constructor
      · rintro ⟨i, hi, hmatch⟩
        refine ⟨?_, i + 1, Nat.succ_pos i, mem_range.mp hi, hmatch⟩
        intro hr
        by_contra hother
        exact hdepth ⟨hr, hother⟩
      · rintro ⟨-, k, hpos, hle, hmatch⟩
        refine ⟨k - 1, mem_range.mpr (by omega), ?_⟩
        rwa [Nat.sub_add_cancel hpos]
    rw [if_neg (by simp), any_eq_true]
    constructor
    · rintro ⟨other, hmem, hdrop⟩
      obtain ⟨htext, hanc⟩ := of_decide_eq_true hdrop
      exact ⟨literal, rfl, other, hmem, htext, (hancestor other).mp hanc⟩
    · rintro ⟨literal', heq, other, hmem, htext, hanc⟩
      cases heq
      exact ⟨other, hmem, decide_eq_true ⟨htext, (hancestor other).mpr hanc⟩⟩

private theorem weight_lt {literal' : List Text} {k : ℕ} (h : r.WellFormed comps)
    (hother : other.WellFormed comps') (hlit : r.literal = some literal)
    (hlit' : other.literal = some literal') (htext : other.text ≠ r.text)
    (hfloat : r.floating = true → other.floating = true) (hk : k ≤ literal.length)
    (hmatch : matchComps other.comps (literal.take k) = true) : weight other < weight r := by
  rw [hother.matchComps_literal hlit'] at hmatch
  have hlen : literal'.length ≤ literal.length := by
    split at hmatch
    · have hle := hmatch.length_le
      rw [length_take] at hle
      omega
    · rw [hmatch, length_take]
      omega
  -- rules of one kind with equally long literals are the same rule
  have hsame : literal'.length = literal.length → other.floating = r.floating → False := by
    intro hlen' hkind
    apply htext
    have heq : literal' = literal := by
      split at hmatch
      · have htake := hmatch.eq_of_length_le (by rw [length_take]; omega)
        rw [take_of_length_le (by rw [htake, length_take] at hlen'; omega)] at htake
        exact htake
      · rw [hmatch, length_take] at hlen'
        rw [hmatch, take_of_length_le (by omega)]
    have hcomps : comps = literal.map .lit := by
      rw [h.built] at hlit
      exact literalComps_eq_some_iff.mp hlit
    have hcomps' : comps' = literal'.map .lit := by
      rw [hother.built] at hlit'
      exact literalComps_eq_some_iff.mp hlit'
    rw [hother.built, h.built, hkind, hcomps', hcomps, heq]
  unfold weight
  rw [hlit, hlit', Option.getD_some, Option.getD_some]
  cases hr : r.floating with
  | true =>
    rw [hfloat hr]
    have hne : literal'.length ≠ literal.length := fun heq => hsame heq ((hfloat hr).trans hr.symm)
    simp only [if_true]
    omega
  | false =>
    cases ho : other.floating with
    | true =>
      simp only [if_true, Bool.false_eq_true, if_false]
      omega
    | false =>
      have hne : literal'.length ≠ literal.length := fun heq => hsame heq (ho.trans hr.symm)
      simp only [Bool.false_eq_true, if_false]
      omega

/-- Where a rule matches, one that is not dropped matches an ancestor or the directory itself. -/
theorem hit_kept (hwf : ∀ r ∈ byText, ∃ comps, r.WellFormed comps) (hr : r ∈ byText)
    (hmatch : matchComps r.comps names = true) :
    ∃ k, 0 < k ∧ k ≤ names.length ∧ Hit (byText.filter fun r => ¬ subsumed r byText) (names.take k) := by
  -- by the weight of the rule: what it was dropped for is kept or lighter
  induction hn : weight r using Nat.strong_induction_on generalizing r names with
  | _ n ih =>
    obtain ⟨comps, hrwf⟩ := hwf r hr
    by_cases hsub : subsumed r byText = true
    · obtain ⟨literal, hlit, other, hother, htext, hfloat, k, hpos, hk, hanc⟩ :=
        subsumed_eq_true_iff.mp hsub
      obtain ⟨comps', howf⟩ := hwf other hother
      rw [hrwf.matchComps_literal hlit] at hmatch
      obtain ⟨j, hjpos, hj, hup⟩ : ∃ j, 0 < j ∧ j ≤ names.length ∧
          matchComps other.comps (names.take j) = true := by
        split at hmatch
        · next hr' =>
          obtain ⟨front, rfl⟩ := hmatch
          refine ⟨front.length + k, by omega, by rw [length_append]; omega, ?_⟩
          rw [take_length_add_append]
          have hcomps : other.comps = .globstar :: comps' := by
            rw [howf.built, buildRule]
            simp [hfloat hr']
          rw [hcomps] at hanc ⊢
          obtain ⟨i, hi, hrest⟩ := matchComps_globstar_iff.mp hanc
          refine matchComps_globstar_iff.mpr ⟨front.length + i, ?_, ?_⟩
          · rw [length_append]
            omega
          · rwa [drop_length_add_append]
        · exact ⟨k, hpos, hmatch ▸ hk, hmatch ▸ hanc⟩
      have hnext : ∃ i, 0 < i ∧ i ≤ (names.take j).length ∧
          Hit (byText.filter fun r => ¬ subsumed r byText) ((names.take j).take i) := by
        by_cases hsub' : subsumed other byText = true
        · obtain ⟨literal', hlit', -⟩ := subsumed_eq_true_iff.mp hsub'
          have hlt := weight_lt hrwf howf hlit hlit' htext hfloat hk hanc
          exact ih (weight other) (hn ▸ hlt) hother hup rfl
        refine ⟨(names.take j).length, ?_, le_rfl, other,
          mem_filter.mpr ⟨hother, by simpa using hsub'⟩, ?_⟩
        · rw [length_take]
          omega
        · rwa [take_length]
      obtain ⟨i, hipos, hi, hhit⟩ := hnext
      rw [length_take] at hi
      rw [take_take] at hhit
      exact ⟨min i j, by omega, by omega, hhit⟩
    · refine ⟨names.length, ?_, le_rfl, r, mem_filter.mpr ⟨hr, by simpa using hsub⟩, ?_⟩
      · rw [length_pos_iff]
        rintro rfl
        exact hrwf.not_matches_nil hmatch
      · rwa [take_length]

/-- A wildcard-free floating rule of one component. -/
private def Names (r : Rule) (name : Text) : Prop := r.literal = some [name] ∧ r.floating = true

/-- A wildcard-free anchored rule. -/
private def Paths (r : Rule) (path : Text) : Prop :=
  ∃ literal, r.literal = some literal ∧ r.floating = false ∧ joinPath literal = path

variable (c : Core)

private theorem place_cases (i : ℕ) (r : Rule) :
    (∃ name, Names r name ∧ c.place i r = { c with floatLit := c.floatLit.insert name i }) ∨
    (∃ path, Paths r path ∧ c.place i r = { c with anchoredLit := c.anchoredLit.insert path i }) ∨
    ((∀ name, ¬ Names r name) ∧ (∀ path, ¬ Paths r path) ∧
      c.place i r = { c with general := c.general ++ [i] }) := by
  unfold Core.place
  split
  · next name hlit hfloat => exact .inl ⟨name, ⟨hlit, hfloat⟩, rfl⟩
  · next literal hlit hfloat => exact .inr (.inl ⟨_, ⟨literal, hlit, hfloat, rfl⟩, rfl⟩)
  next hname hpath =>
  refine .inr (.inr ⟨?_, ?_, rfl⟩)
  · rintro name ⟨hlit, hfloat⟩
    exact hname name hlit hfloat
  · rintro path ⟨literal, hlit, hfloat, -⟩
    exact hpath literal hlit hfloat

private theorem place_rules (i : ℕ) (r : Rule) : (c.place i r).rules = c.rules := by
  obtain ⟨_, -, h⟩ | ⟨_, -, h⟩ | ⟨-, -, h⟩ := place_cases c i r <;> rw [h]

private theorem names_inj {name' : Text} (h : Names r name) (h' : Names r name') : name = name' := by
  have heq := h.1.symm.trans h'.1
  simpa using heq

variable {path : Text}

private theorem paths_inj {path' : Text} (h : Paths r path) (h' : Paths r path') :
    path = path' := by
  obtain ⟨literal, hlit, -, rfl⟩ := h
  obtain ⟨literal', hlit', -, rfl⟩ := h'
  rw [Option.some.inj (hlit.symm.trans hlit')]

private theorem not_names_of_paths (h : Paths r path) (h' : Names r name) : False := by
  obtain ⟨literal, -, hfloat, -⟩ := h
  exact Bool.false_ne_true (hfloat.symm.trans h'.2)

private theorem placeFrom_spec (i : ℕ) (rules : List Rule) : (c.placeFrom i rules).rules = c.rules ∧
    (∀ name, ((c.placeFrom i rules).floatLit.lookup name).isSome = true ↔
      (c.floatLit.lookup name).isSome = true ∨ ∃ r ∈ rules, Names r name) ∧
    (∀ path, ((c.placeFrom i rules).anchoredLit.lookup path).isSome = true ↔
      (c.anchoredLit.lookup path).isSome = true ∨ ∃ r ∈ rules, Paths r path) ∧
    ∀ idx, idx ∈ (c.placeFrom i rules).general ↔ idx ∈ c.general ∨
      ∃ k r, idx = i + k ∧ rules[k]? = some r ∧ (∀ name, ¬ Names r name) ∧ ∀ path, ¬ Paths r path := by
  induction rules generalizing c i with
  | nil => simp [Core.placeFrom]
  | cons r rules ih =>
    obtain ⟨hrules, hnames, hpaths, hgeneral⟩ := ih (c.place i r) (i + 1)
    rw [Core.placeFrom]
    refine ⟨hrules.trans (place_rules c i r), fun name => ?_, fun path => ?_, fun idx => ?_⟩
    · rw [hnames, exists_mem_cons_iff, ← or_assoc]
      refine or_congr_left ?_
      obtain ⟨name', hn, h⟩ | ⟨path', hp, h⟩ | ⟨hn, -, h⟩ := place_cases c i r
      · rw [h]
        dsimp only
        rw [Assoc.lookup_insert_eq]
        split
        · next heq =>
          subst heq
          simp [hn]
        · next hne =>
          have hnot : ¬ Names r name := fun h' => hne (names_inj h' hn)
          simp [hnot]
      · rw [h]
        have hnot : ¬ Names r name := fun h' => not_names_of_paths hp h'
        simp [hnot]
      · rw [h]
        simp [hn name]
    · rw [hpaths, exists_mem_cons_iff, ← or_assoc]
      refine or_congr_left ?_
      obtain ⟨name', hn, h⟩ | ⟨path', hp, h⟩ | ⟨-, hp, h⟩ := place_cases c i r
      · rw [h]
        have hnot : ¬ Paths r path := fun h' => not_names_of_paths h' hn
        simp [hnot]
      · rw [h]
        dsimp only
        rw [Assoc.lookup_insert_eq]
        split
        · next heq =>
          subst heq
          simp [hp]
        · next hne =>
          have hnot : ¬ Paths r path := fun h' => hne (paths_inj h' hp)
          simp [hnot]
      · rw [h]
        simp [hp path]
    · rw [hgeneral]
      have hshift : (∃ k r', idx = i + k ∧ (r :: rules)[k]? = some r' ∧
            (∀ name, ¬ Names r' name) ∧ ∀ path, ¬ Paths r' path) ↔
          (idx = i ∧ (∀ name, ¬ Names r name) ∧ ∀ path, ¬ Paths r path) ∨
            ∃ k r', idx = i + 1 + k ∧ rules[k]? = some r' ∧
              (∀ name, ¬ Names r' name) ∧ ∀ path, ¬ Paths r' path := by
        constructor
        · rintro ⟨k, r', rfl, hget, hrest⟩
          cases k with
          | zero =>
            cases hget
            exact .inl ⟨rfl, hrest⟩
          | succ k => exact .inr ⟨k, r', by omega, hget, hrest⟩
        · rintro (⟨rfl, hrest⟩ | ⟨k, r', rfl, hget, hrest⟩)
          · exact ⟨0, r, rfl, rfl, hrest⟩
          · exact ⟨k + 1, r', by omega, hget, hrest⟩
      rw [hshift, ← or_assoc]
      refine or_congr_left ?_
      obtain ⟨name', hn, h⟩ | ⟨path', hp, h⟩ | ⟨hn, hp, h⟩ := place_cases c i r
      · rw [h]
        have hnot : ¬ ∀ name, ¬ Names r name := fun hall => hall name' hn
        simp [hnot]
      · rw [h]
        have hnot : ¬ ∀ path, ¬ Paths r path := fun hall => hall path' hp
        simp [hnot]
      · rw [h]
        simp [hn, hp]

private theorem scanGeneral_isSome (idxs : List ℕ) (best : Option ℕ) :
    (c.scanGeneral names idxs best).isSome = true ↔ best.isSome = true ∨
      ∃ idx ∈ idxs, ∃ r, c.rules[idx]? = some r ∧ matchComps r.comps names = true := by
  induction idxs with
  | nil => simp [Core.scanGeneral]
  | cons idx idxs ih =>
    rw [Core.scanGeneral]
    split
    · next hbreak =>
      have hsome : best.isSome = true := by
        cases best with
        | none => cases hbreak
        | some b => rfl
      simp [hsome]
    · rw [exists_mem_cons_iff]
      have hany : (c.rules[idx]?).any (fun r => matchComps r.comps names) = true ↔
          ∃ r, c.rules[idx]? = some r ∧ matchComps r.comps names = true := by
        cases c.rules[idx]? <;> simp
      split
      · next hmatch => simp [hany.mp hmatch]
      · next hmatch =>
        rw [hany] at hmatch
        rw [ih, or_iff_right hmatch]

private theorem earlier_isSome (float anchored : Option ℕ) :
    (earlier float anchored).isSome = true ↔ float.isSome = true ∨ anchored.isSome = true := by
  cases anchored with
  | none => simp [earlier]
  | some idx =>
    rw [earlier]
    split
    · simp
    · next h =>
      cases float with
      | none => simp at h
      | some f => simp

private theorem Rule.WellFormed.literal_pieces (h : r.WellFormed comps)
    (hlit : r.literal = some literal) : literal ≠ [] ∧ ∀ l ∈ literal, 47 ∉ l := by
  have hcomps : comps = literal.map .lit := by
    rw [h.built] at hlit
    exact literalComps_eq_some_iff.mp hlit
  constructor
  · rintro rfl
    apply h.roots
    rw [hcomps]
    rfl
  · intro l hl
    exact (h.proper (.lit l) (hcomps ▸ mem_map_of_mem hl)).2.1

/-- The maps and the list together find a rule exactly where one matches. -/
theorem best_isSome_iff (hwf : ∀ r ∈ rules, ∃ comps, r.WellFormed comps)
    (hnames : ∀ n ∈ names ++ [name], 47 ∉ n) :
    ((newCore rules).best name (joinPath (names ++ [name])) (names ++ [name])).isSome = true ↔
      Hit rules (names ++ [name]) := by
  obtain ⟨hrules, hfloat, hanchored, hgeneral⟩ := placeFrom_spec ⟨rules, ∅, ∅, []⟩ 0 rules
  rw [Core.best, scanGeneral_isSome, earlier_isSome]
  unfold newCore
  rw [hfloat, hanchored, hrules]
  simp only [AList.lookup_empty, Option.isSome_none, Bool.false_eq_true, false_or, hgeneral,
    not_mem_nil, Nat.zero_add]
  -- a literal is found under its own text only
  have hpath : ∀ r ∈ rules, ∀ literal, r.literal = some literal → r.floating = false →
      (joinPath literal = joinPath (names ++ [name]) ↔
        matchComps r.comps (names ++ [name]) = true) := by
    intro r hr literal hlit hanch
    obtain ⟨comps, hrwf⟩ := hwf r hr
    obtain ⟨hne, hslash⟩ := hrwf.literal_pieces hlit
    rw [hrwf.matchComps_literal hlit, hanch, if_neg Bool.false_ne_true]
    constructor
    · intro heq
      exact Text.intercalate_inj hne (by simp) hslash hnames heq
    · intro heq
      rw [heq]
  have hname : ∀ r ∈ rules, ∀ name', Names r name' →
      (name' = name ↔ matchComps r.comps (names ++ [name]) = true) := by
    rintro r hr name' ⟨hlit, hfl⟩
    obtain ⟨comps, hrwf⟩ := hwf r hr
    rw [hrwf.matchComps_literal hlit, hfl, if_pos rfl]
    constructor
    · rintro rfl
      exact suffix_append _ _
    · intro hsuffix
      obtain ⟨front, hfront⟩ := hsuffix
      exact singleton_inj.mp (List.append_inj_right' hfront rfl)
  constructor
  · rintro ((⟨r, hr, hn⟩ | ⟨r, hr, literal, hlit, hanch, hjoin⟩) |
      ⟨idx, ⟨k, r, rfl, hget, -, -⟩, r', hget', hmatch⟩)
    · exact ⟨r, hr, (hname r hr name hn).mp rfl⟩
    · exact ⟨r, hr, (hpath r hr literal hlit hanch).mp hjoin⟩
    · exact ⟨r', List.mem_of_getElem? hget', hmatch⟩
  · rintro ⟨r, hr, hmatch⟩
    by_cases hn : ∃ name', Names r name'
    · obtain ⟨name', hn⟩ := hn
      obtain rfl := (hname r hr name' hn).mpr hmatch
      exact .inl (.inl ⟨r, hr, hn⟩)
    by_cases hp : ∃ path, Paths r path
    · obtain ⟨path, literal, hlit, hanch, rfl⟩ := hp
      exact .inl (.inr ⟨r, hr, literal, hlit, hanch, (hpath r hr literal hlit hanch).mpr hmatch⟩)
    · obtain ⟨k, hk⟩ := List.getElem?_of_mem hr
      exact .inr ⟨k, ⟨k, r, rfl, hk, not_exists.mp hn, not_exists.mp hp⟩, r, hk, hmatch⟩

/-- The root is the first directory on the way down to the path that is hit, with no unroutable
component before it ends. -/
def TopmostRoot (hit : List Text → Prop) (p root : Text) : Prop :=
  ∃ k, 0 < k ∧ k ≤ (p.splitOn 47).length ∧
    (∀ name ∈ (p.splitOn 47).take k, ¬ unroutable name = true) ∧ hit ((p.splitOn 47).take k) ∧
    (∀ j, 0 < j → j < k → ¬ hit ((p.splitOn 47).take j)) ∧ root = joinPath ((p.splitOn 47).take k)

/-- Where the next component starts. -/
private def offset (names : List Text) : ℕ := if names = [] then 0 else (joinPath names).length + 1

variable {rest : List Text}

theorem joinPath_append (h : names ≠ []) (h' : rest ≠ []) :
    joinPath (names ++ rest) = joinPath names ++ 47 :: joinPath rest :=
  Text.intercalate_append h h'

private theorem length_joinPath_append (names : List Text) (name : Text) :
    (joinPath (names ++ [name])).length = offset names + name.length := by
  unfold offset
  split
  · next h =>
    subst h
    rw [nil_append, joinPath, intercalate_singleton, Nat.zero_add]
  · next h =>
    have hone : joinPath [name] = name := intercalate_singleton
    rw [joinPath_append h (by simp), hone, length_append, length_cons]
    omega

private theorem offset_append (names : List Text) (name : Text) :
    offset (names ++ [name]) = offset names + name.length + 1 := by
  rw [offset, if_neg (by simp), length_joinPath_append]

private theorem take_joinPath (names : List Text) (name : Text) (rest : List Text) :
    (joinPath (names ++ name :: rest)).take (offset names + name.length) =
      joinPath (names ++ [name]) := by
  have hsplit : names ++ name :: rest = (names ++ [name]) ++ rest := append_cons names name rest
  rw [← length_joinPath_append, hsplit]
  cases rest with
  | nil => rw [append_nil, take_length]
  | cons next rest =>
    have hjoin : joinPath ((names ++ [name]) ++ next :: rest) =
        joinPath (names ++ [name]) ++ 47 :: joinPath (next :: rest) :=
      joinPath_append (by simp) (by simp)
    rw [hjoin, take_left]

variable {p root : Text}

private theorem matchFrom_iff (hwf : ∀ r ∈ rules, ∃ comps, r.WellFormed comps)
    (hslash : ∀ n ∈ names ++ rest, 47 ∉ n) (hp : p = joinPath (names ++ rest)) :
    (∃ text, (newCore rules).matchFrom p (offset names) names rest = some (root, text)) ↔
      ∃ k, 0 < k ∧ k ≤ rest.length ∧ (∀ name ∈ rest.take k, ¬ unroutable name = true) ∧
        Hit rules (names ++ rest.take k) ∧
        (∀ j, 0 < j → j < k → ¬ Hit rules (names ++ rest.take j)) ∧
        root = joinPath (names ++ rest.take k) := by
  induction rest generalizing names with
  | nil =>
    constructor
    · rintro ⟨text, h⟩
      cases h
    · rintro ⟨k, hpos, hk, -⟩
      rw [length_nil] at hk
      omega
  | cons name rest ih =>
    rw [Core.matchFrom]
    split
    · next hbad =>
      constructor
      · rintro ⟨text, h⟩
        cases h
      · rintro ⟨k, hpos, -, hgood, -⟩
        obtain ⟨k, rfl⟩ : ∃ i, k = i + 1 := ⟨k - 1, by omega⟩
        exact absurd hbad (hgood name (by simp))
    next hgood =>
    have hpath : p.take (offset names + name.length) = joinPath (names ++ [name]) := by
      rw [hp, take_joinPath]
    have hbest := @best_isSome_iff name names rules hwf (fun n hn => hslash n (by
      rw [append_cons]
      exact mem_append_left _ hn))
    rw [hpath]
    cases hb : (newCore rules).best name (joinPath (names ++ [name])) (names ++ [name]) with
    | some idx =>
      rw [hb] at hbest
      have hhit := hbest.mp rfl
      constructor
      · rintro ⟨text, h⟩
        obtain ⟨rfl, -⟩ := Prod.mk.inj (Option.some.inj h)
        refine ⟨1, Nat.one_pos, by simp, ?_, hhit, fun j hpos hj => by omega, rfl⟩
        intro name' hname'
        rw [take_succ_cons, take_zero, mem_singleton] at hname'
        exact hname' ▸ hgood
      · rintro ⟨k, hpos, -, -, -, hfirst, rfl⟩
        obtain rfl : k = 1 := by
          by_contra hk
          exact hfirst 1 Nat.one_pos (by omega) hhit
        exact ⟨_, rfl⟩
    | none =>
      rw [hb] at hbest
      have hmiss : ¬ Hit rules (names ++ [name]) := fun h => by simpa using hbest.mpr h
      have hrest := @ih (names ++ [name])
        (fun n hn => hslash n (by rwa [append_cons])) (by rw [hp, append_cons])
      rw [offset_append] at hrest
      dsimp only
      rw [hrest]
      constructor
      · rintro ⟨k, hpos, hk, hnames, hhit, hfirst, hroot⟩
        rw [append_assoc] at hhit hroot
        refine ⟨k + 1, Nat.succ_pos k, Nat.succ_le_succ hk, ?_, hhit, ?_, hroot⟩
        · intro name' hname'
          rw [take_succ_cons] at hname'
          rcases mem_cons.mp hname' with rfl | hmem
          · exact hgood
          · exact hnames name' hmem
        · intro j hj hjk
          obtain ⟨j, rfl⟩ : ∃ i, j = i + 1 := ⟨j - 1, by omega⟩
          rcases Nat.eq_zero_or_pos j with rfl | hjpos
          · exact hmiss
          · rw [take_succ_cons, append_cons]
            exact hfirst j hjpos (by omega)
      · rintro ⟨k, hpos, hk, hnames, hhit, hfirst, hroot⟩
        obtain ⟨k, rfl⟩ : ∃ i, k = i + 1 := ⟨k - 1, by omega⟩
        rw [take_succ_cons, append_cons] at hhit hroot
        rw [take_succ_cons] at hnames
        have hkpos : 0 < k := by
          rw [Nat.pos_iff_ne_zero]
          rintro rfl
          rw [take_zero, append_nil] at hhit
          exact hmiss hhit
        refine ⟨k, hkpos, Nat.le_of_succ_le_succ hk,
          fun n hn => hnames n (mem_cons_of_mem _ hn), hhit, fun j hj hjk => ?_, hroot⟩
        have hmissj := hfirst (j + 1) (Nat.succ_pos j) (by omega)
        rwa [take_succ_cons, append_cons] at hmissj

theorem rules_newCore (rules : List Rule) : (newCore rules).rules = rules :=
  (placeFrom_spec ⟨rules, ∅, ∅, []⟩ 0 rules).1

/-- The lookup in a compiled set of rules. -/
theorem matchRoot_newCore_iff (hwf : ∀ r ∈ rules, ∃ comps, r.WellFormed comps) (p root : Text) :
    matchRoot (some (newCore rules)) p = some root ↔ TopmostRoot (Hit rules) p root := by
  have hslash : ∀ n ∈ [] ++ p.splitOn 47, 47 ∉ n := fun n hn => Text.notMem_of_mem_splitOn hn
  have hloop := @matchFrom_iff [] rules (p.splitOn 47) p root hwf hslash
    (intercalate_splitOn 47).symm
  have hoffset : offset [] = 0 := rfl
  simp only [hoffset, nil_append] at hloop
  rw [TopmostRoot, ← hloop, matchRoot, Option.map_eq_some_iff]
  unfold matchRule
  dsimp only
  split
  · next hempty =>
    constructor
    · rintro ⟨_, h, -⟩
      cases h
    · rw [hloop]
      rintro ⟨k, hpos, hk, hgood, ⟨r, hr, -⟩, -⟩
      rw [rules_newCore] at hempty
      rcases hempty with rfl | rfl
      · exact absurd hr not_mem_nil
      · -- the empty path is one empty component
        obtain ⟨k, rfl⟩ : ∃ i, k = i + 1 := ⟨k - 1, by omega⟩
        exact absurd (by decide : unroutable [] = true) (hgood [] (by simp))
  · constructor
    · rintro ⟨⟨root', text⟩, h, rfl⟩
      exact ⟨text, h⟩
    · rintro ⟨text, h⟩
      exact ⟨(root, text), h, rfl⟩

variable {hit : List Text → Prop}

/-- Topmost roots do not change when hits move to ancestors that are hit too. -/
theorem topmostRoot_congr {hit' : List Text → Prop} (hsub : ∀ names, hit' names → hit names)
    (hup : ∀ names, hit names → ∃ k, 0 < k ∧ k ≤ names.length ∧ hit' (names.take k)) (p root : Text) :
    TopmostRoot hit p root ↔ TopmostRoot hit' p root := by
  constructor
  · rintro ⟨k, hpos, hk, hgood, hhit, hfirst, hroot⟩
    obtain ⟨j, hjpos, hj, hhit'⟩ := hup _ hhit
    rw [length_take] at hj
    rw [take_take] at hhit'
    have hjk : min j k = k := by
      by_contra hne
      exact hfirst (min j k) (by omega) (by omega) (hsub _ hhit')
    rw [hjk] at hhit'
    exact ⟨k, hpos, hk, hgood, hhit', fun i hi hik h => hfirst i hi hik (hsub _ h), hroot⟩
  · rintro ⟨k, hpos, hk, hgood, hhit, hfirst, hroot⟩
    refine ⟨k, hpos, hk, hgood, hsub _ hhit, fun i hi hik h => ?_, hroot⟩
    obtain ⟨j, hjpos, hj, hhit'⟩ := hup _ h
    rw [length_take] at hj
    rw [take_take] at hhit'
    exact hfirst (min j i) (by omega) (by omega) hhit'

/-- The rules that are left after parsing. -/
theorem parse_eq_ok (h : parse data = .ok rs) :
    ∃ rules, (∀ r ∈ rules, ∃ comps, r.WellFormed comps) ∧
      (∀ p root, TopmostRoot (Declared data) p root ↔ TopmostRoot (Hit rules) p root) ∧
      (rs = some (newCore rules) ∨ (rs = none ∧ rules = [])) := by
  unfold parse at h
  cases hcollect : collect 0 (data.splitOn 10) [] with
  | error err =>
    rw [hcollect] at h
    cases h
  | ok byText =>
    rw [hcollect] at h
    replace h : (if byText = [] then Except.ok none else
      Except.ok (some (newCore ((byText.insertionSort fun r r' => r.text ≤ r'.text).filter
        fun r => ¬ subsumed r byText)))) = Except.ok rs := h
    obtain ⟨hwf, hdeclared⟩ := hit_byText_iff hcollect
    have hdecl : ∀ p root, TopmostRoot (Declared data) p root ↔ TopmostRoot (Hit byText) p root := by
      intro p root
      simp only [TopmostRoot, hdeclared]
    split at h
    · next hempty =>
      cases h
      exact ⟨byText, hwf, hdecl, .inr ⟨rfl, hempty⟩⟩
    cases h
    have hmem : ∀ r, r ∈ (byText.insertionSort fun r r' => r.text ≤ r'.text).filter
        (fun r => ¬ subsumed r byText) ↔ r ∈ byText.filter fun r => ¬ subsumed r byText := by
      intro r
      rw [mem_filter, mem_filter, (perm_insertionSort _ _).mem_iff]
    refine ⟨_, fun r hr => hwf r (mem_filter.mp ((hmem r).mp hr)).1, fun p root => ?_, .inl rfl⟩
    rw [hdecl]
    apply topmostRoot_congr
    · rintro names ⟨r, hr, hmatch⟩
      exact ⟨r, (mem_filter.mp ((hmem r).mp hr)).1, hmatch⟩
    · rintro names ⟨r, hr, hmatch⟩
      obtain ⟨k, hpos, hk, r', hr', hmatch'⟩ := hit_kept hwf hr hmatch
      exact ⟨k, hpos, hk, r', (hmem r').mpr hr', hmatch'⟩

/-- The lookup returns the topmost declared directory. -/
theorem matchRoot_iff (h : parse data = .ok rs) (p root : Text) :
    matchRoot rs p = some root ↔ TopmostRoot (Declared data) p root := by
  obtain ⟨rules, hwf, htop, hrs⟩ := parse_eq_ok h
  rw [htop]
  rcases hrs with rfl | ⟨rfl, rfl⟩
  · exact matchRoot_newCore_iff hwf p root
  constructor
  · intro hnone
    cases hnone
  · rintro ⟨k, -, -, -, ⟨r, hr, -⟩, -⟩
    exact absurd hr not_mem_nil

section

variable (h : TopmostRoot hit p root)
include h

/-- A root stays the root of everything below the path. -/
theorem TopmostRoot.below (s : Text) : TopmostRoot hit (p ++ 47 :: s) root := by
  obtain ⟨k, hpos, hk, hgood, hhit, hfirst, hroot⟩ := h
  have htake : ∀ j, j ≤ (p.splitOn 47).length →
      ((p ++ 47 :: s).splitOn 47).take j = (p.splitOn 47).take j := by
    intro j hj
    rw [Text.splitOn_append_cons, take_append_of_le_length hj]
  refine ⟨k, hpos, ?_, by rwa [htake k hk], by rwa [htake k hk], fun j hj hjk => ?_, by rwa [htake k hk]⟩
  · rw [Text.splitOn_append_cons, length_append]
    omega
  · rw [htake j (by omega)]
    exact hfirst j hj hjk

/-- The components of a root. -/
theorem TopmostRoot.splitOn_root :
    ∃ k, 0 < k ∧ k ≤ (p.splitOn 47).length ∧ root.splitOn 47 = (p.splitOn 47).take k ∧
      (∀ name ∈ (p.splitOn 47).take k, ¬ unroutable name = true) ∧ hit ((p.splitOn 47).take k) ∧
      ∀ j, 0 < j → j < k → ¬ hit ((p.splitOn 47).take j) := by
  obtain ⟨k, hpos, hk, hgood, hhit, hfirst, rfl⟩ := h
  have hne : (p.splitOn 47).take k ≠ [] := by
    intro hnil
    rw [take_eq_nil_iff] at hnil
    rcases hnil with rfl | hnil
    · omega
    · rw [hnil, length_nil] at hk
      omega
  refine ⟨k, hpos, hk, ?_, hgood, hhit, hfirst⟩
  exact splitOn_intercalate 47 (fun l hl => Text.notMem_of_mem_splitOn (mem_of_mem_take hl)) hne

/-- A root is its own root. -/
theorem TopmostRoot.self : TopmostRoot hit root root := by
  obtain ⟨k, hpos, hk, hsplit, hgood, hhit, hfirst⟩ := h.splitOn_root
  have hlen : (root.splitOn 47).length = k := by
    rw [hsplit, length_take]
    omega
  refine ⟨k, hpos, hlen.ge, ?_, ?_, fun j hj hjk => ?_, ?_⟩
  · rwa [take_of_length_le hlen.le, hsplit]
  · rwa [take_of_length_le hlen.le, hsplit]
  · rw [hsplit, take_take, Nat.min_eq_left hjk.le]
    exact hfirst j hj hjk
  · rw [take_of_length_le hlen.le]
    exact (intercalate_splitOn 47).symm

end

/-- For every accepted text, the lookup returns the topmost ancestor or the path itself that some
declared line matches, unless an unroutable component comes first; what lies below a routed path has
its root, and no root has a protected component. -/
theorem routing_topmost (data : Text) (rs : RuleSet) (h : parse data = .ok rs) :
    (∀ p root, matchRoot rs p = some root ↔ TopmostRoot (Declared data) p root) ∧
      (∀ p root, matchRoot rs p = some root →
        matchRoot rs root = some root ∧ ∀ s, matchRoot rs (p ++ 47 :: s) = some root) ∧
      ∀ p root, matchRoot rs p = some root → ∀ name ∈ root.splitOn 47, isProtected name = false := by
  have hiff := matchRoot_iff h
  refine ⟨hiff, fun p root hroot => ?_, fun p root hroot name hname => ?_⟩
  · have htop := (hiff p root).mp hroot
    exact ⟨(hiff root root).mpr htop.self, fun s => (hiff _ root).mpr (htop.below s)⟩
  obtain ⟨k, -, -, hsplit, hgood, -⟩ := ((hiff p root).mp hroot).splitOn_root
  rw [hsplit] at hname
  have hroutable := hgood name hname
  rw [Bool.eq_false_iff]
  intro hprot
  apply hroutable
  simp [unroutable, hprot]

/-- The rules `a*/` and `/b/c/`. -/
def twoRules : Text := [97, 42, 47, 10, 47, 98, 47, 99, 47]

theorem routing_topmost_twoRules : ∃ rs, parse twoRules = .ok rs ∧
      matchRoot rs [98, 47, 99, 47, 120] = some [98, 47, 99] ∧
      matchRoot rs [98, 47, 99, 47, 120, 47, 121] = some [98, 47, 99] := by
  obtain ⟨rs, hparse, hmatch⟩ : ∃ rs, parse twoRules = .ok rs ∧
      matchRoot rs [98, 47, 99, 47, 120] = some [98, 47, 99] := ⟨_, rfl, rfl⟩
  refine ⟨rs, hparse, hmatch, ?_⟩
  exact ((routing_topmost twoRules rs hparse).2.1 _ _ hmatch).2 [121]

end PortableFS.LocalRoutes
