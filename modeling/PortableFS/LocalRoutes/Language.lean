import PortableFS.LocalRoutes.Rules

/-!
# The rule language

`vcs/internal/localroutes/doc.go`: which directories a line declares, in the language's own terms,
and that a compiled rule declares the same. Compiling collapses runs of `**`, moves a leading one
into the floating form and precomputes literals; none of it changes what is declared.
-/

namespace PortableFS.LocalRoutes

open Base List

variable {line part name : Text} {names parts : List Text} {comps acc : List Component}
  {r other : Rule} {floating anchored : Bool}

/-- A pattern covers the name of a directory: `*` is any run of bytes and `?` one byte. -/
def NameMatches (part name : Text) : Prop :=
  Wildcard.Matches (· = 42) (fun p x => p = 63 ∨ p = x) part name

/-- The components of a rule cover a path: `**` is any number of complete components. -/
def PathMatches (parts names : List Text) : Prop :=
  Wildcard.Matches (· = [42, 42]) NameMatches parts names

/-- A line with a slash anywhere but at the end is anchored, unless it begins with `**/`. -/
def Anchored (line : Text) : Prop := 47 ∈ trimByte 47 line ∧ ¬ [42, 42, 47] <+: line

/-- The directories a line declares: an anchored one starts at the volume root, a floating one at any
depth. -/
def LineMatches (line : Text) (names : List Text) : Prop :=
  (Anchored line ∧ PathMatches ((ruleBody line).splitOn 47) names) ∨
    (¬ Anchored line ∧ PathMatches ([42, 42] :: (ruleBody line).splitOn 47) names)

/-- The lines of a text that are neither blank nor comments. -/
def declaredLines (data : Text) : List Text := ((data.splitOn 10).map lineText).filter (· ≠ [])

/-- A directory that the lines of a text declare. -/
def Declared (data : Text) (names : List Text) : Prop :=
  ∃ line ∈ declaredLines data, LineMatches line names

@[simp] theorem Component.text_globstar : Component.globstar.text = [42, 42] := rfl

/-- A component that compiling makes. -/
def Component.Proper : Component → Prop
  | .globstar => True
  | .lit text => text ≠ [] ∧ 47 ∉ text ∧ 42 ∉ text ∧ 63 ∉ text
  | .pat text => text ≠ [] ∧ 47 ∉ text ∧ (42 ∈ text ∨ 63 ∈ text) ∧ text ≠ [42, 42]

theorem globMatch_iff : globMatch part name = true ↔ NameMatches part name := by
  rw [globMatch, Wildcard.covers_iff, NameMatches]
  simp only [beq_iff_eq, Bool.or_eq_true]

/-- A name without `*` and `?` covers itself. -/
theorem nameMatches_literal_iff (hstar : 42 ∉ part) (hany : 63 ∉ part) :
    NameMatches part name ↔ part = name := by
  induction part generalizing name with
  | nil => exact Wildcard.matches_nil_iff.trans eq_comm
  | cons b part ih =>
    rw [mem_cons, not_or] at hstar hany
    have hb : ¬ b = 42 := fun h => hstar.1 h.symm
    rw [NameMatches, Wildcard.matches_one_iff (p := b) hb]
    constructor
    · rintro ⟨y, ys, rfl, hany' | rfl, hrest⟩
      · exact absurd hany'.symm hany.1
      · rw [(ih hstar.2 hany.2).mp hrest]
    · rintro rfl
      exact ⟨b, part, rfl, .inr rfl, (ih hstar.2 hany.2).mpr rfl⟩

variable {c : Component}

theorem Component.Proper.text_eq_globstar (h : c.Proper) :
    c.text = [42, 42] ↔ c.isGlobstar = true := by
  cases c with
  | globstar => simp [Component.text, Component.isGlobstar]
  | lit text =>
    simp only [Component.text, Component.isGlobstar, Bool.false_eq_true, iff_false]
    rintro rfl
    exact h.2.2.1 (by decide)
  | pat text => simpa [Component.text, Component.isGlobstar] using h.2.2.2

theorem Component.Proper.nameMatches_text (h : c.Proper) (hstar : ¬ c.isGlobstar = true) :
    NameMatches c.text name ↔ c.accepts name = true := by
  cases c with
  | globstar => exact absurd rfl hstar
  | lit text => simpa [Component.text, Component.accepts] using
      nameMatches_literal_iff h.2.2.1 h.2.2.2
  | pat text => exact globMatch_iff.symm

/-- The matcher decides what proper components cover. -/
theorem matchComps_iff (h : ∀ c ∈ comps, c.Proper) :
    matchComps comps names = true ↔ PathMatches (comps.map Component.text) names := by
  rw [matchComps, Wildcard.covers_iff]
  exact (Wildcard.matches_map_iff Component.text (fun c hc => (h c hc).text_eq_globstar)
    (fun c hc hstar name => (h c hc).nameMatches_text hstar) names).symm

theorem Component.Proper.slash_notMem (h : c.Proper) : 47 ∉ c.text := by
  cases c with
  | globstar => simp [Component.text]
  | lit text => exact h.2.1
  | pat text => exact h.2.1

theorem Component.Proper.text_inj {c' : Component} (h : c.Proper) (h' : c'.Proper)
    (heq : c.text = c'.text) : c = c' := by
  cases c with
  | globstar =>
    have hstar := h'.text_eq_globstar.mp heq.symm
    cases c' with
    | globstar => rfl
    | lit text => cases hstar
    | pat text => cases hstar
  | lit text =>
    cases c' with
    | globstar => exact absurd (h.text_eq_globstar.mp heq) Bool.false_ne_true
    | lit text' => exact congrArg Component.lit heq
    | pat text' =>
      obtain rfl : text = text' := heq
      exact (h'.2.2.1.elim h.2.2.1 h.2.2.2).elim
  | pat text =>
    cases c' with
    | globstar => exact absurd (h.text_eq_globstar.mp heq) Bool.false_ne_true
    | lit text' =>
      obtain rfl : text = text' := heq
      exact (h.2.2.1.elim h'.2.2.1 h'.2.2.2).elim
    | pat text' => exact congrArg Component.pat heq

private theorem pathMatches_collapse (seg parts : List Text) (names : List Text) :
    PathMatches (seg ++ [42, 42] :: [42, 42] :: parts) names ↔
      PathMatches (seg ++ [42, 42] :: parts) names := by
  apply Wildcard.matches_append_congr
  intro xs
  refine Wildcard.matches_star_star_iff ?_ ?_ <;> rfl

/-- The compiled components cover what the parts cover, and are proper. -/
theorem compileParts_eq_ok (hacc : ∀ c ∈ acc, c.Proper) (hparts : ∀ part ∈ parts, 47 ∉ part)
    (h : compileParts parts acc = .ok comps) :
    (∀ c ∈ comps, c.Proper) ∧ ∀ names, PathMatches (comps.map Component.text) names ↔
        PathMatches (acc.map Component.text ++ parts) names := by
  induction parts generalizing acc with
  | nil =>
    cases h
    exact ⟨hacc, fun names => by rw [append_nil]⟩
  | cons part rest ih =>
    have hrest : ∀ part ∈ rest, 47 ∉ part := fun q hq => hparts q (mem_cons_of_mem _ hq)
    have hslash := hparts part mem_cons_self
    -- a part that is kept is appended as it is written
    have hkeep : ∀ c : Component, c.Proper → c.text = part →
        compileParts rest (acc ++ [c]) = .ok comps → (∀ c ∈ comps, c.Proper) ∧
          ∀ names, PathMatches (comps.map Component.text) names ↔
            PathMatches (acc.map Component.text ++ part :: rest) names := by
      intro c hc htext hcomp
      have hall : ∀ c' ∈ acc ++ [c], c'.Proper := by
        intro c' hc'
        rcases mem_append.mp hc' with hold | hnew
        · exact hacc c' hold
        · exact mem_singleton.mp hnew ▸ hc
      obtain ⟨hproper, hmatch⟩ := ih hall hrest hcomp
      refine ⟨hproper, fun names => ?_⟩
      rw [hmatch, map_append, map_singleton, htext, append_assoc, singleton_append]
    unfold compileParts at h
    split at h
    · cases h
    next hne =>
    split at h
    · cases h
    split at h
    · cases h
    split at h
    · cases h
    split at h
    · next hglob =>
      split at h
      · next hlast =>
        obtain ⟨hproper, hmatch⟩ := ih hacc hrest h
        refine ⟨hproper, fun names => ?_⟩
        obtain ⟨init, rfl⟩ := List.getLast?_eq_some_iff.mp hlast
        rw [hmatch, hglob, map_append, map_singleton, append_assoc, append_assoc]
        exact (pathMatches_collapse _ _ _).symm
      · exact hkeep .globstar trivial hglob.symm h
    next hglob =>
    split at h
    · cases h
    split at h
    · next hwild => exact hkeep (.pat part) ⟨hne, hslash, hwild, hglob⟩ rfl h
    · next hwild =>
      rw [not_or] at hwild
      exact hkeep (.lit part) ⟨hne, hslash, hwild.1, hwild.2⟩ rfl h

/-- A rule that compiling makes. -/
structure Rule.WellFormed (r : Rule) (comps : List Component) : Prop where
  built : r = buildRule r.floating comps
  proper : ∀ c ∈ comps, c.Proper
  roots : ¬ comps.all Component.isGlobstar = true

/-- No compiled rule routes the volume root. -/
theorem Rule.WellFormed.not_matches_nil (h : r.WellFormed comps) :
    ¬ matchComps r.comps [] = true := by
  rw [matchComps, Wildcard.covers_iff, Wildcard.matches_nil_text_iff, List.isEmpty_iff,
    dropWhile_eq_nil_iff]
  intro hall
  apply h.roots
  rw [all_eq_true]
  intro c hc
  apply hall c
  rw [h.built, buildRule]
  dsimp only
  split
  · exact mem_cons_of_mem _ hc
  · exact hc

variable {b : UInt8} {text : Text}

private theorem trimByte_cons {c : UInt8} (h : text ≠ []) :
    trimByte b (c :: text) = c :: trimByte b text := by
  unfold trimByte
  rw [List.getLast?_cons_of_ne_nil h, dropLast_cons_of_ne_nil h]
  split <;> rfl

private theorem prefix_trimByte : trimByte b text <+: text := by
  unfold trimByte
  split
  · exact dropLast_prefix text
  · exact prefix_rfl

/-- The parser's anchoring is the language's. -/
theorem anchoredLine_iff (hbody : ruleBody line ≠ []) : anchoredLine line = true ↔ Anchored line := by
  simp only [anchoredLine, decide_eq_true_eq, Anchored]
  by_cases hhead : line.head? = some 47
  · obtain ⟨text, rfl⟩ := List.head?_eq_some_iff.mp hhead
    have htext : text ≠ [] := by
      rintro rfl
      exact hbody rfl
    rw [trimByte_cons htext]
    simp
  have hsame : ruleBody line = trimByte 47 line := by rw [ruleBody, if_neg hhead]
  rw [hsame]
  simp only [hhead, false_or]
  refine and_congr_right fun hslash => not_congr ⟨fun hp => hp.trans prefix_trimByte, fun hp => ?_⟩
  -- a line that is no longer than the `**/` it begins with has no other slash
  obtain ⟨rest, rfl⟩ := hp
  unfold trimByte at hslash ⊢
  split
  · next hlast =>
    rw [if_pos hlast] at hslash
    cases rest using List.reverseRecOn with
    | nil => simp at hslash
    | append_singleton rest b =>
      rw [← append_assoc, dropLast_concat]
      exact prefix_append _ _
  · exact prefix_append _ _

private theorem ruleOf_eq_ok (hproper : ∀ c ∈ comps, c.Proper) (h : ruleOf anchored comps = .ok r) :
    (∃ comps, r.WellFormed comps) ∧ ∀ names, matchComps r.comps names = true ↔
        PathMatches ((if anchored then [] else [[42, 42]]) ++ comps.map Component.text) names := by
  by_cases hfloats : comps.head? = some .globstar
  · obtain ⟨rest, rfl⟩ := List.head?_eq_some_iff.mp hfloats
    simp only [ruleOf, List.head?_cons, if_true, tail_cons, or_true, decide_true] at h
    split at h
    · cases h
    next hroots =>
    rw [not_or] at hroots
    cases h
    have hrest : ∀ c ∈ rest, c.Proper := fun c hc => hproper c (mem_cons_of_mem _ hc)
    refine ⟨⟨rest, ⟨rfl, hrest, hroots.2⟩⟩, fun names => ?_⟩
    simp only [buildRule, if_true]
    rw [matchComps_iff hproper]
    cases anchored with
    | true => rfl
    | false => exact (pathMatches_collapse [] _ _).symm
  · simp only [ruleOf, hfloats, if_false, or_false] at h
    split at h
    · cases h
    next hroots =>
    rw [not_or] at hroots
    cases h
    refine ⟨⟨comps, ⟨rfl, hproper, hroots.2⟩⟩, fun names => ?_⟩
    cases anchored with
    | true => simpa [buildRule] using matchComps_iff hproper
    | false =>
      have hall : ∀ c ∈ Component.globstar :: comps, c.Proper := by
        intro c hc
        rcases mem_cons.mp hc with rfl | hmem
        · trivial
        · exact hproper c hmem
      simpa [buildRule] using matchComps_iff hall

/-- What an accepted line compiles to: a rule that declares the directories the line declares. -/
theorem compileRule_eq_ok (h : compileRule line = .ok r) : (∃ comps, r.WellFormed comps) ∧
      ∀ names, matchComps r.comps names = true ↔ LineMatches line names := by
  unfold compileRule at h
  split at h
  · cases h
  split at h
  · cases h
  split at h
  · cases h
  split at h
  · cases h
  split at h
  · cases h
  split at h
  · cases h
  next hbody =>
  cases hcomps : compileParts ((ruleBody line).splitOn 47) [] with
  | error reason =>
    rw [hcomps] at h
    cases h
  | ok comps =>
    rw [hcomps] at h
    replace h : ruleOf (anchoredLine line) comps = .ok r := h
    have hslash : ∀ part ∈ (ruleBody line).splitOn 47, 47 ∉ part :=
      fun part hpart => Text.notMem_of_mem_splitOn hpart
    obtain ⟨hproper, hmatch⟩ := compileParts_eq_ok (by simp) hslash hcomps
    simp only [map_nil, nil_append] at hmatch
    obtain ⟨hwf, hrule⟩ := ruleOf_eq_ok hproper h
    refine ⟨hwf, fun names => ?_⟩
    rw [hrule, LineMatches, ← anchoredLine_iff hbody]
    cases anchoredLine line with
    | true => simpa using hmatch names
    | false =>
      -- a floating line may begin at any depth, which one more `**` says
      have hfloat : PathMatches ([42, 42] :: comps.map Component.text) names ↔
          PathMatches ([42, 42] :: (ruleBody line).splitOn 47) names :=
        Wildcard.matches_append_congr [[42, 42]] hmatch names
      simpa using hfloat

end PortableFS.LocalRoutes
