import PortableFS.LocalRoutes.SubtreeKey

/-!
# Renames of shared directories

`VolumeRenameCheck` of `vcs/internal/localdirs/localdirs.go` lets a rename through when both paths are
outside every route and have the same `SubtreeKey`. Then everything below keeps its routing: the
roots below both paths are at the same places. The keys hold 32 bits of an index, so a rule with more
than `2 ^ 32` components has two different positions with one key.
-/

namespace PortableFS.LocalRoutes

open Base List

variable {c : Core} {rules : List Rule} {p q s root data : Text} {names : List Text} {rs : RuleSet}

/-- A path and a path below it. -/
def joinBelow (p s : Text) : Text := if p = [] then s else p ++ 47 :: s

/-- The errors of a rename. -/
inductive Errno
  | exdev
  | ebusy
deriving DecidableEq

/-- `localdirs.go:188`: the rules, and whether the backing tree has a route root at or
under a path. -/
structure Grafts where
  rules : RuleSet
  hasActiveRouteUnder : Text → Bool

/-- `Rules`, `localdirs.go:237`. -/
def grafted (g : Option Grafts) : RuleSet := g.elim none Grafts.rules

/-- `localdirs.go:266`. -/
def owner (g : Option Grafts) (p : Text) : Text := (matchRoot (grafted g) p).getD []

/-- `localdirs.go:375`: an error, or `none` to pass the rename on. -/
def volumeRenameCheck (g : Option Grafts) (oldp newp : Text) : Option Errno :=
  match g with
  | none => none
  | some g =>
    if owner (some g) oldp ≠ [] ∨ owner (some g) newp ≠ [] then some .exdev
    else if g.hasActiveRouteUnder oldp ∨ g.hasActiveRouteUnder newp then some .ebusy
    else if subtreeKey g.rules oldp ≠ subtreeKey g.rules newp then some .ebusy
    else none

/-- Below both paths, nothing is routed or the roots are at the same place. -/
def SameBelow (rs : RuleSet) (p q : Text) : Prop :=
  ∀ s, (matchRoot rs (joinBelow p s) = none ∧ matchRoot rs (joinBelow q s) = none) ∨
    ∃ k, 0 < k ∧ k ≤ (s.splitOn 47).length ∧
      matchRoot rs (joinBelow p s) = some (joinBelow p (joinPath ((s.splitOn 47).take k))) ∧
      matchRoot rs (joinBelow q s) = some (joinBelow q (joinPath ((s.splitOn 47).take k)))

theorem splitOn_joinBelow (p s : Text) : (joinBelow p s).splitOn 47 = splitPath p ++ s.splitOn 47 := by
  unfold joinBelow splitPath
  split
  · rfl
  · exact Text.splitOn_append_cons p s

theorem joinPath_splitPath {rest : List Text} (hrest : rest ≠ []) :
    joinPath (splitPath p ++ rest) = joinBelow p (joinPath rest) := by
  unfold splitPath joinBelow
  split
  · rfl
  · have hne : p.splitOn 47 ≠ [] := splitOn_ne_nil 47 p
    rw [joinPath_append hne hrest, joinPath, intercalate_splitOn]

variable {hit : List Text → Prop}

/-- A path whose components are routable is hit nowhere if it is unrouted. -/
theorem not_hit_of_unrouted (h : ∀ root, ¬ TopmostRoot hit p root)
    (hgood : ∀ name ∈ splitPath p, ¬ unroutable name = true) {j : ℕ} (hpos : 0 < j)
    (hj : j ≤ (splitPath p).length) : ¬ hit ((splitPath p).take j) := by
  have hp : p ≠ [] := by
    rintro rfl
    rw [splitPath, if_pos rfl, length_nil] at hj
    omega
  rw [splitPath, if_neg hp] at hgood hj ⊢
  -- the first hit would be a root
  induction j using Nat.strong_induction_on with
  | _ j ih =>
    intro hhit
    exact h _ ⟨j, hpos, hj, fun name hname => hgood name (mem_of_mem_take hname), hhit,
      fun i hi hij => ih i hij hi (by omega), rfl⟩

/-- The roots below an unrouted path. -/
theorem topmostRoot_below (h : ∀ root, ¬ TopmostRoot hit p root) :
    TopmostRoot hit (joinBelow p s) root ↔
      ∃ k, 0 < k ∧ k ≤ (s.splitOn 47).length ∧ (∀ name ∈ splitPath p, ¬ unroutable name = true) ∧
        (∀ name ∈ (s.splitOn 47).take k, ¬ unroutable name = true) ∧
        hit (splitPath p ++ (s.splitOn 47).take k) ∧
        (∀ j, 0 < j → j < k → ¬ hit (splitPath p ++ (s.splitOn 47).take j)) ∧
        root = joinBelow p (joinPath ((s.splitOn 47).take k)) := by
  have htake : ∀ i, ((joinBelow p s).splitOn 47).take ((splitPath p).length + i) =
      splitPath p ++ (s.splitOn 47).take i := by
    intro i
    rw [splitOn_joinBelow, take_length_add_append]
  have hfront : ∀ i, i ≤ (splitPath p).length →
      ((joinBelow p s).splitOn 47).take i = (splitPath p).take i := by
    intro i hi
    rw [splitOn_joinBelow, take_append_of_le_length hi]
  have hlen : ((joinBelow p s).splitOn 47).length = (splitPath p).length + (s.splitOn 47).length := by
    rw [splitOn_joinBelow, length_append]
  constructor
  · rintro ⟨k, hpos, hk, hgood, hhit, hfirst, hroot⟩
    by_cases hle : k ≤ (splitPath p).length
    · -- a root at or above the path would be the path's root
      have hp : p ≠ [] := by
        rintro rfl
        rw [splitPath, if_pos rfl, length_nil] at hle
        omega
      have hsplit : splitPath p = p.splitOn 47 := by rw [splitPath, if_neg hp]
      rw [hfront k hle, hsplit] at hgood hhit hroot
      rw [hsplit] at hle
      refine absurd ⟨k, hpos, hle, hgood, hhit, fun j hj hjk => ?_, hroot⟩ (h root)
      have hmiss := hfirst j hj hjk
      rwa [hfront j (by rw [hsplit]; omega), hsplit] at hmiss
    · obtain ⟨k, rfl⟩ : ∃ i, k = (splitPath p).length + i := ⟨k - (splitPath p).length, by omega⟩
      rw [htake] at hgood hhit hroot
      have hkpos : 0 < k := by omega
      have hne : (s.splitOn 47).take k ≠ [] := by
        intro hnil
        rcases take_eq_nil_iff.mp hnil with hzero | hnil
        · omega
        · exact splitOn_ne_nil 47 s hnil
      refine ⟨k, hkpos, by omega, fun name hname => hgood name (mem_append_left _ hname),
        fun name hname => hgood name (mem_append_right _ hname), hhit, fun j hj hjk => ?_, ?_⟩
      · have hmiss := hfirst ((splitPath p).length + j) (by omega) (by omega)
        rwa [htake] at hmiss
      · rw [hroot, joinPath_splitPath hne]
  · rintro ⟨k, hpos, hk, hgoodp, hgoods, hhit, hfirst, hroot⟩
    have hne : (s.splitOn 47).take k ≠ [] := by
      intro hnil
      rcases take_eq_nil_iff.mp hnil with hzero | hnil
      · omega
      · exact splitOn_ne_nil 47 s hnil
    refine ⟨(splitPath p).length + k, by omega, by omega, ?_, by rwa [htake], fun j hj hjk => ?_, ?_⟩
    · rw [htake]
      intro name hname
      rcases mem_append.mp hname with hp | hs
      · exact hgoodp name hp
      · exact hgoods name hs
    · by_cases hle : j ≤ (splitPath p).length
      · rw [hfront j hle]
        exact not_hit_of_unrouted h hgoodp hj hle
      · obtain ⟨j, rfl⟩ : ∃ i, j = (splitPath p).length + i := ⟨j - (splitPath p).length, by omega⟩
        rw [htake]
        exact hfirst j (by omega) (by omega)
    · rw [hroot, htake, joinPath_splitPath hne]

variable {state : List ℕ}

theorem exists_unroutable_of_advance (h : c.advance state names = none) :
    ∃ name ∈ names, unroutable name = true := by
  induction names generalizing state with
  | nil => cases h
  | cons name names ih =>
    rw [Core.advance] at h
    split at h
    · next hbad => exact ⟨name, mem_cons_self, hbad⟩
    · split at h
      · cases h
      · obtain ⟨name', hmem, hbad⟩ := ih h
        exact ⟨name', mem_cons_of_mem _ hmem, hbad⟩

variable {after : List ℕ}

theorem routable_of_advance (h : c.advance state names = some after)
    (hne : after ≠ []) : ∀ name ∈ names, ¬ unroutable name = true := by
  induction names generalizing state with
  | nil => simp
  | cons name names ih =>
    rw [Core.advance] at h
    split at h
    · cases h
    next hgood =>
    split at h
    · exact absurd (Option.some.inj h).symm hne
    · exact forall_mem_cons.mpr ⟨hgood, ih h⟩

/-- Paths with the same positions have their roots at the same places. -/
theorem topmostRoot_of_same (hc : c.Small) {after' : List ℕ}
    (hp : ∀ root, ¬ TopmostRoot (Hit c.rules) p root) (hq : ∀ root, ¬ TopmostRoot (Hit c.rules) q root)
    (hafter : c.advance c.initial (splitPath p) = some after)
    (hafter' : c.advance c.initial (splitPath q) = some after') (hsame : ∀ s, s ∈ after ↔ s ∈ after')
    (h : TopmostRoot (Hit c.rules) (joinBelow p s) root) :
    ∃ k, 0 < k ∧ k ≤ (s.splitOn 47).length ∧ root = joinBelow p (joinPath ((s.splitOn 47).take k)) ∧
      TopmostRoot (Hit c.rules) (joinBelow q s) (joinBelow q (joinPath ((s.splitOn 47).take k))) := by
  have hhits : ∀ t, Hit c.rules (splitPath p ++ t) ↔ Hit c.rules (splitPath q ++ t) := by
    intro t
    rw [← advance_initial_iff hc hafter, ← advance_initial_iff hc hafter']
    unfold Core.Below
    simp only [hsame]
  obtain ⟨k, hpos, hk, -, hgoods, hhit, hfirst, hroot⟩ := (topmostRoot_below hp).mp h
  refine ⟨k, hpos, hk, hroot, (topmostRoot_below hq).mpr
    ⟨k, hpos, hk, ?_, hgoods, (hhits _).mp hhit, fun j hj hjk => ?_, rfl⟩⟩
  · apply routable_of_advance hafter'
    obtain ⟨x, hx, -⟩ := (advance_initial_iff hc hafter' _).mpr ((hhits _).mp hhit)
    exact ne_nil_of_mem hx
  · rw [← hhits]
    exact hfirst j hj hjk

/-- Unrouted paths with equal keys. -/
theorem sameBelow_of_key (hwf : ∀ r ∈ rules, ∃ comps, r.WellFormed comps) (hc : (newCore rules).Small)
    (hp : matchRoot (some (newCore rules)) p = none) (hq : matchRoot (some (newCore rules)) q = none)
    (hkey : subtreeKey (some (newCore rules)) p = subtreeKey (some (newCore rules)) q) :
    SameBelow (some (newCore rules)) p q := by
  have hrules : (newCore rules).rules = rules := rules_newCore rules
  have hiff : ∀ p root, matchRoot (some (newCore rules)) p = some root ↔
      TopmostRoot (Hit (newCore rules).rules) p root := by
    rw [hrules]
    exact matchRoot_newCore_iff hwf
  have hunrouted : ∀ p, matchRoot (some (newCore rules)) p = none →
      ∀ root, ¬ TopmostRoot (Hit (newCore rules).rules) p root := by
    intro p hnone root htop
    rw [(hiff p root).mpr htop] at hnone
    cases hnone
  have hp' := hunrouted p hp
  have hq' := hunrouted q hq
  intro s
  rw [subtreeKey, subtreeKey] at hkey
  split at hkey
  · -- without rules nothing is routed
    next hempty =>
    left
    have hnone : ∀ p, matchRoot (some (newCore rules)) p = none := by
      intro p
      rw [Option.eq_none_iff_forall_not_mem]
      rintro root hroot
      obtain ⟨k, -, -, -, ⟨r, hr, -⟩, -⟩ := (hiff p root).mp hroot
      rw [hempty] at hr
      exact absurd hr not_mem_nil
    exact ⟨hnone _, hnone _⟩
  rcases renderState_inj hkey with ⟨hdead, hdead'⟩ | ⟨after, after', hafter, hafter', hsame⟩
  · left
    have hnone : ∀ p, (∀ root, ¬ TopmostRoot (Hit (newCore rules).rules) p root) →
        (newCore rules).advance (newCore rules).initial (splitPath p) = none →
        matchRoot (some (newCore rules)) (joinBelow p s) = none := by
      intro p hp hdead
      rw [Option.eq_none_iff_forall_not_mem]
      intro root hroot
      obtain ⟨k, -, -, hgood, -⟩ := (topmostRoot_below hp).mp ((hiff _ root).mp hroot)
      obtain ⟨name, hname, hbad⟩ := exists_unroutable_of_advance hdead
      exact hgood name hname hbad
    exact ⟨hnone p hp' hdead, hnone q hq' hdead'⟩
  · cases hroot : matchRoot (some (newCore rules)) (joinBelow p s) with
    | some root =>
      right
      obtain ⟨k, hpos, hk, rfl, htop⟩ := topmostRoot_of_same hc hp' hq' hafter hafter' hsame
        ((hiff _ root).mp hroot)
      exact ⟨k, hpos, hk, rfl, (hiff _ _).mpr htop⟩
    | none =>
      refine .inl ⟨rfl, ?_⟩
      rw [Option.eq_none_iff_forall_not_mem]
      intro root' hroot'
      obtain ⟨k, -, -, -, htop⟩ := topmostRoot_of_same hc hq' hp' hafter' hafter
        (fun s => (hsame s).symm) ((hiff _ root').mp hroot')
      rw [(hiff _ _).mpr htop] at hroot
      cases hroot

/-- At most `2 ^ 32` rules with less than `2 ^ 32` components each. -/
def SmallRules (rs : RuleSet) : Prop := ∀ c, rs = some c → c.Small

/-- In a rule set whose rules and components can be numbered in 32 bits, unrouted paths with equal
keys have equal routing below them, so a rename that is let through changes no routing. -/
theorem rename_keeps_routing (data : Text) (rs : RuleSet) (h : parse data = .ok rs)
    (hsmall : SmallRules rs) :
    (∀ p q, matchRoot rs p = none → matchRoot rs q = none → subtreeKey rs p = subtreeKey rs q →
      SameBelow rs p q) ∧
    ∀ g oldp newp, grafted g = rs → volumeRenameCheck g oldp newp = none → SameBelow rs oldp newp := by
  have hkeys : ∀ p q, matchRoot rs p = none → matchRoot rs q = none →
      subtreeKey rs p = subtreeKey rs q → SameBelow rs p q := by
    intro p q hp hq hkey
    obtain ⟨rules, hwf, -, rfl | ⟨rfl, -⟩⟩ := parse_eq_ok h
    · exact sameBelow_of_key hwf (hsmall _ rfl) hp hq hkey
    · exact fun s => .inl ⟨rfl, rfl⟩
  refine ⟨hkeys, fun g oldp newp hg hcheck => ?_⟩
  cases g with
  | none =>
    subst hg
    exact fun s => .inl ⟨rfl, rfl⟩
  | some g =>
    rw [volumeRenameCheck] at hcheck
    split at hcheck
    · cases hcheck
    next howner =>
    split at hcheck
    · cases hcheck
    split at hcheck
    · cases hcheck
    next hkey =>
    have hunowned : ∀ p, owner (some g) p = [] → matchRoot rs p = none := by
      intro p hp
      rw [owner, hg] at hp
      rw [Option.eq_none_iff_forall_not_mem]
      intro root hroot
      rw [Option.mem_def.mp hroot, Option.getD_some] at hp
      obtain ⟨k, hpos, hk, hsplit, hgood, -⟩ := ((matchRoot_iff h p root).mp hroot).splitOn_root
      rw [hp] at hsplit
      exact hgood [] (hsplit ▸ mem_singleton.mpr rfl) (by decide)
    rw [not_or, not_not, not_not] at howner
    rw [not_not] at hkey
    have hrules : g.rules = rs := hg
    exact hkeys oldp newp (hunowned oldp howner.1) (hunowned newp howner.2) (hrules ▸ hkey)

theorem rename_keeps_routing_twoRules :
    ∃ rs, parse twoRules = .ok rs ∧ SmallRules rs ∧ SameBelow rs [120] [121] := by
  obtain ⟨c, hparse, hsmall, hp, hq, hkey⟩ : ∃ c : Core, parse twoRules = .ok (some c) ∧ c.Small ∧
      matchRoot (some c) [120] = none ∧ matchRoot (some c) [121] = none ∧
      subtreeKey (some c) [120] = subtreeKey (some c) [121] :=
    ⟨_, rfl, ⟨by decide, by decide⟩, rfl, rfl, by decide⟩
  have hall : SmallRules (some c) := fun c' hc' => Option.some.inj hc' ▸ hsmall
  exact ⟨some c, hparse, hall,
    (rename_keeps_routing twoRules (some c) hparse hall).1 [120] [121] hp hq hkey⟩

/-- The path `a/a/…/a`. -/
def deepPath (n : ℕ) : Text := joinPath (List.replicate n [97])

/-- The line `/a/a/…/a`. -/
def deepLine (n : ℕ) : Text := 47 :: deepPath n

/-- The rule of that line. -/
def deepRule (n : ℕ) : Rule := buildRule false (List.replicate n (.lit [97]))

private theorem deepPath_succ (n : ℕ) : deepPath (n + 2) = 97 :: 47 :: deepPath (n + 1) := by
  rw [deepPath, deepPath, replicate_succ, replicate_succ, joinPath, intercalate_cons_cons]
  rfl

variable {n : ℕ} {b : UInt8}

private theorem mem_deepPath (h : b ∈ deepPath n) : b = 97 ∨ b = 47 := by
  induction n with
  | zero => cases h
  | succ n ih =>
    cases n with
    | zero => exact .inl (mem_singleton.mp h)
    | succ n =>
      rw [deepPath_succ, mem_cons, mem_cons] at h
      rcases h with h | h | h
      · exact .inl h
      · exact .inr h
      · exact ih h

private theorem getLast?_deepPath (n : ℕ) : (deepPath (n + 1)).getLast? = some 97 := by
  induction n with
  | zero => rfl
  | succ n ih =>
    have hne : deepPath (n + 1) ≠ [] := by
      intro h
      rw [h] at ih
      cases ih
    rw [deepPath_succ, List.getLast?_cons_of_ne_nil (by simp), List.getLast?_cons_of_ne_nil hne, ih]

private theorem deepPath_ne_nil (n : ℕ) : deepPath (n + 1) ≠ [] := by
  intro h
  have hlast := getLast?_deepPath n
  rw [h] at hlast
  cases hlast

private theorem splitOn_deepPath (n : ℕ) :
    (deepPath (n + 1)).splitOn 47 = List.replicate (n + 1) [97] := by
  apply splitOn_intercalate
  · intro l hl
    rw [eq_of_mem_replicate hl]
    decide
  · simp [replicate_succ]

private theorem mem_deepLine (h : b ∈ deepLine n) : b = 97 ∨ b = 47 := by
  rcases mem_cons.mp h with h | h
  · exact .inr h
  · exact mem_deepPath h

variable {text : Text}

private theorem validString_of_ascii (h : ∀ b ∈ text, b < 0x80) : validString text = true := by
  induction text with
  | nil => rfl
  | cons b text ih =>
    unfold validString
    rw [if_pos (h b mem_cons_self)]
    exact ih fun b' hb' => h b' (mem_cons_of_mem _ hb')

private theorem cutFront_eq {words : List (List UInt8)}
    (h : ∀ word ∈ words, word.head? ≠ some b ∧ word ≠ []) :
    Text.cutFront words n (b :: text) = b :: text := by
  cases n with
  | zero => rfl
  | succ n =>
    have hnone : words.find? (·.isPrefixOf (b :: text)) = none := by
      rw [List.find?_eq_none]
      intro word hword hpre
      obtain ⟨hhead, hne⟩ := h word hword
      cases word with
      | nil => exact hne rfl
      | cons b' word =>
        rw [isPrefixOf_cons_cons, Bool.and_eq_true, beq_iff_eq] at hpre
        exact hhead (by rw [hpre.1]; rfl)
    rw [Text.cutFront, hnone]

private theorem lineText_deepLine (n : ℕ) : lineText (deepLine (n + 1)) = deepLine (n + 1) := by
  have hlast : (deepLine (n + 1)).getLast? = some 97 := by
    rw [deepLine, List.getLast?_cons_of_ne_nil (deepPath_ne_nil n), getLast?_deepPath]
  have hcomment : (deepLine (n + 1)).takeWhile (· ≠ 35) = deepLine (n + 1) := by
    rw [takeWhile_eq_self_iff]
    intro b hb
    rcases mem_deepLine hb with rfl | rfl <;> decide
  have hfront : Text.cutFront Text.spaces (deepLine (n + 1)).length (deepLine (n + 1)) =
      deepLine (n + 1) := cutFront_eq (by decide)
  obtain ⟨front, hback⟩ := List.getLast?_eq_some_iff.mp hlast
  rw [lineText, trimByte, if_neg (by rw [hlast]; decide), hcomment, Text.trimSpace,
    hfront, hback, reverse_append, reverse_singleton, singleton_append,
    cutFront_eq (by decide), reverse_cons, reverse_reverse]

private theorem compileParts_replicate (n : ℕ) (acc : List Component) :
    compileParts (List.replicate n [97]) acc = .ok (acc ++ List.replicate n (.lit [97])) := by
  induction n generalizing acc with
  | zero => rw [replicate_zero, replicate_zero, append_nil, compileParts]
  | succ n ih =>
    have hpart : compileParts ([97] :: List.replicate n [97]) acc =
        compileParts (List.replicate n [97]) (acc ++ [.lit [97]]) := by
      have hstars : ¬ [42, 42] <:+: ([97] : Text) := by decide
      simp [compileParts, protectedGit, protectedPortableFS, hstars]
    rw [replicate_succ, hpart, ih, append_assoc, replicate_succ, singleton_append]

private theorem compileRule_deepLine (n : ℕ) :
    compileRule (deepLine (n + 1)) = .ok (deepRule (n + 1)) := by
  have hnot : ∀ b : UInt8, b ≠ 97 → b ≠ 47 → b ∉ deepLine (n + 1) := by
    intro b ha hslash hmem
    rcases mem_deepLine hmem with h | h
    · exact ha h
    · exact hslash h
  have hvalid : validString (deepLine (n + 1)) = true := by
    apply validString_of_ascii
    intro b hb
    rcases mem_deepLine hb with rfl | rfl <;> decide
  have hbody : ruleBody (deepLine (n + 1)) = deepPath (n + 1) := by
    rw [ruleBody, deepLine, List.head?_cons, if_pos rfl, tail_cons, trimByte,
      if_neg (by rw [getLast?_deepPath]; decide)]
  have hanchored : anchoredLine (deepLine (n + 1)) = true := by simp [anchoredLine, deepLine]
  rw [compileRule, if_neg (by rw [hvalid]; decide), if_neg (hnot 0 (by decide) (by decide)),
    if_neg (by rw [deepLine, List.head?_cons]; decide),
    if_neg (by rw [not_or]; exact ⟨hnot 91 (by decide) (by decide), hnot 93 (by decide) (by decide)⟩),
    if_neg (hnot 92 (by decide) (by decide)), hbody, if_neg (deepPath_ne_nil n), splitOn_deepPath,
    compileParts_replicate, hanchored]
  rw [nil_append]
  have hrule : ruleOf true (List.replicate (n + 1) (.lit [97])) = .ok (deepRule (n + 1)) := by
    simp [ruleOf, replicate_succ, Component.isGlobstar, deepRule]
  exact hrule

private theorem parse_deepLine (n : ℕ) :
    parse (deepLine (n + 1)) = .ok (some (newCore [deepRule (n + 1)])) := by
  have hsplit : (deepLine (n + 1)).splitOn 10 = [deepLine (n + 1)] := by
    have hone : [10].intercalate [deepLine (n + 1)] = deepLine (n + 1) := intercalate_singleton
    have hpieces : ∀ l ∈ [deepLine (n + 1)], (10 : UInt8) ∉ l := by
      intro l hl hmem
      rw [mem_singleton.mp hl] at hmem
      rcases mem_deepLine hmem with h | h <;> cases h
    have h := splitOn_intercalate 10 hpieces (by simp)
    rwa [hone] at h
  have hcollect : collect 0 [deepLine (n + 1)] [] = .ok [deepRule (n + 1)] := by
    rw [collect, lineText_deepLine, if_neg (by simp [deepLine]), compileRule_deepLine]
    rfl
  have hsubsumed : subsumed (deepRule (n + 1)) [deepRule (n + 1)] = false := by
    simp [subsumed]
  rw [parse, hsplit, hcollect]
  simp [Bind.bind, Except.bind, hsubsumed]

private theorem wellFormed_deepRule (n : ℕ) :
    ∀ r ∈ [deepRule (n + 1)], ∃ comps, r.WellFormed comps := by
  intro r hr
  rw [mem_singleton.mp hr]
  refine ⟨List.replicate (n + 1) (.lit [97]), rfl, fun c hc => ?_, ?_⟩
  · rw [eq_of_mem_replicate hc]
    exact ⟨by decide, by decide, by decide, by decide⟩
  · simp [replicate_succ, Component.isGlobstar]

private theorem hit_deepRule (n : ℕ) (names : List Text) :
    Hit [deepRule n] names ↔ names = List.replicate n [97] := by
  have hlit : List.replicate n (Component.lit [97]) = (List.replicate n [97]).map .lit := by
    rw [map_replicate]
  have hcomps : (deepRule n).comps = (List.replicate n [97]).map .lit := hlit
  constructor
  · rintro ⟨r, hr, hmatch⟩
    rw [mem_singleton.mp hr, hcomps] at hmatch
    exact (matchComps_lit_iff.mp hmatch).symm
  · rintro rfl
    refine ⟨_, mem_singleton.mpr rfl, ?_⟩
    rw [hcomps]
    exact matchComps_lit_iff.mpr rfl

private theorem matchRoot_deepPath {k : ℕ} (hk : k ≤ n) :
    matchRoot (some (newCore [deepRule (n + 1)])) (deepPath (k + 1)) =
      if k = n then some (deepPath (k + 1)) else none := by
  have hiff := matchRoot_newCore_iff (wellFormed_deepRule n) (deepPath (k + 1))
  have htake : ∀ j, j ≤ k + 1 → ((deepPath (k + 1)).splitOn 47).take j = List.replicate j [97] := by
    intro j hj
    rw [splitOn_deepPath, take_replicate, Nat.min_eq_left hj]
  have hlen : ((deepPath (k + 1)).splitOn 47).length = k + 1 := by
    rw [splitOn_deepPath, length_replicate]
  have hhit : ∀ j, j ≤ k + 1 →
      (Hit [deepRule (n + 1)] (((deepPath (k + 1)).splitOn 47).take j) ↔ j = n + 1) := by
    intro j hj
    rw [htake j hj, hit_deepRule]
    constructor
    · intro heq
      simpa using congrArg List.length heq
    · rintro rfl
      rfl
  split
  · next heq =>
    subst heq
    rw [hiff]
    refine ⟨k + 1, Nat.succ_pos k, hlen.ge, ?_, (hhit _ le_rfl).mpr rfl, fun j hj hjk => ?_, ?_⟩
    · rw [htake _ le_rfl]
      intro name hname
      rw [eq_of_mem_replicate hname]
      decide
    · rw [hhit j (by omega)]
      omega
    · rw [htake _ le_rfl]
      rfl
  · next hne =>
    rw [Option.eq_none_iff_forall_not_mem]
    intro root hroot
    obtain ⟨j, hpos, hj, -, hj', -⟩ := (hiff root).mp hroot
    rw [hlen] at hj
    have hjn := (hhit j hj).mp hj'
    omega

section

variable (hn : 2 ^ 32 ≤ n)
include hn

/-- The index of a position wraps around before it leaves a rule of more than `2 ^ 32` components. -/
private theorem compAt_deepRule (j : ℕ) :
    (newCore [deepRule (n + 1)]).compAt (pos 0 j) = some (.lit [97]) := by
  have hrule : posRule (pos 0 j) = 0 := posRule_pos (by norm_num)
  have hidx : posIndex (pos 0 j) < 2 ^ 32 := Nat.mod_lt _ (by norm_num)
  rw [Core.compAt, hrule, Core.comps, rules_newCore]
  change (List.replicate (n + 1) (Component.lit [97]))[posIndex (pos 0 j)]? = _
  rw [List.getElem?_replicate, if_pos (by omega)]

private theorem closure_deepRule (j : ℕ) :
    (newCore [deepRule (n + 1)]).closure [pos 0 j] = [pos 0 j] := by
  rw [Core.closure, foldl_cons, foldl_nil, Core.addPos, compAt_deepRule hn]
  simp

private theorem step_deepRule (j : ℕ) :
    (newCore [deepRule (n + 1)]).step [pos 0 j] [97] = [pos 0 (j + 1)] := by
  have hnext : next (pos 0 j) = pos 0 (j + 1) := by
    unfold next pos posRule posIndex
    omega
  have hmove : (newCore [deepRule (n + 1)]).move [97] (pos 0 j) = some (pos 0 (j + 1)) := by
    rw [Core.move, compAt_deepRule hn, hnext]
    rfl
  rw [Core.step, foldl_cons, foldl_nil, hmove]
  rfl

private theorem advance_deepRule (j m : ℕ) :
    (newCore [deepRule (n + 1)]).advance [pos 0 j] (List.replicate m [97]) =
      some [pos 0 (j + m)] := by
  induction m generalizing j with
  | zero => rfl
  | succ m ih =>
    have hgood : unroutable [97] = false := by decide
    rw [replicate_succ, Core.advance, hgood, step_deepRule hn, closure_deepRule hn,
      if_neg Bool.false_ne_true, if_neg (by simp), ih, Nat.add_right_comm, Nat.add_assoc]

private theorem subtreeKey_deepPath (k : ℕ) :
    subtreeKey (some (newCore [deepRule (n + 1)])) (deepPath (k + 1)) =
      renderState (some [pos 0 (k + 1)]) := by
  have hrules := rules_newCore [deepRule (n + 1)]
  have hinitial : (newCore [deepRule (n + 1)]).initial = [pos 0 0] := by
    rw [Core.initial, hrules]
    exact closure_deepRule hn 0
  rw [subtreeKey, hrules, if_neg (by simp), splitPath, if_neg (deepPath_ne_nil k), splitOn_deepPath,
    hinitial, advance_deepRule hn, Nat.zero_add]

end

private theorem joinBelow_deepPath (k : ℕ) : joinBelow (deepPath (k + 1)) [97] = deepPath (k + 2) := by
  have hone : joinPath [[97]] = [97] := rfl
  have hsplit : List.replicate (k + 2) [(97 : UInt8)] = List.replicate (k + 1) [97] ++ [[97]] :=
    List.replicate_succ'
  rw [joinBelow, if_neg (deepPath_ne_nil k), deepPath, deepPath, hsplit,
    joinPath_append (by simp [replicate_succ]) (by simp), hone]

private theorem rename_flips {m : ℕ} (hm : 2 ^ 32 ≤ m) (hwrap : pos 0 1 = pos 0 (m + 1)) :
    ∃ rs, parse (deepLine (m + 2)) = .ok rs ∧ matchRoot rs (deepPath 1) = none ∧
      matchRoot rs (deepPath (m + 1)) = none ∧
      subtreeKey rs (deepPath 1) = subtreeKey rs (deepPath (m + 1)) ∧
      matchRoot rs (joinBelow (deepPath 1) [97]) = none ∧
      matchRoot rs (joinBelow (deepPath (m + 1)) [97]) ≠ none := by
  have hm' : 2 ^ 32 ≤ m + 1 := hm.trans (Nat.le_succ m)
  refine ⟨_, parse_deepLine (m + 1), ?_, ?_, ?_, ?_, ?_⟩
  · rw [matchRoot_deepPath (Nat.zero_le _), if_neg (by omega)]
  · rw [matchRoot_deepPath (Nat.le_succ m), if_neg (by omega)]
  · rw [subtreeKey_deepPath hm', subtreeKey_deepPath hm', ← hwrap]
  · rw [joinBelow_deepPath, matchRoot_deepPath (by omega), if_neg (by omega)]
  · rw [joinBelow_deepPath, matchRoot_deepPath le_rfl, if_pos rfl]
    exact Option.some_ne_none _

/-- One rule of `2 ^ 32 + 2` components: the paths of one and of `2 ^ 32 + 1` components are unrouted
and have one key, but the directory below the second is routed and that below the first is not. -/
theorem rename_flips_deepLine :
    ∃ rs, parse (deepLine (2 ^ 32 + 2)) = .ok rs ∧ matchRoot rs (deepPath 1) = none ∧
      matchRoot rs (deepPath (2 ^ 32 + 1)) = none ∧
      subtreeKey rs (deepPath 1) = subtreeKey rs (deepPath (2 ^ 32 + 1)) ∧
      matchRoot rs (joinBelow (deepPath 1) [97]) = none ∧
      matchRoot rs (joinBelow (deepPath (2 ^ 32 + 1)) [97]) ≠ none :=
  rename_flips le_rfl (by norm_num [pos])

end PortableFS.LocalRoutes
