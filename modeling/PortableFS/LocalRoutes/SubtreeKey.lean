import PortableFS.LocalRoutes.Routing

/-!
# What a rule set can still do below a path

`SubtreeKey` of `vcs/internal/localroutes/localroutes.go`: an automaton over positions in the rules.
The rest of a rule behind a position is what is still to be matched, and a set of positions stands
for the directories below that some rest covers. Letting `**` match nothing and consuming a
component both keep what the set stands for. A position is a word of 64 bits with a rule and an
index of 32 bits each, so this holds for rule sets whose numbers fit.
-/

namespace PortableFS.LocalRoutes

open Base List

/-- `localroutes.go:481`: a rule and an index in one word. -/
def pos (rule idx : ℕ) : ℕ := rule % 2 ^ 32 * 2 ^ 32 + idx % 2 ^ 32

/-- The rule of a position. -/
def posRule (s : ℕ) : ℕ := s / 2 ^ 32

/-- The index of a position. -/
def posIndex (s : ℕ) : ℕ := s % 2 ^ 32

/-- The components of a rule. -/
def Core.comps (c : Core) (rule : ℕ) : List Component := (c.rules[rule]?).elim [] Rule.comps

/-- The component at a position. -/
def Core.compAt (c : Core) (s : ℕ) : Option Component := (c.comps (posRule s))[posIndex s]?

/-- The position behind. -/
def next (s : ℕ) : ℕ := pos (posRule s) (posIndex s + 1)

/-- `add` of `closure`, `localroutes.go:489`. Every round adds a position of one rule. -/
def Core.addPos (c : Core) : ℕ → List ℕ → ℕ → List ℕ
  | 0, out, _ => out
  | n + 1, out, s =>
    if s ∈ out then out
    else if c.compAt s = some .globstar then c.addPos n (out ++ [s]) (next s)
    else out ++ [s]

/-- `localroutes.go:485`. -/
def Core.closure (c : Core) (state : List ℕ) : List ℕ :=
  state.foldl (fun out s => c.addPos ((c.comps (posRule s)).length + 1) out s) []

/-- The position that consuming a component leads to, `localroutes.go:518`. -/
def Core.move (c : Core) (name : Text) (s : ℕ) : Option ℕ :=
  match c.compAt s with
  | none => none
  | some .globstar => some s
  | some comp => if comp.accepts name then some (next s) else none

/-- `push` of `step`, `localroutes.go:511`. -/
def pushPos (out : List ℕ) : Option ℕ → List ℕ
  | none => out
  | some s => if s ∈ out then out else out ++ [s]

/-- `localroutes.go:508`. -/
def Core.step (c : Core) (state : List ℕ) (name : Text) : List ℕ :=
  state.foldl (fun out s => pushPos out (c.move name s)) []

/-- `localroutes.go:534`. -/
def splitPath (p : Text) : List Text := if p = [] then [] else p.splitOn 47

/-- The loop of `SubtreeKey`, `localroutes.go:462`; `none` below an unroutable component. -/
def Core.advance (c : Core) : List ℕ → List Text → Option (List ℕ)
  | state, [] => some state
  | state, name :: rest =>
    if unroutable name then none
    else if c.closure (c.step state name) = [] then some []
    else c.advance (c.closure (c.step state name)) rest

/-- The positions before any component is consumed, `localroutes.go:457`. -/
def Core.initial (c : Core) : List ℕ :=
  c.closure ((List.range c.rules.length).map fun i => pos i 0)

/-- A position as it is written in a key, `localroutes.go:475`. -/
def renderPos (s : ℕ) : Text := Text.decimal (posRule s) ++ 46 :: Text.decimal (posIndex s)

/-- The key of a set of positions, `localroutes.go:473`. -/
def renderState : Option (List ℕ) → Text
  | none => [33]
  | some state => [44].intercalate ((state.map renderPos).insertionSort (· ≤ ·))

/-- `localroutes.go:453`. -/
def subtreeKey (rs : RuleSet) (p : Text) : Text :=
  match rs with
  | none => []
  | some c => if c.rules = [] then [] else renderState (c.advance c.initial (splitPath p))

/-- At most `2 ^ 32` rules with less than `2 ^ 32` components each. -/
structure Core.Small (c : Core) : Prop where
  rules : c.rules.length ≤ 2 ^ 32
  comps : ∀ r ∈ c.rules, r.comps.length < 2 ^ 32

/-- A position in a rule of the set, its end included. -/
def Core.Valid (c : Core) (s : ℕ) : Prop :=
  ∃ rule idx, s = pos rule idx ∧ rule < c.rules.length ∧ idx ≤ (c.comps rule).length

/-- What is left of a rule behind a position. -/
def Core.rest (c : Core) (s : ℕ) : List Component := (c.comps (posRule s)).drop (posIndex s)

variable {c : Core} {s x rule idx n : ℕ} {state out : List ℕ} {name : Text} {names t : List Text}

theorem posRule_pos (hrule : rule < 2 ^ 32) : posRule (pos rule idx) = rule := by
  unfold posRule pos
  omega

theorem posIndex_pos (hidx : idx < 2 ^ 32) : posIndex (pos rule idx) = idx := by
  unfold posIndex pos
  omega

theorem Core.Small.length_comps (h : c.Small) (rule : ℕ) : (c.comps rule).length < 2 ^ 32 := by
  unfold Core.comps
  cases hget : c.rules[rule]? with
  | none => simp
  | some r => exact h.comps r (List.mem_of_getElem? hget)

/-- The bounds of a valid position. -/
theorem Core.Valid.bounds (hc : c.Small) (h : c.Valid s) :
    posRule s < c.rules.length ∧ posIndex s ≤ (c.comps (posRule s)).length := by
  obtain ⟨rule, idx, rfl, hrule, hidx⟩ := h
  have hlen := hc.length_comps rule
  rw [posRule_pos (hrule.trans_le hc.rules), posIndex_pos (hidx.trans_lt hlen)]
  exact ⟨hrule, hidx⟩

variable {comp : Component}

theorem Core.rest_eq_cons (h : c.compAt s = some comp) :
    c.rest s = comp :: (c.comps (posRule s)).drop (posIndex s + 1) := by
  obtain ⟨hlt, hget⟩ := List.getElem?_eq_some_iff.mp h
  rw [Core.rest, drop_eq_getElem_cons hlt, hget]

/-- A component of a valid position leads to another. -/
theorem Core.Valid.next (hc : c.Small) (h : c.Valid s)
    (hat : c.compAt s = some comp) : c.Valid (next s) ∧ c.rest s = comp :: c.rest (next s) := by
  obtain ⟨hrule, -⟩ := h.bounds hc
  obtain ⟨hlt, -⟩ := List.getElem?_eq_some_iff.mp hat
  have hlen := hc.length_comps (posRule s)
  refine ⟨⟨posRule s, posIndex s + 1, rfl, hrule, hlt⟩, ?_⟩
  rw [Core.rest_eq_cons hat, Core.rest, LocalRoutes.next, posRule_pos (hrule.trans_le hc.rules),
    posIndex_pos (by omega)]

theorem Core.rest_eq_nil (h : c.compAt s = none) : c.rest s = [] :=
  drop_eq_nil_iff.mpr (List.getElem?_eq_none_iff.mp h)

/-- The directories below that a set of positions stands for. -/
def Core.Below (c : Core) (state : List ℕ) (t : List Text) : Prop :=
  ∃ s ∈ state, matchComps (c.rest s) t = true

/-- Every `**` of the set may match nothing. -/
def Core.Closed (c : Core) (state : List ℕ) : Prop :=
  ∀ s ∈ state, c.compAt s = some .globstar → LocalRoutes.next s ∈ state

private theorem matchComps_of_next (hc : c.Small) (h : c.Valid s)
    (hat : c.compAt s = some .globstar) (hnext : matchComps (c.rest (next s)) t = true) :
    matchComps (c.rest s) t = true := by
  rw [(h.next hc hat).2]
  exact matchComps_globstar_iff.mpr ⟨0, Nat.zero_le _, hnext⟩

private theorem addPos_spec (hc : c.Small) (hs : c.Valid s) (hn : (c.rest s).length < n)
    (hvalid : ∀ x ∈ out, c.Valid x)
    (hclosed : ∀ x ∈ out, c.compAt x = some .globstar → next x ∈ out ∨ next x = s) :
    (∀ x ∈ c.addPos n out s, c.Valid x) ∧ c.Closed (c.addPos n out s) ∧
      (∀ x ∈ out, x ∈ c.addPos n out s) ∧ s ∈ c.addPos n out s ∧
      ∀ x ∈ c.addPos n out s, x ∈ out ∨
        ∀ t, matchComps (c.rest x) t = true → matchComps (c.rest s) t = true := by
  induction n generalizing out s with
  | zero => omega
  | succ n ih =>
    have hcons : ∀ x ∈ out ++ [s], c.Valid x := by
      intro x hx
      rcases mem_append.mp hx with hold | hnew
      · exact hvalid x hold
      · exact mem_singleton.mp hnew ▸ hs
    rw [Core.addPos]
    split
    · next hmem =>
      refine ⟨hvalid, fun x hx hat => ?_, fun x hx => hx, hmem, fun x hx => .inl hx⟩
      rcases hclosed x hx hat with hnext | hnext
      · exact hnext
      · exact hnext ▸ hmem
    split
    · next hat =>
      obtain ⟨hnvalid, hrest⟩ := hs.next hc hat
      have hfuel : (c.rest (next s)).length < n := by
        rw [hrest, length_cons] at hn
        omega
      obtain ⟨hv, hcl, hkeep, hself, hfrom⟩ := ih hnvalid hfuel hcons (by
        intro x hx hxat
        rcases mem_append.mp hx with hold | hnew
        · rcases hclosed x hold hxat with hnext | hnext
          · exact .inl (mem_append_left _ hnext)
          · exact .inl (by rw [hnext]; simp)
        · exact .inr (by rw [mem_singleton.mp hnew]))
      refine ⟨hv, hcl, fun x hx => hkeep x (mem_append_left _ hx), hkeep s (by simp),
        fun x hx => ?_⟩
      rcases hfrom x hx with hmem | hcov
      · rcases mem_append.mp hmem with hold | hnew
        · exact .inl hold
        · exact .inr fun t ht => by rwa [mem_singleton.mp hnew] at ht
      · exact .inr fun t ht => matchComps_of_next hc hs hat (hcov t ht)
    · next hat =>
      refine ⟨hcons, fun x hx hxat => ?_, fun x hx => mem_append_left _ hx, by simp, fun x hx => ?_⟩
      · rcases mem_append.mp hx with hold | hnew
        · rcases hclosed x hold hxat with hnext | hnext
          · exact mem_append_left _ hnext
          · rw [hnext]
            simp
        · rw [mem_singleton.mp hnew] at hxat
          exact absurd hxat hat
      · rcases mem_append.mp hx with hold | hnew
        · exact .inl hold
        · exact .inr fun t ht => by rwa [mem_singleton.mp hnew] at ht

/-- The closure is closed and stands for the same directories. -/
theorem closure_spec (hc : c.Small) (hvalid : ∀ s ∈ state, c.Valid s) :
    (∀ x ∈ c.closure state, c.Valid x) ∧ c.Closed (c.closure state) ∧
      ∀ t, c.Below (c.closure state) t ↔ c.Below state t := by
  have hfold : ∀ (todo out : List ℕ), (∀ s ∈ todo, c.Valid s) → (∀ x ∈ out, c.Valid x) →
      c.Closed out →
      (∀ x ∈ todo.foldl (fun out s => c.addPos ((c.comps (posRule s)).length + 1) out s) out,
        c.Valid x) ∧
      c.Closed (todo.foldl (fun out s => c.addPos ((c.comps (posRule s)).length + 1) out s) out) ∧
      ∀ t, c.Below (todo.foldl
        (fun out s => c.addPos ((c.comps (posRule s)).length + 1) out s) out) t ↔
        c.Below out t ∨ c.Below todo t := by
    intro todo
    induction todo with
    | nil =>
      intro out _ hout hclosed
      refine ⟨hout, hclosed, fun t => ?_⟩
      simp [Core.Below]
    | cons s todo ih =>
      intro out htodo hout hclosed
      have hs := htodo s mem_cons_self
      have hlen : (c.rest s).length < (c.comps (posRule s)).length + 1 := by
        rw [Core.rest, length_drop]
        omega
      obtain ⟨hv, hcl, hkeep, hself, hfrom⟩ := addPos_spec hc hs hlen hout
        (fun x hx hat => .inl (hclosed x hx hat))
      obtain ⟨hv', hcl', hbelow⟩ := ih _ (fun s hs => htodo s (mem_cons_of_mem _ hs)) hv hcl
      rw [foldl_cons]
      refine ⟨hv', hcl', fun t => ?_⟩
      rw [hbelow]
      constructor
      · rintro (⟨x, hx, hmatch⟩ | ⟨x, hx, hmatch⟩)
        · rcases hfrom x hx with hmem | hcov
          · exact .inl ⟨x, hmem, hmatch⟩
          · exact .inr ⟨s, mem_cons_self, hcov t hmatch⟩
        · exact .inr ⟨x, mem_cons_of_mem _ hx, hmatch⟩
      · rintro (⟨x, hx, hmatch⟩ | ⟨x, hx, hmatch⟩)
        · exact .inl ⟨x, hkeep x hx, hmatch⟩
        · rcases mem_cons.mp hx with rfl | hmem
          · exact .inl ⟨x, hself, hmatch⟩
          · exact .inr ⟨x, hmem, hmatch⟩
  obtain ⟨hv, hcl, hbelow⟩ := hfold state [] hvalid (by simp) (by simp [Core.Closed])
  refine ⟨hv, hcl, fun t => ?_⟩
  rw [Core.closure, hbelow]
  simp [Core.Below]

theorem mem_step : x ∈ c.step state name ↔ ∃ s ∈ state, c.move name s = some x := by
  have hfold : ∀ (todo out : List ℕ),
      x ∈ todo.foldl (fun out s => pushPos out (c.move name s)) out ↔
        x ∈ out ∨ ∃ s ∈ todo, c.move name s = some x := by
    intro todo
    induction todo with
    | nil => simp
    | cons s todo ih =>
      intro out
      rw [foldl_cons, ih, exists_mem_cons_iff, ← or_assoc]
      refine or_congr_left ?_
      cases c.move name s with
      | none => simp [pushPos]
      | some y =>
        rw [pushPos]
        split
        · next hmem =>
          constructor
          · exact .inl
          · rintro (hx | hx)
            · exact hx
            · exact Option.some.inj hx ▸ hmem
        · simp [eq_comm]
  rw [Core.step, hfold]
  simp

/-- Consuming a component keeps what is behind it. -/
theorem step_spec (hc : c.Small) (hvalid : ∀ s ∈ state, c.Valid s) (hclosed : c.Closed state)
    (name : Text) :
    (∀ x ∈ c.step state name, c.Valid x) ∧
      ∀ t, c.Below (c.step state name) t ↔ c.Below state (name :: t) := by
  refine ⟨fun x hx => ?_, fun t => ⟨?_, ?_⟩⟩
  · obtain ⟨s, hs, hmove⟩ := mem_step.mp hx
    unfold Core.move at hmove
    split at hmove
    · cases hmove
    · exact Option.some.inj hmove ▸ hvalid s hs
    · next comp hglob hat =>
      split at hmove
      · exact Option.some.inj hmove ▸ ((hvalid s hs).next hc hat).1
      · cases hmove
  · rintro ⟨x, hx, hmatch⟩
    obtain ⟨s, hs, hmove⟩ := mem_step.mp hx
    refine ⟨s, hs, ?_⟩
    unfold Core.move at hmove
    split at hmove
    · cases hmove
    · next hat =>
      obtain rfl := Option.some.inj hmove
      rw [((hvalid s hs).next hc hat).2] at hmatch ⊢
      obtain ⟨k, hk, hrest⟩ := matchComps_globstar_iff.mp hmatch
      exact matchComps_globstar_iff.mpr ⟨k + 1, Nat.succ_le_succ hk, hrest⟩
    next comp hglob hat =>
    split at hmove
    · next haccepts =>
      cases hmove
      rw [((hvalid s hs).next hc hat).2]
      rw [matchComps, Wildcard.covers_iff] at hmatch ⊢
      refine .one ?_ haccepts hmatch
      cases comp with
      | globstar => exact absurd rfl hglob
      | lit | pat => exact Bool.false_ne_true
    · cases hmove
  · rintro ⟨s, hs, hmatch⟩
    -- a `**` may have matched nothing so far: then the position behind it consumes the component
    induction hn : (c.rest s).length using Nat.strong_induction_on generalizing s with
    | _ n ih =>
      cases hat : c.compAt s with
      | none =>
        rw [Core.rest_eq_nil hat, matchComps, Wildcard.covers_iff, Wildcard.matches_nil_iff] at hmatch
        cases hmatch
      | some comp =>
        obtain ⟨hnvalid, hrest⟩ := (hvalid s hs).next hc hat
        rw [hrest] at hmatch
        cases hglob : comp.isGlobstar with
        | true =>
          have hcomp : comp = .globstar := by
            cases comp with
            | globstar => rfl
            | lit text => cases hglob
            | pat text => cases hglob
          subst hcomp
          obtain ⟨k, hk, hbehind⟩ := matchComps_globstar_iff.mp hmatch
          cases k with
          | zero =>
            refine ih _ ?_ (next s) (hclosed s hs hat) hbehind rfl
            rw [← hn, hrest, length_cons]
            omega
          | succ k =>
            refine ⟨s, mem_step.mpr ⟨s, hs, by rw [Core.move, hat]⟩, ?_⟩
            rw [hrest]
            exact matchComps_globstar_iff.mpr ⟨k, Nat.le_of_succ_le_succ hk, hbehind⟩
        | false =>
          rw [matchComps, Wildcard.covers_iff,
            Wildcard.matches_one_iff (p := comp) (by simp [hglob])] at hmatch
          obtain ⟨first, rest, heq, haccepts, hbehind⟩ := hmatch
          obtain ⟨rfl, rfl⟩ := List.cons.inj heq
          refine ⟨next s, mem_step.mpr ⟨s, hs, ?_⟩, ?_⟩
          · rw [Core.move, hat]
            cases comp with
            | globstar => cases hglob
            | lit | pat => simp only [haccepts, if_true]
          · rw [matchComps, Wildcard.covers_iff]
            exact hbehind

variable {after : List ℕ}

/-- The positions after a path stand for the directories below it. -/
theorem advance_spec (hc : c.Small) (hvalid : ∀ s ∈ state, c.Valid s) (hclosed : c.Closed state)
 (h : c.advance state names = some after) (t : List Text) :
    c.Below after t ↔ c.Below state (names ++ t) := by
  induction names generalizing state with
  | nil =>
    cases h
    rfl
  | cons name names ih =>
    obtain ⟨hsvalid, hstep⟩ := step_spec hc hvalid hclosed name
    obtain ⟨hcvalid, hcclosed, hclosure⟩ := closure_spec hc hsvalid
    have hbelow : c.Below (c.closure (c.step state name)) (names ++ t) ↔
        c.Below state (name :: names ++ t) := by
      rw [hclosure, hstep, cons_append]
    rw [Core.advance] at h
    split at h
    · cases h
    split at h
    · next hempty =>
      cases h
      rw [← hbelow, hempty]
      simp [Core.Below]
    · rw [← hbelow]
      exact ih hcvalid hcclosed h

/-- The positions at the start stand for what the rules match. -/
theorem initial_spec (hc : c.Small) :
    (∀ s ∈ c.initial, c.Valid s) ∧ c.Closed c.initial ∧ ∀ t, c.Below c.initial t ↔ Hit c.rules t := by
  have hvalid : ∀ s ∈ (List.range c.rules.length).map (fun i => pos i 0), c.Valid s := by
    intro s hs
    obtain ⟨i, hi, rfl⟩ := mem_map.mp hs
    exact ⟨i, 0, rfl, mem_range.mp hi, Nat.zero_le _⟩
  obtain ⟨hv, hcl, hbelow⟩ := closure_spec hc hvalid
  refine ⟨hv, hcl, fun t => ?_⟩
  have hrest : ∀ i < c.rules.length, ∀ r, c.rules[i]? = some r → c.rest (pos i 0) = r.comps := by
    intro i hi r hget
    rw [Core.rest, posRule_pos (hi.trans_le hc.rules), posIndex_pos (by norm_num), drop_zero,
      Core.comps, hget]
    rfl
  rw [Core.initial, hbelow]
  constructor
  · rintro ⟨s, hs, hmatch⟩
    obtain ⟨i, hi, rfl⟩ := mem_map.mp hs
    have hlt := mem_range.mp hi
    have hget := List.getElem?_eq_getElem hlt
    rw [hrest i hlt _ hget] at hmatch
    exact ⟨_, List.getElem_mem hlt, hmatch⟩
  · rintro ⟨r, hr, hmatch⟩
    obtain ⟨i, hget⟩ := List.getElem?_of_mem hr
    have hlt := (List.getElem?_eq_some_iff.mp hget).1
    refine ⟨pos i 0, mem_map.mpr ⟨i, mem_range.mpr hlt, rfl⟩, ?_⟩
    rwa [hrest i hlt r hget]

/-- Below a path that is not dead, the rules match what its positions stand for. -/
theorem advance_initial_iff (hc : c.Small)
    (h : c.advance c.initial names = some after) (t : List Text) :
    c.Below after t ↔ Hit c.rules (names ++ t) := by
  obtain ⟨hvalid, hclosed, hinitial⟩ := initial_spec hc
  rw [advance_spec hc hvalid hclosed h, hinitial]

private theorem renderPos_inj {s' : ℕ} (h : renderPos s = renderPos s') : s = s' := by
  have hdot : ∀ n, (46 : UInt8) ∉ Text.decimal n := fun n hmem =>
    absurd (Text.mem_decimal hmem).1 (by decide)
  obtain ⟨hrule, -, hidx⟩ := (append_cons_inj_of_notMem (hdot _) (hdot _)).mp h
  have hrule' := Text.decimal_inj hrule
  have hidx' := Text.decimal_inj hidx
  unfold posRule at hrule'
  unfold posIndex at hidx'
  omega

private theorem comma_notMem_renderPos (s : ℕ) : (44 : UInt8) ∉ renderPos s := by
  intro hmem
  rcases mem_append.mp hmem with hrule | hidx
  · exact absurd (Text.mem_decimal hrule).1 (by decide)
  · rcases mem_cons.mp hidx with hdot | hidx
    · exact absurd hdot (by decide)
    · exact absurd (Text.mem_decimal hidx).1 (by decide)

private theorem dot_mem_intercalate {pieces : List Text} (hne : pieces ≠ [])
    (h : ∀ l ∈ pieces, (46 : UInt8) ∈ l) : (46 : UInt8) ∈ [44].intercalate pieces := by
  cases pieces with
  | nil => exact absurd rfl hne
  | cons first pieces =>
    have hfirst := h first mem_cons_self
    cases pieces with
    | nil => rwa [intercalate_singleton]
    | cons second pieces =>
      rw [intercalate_cons_cons, append_assoc]
      exact mem_append_left _ hfirst

/-- The sorted pieces of a key. -/
private def keyPieces (state : List ℕ) : List Text := (state.map renderPos).insertionSort (· ≤ ·)

private theorem mem_keyPieces {piece : Text} :
    piece ∈ keyPieces state ↔ ∃ s ∈ state, renderPos s = piece := by
  rw [keyPieces, (perm_insertionSort _ _).mem_iff, mem_map]

private theorem dot_mem_key (h : keyPieces state ≠ []) : (46 : UInt8) ∈ renderState (some state) := by
  apply dot_mem_intercalate h
  intro l hl
  obtain ⟨s, -, rfl⟩ := mem_keyPieces.mp hl
  exact mem_append_right _ mem_cons_self

private theorem key_of_nil (h : keyPieces state = []) : renderState (some state) = [] := by
  have hkey : renderState (some state) = [44].intercalate (keyPieces state) := rfl
  rw [hkey, h]
  rfl

private theorem keyPieces_inj {state' : List ℕ}
    (h : renderState (some state) = renderState (some state')) :
    keyPieces state = keyPieces state' := by
  have hcomma : ∀ state, ∀ l ∈ keyPieces state, (44 : UInt8) ∉ l := by
    intro state l hl
    obtain ⟨s, -, rfl⟩ := mem_keyPieces.mp hl
    exact comma_notMem_renderPos s
  by_cases hnil : keyPieces state = []
  · by_cases hnil' : keyPieces state' = []
    · rw [hnil, hnil']
    · have hdot := dot_mem_key hnil'
      rw [← h, key_of_nil hnil] at hdot
      exact absurd hdot not_mem_nil
  · by_cases hnil' : keyPieces state' = []
    · have hdot := dot_mem_key hnil
      rw [h, key_of_nil hnil'] at hdot
      exact absurd hdot not_mem_nil
    · exact Text.intercalate_inj hnil hnil' (hcomma state) (hcomma state') h

/-- A key tells the set of positions, and whether the path is dead. -/
theorem renderState_inj {after after' : Option (List ℕ)} (h : renderState after = renderState after') :
    (after = none ∧ after' = none) ∨
      ∃ state state', after = some state ∧ after' = some state' ∧ ∀ s, s ∈ state ↔ s ∈ state' := by
  have hne : ∀ state : List ℕ, renderState (some state) ≠ [33] := by
    intro state heq
    by_cases hnil : keyPieces state = []
    · rw [key_of_nil hnil] at heq
      cases heq
    · have hdot := dot_mem_key hnil
      rw [heq] at hdot
      exact absurd hdot (by decide)
  cases after with
  | none =>
    cases after' with
    | none => exact .inl ⟨rfl, rfl⟩
    | some state' => exact absurd h.symm (hne state')
  | some state =>
    cases after' with
    | none => exact absurd h (hne state)
    | some state' =>
      have hpieces := keyPieces_inj h
      have hmem : ∀ (state : List ℕ) s, s ∈ state ↔ renderPos s ∈ keyPieces state := by
        intro state s
        rw [mem_keyPieces]
        constructor
        · intro hs
          exact ⟨s, hs, rfl⟩
        · rintro ⟨s', hs', heq⟩
          exact renderPos_inj heq ▸ hs'
      refine .inr ⟨state, state', rfl, rfl, fun s => ?_⟩
      rw [hmem state, hmem state', hpieces]

end PortableFS.LocalRoutes
