import PortableFS.Base.Text
import PortableFS.Base.Wildcard

/-!
# Local route rules

`vcs/internal/localroutes/localroutes.go`: the parser of a rule set, its compiled form, and the
lookup of the route root that owns a path. A text is its bytes. The canonical bytes of a rule set
and their hash are not part of the lookup and left out.
-/

namespace PortableFS.LocalRoutes

open Base

/-- The bytes of a text. -/
abbrev Text := List UInt8

/-- `localroutes.go:21`: `.git`. -/
def protectedGit : Text := [46, 103, 105, 116]

/-- `localroutes.go:22`: `.portablefs`. -/
def protectedPortableFS : Text := [46, 112, 111, 114, 116, 97, 98, 108, 101, 102, 115]

/-- `Protected`, `localroutes.go:27`. -/
def isProtected (name : Text) : Bool := name = protectedGit ∨ name = protectedPortableFS

/-- `localroutes.go:33`. -/
structure Error where
  line : ℕ
  text : Text
  reason : String
deriving DecidableEq

/-- `localroutes.go:44`: `**`, a literal, or a pattern with `*` or `?`. -/
inductive Component
  | globstar
  | lit (text : Text)
  | pat (text : Text)
deriving DecidableEq

/-- The field `globstar` of a component. -/
def Component.isGlobstar : Component → Bool
  | .globstar => true
  | _ => false

/-- `localroutes.go:572`. -/
def globMatch (pat name : Text) : Bool :=
  Wildcard.covers (· == 42) (fun p x => p == 63 || p == x) pat name

/-- `match`, `localroutes.go:50`. -/
def Component.accepts : Component → Text → Bool
  | .globstar, name => name = []
  | .lit text, name => text = name
  | .pat text, name => globMatch text name

/-- `localroutes.go:545`. -/
def matchComps (comps : List Component) (names : List Text) : Bool :=
  Wildcard.covers Component.isGlobstar Component.accepts comps names

/-- A component as it is written, `localroutes.go:243`. -/
def Component.text : Component → Text
  | .globstar => [42, 42]
  | .lit text => text
  | .pat text => text

/-- `strings.Join` with slashes. -/
def joinPath (names : List Text) : Text := [47].intercalate names

/-- `localroutes.go:60`. -/
structure Rule where
  text : Text
  comps : List Component
  floating : Bool
  literal : Option (List Text)
deriving DecidableEq

/-- `localroutes.go:266`. -/
def literalComps : List Component → Option (List Text)
  | [] => some []
  | .lit text :: comps => (literalComps comps).map (text :: ·)
  | _ :: _ => none

/-- The rule of compiled components, `localroutes.go:235`. -/
def buildRule (floating : Bool) (comps : List Component) : Rule where
  text := (if floating then [42, 42, 47] else [47]) ++ joinPath (comps.map Component.text) ++ [47]
  comps := if floating then .globstar :: comps else comps
  floating := floating
  literal := literalComps comps

/-- `utf8.ValidString`. -/
def validString : Text → Bool
  | [] => true
  | b :: rest =>
    if b < 0x80 then validString rest
    else if 0xC2 ≤ b ∧ b ≤ 0xDF then
      match rest with
      | b1 :: rest => 0x80 ≤ b1 ∧ b1 ≤ 0xBF ∧ validString rest
      | _ => false
    else if 0xE0 ≤ b ∧ b ≤ 0xEF then
      match rest with
      | b1 :: b2 :: rest =>
        (if b = 0xE0 then 0xA0 else 0x80) ≤ b1 ∧ b1 ≤ (if b = 0xED then 0x9F else 0xBF) ∧
          0x80 ≤ b2 ∧ b2 ≤ 0xBF ∧ validString rest
      | _ => false
    else if 0xF0 ≤ b ∧ b ≤ 0xF4 then
      match rest with
      | b1 :: b2 :: b3 :: rest =>
        (if b = 0xF0 then 0x90 else 0x80) ≤ b1 ∧ b1 ≤ (if b = 0xF4 then 0x8F else 0xBF) ∧
          0x80 ≤ b2 ∧ b2 ≤ 0xBF ∧ 0x80 ≤ b3 ∧ b3 ≤ 0xBF ∧ validString rest
      | _ => false
    else false

/-- `strings.TrimSuffix` of one byte. -/
def trimByte (b : UInt8) (text : Text) : Text :=
  if text.getLast? = some b then text.dropLast else text

/-- The loop over the parts of a rule, `localroutes.go:203`. -/
def compileParts : List Text → List Component → Except String (List Component)
  | [], comps => .ok comps
  | part :: rest, comps =>
    if part = [] then .error "empty path component"
    else if part = [46] ∨ part = [46, 46] then
      .error "rule must not contain '.' or '..' components"
    else if part = protectedGit then
      .error "\".git\" is a protected name and can never be routed"
    else if part = protectedPortableFS then
      .error "\".portablefs\" is a protected name and can never be routed"
    else if part = [42, 42] then
      if comps.getLast? = some .globstar then compileParts rest comps
      else compileParts rest (comps ++ [.globstar])
    else if [42, 42] <:+: part then .error "'**' must be a whole path component"
    else if 42 ∈ part ∨ 63 ∈ part then compileParts rest (comps ++ [.pat part])
    else compileParts rest (comps ++ [.lit part])

/-- A rule without one slash in front and one at the end, `localroutes.go:185`. -/
def ruleBody (line : Text) : Text := trimByte 47 (if line.head? = some 47 then line.tail else line)

/-- Whether a line is anchored before a leading `**` is looked at, `localroutes.go:186`. -/
def anchoredLine (line : Text) : Bool :=
  line.head? = some 47 ∨ (47 ∈ ruleBody line ∧ ¬ [42, 42, 47] <+: ruleBody line)

/-- The rule of a line's components, `localroutes.go:226`. -/
def ruleOf (anchored : Bool) (comps : List Component) : Except String Rule :=
  let floats := comps.head? = some .globstar
  let rest := if floats then comps.tail else comps
  if rest = [] ∨ rest.all Component.isGlobstar then .error "rule would route the volume root"
  else .ok (buildRule (¬ anchored ∨ floats) rest)

/-- `localroutes.go:169`. -/
def compileRule (line : Text) : Except String Rule :=
  if ¬ validString line then
    .error "rule is not valid UTF-8 and cannot survive JSON state persistence"
  else if 0 ∈ line then .error "NUL cannot occur in a filesystem path"
  else if line.head? = some 33 then
    .error "negation is not supported: a local subtree is served entirely from local disk, so routing must stay prefix-closed"
  else if 91 ∈ line ∨ 93 ∈ line then .error "character classes are not supported"
  else if 92 ∈ line then .error "backslash is not supported (no escapes, and paths use '/')"
  else if ruleBody line = [] then .error "rule would route the volume root"
  else do
    let comps ← compileParts ((ruleBody line).splitOn 47) []
    ruleOf (anchoredLine line) comps

/-- `localroutes.go:312`. -/
def matchesAncestorOf (other r : Rule) : Bool :=
  let literal := r.literal.getD []
  if r.floating ∧ ¬ other.floating then false
  else (List.range literal.length).any fun i => matchComps other.comps (literal.take (i + 1))

/-- `localroutes.go:290`. -/
def subsumed (r : Rule) (all : List Rule) : Bool :=
  if r.literal = none then false
  else all.any fun other => other.text ≠ r.text ∧ matchesAncestorOf other r

/-- The rules of `core`, `localroutes.go:69`, split by shape. -/
structure Core where
  rules : List Rule
  floatLit : AList (fun _ : Text => ℕ)
  anchoredLit : AList (fun _ : Text => ℕ)
  general : List ℕ

/-- One round of the loop of `newCore`, `localroutes.go:331`. -/
def Core.place (c : Core) (i : ℕ) (r : Rule) : Core :=
  match r.literal, r.floating with
  | some [name], true => { c with floatLit := c.floatLit.insert name i }
  | some names, false => { c with anchoredLit := c.anchoredLit.insert (joinPath names) i }
  | _, _ => { c with general := c.general ++ [i] }

/-- The loop of `newCore`, `localroutes.go:331`. -/
def Core.placeFrom (c : Core) : ℕ → List Rule → Core
  | _, [] => c
  | i, r :: rules => (c.place i r).placeFrom (i + 1) rules

/-- `localroutes.go:324`. -/
def newCore (rules : List Rule) : Core := (Core.mk rules ∅ ∅ []).placeFrom 0 rules

/-- `RuleSet`, `localroutes.go:88`. -/
abbrev RuleSet := Option Core

/-- A line without its comment and the white space around it, `localroutes.go:101`. -/
def lineText (raw : Text) : Text := Text.trimSpace ((trimByte 13 raw).takeWhile (· ≠ 35))

/-- The loop over the lines, `localroutes.go:100`: the rules by text, in order of appearance. -/
def collect : ℕ → List Text → List Rule → Except Error (List Rule)
  | _, [], byText => .ok byText
  | i, raw :: rest, byText =>
    if lineText raw = [] then collect (i + 1) rest byText
    else
      match compileRule (lineText raw) with
      | .error reason => .error ⟨i + 1, lineText raw, reason⟩
      | .ok r =>
        if byText.any (·.text = r.text) then collect (i + 1) rest byText
        else collect (i + 1) rest (byText ++ [r])

/-- `localroutes.go:95`. -/
def parse (data : Text) : Except Error RuleSet := do
  let byText ← collect 0 (data.splitOn 10) []
  if byText = [] then .ok none
  else
    let order := byText.insertionSort fun r r' => r.text ≤ r'.text
    .ok (some (newCore (order.filter fun r => ¬ subsumed r byText)))

/-- Components that are never routed, `localroutes.go:415`. -/
def unroutable (name : Text) : Bool :=
  name = [] ∨ name = [46] ∨ name = [46, 46] ∨ isProtected name

/-- The loop over the general rules, `localroutes.go:429`. -/
def Core.scanGeneral (c : Core) (names : List Text) : List ℕ → Option ℕ → Option ℕ
  | [], best => best
  | idx :: rest, best =>
    if best.any (· < idx) then best
    else if (c.rules[idx]?).any fun r => matchComps r.comps names then some idx
    else c.scanGeneral names rest best

/-- The earlier of the rules that the two maps find, `localroutes.go:421`. -/
def earlier (float : Option ℕ) : Option ℕ → Option ℕ
  | some idx => if float.all (idx < ·) then some idx else float
  | none => float

/-- The rule that routes a directory, `localroutes.go:420`. -/
def Core.best (c : Core) (name path : Text) (names : List Text) : Option ℕ :=
  c.scanGeneral names c.general (earlier (c.floatLit.lookup name) (c.anchoredLit.lookup path))

/-- The loop of `MatchRule`, `localroutes.go:409`, over the components of the path. -/
def Core.matchFrom (c : Core) (p : Text) : ℕ → List Text → List Text → Option (Text × Text)
  | _, _, [] => none
  | start, names, name :: rest =>
    if unroutable name then none
    else
      match c.best name (p.take (start + name.length)) (names ++ [name]) with
      | some idx => some (p.take (start + name.length), (c.rules[idx]?).elim [] Rule.text)
      | none => c.matchFrom p (start + name.length + 1) (names ++ [name]) rest

/-- `localroutes.go:400`: the root and the text of the rule. -/
def matchRule (rs : RuleSet) (p : Text) : Option (Text × Text) :=
  match rs with
  | none => none
  | some c => if c.rules = [] ∨ p = [] then none else c.matchFrom p 0 [] (p.splitOn 47)

/-- `Match`, `localroutes.go:392`. -/
def matchRoot (rs : RuleSet) (p : Text) : Option Text := (matchRule rs p).map (·.1)

end PortableFS.LocalRoutes
