import PortableFS.Writeback.Extents

/-!
# The extent map and its arena

Module `writeback`, `vcs/internal/writeback/extents.go:16–66,171–236`. A map paints the ranges of accepted
records over each other. Its nodes come from a list of free places that all maps of a mount
share. Painting a range changes the intervals of the map as `Intervals.paint` does and needs at
most two free places; retiring a record removes exactly its extents.
-/

namespace PortableFS.Writeback

open PortableFS.Base Extent List Function

/-- `extents.go:16–19`; `owned` holds, for every record of the file, the list that starts at its
`extents` field. -/
structure ExtentMap where
  root : Tree
  owned : Nat → List Extent

/-- A range of bytes that a read takes from the map; `extents.go:209–212`. -/
structure Span where
  lo : Nat
  hi : Nat
  data : Option (List UInt8)
deriving DecidableEq, Repr

/-- A slice of the payload; `extents.go:171–176`. -/
def sub (data : Option (List UInt8)) (lo hi : Nat) : Option (List UInt8) :=
  data.map fun d => (d.take hi).drop lo

/-- The bytes of a tree in a range, in order; `extents.go:214–228`. -/
def spans (lo hi : Nat) : Tree → List Span
  | .nil => []
  | .node e _ _ l r =>
    (if lo < e.lo then spans lo hi l else []) ++
      ((if e.lo < hi ∧ lo < e.hi then
        [⟨max lo e.lo, min hi e.hi, sub e.data (max lo e.lo - e.lo) (min hi e.hi - e.lo)⟩]
      else []) ++
      if e.hi < hi then spans lo hi r else [])

/-- The extent as a labelled interval. -/
def Extent.interval (e : Extent) : Band (Option Nat) := ⟨e.lo, e.hi, e.owner⟩

/-- The extent `p` is a part of `e`. -/
structure Extent.Clip (e p : Extent) : Prop where
  lo_le : e.lo ≤ p.lo
  lt : p.lo < p.hi
  hi_le : p.hi ≤ e.hi
  owner : p.owner = e.owner
  data : p.data = sub e.data (p.lo - e.lo) (p.hi - e.lo)

namespace ExtentMap

/-- The map of a file without extents. -/
def empty : ExtentMap := ⟨.nil, fun _ => []⟩

/-- Take a node from the arena and insert it; `extents.go:33–52` with the insertion of its callers.
An empty arena is the panic of `extents.go:36`. -/
def insertNew (m : ExtentMap) (free : List Nat) (lo hi : Nat) (data : Option (List UInt8))
    (owner : Option Nat) : Option (ExtentMap × List Nat) :=
  match free with
  | [] => none
  | n :: free =>
    let e : Extent := ⟨n, lo, hi, data, owner⟩
    let owned := match owner with
      | none => m.owned
      | some o => update m.owned o (e :: m.owned o)
    some (⟨m.root.insert e, owned⟩, free)

/-- Give a node back; `extents.go:53–66`. -/
def put (m : ExtentMap) (free : List Nat) (e : Extent) : ExtentMap × List Nat :=
  let owned := match e.owner with
    | none => m.owned
    | some o => update m.owned o ((m.owned o).erase e)
  (⟨m.root, owned⟩, e.node :: free)

/-- Take an extent out of the tree and give its node back. -/
def discard (m : ExtentMap) (free : List Nat) (e : Extent) : ExtentMap × List Nat :=
  put { m with root := (m.root.remove e.lo).1 } free e

/-- Keep the part of a removed extent from `lo` to before `hi`, if there is one. -/
def keepPart (m : ExtentMap) (free : List Nat) (lo hi : Nat) (old : Extent) :
    Option (ExtentMap × List Nat) :=
  if lo < hi then
    m.insertNew free lo hi (sub old.data (lo - old.lo) (hi - old.lo)) old.owner
  else some (m, free)

/-- Keep the parts of a removed extent that lie outside the range; `extents.go:186–191`. -/
def keepOutside (m : ExtentMap) (free : List Nat) (lo hi : Nat) (old : Extent) :
    Option (ExtentMap × List Nat) :=
  match m.keepPart free old.lo lo old with
  | none => none
  | some (m, free) => m.keepPart free hi old.hi old

/-- Clear the range, one overlapping extent at a time; `extents.go:178–192`. Every round removes
an extent that meets the range, so as many rounds as there are nodes are enough. -/
def clearRange (lo hi : Nat) : Nat → ExtentMap → List Nat → Option (ExtentMap × List Nat)
  | 0, m, free => some (m, free)
  | n + 1, m, free =>
    match m.root.overlap lo hi with
    | none => some (m, free)
    | some old =>
      let dropped := m.discard free old
      match keepOutside dropped.1 dropped.2 lo hi old with
      | none => none
      | some (m, free) => clearRange lo hi n m free

/-- Paint a range; `extents.go:177–194`. -/
def set (m : ExtentMap) (free : List Nat) (lo hi : Nat) (data : Option (List UInt8))
    (owner : Option Nat) : Option (ExtentMap × List Nat) :=
  match clearRange lo hi m.root.size m free with
  | none => none
  | some (m, free) => m.insertNew free lo hi data owner

/-- Give all nodes back; `extents.go:195–207`. -/
def clear (m : ExtentMap) (free : List Nat) : ExtentMap × List Nat :=
  let cleared := m.root.postorder.foldl (fun s e => put s.1 s.2 e) (m, free)
  ({ cleared.1 with root := .nil }, cleared.2)

/-- Remove every extent of a record; `extents.go:230–236`. The loop takes the first owned extent
until none is left, and giving it back unlinks it. -/
def retire (m : ExtentMap) (free : List Nat) (owner : Nat) : ExtentMap × List Nat :=
  (m.owned owner).foldl (fun s e => discard s.1 s.2 e) (m, free)

/-- The intervals of the map, labelled with their owners. -/
def intervals (m : ExtentMap) : List (Band (Option Nat)) := m.root.toList.map Extent.interval

/-- The places of the arena that the map uses. -/
def nodes (m : ExtentMap) : List Nat := m.root.toList.map Extent.node

/-- The tree is in order, and the lists of the owners hold exactly their extents. -/
structure Ok (m : ExtentMap) : Prop where
  ordered : m.root.Ordered
  endOk : m.root.EndOk
  owned : ∀ o, (m.owned o).Perm (m.root.toList.filter fun e => decide (e.owner = some o))

theorem Ok.empty : Ok empty := ⟨.nil, trivial, fun _ => List.Perm.refl _⟩

variable {m : ExtentMap}

theorem Ok.intervals (h : m.Ok) : Intervals.Ok m.intervals := by
  constructor
  · intro i hi
    obtain ⟨e, he, rfl⟩ := mem_map.mp hi
    exact h.ordered.nonempty e he
  · exact pairwise_map.mpr (h.ordered.sorted.imp .inl)

variable {e : Extent}

theorem Ok.mem_owned (h : m.Ok) {o : Nat} :
    e ∈ m.owned o ↔ e ∈ m.root.toList ∧ e.owner = some o := by
  rw [(h.owned o).mem_iff, mem_filter, decide_eq_true_eq]

variable {lo hi : Nat}

/-- A node inserted apart from all others joins the map. -/
theorem insertNew_spec (h : m.Ok) (hlt : lo < hi) (hap : ∀ e ∈ m.root.toList, e.hi ≤ lo ∨ hi ≤ e.lo)
    (n : Nat) (free : List Nat) (data : Option (List UInt8)) (owner : Option Nat) :
    ∃ m', m.insertNew (n :: free) lo hi data owner = some (m', free) ∧ m'.Ok ∧
      m'.root.toList.Perm (⟨n, lo, hi, data, owner⟩ :: m.root.toList) := by
  refine ⟨_, rfl, ⟨h.ordered.insert hlt hap, h.endOk.insert _, fun o => ?_⟩, Tree.perm_insert _ _⟩
  have hperm := (Tree.perm_insert ⟨n, lo, hi, data, owner⟩ m.root).filter
    fun e => decide (e.owner = some o)
  refine List.Perm.trans ?_ hperm.symm
  rw [filter_cons]
  cases owner with
  | none =>
    rw [if_neg (by simp)]
    exact h.owned o
  | some o' =>
    by_cases ho : o' = o
    · subst ho
      simp only [update_self, decide_true, if_true]
      exact (h.owned o').cons _
    · simp only [update_of_ne (Ne.symm ho), Option.some.injEq, ho, decide_false,
        Bool.false_eq_true, if_false]
      exact h.owned o

/-- Discarding an extent of the map removes it alone and frees its node. -/
theorem discard_spec (h : m.Ok) (he : e ∈ m.root.toList) (free : List Nat) :
    (m.discard free e).1.Ok ∧ (m.discard free e).2 = e.node :: free ∧
      m.root.toList.Perm (e :: (m.discard free e).1.root.toList) := by
  have hperm : m.root.toList.Perm (e :: (m.root.remove e.lo).1.toList) :=
    h.ordered.perm_remove he (Tree.toList_remove h.ordered e.lo)
  refine ⟨⟨h.ordered.remove e.lo, h.endOk.remove e.lo, fun o => ?_⟩, rfl, hperm⟩
  have hfilter := hperm.filter fun a => decide (a.owner = some o)
  rw [filter_cons] at hfilter
  have howned := (h.owned o).trans hfilter
  unfold discard put
  dsimp only
  cases ho : e.owner with
  | none =>
    rw [if_neg (by simp [ho])] at howned
    exact howned
  | some o' =>
    by_cases heq : o' = o
    · subst heq
      rw [if_pos (by simp [ho])] at howned
      simp only [update_self]
      exact (howned.erase e).trans (by simp)
    · rw [if_neg (by simp [ho, heq])] at howned
      simp only [update_of_ne (Ne.symm heq)]
      exact howned

variable {free : List Nat} {old : Extent}

/-- A kept part is a node of its own. -/
theorem keepPart_spec (h : m.Ok) (hlo : old.lo ≤ lo) (hhi : hi ≤ old.hi)
    (hap : ∀ e ∈ m.root.toList, e.hi ≤ lo ∨ hi ≤ e.lo) (hfree : 1 ≤ free.length) :
    ∃ m' free' parts, m.keepPart free lo hi old = some (m', free') ∧ m'.Ok ∧
      parts.map interval = (if lo < hi then [⟨lo, hi, old.owner⟩] else []) ∧
      (∀ p ∈ parts, old.Clip p) ∧ m'.root.toList.Perm (parts ++ m.root.toList) ∧
      parts.map node ++ free' = free := by
  unfold keepPart
  match free, hfree with
  | n :: free, _ =>
    by_cases hlt : lo < hi
    · obtain ⟨m', heq, hok, hperm⟩ := insertNew_spec h hlt hap n free
        (sub old.data (lo - old.lo) (hi - old.lo)) old.owner
      simp only [if_pos hlt]
      refine ⟨m', free, [_], heq, hok, rfl, ?_, hperm, rfl⟩
      intro p hp
      rw [mem_singleton] at hp
      subst hp
      exact ⟨hlo, hlt, hhi, rfl, rfl⟩
    · simp only [if_neg hlt]
      exact ⟨m, n :: free, [], rfl, h, rfl, by simp, List.Perm.refl _, rfl⟩

/-- What is kept of a removed extent: its parts outside the range, in nodes of the arena. -/
theorem keepOutside_spec (h : m.Ok) (hlt : lo < hi)
    (hap : ∀ e ∈ m.root.toList, e.hi ≤ old.lo ∨ old.hi ≤ e.lo) (h1 : lo < old.hi) (h2 : old.lo < hi)
    (hfree : 2 ≤ free.length) :
    ∃ m' free' parts, m.keepOutside free lo hi old = some (m', free') ∧ m'.Ok ∧
      parts.map interval = Band.outside lo hi old.interval ∧
      (∀ p ∈ parts, old.Clip p) ∧ m'.root.toList.Perm (parts ++ m.root.toList) ∧
      (parts.map node ++ free').Perm free := by
  have hfree' : 1 ≤ free.length := Nat.le_of_succ_le hfree
  obtain ⟨m₁, free₁, ps, heq₁, hok₁, hint₁, hclip₁, hperm₁, hfree₁⟩ :=
    keepPart_spec h le_rfl h1.le (fun e he => by have := hap e he; omega) hfree'
  have hps : ps.length ≤ 1 := by
    have hlen := congrArg List.length hint₁
    rw [length_map] at hlen
    split at hlen <;> simp only [length_cons, length_nil] at hlen <;> omega
  have hlen₁ : 1 ≤ free₁.length := by
    have hlen := congrArg List.length hfree₁
    rw [length_append, length_map] at hlen
    omega
  have hap₁ : ∀ e ∈ m₁.root.toList, e.hi ≤ hi ∨ old.hi ≤ e.lo := by
    intro e he
    rcases mem_append.mp (hperm₁.mem_iff.mp he) with he | he
    · -- the part before the range ends where the range starts
      have hi₁ : e.interval ∈ ps.map interval := mem_map_of_mem he
      rw [hint₁] at hi₁
      split at hi₁
      · have heq := congrArg Band.hi (mem_singleton.mp hi₁)
        have hhi : e.hi = lo := heq
        omega
      · simp at hi₁
    · have := hap e he
      omega
  obtain ⟨m₂, free₂, qs, heq₂, hok₂, hint₂, hclip₂, hperm₂, hfree₂⟩ :=
    keepPart_spec hok₁ h2.le le_rfl hap₁ hlen₁
  refine ⟨m₂, free₂, ps ++ qs, ?_, hok₂, ?_, ?_, ?_, ?_⟩
  · unfold keepOutside
    rw [heq₁]
    exact heq₂
  · rw [map_append, hint₁, hint₂]
    unfold Band.outside interval
    simp only [Nat.min_eq_right h1.le, Nat.max_eq_right h2.le]
  · intro p hp
    exact (mem_append.mp hp).elim (hclip₁ p) (hclip₂ p)
  · refine hperm₂.trans ((hperm₁.append_left qs).trans ?_)
    rw [← append_assoc]
    exact perm_append_comm.append_right _
  · rw [← hfree₁, ← hfree₂, map_append, append_assoc]

/-- The extent meets the range. -/
def meets (lo hi : Nat) (e : Extent) : Bool := decide (lo < e.hi) && decide (e.lo < hi)

/-- What clearing a range makes of a map and the arena. -/
structure Cleared (lo hi : Nat) (m : ExtentMap) (free : List Nat) (m' : ExtentMap)
    (free' : List Nat) : Prop where
  ok : m'.Ok
  intervals : m'.intervals.Perm (Intervals.carve lo hi m.intervals)
  nodes : (m'.nodes ++ free').Perm (m.nodes ++ free)
  free : 1 ≤ free'.length
  apart : ∀ e ∈ m'.root.toList, e.hi ≤ lo ∨ hi ≤ e.lo
  kept : ∀ P : Extent → Prop, (∀ e p, P e → e.Clip p → P p) → (∀ e ∈ m.root.toList, P e) →
    ∀ e ∈ m'.root.toList, P e

theorem clearRange_of_apart (h : m.root.overlap lo hi = none) (n : Nat) (free : List Nat) :
    clearRange lo hi n m free = some (m, free) := by
  cases n with
  | zero => rfl
  | succ n =>
    unfold clearRange
    rw [h]

/-- Nothing to clear. -/
theorem Cleared.refl (hlt : lo < hi) (h : m.Ok) (hfree : 1 ≤ free.length)
    (hap : ∀ e ∈ m.root.toList, e.hi ≤ lo ∨ hi ≤ e.lo) :
    Cleared lo hi m free m free where
  ok := h
  intervals := by
    rw [Intervals.carve_of_apart hlt h.intervals.nonempty]
    intro i hi
    obtain ⟨e, he, rfl⟩ := mem_map.mp hi
    exact hap e he
  nodes := List.Perm.refl _
  free := hfree
  apart := hap
  kept _ _ hp := hp

variable {rest : List Extent}

/-- Clearing after one extent was replaced by its parts outside the range. -/
theorem Cleared.round (hlt : lo < hi) {m₁ m' : ExtentMap} {free₁ free' : List Nat}
    {parts : List Extent} (hold : old.lo < old.hi) (hm : m.root.toList.Perm (old :: rest))
    (hm₁ : m₁.root.toList.Perm (parts ++ rest))
    (hparts : parts.map interval = Band.outside lo hi old.interval)
    (hclip : ∀ p ∈ parts, old.Clip p) (hnodes : (parts.map node ++ free₁).Perm (old.node :: free))
    (h : Cleared lo hi m₁ free₁ m' free') : Cleared lo hi m free m' free' where
  ok := h.ok
  intervals := by
    have h₀ : m.intervals.Perm (old.interval :: rest.map interval) := hm.map _
    have h₁ : m₁.intervals.Perm (Band.outside lo hi old.interval ++ rest.map interval) := by
      have := hm₁.map interval
      rwa [map_append, hparts] at this
    refine h.intervals.trans ((h₁.flatMap_right _).trans ?_)
    refine List.Perm.trans ?_ (h₀.flatMap_right _).symm
    change (Intervals.carve lo hi _).Perm (Intervals.carve lo hi _)
    rw [Intervals.carve_append, Intervals.carve_outside hlt hold]
    exact List.Perm.refl _
  nodes := by
    refine h.nodes.trans (((hm₁.map node).append_right free₁).trans ?_)
    refine List.Perm.trans ?_ ((hm.map node).append_right free).symm
    simp only [map_append, map_cons, append_assoc, cons_append]
    have hcomm : (rest.map node ++ free₁).Perm (free₁ ++ rest.map node) :=
      perm_append_comm
    refine (hcomm.append_left _).trans ?_
    rw [← append_assoc]
    refine (hnodes.append_right _).trans ?_
    exact perm_append_comm.cons old.node
  free := h.free
  apart := h.apart
  kept P hP hp := by
    apply h.kept P hP
    intro e he
    rcases mem_append.mp (hm₁.mem_iff.mp he) with he | he
    · exact hP old e (hp old (hm.mem_iff.mpr mem_cons_self)) (hclip e he)
    · exact hp e (hm.mem_iff.mpr (mem_cons_of_mem old he))

/-- With two free places a range can be cleared. -/
theorem clearRange_spec (hlt : lo < hi) (n : Nat) (h : m.Ok)
    (hn : m.root.toList.countP (meets lo hi) ≤ n) (hfree : 2 ≤ free.length) :
    ∃ m' free', clearRange lo hi n m free = some (m', free') ∧ Cleared lo hi m free m' free' := by
  induction n generalizing m free with
  | zero =>
    refine ⟨m, free, rfl, .refl hlt h (by omega) fun e he => ?_⟩
    have hmeet := countP_eq_zero.mp (Nat.le_zero.mp hn) e he
    simp only [meets, Bool.and_eq_true, decide_eq_true_eq] at hmeet
    omega
  | succ n ih =>
    cases hov : m.root.overlap lo hi with
    | none =>
      exact ⟨m, free, clearRange_of_apart hov _ _,
        .refl hlt h (by omega) (Tree.apart_of_overlap h.ordered hov)⟩
    | some old =>
      obtain ⟨hmem, h1, h2⟩ := Tree.mem_of_overlap hov
      have hold := h.ordered.nonempty old hmem
      obtain ⟨hok, hput, hrest⟩ := discard_spec h hmem free
      have hap : ∀ e ∈ (m.discard free old).1.root.toList, e.hi ≤ old.lo ∨ old.hi ≤ e.lo := by
        intro e he
        apply h.ordered.apart (hrest.mem_iff.mpr (mem_cons_of_mem old he)) hmem
        rintro rfl
        exact (nodup_cons.mp (hrest.nodup_iff.mp h.ordered.nodup)).1 he
      have hfree₁ : 2 ≤ (m.discard free old).2.length := by
        rw [hput, length_cons]
        omega
      obtain ⟨m₁, free₁, parts, heq, hok₁, hparts, hclip, hperm, hnodes⟩ :=
        keepOutside_spec hok hlt hap h1 h2 hfree₁
      rw [hput] at hnodes
      have hlen := hnodes.length_eq
      rw [length_append, length_map, length_cons] at hlen
      have hout : parts.length = (Band.outside lo hi old.interval).length := by
        rw [← hparts, length_map]
      have hapart : ∀ p ∈ parts, p.hi ≤ lo ∨ hi ≤ p.lo := by
        intro p hp
        have hi₁ : p.interval ∈ parts.map interval := mem_map_of_mem hp
        rw [hparts] at hi₁
        exact (Band.of_mem_outside hold hi₁).2.2.2.2
      have hrec : ∃ m' free', clearRange lo hi n m₁ free₁ = some (m', free') ∧
          Cleared lo hi m₁ free₁ m' free' := by
        by_cases hboth : old.lo < lo ∧ hi < old.hi
        · -- the extent surrounded the range: nothing else met it
          have hapall : ∀ e ∈ m₁.root.toList, e.hi ≤ lo ∨ hi ≤ e.lo := by
            intro e he
            rcases mem_append.mp (hperm.mem_iff.mp he) with he | he
            · exact hapart e he
            · have := hap e he
              omega
          have hnone : m₁.root.overlap lo hi = none := by
            rw [Option.eq_none_iff_forall_ne_some]
            intro e he
            obtain ⟨he, h3, h4⟩ := Tree.mem_of_overlap he
            have := hapall e he
            omega
          have htwo : parts.length ≤ 2 := by
            rw [hout]
            unfold Band.outside
            split <;> split <;> simp
          exact ⟨m₁, free₁, clearRange_of_apart hnone n free₁, .refl hlt hok₁ (by omega) hapall⟩
        · have hone : parts.length ≤ 1 := by
            rw [hout]
            exact Band.length_outside_le hboth
          refine ih hok₁ ?_ (by omega)
          have hzero : parts.countP (meets lo hi) = 0 := by
            rw [countP_eq_zero]
            intro p hp
            have := hapart p hp
            simp only [meets, Bool.and_eq_true, decide_eq_true_eq]
            omega
          have hcount := hrest.countP_eq (meets lo hi)
          rw [countP_cons, if_pos (by simp [meets, h1, h2])] at hcount
          rw [hperm.countP_eq, countP_append, hzero]
          omega
      obtain ⟨m', free', hres, hclear⟩ := hrec
      refine ⟨m', free', ?_, hclear.round hlt hold hrest hperm hparts hclip hnodes⟩
      unfold clearRange
      rw [hov]
      dsimp only
      rw [heq]
      exact hres

/-- What painting a range makes of a map and the arena. -/
structure Painted (lo hi : Nat) (data : Option (List UInt8)) (owner : Option Nat) (m : ExtentMap)
    (free : List Nat) (m' : ExtentMap) (free' : List Nat) : Prop where
  ok : m'.Ok
  intervals : m'.intervals.Perm (Intervals.paint lo hi owner m.intervals)
  nodes : (m'.nodes ++ free').Perm (m.nodes ++ free)
  kept : ∀ P : Extent → Prop, (∀ e p, P e → e.Clip p → P p) → (∀ e ∈ m.root.toList, P e) →
    (∀ n, P ⟨n, lo, hi, data, owner⟩) → ∀ e ∈ m'.root.toList, P e

/-- With two free places a range can be painted. -/
theorem set_spec (h : m.Ok) (hlt : lo < hi) (data : Option (List UInt8)) (owner : Option Nat)
    (hfree : 2 ≤ free.length) :
    ∃ m' free', m.set free lo hi data owner = some (m', free') ∧
      Painted lo hi data owner m free m' free' := by
  obtain ⟨m₁, free₁, heq, hc⟩ := clearRange_spec hlt m.root.size h countP_le_length hfree
  match free₁, hc with
  | [], hc => exact absurd hc.free (by simp)
  | n :: free', hc =>
    obtain ⟨m', heq', hok, hperm⟩ := insertNew_spec hc.ok hlt hc.apart n free' data owner
    refine ⟨m', free', ?_, hok, ?_, ?_, ?_⟩
    · unfold set
      rw [heq]
      exact heq'
    · exact (hperm.map interval).trans (hc.intervals.cons _)
    · have hn := (hperm.map node).append_right free'
      exact (hn.trans perm_middle.symm).trans hc.nodes
    · intro P hP hp hnew e he
      rcases mem_cons.mp (hperm.mem_iff.mp he) with rfl | he
      · exact hnew n
      · exact hc.kept P hP hp e he

private theorem owned_put_all (es : List Extent) (m : ExtentMap) (free : List Nat) (o : Nat)

    (h : (m.owned o).Perm (es.filter (fun e => decide (e.owner = some o)) ++ rest)) :
    ((es.foldl (fun s e => put s.1 s.2 e) (m, free)).1.owned o).Perm rest := by
  induction es generalizing m free with
  | nil => exact h
  | cons e es ih =>
    apply ih
    dsimp only
    rw [filter_cons] at h
    cases ho : e.owner with
    | none =>
      rw [if_neg (by simp [ho])] at h
      exact h
    | some o' =>
      by_cases heq : o' = o
      · subst heq
        rw [if_pos (by simp [ho])] at h
        simp only [update_self]
        exact (h.erase e).trans (by simp)
      · rw [if_neg (by simp [ho, heq])] at h
        simp only [update_of_ne (Ne.symm heq)]
        exact h

private theorem free_put_all (es : List Extent) (m : ExtentMap) (free : List Nat) :
    (es.foldl (fun s e => put s.1 s.2 e) (m, free)).2.Perm (es.map node ++ free) := by
  induction es generalizing m free with
  | nil => exact List.Perm.refl _
  | cons e es ih => exact (ih _ _).trans perm_middle

/-- Clearing a map leaves nothing and frees all its nodes. -/
theorem clear_spec (h : m.Ok) (free : List Nat) :
    (m.clear free).1.Ok ∧ (m.clear free).1.root = .nil ∧
      (m.clear free).2.Perm (m.nodes ++ free) := by
  have hperm := m.root.postorder_perm
  refine ⟨⟨.nil, trivial, fun o => ?_⟩, rfl, ?_⟩
  · apply owned_put_all m.root.postorder m free o
    refine (h.owned o).trans ((hperm.symm.filter _).trans (List.Perm.of_eq ?_))
    exact (append_nil _).symm
  · exact (free_put_all m.root.postorder m free).trans ((hperm.map node).append_right free)

private theorem discard_all (es : List Extent) (h : m.Ok) (free : List Nat) (hes : es.Nodup)
    (hsub : ∀ e ∈ es, e ∈ m.root.toList) :
    (es.foldl (fun s e => discard s.1 s.2 e) (m, free)).1.Ok ∧ m.root.toList.Perm
        (es ++ (es.foldl (fun s e => discard s.1 s.2 e) (m, free)).1.root.toList) ∧
      (es.foldl (fun s e => discard s.1 s.2 e) (m, free)).2.Perm (es.map node ++ free) := by
  induction es generalizing m free with
  | nil => exact ⟨h, List.Perm.refl _, List.Perm.refl _⟩
  | cons e es ih =>
    obtain ⟨hne, hnd⟩ := nodup_cons.mp hes
    obtain ⟨h1, h2, h3⟩ := discard_spec h (hsub e mem_cons_self) free
    have hsub' : ∀ a ∈ es, a ∈ (m.discard free e).1.root.toList := by
      intro a ha
      rcases mem_cons.mp (h3.mem_iff.mp (hsub a (mem_cons_of_mem e ha))) with rfl | ha'
      · exact absurd ha hne
      · exact ha'
    obtain ⟨h4, h5, h6⟩ := ih h1 (m.discard free e).2 hnd hsub'
    refine ⟨h4, h3.trans (h5.cons e), h6.trans ?_⟩
    rw [h2]
    exact perm_middle

/-- Retiring a record removes exactly its extents and frees their nodes. -/
theorem retire_spec (h : m.Ok) (free : List Nat) (o : Nat) : (m.retire free o).1.Ok ∧
      (m.retire free o).1.root.toList.Perm
        (m.root.toList.filter fun e => decide (e.owner ≠ some o)) ∧
      ((m.retire free o).1.nodes ++ (m.retire free o).2).Perm (m.nodes ++ free) := by
  have hnd : (m.owned o).Nodup := (h.owned o).nodup_iff.mpr (h.ordered.nodup.filter _)
  obtain ⟨h1, h2, h3⟩ := discard_all (m.owned o) h free hnd fun e he => (h.mem_owned.mp he).1
  refine ⟨h1, ?_, ?_⟩
  · have hsplit := filter_append_perm (fun e : Extent => decide (e.owner = some o)) m.root.toList
    have hcancel := hsplit.trans (h2.trans ((h.owned o).append_right _))
    rw [perm_append_left_iff] at hcancel
    refine hcancel.symm.trans (List.Perm.of_eq ?_)
    apply filter_congr
    intro e _
    simp
  · refine (h3.append_left _).trans ?_
    have hn := (h2.map node).append_right free
    rw [map_append] at hn
    refine List.Perm.trans ?_ hn.symm
    rw [← append_assoc]
    exact perm_append_comm.append_right free

end ExtentMap

/-- The part of an extent that a read of the range takes. -/
def Extent.span (lo hi : Nat) (e : Extent) : Span :=
  ⟨max lo e.lo, min hi e.hi, sub e.data (max lo e.lo - e.lo) (min hi e.hi - e.lo)⟩

/-- A read takes its part of every extent that meets the range, in order. -/
theorem spans_eq {t : Tree} (ho : t.Ordered) (lo hi : Nat) :
    spans lo hi t = (t.toList.filter (ExtentMap.meets lo hi)).map (span lo hi) := by
  have hnone : ∀ es : List Extent, (∀ e ∈ es, e.hi ≤ lo ∨ hi ≤ e.lo) →
      es.filter (ExtentMap.meets lo hi) = [] := by
    intro es hes
    rw [filter_eq_nil_iff]
    intro e he
    have := hes e he
    simp only [ExtentMap.meets, Bool.and_eq_true, decide_eq_true_eq]
    omega
  induction t with
  | nil => rfl
  | node e h s l r ihl ihr =>
    have hleft : (if lo < e.lo then spans lo hi l else []) =
        (l.toList.filter (ExtentMap.meets lo hi)).map (span lo hi) := by
      split
      · exact ihl ho.left
      · rw [hnone l.toList fun a ha => by have := ho.left_le a ha; omega]
        rfl
    have hright : (if e.hi < hi then spans lo hi r else []) =
        (r.toList.filter (ExtentMap.meets lo hi)).map (span lo hi) := by
      split
      · exact ihr ho.right
      · rw [hnone r.toList fun a ha => by have := ho.le_right a ha; omega]
        rfl
    unfold spans
    rw [hleft, hright, Tree.toList, filter_append, filter_cons, map_append]
    congr 1
    by_cases hm : e.lo < hi ∧ lo < e.hi
    · rw [if_pos hm, if_pos (by simp [ExtentMap.meets, hm]), map_cons]
      rfl
    · rw [if_neg hm, if_neg (by simp [ExtentMap.meets]; omega)]
      rfl

end PortableFS.Writeback
