import PortableFS.Writeback.Overlay
import PortableFS.Writeback.System

/-!
# What a read sees

The overlay of a file acts on the bytes below it like the edits of the records it shows: an extent
has the byte that the last of them puts there, and the size is the one they leave. Hence a read
over a base, `read.go:14–68`, returns a part of the base with the edits applied.
-/

namespace PortableFS.Writeback

open PortableFS.Base ByteFile Record Intervals
open List hiding range

/-- What the record changes in the bytes of its file. -/
def Record.edits (r : Record) : List (Edit UInt8) :=
  if r.kind = .write then [.write r.off r.data]
  else if r.attrs.hasSize then [.resize r.attrs.size.toNat]
  else []

variable {r : Record}

theorem Record.edits_write (h : r.kind = .write) : r.edits = [.write r.off r.data] :=
  if_pos h

theorem Record.edits_size (h : r.kind ≠ .write) (hs : r.attrs.hasSize = true) :
    r.edits = [.resize r.attrs.size.toNat] := by
  unfold edits
  rw [if_neg h, if_pos hs]

theorem Record.edits_none (h : r.kind ≠ .write) (hs : r.attrs.hasSize = false) : r.edits = [] := by
  unfold edits
  rw [if_neg h, if_neg (by simp [hs])]

variable {x : Nat}

/-- A record paints what it touches, below the largest offset. -/
theorem Record.range_touch (r : Record) (hx : x < maxInt64) :
    (r.range = none → lastTouch x r.edits = none) ∧
      ∀ i, r.range = some i → (i.Contains x ↔ (lastTouch x r.edits).isSome = true) := by
  by_cases hk : r.kind = .write
  · have hr : r.range = some ⟨r.off, r.off + r.data.length, some r.seq⟩ := if_pos hk
    rw [hr, edits_write hk]
    refine ⟨fun h => absurd h (Option.some_ne_none _), ?_⟩
    rintro i ⟨⟩
    simp only [Band.Contains, lastTouch, Option.none_or, Edit.touch]
    split <;> simp [*]
  cases hs : r.attrs.hasSize with
  | false =>
    have hr : r.range = none := by
      unfold range
      rw [if_neg hk, if_neg (by simp [hs])]
    rw [hr, edits_none hk hs]
    exact ⟨fun _ => rfl, fun i h => absurd h.symm (Option.some_ne_none i)⟩
  | true =>
    rw [edits_size hk hs]
    simp only [lastTouch, Option.none_or, Edit.touch]
    unfold range
    rw [if_neg hk]
    split
    · refine ⟨fun h => absurd h (Option.some_ne_none _), ?_⟩
      rintro i ⟨⟩
      simp only [Band.Contains]
      split <;> simp [*]
    · next hmax =>
      refine ⟨fun _ => if_neg ?_, fun i h => absurd h.symm (Option.some_ne_none i)⟩
      have : ¬ r.attrs.size < maxInt64 := fun h => hmax ⟨hs, h⟩
      omega

/-- Where some layer lies, the topmost one is the last record that touches the position; elsewhere
no record does. -/
theorem lastTouch_layers (rs : List Record) (hx : x < maxInt64) :
    (∀ b, Covers (layers (rs.filterMap range)) x b →
      ∃ r ∈ rs, b = some r.seq ∧ lastTouch x (rs.flatMap edits) = lastTouch x r.edits) ∧
    ((∀ b, ¬ Covers (layers (rs.filterMap range)) x b) →
      lastTouch x (rs.flatMap edits) = none) := by
  induction rs using reverseRecOn with
  | nil =>
    refine ⟨?_, fun _ => rfl⟩
    rintro b ⟨e, he, -⟩
    cases he
  | append_singleton rs r ih =>
    obtain ⟨hnone, hsome⟩ := r.range_touch hx
    have hold : ∀ b, Covers (layers (rs.filterMap range)) x b →
        lastTouch x r.edits = none → ∃ a ∈ rs ++ [r], b = some a.seq ∧
          lastTouch x ((rs ++ [r]).flatMap edits) = lastTouch x a.edits := by
      intro b hb ht
      obtain ⟨a, ha, hseq, heq⟩ := ih.1 b hb
      refine ⟨a, mem_append_left _ ha, hseq, ?_⟩
      rw [flatMap_append, lastTouch_append, flatMap_singleton, ht, heq]
      rfl
    have hempty : (∀ b, ¬ Covers (layers (rs.filterMap range)) x b) →
        lastTouch x r.edits = none → lastTouch x ((rs ++ [r]).flatMap edits) = none := by
      intro hb ht
      rw [flatMap_append, lastTouch_append, flatMap_singleton, ht, ih.2 hb]
      rfl
    cases hr : r.range with
    | none =>
      have hlayers : (rs ++ [r]).filterMap range = rs.filterMap range := by
        simp [filterMap_append, hr]
      rw [hlayers]
      exact ⟨fun b hb => hold b hb (hnone hr), fun hb => hempty hb (hnone hr)⟩
    | some i =>
      have hlayers : (rs ++ [r]).filterMap range = rs.filterMap range ++ [i] := by
        simp [filterMap_append, hr]
      rw [hlayers, layers_append_singleton]
      have hi : (i.lo ≤ x ∧ x < i.hi) ↔ _ := hsome i hr
      by_cases hc : i.lo ≤ x ∧ x < i.hi
      · -- the new record is on top
        obtain ⟨v, hv⟩ := Option.isSome_iff_exists.mp (hi.mp hc)
        constructor
        · intro b hb
          rw [covers_paint, if_pos hc] at hb
          refine ⟨r, by simp, hb.trans (range_label hr), ?_⟩
          rw [flatMap_append, lastTouch_append, flatMap_singleton, hv]
          rfl
        · intro hb
          refine absurd ?_ (hb i.label)
          rw [covers_paint, if_pos hc]
      · have ht : lastTouch x r.edits = none := by
          rw [← Option.not_isSome_iff_eq_none, ← hi]
          exact hc
        constructor
        · intro b hb
          rw [covers_paint, if_neg hc] at hb
          exact hold b hb ht
        · intro hb
          refine hempty (fun b hc' => hb b ?_) ht
          rw [covers_paint, if_neg hc]
          exact hc'

/-- The byte that an extent shows at a position of it. -/
def Extent.byteAt (e : Extent) (x : Nat) : UInt8 := (e.data.map (·.getD (x - e.lo) 0)).getD 0

variable {e : Extent}

/-- An extent shows what its record puts there. -/
theorem Extent.Shows.lastTouch_eq (h : e.Shows r) (hlo : e.lo ≤ x) (hhi : x < e.hi) :
    lastTouch x r.edits = some (e.byteAt x) := by
  rcases h.2 with ⟨hk, h1, h2, hd⟩ | ⟨hk, hs, h1, hd⟩
  · rw [edits_write hk]
    simp only [lastTouch, Option.none_or, Edit.touch, byteAt, hd, Option.map_some, Option.getD_some]
    rw [if_pos (by omega)]
    simp only [getD_eq_getElem?_getD, getElem?_drop, getElem?_take]
    rw [if_pos (by omega)]
    congr 3
    omega
  · rw [edits_size hk hs]
    simp only [lastTouch, Option.none_or, Edit.touch, byteAt, hd]
    exact if_pos (by omega)

variable {rs : List Record}

private theorem eq_of_seq (hs : rs.Pairwise fun a b => a.seq < b.seq) {a b : Record} (ha : a ∈ rs)
    (hb : b ∈ rs) (h : a.seq = b.seq) : a = b := by
  by_contra hne
  have hsymm : Std.Symm fun a b : Record => a.seq ≠ b.seq := ⟨fun _ _ => Ne.symm⟩
  have hp : rs.Pairwise fun a b => a.seq ≠ b.seq := hs.imp Nat.ne_of_lt
  exact hp.forall ha hb hne h

variable {m : ExtentMap}

/-- What the extents show is what the edits of their records leave. -/
theorem ExtentMap.Paints.lastTouch_eq (h : m.Paints rs)
    (hs : rs.Pairwise fun a b => a.seq < b.seq) (hx : x < maxInt64) :
    (∀ e ∈ m.root.toList, e.lo ≤ x → x < e.hi →
      lastTouch x (rs.flatMap edits) = some (e.byteAt x)) ∧
    ((∀ e ∈ m.root.toList, ¬ (e.lo ≤ x ∧ x < e.hi)) → lastTouch x (rs.flatMap edits) = none) := by
  obtain ⟨hcov, hnone⟩ := lastTouch_layers rs hx
  constructor
  · intro e he hlo hhi
    have hmem : Covers m.intervals x e.owner :=
      ⟨e.interval, mem_map_of_mem he, rfl, hlo, hhi⟩
    obtain ⟨r, hr, hseq, heq⟩ := hcov e.owner ((Covers.perm h.layers x _).mp hmem)
    obtain ⟨r', hr', hshow⟩ := h.shows e he
    have hsame : r = r' := eq_of_seq hs hr hr' (Option.some.inj (hseq.symm.trans hshow.1))
    rw [heq, hsame, hshow.lastTouch_eq hlo hhi]
  · intro hout
    refine hnone fun b hb => ?_
    obtain ⟨i, hi, -, hc⟩ := (Covers.perm h.layers x b).mpr hb
    obtain ⟨e, he, rfl⟩ := mem_map.mp hi
    exact hout e he hc

/-- The label is the one of a write. -/
def Wrote (rs : List Record) (b : Option Nat) : Prop := ∃ r ∈ rs, b = some r.seq ∧ r.kind = .write

/-- No byte of a write shows behind the position. -/
def EndsBy (rs : List Record) (n : Nat) : Prop :=
  ∀ i ∈ Intervals.layers (rs.filterMap Record.range), Wrote rs i.label → i.hi ≤ n

/-- The last size that a record sets. -/
def lastSize (rs : List Record) : Nat :=
  match (rs.filter fun r => r.attrs.hasSize).reverse with
  | [] => 0
  | r :: _ => r.attrs.size.toNat

private theorem endsBy_skip (hr : r.range = none) (n : Nat) :
    EndsBy (rs ++ [r]) n ↔ EndsBy rs n := by
  have hlayers : (rs ++ [r]).filterMap range = rs.filterMap range := by
    simp [filterMap_append, hr]
  have hk : r.kind ≠ .write := by
    intro hk
    unfold range at hr
    rw [if_pos hk] at hr
    cases hr
  have hw : ∀ b, Wrote (rs ++ [r]) b ↔ Wrote rs b := by
    intro b
    simp [Wrote, or_and_right, exists_or, hk]
  unfold EndsBy
  rw [hlayers]
  simp only [hw]

variable {i : Band (Option Nat)}

private theorem endsBy_paint (hr : r.range = some i)
    (hs : (rs ++ [r]).Pairwise fun a b => a.seq < b.seq) (n : Nat) :
    EndsBy (rs ++ [r]) n ↔ (r.kind = .write → i.hi ≤ n) ∧
      ∀ j ∈ carve i.lo i.hi (layers (rs.filterMap range)), Wrote rs j.label → j.hi ≤ n := by
  have hlayers : (rs ++ [r]).filterMap range = rs.filterMap range ++ [i] := by
    simp [filterMap_append, hr]
  have hlabel : i.label = some r.seq := range_label hr
  have hown : Wrote (rs ++ [r]) i.label ↔ r.kind = .write := by
    constructor
    · rintro ⟨a, ha, hseq, hk⟩
      have heq := eq_of_seq hs ha (by simp) (Option.some.inj (hseq.symm.trans hlabel))
      exact heq ▸ hk
    · exact fun hk => ⟨r, by simp, hlabel, hk⟩
  have hold : ∀ j ∈ carve i.lo i.hi (layers (rs.filterMap range)),
      (Wrote (rs ++ [r]) j.label ↔ Wrote rs j.label) := by
    intro j hj
    obtain ⟨e, he, hle, -⟩ := of_mem_carve hj
    obtain ⟨a, ha, hla, -⟩ := of_mem_layers he
    obtain ⟨c, hc, hrange⟩ := mem_filterMap.mp ha
    have hseq : j.label = some c.seq := by rw [hle, hla, range_label hrange]
    have hlt : c.seq < r.seq := (pairwise_append.mp hs).2.2 c hc r (by simp)
    constructor
    · rintro ⟨d, hd, hds, hk⟩
      rcases mem_append.mp hd with hd | hd
      · exact ⟨d, hd, hds, hk⟩
      · rw [mem_singleton.mp hd, hseq] at hds
        exact absurd (Option.some.inj hds) hlt.ne
    · rintro ⟨d, hd, hds, hk⟩
      exact ⟨d, mem_append_left _ hd, hds, hk⟩
  unfold EndsBy
  rw [hlayers, layers_append_singleton]
  unfold paint
  rw [forall_mem_cons]
  refine and_congr (imp_congr hown Iff.rfl) (forall₂_congr fun j hj => ?_)
  exact imp_congr (hold j hj) Iff.rfl

private theorem layers_hi_le (hv : ∀ r ∈ rs, r.Valid)
    (hi : i ∈ layers (rs.filterMap range)) : i.hi ≤ maxInt64 := by
  obtain ⟨a, ha, -, hle⟩ := of_mem_layers hi
  obtain ⟨r, hr, hrange⟩ := mem_filterMap.mp ha
  refine hle.trans ?_
  unfold range at hrange
  split at hrange
  · next hk =>
    cases hrange
    exact (hv r hr).bounded hk
  · split at hrange
    · cases hrange
      exact le_rfl
    · cases hrange

/-- The size that the records leave of an empty file. -/
theorem length_replay_le_iff (rs : List Record) (hv : ∀ r ∈ rs, r.Valid)
    (hs : rs.Pairwise fun a b => a.seq < b.seq) (n : Nat) :
    (replay ([] : List UInt8) (rs.flatMap edits)).length ≤ n ↔ EndsBy rs n ∧ lastSize rs ≤ n := by
  induction rs using reverseRecOn with
  | nil => simp [replay, EndsBy, lastSize, layers]
  | append_singleton rs r ih =>
    have hvr := hv r (by simp)
    have hvs : ∀ a ∈ rs, a.Valid := fun a ha => hv a (mem_append_left _ ha)
    have ih := ih hvs (pairwise_append.mp hs).1
    rw [flatMap_append, flatMap_singleton, replay_append]
    by_cases hk : r.kind = .write
    · -- a write reaches to its end and leaves the size that was set
      have hrange : r.range = some ⟨r.off, r.off + r.data.length, some r.seq⟩ := if_pos hk
      have hsize : lastSize (rs ++ [r]) = lastSize rs := by
        simp [lastSize, filter_append, hvr.unsized hk]
      rw [edits_write hk, hsize, endsBy_paint hrange hs]
      simp only [replay, foldl_cons, foldl_nil, Edit.apply] at ih ⊢
      rw [length_write, if_neg (hvr.nonempty hk), Nat.max_le, ih]
      simp only [hk, true_implies]
      constructor
      · rintro ⟨⟨hends, hlast⟩, hle⟩
        exact ⟨⟨hle, (forall_carve_hi_le hle).mpr hends⟩, hlast⟩
      · rintro ⟨⟨hle, hends⟩, hlast⟩
        exact ⟨⟨(forall_carve_hi_le hle).mp hends, hlast⟩, hle⟩
    cases hsz : r.attrs.hasSize with
    | false =>
      have hrange : r.range = none := by
        unfold range
        rw [if_neg hk, if_neg (by simp [hsz])]
      have hsize : lastSize (rs ++ [r]) = lastSize rs := by
        simp [lastSize, filter_append, hsz]
      rw [edits_none hk hsz, hsize, endsBy_skip hrange]
      exact ih
    | true =>
      -- nothing of the writes before shows behind the new size
      have hsize : lastSize (rs ++ [r]) = r.attrs.size.toNat := by
        simp [lastSize, filter_append, hsz]
      rw [edits_size hk hsz, hsize]
      simp only [replay, foldl_cons, foldl_nil, Edit.apply, length_resize]
      refine ⟨fun hle => ⟨?_, hle⟩, And.right⟩
      by_cases hmax : r.attrs.size < maxInt64
      · have hrange : r.range = some ⟨r.attrs.size.toNat, maxInt64, some r.seq⟩ := by
          unfold range
          rw [if_neg hk, if_pos ⟨hsz, hmax⟩]
        rw [endsBy_paint hrange hs]
        refine ⟨fun hw => absurd hw hk, fun j hj _ => Nat.le_trans ?_ hle⟩
        exact hi_le_of_mem_carve (fun i hi => layers_hi_le hvs hi) hj
      · have hrange : r.range = none := by
          unfold range
          rw [if_neg hk, if_neg fun hc => hmax hc.2]
        rw [endsBy_skip hrange]
        intro i hi _
        have := layers_hi_le hvs hi
        omega

/-- The stored end of the extents is the end of the writes that show. -/
theorem ExtentMap.Paints.extentEnd_le_iff (h : m.Paints rs)
    (hs : rs.Pairwise fun a b => a.seq < b.seq) (n : Nat) : m.root.extentEnd ≤ n ↔ EndsBy rs n := by
  have hdata : ∀ e ∈ m.root.toList, (e.data.isSome = true ↔ Wrote rs e.owner) := by
    intro e he
    obtain ⟨r, hr, hown, hshow⟩ := h.shows e he
    constructor
    · intro hd
      rcases hshow with ⟨hk, -⟩ | ⟨-, -, -, hnone⟩
      · exact ⟨r, hr, hown, hk⟩
      · rw [hnone] at hd
        cases hd
    · rintro ⟨a, ha, hseq, hk⟩
      have heq := eq_of_seq hs ha hr (Option.some.inj (hseq.symm.trans hown))
      rcases hshow with ⟨-, -, -, hd⟩ | ⟨hk', -⟩
      · rw [hd]
        rfl
      · exact absurd (heq ▸ hk) hk'
  rw [h.ok.endOk.le_iff]
  unfold EndsBy
  simp only [← h.layers.mem_iff]
  unfold intervals
  rw [forall_mem_map]
  exact forall₂_congr fun e he => imp_congr (hdata e he) Iff.rfl

namespace Ledger

/-- The edits that the overlay stands for. -/
def edits (l : Ledger) : List (Edit UInt8) := l.shown.flatMap Record.edits

variable {sequence : Nat} {l : Ledger}

theorem QueueOk.shown_sorted (h : l.QueueOk sequence) : l.shown.Pairwise fun a b => a.seq < b.seq :=
  pairwise_map.mpr (h.sorted.sublist filter_sublist)

theorem QueueOk.shown_valid (h : l.QueueOk sequence) : ∀ r ∈ l.shown, r.Valid := by
  intro r hr
  obtain ⟨a, ha, rfl⟩ := mem_map.mp hr
  exact h.valid a (mem_of_mem_filter ha)

/-- The size of the books is the one that the edits leave. -/
theorem Sized.size_eq (h : l.Sized) (ho : l.OverlayOk) (hq : l.QueueOk sequence) :
    l.size = (replay ([] : List UInt8) l.edits).length := by
  have hmax : l.size = max l.extents.root.extentEnd (lastSize l.shown) := by
    rw [← (l.sized_iff.mp h).1]
    unfold sizeLocked lastSize
    rw [ho.truncates]
    dsimp only
    cases (l.shown.filter fun r => r.attrs.hasSize).reverse with
    | nil => exact (Nat.max_zero _).symm
    | cons r rest => rfl
  have hall : ∀ n, l.size ≤ n ↔ (replay ([] : List UInt8) l.edits).length ≤ n := by
    intro n
    rw [hmax, Nat.max_le, ho.paints.extentEnd_le_iff hq.shown_sorted]
    exact (length_replay_le_iff _ hq.shown_valid hq.shown_sorted n).symm
  exact Nat.le_antisymm ((hall _).mpr (Nat.le_refl _)) ((hall _).mp (Nat.le_refl _))

/-- The size is exact if one of the edits fixes it. -/
theorem Sized.exact_eq (h : l.Sized) (ho : l.OverlayOk) (hq : l.QueueOk sequence) :
    l.exact = l.edits.any Edit.isResize := by
  have hone : ∀ r ∈ l.shown, r.edits.any Edit.isResize = r.attrs.hasSize := by
    intro r hr
    by_cases hk : r.kind = .write
    · rw [edits_write hk, (hq.shown_valid r hr).unsized hk]
      rfl
    · cases hsz : r.attrs.hasSize with
      | false => rw [edits_none hk hsz]; rfl
      | true => rw [edits_size hk hsz]; rfl
  rw [← (l.sized_iff.mp h).2]
  change (!l.truncates.isEmpty) = _
  rw [ho.truncates, Bool.eq_iff_iff]
  unfold edits
  rw [any_flatMap, any_eq_true]
  simp only [Bool.not_eq_true', isEmpty_eq_false_iff, ne_eq, reverse_eq_nil_iff,
    filter_eq_nil_iff, not_forall, Bool.not_eq_true, Bool.not_eq_false, exists_prop]
  exact exists_congr fun r => and_congr_right fun hr => by rw [hone r hr]

/-- The size of a file over a base of this size. -/
theorem Sized.length_eq (h : l.Sized) (ho : l.OverlayOk) (hq : l.QueueOk sequence)
    (content : List UInt8) :
    (replay content l.edits).length = if l.exact then l.size else max content.length l.size := by
  rw [length_replay, h.size_eq ho hq, h.exact_eq ho hq]

end Ledger

variable {out : List UInt8} {data : List UInt8} {pos : Nat}

theorem length_overwrite (h : pos + data.length ≤ out.length) :
    (overwrite out pos data).length = out.length := by
  simp only [overwrite, length_append, length_take, length_drop]
  omega

theorem getD_overwrite (h : pos + data.length ≤ out.length)
    (i : Nat) : (overwrite out pos data).getD i 0 =
      if pos ≤ i ∧ i < pos + data.length then data.getD (i - pos) 0 else out.getD i 0 := by
  have hpos : min pos out.length = pos := by omega
  simp only [overwrite, getD_eq_getElem?_getD, append_assoc, getElem?_append,
    length_take, getElem?_take, getElem?_drop, hpos]
  split
  · next hlt => rw [if_neg (by omega)]
  next hge =>
  split
  · next hin => rw [if_pos (by omega)]
  · next hout =>
    rw [if_neg (by omega)]
    congr 2
    omega

/-- The byte of a span at a position of it. -/
def Span.byteAt (s : Span) (x : Nat) : UInt8 := (s.data.map (·.getD (x - s.lo) 0)).getD 0

/-- A span has as many bytes as positions. -/
def Span.Filled (s : Span) : Prop := ∀ d, s.data = some d → d.length = s.hi - s.lo

/-- A span that is laid over the result shows where it lies. -/
theorem Span.lay_spec {s : Span} (hs : s.Filled) (off n : Nat) (hn : out.length = n) :
    (s.lay off n out).length = n ∧ ∀ i < n, (s.lay off n out).getD i 0 =
      if s.lo ≤ off + i ∧ off + i < s.hi then s.byteAt (off + i) else out.getD i 0 := by
  unfold lay
  dsimp only
  split
  · next hle =>
    refine ⟨hn, fun i hi => ?_⟩
    rw [if_neg (by omega)]
  next hlt =>
  -- what is copied has the length of the part that meets the result
  have hcopy : ∀ data : List UInt8, data.length = min (off + n) s.hi - max off s.lo →
      (∀ i < n, s.lo ≤ off + i → off + i < s.hi →
        data.getD (i - (max off s.lo - off)) 0 = s.byteAt (off + i)) →
      (overwrite out (max off s.lo - off) data).length = n ∧ ∀ i < n,
        (overwrite out (max off s.lo - off) data).getD i 0 =
          if s.lo ≤ off + i ∧ off + i < s.hi then s.byteAt (off + i) else out.getD i 0 := by
    intro data hlen hbytes
    have hfit : max off s.lo - off + data.length ≤ out.length := by omega
    refine ⟨(length_overwrite hfit).trans hn, fun i hi => ?_⟩
    rw [getD_overwrite hfit]
    by_cases hin : s.lo ≤ off + i ∧ off + i < s.hi
    · rw [if_pos hin, if_pos (by omega)]
      exact hbytes i hi hin.1 hin.2
    · rw [if_neg hin, if_neg (by omega)]
  split
  · next hd =>
    refine hcopy _ (length_replicate ..) fun i hi h1 h2 => ?_
    unfold byteAt
    rw [hd, getD_eq_getElem?_getD, getElem?_replicate, if_pos (by omega)]
    rfl
  next d hd =>
  have hlen := hs d hd
  refine hcopy _ ?_ fun i hi h1 h2 => ?_
  · rw [length_drop, length_take]
    omega
  unfold byteAt
  simp only [hd, getD_eq_getElem?_getD, getElem?_drop, getElem?_take,
    Option.map_some, Option.getD_some]
  rw [if_pos (by omega)]
  congr 2
  omega

/-- Spans that agree on the bytes at every position are laid in any order. -/
theorem foldl_lay_spec (ss : List Span) {v : Nat → Option UInt8}
    (hs : ∀ s ∈ ss, s.Filled ∧ ∀ x, s.lo ≤ x → x < s.hi → v x = some (s.byteAt x)) (off n : Nat)
    (hn : out.length = n) :
    (ss.foldl (Span.lay off n) out).length = n ∧ ∀ i < n,
      ((∃ s ∈ ss, s.lo ≤ off + i ∧ off + i < s.hi) →
        v (off + i) = some ((ss.foldl (Span.lay off n) out).getD i 0)) ∧
      ((∀ s ∈ ss, ¬ (s.lo ≤ off + i ∧ off + i < s.hi)) →
        (ss.foldl (Span.lay off n) out).getD i 0 = out.getD i 0) := by
  induction ss using reverseRecOn with
  | nil =>
    refine ⟨hn, fun i _ => ⟨?_, fun _ => rfl⟩⟩
    rintro ⟨s, hs, -⟩
    cases hs
  | append_singleton ss s ih =>
    obtain ⟨hlen, hget⟩ := ih fun a ha => hs a (mem_append_left _ ha)
    obtain ⟨hfill, hv⟩ := hs s (by simp)
    obtain ⟨hlen', hlay⟩ := Span.lay_spec hfill off n hlen
    have hfold : (ss ++ [s]).foldl (Span.lay off n) out =
        s.lay off n (ss.foldl (Span.lay off n) out) := by
      rw [foldl_append]
      rfl
    rw [hfold]
    refine ⟨hlen', fun i hi => ?_⟩
    rw [hlay i hi]
    constructor
    · rintro ⟨a, ha, h1, h2⟩
      by_cases hin : s.lo ≤ off + i ∧ off + i < s.hi
      · rw [if_pos hin]
        exact hv _ hin.1 hin.2
      rw [if_neg hin]
      have ha' : a ∈ ss := by
        rcases mem_append.mp ha with ha | ha
        · exact ha
        · exact absurd ⟨h1, h2⟩ (mem_singleton.mp ha ▸ hin)
      exact (hget i hi).1 ⟨a, ha', h1, h2⟩
    · intro hout
      rw [if_neg (hout s (by simp))]
      exact (hget i hi).2 fun a ha => hout a (mem_append_left _ ha)

/-- The span of an extent shows the bytes of the extent. -/
theorem Extent.Shows.span_spec (h : e.Shows r) (lo hi : Nat) :
    (e.span lo hi).Filled ∧ ∀ x, (e.span lo hi).lo ≤ x → x < (e.span lo hi).hi →
      (e.span lo hi).byteAt x = e.byteAt x := by
  have hlen : ∀ d, e.data = some d → d.length = e.hi - e.lo := by
    intro d hd
    rcases h.2 with ⟨-, h1, h2, hd'⟩ | ⟨-, -, -, hd'⟩
    · rw [hd'] at hd
      rw [← Option.some.inj hd, length_drop, length_take]
      omega
    · rw [hd'] at hd
      cases hd
  unfold span Span.Filled Span.byteAt byteAt sub
  dsimp only
  constructor
  · intro d hd
    obtain ⟨d', hd', rfl⟩ := Option.map_eq_some_iff.mp hd
    have := hlen d' hd'
    rw [length_drop, length_take]
    omega
  · intro x h1 h2
    cases hd : e.data with
    | none => rfl
    | some d =>
      simp only [Option.map_some, Option.getD_some, getD_eq_getElem?_getD, getElem?_drop,
        getElem?_take]
      rw [if_pos (by omega)]
      congr 2
      omega

/-- The base of a read from bytes that do not change meanwhile. -/
def fetchFrom (content : List UInt8) : Fetch := fun off n => .ok ((content.drop off).take n)

variable {sequence : Nat} {f : File}

private theorem readLength_eq (hs : f.Sized) (ho : f.OverlayOk)
    (hq : f.QueueOk sequence) (content : List UInt8) (off length : Nat) :
    f.readLength off (if f.exact then min length (f.size - off) else length)
        (min (if f.exact then min length (f.size - off) else length) (content.length - off)) =
      min length ((replay content f.edits).length - off) ∧
    min length ((replay content f.edits).length - off) ≤
      (if f.exact then min length (f.size - off) else length) ∧
    min (if f.exact then min length (f.size - off) else length) (content.length - off) ≤
      min length ((replay content f.edits).length - off) := by
  rw [hs.length_eq ho hq content]
  unfold File.readLength
  split
  · exact ⟨rfl, le_rfl, min_le_left _ _⟩
  · refine ⟨?_, min_le_left _ _, by omega⟩
    split <;> omega

private theorem getD_base (content : List UInt8) (off len i : Nat) (hi : i < len) (k : Nat) :
    ((content.drop off).take len ++ replicate k 0).getD i 0 = content.getD (off + i) 0 := by
  simp only [getD_eq_getElem?_getD, getElem?_append, getElem?_take,
    getElem?_drop, length_take, length_drop, getElem?_replicate]
  split
  · rfl
  · rw [getElem?_eq_none (by omega)]
    split <;> rfl

/-- A read that reaches the base returns a part of the base with the edits applied. -/
theorem File.readOver_eq (hs : f.Sized) (ho : f.OverlayOk) (hq : f.QueueOk sequence) (id : Identity)
    (content : List UInt8) {off length : Nat} (hmax : off + length ≤ maxInt64) :
    f.readOver id off length (spans off (off + length) f.extents.root) (fetchFrom content) =
      .ok (((replay content f.edits).drop off).take length) := by
  obtain ⟨hlen, hle, hge⟩ := readLength_eq hs ho hq content off length
  unfold File.readOver fetchFrom
  dsimp only
  rw [length_take, length_drop, if_neg (by omega), hlen, spans_eq ho.paints.ok.ordered]
  generalize hn : min length ((replay content f.edits).length - off) = n at hle hge ⊢
  generalize (if f.exact then min length (f.size - off) else length) = len at hlen hle hge ⊢
  -- every span shows what the edits leave
  have hspan : ∀ s ∈ (f.extents.root.toList.filter (ExtentMap.meets off (off + length))).map
      (Extent.span off (off + length)), s.Filled ∧ ∀ x, s.lo ≤ x → x < s.hi →
        lastTouch x f.edits = some (s.byteAt x) := by
    intro s hmem
    obtain ⟨e, he, rfl⟩ := mem_map.mp hmem
    have he' := mem_of_mem_filter he
    obtain ⟨r, -, hshow⟩ := ho.paints.shows e he'
    obtain ⟨hfill, hbyte⟩ := hshow.span_spec off (off + length)
    refine ⟨hfill, fun x h1 h2 => ?_⟩
    have hlo : e.lo ≤ x := Nat.le_trans (le_max_right _ _) h1
    have hhi : x < e.hi := h2.trans_le (min_le_right _ _)
    have hx : x < off + length := h2.trans_le (min_le_left _ _)
    rw [hbyte x h1 h2]
    exact (ho.paints.lastTouch_eq hq.shown_sorted (hx.trans_le hmax)).1 e he' hlo hhi
  have hbase : ((content.drop off).take len ++
      replicate (n - min len (content.length - off)) 0).length = n := by
    rw [length_append, length_take, length_drop, length_replicate]
    omega
  obtain ⟨hfold, hget⟩ := foldl_lay_spec _ hspan off n hbase
  refine congrArg Except.ok (ext_getD ?_ fun i => ?_)
  · rw [hfold, length_take, length_drop, hn]
  by_cases hi : i < n
  · have hright : (((replay content f.edits).drop off).take length).getD i 0 =
        (lastTouch (off + i) f.edits).getD (content.getD (off + i) 0) := by
      rw [← getD_replay]
      simp only [getD_eq_getElem?_getD, getElem?_take, getElem?_drop]
      rw [if_pos (by omega)]
    rw [hright]
    by_cases hin : ∃ e ∈ f.extents.root.toList, e.lo ≤ off + i ∧ off + i < e.hi
    · obtain ⟨e, he, h1, h2⟩ := hin
      have hmeets : ExtentMap.meets off (off + length) e = true := by
        simp only [ExtentMap.meets, Bool.and_eq_true, decide_eq_true_eq]
        omega
      have hmem := mem_map_of_mem (f := Extent.span off (off + length))
        (mem_filter.mpr ⟨he, hmeets⟩)
      have hcontains : (e.span off (off + length)).lo ≤ off + i ∧
          off + i < (e.span off (off + length)).hi := by
        unfold Extent.span
        dsimp only
        omega
      rw [(hget i hi).1 ⟨_, hmem, hcontains⟩]
      rfl
    · have hout : ∀ e ∈ f.extents.root.toList, ¬ (e.lo ≤ off + i ∧ off + i < e.hi) :=
        fun e he hc => hin ⟨e, he, hc⟩
      have htouch : lastTouch (off + i) f.edits = none :=
        (ho.paints.lastTouch_eq hq.shown_sorted (by omega)).2 hout
      rw [(hget i hi).2 ?_, htouch]
      · exact getD_base content off len i (by omega) _
      intro s hmem hc
      obtain ⟨e, he, rfl⟩ := mem_map.mp hmem
      refine hout e (mem_of_mem_filter he) ?_
      unfold Extent.span at hc
      dsimp only at hc
      omega
  · rw [getD_eq_default _ _ (by omega), getD_eq_default]
    rw [length_take, length_drop, hn]
    omega

end PortableFS.Writeback
