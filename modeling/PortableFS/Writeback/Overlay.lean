import PortableFS.Writeback.Ledger
import PortableFS.Writeback.Lifecycle

/-!
# What the overlay shows

The extents of a file are the ranges of its retained records painted over each other in the order
of acceptance, and every extent shows a part of the record that owns it. Releasing the oldest
record takes away the lowest layer. A layer costs at most two nodes of the arena.
-/

namespace PortableFS.Writeback

open PortableFS.Base Record
open List hiding range

/-- The range that a record paints: its bytes, or the zeros behind the size it sets. -/
def Record.range (r : Record) : Option (Band (Option Nat)) :=
  if r.kind = .write then some ⟨r.off, r.off + r.data.length, some r.seq⟩
  else if r.attrs.hasSize ∧ r.attrs.size < maxInt64 then
    some ⟨r.attrs.size.toNat, maxInt64, some r.seq⟩
  else none

variable {r : Record} {i : Band (Option Nat)}

theorem Record.range_label (h : r.range = some i) : i.label = some r.seq := by
  unfold range at h
  split at h
  · cases h
    rfl
  · split at h
    · cases h
      rfl
    · cases h

theorem Record.Valid.range_lt (hv : r.Valid) (h : r.range = some i) : i.lo < i.hi := by
  unfold range at h
  split at h
  · next hk =>
    cases h
    have hlen := length_pos_iff.mpr (hv.nonempty hk)
    simp only
    omega
  · split at h
    · next hs =>
      cases h
      have hmax : (0 : Int) < maxInt64 := by decide
      simp only
      omega
    · cases h

/-- The extent shows a part of the record. -/
def Extent.Shows (e : Extent) (r : Record) : Prop :=
  e.owner = some r.seq ∧
    ((r.kind = .write ∧ r.off ≤ e.lo ∧ e.hi ≤ r.off + r.data.length ∧
        e.data = some ((r.data.take (e.hi - r.off)).drop (e.lo - r.off))) ∨
      (r.kind ≠ .write ∧ r.attrs.hasSize = true ∧ r.attrs.size.toNat ≤ e.lo ∧ e.data = none))

theorem Extent.Shows.clip {e p : Extent} (h : e.Shows r) (hc : e.Clip p) : p.Shows r := by
  have h1 := hc.lo_le
  have h2 := hc.lt
  have h3 := hc.hi_le
  refine ⟨hc.owner.trans h.1, ?_⟩
  rcases h.2 with ⟨hk, hlo, hhi, hd⟩ | ⟨hk, hs, hlo, hd⟩
  · refine .inl ⟨hk, by omega, by omega, ?_⟩
    rw [hc.data, hd]
    simp only [sub, Option.map_some, take_drop, take_take, drop_drop]
    congr 2
    · omega
    · congr 1
      omega
  · refine .inr ⟨hk, hs, by omega, ?_⟩
    rw [hc.data, hd]
    rfl

/-- The extents show these records, the last one on top. -/
structure ExtentMap.Paints (rs : List Record) (m : ExtentMap) : Prop where
  ok : m.Ok
  layers : m.intervals.Perm (Intervals.layers (rs.filterMap Record.range))
  shows : ∀ e ∈ m.root.toList, ∃ r ∈ rs, e.Shows r

namespace ExtentMap.Paints

variable {m : ExtentMap}

theorem of_nil (h : m.Ok) (hnil : m.root = .nil) : Paints [] m := by
  refine ⟨h, ?_, ?_⟩
  · unfold intervals
    rw [hnil]
    exact List.Perm.refl _
  · rw [hnil]
    simp [Tree.toList]

variable {rs : List Record}

/-- A record without a range paints nothing. -/
theorem skip (h : Paints rs m) (hr : r.range = none) : Paints (rs ++ [r]) m := by
  refine ⟨h.ok, ?_, fun e he => ?_⟩
  · rw [filterMap_append]
    simpa [hr] using h.layers
  · obtain ⟨a, ha, hs⟩ := h.shows e he
    exact ⟨a, mem_append_left _ ha, hs⟩

/-- Painting the range of a record. -/
theorem set (h : Paints rs m) {lo hi : Nat} (hr : r.range = some ⟨lo, hi, some r.seq⟩)
    (hlt : lo < hi) {data : Option (List UInt8)}
    (hshows : ∀ n, Extent.Shows ⟨n, lo, hi, data, some r.seq⟩ r) {free : List Nat}
    (hfree : 2 ≤ free.length) :
    ∃ m' free', m.set free lo hi data (some r.seq) = some (m', free') ∧ Paints (rs ++ [r]) m' ∧
      (m'.nodes ++ free').Perm (m.nodes ++ free) := by
  obtain ⟨m', free', heq, hp⟩ := set_spec h.ok hlt data (some r.seq) hfree
  refine ⟨m', free', heq, ⟨hp.ok, ?_, ?_⟩, hp.nodes⟩
  · rw [filterMap_append]
    simp only [filterMap_cons, hr, filterMap_nil]
    rw [Intervals.layers_append_singleton]
    exact hp.intervals.trans (Intervals.paint_perm h.layers)
  apply hp.kept fun e => ∃ a ∈ rs ++ [r], e.Shows a
  · rintro e p ⟨a, ha, hs⟩ hc
    exact ⟨a, ha, hs.clip hc⟩
  · intro e he
    obtain ⟨a, ha, hs⟩ := h.shows e he
    exact ⟨a, mem_append_left _ ha, hs⟩
  · exact fun n => ⟨r, by simp, hshows n⟩

/-- Retiring a record that shows nothing. -/
theorem retire_absent (h : Paints rs m) {seq : Nat} (hseq : ∀ a ∈ rs, a.seq ≠ seq) (free : List Nat) :
    Paints rs (m.retire free seq).1 := by
  obtain ⟨hok, hlist, -⟩ := retire_spec h.ok free seq
  have hall : m.root.toList.filter (fun e => decide (e.owner ≠ some seq)) = m.root.toList := by
    rw [filter_eq_self]
    intro e he
    obtain ⟨a, ha, hs⟩ := h.shows e he
    rw [decide_eq_true_eq, hs.1]
    exact fun heq => hseq a ha (Option.some.inj heq)
  rw [hall] at hlist
  refine ⟨hok, (hlist.map Extent.interval).trans h.layers, fun e he => ?_⟩
  exact h.shows e (hlist.mem_iff.mp he)

/-- Retiring the oldest record takes away the lowest layer. -/
theorem retire (h : Paints (r :: rs) m) (hseq : ∀ a ∈ rs, a.seq ≠ r.seq) (free : List Nat) :
    Paints rs (m.retire free r.seq).1 := by
  obtain ⟨hok, hlist, -⟩ := retire_spec h.ok free r.seq
  refine ⟨hok, ?_, fun e he => ?_⟩
  · have hkeep : ∀ i ∈ rs.filterMap range, decide (i.label ≠ some r.seq) = true := by
      intro i hi
      obtain ⟨a, ha, hr⟩ := mem_filterMap.mp hi
      rw [decide_eq_true_eq, range_label hr]
      exact fun heq => hseq a ha (Option.some.inj heq)
    have hfilter : (Intervals.layers ((r :: rs).filterMap range)).filter
        (fun i => decide (i.label ≠ some r.seq)) =
        Intervals.layers (rs.filterMap range) := by
      cases hr : r.range with
      | none =>
        rw [filterMap_cons_none hr]
        exact Intervals.filter_layers_self (fun o => decide (o ≠ some r.seq)) hkeep
      | some i =>
        rw [filterMap_cons_some hr]
        exact Intervals.filter_layers_cons (fun o => decide (o ≠ some r.seq))
          (by simp [range_label hr]) hkeep
    have hmap := hlist.map Extent.interval
    rw [← hfilter]
    refine hmap.trans ?_
    have hcomm : (m.root.toList.filter fun e => decide (e.owner ≠ some r.seq)).map Extent.interval =
        m.intervals.filter fun i => decide (i.label ≠ some r.seq) := by
      unfold intervals
      rw [filter_map]
      rfl
    rw [hcomm]
    exact h.layers.filter _
  · obtain ⟨he, hne⟩ := mem_filter.mp (hlist.mem_iff.mp he)
    obtain ⟨a, ha, hs⟩ := h.shows e he
    rcases mem_cons.mp ha with rfl | ha
    · rw [decide_eq_true_eq, hs.1] at hne
      exact absurd rfl hne
    · exact ⟨a, ha, hs⟩

/-- A record costs at most two nodes. -/
theorem length_nodes_le (h : Paints rs m) (hv : ∀ r ∈ rs, r.Valid) :
    m.nodes.length ≤ 2 * rs.length := by
  have hlt : ∀ i ∈ rs.filterMap range, i.lo < i.hi := by
    intro i hi
    obtain ⟨a, ha, hr⟩ := mem_filterMap.mp hi
    exact (hv a ha).range_lt hr
  have hlen : m.nodes.length = m.intervals.length := by
    unfold nodes intervals
    rw [length_map, length_map]
  have hlayers := Intervals.length_layers_le hlt
  have hfilter := length_filterMap_le range rs
  rw [hlen, h.layers.length_eq]
  omega

end ExtentMap.Paints

namespace Ledger

/-- The records that the overlay shows, oldest first. -/
def shown (l : Ledger) : List Record := (l.queue.filter Retained.inOverlay).map Retained.record

/-- The overlay of a file. -/
structure OverlayOk (l : Ledger) : Prop where
  paints : l.extents.Paints l.shown
  truncates : l.truncates = (l.shown.filter fun r => r.attrs.hasSize).reverse

variable {l : Ledger} {l' : Ledger}

theorem shown_congr
    (h : l'.queue.map (fun r => (r.record, r.inOverlay)) = l.queue.map fun r => (r.record, r.inOverlay)) :
    l'.shown = l.shown := by
  have hshown : ∀ l : Ledger, l.shown =
      ((l.queue.map fun r => (r.record, r.inOverlay)).filter Prod.snd).map Prod.fst := by
    intro l
    rw [filter_map, map_map]
    rfl
  rw [hshown, hshown, h]

/-- The overlay does not depend on the states of the records. -/
theorem OverlayOk.congr (h : l.OverlayOk)
    (hq : l'.queue.map (fun r => (r.record, r.inOverlay)) = l.queue.map fun r => (r.record, r.inOverlay))
    (he : l'.extents = l.extents) (ht : l'.truncates = l.truncates) : l'.OverlayOk := by
  have hs := shown_congr hq
  exact ⟨hs ▸ he ▸ h.paints, hs ▸ ht ▸ h.truncates⟩

/-- The size of the file is the one its overlay gives it. -/
def Sized (l : Ledger) : Prop := l.sizeLocked = l

theorem shown_link (l : Ledger) (r : Record) : (l.link r).shown = l.shown ++ [r] := by
  simp [shown, link, fresh]

theorem sized_iff (l : Ledger) :
    l.Sized ↔ l.sizeLocked.size = l.size ∧ l.sizeLocked.exact = l.exact := by
  constructor
  · intro h
    exact ⟨congrArg Ledger.size h, congrArg Ledger.exact h⟩
  · rintro ⟨hs, he⟩
    unfold Sized
    change { l with size := l.sizeLocked.size, exact := l.sizeLocked.exact } = l
    rw [hs, he]

theorem sized_sizeLocked (l : Ledger) : l.sizeLocked.Sized := rfl

private theorem overlaid {m : ExtentMap} {ts : List Record} (hp : m.Paints (l.shown ++ [r]))
    (ht : ts = ((l.shown ++ [r]).filter fun r => r.attrs.hasSize).reverse) :
    OverlayOk (sizeLocked { l.link r with extents := m, truncates := ts }) := by
  have hshown : (sizeLocked { l.link r with extents := m, truncates := ts }).shown =
      l.shown ++ [r] := shown_link l r
  refine ⟨?_, ?_⟩
  · rw [hshown]
    exact hp
  · rw [hshown]
    exact ht

/-- The overlay of a new record; the arena needs two free nodes. -/
theorem overlay_link (h : l.OverlayOk) (hv : r.Valid) {pool : List Nat} (hpool : 2 ≤ pool.length) :
    ∃ l' pool', overlay (l.link r) pool r = some (l', pool') ∧ l'.OverlayOk ∧ l'.Sized ∧
      SameBooks (l.link r) l' ∧ (l'.extents.nodes ++ pool').Perm (l.extents.nodes ++ pool) := by
  have hsame : ∀ m ts, SameBooks (l.link r) (sizeLocked { l.link r with extents := m, truncates := ts }) :=
    fun m ts => ⟨rfl, rfl, rfl, rfl⟩
  unfold overlay overlayWrite
  by_cases hk : r.kind = .write
  · have hrange : r.range = some ⟨r.off, r.off + r.data.length, some r.seq⟩ := if_pos hk
    have hshows : ∀ n, Extent.Shows ⟨n, r.off, r.off + r.data.length, some r.data, some r.seq⟩ r :=
      fun n => ⟨rfl, .inl ⟨hk, le_rfl, le_rfl, by simp⟩⟩
    obtain ⟨m, pool', heq, hp, hn⟩ := h.paints.set hrange (hv.range_lt hrange) hshows hpool
    have heq' : (l.link r).extents.set pool r.off (r.off + r.data.length) (some r.data) (some r.seq) =
        some (m, pool') := heq
    have hsize := hv.unsized hk
    simp only [if_pos hk, paint, heq', overlaySize, hsize, Bool.false_eq_true, if_false]
    refine ⟨_, pool', rfl, overlaid hp ?_, sized_sizeLocked _, hsame m l.truncates, hn⟩
    change l.truncates = _
    rw [filter_append, h.truncates]
    simp [hsize]
  simp only [if_neg hk, overlaySize]
  by_cases hs : r.attrs.hasSize = true
  · have htrunc : r :: l.truncates =
        ((l.shown ++ [r]).filter fun r => r.attrs.hasSize).reverse := by
      rw [filter_append, h.truncates]
      simp [hs]
    by_cases hmax : r.attrs.size < maxInt64
    · have hrange : r.range = some ⟨r.attrs.size.toNat, maxInt64, some r.seq⟩ := by
        unfold range
        rw [if_neg hk, if_pos ⟨hs, hmax⟩]
      have hshows : ∀ n, Extent.Shows ⟨n, r.attrs.size.toNat, maxInt64, none, some r.seq⟩ r :=
        fun n => ⟨rfl, .inr ⟨hk, hs, le_rfl, rfl⟩⟩
      obtain ⟨m, pool', heq, hp, hn⟩ := h.paints.set hrange (hv.range_lt hrange) hshows hpool
      have heq' : (l.link r).extents.set pool r.attrs.size.toNat maxInt64 none (some r.seq) =
          some (m, pool') := heq
      simp only [if_pos hs, if_pos hmax, paint, heq']
      exact ⟨_, pool', rfl, overlaid hp htrunc, sized_sizeLocked _, hsame m _, hn⟩
    · have hrange : r.range = none := by
        unfold range
        rw [if_neg hk, if_neg fun hc => hmax hc.2]
      simp only [if_pos hs, if_neg hmax]
      exact ⟨_, pool, rfl, overlaid (h.paints.skip hrange) htrunc, sized_sizeLocked _, hsame _ _,
        List.Perm.refl _⟩
  · have hrange : r.range = none := by
      unfold range
      rw [if_neg hk, if_neg fun hc => hs hc.1]
    simp only [if_neg hs]
    refine ⟨_, pool, rfl, overlaid (h.paints.skip hrange) ?_, sized_sizeLocked _,
      hsame _ l.truncates, List.Perm.refl _⟩
    rw [filter_append, h.truncates]
    simp [hs]

/-- Releasing the oldest record takes it out of the overlay. -/
theorem OverlayOk.pop (h : l.OverlayOk) {sequence : Nat} (hq : l.QueueOk sequence) {r : Retained}
    {rest : List Retained} (hl : l.queue = r :: rest) (pool : List Nat) :
    OverlayOk
      { l with
        queue := rest
        extents := (l.extents.retire pool r.record.seq).1
        truncates :=
          if r.inOverlay && r.record.attrs.hasSize then l.truncates.erase r.record
          else l.truncates } := by
  have hsorted := hq.sorted
  rw [hl, pairwise_cons] at hsorted
  have hseq : ∀ a ∈ (rest.filter Retained.inOverlay).map Retained.record, a.seq ≠ r.record.seq := by
    intro a ha
    obtain ⟨c, hc, rfl⟩ := mem_map.mp ha
    exact (Nat.ne_of_lt (hsorted.1 c (mem_of_mem_filter hc))).symm
  have hpaints := h.paints
  have htrunc := h.truncates
  unfold shown at hpaints htrunc
  rw [hl, filter_cons] at hpaints htrunc
  cases ho : r.inOverlay with
  | false =>
    rw [ho, if_neg Bool.false_ne_true] at hpaints htrunc
    exact ⟨hpaints.retire_absent hseq pool, htrunc⟩
  | true =>
    rw [ho, if_pos rfl, map_cons] at hpaints htrunc
    refine ⟨hpaints.retire hseq pool, ?_⟩
    simp only [Bool.true_and]
    split
    · next hs =>
      rw [filter_cons, if_pos hs, reverse_cons] at htrunc
      rw [htrunc, erase_append_right]
      · simp [shown]
      · intro hmem
        exact hseq r.record (mem_of_mem_filter (mem_reverse.mp hmem)) rfl
    · next hs =>
      rw [filter_cons, if_neg hs] at htrunc
      exact htrunc

/-- A file that is detached shows nothing. -/
theorem overlayOk_detach (h : l.OverlayOk) (pool : List Nat) :
    (l.detach pool).1.OverlayOk ∧ (l.detach pool).1.Sized ∧
      ((l.detach pool).1.extents.nodes ++ (l.detach pool).2).Perm (l.extents.nodes ++ pool) := by
  obtain ⟨hok, hnil, hperm⟩ := ExtentMap.clear_spec h.paints.ok pool
  have hshown : (l.detach pool).1.shown = [] := by
    simp [shown, detach]
  have hroot : (l.detach pool).1.extents.root = .nil := hnil
  refine ⟨⟨?_, ?_⟩, ?_, ?_⟩
  · rw [hshown]
    exact .of_nil hok hnil
  · rw [hshown]
    rfl
  · unfold Sized sizeLocked
    rw [hroot]
    rfl
  have hnodes : (l.detach pool).1.extents.nodes = [] := by
    unfold ExtentMap.nodes
    rw [hroot]
    rfl
  rw [hnodes]
  exact hperm

end Ledger
end PortableFS.Writeback
