import PortableFS.Locks.Queries

/-!
# Replacing compatible records

Module `volumeserver`, `vcs/internal/volumeserver/locks.go:756–860`, over plain lists of
records. An acquisition without conflict and a release both leave compatible records, and
their effect is read off byte by byte: the requested bytes of the owner get the requested
type, or are cleared, and every other byte keeps what it had.
-/

namespace PortableFS.Locks

open List

/-- Two held records may coexist: they do not conflict, and records of one owner share no byte
and, at equal type, are not even adjacent. -/
def Compatible (a b : Lock) : Prop :=
  conflicts a b = false ∧
    (a.owner = b.owner → Apart a.range b.range ∧ (a.type = b.type → Gapped a.range b.range))

variable {a b : Lock}

theorem Compatible.symm (h : Compatible a b) : Compatible b a := by
  refine ⟨conflicts_comm a b ▸ h.1, fun ho => ?_⟩
  obtain ⟨ha, hg⟩ := h.2 ho.symm
  exact ⟨ha.symm, fun ht => (hg ht.symm).symm⟩

/-- Records of different owners are compatible when they do not conflict. -/
theorem compatible_of_ne (h : conflicts a b = false) (ho : a.owner ≠ b.owner) : Compatible a b :=
  ⟨h, fun he => absurd he ho⟩

/-- Records of one owner are compatible when they are apart, and gapped at equal type. -/
theorem compatible_of_eq (ho : a.owner = b.owner) (ha : Apart a.range b.range)
    (hg : a.type = b.type → Gapped a.range b.range) : Compatible a b := by
  refine ⟨?_, fun _ => ⟨ha, hg⟩⟩
  rw [← Bool.not_eq_true, conflicts_iff]
  exact fun h => h.2.1 ho

/-- A conflict-free pair that clashes is apart. -/
theorem apart_of_not_conflicts (h : conflicts a b = false) (ho : a.owner ≠ b.owner)
    (hf : a.owner.flock = b.owner.flock) (hc : Clash a.type b.type) : Apart a.range b.range := by
  rw [apart_iff, ← Bool.not_eq_true]
  intro hov
  rw [← Bool.not_eq_true, conflicts_iff] at h
  exact h ⟨hf, ho, hov, hc⟩

/-- A piece of a record is compatible with whatever the record is compatible with. -/
theorem Compatible.within {a' : Lock} (h : Compatible a b) (ho : a'.owner = a.owner)
    (ht : a'.type = a.type) (hw : Within a'.range a.range) : Compatible a' b := by
  by_cases hab : a.owner = b.owner
  · obtain ⟨ha, hg⟩ := h.2 hab
    exact compatible_of_eq (ho.trans hab) (ha.within hw) fun hb => (hg (ht ▸ hb)).within hw
  refine compatible_of_ne ?_ (ho ▸ hab)
  rw [← Bool.not_eq_true, conflicts_iff]
  rintro ⟨hf, _, hov, hc⟩
  have hap := (apart_of_not_conflicts h.1 hab (ho ▸ hf) (ht ▸ hc)).within hw
  rw [apart_iff] at hap
  simp [hap] at hov

/-- Held records of one object that may coexist. -/
structure HeldOk (held : List Lock) : Prop where
  valid : ∀ l ∈ held, l.range.start ≤ l.range.stop
  compatible : held.Pairwise Compatible

variable {l l' : List Lock}

theorem HeldOk.perm (h : HeldOk l) (hp : l.Perm l') : HeldOk l' :=
  ⟨fun x hx => h.valid x (hp.mem_iff.mpr hx), (hp.pairwise_iff Compatible.symm).mp h.compatible⟩

/-- Some record gives the owner this type at the byte. -/
def HeldAt (held : List Lock) (owner : LockOwner) (ty : LockType) (x : Nat) : Prop :=
  ∃ l ∈ held, l.owner = owner ∧ l.type = ty ∧ x ∈ l.range

variable {x : Nat}

theorem HeldAt.perm (hp : l.Perm l') {owner : LockOwner} {ty : LockType}
    : HeldAt l owner ty x ↔ HeldAt l' owner ty x := by
  simp only [HeldAt, hp.mem_iff]

variable {held : List Lock}

/-- Records of one owner that share a byte are one record. -/
theorem HeldOk.eq_of_mem (h : HeldOk held) (ha : a ∈ held) (hb : b ∈ held)
    (ho : a.owner = b.owner) (hax : x ∈ a.range) (hbx : x ∈ b.range) : a = b := by
  have : Std.Symm Compatible := ⟨fun _ _ h => h.symm⟩
  by_contra hab
  have hap := ((h.compatible.forall ha hb hab).2 ho).1
  rw [LockRange.mem_iff] at hax hbx
  unfold Apart at hap
  omega

/-- Two ranges share a byte or follow each other without a gap. -/
def Touches (a b : LockRange) : Prop := overlaps a b = true ∨ adjacent a b = true

/-- The merged lock grew from `m` to `m'` over the pieces of `keep` that are not in `keep'`. -/
structure Absorbed (m : Lock) (keep : List Lock) (m' : Lock) (keep' : List Lock) : Prop where
  same : m' = { m with range := m'.range }
  sublist : keep'.Sublist keep
  grows : Within m.range m'.range
  kept : ∀ c ∈ keep, c ∈ keep' ∨ c.type = m.type ∧ Within c.range m'.range
  closed : ∀ P : LockRange → Prop, (∀ a b, P a → P b → Touches a b → P (coverRange a b)) →
    P m.range → (∀ c ∈ keep, c.type = m.type → P c.range) → P m'.range

theorem Within.trans {a b c : LockRange} (h1 : Within a b) (h2 : Within b c) : Within a c := by
  unfold Within at *
  omega

theorem within_coverRange_left (a b : LockRange) : Within a (coverRange a b) := by
  unfold Within
  rw [coverRange_start, coverRange_stop]
  omega

theorem within_coverRange_right (a b : LockRange) : Within b (coverRange a b) := by
  unfold Within
  rw [coverRange_start, coverRange_stop]
  omega

theorem Within.mem {a b : LockRange} (h : Within a b) (hx : x ∈ a) : x ∈ b := by
  rw [LockRange.mem_iff] at *
  unfold Within at h
  omega

namespace Absorbed

theorem refl (m : Lock) (keep : List Lock) : Absorbed m keep m keep where
  same := rfl
  sublist := List.Sublist.refl keep
  grows := ⟨le_rfl, le_rfl⟩
  kept _ hc := .inl hc
  closed _ _ hm _ := hm

variable {m' : Lock} {keep' : List Lock} {m : Lock} {keep : List Lock}

theorem type_eq (h : Absorbed m keep m' keep') : m'.type = m.type := by
  rw [h.same]

theorem owner_eq (h : Absorbed m keep m' keep') : m'.owner = m.owner := by
  rw [h.same]

theorem trans {m'' : Lock} {keep'' : List Lock} (h1 : Absorbed m keep m' keep')
    (h2 : Absorbed m' keep' m'' keep'') :
    Absorbed m keep m'' keep'' where
  same := by
    rw [h2.same, h1.same]
  sublist := h2.sublist.trans h1.sublist
  grows := h1.grows.trans h2.grows
  kept c hc := by
    rcases h1.kept c hc with hc | ⟨ht, hw⟩
    · rcases h2.kept c hc with hc | ⟨ht, hw⟩
      · exact .inl hc
      · exact .inr ⟨ht.trans h1.type_eq, hw⟩
    · exact .inr ⟨ht, hw.trans h2.grows⟩
  closed P hP hm hk := by
    apply h2.closed P hP (h1.closed P hP hm hk)
    intro c hc ht
    exact hk c (h1.sublist.subset hc) (ht.trans h1.type_eq)

/-- A piece that is passed over stays. -/
theorem cons (c : Lock) (h : Absorbed m keep m' keep') :
    Absorbed m (c :: keep) m' (c :: keep') where
  same := h.same
  sublist := h.sublist.cons_cons c
  grows := h.grows
  kept d hd := by
    rcases mem_cons.mp hd with rfl | hd
    · exact .inl mem_cons_self
    · exact (h.kept d hd).imp (mem_cons_of_mem c) id
  closed P hP hm hk := h.closed P hP hm fun d hd => hk d (mem_cons_of_mem c hd)

/-- A touching piece of the same type is absorbed. -/
theorem single {c : Lock} (keep : List Lock) (ht : c.type = m.type)
    (htouch : Touches m.range c.range) :
    Absorbed m (c :: keep) { m with range := coverRange m.range c.range } keep where
  same := rfl
  sublist := sublist_cons_self c keep
  grows := within_coverRange_left _ _
  kept d hd := by
    rcases mem_cons.mp hd with rfl | hd
    · exact .inr ⟨ht, within_coverRange_right _ _⟩
    · exact .inl hd
  closed P hP hm hk := hP _ _ hm (hk c mem_cons_self ht) htouch

end Absorbed

private theorem touches_comm {a b : LockRange} :
    (overlaps a b || adjacent a b) = true ↔ Touches b a := by
  rw [Bool.or_eq_true, overlaps_comm, adjacent_iff, Touches, adjacent_iff]
  tauto

variable {m : Lock} {m' : Lock} {keep keep' : List Lock}

/-- One pass absorbs; it reports whether it did, and a pass that did nothing found nothing
left to absorb. -/
theorem absorbPass_spec {absorbed : Bool} (hr : absorbPass m keep = (m', keep', absorbed)) :
    Absorbed m keep m' keep' ∧ (absorbed = true → keep'.length < keep.length) ∧
      (absorbed = false → m' = m ∧ keep' = keep ∧
        ∀ c ∈ keep, c.type = m.type → ¬ Touches m.range c.range) := by
  induction keep generalizing m m' keep' absorbed with
  | nil =>
    cases hr
    exact ⟨.refl m [], by simp, by simp⟩
  | cons c cs ih =>
    unfold absorbPass at hr
    split at hr
    · next h =>
      rw [Bool.and_eq_true, decide_eq_true_eq, touches_comm] at h
      cases hp : absorbPass { m with range := coverRange m.range c.range } cs with
      | mk m1 rest =>
        rw [hp] at hr
        cases hr
        obtain ⟨habs, _, _⟩ := ih hp
        refine ⟨(Absorbed.single cs h.1 h.2).trans habs, ?_, by simp⟩
        intro _
        have := habs.sublist.length_le
        simp only [length_cons]
        omega
    · next h =>
      rw [Bool.and_eq_true, decide_eq_true_eq, touches_comm] at h
      cases hp : absorbPass m cs with
      | mk m1 rest =>
        rw [hp] at hr
        cases hr
        obtain ⟨habs, hlt, hdone⟩ := ih hp
        refine ⟨habs.cons c, ?_, ?_⟩
        · intro hf
          have := hlt hf
          simp only [length_cons]
          omega
        intro hf
        obtain ⟨h1, h2, h3⟩ := hdone hf
        refine ⟨h1, by rw [h2], ?_⟩
        intro d hd ht
        rcases mem_cons.mp hd with rfl | hd
        · exact fun htouch => h ⟨ht, htouch⟩
        · exact h3 d hd ht

/-- With a pass to spare for every piece, absorption ends with nothing left to absorb. -/
theorem absorb_spec {fuel : Nat} (hf : keep.length < fuel) (hr : absorb fuel m keep = (m', keep')) :
    Absorbed m keep m' keep' ∧ ∀ c ∈ keep', c.type = m.type → ¬ Touches m'.range c.range := by
  induction fuel generalizing m keep with
  | zero => omega
  | succ fuel ih =>
    unfold absorb at hr
    split at hr
    · next m1 keep1 h =>
      obtain ⟨habs, hlt, _⟩ := absorbPass_spec h
      have hlen := hlt rfl
      obtain ⟨hrest, hend⟩ := ih (by omega) hr
      refine ⟨habs.trans hrest, ?_⟩
      intro c hc ht
      exact hend c hc (ht.trans habs.type_eq.symm)
    · next m1 keep1 h =>
      cases hr
      obtain ⟨habs, _, hdone⟩ := absorbPass_spec h
      obtain ⟨rfl, rfl, hnone⟩ := hdone rfl
      exact ⟨habs, hnone⟩

/-- The record is replaced by the acquisition; the filters of `locks.go:791–802`. -/
def replaced (next l : Lock) : Bool :=
  decide (l.owner = next.owner) && (overlaps l.range next.range ||
    (decide (l.type = next.type) && adjacent l.range next.range))

/-- What the replaced records leave behind. -/
def pieces (next : Lock) (held : List Lock) : List Lock :=
  (held.filter (replaced next)).flatMap (acquireKeeps next)

variable {l : Lock} {c next : Lock}

theorem mem_acquireKeeps (hv : l.range.start ≤ l.range.stop) (h : c ∈ acquireKeeps next l) :
    c.object = l.object ∧ c.owner = l.owner ∧ c.type = l.type ∧
      c.range.start ≤ c.range.stop ∧ Within c.range l.range ∧ Apart c.range next.range := by
  unfold acquireKeeps at h
  split at h
  · next ho => exact of_mem_subtractLock ho h
  next ho =>
  rw [mem_singleton] at h
  subst h
  rw [Bool.not_eq_true] at ho
  exact ⟨rfl, rfl, rfl, hv, ⟨le_rfl, le_rfl⟩, apart_iff.mpr ho⟩

/-- Pieces cover what the record covered outside the request. -/
theorem exists_mem_acquireKeeps (hx : x ∈ l.range) (hn : x ∉ next.range) :
    ∃ c ∈ acquireKeeps next l, x ∈ c.range := by
  unfold acquireKeeps
  split
  · next ho => exact (mem_subtractLock_bytes ho).mpr ⟨hx, hn⟩
  · exact ⟨l, mem_singleton_self l, hx⟩

/-- Compatibility with a third record survives growing over a touching range. -/
theorem Compatible.cover {a b : LockRange} (ha : Compatible { m with range := a } l)
    (hb : Compatible { m with range := b } l)
    (hav : a.start ≤ a.stop) (hbv : b.start ≤ b.stop) (hlv : l.range.start ≤ l.range.stop)
    (ht : Touches a b) : Compatible { m with range := coverRange a b } l := by
  by_cases ho : m.owner = l.owner
  · obtain ⟨ha1, ha2⟩ := ha.2 ho
    obtain ⟨hb1, hb2⟩ := hb.2 ho
    exact compatible_of_eq ho (ha1.cover hb1 hav hbv hlv ht)
      fun hty => (ha2 hty).cover (hb2 hty) hav hbv hlv ht
  refine compatible_of_ne ?_ ho
  rw [← Bool.not_eq_true, conflicts_iff]
  rintro ⟨hf, _, hov, hc⟩
  have ha := apart_of_not_conflicts ha.1 ho hf hc
  have hb := apart_of_not_conflicts hb.1 ho hf hc
  have hcov := ha.cover hb hav hbv hlv ht
  rw [apart_iff] at hcov
  simp [hcov] at hov

section Acquire

variable {held : List Lock} {next m : Lock} {keep : List Lock}
variable (hok : HeldOk held) (hv : next.range.start ≤ next.range.stop)
variable (hc : ∀ l ∈ held, conflicts next l = false)
variable (habs : Absorbed next (pieces next held) m keep)

include hok in
theorem of_mem_pieces (h : c ∈ pieces next held) :
    ∃ l ∈ held, replaced next l = true ∧ l.owner = next.owner ∧ c.object = l.object ∧
      c.owner = next.owner ∧ c.type = l.type ∧ c.range.start ≤ c.range.stop ∧
      Within c.range l.range ∧ Apart c.range next.range := by
  obtain ⟨l, hl, hcl⟩ := mem_flatMap.mp h
  obtain ⟨hl, hr⟩ := mem_filter.mp hl
  obtain ⟨h1, h2, h3, h4, h5, h6⟩ := mem_acquireKeeps (hok.valid l hl) hcl
  have ho : l.owner = next.owner := by
    unfold replaced at hr
    simp only [Bool.and_eq_true, decide_eq_true_eq] at hr
    exact hr.1
  exact ⟨l, hl, hr, ho, h1, h2.trans ho, h3, h4, h5, h6⟩

include hok in
private theorem compatible_of_filter {p : Lock → Bool} (ha : a ∈ held) (hb : b ∈ held)
    (hpa : p a = true) (hpb : p b = false) : Compatible a b := by
  have : Std.Symm Compatible := ⟨fun _ _ h => h.symm⟩
  apply hok.compatible.forall ha hb
  rintro rfl
  simp [hpa] at hpb

include hok hv in
private theorem pairwise_pieces : (pieces next held).Pairwise Compatible := by
  unfold pieces
  rw [pairwise_flatMap]
  constructor
  · intro l hl
    unfold acquireKeeps
    split
    · next ho =>
      apply (pairwise_subtractLock l hv).imp_of_mem
      intro a b ha hb hg
      obtain ⟨_, hao, _⟩ := of_mem_subtractLock ho ha
      obtain ⟨_, hbo, _⟩ := of_mem_subtractLock ho hb
      exact compatible_of_eq (hao.trans hbo.symm) hg.apart fun _ => hg
    · exact pairwise_singleton _ l
  · apply (hok.compatible.filter _).imp_of_mem
    intro a b ha hb hab x hx y hy
    obtain ⟨_, hxo, hxt, _, hxw, _⟩ := mem_acquireKeeps (hok.valid a (mem_filter.mp ha).1) hx
    obtain ⟨_, hyo, hyt, _, hyw, _⟩ := mem_acquireKeeps (hok.valid b (mem_filter.mp hb).1) hy
    exact ((hab.within hxo hxt hxw).symm.within hyo hyt hyw).symm

-- What the request and every piece of its type are compatible with, the merged lock is too.
include hok hv habs in
private theorem compatible_merged (hlv : l.range.start ≤ l.range.stop) (hn : Compatible next l)
    (hp : ∀ c ∈ pieces next held, c.type = next.type → Compatible c l) : Compatible m l := by
  have hm := habs.closed
    (fun r => r.start ≤ r.stop ∧ Compatible { next with range := r } l) ?_ ⟨hv, hn⟩ ?_
  · rw [habs.same]
    exact hm.2
  · rintro a b ⟨hav, ha⟩ ⟨hbv, hb⟩ ht
    refine ⟨?_, ha.cover hb hav hbv hlv ht⟩
    rw [coverRange_start, coverRange_stop]
    omega
  · intro c hc ht
    obtain ⟨_, _, _, _, _, hco, _, hcv, _⟩ := of_mem_pieces hok hc
    exact ⟨hcv, (hp c hc ht).within hco.symm ht.symm ⟨le_rfl, le_rfl⟩⟩

include hc in
private theorem compatible_next (hl : l ∈ held) (hr : replaced next l = false) :
    Compatible next l := by
  by_cases ho : l.owner = next.owner
  · simp only [replaced, ho, decide_true, Bool.true_and, Bool.or_eq_false_iff,
      Bool.and_eq_false_iff, decide_eq_false_iff_not] at hr
    have hap := apart_iff.mpr hr.1
    refine (compatible_of_eq ho hap fun ht => ?_).symm
    rcases hr.2 with hn | hn
    · exact absurd ht hn
    · exact gapped_of_not_adjacent hap hn
  · exact compatible_of_ne (hc l hl) (Ne.symm ho)

include hv habs in
private theorem merged_valid : m.range.start ≤ m.range.stop := by
  have hg := habs.grows
  unfold Within at hg
  omega

include hok hv hc habs in
/-- An acquisition without conflict leaves compatible records. -/
theorem heldOk_acquire (hend : ∀ c ∈ keep, c.type = next.type → ¬ Touches m.range c.range) :
    HeldOk (held.filter (fun l => !replaced next l) ++ (keep ++ [m])) := by
  have hpieces := pairwise_pieces hok hv
  have hrest : ∀ l ∈ held.filter (fun l => !replaced next l), l ∈ held ∧ replaced next l = false := by
    intro l hl
    simpa using mem_filter.mp hl
  have hpc : ∀ c ∈ pieces next held, ∀ l ∈ held, replaced next l = false → Compatible c l := by
    intro c hc l hl hr
    obtain ⟨h, hh, hhr, hho, _, hco, hct, _, hcw, _⟩ := of_mem_pieces hok hc
    exact (compatible_of_filter hok hh hl hhr hr).within (hco.trans hho.symm) hct hcw
  constructor
  · intro l hl
    rw [mem_append, mem_append, mem_singleton] at hl
    rcases hl with hl | hl | rfl
    · exact hok.valid l (hrest l hl).1
    · obtain ⟨_, _, _, _, _, _, _, hlv, _⟩ := of_mem_pieces hok (habs.sublist.subset hl)
      exact hlv
    · exact merged_valid hv habs
  · rw [pairwise_append, pairwise_append]
    refine ⟨hok.compatible.filter _, ⟨hpieces.sublist habs.sublist, pairwise_singleton _ m, ?_⟩, ?_⟩
    · -- a kept piece of the request's type no longer touches; one of another type never did
      intro c hck m' hm'
      rw [mem_singleton] at hm'
      subst hm'
      have hcp := habs.sublist.subset hck
      obtain ⟨_, _, _, _, _, hco, _, hcv, _, hca⟩ := of_mem_pieces hok hcp
      apply Compatible.symm
      by_cases ht : c.type = next.type
      · have hn := hend c hck ht
        unfold Touches at hn
        simp only [not_or, Bool.not_eq_true] at hn
        have hap := apart_iff.mpr hn.1
        exact compatible_of_eq (habs.owner_eq.trans hco.symm) hap
          fun _ => gapped_of_not_adjacent hap hn.2
      · apply compatible_merged hok hv habs hcv
        · exact compatible_of_eq hco.symm hca.symm fun h => absurd h.symm ht
        intro d hd hdt
        have : Std.Symm Compatible := ⟨fun _ _ h => h.symm⟩
        apply hpieces.forall hd hcp
        rintro rfl
        exact ht hdt
    · intro l hl c hcm
      obtain ⟨hlh, hlr⟩ := hrest l hl
      rw [mem_append, mem_singleton] at hcm
      rcases hcm with hck | rfl
      · exact (hpc c (habs.sublist.subset hck) l hlh hlr).symm
      · apply Compatible.symm
        exact compatible_merged hok hv habs (hok.valid l hlh) (compatible_next hc hlh hlr)
          fun d hd _ => hpc d hd l hlh hlr

include hok hv habs in
/-- The owner gets exactly the requested type on exactly the requested bytes. -/
theorem heldAt_acquire (owner : LockOwner) (ty : LockType) (x : Nat) :
    HeldAt (held.filter (fun l => !replaced next l) ++ (keep ++ [m])) owner ty x ↔
      if owner = next.owner ∧ x ∈ next.range then ty = next.type else HeldAt held owner ty x := by
  constructor
  · rintro ⟨l, hl, rfl, rfl, hx⟩
    rw [mem_append, mem_append, mem_singleton] at hl
    rcases hl with hl | hl | rfl
    · obtain ⟨hlh, hlr⟩ := mem_filter.mp hl
      rw [if_neg]
      · exact ⟨l, hlh, rfl, rfl, hx⟩
      · rintro ⟨ho, hxn⟩
        have hov := (overlaps_iff_exists (hok.valid l hlh) hv).mpr ⟨x, hx, hxn⟩
        simp [replaced, ho, hov] at hlr
    · obtain ⟨h, hh, _, hho, _, hlo, hlt, _, hlw, hla⟩ := of_mem_pieces hok (habs.sublist.subset hl)
      rw [if_neg]
      · exact ⟨h, hh, hho.trans hlo.symm, hlt.symm, hlw.mem hx⟩
      · rintro ⟨_, hxn⟩
        rw [LockRange.mem_iff] at hx hxn
        unfold Apart at hla
        omega
    split
    · exact habs.type_eq
    next hn =>
    rw [habs.owner_eq, habs.type_eq]
    rw [habs.owner_eq] at hn
    -- bytes of the merged lock come from the request or from a record of its type
    have hm := habs.closed (fun r => r.start ≤ r.stop ∧
      ∀ y ∈ r, y ∈ next.range ∨ HeldAt held next.owner next.type y) ?_ ⟨hv, fun y hy => .inl hy⟩ ?_
    · exact (hm.2 x hx).resolve_left fun hxn => hn ⟨rfl, hxn⟩
    · rintro a b ⟨hav, ha⟩ ⟨hbv, hb⟩ ht
      constructor
      · rw [coverRange_start, coverRange_stop]
        omega
      · intro y hy
        exact ((mem_coverRange_iff hav hbv ht).mp hy).elim (ha y) (hb y)
    · intro c hcp hct
      obtain ⟨h, hh, _, hho, _, _, hctype, hcv, hcw, _⟩ := of_mem_pieces hok hcp
      exact ⟨hcv, fun y hy => .inr ⟨h, hh, hho, hctype.symm.trans hct, hcw.mem hy⟩⟩
  · split
    · next h =>
      rintro rfl
      refine ⟨m, by simp, habs.owner_eq.trans h.1.symm, habs.type_eq, habs.grows.mem h.2⟩
    next hn =>
    rintro ⟨l, hl, rfl, rfl, hx⟩
    cases hr : replaced next l with
    | false => exact ⟨l, by simp [hl, hr], rfl, rfl, hx⟩
    | true =>
      have hlo : l.owner = next.owner := by
        simp only [replaced, Bool.and_eq_true, decide_eq_true_eq] at hr
        exact hr.1
      obtain ⟨c, hcl, hxc⟩ := exists_mem_acquireKeeps hx fun hxn => hn ⟨hlo, hxn⟩
      obtain ⟨_, hco, hct, _⟩ := mem_acquireKeeps (hok.valid l hl) hcl
      have hcp : c ∈ pieces next held :=
        mem_flatMap.mpr ⟨l, mem_filter.mpr ⟨hl, hr⟩, hcl⟩
      rcases habs.kept c hcp with hck | ⟨hctn, hcw⟩
      · exact ⟨c, by simp [hck], hco, hct, hxc⟩
      · exact ⟨m, by simp, habs.owner_eq.trans hlo.symm,
          habs.type_eq.trans (hctn.symm.trans hct), hcw.mem hxc⟩

end Acquire

/-- The record is cut by the release; the filter of `locks.go:845–850`. -/
def released (owner : LockOwner) (r : LockRange) (l : Lock) : Bool :=
  decide (l.owner = owner) && overlaps l.range r

variable {r : LockRange}

/-- A release leaves compatible records. -/
theorem heldOk_release (hok : HeldOk held) (owner : LockOwner) (hv : r.start ≤ r.stop) :
    HeldOk (held.filter (fun l => !released owner r l) ++
      (held.filter (released owner r)).flatMap fun l => subtractLock l r) := by
  have hcut : ∀ l ∈ held.filter (released owner r), l ∈ held ∧ overlaps l.range r = true := by
    intro l hl
    simp only [mem_filter, released, Bool.and_eq_true] at hl
    exact ⟨hl.1, hl.2.2⟩
  constructor
  · intro c hc
    rcases mem_append.mp hc with hc | hc
    · exact hok.valid c (mem_filter.mp hc).1
    · obtain ⟨l, hl, hcl⟩ := mem_flatMap.mp hc
      obtain ⟨_, _, _, hcv, _⟩ := of_mem_subtractLock (hcut l hl).2 hcl
      exact hcv
  · rw [pairwise_append, pairwise_flatMap]
    refine ⟨hok.compatible.filter _, ⟨?_, ?_⟩, ?_⟩
    · intro l hl
      apply (pairwise_subtractLock l hv).imp_of_mem
      intro a b ha hb hg
      obtain ⟨_, hao, _⟩ := of_mem_subtractLock (hcut l hl).2 ha
      obtain ⟨_, hbo, _⟩ := of_mem_subtractLock (hcut l hl).2 hb
      exact compatible_of_eq (hao.trans hbo.symm) hg.apart fun _ => hg
    · apply (hok.compatible.filter _).imp_of_mem
      intro a b ha hb hab x hx y hy
      obtain ⟨_, hxo, hxt, _, hxw, _⟩ := of_mem_subtractLock (hcut a ha).2 hx
      obtain ⟨_, hyo, hyt, _, hyw, _⟩ := of_mem_subtractLock (hcut b hb).2 hy
      exact ((hab.within hxo hxt hxw).symm.within hyo hyt hyw).symm
    · intro l hl c hc
      obtain ⟨hlh, hlr⟩ := mem_filter.mp hl
      rw [Bool.not_eq_true'] at hlr
      obtain ⟨h, hh, hch⟩ := mem_flatMap.mp hc
      obtain ⟨_, hco, hct, _, hcw, _⟩ := of_mem_subtractLock (hcut h hh).2 hch
      have hhr := (mem_filter.mp hh).2
      have hcompat := compatible_of_filter hok (hcut h hh).1 hlh hhr hlr
      exact (hcompat.within hco hct hcw).symm

/-- A release clears exactly the owner's bytes in the range. -/
theorem heldAt_release (hok : HeldOk held) (owner : LockOwner)
    (hv : r.start ≤ r.stop) (o : LockOwner) (ty : LockType) (x : Nat) :
    HeldAt (held.filter (fun l => !released owner r l) ++
        (held.filter (released owner r)).flatMap fun l => subtractLock l r) o ty x ↔
      ¬ (o = owner ∧ x ∈ r) ∧ HeldAt held o ty x := by
  constructor
  · rintro ⟨c, hc, rfl, rfl, hx⟩
    rcases mem_append.mp hc with hc | hc
    · obtain ⟨hch, hcr⟩ := mem_filter.mp hc
      refine ⟨?_, c, hch, rfl, rfl, hx⟩
      rintro ⟨ho, hxr⟩
      have hov := (overlaps_iff_exists (hok.valid c hch) hv).mpr ⟨x, hx, hxr⟩
      simp [released, ho, hov] at hcr
    · obtain ⟨l, hl, hcl⟩ := mem_flatMap.mp hc
      obtain ⟨hlh, hlr⟩ := mem_filter.mp hl
      simp only [released, Bool.and_eq_true] at hlr
      obtain ⟨_, hco, hct, _, _, _⟩ := of_mem_subtractLock hlr.2 hcl
      obtain ⟨hxl, hxr⟩ := (mem_subtractLock_bytes hlr.2).mp ⟨c, hcl, hx⟩
      exact ⟨fun h => hxr h.2, l, hlh, hco.symm, hct.symm, hxl⟩
  · rintro ⟨hn, l, hl, rfl, rfl, hx⟩
    cases hr : released owner r l with
    | false => exact ⟨l, by simp [hl, hr], rfl, rfl, hx⟩
    | true =>
      have hr' := hr
      simp only [released, Bool.and_eq_true, decide_eq_true_eq] at hr'
      obtain ⟨c, hcl, hxc⟩ := (mem_subtractLock_bytes hr'.2).mpr ⟨hx, fun hxr => hn ⟨hr'.1, hxr⟩⟩
      obtain ⟨_, hco, hct, _⟩ := of_mem_subtractLock hr'.2 hcl
      refine ⟨c, mem_append_right _ ?_, hco, hct, hxc⟩
      exact mem_flatMap.mpr ⟨l, mem_filter.mpr ⟨hl, hr⟩, hcl⟩

end PortableFS.Locks
