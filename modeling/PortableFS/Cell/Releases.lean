import PortableFS.Base.Reader
import PortableFS.Cell.Helper

/-!
# Releases of placements

What a pass of the helper does to one volume: its entry of the plan keeps or makes the assignment,
or releases it; a volume without an entry stays. A release leaves a tombstone, and a later
assignment of the volume is above it.
-/

namespace PortableFS.Cell

open Base List

variable {r : Reconciler} {plan : Plan} {host : Host} {state state' : State} {volume : VolumePlan}
  {observed : VolumeObservation} {observations : List VolumeObservation}

/-- The assignment and the tombstone of a volume. -/
def State.view (state : State) (id : Text) : Option Assignment × Option Tombstone :=
  (state.assignments.lookup id, state.tombstones.lookup id)

/-- What an entry of a plan does to the assignment and the tombstone of its volume. -/
inductive Entry (volume : VolumePlan) :
    Option Assignment × Option Tombstone → Option Assignment × Option Tombstone → Prop
  | released (a : Assignment) (t : Option Tombstone) (proof : ReleaseProof) (d : DestroyProof)
      (hphase : volume.phase = .release) (hproof : volume.releaseProof = some proof)
      (hsequence : proof.placementSequence = a.placementSequence)
      (hepoch : proof.authorityEpoch = a.authorityGeneration) (hdestroyed : a.destroyProof = some d)
      (hsha : d.sha256 = proof.destroyProofSHA256) :
      Entry volume (some a, t) (none, some ⟨volume.volumeID, proof.placementSequence,
        proof.authorityEpoch, proof.destroyProofSHA256⟩)
  | again (t : Tombstone) (hphase : volume.phase = .release) :
      Entry volume (none, some t) (none, some t)
  | kept (a a' : Assignment) (t : Option Tombstone) (hphase : volume.phase ≠ .release)
      (hsequence : a'.placementSequence = a.placementSequence) :
      Entry volume (some a, t) (some a', t)
  | assigned (a : Assignment) (t : Option Tombstone) (hphase : volume.phase ≠ .release)
      (hsequence : a.placementSequence = volume.sequence) : Entry volume (none, t) (some a, t)

theorem applyRelease_entry (hphase : volume.phase = .release)
    (h : applyRelease volume state = .ok (state', observed)) :
    Entry volume (state.view volume.volumeID) (state'.view volume.volumeID) ∧
      ∀ id ≠ volume.volumeID, state'.view id = state.view id := by
  unfold applyRelease at h
  split at h
  · cases h
  next proof hproof =>
  split at h
  · next a ha =>
    split at h
    · next hmatch =>
      cases h
      obtain ⟨hsequence, hepoch, hsha⟩ := hmatch
      obtain ⟨d, hd, hsha⟩ := Option.map_eq_some_iff.mp hsha
      constructor
      · simp only [State.view, ha, AList.lookup_erase, AList.lookup_insert]
        exact .released a _ proof d hphase hproof hsequence hepoch hd hsha
      · intro id hid
        simp only [State.view, AList.lookup_erase_ne hid, AList.lookup_insert_ne hid]
    · cases h
  · next ha =>
    split at h
    · next hmatch =>
      cases h
      refine ⟨?_, fun _ _ => rfl⟩
      cases ht : state.tombstones.lookup volume.volumeID with
      | none =>
        rw [ht] at hmatch
        cases hmatch
      | some t =>
        rw [State.view, ha, ht]
        exact .again t hphase
    · cases h

theorem applyVolume_entry (h : r.applyVolume plan host state volume = .ok (state', observed)) :
    Entry volume (state.view volume.volumeID) (state'.view volume.volumeID) ∧
      ∀ id ≠ volume.volumeID, state'.view id = state.view id := by
  unfold Reconciler.applyVolume at h
  split at h
  · next hphase =>
    cases hrelease : applyRelease volume state with
    | error err =>
      rw [hrelease] at h
      cases h
    | ok result =>
      rw [hrelease] at h
      cases h
      exact applyRelease_entry hphase hrelease
  · next hphase =>
    cases h
    constructor
    · simp only [State.view, AList.lookup_insert]
      cases hprevious : state.assignments.lookup volume.volumeID with
      | none => exact .assigned _ _ hphase rfl
      | some a => exact .kept a _ _ hphase rfl
    · intro id hid
      simp only [State.view, AList.lookup_insert_ne hid]

theorem applyVolumes_entries {volumes : List VolumePlan}
    (h : r.applyVolumes plan host state volumes = .ok (state', observations))
    (hnodup : (volumes.map (·.volumeID)).Nodup) :
    (∀ volume ∈ volumes, Entry volume (state.view volume.volumeID) (state'.view volume.volumeID)) ∧
    ∀ id ∉ volumes.map (·.volumeID), state'.view id = state.view id := by
  induction volumes generalizing state observations with
  | nil =>
    cases h
    exact ⟨nofun, fun _ _ => rfl⟩
  | cons first rest ih =>
    rw [map_cons, nodup_cons] at hnodup
    rw [Reconciler.applyVolumes] at h
    obtain ⟨⟨middle, observed⟩, hfirst, h⟩ := bind_eq_ok.mp h
    obtain ⟨⟨last, others⟩, hrest, h⟩ := bind_eq_ok.mp h
    cases h
    obtain ⟨hentry, hsame⟩ := applyVolume_entry hfirst
    obtain ⟨hentries, hothers⟩ := ih hrest hnodup.2
    constructor
    · intro volume hmem
      rcases mem_cons.mp hmem with rfl | hmem
      · rwa [hothers _ hnodup.1]
      · have hne : volume.volumeID ≠ first.volumeID := fun heq =>
          hnodup.1 (heq ▸ mem_map_of_mem hmem)
        rw [← hsame _ hne]
        exact hentries volume hmem
    · intro id hid
      rw [map_cons, mem_cons, not_or] at hid
      rw [hothers id hid.2, hsame id hid.1]

variable {cellID : Text}

theorem validateVolume_sequence (h : validateVolume state cellID volume = .ok ())
    (hphase : volume.phase ≠ .release) :
    (∀ a, state.assignments.lookup volume.volumeID = some a →
      a.placementSequence = volume.sequence) ∧
    (state.assignments.lookup volume.volumeID = none → ∀ t,
      state.tombstones.lookup volume.volumeID = some t → t.placementSequence < volume.sequence) := by
  unfold validateVolume at h
  split at h
  · next previous hprevious =>
    refine ⟨fun a ha => ?_, fun hnone => absurd (hprevious.symm.trans hnone) nofun⟩
    rw [hprevious] at ha
    cases ha
    unfold immutableAssignmentMatches at h
    split at h
    · cases h
    · next hsame =>
      rw [not_or, not_not] at hsame
      exact congrArg Placement.placementSequence hsame.1
  · next hnone =>
    refine ⟨fun a ha => absurd (hnone.symm.trans ha) nofun, fun _ t ht => ?_⟩
    rw [if_neg hphase, ht] at h
    split at h
    · cases h
    · next habove => exact UInt64.not_le.mp fun hle => habove (decide_eq_true hle)

theorem validatePlanTransition_ok (h : validatePlanTransition plan state cellID = .ok ()) :
    (∀ volume ∈ plan.volumes, validateVolume state cellID volume = .ok ()) ∧
    ∀ id a, state.assignments.lookup id = some a →
      id ∈ plan.volumes.map (·.volumeID) ∨ ∃ t, state.tombstones.lookup id = some t := by
  unfold validatePlanTransition at h
  obtain ⟨_, hvolumes, h⟩ := bind_eq_ok.mp h
  constructor
  · clear h
    generalize plan.volumes = volumes at hvolumes
    induction volumes with
    | nil => exact nofun
    | cons first rest ih =>
      rw [forM_eq_forM, forM_cons] at hvolumes
      obtain ⟨_, hfirst, hvolumes⟩ := bind_eq_ok.mp hvolumes
      exact forall_mem_cons.mpr ⟨hfirst, ih hvolumes⟩
  · intro id a ha
    by_contra hmissing
    rw [not_or, not_exists] at hmissing
    split at h
    · cases h
    next hfind =>
    have hkey := List.find?_eq_none.mp hfind id ((Assoc.mem_keys_iff _ id).mpr ⟨a, ha⟩)
    apply hkey
    rw [decide_eq_true_eq]
    exact ⟨hmissing.1, Option.eq_none_iff_forall_ne_some.mpr hmissing.2⟩

/-- A call of `Reconcile`: the opened envelope, the host, the clock, and how saving ends. -/
structure Pass where
  plan : Plan
  digest : Text
  host : Host
  now : ℤ
  save : Save

/-- The assignment and the tombstone of a volume in a state file. -/
def fileView (file : Option State) (id : Text) : Option Assignment × Option Tombstone :=
  (file.elim none fun state => state.assignments.lookup id,
    file.elim none fun state => state.tombstones.lookup id)

/-- The state file after a pass. -/
def Reconciler.after (r : Reconciler) (file : Option State) (p : Pass) : Option State :=
  (r.reconcile p.plan p.digest p.host p.now file p.save).2

/-- A pass whose plan passes every check; the state may still not be saved. -/
def Reconciler.Accepts (r : Reconciler) (file : Option State) (p : Pass) : Prop :=
  ∃ result, r.next p.plan p.digest p.host p.now file = .ok result

/-- The tombstones of the assignments that a pass took out of the state file. -/
def releases (p : Pass) (file file' : Option State) : List Tombstone :=
  p.plan.volumes.filterMap fun volume =>
    if (fileView file volume.volumeID).1.isSome ∧ (fileView file' volume.volumeID).1 = none then
      (fileView file' volume.volumeID).2
    else none

variable {file file' : Option State} {p : Pass}

theorem loadState_view (h : r.loadState file = .ok state) :
    (∀ id, state.view id = fileView file id) ∧
      ∀ stored, file = some stored → r.validateState stored = true := by
  unfold Reconciler.loadState at h
  split at h
  · cases h
    exact ⟨fun _ => rfl, nofun⟩
  split at h
  · next hvalid =>
    cases h
    refine ⟨fun _ => rfl, ?_⟩
    rintro stored ⟨⟩
    exact hvalid
  · cases h

/-- What an accepted plan says of each volume of the file, and does to it. -/
structure Accepted (r : Reconciler) (file : Option State) (p : Pass) (state' : State) : Prop where
  valid : ∀ state, file = some state → r.validateState state = true
  entries : ∀ volume ∈ p.plan.volumes,
    Entry volume (fileView file volume.volumeID) (state'.view volume.volumeID)
  others : ∀ id ∉ p.plan.volumes.map (·.volumeID), state'.view id = fileView file id
  sequences : ∀ volume ∈ p.plan.volumes, volume.phase ≠ .release →
    (∀ a, (fileView file volume.volumeID).1 = some a → a.placementSequence = volume.sequence) ∧
    ((fileView file volume.volumeID).1 = none → ∀ t, (fileView file volume.volumeID).2 = some t →
      t.placementSequence < volume.sequence)
  missing : ∀ id a, (fileView file id).1 = some a → id ∈ p.plan.volumes.map (·.volumeID) ∨
    ∃ t, (fileView file id).2 = some t

theorem next_accepted (h : r.next p.plan p.digest p.host p.now file = .ok (state', observations)) :
    Accepted r file p state' := by
  unfold Reconciler.next at h
  split at h
  · cases h
  next hverify =>
  rw [not_not] at hverify
  have hvalidate : p.plan.validate = true := by
    simp only [Plan.verify, decide_eq_true_eq] at hverify
    exact hverify.2.2.2.2.1
  obtain ⟨state, hload, h⟩ := bind_eq_ok.mp h
  split at h
  · cases h
  obtain ⟨_, htransition, h⟩ := bind_eq_ok.mp h
  obtain ⟨result, hvolumes, h⟩ := bind_eq_ok.mp h
  cases h
  obtain ⟨hchecked, hmissing⟩ := validatePlanTransition_ok htransition
  obtain ⟨hentries, hothers⟩ := applyVolumes_entries hvolumes (Plan.validate_nodup hvalidate)
  obtain ⟨hview, hvalid⟩ := loadState_view hload
  refine ⟨hvalid, ?_, ?_, ?_, ?_⟩
  · intro volume hmem
    rw [← hview]
    exact hentries volume hmem
  · intro id hid
    rw [← hview]
    exact hothers id hid
  · intro volume hmem hphase
    rw [← hview]
    exact validateVolume_sequence (hchecked volume hmem) hphase
  · intro id a ha
    rw [← hview] at ha ⊢
    exact hmissing id a ha

theorem after_cases (r : Reconciler) (file : Option State) (p : Pass) :
    r.after file p = file ∨ ∃ state', r.after file p = some state' ∧ Accepted r file p state' := by
  unfold Reconciler.after Reconciler.reconcile
  split
  · exact .inl rfl
  split
  · exact .inl rfl
  next state volumes hnext =>
  unfold Reconciler.saveState
  dsimp only
  split
  · exact .inl rfl
  · cases p.save with
    | failed => exact .inl rfl
    | replaced | ok => exact .inr ⟨state, rfl, next_accepted hnext⟩

/-- Passes that meet a condition on the state file and the plan, with the tombstones they made. -/
inductive Runs (r : Reconciler) (P : Option State → Plan → Prop) (start : Option State) :
    Option State → List Tombstone → Prop
  | refl : Runs r P start start []
  | pass {file : Option State} {made : List Tombstone} (p : Pass) (hruns : Runs r P start file made)
      (hcond : P file p.plan) :
      Runs r P start (r.after file p) (releases p file (r.after file p) ++ made)

/-- No volume of the plan is assigned, or goes on, under a tombstone. -/
def NotPlacedAgain (file : Option State) (plan : Plan) : Prop :=
  ∀ volume ∈ plan.volumes, volume.phase ≠ .release → (fileView file volume.volumeID).2 = none

instance (file : Option State) (plan : Plan) : Decidable (NotPlacedAgain file plan) :=
  inferInstanceAs (Decidable (∀ volume ∈ plan.volumes, volume.phase ≠ .release → _ = none))

/-- An assignment is above the tombstone of its volume. -/
def Above (file : Option State) : Prop :=
  ∀ id a t, fileView file id = (some a, some t) → t.placementSequence < a.placementSequence

/-- No volume has an assignment and a tombstone. -/
def Apart (file : Option State) : Prop := ∀ id a t, fileView file id ≠ (some a, some t)

/-- A pass leaves a volume as it is, or does what its entry of the plan says. -/
theorem after_view (r : Reconciler) (file : Option State) (p : Pass) (id : Text) :
    fileView (r.after file p) id = fileView file id ∨
      ∃ volume ∈ p.plan.volumes, volume.volumeID = id ∧
        Entry volume (fileView file id) (fileView (r.after file p) id) ∧
        (volume.phase ≠ .release → (fileView file id).1 = none → ∀ t, (fileView file id).2 = some t →
          t.placementSequence < volume.sequence) := by
  rcases after_cases r file p with hsame | ⟨state', hafter, haccepted⟩
  · exact .inl (by rw [hsame])
  rw [hafter]
  by_cases hid : id ∈ p.plan.volumes.map (·.volumeID)
  · obtain ⟨volume, hmem, rfl⟩ := mem_map.mp hid
    exact .inr ⟨volume, hmem, rfl, haccepted.entries volume hmem,
      fun hphase => (haccepted.sequences volume hmem hphase).2⟩
  · exact .inl (haccepted.others id hid)

theorem Above.after (h : Above file) (p : Pass) : Above (r.after file p) := by
  intro id a t hview
  rcases after_view r file p id with hsame | ⟨volume, -, -, hentry, hnew⟩
  · exact h id a t (hsame.symm.trans hview)
  rw [hview] at hentry
  generalize hbefore : fileView file id = before at hentry hnew
  cases hentry with
  | kept a₀ _ _ _ hsequence =>
    rw [hsequence]
    exact h id a₀ t hbefore
  | assigned _ _ hphase hsequence =>
    rw [hsequence]
    exact hnew hphase rfl t rfl

theorem Apart.after (h : Apart file) (hcond : NotPlacedAgain file p.plan) :
    Apart (r.after file p) := by
  intro id a t hview
  rcases after_view r file p id with hsame | ⟨volume, hmem, rfl, hentry, -⟩
  · exact h id a t (hsame.symm.trans hview)
  rw [hview] at hentry
  have hnone := hcond volume hmem
  generalize fileView file volume.volumeID = before at hentry hnone
  cases hentry with
  | kept _ _ _ hphase _ | assigned _ _ hphase _ => cases hnone hphase

variable {id : Text} {t : Tombstone}

/-- A pass only advances the tombstone of a volume. -/
theorem tombstone_after (h : Above file) (p : Pass) (ht : (fileView file id).2 = some t) :
    ∃ t', (fileView (r.after file p) id).2 = some t' ∧
      t.placementSequence ≤ t'.placementSequence := by
  rcases after_view r file p id with hsame | ⟨volume, -, rfl, hentry, -⟩
  · exact ⟨t, by rw [hsame, ht], UInt64.le_refl _⟩
  generalize hbefore : fileView file volume.volumeID = before at hentry ht
  generalize fileView (r.after file p) volume.volumeID = view at hentry
  cases hentry with
  | released a _ proof _ _ _ hsequence _ _ _ =>
    cases ht
    refine ⟨_, rfl, UInt64.le_of_lt ?_⟩
    rw [hsequence]
    exact h _ a t hbefore
  | again | kept | assigned => exact ⟨t, ht, UInt64.le_refl _⟩

theorem mem_releases {file' : Option State} (h : t ∈ releases p file file') :
    ∃ id, (fileView file' id).2 = some t ∧ (fileView file id).1.isSome ∧
      (fileView file' id).1 = none := by
  obtain ⟨volume, -, hsome⟩ := mem_filterMap.mp h
  split at hsome
  · next hcond => exact ⟨volume.volumeID, hsome, hcond.1, hcond.2⟩
  · cases hsome

/-- The tombstone that a pass makes is of the volume it is filed under. -/
theorem tombstone_made (ht : (fileView (r.after file p) id).2 = some t)
    (hbefore : (fileView file id).1.isSome) (hafter : (fileView (r.after file p) id).1 = none) :
    t.volumeID = id := by
  rcases after_view r file p id with hsame | ⟨volume, -, rfl, hentry, -⟩
  · rw [hsame] at hafter
    rw [hafter] at hbefore
    cases hbefore
  generalize fileView file volume.volumeID = before at hentry hbefore
  generalize fileView (r.after file p) volume.volumeID = view at hentry ht hafter
  cases hentry with
  | released _ _ _ _ _ _ _ _ _ _ =>
    cases ht
    rfl
  | again _ _ => cases hbefore
  | kept _ _ _ _ _ => cases hafter
  | assigned _ _ _ _ => cases hbefore

variable {a : Assignment}

/-- A pass keeps an assignment, or releases its placement. -/
theorem assignment_after (p : Pass) (ha : (fileView file id).1 = some a) :
    (∃ a', (fileView (r.after file p) id).1 = some a' ∧
      a'.placementSequence = a.placementSequence) ∨
    ∃ t ∈ releases p file (r.after file p), t.volumeID = id ∧
      t.placementSequence = a.placementSequence := by
  rcases after_view r file p id with hsame | ⟨volume, hmem, rfl, hentry, -⟩
  · exact .inl ⟨a, by rw [hsame, ha], rfl⟩
  generalize hbefore : fileView file volume.volumeID = before at hentry ha
  generalize hview : fileView (r.after file p) volume.volumeID = view at hentry ⊢
  cases hentry with
  | released _ _ proof _ _ _ hsequence _ _ _ =>
    cases ha
    refine .inr ⟨⟨volume.volumeID, proof.placementSequence, proof.authorityEpoch,
      proof.destroyProofSHA256⟩, mem_filterMap.mpr ⟨volume, hmem, ?_⟩, rfl, hsequence⟩
    rw [hview, hbefore, if_pos ⟨rfl, rfl⟩]
  | again _ _ => cases ha
  | kept _ a' _ _ hsequence =>
    cases ha
    exact .inl ⟨a', rfl, hsequence⟩
  | assigned _ _ _ _ => cases ha

variable {P : Option State → Plan → Prop} {start : Option State} {made : List Tombstone}

theorem Runs.above (h : Runs r P start file made) (hstart : Above start) : Above file := by
  induction h with
  | refl => exact hstart
  | pass p _ _ ih => exact ih.after p

theorem Runs.apart (h : Runs r NotPlacedAgain start file made) (hstart : Apart start) :
    Apart file := by
  induction h with
  | refl => exact hstart
  | pass p _ hcond ih => exact ih.after hcond

/-- What a run has released stays under a tombstone that is not older. -/
theorem Runs.tombstone (h : Runs r P start file made) (hstart : Above start) :
    ∀ t ∈ made, ∃ t', (fileView file t.volumeID).2 = some t' ∧
      t.placementSequence ≤ t'.placementSequence := by
  induction h with
  | refl => exact nofun
  | pass p hruns _ ih =>
    intro t ht
    rcases mem_append.mp ht with hnew | hold
    · obtain ⟨id, htomb, hbefore, hafter⟩ := mem_releases hnew
      obtain rfl := tombstone_made htomb hbefore hafter
      exact ⟨t, htomb, UInt64.le_refl _⟩
    · obtain ⟨t', ht', hle⟩ := ih t hold
      obtain ⟨t'', ht'', hle'⟩ := tombstone_after (r := r) (hruns.above hstart) p ht'
      exact ⟨t'', ht'', UInt64.le_trans hle hle'⟩

/-- An assignment stays until its placement is released. -/
theorem Runs.assignment (h : Runs r P start file made) (ha : (fileView start id).1 = some a) :
    (∃ a', (fileView file id).1 = some a' ∧ a'.placementSequence = a.placementSequence) ∨
      ∃ t ∈ made, t.volumeID = id ∧ t.placementSequence = a.placementSequence := by
  induction h with
  | refl => exact .inl ⟨a, ha, rfl⟩
  | pass p _ _ ih =>
    rcases ih with ⟨a', ha', hsequence⟩ | ⟨t, ht, hid, hsequence⟩
    · rcases assignment_after (r := r) p ha' with ⟨a'', ha'', hsequence'⟩ | ⟨t, ht, hid, hsequence'⟩
      · exact .inl ⟨a'', ha'', hsequence'.trans hsequence⟩
      · exact .inr ⟨t, mem_append_left _ ht, hid, hsequence'.trans hsequence⟩
    · exact .inr ⟨t, mem_append_right _ ht, hid, hsequence⟩

private theorem above_none : Above none := fun _ _ _ h => by cases h

private theorem apart_none : Apart none := fun _ _ _ h => by cases h

/-- An assignment leaves the state file only by a RELEASE entry for its placement sequence and its
epoch, with the destroy proof that was recorded for it. -/
theorem assignment_leaves (ha : (fileView file id).1 = some a)
    (hgone : (fileView (r.after file p) id).1 = none) :
    ∃ volume ∈ p.plan.volumes, ∃ proof d, volume.volumeID = id ∧ volume.phase = .release ∧
      volume.releaseProof = some proof ∧ proof.placementSequence = a.placementSequence ∧
      proof.authorityEpoch = a.authorityGeneration ∧ a.destroyProof = some d ∧
      d.sha256 = proof.destroyProofSHA256 ∧ d.record.placementSequence = a.placementSequence := by
  rcases after_cases r file p with hsame | ⟨state', hafter, haccepted⟩
  · rw [hsame, ha] at hgone
    cases hgone
  rw [hafter] at hgone
  by_cases hid : id ∈ p.plan.volumes.map (·.volumeID)
  · obtain ⟨volume, hmem, rfl⟩ := mem_map.mp hid
    have hentry := haccepted.entries volume hmem
    generalize hbefore : fileView file volume.volumeID = before at hentry ha
    change (state'.view volume.volumeID).1 = none at hgone
    generalize state'.view volume.volumeID = view at hentry hgone
    cases hentry with
    | released _ _ proof d hphase hproof hsequence hepoch hdestroyed hsha =>
      cases ha
      refine ⟨volume, hmem, proof, d, rfl, hphase, hproof, hsequence, hepoch, hdestroyed, hsha, ?_⟩
      -- the stored proof is checked against the assignment when the file is loaded
      cases file with
      | none => cases hbefore
      | some stored =>
        have hvalid := haccepted.valid stored rfl
        simp only [Reconciler.validateState, decide_eq_true_eq, all_eq_true] at hvalid
        have hstored := hvalid.2.2.2.2.1 ⟨volume.volumeID, a⟩
          ((Assoc.mem_entries_iff _ _ _).mpr (congrArg Prod.fst hbefore))
        simp only [Reconciler.validAssignment, decide_eq_true_eq, hdestroyed] at hstored
        have hrecord := hstored.2.2.2.2.2.2.2.2.2.2.2.2.2.2.2.2.2.2.2.2.2.2.1
        simp only [Option.all_some, Reconciler.validDestroyProof, decide_eq_true_eq] at hrecord
        exact hrecord.2.2.2.2.2.2.1
    | again _ _ => cases ha
    | kept _ _ _ _ _ => cases hgone
    | assigned _ _ _ _ => cases ha
  · have hsame := haccepted.others id hid
    change (state'.view id).1 = none at hgone
    rw [hsame, ha] at hgone
    cases hgone

/-- If no volume is placed on the cell again after a release there, an accepted plan leaves out a
durable assignment only after a release of that very placement. In every run an assignment leaves
the state file only by a release that matches it, and what was released is not assigned again. -/
theorem released_only_removal (r : Reconciler) :
    (∀ start made₀ file made p id a, Runs r NotPlacedAgain none start made₀ →
      (fileView start id).1 = some a → Runs r NotPlacedAgain start file made → r.Accepts file p →
      id ∉ p.plan.volumes.map (·.volumeID) →
      ∃ t ∈ made, t.volumeID = id ∧ t.placementSequence = a.placementSequence) ∧
    (∀ file p id a, (fileView file id).1 = some a → (fileView (r.after file p) id).1 = none →
      ∃ volume ∈ p.plan.volumes, ∃ proof d, volume.volumeID = id ∧ volume.phase = .release ∧
        volume.releaseProof = some proof ∧ proof.placementSequence = a.placementSequence ∧
        proof.authorityEpoch = a.authorityGeneration ∧ a.destroyProof = some d ∧
        d.sha256 = proof.destroyProofSHA256 ∧ d.record.placementSequence = a.placementSequence) ∧
    (∀ file made p volume t, Runs r (fun _ _ => True) none file made → r.Accepts file p →
      volume ∈ p.plan.volumes → volume.phase ≠ .release → t ∈ made →
      t.volumeID = volume.volumeID → t.placementSequence < volume.sequence) := by
  refine ⟨?_, fun file p id a => assignment_leaves, ?_⟩
  · intro start made₀ file made p id a hstart ha hruns haccepts hid
    rcases hruns.assignment ha with ⟨a', ha', -⟩ | hreleased
    · obtain ⟨result, hnext⟩ := haccepts
      rcases (next_accepted hnext).missing id a' ha' with hmem | ⟨t, ht⟩
      · exact absurd hmem hid
      · exact absurd (Prod.ext ha' ht) (hruns.apart (hstart.apart apart_none) id a' t)
    · exact hreleased
  · intro file made p volume t hruns haccepts hmem hphase ht hid
    obtain ⟨result, hnext⟩ := haccepts
    have haccepted := next_accepted hnext
    obtain ⟨t', ht', hle⟩ := hruns.tombstone above_none t ht
    rw [hid] at ht'
    obtain ⟨hassigned, hnew⟩ := haccepted.sequences volume hmem hphase
    refine UInt64.lt_of_le_of_lt hle ?_
    cases ha : (fileView file volume.volumeID).1 with
    | none => exact hnew ha t' ht'
    | some a =>
      rw [← hassigned a ha]
      exact hruns.above above_none _ a t' (Prod.ext ha ht')

/-- An identifier of the runs below: one digit, over and over. -/
def digits (b : UInt8) : Text :=
  [45].intercalate ([8, 4, 4, 4, 12].map fun n => List.replicate n b)

/-- The destroy proof of the runs below. -/
def zeros : Text := List.replicate 64 48

/-- The helper of the runs below. -/
def oneCell : Reconciler :=
  ⟨digits 48, 0, 1000000000000, [97], fun _ => zeros,
    fun volume => if volume.phase = .destroy then zeros else List.replicate 64 49⟩

/-- The host of the runs below: it provisions and destroys at once. -/
def oneHost : Host where
  apply plan a :=
    if plan.phase = .destroy then
      ({ destroyProofSHA256 := zeros }, ⟨[], none, some ⟨⟨a.authorityGeneration, a.authorityID,
        a.authorityServerName, a.cellID, a.listenPort, a.placementSequence, a.projectID,
        a.serviceGID, a.serviceUID, a.volumeID, true, true, true, true, true, true⟩, zeros⟩⟩)
    else ({ provisioned := true }, ⟨[], none, none⟩)
  observe _ _ := ({ provisioned := true }, ⟨[], none, none⟩)
  archiveConfigured := false

/-- A pass of the runs below, with the volumes of its plan. -/
def onePass (generation : UInt64) (volumes : List VolumePlan) : Pass where
  plan := ⟨3, digits 48, generation, 1, 100, [97], 1, [97], [97], [97], volumes⟩
  digest := zeros
  host := oneHost
  now := 2000000000
  save := .ok

/-- The volume of the runs below. -/
def oneVolume (sequence : UInt64) (phase : Phase) (proof : Option ReleaseProof) : VolumePlan where
  toPlacement := ⟨digits 49, [97], [97], [97], [97], [97], [97], sequence, 1, 1000, 1000, 1024⟩
  phase := phase
  authorityGeneration := 1
  quotaBytes := 1024
  quotaInodes := 1
  authorityCertificate := []
  priorStrictFenced := false
  archiveTo := none
  restoreFrom := none
  releaseProof := proof

/-- The state file after the volume was assigned. -/
def placedFile : Option State := oneCell.after none (onePass 1 [oneVolume 1 .provision none])

/-- The state file after the volume was destroyed and released. -/
def releasedFile : Option State :=
  oneCell.after (oneCell.after placedFile (onePass 2 [oneVolume 1 .destroy none]))
    (onePass 3 [oneVolume 1 .release (some ⟨1, 1, zeros⟩)])

private theorem accepts_of_isSome {r : Reconciler} {file : Option State} {p : Pass}
    (h : (r.next p.plan p.digest p.host p.now file).toOption.isSome = true) : r.Accepts file p := by
  cases hnext : r.next p.plan p.digest p.host p.now file with
  | error err =>
    rw [hnext] at h
    cases h
  | ok result => exact ⟨result, hnext⟩

theorem released_only_removal_oneVolume :
    ∃ made, Runs oneCell NotPlacedAgain placedFile releasedFile made ∧
      oneCell.Accepts releasedFile (onePass 4 []) ∧
      ∃ t ∈ made, t.volumeID = digits 49 ∧ t.placementSequence = 1 := by
  have hplaced : Runs oneCell NotPlacedAgain none placedFile _ := .pass _ .refl (by decide +kernel)
  have hruns : Runs oneCell NotPlacedAgain placedFile releasedFile _ :=
    .pass _ (.pass _ .refl (by decide +kernel)) (by decide +kernel)
  have haccepts : oneCell.Accepts releasedFile (onePass 4 []) :=
    accepts_of_isSome (by decide +kernel)
  have hassigned : ((fileView placedFile (digits 49)).1.map (·.placementSequence)) = some 1 := by
    decide +kernel
  obtain ⟨a, ha, hsequence⟩ := Option.map_eq_some_iff.mp hassigned
  have hreleased := (released_only_removal oneCell).1 _ _ _ _ _ _ a hplaced ha hruns haccepts
    not_mem_nil
  rw [hsequence] at hreleased
  exact ⟨_, hruns, haccepts, hreleased⟩

/-- The volume is placed on the cell again, at sequence 2, and the next plan leaves it out: the plan
is accepted, since the first placement has a tombstone. -/
theorem assignment_left_out : ∃ file made, Runs oneCell (fun _ _ => True) none file made ∧
      oneCell.Accepts file (onePass 5 []) ∧
      (fileView file (digits 49)).1.map (·.placementSequence) = some 2 ∧
      ∀ t ∈ made, t.placementSequence ≠ 2 := by
  refine ⟨oneCell.after releasedFile (onePass 4 [oneVolume 2 .provision none]), _,
    .pass _ (.pass _ (.pass _ (.pass _ .refl trivial) trivial) trivial) trivial,
    accepts_of_isSome (by decide +kernel), by decide +kernel, by decide +kernel⟩

end PortableFS.Cell
