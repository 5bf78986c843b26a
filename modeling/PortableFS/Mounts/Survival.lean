import PortableFS.Mounts.Membership

/-!
# What a restart finds of the mounts

The membership keeps its map and the file in step as long as no `Deactivate` fails after its rename:
then every session of the map is in every file that may be found. An active session of the
lifecycle is in the map, but for the one whose clean detach runs its callback. A quiesce proof is
written over an empty map, which stays empty until the nonce changes.
-/

namespace PortableFS.Mounts

open Base List

variable {clockSkew : ℤ} {s : State} {e : Event} {out : Outcome} {m : Membership} {disk : List File}
  {id : SessionID} {profile : Profile} {o : Persist} {proved : Bool}

/-- A session is named by a file, or active in a map. -/
def Named {V : Type} (file : Assoc SessionID V) (id : SessionID) : Prop :=
  (file.lookup id).isSome = true

variable {V : Type} {file : Assoc SessionID V} {id' : SessionID}

theorem named_insert {v : V} : Named (file.insert id v) id' ↔ id' = id ∨ Named file id' := by
  unfold Named
  rw [Assoc.lookup_insert_eq]
  split
  · next h => simp [h]
  · next h => simp [h]

theorem named_erase : Named (file.erase id) id' ↔ id' ≠ id ∧ Named file id' := by
  unfold Named
  rw [Assoc.lookup_erase_eq]
  split
  · next h => simp [h]
  · next h => simp [h]

theorem not_named_of_keys (h : file.keys = []) (id : SessionID) : ¬ Named file id := by
  unfold Named
  rw [Option.isSome_iff_exists, ← Assoc.mem_keys_iff, h]
  exact not_mem_nil

/-- Every session of the map is in every file that may be found. -/
def InStep (m : Membership) (disk : List File) : Prop :=
  ∀ id, Named m.active id → ∀ file ∈ disk, Named file id

/-- A written proof is about an empty map and a nonce. -/
def ProofHolds (m : Membership) : Prop :=
  m.proofWritten = true → m.quiesceNonce ≠ "" ∧ ∀ id, ¬ Named m.active id

/-- The files that may be found at some moment of a call. -/
def Call.found (call : Call) (disk : List File) : List File := call.renamed.toList ++ disk

/-- What `ActivateProfile` does to the map, the file and the proof. -/
structure Activates (m : Membership) (disk : List File) (id : SessionID) (call : Call) : Prop where
  inStep : InStep call.membership call.disk
  found : ∀ id', Named m.active id' → ∀ file ∈ call.found disk, Named file id'
  keeps : ∀ id', Named m.active id' → Named call.membership.active id'
  ok : call.error? = none → Named call.membership.active id
  nonce : call.membership.quiesceNonce = m.quiesceNonce
  proofWritten : call.membership.proofWritten = m.proofWritten
  quiet : m.quiesceNonce ≠ "" → call.membership = m ∧ call.error? ≠ none

variable {call : Call}

private theorem activates_unchanged (h : InStep m disk) (hm : call.membership = m)
    (hdisk : call.disk = disk) (hrenamed : call.renamed = none)
    (hok : call.error? = none → Named m.active id ∧ m.quiesceNonce = "") :
    Activates m disk id call where
  inStep := by rwa [hm, hdisk]
  found id' hid' file hfile := by
    rw [Call.found, hrenamed] at hfile
    exact h id' hid' file hfile
  keeps id' hid' := by rwa [hm]
  ok herr := by
    rw [hm]
    exact (hok herr).1
  nonce := by rw [hm]
  proofWritten := by rw [hm]
  quiet hnonce := ⟨hm, fun herr => hnonce (hok herr).2⟩

theorem activateProfile_spec (h : InStep m disk) (id : SessionID) (profile : Profile) (o : Persist) :
    Activates m disk id (m.activateProfile disk id profile o) := by
  unfold Membership.activateProfile
  split
  · exact activates_unchanged h rfl rfl rfl fun herr => by cases herr
  split
  · exact activates_unchanged h rfl rfl rfl fun herr => by cases herr
  split
  · exact activates_unchanged h rfl rfl rfl fun herr => by cases herr
  next hnonce =>
  rw [not_not] at hnonce
  split
  · next known hknown =>
    split
    · exact activates_unchanged h rfl rfl rfl fun herr => by cases herr
    · exact activates_unchanged h rfl rfl rfl fun _ => ⟨by simp [Named, hknown], hnonce⟩
  next hnew =>
  have hsuper : ∀ id', Named m.active id' → Named (m.active.insert id profile) id' :=
    fun id' hid' => named_insert.mpr (.inr hid')
  have hdisk : ∀ id', Named m.active id' →
      ∀ file ∈ o.disk (m.active.insert id profile) disk, Named file id' := by
    intro id' hid' file hfile
    cases o with
    | failed => exact h id' hid' file hfile
    | replaced =>
      rcases mem_cons.mp hfile with rfl | hold
      · exact hsuper id' hid'
      · exact h id' hid' file hold
    | unclosed | ok => exact mem_singleton.mp hfile ▸ hsuper id' hid'
  have hfound : ∀ id', Named m.active id' →
      ∀ file ∈ (o.renamed (m.active.insert id profile)).toList ++ disk, Named file id' := by
    intro id' hid' file hfile
    rcases mem_append.mp hfile with hren | hold
    · rw [Persist.renamed] at hren
      split at hren
      · cases hren
      · exact mem_singleton.mp hren ▸ hsuper id' hid'
    · exact h id' hid' file hold
  split
  · next hok =>
    subst hok
    refine ⟨?_, hfound, hsuper,
      fun _ => named_insert.mpr (.inl rfl), rfl, rfl, fun hne => absurd hnonce hne⟩
    intro id' hid' file hfile
    exact mem_singleton.mp hfile ▸ hid'
  · exact ⟨hdisk, hfound, fun id' hid' => hid', (fun herr => by cases herr),
      rfl, rfl, fun hne => absurd hnonce hne⟩

/-- A `Deactivate` that does not fail after its rename. -/
def Persist.early (o : Persist) : Prop := o = .failed ∨ o = .ok

/-- What `Deactivate` does to the map, the file and the proof if it does not fail after its rename. -/
structure Deactivates (m : Membership) (disk : List File) (id : SessionID) (proved : Bool)
    (call : Call) : Prop where
  inStep : InStep call.membership call.disk
  found : ∀ id' ≠ id, Named m.active id' → ∀ file ∈ call.found disk, Named file id'
  keeps : ∀ id' ≠ id, Named m.active id' → Named call.membership.active id'
  nonce : call.membership.quiesceNonce = m.quiesceNonce
  proof : ProofHolds call.membership
  stays : m.proofWritten = true → call.membership.proofWritten = true
  failed : proved = true → call.error? ≠ none →
    call.membership = m ∧ call.disk = disk ∧ call.renamed = none

private theorem deactivates_unchanged (h : InStep m disk) (hproof : ProofHolds m)
    (hm : call.membership = m) (hdisk : call.disk = disk) (hrenamed : call.renamed = none) :
    Deactivates m disk id proved call where
  inStep := by rwa [hm, hdisk]
  found id' _ hid' file hfile := by
    rw [Call.found, hrenamed] at hfile
    exact h id' hid' file hfile
  keeps id' _ hid' := by rwa [hm]
  nonce := by rw [hm]
  proof := by rwa [hm]
  stays hw := by rwa [hm]
  failed _ _ := ⟨hm, hdisk, hrenamed⟩

theorem deactivate_spec (h : InStep m disk) (hproof : ProofHolds m) (id : SessionID) (proved : Bool)
    (ho : o.early) : Deactivates m disk id proved (m.deactivate disk id o proved) := by
  unfold Membership.deactivate
  split
  · exact deactivates_unchanged h hproof rfl rfl rfl
  split
  · exact deactivates_unchanged h hproof rfl rfl rfl
  next known hknown =>
  dsimp only
  have hrest : ∀ id' ≠ id, Named m.active id' → Named (m.active.erase id) id' :=
    fun id' hne hid' => named_erase.mpr ⟨hne, hid'⟩
  have hunproved : m.proofWritten = true → False := fun hw =>
    (hproof hw).2 id (by simp [Named, hknown])
  split
  · next hfail =>
    have hfailed : o = .failed := ho.resolve_right hfail
    subst hfailed
    exact deactivates_unchanged h hproof rfl rfl rfl
  next hok =>
  rw [not_not] at hok
  subst hok
  have hstep : ∀ m' : Membership, m'.active = m.active.erase id →
      InStep m' (Persist.disk .ok (m.active.erase id) disk) := by
    intro m' hm' id' hid' file hfile
    rw [hm'] at hid'
    exact mem_singleton.mp hfile ▸ hid'
  have hfound : ∀ id' ≠ id, Named m.active id' →
      ∀ file ∈ (Persist.renamed .ok (m.active.erase id)).toList ++ disk, Named file id' := by
    intro id' hne hid' file hfile
    rcases mem_append.mp hfile with hren | hold
    · exact mem_singleton.mp hren ▸ hrest id' hne hid'
    · exact h id' hid' file hold
  split
  · next hempty =>
    split
    · exact ⟨hstep _ rfl, hfound, hrest, rfl,
        fun _ => ⟨hempty.2.1, not_named_of_keys hempty.1⟩, fun hw => (hunproved hw).elim,
        fun _ herr => absurd rfl herr⟩
    · next hproved =>
      exact ⟨hstep _ rfl, hfound, hrest, rfl, fun hw => (hunproved hw).elim,
        fun hw => (hunproved hw).elim, fun hp => absurd hp hproved⟩
  · exact ⟨hstep _ rfl, hfound, hrest, rfl, fun hw => (hunproved hw).elim,
      fun hw => (hunproved hw).elim, fun _ herr => absurd rfl herr⟩

/-- `SetQuiescing` leaves the sessions, keeps what a proof is about, and drops a proof only for
another nonce. -/
theorem setQuiescing_spec (hproof : ProofHolds m) (nonce : String) (writer proved : Bool) :
    (m.setQuiescing nonce writer proved).2.active = m.active ∧
      ProofHolds (m.setQuiescing nonce writer proved).2 ∧
      (m.proofWritten = true → m.quiesceNonce = nonce →
        (m.setQuiescing nonce writer proved).2.proofWritten = true ∧
          (m.setQuiescing nonce writer proved).2.quiesceNonce = nonce) := by
  unfold Membership.setQuiescing
  split
  · exact ⟨rfl, hproof, fun hw hn => ⟨hw, hn⟩⟩
  split
  · next hempty =>
    refine ⟨rfl, (fun hw => by cases hw), fun hw hn => ?_⟩
    exact absurd (hn.trans hempty) (hproof hw).1
  next hne =>
  split
  · exact ⟨rfl, hproof, fun hw hn => ⟨hw, hn⟩⟩
  dsimp only
  by_cases hsame : nonce ≠ m.quiesceNonce
  · rw [if_pos hsame]
    split
    · next hkeys =>
      split
      · exact ⟨rfl, fun _ => ⟨hne, not_named_of_keys hkeys.1⟩, fun _ hn => absurd hn.symm hsame⟩
      · exact ⟨rfl, (fun hw => by cases hw), fun _ hn => absurd hn.symm hsame⟩
    · exact ⟨rfl, (fun hw => by cases hw), fun _ hn => absurd hn.symm hsame⟩
  · rw [if_neg hsame]
    rw [not_not] at hsame
    split
    · next hkeys =>
      split
      · exact ⟨rfl, fun _ => ⟨hsame ▸ hne, not_named_of_keys hkeys.1⟩, fun _ hn => ⟨rfl, hn⟩⟩
      · exact ⟨rfl, hproof, fun hw hn => ⟨hw, hn⟩⟩
    · exact ⟨rfl, hproof, fun hw hn => ⟨hw, hn⟩⟩

/-- What the state keeps. -/
structure Invariant (s : State) : Prop where
  inStep : InStep s.membership s.disk
  proof : ProofHolds s.membership
  covered : ∀ id, Named s.active id → Named s.membership.active id ∨ s.phase = .removing id
  publishing : ∀ id profile, s.phase = .publishing id profile →
    Named s.membership.active id ∧ ¬ Named s.active id

/-- No `Deactivate` fails after its rename, `CleanDetach` writes the proof if it is due, and a failed
`remove` is rolled back. -/
def Event.Sound (s : State) : Event → Prop
  | .publishFailed o _ => o.early
  | .detach _ _ _ _ o proved => o.early ∧ proved = true
  | .removeFailed o => ∀ id, s.phase = .removing id → (s.restore id o).error? = none
  | _ => True

/-- Every `SetQuiescing` has this nonce. -/
def Event.Quiescing (nonce : String) : Event → Prop
  | .setQuiescing nonce' _ _ => nonce' = nonce
  | _ => True

/-- What a sound event keeps: the invariant, the sessions in every file that may be found at some
moment of it, and a written proof. -/
structure Steps (s : State) (e : Event) (out : Outcome) : Prop where
  inv : Invariant out.state
  found : ∀ id, Named s.active id → s.phase ≠ .removing id → out.state.phase ≠ .removing id →
    ∀ file ∈ out.renamed.toList ++ s.disk, Named file id
  proof : s.membership.proofWritten = true → e.Quiescing s.membership.quiesceNonce →
    out.state.membership.proofWritten = true ∧
      out.state.membership.quiesceNonce = s.membership.quiesceNonce

theorem Invariant.mem_map (h : Invariant s) (hid : Named s.active id)
    (hphase : s.phase ≠ .removing id) : Named s.membership.active id :=
  (h.covered id hid).resolve_right hphase

private theorem steps_of_frame (h : Invariant s) (hinv : Invariant out.state)
    (hm : out.state.membership = s.membership) (hrenamed : out.renamed = none) : Steps s e out where
  inv := hinv
  found id hid hphase _ file hfile := by
    rw [hrenamed] at hfile
    exact h.inStep id (h.mem_map hid hphase) file hfile
  proof hw _ := by
    rw [hm]
    exact ⟨hw, rfl⟩

private theorem activates_proof (hcall : Activates m disk id call)
    (hproof : ProofHolds m) : ProofHolds call.membership := by
  intro hw
  rw [hcall.proofWritten] at hw
  rw [(hcall.quiet (hproof hw).1).1]
  exact hproof hw

section

variable (h : Invariant s)
include h

theorem activate_steps {publish : Bool}
    (hstep : s.step clockSkew (.activate id profile publish o) = some out) :
    Steps s (.activate id profile publish o) out := by
  rw [State.step] at hstep
  split at hstep
  · cases hstep
  next hidle =>
  rw [not_not] at hidle
  split at hstep
  · cases hstep
    exact steps_of_frame h h rfl rfl
  next hfresh =>
  have hspec := activateProfile_spec h.inStep id profile o
  have hcovered : ∀ id', Named s.active id' →
      Named (s.membership.activateProfile s.disk id profile o).membership.active id' :=
    fun id' hid' => hspec.keeps id' (h.mem_map hid' (by rw [hidle]; exact nofun))
  have hfound : ∀ id', Named s.active id' →
      ∀ file ∈ (s.membership.activateProfile s.disk id profile o).found s.disk, Named file id' :=
    fun id' hid' => hspec.found id' (h.mem_map hid' (by rw [hidle]; exact nofun))
  have hproof := activates_proof hspec h.proof
  dsimp only at hstep
  split at hstep
  all_goals
    cases hstep
    refine ⟨⟨hspec.inStep, hproof, fun id' hid' => .inl (hcovered id' hid'), ?_⟩,
      fun id' hid' _ _ => hfound id' hid', fun hw _ => ⟨hspec.proofWritten.trans hw, hspec.nonce⟩⟩
    intro id' profile' hphase
  · rw [State.after, hidle] at hphase
    cases hphase
  · next hok =>
    cases hphase
    exact ⟨hspec.ok hok, fun hid => hfresh (.inr (.inr hid))⟩

variable {now : ℤ}

theorem published_steps
    (hstep : s.step clockSkew (.published now) = some out) : Steps s (.published now) out := by
  rw [State.step] at hstep
  split at hstep
  · next id profile hphase =>
    cases hstep
    refine steps_of_frame h ⟨h.inStep, h.proof, ?_, fun _ _ hidle => by cases hidle⟩ rfl rfl
    intro id' hid'
    rcases named_insert.mp hid' with rfl | hold
    · exact .inl (h.publishing id' profile hphase).1
    · exact .inl (h.mem_map hold (by rw [hphase]; exact nofun))
  · cases hstep

theorem publishFailed_steps (ho : o.early)
    (hstep : s.step clockSkew (.publishFailed o proved) = some out) :
    Steps s (.publishFailed o proved) out := by
  rw [State.step] at hstep
  split at hstep
  · next id profile hphase =>
    cases hstep
    have hspec := deactivate_spec h.inStep h.proof id proved ho
    have hother : ∀ id', Named s.active id' → id' ≠ id ∧ Named s.membership.active id' := by
      intro id' hid'
      refine ⟨?_, h.mem_map hid' (by rw [hphase]; exact nofun)⟩
      rintro rfl
      exact (h.publishing id' profile hphase).2 hid'
    exact ⟨⟨hspec.inStep, hspec.proof,
        fun id' hid' => .inl (hspec.keeps id' (hother id' hid').1 (hother id' hid').2),
        fun _ _ hidle => by cases hidle⟩,
      fun id' hid' _ _ => hspec.found id' (hother id' hid').1 (hother id' hid').2,
      fun hw _ => ⟨hspec.stays hw, hspec.nonce⟩⟩
  · cases hstep

theorem detach_steps (ho : o.early) {proof : AbsenceProof} {remove : Bool}
    (hstep : s.step clockSkew (.detach id proof remove now o true) = some out) :
    Steps s (.detach id proof remove now o true) out := by
  rw [State.step] at hstep
  split at hstep
  · cases hstep
  next hidle =>
  rw [not_not] at hidle
  split at hstep
  · cases hstep
    exact steps_of_frame h h rfl rfl
  split at hstep
  · cases hstep
    exact steps_of_frame h h rfl rfl
  split at hstep
  · cases hstep
    exact steps_of_frame h h rfl rfl
  have hspec := deactivate_spec h.inStep h.proof id true ho
  have hmap : ∀ id', Named s.active id' → Named s.membership.active id' :=
    fun id' hid' => h.mem_map hid' (by rw [hidle]; exact nofun)
  dsimp only at hstep
  split at hstep
  · next err herr =>
    cases hstep
    obtain ⟨hm, hdisk, hrenamed⟩ := hspec.failed rfl (by rw [herr]; exact nofun)
    refine steps_of_frame h ⟨hspec.inStep, hspec.proof, ?_, ?_⟩ hm hrenamed
    · intro id' hid'
      refine .inl ?_
      rw [State.after, hm]
      exact hmap id' hid'
    · intro id' profile' hphase
      rw [State.after, hidle] at hphase
      cases hphase
  · cases hstep
    refine ⟨⟨hspec.inStep, hspec.proof, ?_, fun _ _ hphase => by cases hphase⟩, ?_,
      fun hw _ => ⟨hspec.stays hw, hspec.nonce⟩⟩
    · intro id' hid'
      by_cases heq : id' = id
      · exact .inr (by rw [heq])
      · exact .inl (hspec.keeps id' heq (hmap id' hid'))
    · intro id' hid' _ hphase
      have hne : id' ≠ id := fun heq => hphase (by rw [heq])
      exact hspec.found id' hne (hmap id' hid')

theorem removed_steps (hstep : s.step clockSkew .removed = some out) : Steps s .removed out := by
  rw [State.step] at hstep
  split at hstep
  · next id hphase =>
    cases hstep
    refine steps_of_frame h ⟨h.inStep, h.proof, ?_, fun _ _ hidle => by cases hidle⟩ rfl rfl
    intro id' hid'
    obtain ⟨hne, hold⟩ := named_erase.mp hid'
    refine .inl (h.mem_map hold ?_)
    rw [hphase]
    exact fun heq => hne (Phase.removing.inj heq).symm
  · cases hstep

theorem removeFailed_steps
    (hrestore : ∀ id, s.phase = .removing id → (s.restore id o).error? = none)
    (hstep : s.step clockSkew (.removeFailed o) = some out) : Steps s (.removeFailed o) out := by
  rw [State.step] at hstep
  split at hstep
  · next id hphase =>
    cases hstep
    have hspec : Activates s.membership s.disk id (s.restore id o) :=
      activateProfile_spec h.inStep id _ o
    refine ⟨⟨hspec.inStep, activates_proof hspec h.proof, ?_, fun _ _ hidle => by cases hidle⟩, ?_,
      fun hw _ => ⟨hspec.proofWritten.trans hw, hspec.nonce⟩⟩
    · intro id' hid'
      refine .inl ?_
      rcases h.covered id' hid' with hmap | hremoving
      · exact hspec.keeps id' hmap
      · rw [hphase] at hremoving
        cases hremoving
        exact hspec.ok (hrestore id hphase)
    · intro id' hid' hne _
      exact hspec.found id' (h.mem_map hid' hne)
  · cases hstep

theorem setQuiescing_steps {nonce : String} {writer : Bool}
    (hstep : s.step clockSkew (.setQuiescing nonce writer proved) = some out) :
    Steps s (.setQuiescing nonce writer proved) out := by
  rw [State.step] at hstep
  cases hstep
  obtain ⟨hactive, hproof, hstays⟩ := setQuiescing_spec h.proof nonce writer proved
  refine ⟨⟨?_, hproof, ?_, ?_⟩, ?_, ?_⟩
  · intro id hid
    rw [hactive] at hid
    exact h.inStep id hid
  · intro id hid
    rw [hactive]
    exact h.covered id hid
  · intro id profile hphase
    rw [hactive]
    exact h.publishing id profile hphase
  · exact fun id hid hphase _ => h.inStep id (h.mem_map hid hphase)
  · intro hw hnonce
    rw [← show nonce = s.membership.quiesceNonce from hnonce]
    exact hstays hw hnonce.symm

theorem close_steps (hstep : s.step clockSkew .close = some out) : Steps s .close out := by
  rw [State.step] at hstep
  cases hstep
  exact ⟨⟨h.inStep, h.proof, h.covered, h.publishing⟩,
    fun id hid hphase _ => h.inStep id (h.mem_map hid hphase), fun hw _ => ⟨hw, rfl⟩⟩

theorem step_steps (hsound : e.Sound s) (hstep : s.step clockSkew e = some out) :
    Steps s e out := by
  cases e with
  | activate id profile publish o => exact activate_steps h hstep
  | published now => exact published_steps h hstep
  | publishFailed o proved => exact publishFailed_steps h hsound hstep
  | detach id proof remove now o proved =>
    obtain ⟨ho, rfl⟩ := hsound
    exact detach_steps h ho hstep
  | removed => exact removed_steps h hstep
  | removeFailed o => exact removeFailed_steps h hsound hstep
  | setQuiescing nonce writer proved => exact setQuiescing_steps h hstep
  | close => exact close_steps h hstep

end

/-- Some number of events, each of which meets a condition on it and the state it comes in. -/
inductive Runs (clockSkew : ℤ) (P : State → Event → Prop) : State → State → Prop
  | refl (s : State) : Runs clockSkew P s s
  | step {s t : State} {e : Event} {out : Outcome} (hruns : Runs clockSkew P s t) (hcond : P t e)
      (hstep : t.step clockSkew e = some out) : Runs clockSkew P s out.state

variable {t : State}

theorem Invariant.runs (h : Invariant s)
    (hruns : Runs clockSkew (fun s e => e.Sound s) s t) : Invariant t := by
  induction hruns with
  | refl => exact h
  | step _ hsound hstep ih => exact (step_steps ih hsound hstep).inv

end PortableFS.Mounts
