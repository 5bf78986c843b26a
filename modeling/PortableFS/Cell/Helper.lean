import PortableFS.Base.Assoc
import PortableFS.Cell.Plan

/-!
# The cell helper

`vcs/internal/cellhelper/reconciler.go` and `state.go`. A state file is the state it decodes to. The
host answers as it likes. `saveState` may fail before it replaces the file, or after.
-/

namespace PortableFS.Cell

open Base

/-- `types.go:214`. -/
structure ObjectRef where
  key : Text
  sizeBytes : UInt64
  sha256 : Text
  crc64NVME : Text
deriving DecidableEq

/-- `ArchiveSealedObservation`, `types.go:537`. -/
structure ArchiveSealed where
  attempt : Text
  manifest : ObjectRef
  packs : List ObjectRef
  rootDigest : Text
  logicalBytes : UInt64
  logicalInodes : UInt64
  sealedAllocatedBytes : UInt64
  sealedInodes : UInt64
  formatVersion : UInt32
  chunkSizeBytes : UInt32
  keyVersion : Text
deriving DecidableEq

/-- `types.go:513`. -/
structure VolumeObservation where
  volumeID : Text := []
  authorityGeneration : UInt64 := 0
  projectID : UInt32 := 0
  serviceUID : UInt32 := 0
  serviceGID : UInt32 := 0
  listenPort : UInt16 := 0
  provisioned : Bool := false
  authorityRunning : Bool := false
  authorityAbsent : Bool := false
  authorityCSRPEM : Text := []
  error : Text := []
  usedBytes : UInt64 := 0
  usedInodes : UInt64 := 0
  quiesceProven : Bool := false
  archiveSealed : Option ArchiveSealed := none
  destroyProofSHA256 : Text := []
  released : Bool := false
  restoreNamespaceReady : Bool := false
  restoreConverged : Bool := false
  restoreProgressPermille : UInt32 := 0
  restoreState : Text := []
deriving DecidableEq

/-- `DestroyRecord` with its `DestroyPostconditions`, `reconciler.go:78`. -/
structure DestroyRecord where
  authorityEpoch : UInt64
  authorityID : Text
  authorityServerName : Text
  cellID : Text
  listenPort : UInt16
  placementSequence : UInt64
  projectID : UInt32
  serviceGID : UInt32
  serviceUID : UInt32
  volumeID : Text
  configRootAbsent : Bool
  dropInsAbsent : Bool
  quotaCleared : Bool
  stateRootAbsent : Bool
  sysusersConfAbsent : Bool
  treeAbsent : Bool
deriving DecidableEq

/-- `reconciler.go:73`. -/
structure DestroyProof where
  record : DestroyRecord
  sha256 : Text
deriving DecidableEq

/-- `reconciler.go:41`. -/
structure Assignment extends Placement where
  cellID : Text
  quotaBytes : UInt64
  quotaInodes : UInt64
  appliedQuotaBytes : UInt64
  appliedQuotaInodes : UInt64
  authorityGeneration : UInt64
  lastPhase : Phase
  authorityAbsent : Bool
  archiveSealed : Option ArchiveSealed
  destroyProof : Option DestroyProof
  lastQuiesceNonce : Text
  applied : Bool
  appliedPlanHash : Text
  appliedHelperRelease : Text
deriving DecidableEq

/-- `reconciler.go:101`. -/
structure Tombstone where
  volumeID : Text
  placementSequence : UInt64
  authorityEpoch : UInt64
  destroyProofSHA256 : Text
deriving DecidableEq

/-- `reconciler.go:108`. -/
structure State where
  version : UInt32
  cellID : Text
  planVersionApplied : UInt32
  planGeneration : UInt64
  planHash : Text
  assignments : Assoc Text Assignment
  tombstones : Assoc Text Tombstone
deriving DecidableEq

/-- `reconciler.go:35`. -/
structure HostUpdate where
  lastQuiesceNonce : Text
  archiveSealed : Option ArchiveSealed
  destroyProof : Option DestroyProof

/-- `plan.go:92`. -/
structure EffectiveVolumePlan extends VolumePlan where
  authorityCAPEM : Text
  clientCAPEM : Text
  capabilityPublicKey : Text

/-- `reconciler.go:22`, during one pass. -/
structure Host where
  apply : EffectiveVolumePlan → Assignment → VolumeObservation × HostUpdate
  observe : EffectiveVolumePlan → Assignment → VolumeObservation × HostUpdate
  archiveConfigured : Bool

/-- `reconciler.go:118`, and the digests of encoded records, in hexadecimal. -/
structure Reconciler where
  cellID : Text
  clockSkew : Int64
  planLifetime : Int64
  releaseID : Text
  recordHash : DestroyRecord → Text
  volumeHash : VolumePlan → Text

/-- `CellObservation`, as the helper fills it. -/
structure CellObservation where
  cellID : Text
  planGeneration : UInt64
  managerReleaseID : Text
  helperReleaseID : Text
  observedUnix : Int64
  archiveConfigured : Bool
  volumes : List VolumeObservation

/-- The errors of the helper. -/
inductive Error
  | invalid
  /-- An error of this text. -/
  | text (message : String)
  /-- A plan without this volume. -/
  | removed (volumeID : Text)
  /-- An error of the file system. -/
  | file
deriving DecidableEq

/-- `state.go:21`. -/
def helperStateVersion : UInt32 := 2

/-- `state.go:164`. -/
def validStoredObjectRef (ref : ObjectRef) : Bool :=
  ref.key ≠ [] ∧ ref.key.length ≤ 512 ∧ 0 < ref.sizeBytes ∧ validHex 32 ref.sha256

/-- `state.go:150`. -/
def validStoredArchiveSealed (s : ArchiveSealed) : Bool :=
  validID s.attempt ∧ s.formatVersion ≠ 0 ∧ s.chunkSizeBytes ≠ 0 ∧ s.keyVersion ≠ [] ∧
    validStoredObjectRef s.manifest ∧ s.packs ≠ [] ∧ s.packs.length ≤ 1024 ∧
    validHex 32 s.rootDigest ∧ s.sealedAllocatedBytes ≠ 0 ∧ s.sealedInodes ≠ 0 ∧
    s.packs.all validStoredObjectRef

/-- `state.go:130`. -/
def Reconciler.validDestroyProof (r : Reconciler) (a : Assignment) (proof : DestroyProof) : Bool :=
  validHex 32 proof.sha256 ∧ proof.record.volumeID = a.volumeID ∧ proof.record.cellID = a.cellID ∧
    proof.record.authorityEpoch = a.authorityGeneration ∧
    proof.record.authorityID = a.authorityID ∧
    proof.record.authorityServerName = a.authorityServerName ∧
    proof.record.placementSequence = a.placementSequence ∧
    proof.record.projectID = a.projectID ∧ proof.record.serviceUID = a.serviceUID ∧
    proof.record.serviceGID = a.serviceGID ∧ proof.record.listenPort = a.listenPort ∧
    proof.record.configRootAbsent ∧ proof.record.dropInsAbsent ∧ proof.record.quotaCleared ∧
    proof.record.stateRootAbsent ∧ proof.record.sysusersConfAbsent ∧ proof.record.treeAbsent ∧
    proof.sha256 = r.recordHash proof.record

/-- `state.go:173`: either case. -/
def validDigest (value : Text) : Bool :=
  value.length = 64 ∧ value.all fun b => hexDigit b ∨ (65 ≤ b ∧ b ≤ 70)

/-- `state.go:178`. -/
def validStoredPhase : Phase → Bool
  | .release | .other _ => false
  | _ => true

/-- The rules about a stored assignment, `state.go:98`. -/
def Reconciler.validAssignment (r : Reconciler) (id : Text) (a : Assignment) : Bool :=
  id = a.volumeID ∧ validID id ∧ a.cellID = r.cellID ∧ a.placementSequence ≠ 0 ∧
    a.projectID ≠ 0 ∧ a.authorizationDomain ≠ [] ∧ a.owner ≠ [] ∧ a.productIssuer ≠ [] ∧
    a.productPublicKeyPEM ≠ [] ∧ a.authorityID ≠ [] ∧ a.authorityServerName ≠ [] ∧
    1000 ≤ a.serviceUID ∧ 1000 ≤ a.serviceGID ∧ 1024 ≤ a.listenPort ∧ a.quotaBytes ≠ 0 ∧
    a.quotaInodes ≠ 0 ∧ a.authorityGeneration ≠ 0 ∧ a.appliedQuotaBytes ≤ a.quotaBytes ∧
    a.appliedQuotaInodes ≤ a.quotaInodes ∧ validStoredPhase a.lastPhase ∧
    (if a.applied then validDigest a.appliedPlanHash
      else a.appliedPlanHash = [] ∧ a.appliedHelperRelease = []) ∧
    a.archiveSealed.all validStoredArchiveSealed ∧ a.destroyProof.all (r.validDestroyProof a) ∧
    (a.lastQuiesceNonce = [] ∨ validHex 32 a.lastQuiesceNonce)

/-- The rules about a stored tombstone, `state.go:121`. -/
def validTombstone (id : Text) (t : Tombstone) : Bool :=
  id = t.volumeID ∧ validID id ∧ t.placementSequence ≠ 0 ∧ t.authorityEpoch ≠ 0 ∧
    validHex 32 t.destroyProofSHA256

/-- `state.go:86`; its errors differ in their text only. -/
def Reconciler.validateState (r : Reconciler) (state : State) : Bool :=
  state.version = helperStateVersion ∧ state.cellID = r.cellID ∧
    state.planVersionApplied = planVersion ∧
    (if state.planGeneration = 0 then
      state.planHash = [] ∧ state.assignments.keys = [] ∧ state.tombstones.keys = []
    else validDigest state.planHash) ∧
    (state.assignments.entries.all fun e => r.validAssignment e.1 e.2) ∧
    state.tombstones.entries.all fun e => validTombstone e.1 e.2

/-- The state of a cell without a state file, `state.go:30`. -/
def Reconciler.initial (r : Reconciler) : State :=
  ⟨helperStateVersion, r.cellID, planVersion, 0, [], ∅, ∅⟩

/-- `state.go:25`. -/
def Reconciler.loadState (r : Reconciler) (file : Option State) : Except Error State :=
  match file with
  | none => .ok r.initial
  | some state =>
    if r.validateState state then .ok state
    else .error (.text "cellhelper: state identity mismatch")

/-- How `saveState` ends if the state is valid. -/
inductive Save
  /-- An error before the file was replaced. -/
  | failed
  /-- The file was replaced; the directory was not opened or not synced. -/
  | replaced
  | ok
deriving DecidableEq

/-- `state.go:188`: the result and the file. -/
def Reconciler.saveState (r : Reconciler) (file : Option State) (state : State) (o : Save) :
    Except Error Unit × Option State :=
  if ¬ r.validateState state then (.error (.text "cellhelper: state identity mismatch"), file)
  else
    match o with
    | .failed => (.error .file, file)
    | .replaced => (.error .file, some state)
    | .ok => (.ok (), some state)

/-- `placementSequence`, `reconciler.go:353`. -/
def VolumePlan.sequence (volume : VolumePlan) : UInt64 :=
  if volume.placementSequence = 0 then 1 else volume.placementSequence

/-- `reconciler.go:360`. -/
def immutableAssignmentMatches (previous : Assignment) (volume : VolumePlan) (cellID : Text) :
    Except Error Unit :=
  if previous.toPlacement ≠ { volume.toPlacement with placementSequence := volume.sequence } ∨
      previous.cellID ≠ cellID then
    .error (.text "cellhelper: signed plan attempted to change an immutable volume assignment")
  else if volume.quotaBytes < previous.quotaBytes ∨ volume.quotaInodes < previous.quotaInodes then
    .error (.text "cellhelper: signed plan attempted to lower a volume quota")
  else .ok ()

/-- The authority process of an assignment is absent, `reconciler.go:226`. -/
def Assignment.provenAbsent (previous : Assignment) : Bool :=
  previous.authorityAbsent ∧ (previous.lastPhase = .fence ∨
    (previous.lastPhase = .quiesce ∧ previous.applied) ∨ previous.lastPhase = .archive)

/-- The rules about one volume of a plan, `reconciler.go:215`. -/
def validateVolume (state : State) (cellID : Text) (volume : VolumePlan) : Except Error Unit :=
  match state.assignments.lookup volume.volumeID with
  | some previous => do
    immutableAssignmentMatches previous volume cellID
    if volume.authorityGeneration < previous.authorityGeneration ∨
        previous.authorityGeneration + 1 < volume.authorityGeneration then
      .error (.text "cellhelper: authority generation is stale or skipped")
    else if volume.authorityGeneration = previous.authorityGeneration + 1 ∧
        ¬ previous.provenAbsent then
      .error (.text "cellhelper: replacement authority lacks local process-absence proof")
    else .ok ()
  | none =>
    if volume.phase = .release then .ok ()
    else if (state.tombstones.lookup volume.volumeID).any
        fun t => volume.sequence ≤ t.placementSequence then
      .error
        (.text "cellhelper: new assignment does not advance its released placement sequence")
    else .ok ()

/-- `reconciler.go:213`. A durable assignment may be missing if the volume
has a tombstone, of whichever placement. -/
def validatePlanTransition (plan : Plan) (state : State) (cellID : Text) : Except Error Unit := do
  plan.volumes.forM (validateVolume state cellID)
  match state.assignments.keys.find? fun id =>
      id ∉ plan.volumes.map (·.volumeID) ∧ state.tombstones.lookup id = none with
  | some id => .error (.removed id)
  | none => .ok ()

/-- `reconciler.go:253`. -/
def applyRelease (volume : VolumePlan) (state : State) : Except Error (State × VolumeObservation) :=
  match volume.releaseProof with
  | none => .error (.text "cellhelper: release plan has no proof")
  | some proof =>
    match state.assignments.lookup volume.volumeID with
    | some a =>
      if proof.placementSequence = a.placementSequence ∧
          proof.authorityEpoch = a.authorityGeneration ∧
          a.destroyProof.map (·.sha256) = some proof.destroyProofSHA256 then
        .ok ({ state with
          tombstones := state.tombstones.insert volume.volumeID
            ⟨volume.volumeID, proof.placementSequence, proof.authorityEpoch, proof.destroyProofSHA256⟩
          assignments := state.assignments.erase volume.volumeID },
          { authorityAbsent := true, released := true })
      else .error (.text "cellhelper: release proof does not match the current assignment")
    | none =>
      if (state.tombstones.lookup volume.volumeID).any fun t =>
          proof.placementSequence = t.placementSequence ∧ proof.authorityEpoch = t.authorityEpoch ∧
            proof.destroyProofSHA256 = t.destroyProofSHA256 then
        .ok (state, { authorityAbsent := true, released := true })
      else .error (.text "cellhelper: release proof does not match the current tombstone")

/-- `reconciler.go:342`. -/
def assignmentFromPlan (volume : VolumePlan) (cellID : Text) : Assignment :=
  { volume.toPlacement with
    placementSequence := volume.sequence, cellID, quotaBytes := volume.quotaBytes
    quotaInodes := volume.quotaInodes, appliedQuotaBytes := 0, appliedQuotaInodes := 0
    authorityGeneration := volume.authorityGeneration, lastPhase := volume.phase
    authorityAbsent := false, archiveSealed := none, destroyProof := none, lastQuiesceNonce := []
    applied := false, appliedPlanHash := [], appliedHelperRelease := [] }

/-- `reconciler.go:310`. -/
def phaseApplied (volume : VolumePlan) (observed : VolumeObservation) : Bool :=
  if observed.error ≠ [] then false
  else
    match volume.phase with
    | .quiesce => observed.authorityAbsent ∧ (observed.quiesceProven ∨ volume.priorStrictFenced)
    | .archive => observed.archiveSealed.isSome
    | .restore => observed.restoreNamespaceReady ∧ observed.authorityRunning
    | .destroy => observed.destroyProofSHA256 ≠ []
    | _ => true

/-- `assignmentAfterObservation`, `reconciler.go:276`, with the helper release of `Reconcile`. -/
def Reconciler.assignmentAfter (r : Reconciler) (previous : Assignment) (volume : VolumePlan)
    (observed : VolumeObservation) (update : HostUpdate) : Assignment :=
  let applied := phaseApplied volume observed
  let sized := observed.error = [] ∧ observed.provisioned ∧
    (volume.phase = .provision ∨ volume.phase = .serve ∨ volume.phase = .restore)
  let nonce := if previous.lastPhase ≠ volume.phase ∧
    (volume.phase = .quiesce ∨ volume.phase = .archive) then [] else previous.lastQuiesceNonce
  { previous with
    quotaBytes := volume.quotaBytes
    quotaInodes := volume.quotaInodes
    authorityGeneration := volume.authorityGeneration
    lastPhase := volume.phase
    authorityAbsent := observed.authorityAbsent
    lastQuiesceNonce := if update.lastQuiesceNonce ≠ [] then update.lastQuiesceNonce else nonce
    archiveSealed := update.archiveSealed.or previous.archiveSealed
    destroyProof := update.destroyProof.or previous.destroyProof
    appliedQuotaBytes := if sized then volume.quotaBytes else previous.appliedQuotaBytes
    appliedQuotaInodes := if sized then volume.quotaInodes else previous.appliedQuotaInodes
    applied
    appliedPlanHash := if applied then r.volumeHash volume else []
    appliedHelperRelease := if applied then r.releaseID else [] }

/-- `reconciler.go:333`. -/
def setObservationIdentity (observed : VolumeObservation) (volume : VolumePlan) :
    VolumeObservation :=
  { observed with
    volumeID := volume.volumeID, authorityGeneration := volume.authorityGeneration
    projectID := volume.projectID, serviceUID := volume.serviceUID
    serviceGID := volume.serviceGID, listenPort := volume.listenPort }

/-- What the host, or a durable proof in its place, says of a volume, `reconciler.go:182`. -/
def Reconciler.observeVolume (r : Reconciler) (plan : Plan) (host : Host) (previous : Assignment)
    (volume : VolumePlan) : VolumeObservation × HostUpdate :=
  if volume.phase = .archive ∧ previous.archiveSealed.isSome then
    ({ provisioned := true, authorityAbsent := true, quiesceProven := true
       archiveSealed := previous.archiveSealed }, ⟨[], none, none⟩)
  else if volume.phase = .destroy ∧ previous.destroyProof.isSome then
    ({ authorityAbsent := true
       destroyProofSHA256 := (previous.destroyProof.map (·.sha256)).getD [] }, ⟨[], none, none⟩)
  else
    let effective : EffectiveVolumePlan :=
      ⟨volume, plan.authorityCAPEM, plan.clientCAPEM, plan.capabilityPublicKey⟩
    if previous.applied ∧ previous.appliedPlanHash = r.volumeHash volume ∧
        previous.appliedHelperRelease = r.releaseID then host.observe effective previous
    else host.apply effective previous

/-- One round of the loop of `Reconcile`, `reconciler.go:159`. -/
def Reconciler.applyVolume (r : Reconciler) (plan : Plan) (host : Host) (state : State)
    (volume : VolumePlan) : Except Error (State × VolumeObservation) :=
  if volume.phase = .release then
    (applyRelease volume state).map fun (state, observed) =>
      (state, setObservationIdentity observed volume)
  else
    let previous := (state.assignments.lookup volume.volumeID).getD
      (assignmentFromPlan volume r.cellID)
    let answer := r.observeVolume plan host previous volume
    let assignment := r.assignmentAfter previous volume answer.1 answer.2
    .ok ({ state with assignments := state.assignments.insert volume.volumeID assignment },
      setObservationIdentity answer.1 volume)

/-- The loop of `Reconcile`, `reconciler.go:159`. -/
def Reconciler.applyVolumes (r : Reconciler) (plan : Plan) (host : Host) :
    State → List VolumePlan → Except Error (State × List VolumeObservation)
  | state, [] => .ok (state, [])
  | state, volume :: rest => do
    let (state, observed) ← r.applyVolume plan host state volume
    let (state, observations) ← r.applyVolumes plan host state rest
    .ok (state, observed :: observations)

/-- The state a pass comes to before it saves it, and its observations, `reconciler.go:138`. -/
def Reconciler.next (r : Reconciler) (plan : Plan) (digest : Text) (host : Host) (now : ℤ)
    (file : Option State) : Except Error (State × List VolumeObservation) :=
  if ¬ plan.verify r.cellID now r.clockSkew r.planLifetime then .error .invalid
  else do
    let state ← r.loadState file
    if plan.generation < state.planGeneration ∨ (plan.generation = state.planGeneration ∧
        state.planHash ≠ [] ∧ state.planHash ≠ digest) then
      .error (.text "cellhelper: stale or equivocated plan generation")
    else do
      validatePlanTransition plan state r.cellID
      let (state, observations) ← r.applyVolumes plan host state plan.volumes
      .ok ({ state with planGeneration := plan.generation, planHash := digest }, observations)

/-- `reconciler.go:129`: the result and the state file after it. -/
def Reconciler.reconcile (r : Reconciler) (plan : Plan) (digest : Text) (host : Host) (now : ℤ)
    (file : Option State) (o : Save) : Except Error CellObservation × Option State :=
  if ¬ validID r.cellID ∨ r.clockSkew < 0 ∨ r.planLifetime ≤ 0 ∨ r.releaseID = [] then
    (.error .invalid, file)
  else
    match r.next plan digest host now file with
    | .error err => (.error err, file)
    | .ok (state, volumes) =>
      let saved := r.saveState file state o
      (saved.1.map fun _ => ⟨r.cellID, plan.generation, plan.releaseID, r.releaseID, Clock.unix now,
        host.archiveConfigured, volumes⟩, saved.2)

end PortableFS.Cell
