import PortableFS.Base.Assoc

/-!
# Mount membership and mount lifecycle

`vcs/internal/volumeserver/mount_membership.go` and `mount_lifecycle.go`. The membership file is the
records it decodes to. A rename that no directory sync followed may or may not survive a crash, so
the disk is the list of files that may be found, the visible one first. The lifecycle's lock is held
over a whole call, the membership's over each of its own calls only: a call of the lifecycle is cut
where it runs a callback, and `SetQuiescing` may come between.
-/

namespace PortableFS.Mounts

open Base

/-- `SessionID`, `session.go:38`. -/
abbrev SessionID := Vector UInt8 16

/-- `Profile`, `mountmembership.go`: the three that are valid, and any other text. -/
inductive Profile
  | linux
  | fskitExclusive
  | cacheless
  | other (text : String)
deriving DecidableEq

/-- The profiles that a membership accepts, `mount_membership.go:159`. -/
def Profile.valid : Profile → Bool
  | .other _ => false
  | _ => true

/-- The errors of both files. -/
inductive Error
  /-- An error of this text. -/
  | text (message : String)
  | quiescing
  | mountHolder
  | mountProof
  | sessionExpired
  /-- An error of the file system while persisting. -/
  | persist
  /-- An error of the quiesce proof writer. -/
  | proof
  /-- An error of a callback, with the error of the rollback. -/
  | callback (rollback : Option Error)

/-- The records of a membership file. -/
abbrev File := Assoc SessionID Profile

/-- `FileMountMembership`, `mount_membership.go:32`; the active sessions with their profiles. -/
structure Membership where
  locked : Bool
  active : File
  quiesceNonce : String
  proofWritten : Bool

/-- How `persistLocked` ends, `mount_membership.go:281`. -/
inductive Persist
  /-- An error before the file was replaced. -/
  | failed
  /-- The file was replaced; the directory was not opened or not synced. -/
  | replaced
  /-- The file was replaced and the directory synced, but not closed. -/
  | unclosed
  | ok
deriving DecidableEq

/-- The file that a `persistLocked` has renamed into place. -/
def Persist.renamed (o : Persist) (file : File) : Option File :=
  if o = .failed then none else some file

/-- The files that may be found after a `persistLocked`. -/
def Persist.disk (o : Persist) (file : File) (disk : List File) : List File :=
  match o with
  | .failed => disk
  | .replaced => file :: disk
  | .unclosed => [file]
  | .ok => [file]

/-- What a call of the membership leaves: its result, the membership, the files that may be found
after it, and the file it renamed into place if it came so far. -/
structure Call where
  result : Except Error Unit
  membership : Membership
  disk : List File
  renamed : Option File

/-- `mount_membership.go:158`. -/
def Membership.activateProfile (m : Membership) (disk : List File) (id : SessionID)
    (profile : Profile) (o : Persist) : Call :=
  if ¬ profile.valid then
    ⟨.error (.text "volumeserver: invalid membership profile"), m, disk, none⟩
  else if ¬ m.locked then
    ⟨.error (.text "volumeserver: mount membership is closed"), m, disk, none⟩
  else if m.quiesceNonce ≠ "" then ⟨.error .quiescing, m, disk, none⟩
  else
    match m.active.lookup id with
    | some known =>
      if known ≠ profile then
        ⟨.error (.text "volumeserver: membership profile cannot change for a live session"), m,
          disk, none⟩
      else ⟨.ok (), m, disk, none⟩
    | none =>
      let active := m.active.insert id profile
      -- a failed persist takes the new session out of the map again
      if o = .ok then ⟨.ok (), { m with active }, o.disk active disk, o.renamed active⟩
      else ⟨.error .persist, m, o.disk active disk, o.renamed active⟩

/-- `mount_membership.go:186`. `proved` says whether the proof writer succeeds. -/
def Membership.deactivate (m : Membership) (disk : List File) (id : SessionID) (o : Persist)
    (proved : Bool) : Call :=
  if ¬ m.locked then
    ⟨.error (.text "volumeserver: mount membership is closed"), m, disk, none⟩
  else
    match m.active.lookup id with
    | none => ⟨.ok (), m, disk, none⟩
    | some _ =>
      let active := m.active.erase id
      if o ≠ .ok then ⟨.error .persist, m, o.disk active disk, o.renamed active⟩
      else if active.keys = [] ∧ m.quiesceNonce ≠ "" ∧ ¬ m.proofWritten then
        if proved then
          ⟨.ok (), { m with active, proofWritten := true }, o.disk active disk, o.renamed active⟩
        else ⟨.error .proof, { m with active }, o.disk active disk, o.renamed active⟩
      else ⟨.ok (), { m with active }, o.disk active disk, o.renamed active⟩

/-- `mount_membership.go:216`. `writer` says whether a proof writer is given. -/
def Membership.setQuiescing (m : Membership) (nonce : String) (writer proved : Bool) :
    Except Error Unit × Membership :=
  if ¬ m.locked then (.error (.text "volumeserver: mount membership is closed"), m)
  else if nonce = "" then (.ok (), { m with quiesceNonce := "", proofWritten := false })
  else if ¬ writer then
    (.error (.text "volumeserver: quiesce proof writer is required"), m)
  else
    let m := if nonce ≠ m.quiesceNonce then { m with quiesceNonce := nonce, proofWritten := false }
      else m
    if m.active.keys = [] ∧ ¬ m.proofWritten then
      if proved then (.ok (), { m with proofWritten := true }) else (.error .proof, m)
    else (.ok (), m)

/-- `MountAbsenceProof`, `mutation_targets.go:111`. -/
structure AbsenceProof where
  observedUnixNanos : ℤ
  observation : List UInt8
  component : List UInt8
deriving DecidableEq

/-- `mount_lifecycle.go:155`. -/
def validateMountAbsence (clockSkew now registered : ℤ) (proof : AbsenceProof) : Bool :=
  ¬ (proof.observation.length = 0 ∨ 4096 < proof.observation.length ∨
    proof.component = [] ∨ 128 < proof.component.length ∨ proof.observedUnixNanos ≤ 0) ∧
  ¬ (now + clockSkew < proof.observedUnixNanos ∨ proof.observedUnixNanos < registered - clockSkew)

/-- Where a call of the lifecycle is. -/
inductive Phase
  | idle
  /-- `ActivateProfile` runs `publish`. -/
  | publishing (id : SessionID) (profile : Profile)
  /-- `CleanDetach` runs `remove`. -/
  | removing (id : SessionID)
deriving DecidableEq

/-- A `MountLifecycle`, `mount_lifecycle.go:17`, its membership and the disk. -/
structure State where
  membership : Membership
  disk : List File
  active : Assoc SessionID ℤ
  profiles : Assoc SessionID Profile
  priorUnproven : Bool
  phase : Phase

/-- What happens between two moments at which other calls may come in. -/
inductive Event
  /-- `ActivateProfile` up to `publish`, which may be missing. -/
  | activate (id : SessionID) (profile : Profile) (publish : Bool) (o : Persist)
  /-- `publish` succeeds. -/
  | published (now : ℤ)
  /-- `publish` fails and the membership is rolled back. -/
  | publishFailed (o : Persist) (proved : Bool)
  /-- `CleanDetach` up to `remove`, which may be missing. -/
  | detach (id : SessionID) (proof : AbsenceProof) (remove : Bool) (now : ℤ) (o : Persist)
      (proved : Bool)
  /-- `remove` succeeds. -/
  | removed
  /-- `remove` fails and the membership is restored. -/
  | removeFailed (o : Persist)
  | setQuiescing (nonce : String) (writer proved : Bool)
  | close

/-- A state after an event, the file that was renamed into place during it, and the result of a call
that ended. -/
structure Outcome where
  state : State
  renamed : Option File
  result : Option (Except Error Unit)

/-- Keep what a call of the membership has left. -/
def State.after (s : State) (call : Call) : State :=
  { s with membership := call.membership, disk := call.disk }

/-- The error of a call. -/
def Call.error? (call : Call) : Option Error :=
  match call.result with
  | .ok () => none
  | .error err => some err

/-- Restore the membership of a session whose `remove` failed, `mount_lifecycle.go:144`. -/
def State.restore (s : State) (id : SessionID) (o : Persist) : Call :=
  s.membership.activateProfile s.disk id ((s.profiles.lookup id).getD (.other "")) o

/-- The zero session ID. -/
def zeroSession : SessionID := Vector.replicate 16 0

/-- One event, if the lifecycle is where it can happen. -/
def State.step (clockSkew : ℤ) (s : State) : Event → Option Outcome
  | .activate id profile publish o =>
    if s.phase ≠ .idle then none
    else if id = zeroSession ∨ ¬ publish ∨ (s.active.lookup id).isSome then
      some ⟨s, none, some (.error .mountHolder)⟩
    else
      let call := s.membership.activateProfile s.disk id profile o
      match call.error? with
      | some err => some ⟨s.after call, call.renamed, some (.error err)⟩
      | none => some ⟨{ s.after call with phase := .publishing id profile }, call.renamed, none⟩
  | .published now =>
    match s.phase with
    | .publishing id profile =>
      some ⟨{ s with active := s.active.insert id now, profiles := s.profiles.insert id profile,
                     phase := .idle }, none, some (.ok ())⟩
    | _ => none
  | .publishFailed o proved =>
    match s.phase with
    | .publishing id _ =>
      let call := s.membership.deactivate s.disk id o proved
      let s := { s.after call with phase := .idle }
      some ⟨{ s with priorUnproven := s.priorUnproven || call.error?.isSome }, call.renamed,
        some (.error (.callback call.error?))⟩
    | _ => none
  | .detach id proof remove now o proved =>
    if s.phase ≠ .idle then none
    else if ¬ remove then some ⟨s, none, some (.error .mountProof)⟩
    else
      match s.active.lookup id with
      | none => some ⟨s, none, some (.error .sessionExpired)⟩
      | some registered =>
        if ¬ validateMountAbsence clockSkew now registered proof then
          some ⟨s, none, some (.error .mountProof)⟩
        else
          let call := s.membership.deactivate s.disk id o proved
          match call.error? with
          | some err => some ⟨s.after call, call.renamed, some (.error err)⟩
          | none => some ⟨{ s.after call with phase := .removing id }, call.renamed, none⟩
  | .removed =>
    match s.phase with
    | .removing id =>
      some ⟨{ s with active := s.active.erase id, profiles := s.profiles.erase id, phase := .idle },
        none, some (.ok ())⟩
    | _ => none
  | .removeFailed o =>
    match s.phase with
    | .removing id =>
      let call := s.restore id o
      let s := { s.after call with phase := .idle }
      some ⟨{ s with priorUnproven := s.priorUnproven || call.error?.isSome }, call.renamed,
        some (.error (.callback call.error?))⟩
    | _ => none
  | .setQuiescing nonce writer proved =>
    let call := s.membership.setQuiescing nonce writer proved
    some ⟨{ s with membership := call.2 }, none, some call.1⟩
  | .close =>
    some ⟨{ s with membership := { s.membership with locked := false } }, none, some (.ok ())⟩

/-- A lifecycle over a membership that was opened on a file. -/
def State.opened (file : File) (priorUnproven : Bool) : State where
  membership := ⟨true, file, "", false⟩
  disk := [file]
  active := ∅
  profiles := ∅
  priorUnproven := priorUnproven
  phase := .idle

end PortableFS.Mounts
