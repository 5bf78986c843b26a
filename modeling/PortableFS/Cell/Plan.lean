import PortableFS.Auth.ProductAuth
import PortableFS.Base.Text

/-!
# Cell plans

`vcs/internal/cellplan/plan.go`. Base64, Ed25519, SHA-256 and the JSON of a payload are outside: an
envelope is the plan its payload decodes to and the digest of the payload. A decoded text is valid
UTF-8. `Verify` answers one error whatever `Validate` says, so `Validate` is a test here.
-/

namespace PortableFS.Cell

open Base

/-- A text, as its bytes. -/
abbrev Text := List UInt8

/-- `VolumePhase`, `plan.go:39`; a decoded text may be none of them. -/
inductive Phase
  | provision
  | serve
  | fence
  | quiesce
  | archive
  | restore
  | destroy
  | release
  | other (text : Text)
deriving DecidableEq

/-- `plan.go:99`. -/
structure ArchiveTarget where
  attempt : Text
  keyVersion : Text
deriving DecidableEq

/-- `plan.go:104`. -/
structure RestoreSource where
  sealedEpoch : UInt64
  attempt : Text
  manifestDigestSHA256 : Text
  manifestSizeBytes : UInt64
  manifestCRC64NVME : Text
  packCount : UInt32
  sealedAllocatedBytes : UInt64
  sealedInodes : UInt64
deriving DecidableEq

/-- `plan.go:115`. -/
structure ReleaseProof where
  placementSequence : UInt64
  authorityEpoch : UInt64
  destroyProofSHA256 : Text
deriving DecidableEq

/-- The fields of a `VolumePlan`, `plan.go:66`, that an assignment keeps as they are. -/
structure Placement where
  volumeID : Text
  authorizationDomain : Text
  owner : Text
  productIssuer : Text
  productPublicKeyPEM : Text
  authorityID : Text
  authorityServerName : Text
  placementSequence : UInt64
  projectID : UInt32
  serviceUID : UInt32
  serviceGID : UInt32
  listenPort : UInt16
deriving DecidableEq

/-- `plan.go:66`. -/
structure VolumePlan extends Placement where
  phase : Phase
  authorityGeneration : UInt64
  quotaBytes : UInt64
  quotaInodes : UInt64
  authorityCertificate : Text
  priorStrictFenced : Bool
  archiveTo : Option ArchiveTarget
  restoreFrom : Option RestoreSource
  releaseProof : Option ReleaseProof
deriving DecidableEq

/-- `plan.go:52`. -/
structure Plan where
  version : UInt32
  cellID : Text
  generation : UInt64
  issuedAt : Int64
  expiresAt : Int64
  releaseID : Text
  usageRefreshSeconds : UInt64
  authorityCAPEM : Text
  clientCAPEM : Text
  capabilityPublicKey : Text
  volumes : List VolumePlan
deriving DecidableEq

/-- A lower-case hexadecimal digit. -/
def hexDigit (b : UInt8) : Bool := (48 ≤ b ∧ b ≤ 57) ∨ (97 ≤ b ∧ b ≤ 102)

/-- `plan.go:277`, and `validLowerHex`, `state.go:168`. -/
def validHex (size : ℕ) (value : Text) : Bool := value.length = 2 * size ∧ value.all hexDigit

/-- `plan.go:282`: `uuidPattern`. -/
def validID (value : Text) : Bool :=
  (value.splitOn 45).map List.length = [8, 4, 4, 4, 12] ∧ (value.splitOn 45).all (·.all hexDigit)

/-- Some character is a control character: `unicode.IsControl` over an encoded text. -/
def hasControl : Text → Bool
  | [] => false
  | b :: rest =>
    b < 32 ∨ b = 127 ∨ (b = 0xC2 ∧ (rest.head?.any fun c => 0x80 ≤ c ∧ c ≤ 0x9F)) ∨ hasControl rest

/-- `plan.go:284`. -/
def validText (value : Text) (maximum : ℕ) : Bool :=
  value ≠ [] ∧ value.length ≤ maximum ∧ Text.trimSpace value = value ∧ ¬ hasControl value

/-- `Version`, `plan.go:28`. -/
def planVersion : UInt32 := 3

/-- `plan.go:264`. -/
def validRestoreSource (source : RestoreSource) : Bool :=
  source.sealedEpoch ≠ 0 ∧ validID source.attempt ∧ validHex 32 source.manifestDigestSHA256 ∧
    0 < source.manifestSizeBytes ∧ source.manifestSizeBytes ≤ 2147483648 ∧
    (source.manifestCRC64NVME = [] ∨ validText source.manifestCRC64NVME 256) ∧
    0 < source.packCount ∧ source.packCount ≤ 1024 ∧ 0 < source.sealedAllocatedBytes ∧
    0 < source.sealedInodes

/-- `plan.go:271`. -/
def validReleaseProof (proof : ReleaseProof) : Bool :=
  0 < proof.placementSequence ∧ 0 < proof.authorityEpoch ∧ validHex 32 proof.destroyProofSHA256

/-- The rules about the phase of a volume, `plan.go:215`. -/
def validPhase (volume : VolumePlan) : Bool :=
  match volume.phase with
  | .provision | .fence | .quiesce | .destroy => true
  | .serve => volume.authorityCertificate ≠ []
  | .archive =>
    volume.archiveTo.any fun target => validID target.attempt ∧ validText target.keyVersion 256
  | .restore => volume.restoreFrom.any validRestoreSource
  | .release => volume.releaseProof.any validReleaseProof
  | .other _ => false

/-- The rules about one volume, `plan.go:203`. -/
def validVolume (volume : VolumePlan) : Bool :=
  validID volume.volumeID ∧ validText volume.authorizationDomain 256 ∧ validText volume.owner 256 ∧
    validText volume.productIssuer 256 ∧ volume.productPublicKeyPEM ≠ [] ∧
    validText volume.authorityID 253 ∧ volume.authorityGeneration ≠ 0 ∧ volume.projectID ≠ 0 ∧
    1000 ≤ volume.serviceUID ∧ 1000 ≤ volume.serviceGID ∧ 1024 ≤ volume.listenPort ∧
    volume.quotaBytes ≠ 0 ∧ volume.quotaBytes % 1024 = 0 ∧ volume.quotaInodes ≠ 0 ∧
    volume.authorityServerName ≠ [] ∧ volume.placementSequence ≠ 0 ∧ validPhase volume ∧
    (volume.phase = .archive ∨ volume.archiveTo = none) ∧
    (volume.phase = .restore ∨ volume.restoreFrom = none) ∧
    (volume.phase = .release ∨ volume.releaseProof = none)

/-- `plan.go:190`. -/
def Plan.validate (plan : Plan) : Bool :=
  plan.version = planVersion ∧ validID plan.cellID ∧ plan.generation ≠ 0 ∧ 0 < plan.issuedAt ∧
    plan.issuedAt < plan.expiresAt ∧ validText plan.releaseID 256 ∧
    plan.usageRefreshSeconds ≠ 0 ∧ plan.usageRefreshSeconds ≤ 9223372036 ∧
    plan.authorityCAPEM ≠ [] ∧ plan.clientCAPEM ≠ [] ∧ plan.capabilityPublicKey ≠ [] ∧
    plan.volumes.all validVolume ∧ (plan.volumes.map (·.volumeID)).Nodup ∧
    (plan.volumes.map (·.projectID)).Nodup ∧ (plan.volumes.map (·.serviceUID)).Nodup ∧
    (plan.volumes.map (·.listenPort)).Nodup ∧
    (plan.volumes.zip plan.volumes.tail).all fun (a, b) => ¬ b.volumeID < a.volumeID

/-- `plan.go:147`, after the envelope is opened. -/
def Plan.verify (plan : Plan) (cellID : Text) (now : ℤ) (clockSkew maxLifetime : Int64) : Bool :=
  validID cellID ∧ now ≠ ProductAuth.zeroTime ∧ 0 ≤ clockSkew ∧ 0 < maxLifetime ∧ plan.validate ∧
    plan.cellID = cellID ∧ ProductAuth.windowOpen now clockSkew plan.issuedAt plan.expiresAt ∧
    plan.expiresAt - plan.issuedAt ≤ maxLifetime / 1000000000

theorem Plan.validate_nodup {plan : Plan} (h : plan.validate = true) :
    (plan.volumes.map (·.volumeID)).Nodup := by
  simp only [Plan.validate, decide_eq_true_eq] at h
  exact h.2.2.2.2.2.2.2.2.2.2.2.2.1

end PortableFS.Cell
