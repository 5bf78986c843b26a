import PortableFS.Base.SlotHeap
import PortableFS.Base.Text
import PortableFS.Auth.ProductAuth

/-!
# Volume capabilities

`vcs/internal/volumecap/volumecap.go`: the authority's check of a capability and the record of
the nonces it has spent. The clock is read once in a call, so a call takes its reading. The queue of
expiries is the heap of `container/heap`.
-/

namespace PortableFS.VolumeCap

open Base ProductAuth

/-- `volumecap.go:43`. -/
structure Claims where
  volumeID : String
  subject : String
  access : List String
  notBefore : Int64
  expires : Int64
  peerSPKI : List UInt8
  nonce : String
  cellID : String
  authorityID : String
  authorityGeneration : UInt64
  productAuthorization : List UInt8
  mountEnrollmentID : String
  sessionID : List UInt8
  sequence : UInt64
deriving DecidableEq

/-- The configuration of an `Authorizer`, `volumecap.go:77`. -/
structure Authorizer where
  publicKey : List UInt8
  productPublicKey : List UInt8
  productIssuer : String
  productAudience : String
  authorizationDomain : String
  owner : String
  cellID : String
  authorityID : String
  authorityGeneration : UInt64
  clockSkew : Int64
  maxLifetime : Int64
  maxRetainedNonces : ℤ

/-- `volumeserver.Authorization`, `session.go:81`. -/
structure Authorization where
  access : UInt8
  deadline : ℤ
  mountEnrollmentID : String
deriving DecidableEq

/-- The errors, `volumecap.go:30`. -/
inductive Error
  | invalid
  | replayed
  | noNonceCapacity
deriving DecidableEq

/-- What capabilities take from elsewhere: the encodings of tokens, `json.Unmarshal` of both kinds
of claims and SHA-256. -/
structure Wire where
  encoding : Encoding
  unmarshal : List UInt8 → Option Claims
  unmarshalProduct : List UInt8 → Option ProductAuth.Claims
  sha256 : List UInt8 → Vector UInt8 32

/-- `volumecap.go:292`. -/
structure NonceExpiry where
  nonce : String
  expires : ℤ
deriving DecidableEq

/-- `volumecap.go:265`. -/
structure SpentNonces where
  present : Finset String
  expiry : List NonceExpiry

/-- A new `spentNonces`. -/
def SpentNonces.empty : SpentNonces := ⟨∅, []⟩

/-- The loop of `spend`, `volumecap.go:277`. Every round pops an expiry. -/
def SpentNonces.evict (now : ℤ) : ℕ → SpentNonces → SpentNonces
  | 0, s => s
  | n + 1, s =>
    match s.expiry.head? with
    | none => s
    | some first =>
      if now < first.expires then s
      else evict now n
        ⟨s.present.erase first.nonce, SlotHeap.removeAt NonceExpiry.expires s.expiry 0⟩

/-- `volumecap.go:271`. -/
def SpentNonces.spend (nonce : String) (expires now limit : ℤ) (s : SpentNonces) :
    Except Error Unit × SpentNonces :=
  let s := s.evict now s.expiry.length
  if nonce ∈ s.present then (.error .replayed, s)
  else if limit ≤ s.present.card then (.error .noNonceCapacity, s)
  else (.ok (), ⟨insert nonce s.present, SlotHeap.push NonceExpiry.expires s.expiry ⟨nonce, expires⟩⟩)

/-- `volumecap.go:327`. -/
def decode (w : Wire) (token : List UInt8) :
    Option (Claims × List UInt8 × List UInt8) := do
  let (payload, signature) ← splitToken w.encoding token
  let claims ← w.unmarshal payload
  some (claims, payload, signature)

/-- `volumecap.go:319`. -/
def inspect (w : Wire) (token : List UInt8) : Option Claims := (decode w token).map (·.1)

/-- `volumecap.go:28`, signed in front of a payload. -/
def domain : List UInt8 := "portablefs-volume-capability-v1\x00".toUTF8.data.toList

/-- The loop over the permissions, `volumecap.go:181`. -/
def grantedAccess : List String → UInt8 → Option UInt8
  | [], access => some access
  | permission :: rest, access =>
    if permission = "read" then grantedAccess rest (access ||| 1)
    else if permission = "write" then grantedAccess rest (access ||| 1 ||| 2)
    else if permission = "admin" then grantedAccess rest (access ||| 1 ||| 2 ||| 4)
    else none

/-- Whether the authority is hosted, `volumecap.go:217`. -/
def Authorizer.configured (a : Authorizer) : Bool :=
  a.productPublicKey.length ≠ 0 ∨ a.productIssuer ≠ "" ∨ a.productAudience ≠ "" ∨
    a.authorizationDomain ≠ "" ∨ a.owner ≠ "" ∨ a.cellID ≠ "" ∨ a.authorityID ≠ "" ∨
    a.authorityGeneration ≠ 0

/-- The placement a hosted authority asks of claims, `volumecap.go:226`. -/
def Authorizer.placed (a : Authorizer) (claims : Claims) : Bool :=
  a.productPublicKey.length = publicKeySize ∧ a.productIssuer ≠ "" ∧ a.productAudience ≠ "" ∧
    a.authorizationDomain ≠ "" ∧ a.owner ≠ "" ∧ a.cellID ≠ "" ∧ a.authorityID ≠ "" ∧
    a.authorityGeneration ≠ 0 ∧ claims.cellID = a.cellID ∧ claims.authorityID = a.authorityID ∧
    claims.authorityGeneration = a.authorityGeneration

/-- The product's decision inside claims, `volumecap.go:249`. -/
def Authorizer.productAllows (a : Authorizer) (w : Wire) (claims : Claims) (peer : Vector UInt8 32)
    (now : ℤ) : Bool :=
  if claims.productAuthorization = [] then false
  else
    match ProductAuth.verify w.encoding w.unmarshalProduct a.productPublicKey
        claims.productAuthorization
        { issuer := a.productIssuer, audience := a.productAudience,
          authorizationDomain := a.authorizationDomain, owner := a.owner,
          volumeID := claims.volumeID, peerSPKI := peer, now := now, clockSkew := a.clockSkew,
          maxLifetime := a.maxLifetime, renewalScope := "", renewalEpoch := 0 } with
    | none => false
    | some verified =>
      verified.subject = claims.subject ∧ allows verified.access claims.access

/-- `volumecap.go:216`. -/
def Authorizer.verifyHosted (a : Authorizer) (w : Wire) (claims : Claims) (peer : Vector UInt8 32)
    (now : ℤ) : Bool :=
  if ¬ a.configured then
    claims.productAuthorization = [] ∧ claims.mountEnrollmentID = "" ∧ claims.cellID = "" ∧
      claims.authorityID = "" ∧ claims.authorityGeneration = 0
  else if ¬ a.placed claims then false
  else if claims.mountEnrollmentID ≠ "" then
    let enrollment := claims.mountEnrollmentID.toUTF8.data.toList
    if 256 < enrollment.length ∨ Text.trimSpace enrollment ≠ enrollment then false
    else if claims.sessionID ≠ [] then claims.productAuthorization = [] ∧ claims.sequence ≠ 0
    else if claims.sequence ≠ 0 ∨ claims.productAuthorization = [] then false
    else a.productAllows w claims peer now
  else a.productAllows w claims peer now

/-- The rules about an authorizer, a volume and a token, `volumecap.go:140`. -/
def Authorizer.ready (a : Authorizer) (volumeID : String) : Bool :=
  a.publicKey.length = publicKeySize ∧ volumeID ≠ "" ∧ 0 ≤ a.clockSkew ∧ 0 < a.maxLifetime ∧
    0 < a.maxRetainedNonces

/-- The session a capability is for: `none` when it is to be spent, `volumecap.go:154`. -/
def sessionBound (e : Encoding) (session : Option (Vector UInt8 16 × UInt64)) (claims : Claims) :
    Bool :=
  match session with
  | none => claims.sessionID = [] ∧ claims.sequence = 0
  | some (sessionID, sequence) =>
    claims.sessionID = e.encode sessionID.toList ∧ claims.sequence = sequence

/-- What `verify` decides before it spends the nonce, `volumecap.go:140`. -/
def Authorizer.examine (a : Authorizer) (w : Wire) (volumeID : String) (token : List UInt8)
    (peer : Vector UInt8 32) (session : Option (Vector UInt8 16 × UInt64)) (now : ℤ) :
    Option (Claims × Authorization) :=
  if ¬ a.ready volumeID then none
  else do
    let (claims, payload, signature) ← decode w token
    if ¬ w.encoding.signed a.publicKey (domain ++ payload) signature then none
    else if claims.volumeID ≠ volumeID ∨ claims.subject = "" ∨ claims.nonce = "" ∨
        claims.expires ≤ claims.notBefore then none
    else if ¬ sessionBound w.encoding session claims then none
    else if w.encoding.base64 claims.peerSPKI ≠ some peer.toList then none
    else if ¬ windowOpen now a.clockSkew claims.notBefore claims.expires then none
    else if ¬ lifetimeBounded now a.maxLifetime claims.notBefore claims.expires then none
    else
      let access ← grantedAccess claims.access 0
      if access &&& 1 = 0 then none
      else if ¬ a.verifyHosted w claims peer now then none
      else some (claims, ⟨access, Clock.ofUnix claims.expires, claims.mountEnrollmentID⟩)

/-- `volumecap.go:112`: an attach capability is spent. -/
def Authorizer.verify (a : Authorizer) (w : Wire) (volumeID : String) (token : List UInt8)
    (peer : Vector UInt8 32) (now : ℤ) (s : SpentNonces) :
    Except Error Authorization × SpentNonces :=
  match a.examine w volumeID token peer none now with
  | none => (.error .invalid, s)
  | some (claims, authorization) =>
    match s.spend claims.nonce (Clock.ofUnix claims.expires) now a.maxRetainedNonces with
    | (.error err, s) => (.error err, s)
    | (.ok (), s) => (.ok authorization, s)

/-- `volumecap.go:132`: a session's capability is not spent. -/
def Authorizer.verifyReauthorization (a : Authorizer) (w : Wire) (volumeID : String)
    (sessionID : Vector UInt8 16) (sequence : UInt64) (token : List UInt8) (peer : Vector UInt8 32)
    (now : ℤ) : Except Error (Authorization × Vector UInt8 32) :=
  if sessionID = Vector.replicate 16 0 ∨ sequence = 0 then .error .invalid
  else
    match a.examine w volumeID token peer (some (sessionID, sequence)) now with
    | none => .error .invalid
    | some (_, authorization) => .ok (authorization, w.sha256 token)

/-- A call on an authorizer. -/
inductive Call
  | verify (volumeID : String) (token : List UInt8) (peer : Vector UInt8 32)
  | verifyReauthorization (volumeID : String) (sessionID : Vector UInt8 16) (sequence : UInt64)
      (token : List UInt8) (peer : Vector UInt8 32)
deriving DecidableEq

/-- The answer to a call. -/
abbrev Outcome := Except Error Authorization

/-- A call at a clock reading. -/
def Authorizer.step (a : Authorizer) (w : Wire) (s : SpentNonces) (now : ℤ) :
    Call → Outcome × SpentNonces
  | .verify volumeID token peer => a.verify w volumeID token peer now s
  | .verifyReauthorization volumeID sessionID sequence token peer =>
    ((a.verifyReauthorization w volumeID sessionID sequence token peer now).map (·.1), s)

/-- The answers to calls in a row, and the nonces kept after them. -/
def Authorizer.run (a : Authorizer) (w : Wire) (s : SpentNonces) :
    List (ℤ × Call) → List Outcome × SpentNonces
  | [] => ([], s)
  | (now, call) :: calls =>
    let (outcome, s) := a.step w s now call
    let (outcomes, s) := a.run w s calls
    (outcome :: outcomes, s)

/-- The claims of an attach capability, if the call presents one and was answered with success. -/
def acceptedClaims (w : Wire) : Call → Outcome → Option Claims
  | .verify _ token _, .ok _ => inspect w token
  | _, _ => none

/-- The claims of the attach capabilities accepted in a run, in order. -/
def Authorizer.accepted (a : Authorizer) (w : Wire) (s : SpentNonces) (calls : List (ℤ × Call)) :
    List Claims :=
  ((calls.zip (a.run w s calls).1).map fun p => acceptedClaims w p.1.2 p.2).reduceOption

end PortableFS.VolumeCap
