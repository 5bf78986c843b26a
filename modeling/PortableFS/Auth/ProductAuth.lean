import PortableFS.Base.Clock

/-!
# Product authorizations

`vcs/internal/productauth/productauth.go`, and what `vcs/internal/volumecap/volumecap.go` shares with
it: the form of a token, the validity window and the bound on a lifetime. `encoding/base64`,
`encoding/json` and Ed25519 are parameters. Texts that are only compared are strings; encoded ones
are bytes. A clock reading is in nanoseconds, a duration too. The one error is `none`.
-/

namespace PortableFS.ProductAuth

open Base

/-- What a token takes from elsewhere. -/
structure Encoding where
  /-- `base64.RawURLEncoding.DecodeString`. -/
  base64 : List UInt8 → Option (List UInt8)
  /-- `base64.RawURLEncoding.EncodeToString`. -/
  encode : List UInt8 → List UInt8
  /-- `ed25519.Verify`: key, message and signature. -/
  signed : List UInt8 → List UInt8 → List UInt8 → Bool

/-- `ed25519.PublicKeySize`. -/
def publicKeySize : ℕ := 32

/-- `ed25519.SignatureSize`. -/
def signatureSize : ℕ := 64

/-- The payload and the signature of a token, `productauth.go:84`, `volumecap.go:327`. -/
def splitToken (e : Encoding) (token : List UInt8) : Option (List UInt8 × List UInt8) :=
  if token.length = 0 ∨ 8192 < token.length then none
  else
    match token.splitOn 46 with
    | [version, encodedPayload, encodedSignature] =>
      if version ≠ [118, 49] then none
      else do
        let payload ← e.base64 encodedPayload
        let signature ← e.base64 encodedSignature
        if payload.length = 0 ∨ 4096 < payload.length ∨ signature.length ≠ signatureSize then none
        else some (payload, signature)
    | _ => none

/-- The validity window widened by the clock skew, `productauth.go:122`, `volumecap.go:169`. -/
def windowOpen (now : ℤ) (clockSkew notBefore expires : Int64) : Bool :=
  ¬ (Clock.unix (now + clockSkew.toInt) < notBefore ∨
    expires ≤ Clock.unix (now - clockSkew.toInt))

/-- The bounds on the declared and the remaining lifetime, `productauth.go:126`,
`volumecap.go:176`. -/
def lifetimeBounded (now : ℤ) (maxLifetime notBefore expires : Int64) : Bool :=
  let seconds := maxLifetime / 1000000000
  ¬ (seconds ≤ 0 ∨ seconds < expires - notBefore ∨ seconds < expires - Clock.unix now)

/-- `productauth.go:23`. -/
def maxRenewalEpoch : UInt64 := 9007199254740991

/-- `productauth.go:27`. -/
structure Claims where
  issuer : String
  audience : String
  authorizationDomain : String
  owner : String
  subject : String
  volumeID : String
  access : List String
  peerSPKI : List UInt8
  nonce : String
  notBefore : Int64
  expires : Int64
  renewalScope : String
  renewalEpoch : UInt64
deriving DecidableEq

/-- `productauth.go:43`. -/
structure Expectations where
  issuer : String
  audience : String
  authorizationDomain : String
  owner : String
  volumeID : String
  peerSPKI : Vector UInt8 32
  now : ℤ
  clockSkew : Int64
  maxLifetime : Int64
  renewalScope : String
  renewalEpoch : UInt64

/-- The loop of `accessBits`, `productauth.go:169`. -/
def accessLoop : List String → UInt8 → UInt8
  | [], bits => bits
  | permission :: rest, bits =>
    if permission = "read" then accessLoop rest (bits ||| 1)
    else if permission = "write" then accessLoop rest (bits ||| 3)
    else if permission = "admin" then accessLoop rest (bits ||| 7)
    else 0

/-- `productauth.go:167`. -/
def accessBits (access : List String) : UInt8 := accessLoop access 0

/-- `productauth.go:136`. -/
def allows (granted requested : List String) : Bool :=
  let grant := accessBits granted
  let want := accessBits requested
  grant ≠ 0 ∧ want ≠ 0 ∧ want &&& ~~~grant = 0

/-- A byte of a renewal scope, `productauth.go:152`. -/
def scopeByte (c : UInt8) : Bool :=
  (97 ≤ c ∧ c ≤ 122) ∨ (65 ≤ c ∧ c ≤ 90) ∨ (48 ≤ c ∧ c ≤ 57) ∨ c ∈ [46, 95, 45, 58, 47]

/-- `productauth.go:148`. -/
def validRenewalScope (value : String) : Bool :=
  let bytes := value.toUTF8.data.toList
  bytes.length ≠ 0 ∧ bytes.length ≤ 200 ∧ bytes.all scopeByte

/-- `productauth.go:19`, signed in front of a payload. -/
def domain : List UInt8 :=
  "portablefs-product-authorization-v1\x00".toUTF8.data.toList

/-- The zero time, in nanoseconds since 1970. -/
def zeroTime : ℤ := -62135596800 * Clock.second

/-- The rules about expectations, `productauth.go:75`. -/
def expectationsValid (publicKey : List UInt8) (expected : Expectations) : Bool :=
  publicKey.length = publicKeySize ∧ expected.issuer ≠ "" ∧ expected.audience ≠ "" ∧
    expected.authorizationDomain ≠ "" ∧ expected.owner ≠ "" ∧ expected.volumeID ≠ "" ∧
    expected.now ≠ zeroTime ∧ 0 ≤ expected.clockSkew ∧ 0 < expected.maxLifetime ∧
    (expected.renewalScope = "" ↔ expected.renewalEpoch = 0) ∧
    expected.renewalEpoch ≤ maxRenewalEpoch ∧
    (expected.renewalScope = "" ∨ validRenewalScope expected.renewalScope)

/-- The rules about claims before the window, `productauth.go:106`. -/
def claimsExpected (e : Encoding) (expected : Expectations) (claims : Claims) : Bool :=
  claims.issuer = expected.issuer ∧ claims.audience = expected.audience ∧
    claims.authorizationDomain = expected.authorizationDomain ∧ claims.owner = expected.owner ∧
    claims.volumeID = expected.volumeID ∧ claims.subject ≠ "" ∧ claims.nonce ≠ "" ∧
    claims.notBefore < claims.expires ∧ accessBits claims.access ≠ 0 ∧
    (claims.renewalScope = "" ↔ claims.renewalEpoch = 0) ∧
    claims.renewalEpoch ≤ maxRenewalEpoch ∧
    (claims.renewalScope = "" ∨ validRenewalScope claims.renewalScope) ∧
    (expected.renewalScope = "" ∨ (claims.renewalScope = expected.renewalScope ∧
      claims.renewalEpoch = expected.renewalEpoch)) ∧
    e.base64 claims.peerSPKI = some expected.peerSPKI.toList

/-- `productauth.go:74`: the claims. The peer of `Verified` is the expected one. -/
def verify (e : Encoding) (unmarshal : List UInt8 → Option Claims)
    (publicKey token : List UInt8) (expected : Expectations) : Option Claims :=
  if ¬ expectationsValid publicKey expected then none
  else do
    let (payload, signature) ← splitToken e token
    if ¬ e.signed publicKey (domain ++ payload) signature then none
    else
      let claims ← unmarshal payload
      if ¬ claimsExpected e expected claims then none
      else if ¬ windowOpen expected.now expected.clockSkew claims.notBefore claims.expires then none
      else if ¬ lifetimeBounded expected.now expected.maxLifetime claims.notBefore claims.expires then
        none
      else some claims

end PortableFS.ProductAuth
