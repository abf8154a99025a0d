import SynapseGo.Auth.Jwt

/-! `auth.TokenService`: platform, tenant and step-up tokens under one secret. The three claim
schemas share member names, and a parser fills the members it does not find with zero values. -/
namespace SynapseGo.Auth
open SynapseGo.Go

inductive Err where
  | invalidToken
  | wrongType
  | invalidStepUp
  | weakSecret
  | audienceRequired
  deriving DecidableEq, Repr

structure PlatformClaims where
  principalID : UInt64
  principalType : GoString
  roleCodes : Option (List GoString)
  tokenVersion : Int64
  tokenType : GoString
  registered : RegisteredClaims
  deriving DecidableEq, Repr

structure TenantClaims where
  tenantID : UInt64
  tenantCode : GoString
  principalID : UInt64
  principalType : GoString
  roleCodes : Option (List GoString)
  tokenVersion : Int64
  tokenType : GoString
  actorPrincipalID : Option UInt64
  registered : RegisteredClaims
  deriving DecidableEq, Repr

structure StepUpClaims where
  principalID : UInt64
  scope : GoString
  tokenType : GoString
  registered : RegisteredClaims
  deriving DecidableEq, Repr

/-- A nil slice is written as null. -/
def roleCodesJson : Option (List GoString) → Json
  | none => .null
  | some l => .strings l

def PlatformClaims.toJson (c : PlatformClaims) : Object
  | .principalID => some (.number c.principalID.toNat)
  | .principalType => some (.string c.principalType)
  | .roleCodes => some (roleCodesJson c.roleCodes)
  | .tokenVersion => some (.number c.tokenVersion.toInt)
  | .tokenType => some (.string c.tokenType)
  | f => c.registered.toJson f

def TenantClaims.toJson (c : TenantClaims) : Object
  | .tenantID => some (.number c.tenantID.toNat)
  | .tenantCode => some (.string c.tenantCode)
  | .principalID => some (.number c.principalID.toNat)
  | .principalType => some (.string c.principalType)
  | .roleCodes => some (roleCodesJson c.roleCodes)
  | .tokenVersion => some (.number c.tokenVersion.toInt)
  | .tokenType => some (.string c.tokenType)
  | .actorPrincipalID => c.actorPrincipalID.map fun id => .number id.toNat
  | f => c.registered.toJson f

def StepUpClaims.toJson (c : StepUpClaims) : Object
  | .principalID => some (.number c.principalID.toNat)
  | .scope => some (.string c.scope)
  | .tokenType => some (.string c.tokenType)
  | f => c.registered.toJson f

def asRoleCodes (v : Json) : Option (Option (List GoString)) := (asStrings v).map some

def asActor (v : Json) : Option (Option UInt64) := (asUint64 v).map some

def PlatformClaims.ofJson (o : Object) : Option PlatformClaims := do
  let principalID ← o.read 0 asUint64 .principalID
  let principalType ← o.read [] asString .principalType
  let roleCodes ← o.read none asRoleCodes .roleCodes
  let tokenVersion ← o.read 0 asInt .tokenVersion
  let tokenType ← o.read [] asString .tokenType
  let registered ← RegisteredClaims.ofJson o
  return ⟨principalID, principalType, roleCodes, tokenVersion, tokenType, registered⟩

def TenantClaims.ofJson (o : Object) : Option TenantClaims := do
  let tenantID ← o.read 0 asUint64 .tenantID
  let tenantCode ← o.read [] asString .tenantCode
  let principalID ← o.read 0 asUint64 .principalID
  let principalType ← o.read [] asString .principalType
  let roleCodes ← o.read none asRoleCodes .roleCodes
  let tokenVersion ← o.read 0 asInt .tokenVersion
  let tokenType ← o.read [] asString .tokenType
  let actorPrincipalID ← o.read none asActor .actorPrincipalID
  let registered ← RegisteredClaims.ofJson o
  return ⟨tenantID, tenantCode, principalID, principalType, roleCodes, tokenVersion, tokenType,
    actorPrincipalID, registered⟩

def StepUpClaims.ofJson (o : Object) : Option StepUpClaims := do
  let principalID ← o.read 0 asUint64 .principalID
  let scope ← o.read [] asString .scope
  let tokenType ← o.read [] asString .tokenType
  let registered ← RegisteredClaims.ofJson o
  return ⟨principalID, scope, tokenType, registered⟩

structure TokenService where
  secret : GoString
  issuer : GoString
  audience : GoString
  platTTL : Int64
  tenTTL : Int64
  deriving DecidableEq, Repr

def knownBadSecrets : List GoString :=
  [lit "your_production_jwt_secret_key_here", lit "dev_jwt_secret_key_please_change_in_production",
    lit "dev_jwt_secret_key_please_change_in_production_32chars",
    lit "test_jwt_secret_key_32chars_for_testing", lit "change_me", lit "secret", lit "jwt_secret",
    lit "default_secret"]

def minSecretLen : ℕ := 32

def validateSecretStrength (U : CaseTables) (secret : GoString) : Bool :=
  minSecretLen ≤ secret.length &&
    knownBadSecrets.all fun bad => toLower U secret ≠ toLower U bad

/-- The conversion of the seconds to a `time.Duration` wraps. -/
def newTokenServiceWithAudience (U : CaseTables) (secret issuer audience : GoString)
    (platTTLSec tenTTLSec : Int64) : Except Err TokenService :=
  if !validateSecretStrength U secret then .error .weakSecret
  else
    let audience := trimSpace audience
    if audience = [] then .error .audienceRequired
    else .ok ⟨secret, issuer, audience, platTTLSec * 1000000000, tenTTLSec * 1000000000⟩

/-- 5 min. -/
def maxStepUpTTL : Int64 := 300000000000

namespace TokenService

def registered (s : TokenService) (now : ℤ) (ttl : Int64) : RegisteredClaims where
  issuer := s.issuer
  audience := [s.audience]
  issuedAt := newNumericDate now
  expiresAt := newNumericDate (now + ttl.toInt)

def platformClaims (s : TokenService) (now : ℤ) (principalID : UInt64) (roleCodes : Option (List GoString))
    (tokenVersion : Int64) : PlatformClaims where
  principalID := principalID
  principalType := lit "platform_admin"
  roleCodes := roleCodes
  tokenVersion := tokenVersion
  tokenType := lit "platform"
  registered := s.registered now s.platTTL

def issuePlatformToken (s : TokenService) (now : ℤ) (principalID : UInt64)
    (roleCodes : Option (List GoString)) (tokenVersion : Int64) : Except Err Token :=
  .ok ⟨s.secret, (s.platformClaims now principalID roleCodes tokenVersion).toJson⟩

def tenantClaims (s : TokenService) (now : ℤ) (tenantID : UInt64) (tenantCode : GoString)
    (principalID : UInt64) (principalType : GoString) (roleCodes : Option (List GoString))
    (tokenVersion : Int64) (actorPrincipalID : Option UInt64) : TenantClaims where
  tenantID := tenantID
  tenantCode := tenantCode
  principalID := principalID
  principalType := principalType
  roleCodes := roleCodes
  tokenVersion := tokenVersion
  tokenType := lit "tenant"
  actorPrincipalID := actorPrincipalID
  registered := s.registered now s.tenTTL

def issueTenantToken (s : TokenService) (now : ℤ) (tenantID : UInt64) (tenantCode : GoString)
    (principalID : UInt64) (principalType : GoString) (roleCodes : Option (List GoString))
    (tokenVersion : Int64) (actorPrincipalID : Option UInt64) : Except Err Token :=
  .ok ⟨s.secret, (s.tenantClaims now tenantID tenantCode principalID principalType roleCodes tokenVersion
    actorPrincipalID).toJson⟩

def stepUpClaims (s : TokenService) (now : ℤ) (principalID : UInt64) (scope : GoString) (ttl : Int64) :
    StepUpClaims where
  principalID := principalID
  scope := scope
  tokenType := lit "step_up"
  registered := s.registered now ttl

def issueStepUpToken (s : TokenService) (now : ℤ) (principalID : UInt64) (scope : GoString)
    (ttl : Int64) : Except Err Token :=
  let scope := trimSpace scope
  if principalID = 0 ∨ scope = [] ∨ ttl ≤ 0 ∨ maxStepUpTTL < ttl then .error .invalidStepUp
  else .ok ⟨s.secret, (s.stepUpClaims now principalID scope ttl).toJson⟩

def checkAudienceCompat (aud : List GoString) (expected : GoString) : Bool := aud.any (· = expected)

/-- The course the three parsers share; `mismatch` is the check of a parser's own kind. -/
def parseToken {α : Type} (ofJson : Object → Option α) (registered : α → RegisteredClaims)
    (mismatch : α → Bool) (s : TokenService) (now : ℤ) (token : Token) : Except Err α :=
  match parseWithClaims ofJson registered s.secret now token with
  | none => .error .invalidToken
  | some claims =>
    if mismatch claims then .error .wrongType
    else if !checkAudienceCompat (registered claims).audience s.audience then .error .invalidToken
    else .ok claims

def parsePlatformToken : TokenService → ℤ → Token → Except Err PlatformClaims :=
  parseToken PlatformClaims.ofJson PlatformClaims.registered fun claims =>
    claims.tokenType ≠ lit "platform" ∨ claims.principalID = 0 ∨ claims.principalType ≠ lit "platform_admin"

def parseTenantToken : TokenService → ℤ → Token → Except Err TenantClaims :=
  parseToken TenantClaims.ofJson TenantClaims.registered fun claims =>
    claims.tokenType ≠ lit "tenant" ∨ claims.tenantID = 0 ∨ claims.principalID = 0

def parseStepUpToken : TokenService → ℤ → Token → Except Err StepUpClaims :=
  parseToken StepUpClaims.ofJson StepUpClaims.registered fun claims =>
    claims.tokenType ≠ lit "step_up" ∨ claims.principalID = 0 ∨ claims.scope = []

end TokenService

inductive Kind where
  | platform
  | tenant
  | stepUp
  deriving DecidableEq, Repr

inductive Claims where
  | platform (claims : PlatformClaims)
  | tenant (claims : TenantClaims)
  | stepUp (claims : StepUpClaims)
  deriving DecidableEq, Repr

/-- A call of one of the three issuers, with its arguments. -/
inductive Issuance where
  | platform (principalID : UInt64) (roleCodes : Option (List GoString)) (tokenVersion : Int64)
  | tenant (tenantID : UInt64) (tenantCode : GoString) (principalID : UInt64) (principalType : GoString)
    (roleCodes : Option (List GoString)) (tokenVersion : Int64) (actorPrincipalID : Option UInt64)
  | stepUp (principalID : UInt64) (scope : GoString) (ttl : Int64)
  deriving DecidableEq, Repr

def TokenService.issue (s : TokenService) (now : ℤ) : Issuance → Except Err Token
  | .platform principalID roleCodes tokenVersion =>
    s.issuePlatformToken now principalID roleCodes tokenVersion
  | .tenant tenantID tenantCode principalID principalType roleCodes tokenVersion actorPrincipalID =>
    s.issueTenantToken now tenantID tenantCode principalID principalType roleCodes tokenVersion
      actorPrincipalID
  | .stepUp principalID scope ttl => s.issueStepUpToken now principalID scope ttl

def TokenService.parse (s : TokenService) (now : ℤ) (token : Token) : Kind → Except Err Claims
  | .platform => (s.parsePlatformToken now token).map .platform
  | .tenant => (s.parseTenantToken now token).map .tenant
  | .stepUp => (s.parseStepUpToken now token).map .stepUp

namespace Issuance

def kind : Issuance → Kind
  | .platform .. => .platform
  | .tenant .. => .tenant
  | .stepUp .. => .stepUp

/-- The ids a token stands for: of its principal, and of its tenant. -/
def ids : Issuance → List UInt64
  | .platform principalID _ _ => [principalID]
  | .tenant tenantID _ principalID _ _ _ _ => [tenantID, principalID]
  | .stepUp principalID _ _ => [principalID]

def ttl (s : TokenService) : Issuance → Int64
  | .platform .. => s.platTTL
  | .tenant .. => s.tenTTL
  | .stepUp _ _ ttl => ttl

/-- The second from which on the token is refused. -/
def expiry (s : TokenService) (now : ℤ) (call : Issuance) : ℤ := (now + (call.ttl s).toInt) / 10 ^ 9

/-- What the caller asked to be certified, with the scope trimmed and times in whole seconds. -/
def claims (s : TokenService) (now : ℤ) : Issuance → Claims
  | .platform principalID roleCodes tokenVersion =>
    .platform (s.platformClaims now principalID roleCodes tokenVersion)
  | .tenant tenantID tenantCode principalID principalType roleCodes tokenVersion actorPrincipalID =>
    .tenant (s.tenantClaims now tenantID tenantCode principalID principalType roleCodes tokenVersion
      actorPrincipalID)
  | .stepUp principalID scope ttl => .stepUp (s.stepUpClaims now principalID (trimSpace scope) ttl)

end Issuance

section
variable {o : Object}

theorem read_roleCodes {roleCodes : Option (List GoString)}
    (h : o .roleCodes = some (roleCodesJson roleCodes)) :
    o.read none asRoleCodes .roleCodes = some roleCodes := by
  cases roleCodes <;> simp [Object.read, h, roleCodesJson, asRoleCodes, asStrings]

theorem read_actor {actor : Option UInt64}
    (h : o .actorPrincipalID = actor.map fun id => .number id.toNat) :
    o.read none asActor .actorPrincipalID = some actor := by
  cases actor with
  | none => simp [Object.read, h]
  | some id => rw [Object.read_of_ne_null h (by simp), asActor, asUint64_number, Option.map_some]

end

theorem PlatformClaims.ofJson_toJson (c : PlatformClaims) : PlatformClaims.ofJson c.toJson = some c := by
  have hregistered : RegisteredClaims.ofJson c.toJson = some c.registered :=
    RegisteredClaims.ofJson_eq_some (by simp [PlatformClaims.toJson])
  have hid : c.toJson.read 0 asUint64 .principalID = some c.principalID := Object.read_uint64 rfl
  have htype : c.toJson.read [] asString .principalType = some c.principalType := Object.read_string rfl
  have hroles : c.toJson.read none asRoleCodes .roleCodes = some c.roleCodes := read_roleCodes rfl
  have hversion : c.toJson.read 0 asInt .tokenVersion = some c.tokenVersion := Object.read_int rfl
  have htoken : c.toJson.read [] asString .tokenType = some c.tokenType := Object.read_string rfl
  simp [PlatformClaims.ofJson, hregistered, hid, htype, hroles, hversion, htoken]

theorem TenantClaims.ofJson_toJson (c : TenantClaims) : TenantClaims.ofJson c.toJson = some c := by
  have hregistered : RegisteredClaims.ofJson c.toJson = some c.registered :=
    RegisteredClaims.ofJson_eq_some (by simp [TenantClaims.toJson])
  have htenant : c.toJson.read 0 asUint64 .tenantID = some c.tenantID := Object.read_uint64 rfl
  have hcode : c.toJson.read [] asString .tenantCode = some c.tenantCode := Object.read_string rfl
  have hid : c.toJson.read 0 asUint64 .principalID = some c.principalID := Object.read_uint64 rfl
  have htype : c.toJson.read [] asString .principalType = some c.principalType := Object.read_string rfl
  have hroles : c.toJson.read none asRoleCodes .roleCodes = some c.roleCodes := read_roleCodes rfl
  have hversion : c.toJson.read 0 asInt .tokenVersion = some c.tokenVersion := Object.read_int rfl
  have htoken : c.toJson.read [] asString .tokenType = some c.tokenType := Object.read_string rfl
  have hactor : c.toJson.read none asActor .actorPrincipalID = some c.actorPrincipalID := read_actor rfl
  simp [TenantClaims.ofJson, hregistered, htenant, hcode, hid, htype, hroles, hversion, htoken, hactor]

theorem StepUpClaims.ofJson_toJson (c : StepUpClaims) : StepUpClaims.ofJson c.toJson = some c := by
  have hregistered : RegisteredClaims.ofJson c.toJson = some c.registered :=
    RegisteredClaims.ofJson_eq_some (by simp [StepUpClaims.toJson])
  have hid : c.toJson.read 0 asUint64 .principalID = some c.principalID := Object.read_uint64 rfl
  have hscope : c.toJson.read [] asString .scope = some c.scope := Object.read_string rfl
  have htoken : c.toJson.read [] asString .tokenType = some c.tokenType := Object.read_string rfl
  simp [StepUpClaims.ofJson, hregistered, hid, hscope, htoken]

/-- The type member of a payload, whatever schema it is read with. -/
def Object.HasType (o : Object) (tokenType : GoString) : Prop := o .tokenType = some (.string tokenType)

section
variable {o : Object} {t : GoString} (ho : o.HasType t)
include ho

theorem PlatformClaims.tokenType_of_ofJson {c : PlatformClaims} (h : PlatformClaims.ofJson o = some c) :
    c.tokenType = t := by
  simp only [PlatformClaims.ofJson, Object.read_string ho, Option.bind_eq_bind, Option.bind_eq_some_iff,
    Option.some.injEq] at h
  obtain ⟨_, -, _, -, _, -, _, -, _, rfl, _, -, hc⟩ := h
  exact (Option.some.inj hc) ▸ rfl

theorem TenantClaims.tokenType_of_ofJson {c : TenantClaims} (h : TenantClaims.ofJson o = some c) :
    c.tokenType = t := by
  simp only [TenantClaims.ofJson, Object.read_string ho, Option.bind_eq_bind, Option.bind_eq_some_iff,
    Option.some.injEq] at h
  obtain ⟨_, -, _, -, _, -, _, -, _, -, _, -, _, rfl, _, -, _, -, hc⟩ := h
  exact (Option.some.inj hc) ▸ rfl

theorem StepUpClaims.tokenType_of_ofJson {c : StepUpClaims} (h : StepUpClaims.ofJson o = some c) :
    c.tokenType = t := by
  simp only [StepUpClaims.ofJson, Object.read_string ho, Option.bind_eq_bind, Option.bind_eq_some_iff,
    Option.some.injEq] at h
  obtain ⟨_, -, _, -, _, rfl, _, -, hc⟩ := h
  exact (Option.some.inj hc) ▸ rfl

end

namespace TokenService

theorem parseToken_eq_ok {α : Type} {ofJson : Object → Option α} {registered : α → RegisteredClaims}
    {mismatch : α → Bool} {s : TokenService} {now : ℤ} {token : Token} {claims : α} :
    parseToken ofJson registered mismatch s now token = .ok claims ↔ token.key = s.secret ∧
      ofJson token.payload = some claims ∧ (∀ t ∈ (registered claims).expiresAt, now < t * 10 ^ 9) ∧
      mismatch claims = false ∧ s.audience ∈ (registered claims).audience := by
  rw [← and_assoc, ← and_assoc, and_assoc (a := token.key = s.secret), ← parseWithClaims_eq_some, parseToken]
  cases parseWithClaims ofJson registered s.secret now token with
  | none => simp
  | some c =>
    have haud : checkAudienceCompat (registered c).audience s.audience = true ↔
        s.audience ∈ (registered c).audience := by simp [checkAudienceCompat]
    constructor
    · intro h
      by_cases hmismatch : mismatch c = true
      · simp [hmismatch] at h
      · by_cases hin : s.audience ∈ (registered c).audience
        · have hc : c = claims := by simpa [hmismatch, haud.mpr hin] using h
          subst hc
          exact ⟨rfl, by simpa using hmismatch, hin⟩
        · simp [hmismatch, mt haud.mp hin] at h
    · rintro ⟨hc, hmismatch, hin⟩
      cases hc
      simp [hmismatch, haud.mpr hin]

end TokenService

def Kind.tokenType : Kind → GoString
  | .platform => lit "platform"
  | .tenant => lit "tenant"
  | .stepUp => lit "step_up"

theorem Kind.tokenType_injective {k k' : Kind} (h : k.tokenType = k'.tokenType) : k = k' := by
  cases k <;> cases k' <;> first | rfl | exact absurd h (by decide)

theorem map_eq_ok {ε α β : Type} {f : α → β} {x : Except ε α} {b : β} :
    x.map f = .ok b ↔ ∃ a, x = .ok a ∧ f a = b := by
  cases x <;> simp [Except.map]

section
variable {s : TokenService} {now : ℤ} {token : Token}

theorem TokenService.hasType_of_issue {call : Issuance} (h : s.issue now call = .ok token) :
    token.payload.HasType call.kind.tokenType := by
  cases call with
  | platform principalID roleCodes tokenVersion => cases h; rfl
  | tenant => cases h; rfl
  | stepUp principalID scope ttl =>
    simp only [issue, issueStepUpToken] at h
    split at h
    · cases h
    · cases h
      rfl

/-- A parser accepts payloads of its own type only, with whatever schema they were written. -/
theorem TokenService.tokenType_of_parse {kind : Kind} {claims : Claims} {t : GoString}
    (ho : token.payload.HasType t) (h : s.parse now token kind = .ok claims) : t = kind.tokenType := by
  cases kind with
  | platform =>
    obtain ⟨c, hc, -⟩ := map_eq_ok.mp h
    obtain ⟨-, hpayload, -, hmismatch, -⟩ := parseToken_eq_ok.mp hc
    rw [← PlatformClaims.tokenType_of_ofJson ho hpayload]
    simp only [decide_eq_false_iff_not, not_or, not_not] at hmismatch
    exact hmismatch.1
  | tenant =>
    obtain ⟨c, hc, -⟩ := map_eq_ok.mp h
    obtain ⟨-, hpayload, -, hmismatch, -⟩ := parseToken_eq_ok.mp hc
    rw [← TenantClaims.tokenType_of_ofJson ho hpayload]
    simp only [decide_eq_false_iff_not, not_or, not_not] at hmismatch
    exact hmismatch.1
  | stepUp =>
    obtain ⟨c, hc, -⟩ := map_eq_ok.mp h
    obtain ⟨-, hpayload, -, hmismatch, -⟩ := parseToken_eq_ok.mp hc
    rw [← StepUpClaims.tokenType_of_ofJson ho hpayload]
    simp only [decide_eq_false_iff_not, not_or, not_not] at hmismatch
    exact hmismatch.1

/-- Reading back a payload that `s` signed for a lifetime of `ttl`. -/
theorem TokenService.parseToken_signed {α : Type} {ofJson : Object → Option α}
    {r : α → RegisteredClaims} {mismatch : α → Bool} {wrap : α → Claims} {s' : TokenService}
    {now' : ℤ} {o : Object} {ttl : Int64} {c : α} {claims : Claims} (hsecret : s.secret = s'.secret)
    (hpayload : ofJson o = some c) (hregistered : r c = s.registered now ttl) :
    (parseToken ofJson r mismatch s' now' ⟨s.secret, o⟩).map wrap = .ok claims ↔ claims = wrap c ∧
      s.audience = s'.audience ∧ now' < (now + ttl.toInt) / 10 ^ 9 * 10 ^ 9 ∧ mismatch c = false := by
  simp only [map_eq_ok, parseToken_eq_ok, hpayload]
  constructor
  · rintro ⟨_, ⟨-, hc, htime, hmismatch, hin⟩, hclaims⟩
    cases hc
    rw [hregistered] at htime hin
    exact ⟨hclaims.symm, (List.mem_singleton.mp hin).symm, htime _ rfl, hmismatch⟩
  · rintro ⟨hclaims, haudience, htime, hmismatch⟩
    refine ⟨c, ⟨hsecret, rfl, ?_, hmismatch, ?_⟩, hclaims.symm⟩
    · rw [hregistered]
      rintro t ⟨⟩
      exact htime
    · rw [hregistered]
      exact List.mem_singleton.mpr haudience.symm

/-- A token is read back by the parser of its kind, in time and when its ids are set. -/
theorem TokenService.parse_issue {call : Issuance} {s' : TokenService} {now' : ℤ} {claims : Claims}
    (hsecret : s.secret = s'.secret) (h : s.issue now call = .ok token) :
    s'.parse now' token call.kind = .ok claims ↔ claims = call.claims s now ∧ s.audience = s'.audience ∧
      now' < call.expiry s now * 10 ^ 9 ∧ ∀ id ∈ call.ids, id ≠ 0 := by
  cases call with
  | platform principalID roleCodes tokenVersion =>
    cases h
    have hround := PlatformClaims.ofJson_toJson (s.platformClaims now principalID roleCodes tokenVersion)
    refine (parseToken_signed (r := PlatformClaims.registered) hsecret hround rfl).trans ?_
    simp [Issuance.claims, Issuance.expiry, Issuance.ttl, Issuance.ids, platformClaims]
  | tenant tenantID tenantCode principalID principalType roleCodes tokenVersion actorPrincipalID =>
    cases h
    have hround :=
      TenantClaims.ofJson_toJson (s.tenantClaims now tenantID tenantCode principalID principalType
      roleCodes tokenVersion actorPrincipalID)
    refine (parseToken_signed (r := TenantClaims.registered) hsecret hround rfl).trans ?_
    simp [Issuance.claims, Issuance.expiry, Issuance.ttl, Issuance.ids, tenantClaims]
  | stepUp principalID scope ttl =>
    simp only [issue, issueStepUpToken] at h
    split at h
    · cases h
    next hargs =>
    cases h
    have hround := StepUpClaims.ofJson_toJson (s.stepUpClaims now principalID (trimSpace scope) ttl)
    refine (parseToken_signed (r := StepUpClaims.registered) hsecret hround rfl).trans ?_
    simp only [not_or] at hargs
    simp [Issuance.claims, Issuance.expiry, Issuance.ttl, Issuance.ids, stepUpClaims, hargs]

end

/-- Between two services with one secret a token is accepted by the parser of its own kind alone, under
the same audience, before it expires and with its ids set, and it is accepted as what was issued. -/
theorem TokenService.no_token_confusion {s s' : TokenService} (hsecret : s.secret = s'.secret) {now : ℤ}
    {call : Issuance} {token : Token} (h : s.issue now call = .ok token) (now' : ℤ) (kind : Kind) :
    ((∃ claims, s'.parse now' token kind = .ok claims) ↔ call.kind = kind ∧ s.audience = s'.audience ∧
        now' < call.expiry s now * 10 ^ 9 ∧ ∀ id ∈ call.ids, id ≠ 0) ∧
      (∀ claims, s'.parse now' token kind = .ok claims → claims = call.claims s now) ∧
      (call.kind ≠ .stepUp → ∀ claims, s'.parse now' token .stepUp ≠ .ok claims) ∧
      (call.kind = .stepUp → kind ≠ .stepUp → ∀ claims, s'.parse now' token kind ≠ .ok claims) := by
  have hkind : ∀ {k claims}, s'.parse now' token k = .ok claims → call.kind = k := fun hparse =>
    Kind.tokenType_injective (tokenType_of_parse (hasType_of_issue h) hparse)
  refine ⟨⟨?_, ?_⟩, ?_, ?_, ?_⟩
  · rintro ⟨claims, hparse⟩
    have hown := hkind hparse
    subst hown
    exact ⟨rfl, ((parse_issue hsecret h).mp hparse).2⟩
  · rintro ⟨rfl, hrest⟩
    exact ⟨call.claims s now, (parse_issue hsecret h).mpr ⟨rfl, hrest⟩⟩
  · intro claims hparse
    have hown := hkind hparse
    subst hown
    exact ((parse_issue hsecret h).mp hparse).1
  · intro hcall claims hparse
    exact hcall (hkind hparse)
  · intro hcall hne claims hparse
    exact hne ((hkind hparse).symm.trans hcall)

def sampleService : TokenService :=
  ⟨lit "0123456789abcdef0123456789abcdef", lit "control-api", lit "synapse", 900000000000, 900000000000⟩

def sampleActAs : Issuance := .tenant 3 (lit "acme") 7 (lit "user") none 1 (some 9)

/-- An act-as token, read half a second later by a service of another lifetime. -/
theorem TokenService.sampleActAs_accepted :
    ∃ token, sampleService.issue 1700000000500000000 sampleActAs = .ok token ∧
      ∃ claims, { sampleService with tenTTL := 0 }.parse 1700000001000000000 token .tenant = .ok claims := by
  refine ⟨_, rfl, ?_⟩
  have h := TokenService.no_token_confusion
    (rfl : sampleService.secret = { sampleService with tenTTL := 0 }.secret)
    (rfl : sampleService.issue 1700000000500000000 sampleActAs = .ok _) 1700000001000000000 .tenant
  have hids : ∀ id ∈ [(3 : UInt64), 7], id ≠ 0 := by simp
  exact h.1.mpr ⟨rfl, rfl, by decide +kernel, hids⟩

end SynapseGo.Auth
