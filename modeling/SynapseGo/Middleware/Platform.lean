import SynapseGo.Auth.Tokens
import SynapseGo.Concurrency.Interleaving
import SynapseGo.Ginutil.ClientIP
import SynapseGo.Go.Fields
import SynapseGo.Go.Strconv
import SynapseGo.Obs.Context

/-! The guards of a route: `PlatformToken`, `TenantToken` and `RequireFeature` of `middleware/platform.go` and
`RequireTenantPermission` of `middleware/permission.go`. Each lookup of a guard is an operation of its own;
between two of them tokens are issued and versions, features and permissions change. -/
namespace SynapseGo.Middleware.Platform
open SynapseGo.Go SynapseGo.Concurrency SynapseGo.Auth
open SynapseGo.Ginutil (equalFold)

def bearerToken (header : GoString) : GoString :=
  match fields header with
  | [scheme, token] => if equalFold scheme (lit "Bearer") then token else []
  | _ => []

/-- `ParseUintID`. -/
def parseUintID (v : GoString) : Option UInt64 := (parseUint64 v).filter fun id => id ≠ 0

/-- What the guards keep in the gin context, in the request's context and in the response header. -/
structure Context where
  platformClaims : Option PlatformClaims
  tenantClaims : Option TenantClaims
  request : Obs.Context
  /-- `X-Token-Expiring-Soon` is set. -/
  expiringSoon : Bool
  deriving DecidableEq, Repr

def Context.empty : Context := ⟨none, none, [], false⟩

structure Refusal where
  status : ℕ
  body : List (GoString × GoString)
  deriving DecidableEq, Repr

def refuse (status : ℕ) (error : GoString) : Refusal := ⟨status, [(lit "error", error)]⟩

inductive Op where
  | now
  | tokenVersion (kind : Kind) (principalID : UInt64)
  | isEnabled (tenantID : UInt64) (featureCode : GoString)
  | hasPermission (tenantID principalID : UInt64) (permCode : GoString)
  /-- What the route is there for. -/
  | action (ctx : Context)
  | issue (s : TokenService) (call : Issuance)
  | setTokenVersion (kind : Kind) (principalID : UInt64) (version : Int64)
  | setEnabled (tenantID : UInt64) (featureCode : GoString) (enabled : Bool)
  | setPermission (tenantID principalID : UInt64) (permCode : GoString) (allowed : Bool)

/-- The texts of lookup errors are not looked at. -/
abbrev Reply : Op → Type
  | .now => ℤ
  | .tokenVersion _ _ => Option Int64
  | .isEnabled _ _ => Option Bool
  | .hasPermission _ _ _ => Option Bool
  | .action _ => Unit
  | .issue _ _ => Except Err Token
  | .setTokenVersion _ _ _ => Unit
  | .setEnabled _ _ _ => Unit
  | .setPermission _ _ _ _ => Unit

structure Env where
  now : ℤ
  /-- The lookup fails. -/
  fault : Bool
  deriving DecidableEq, Repr

structure State where
  version : Kind → UInt64 → Int64
  enabled : UInt64 → GoString → Bool
  permitted : UInt64 → UInt64 → GoString → Bool

def Env.lookup {α : Type} (env : Env) (a : α) : Option α := if env.fault then none else some a

def handle : Handler Op Reply Env State
  | env, .now, s => (env.now, s)
  | env, .tokenVersion kind principalID, s => (env.lookup (s.version kind principalID), s)
  | env, .isEnabled tenantID featureCode, s => (env.lookup (s.enabled tenantID featureCode), s)
  | env, .hasPermission tenantID principalID permCode, s =>
    (env.lookup (s.permitted tenantID principalID permCode), s)
  | _, .action _, s => ((), s)
  | env, .issue service call, s => (service.issue env.now call, s)
  | _, .setTokenVersion kind principalID version, s => ((), { s with
      version := Function.update s.version kind (Function.update (s.version kind) principalID version) })
  | _, .setEnabled tenantID featureCode enabled, s => ((), { s with
      enabled :=
        Function.update s.enabled tenantID (Function.update (s.enabled tenantID) featureCode enabled) })
  | _, .setPermission tenantID principalID permCode allowed, s => ((), { s with
      permitted := fun t p c => if t = tenantID ∧ p = principalID ∧ c = permCode then
        allowed else s.permitted t p c })

/-- 30 min. -/
def defaultExpiryWarnThreshold : Int64 := 1800000000000

def threshold : List Int64 → Int64
  | [] => defaultExpiryWarnThreshold
  | d :: _ => if 0 < d then d else defaultExpiryWarnThreshold

/-- `auth.IsExpiringSoon`. -/
def isExpiringSoon (claims : RegisteredClaims) (now : ℤ) (threshold : Int64) : Bool :=
  claims.expiresAt.any fun t => t * 10 ^ 9 - now < threshold.toInt

/-- In what `PlatformToken` and `TenantToken` differ. -/
structure TokenKind (α : Type) where
  name : GoString
  kind : Kind
  parse : TokenService → ℤ → Token → Except Err α
  principalID : α → UInt64
  tokenVersion : α → Int64
  registered : α → RegisteredClaims
  install : Context → α → Context

def platform : TokenKind PlatformClaims where
  name := lit "platform"
  kind := .platform
  parse := TokenService.parsePlatformToken
  principalID claims := claims.principalID
  tokenVersion claims := claims.tokenVersion
  registered claims := claims.registered
  install ctx claims := { ctx with
    platformClaims := some claims
    request := Obs.withPrincipalID ctx.request claims.principalID }

def tenant : TokenKind TenantClaims where
  name := lit "tenant"
  kind := .tenant
  parse := TokenService.parseTenantToken
  principalID claims := claims.principalID
  tokenVersion claims := claims.tokenVersion
  registered claims := claims.registered
  install ctx claims := { ctx with
    tenantClaims := some claims
    request := Obs.withPrincipalID (Obs.withTenantID ctx.request claims.tenantID) claims.principalID }

/-- The arguments of a token guard; either of the first two may be nil. -/
structure TokenGuard where
  tokenSvc : Option TokenService
  tokenVersion : Bool
  expiryWarn : List Int64
  deriving DecidableEq, Repr

section Guards
variable (decode : GoString → Option Token)

/-- A text is the compact form of a token, or no token at all. -/
def parseText {α : Type} (k : TokenKind α) (svc : TokenService) (now : ℤ) (tok : GoString) : Option α :=
  match decode tok with
  | none => none
  | some token => (k.parse svc now token).toOption

/-- The error of the version check, if it fails. -/
def checkVersion (kind : Kind) (lookup : Bool) (principalID : UInt64) (version : Int64) :
    Prog Op Reply (Option GoString) := do
  if lookup then
    let current : Option Int64 ← Prog.perform (Op.tokenVersion kind principalID)
    match current with
    | none => return some (lit "token validation unavailable")
    | some current => return if version ≠ current then some (lit "token revoked") else none
  else return none

/-- The rest of a guard, with the claims if the token could be parsed. -/
def useClaims {α : Type} (k : TokenKind α) (g : TokenGuard) (ctx : Context) :
    Option α → Prog Op Reply (Except Refusal Context)
  | none => return .error (refuse 401 (lit "invalid " ++ k.name ++ lit " token"))
  | some claims => do
    match ← checkVersion k.kind g.tokenVersion (k.principalID claims) (k.tokenVersion claims) with
    | some error => return .error (refuse 401 error)
    | none =>
      let now : ℤ ← Prog.perform Op.now
      return .ok { k.install ctx claims with
        expiringSoon :=
          ctx.expiringSoon || isExpiringSoon (k.registered claims) now (threshold g.expiryWarn) }

def verifyToken {α : Type} (k : TokenKind α) (g : TokenGuard) (header : GoString) (ctx : Context) :
    Prog Op Reply (Except Refusal Context) :=
  let tok := bearerToken header
  if tok = [] then return .error (refuse 401 (k.name ++ lit " token required"))
  else match g.tokenSvc with
    | none => return .error (refuse 401 (k.name ++ lit " token required"))
    | some svc => do
      let now : ℤ ← Prog.perform Op.now
      useClaims k g ctx (parseText decode k svc now tok)

def platformToken : TokenGuard → GoString → Context → Prog Op Reply (Except Refusal Context) :=
  verifyToken decode platform

def tenantToken : TokenGuard → GoString → Context → Prog Op Reply (Except Refusal Context) :=
  verifyToken decode tenant

def featureDisabled (featureCode : GoString) : Refusal :=
  ⟨403, [(lit "error", lit "feature_disabled"), (lit "feature_code", featureCode)]⟩

/-- `RequireFeature`; `svc` tells whether there is a checker. -/
def requireFeature (svc : Bool) (featureCode : GoString) (ctx : Context) :
    Prog Op Reply (Except Refusal Context) :=
  if ctx.platformClaims.isSome then return .ok ctx
  else match ctx.tenantClaims.filter fun claims => claims.tenantID ≠ 0 with
    | none => return .error (refuse 401 (lit "tenant token required"))
    | some claims =>
      if !svc then return .error (refuse 500 (lit "feature check unavailable"))
      else do
        let enabled : Option Bool ← Prog.perform (Op.isEnabled claims.tenantID featureCode)
        match enabled with
        | none => return .error (refuse 500 (lit "feature check failed"))
        | some false => return .error (featureDisabled featureCode)
        | some true => return .ok ctx

/-- `TenantClaimsForPath`, for the parameters of the path. -/
def tenantClaimsForPath (param : GoString → GoString) (paramName : GoString) (ctx : Context) :
    Except Refusal TenantClaims :=
  let paramName := if paramName = [] then lit "tenant_id" else paramName
  match ctx.tenantClaims with
  | none => .error (refuse 401 (lit "tenant token required"))
  | some claims =>
    if parseUintID (param paramName) = some claims.tenantID then .ok claims
    else .error (refuse 403 (lit "tenant path does not match token"))

/-- The parameter that `RequireTenantPermission` reads. -/
def pathParam : List GoString → GoString
  | [] => lit "tenant_id"
  | name :: _ => if name = [] then lit "tenant_id" else name

def permissionDenied (permCode : GoString) : Refusal :=
  ⟨403, [(lit "error", lit "permission denied"), (lit "permission_code", permCode)]⟩

/-- `RequireTenantPermission`; `authz` tells whether there is an authorizer. -/
def requireTenantPermission (param : GoString → GoString) (authz : Bool) (permCode : GoString)
    (paramName : List GoString) (ctx : Context) : Prog Op Reply (Except Refusal Context) :=
  match tenantClaimsForPath param (pathParam paramName) ctx with
  | .error refusal => return .error refusal
  | .ok claims =>
    if !authz then return .error (permissionDenied permCode)
    else do
      let allowed : Option Bool ← Prog.perform (Op.hasPermission claims.tenantID claims.principalID permCode)
      match allowed with
      | none => return .error (refuse 500 (lit "permission check failed"))
      | some false => return .error (permissionDenied permCode)
      | some true => return .ok ctx

inductive Guard where
  | platformToken (g : TokenGuard)
  | tenantToken (g : TokenGuard)
  | requireFeature (svc : Bool) (featureCode : GoString)
  | requireTenantPermission (authz : Bool) (permCode : GoString) (paramName : List GoString)
  deriving DecidableEq, Repr

structure Request where
  authorization : GoString
  param : GoString → GoString

def Guard.check (r : Request) : Guard → Context → Prog Op Reply (Except Refusal Context)
  | .platformToken g => Platform.platformToken decode g r.authorization
  | .tenantToken g => Platform.tenantToken decode g r.authorization
  | .requireFeature svc featureCode => Platform.requireFeature svc featureCode
  | .requireTenantPermission authz permCode paramName =>
    Platform.requireTenantPermission r.param authz permCode paramName

/-- The guards of a route one after another, up to the first that refuses. -/
def checkAll (r : Request) : List Guard → Context → Prog Op Reply (Except Refusal Context)
  | [], ctx => return .ok ctx
  | g :: route, ctx => do
    match ← g.check decode r ctx with
    | .error refusal => return .error refusal
    | .ok ctx => checkAll r route ctx

def serve (r : Request) (route : List Guard) : Prog Op Reply (Option Refusal) := do
  match ← checkAll decode r route .empty with
  | .error refusal => return some refusal
  | .ok ctx =>
    let _ ← Prog.perform (Op.action ctx)
    return none

end Guards
end SynapseGo.Middleware.Platform
