import SynapseGo.Auth.Tokens
import SynapseGo.Go.Strconv
import SynapseGo.Idempotency.RequestScope
import SynapseGo.Idempotency.Service

/-! `idempotency.Middleware` as a whole: which requests it takes part in, what it hands to `Begin`, and
what it sends for a replay. -/
namespace SynapseGo.Idempotency
open SynapseGo.Go SynapseGo.Concurrency

/-- A request body: the bytes that its reader gives, and whether it then fails instead of ending. -/
structure Body where
  bytes : GoString
  fails : Bool
  deriving DecidableEq, Repr

/-- What the middleware reads of a request. The claims are those in the gin context, where they are there
under their type and not nil. -/
structure HttpRequest where
  key : GoString
  method : GoString
  path : GoString
  body : Option Body
  tenantClaims : Option Auth.TenantClaims
  platformClaims : Option Auth.PlatformClaims
  /-- `c.Param("tenant_id")` and `c.Query("tenant_id")`. -/
  tenantParam : GoString
  tenantQuery : GoString
  deriving DecidableEq, Repr

/-- What the wrapped handlers do with the response. -/
structure Handled where
  writes : List GoString
  status : ℤ
  /-- The `X-Idempotency-Sensitive` header when they return. -/
  sensitiveHeader : GoString
  deriving DecidableEq, Repr

inductive HttpAnswer where
  /-- The handlers ran without a record. -/
  | passed (status : ℤ) (sent : GoString)
  /-- The handlers ran for a record that this request started. -/
  | executed (status : ℤ) (sent : GoString)
  | replayed (status : ℤ) (sent : GoString)
  | refused (status : ℕ) (error : GoString)
  deriving DecidableEq, Repr

def maxRequestBodyBytes : ℕ := 2 ^ 20

inductive BodyError where
  | tooLarge
  | invalid
  deriving DecidableEq, Repr

/-- One byte more than the bound is read, and an error behind it is not seen. -/
def readBoundedBody (body : Option Body) : Except BodyError GoString :=
  match body with
  | none => .ok []
  | some body =>
    if maxRequestBodyBytes < body.bytes.length then .error .tooLarge
    else if body.fails then .error .invalid
    else .ok body.bytes

def isWriteMethod (method : GoString) : Bool :=
  method = lit "POST" || method = lit "PUT" || method = lit "PATCH" || method = lit "DELETE"

/-- `unmarshalTenantID` is `json.Unmarshal` into a struct with the member `tenant_id`, `none` for its
error. -/
def idempotencyScope (unmarshalTenantID : GoString → Option UInt64) (req : HttpRequest) (body : GoString) :
    Option (UInt64 × UInt64) :=
  match req.tenantClaims with
  | some claims => some (claims.tenantID, claims.principalID)
  | none =>
    match req.platformClaims with
    | none => none
    | some claims =>
      if claims.principalID = 0 then none
      else
        let tid := uintValue req.tenantParam
        let tid := if tid = 0 then uintValue req.tenantQuery else tid
        let tid := if tid = 0 ∧ body ≠ [] then (unmarshalTenantID body).getD tid else tid
        if tid = 0 then none else some (tid, claims.principalID)

/-- `responseCapture`: what it has kept, and what it has passed on. -/
structure Capture where
  body : GoString
  sent : GoString
  deriving DecidableEq, Repr

def Capture.write (w : Capture) (data : GoString) : Capture := ⟨w.body ++ data, w.sent ++ data⟩

def Handled.capture (h : Handled) : Capture := h.writes.foldl Capture.write ⟨[], []⟩

def Handled.sensitive (h : Handled) : Bool := h.sensitiveHeader = lit "true"

def writeMiddlewareError : Err → HttpAnswer
  | .invalidInput => .refused 400 (lit "idempotency: invalid input")
  | .requestMismatch => .refused 409 (lit "idempotency: request mismatch")
  | .requestInProcess => .refused 409 (lit "idempotency: request in progress")
  | .sensitiveResponse => .refused 409 (lit "idempotency: sensitive response, please regenerate")
  | _ => .refused 500 (lit "idempotency operation failed")

section
variable (U : CaseTables) (authority : GoString → GoString → Bool) (sha256 : GoString → GoString)
  (unmarshalTenantID : GoString → Option UInt64) (bodyAllowed : ℤ → Bool)

/-- What the middleware begins with, or the answer to a request that it does not take part in. -/
def beginInput (req : HttpRequest) (handled : Handled) : Except HttpAnswer BeginInput :=
  let passed := HttpAnswer.passed handled.status handled.writes.flatten
  if req.key = [] ∨ !isWriteMethod req.method then .error passed
  else
    match readBoundedBody req.body with
    | .error .tooLarge => .error (.refused 413 (lit "request body too large"))
    | .error .invalid => .error (.refused 400 (lit "invalid request body"))
    | .ok body =>
      match idempotencyScope unmarshalTenantID req body with
      | none => .error passed
      | some (tenantID, principalID) =>
        .ok ⟨tenantID.toNat, principalID.toNat, req.key, req.method, req.path,
          requestHash U authority sha256 req.method req.path body⟩

/-- What the client gets after `Begin` and, where the handlers ran, `Complete`. The framework decides by
`bodyAllowed` which statuses a rendered body goes with. -/
def answer (handled : Handled) : Except Err BeginResult → HttpAnswer
  | .error e => writeMiddlewareError e
  | .ok result =>
    if result.replay then
      .replayed result.responseStatus
        (if bodyAllowed result.responseStatus then result.responseBody else [])
    else .executed handled.status handled.capture.sent

/-- `Middleware` on a request whose handlers do `handled`. -/
def middleware (req : HttpRequest) (handled : Handled) : Call HttpAnswer :=
  match beginInput U authority sha256 unmarshalTenantID req handled with
  | .error done => return done
  | .ok input => do
    let out ← serve U input ⟨handled.status, handled.capture.body, handled.sensitive⟩
    return answer bodyAllowed handled out

end

theorem answer_of_replay {bodyAllowed : ℤ → Bool} {handled : Handled} {result : BeginResult}
    (h : result.replay = true) :
    answer bodyAllowed handled (.ok result) = .replayed result.responseStatus
      (if bodyAllowed result.responseStatus then result.responseBody else []) := by
  unfold answer
  dsimp only
  rw [if_pos h]

theorem answer_of_started {bodyAllowed : ℤ → Bool} {handled : Handled} {result : BeginResult}
    (h : result.replay = false) :
    answer bodyAllowed handled (.ok result) = .executed handled.status handled.capture.sent := by
  unfold answer
  dsimp only
  rw [if_neg (by rw [h]; decide)]

/-- The captured body is what was sent, however many writes it took. -/
theorem Handled.capture_eq (h : Handled) : h.capture = ⟨h.writes.flatten, h.writes.flatten⟩ := by
  have key : ∀ (writes : List GoString) (w : Capture),
      writes.foldl Capture.write w = ⟨w.body ++ writes.flatten, w.sent ++ writes.flatten⟩ := by
    intro writes
    induction writes with
    | nil =>
      intro w
      simp
    | cons data writes ih =>
      intro w
      rw [List.foldl_cons, ih]
      simp [Capture.write]
  have hstart := key h.writes ⟨[], []⟩
  simpa [Handled.capture] using hstart

end SynapseGo.Idempotency
