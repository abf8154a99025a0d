import SynapseGo.Idempotency.Repo
import SynapseGo.Job.Payload

/-! `idempotency.Service` and the part of `Middleware` that drives it, as calls over `Repo`. -/
namespace SynapseGo.Idempotency
open SynapseGo.Go SynapseGo.Concurrency
open Prog (perform)

/-- 60 s. -/
def runningTimeout : ℤ := 60 * 10 ^ 9

/-- 24 h, the record TTL of `NewService`. -/
def ttl : ℤ := 24 * 3600 * 10 ^ 9

structure BeginInput where
  tenantID : ℕ
  principalID : ℕ
  key : GoString
  method : GoString
  path : GoString
  requestHash : GoString
  deriving DecidableEq, Repr

structure BeginResult where
  record : Record
  started : Bool
  replay : Bool
  responseStatus : ℤ
  responseBody : GoString
  deriving DecidableEq, Repr

def validRequestHash (hash : GoString) : Bool :=
  let hash := trimPrefix hash (lit "sha256:")
  hash.length = 64 && hash.all fun b =>
    0x30 ≤ b && b ≤ 0x39 || 0x61 ≤ b && b ≤ 0x66 || 0x41 ≤ b && b ≤ 0x46

namespace BeginInput

def normalize (U : CaseTables) (x : BeginInput) : BeginInput :=
  { x with
    key := trimSpace x.key
    method := toUpper U (trimSpace x.method)
    path := trimSpace x.path
    requestHash := trimSpace x.requestHash }

/-- The checks `Begin` makes on its normalized input. -/
def valid (x : BeginInput) : Bool :=
  !(x.tenantID = 0 || x.principalID = 0 || x.key = [] || x.method = [] || x.path = [] ||
    x.requestHash = []) &&
  !(128 < x.key.length || 16 < x.method.length || 255 < x.path.length ||
    !validRequestHash x.requestHash)

def scope (x : BeginInput) : Scope := ⟨x.tenantID, x.principalID, x.method, x.path, x.key⟩

/-- The record `Begin` inserts at time `now`. -/
def record (x : BeginInput) (now : ℤ) : Record where
  id := 0
  scope := x.scope
  requestHash := x.requestHash
  status := .inProgress
  responseStatus := none
  responseBody := none
  createdAt := now
  updatedAt := now
  expiresAt := now + ttl
  runningExpiresAt := some (now + runningTimeout)

end BeginInput

namespace BeginResult

def startedWith (record : Record) : BeginResult := ⟨record, true, false, 0, []⟩

def replayOf (record : Record) : BeginResult :=
  ⟨record, false, true, record.responseStatus.getD 200, record.responseBody.getD []⟩

end BeginResult

namespace Service

/-- `s.now().After(*rec.RunningExpiresAt)` and the `now` of the takeover are separate readings. -/
def decisionForExisting (record : Record) (requestHash : GoString) : Call (Except Err BeginResult) :=
  if record.requestHash ≠ requestHash then return .error .requestMismatch
  else match record.status with
    | .completed => return .ok (.replayOf record)
    | .completedSensitive => return .error .sensitiveResponse
    | .inProgress =>
      match record.runningExpiresAt with
      | none => return .error .requestInProcess
      | some runningExpiresAt => do
        let reading ← perform Sql.now
        if reading > runningExpiresAt then
          let now ← perform Sql.now
          let running := now + runningTimeout
          match ← Repo.restart record.id requestHash running now with
          | .error e => return .error e
          | .ok _ =>
            return .ok (.startedWith { record with updatedAt := now, runningExpiresAt := some running })
        else return .error .requestInProcess

def begin (U : CaseTables) (input : BeginInput) : Call (Except Err BeginResult) :=
  let x := input.normalize U
  if !x.valid then return .error .invalidInput
  else do
    match ← Repo.get x.scope with
    | .ok existing => decisionForExisting existing x.requestHash
    | .error .notFound => do
      let now ← perform Sql.now
      match ← Repo.create U (x.record now) with
      | .ok record => return .ok (.startedWith record)
      | .error .duplicate => do
        match ← Repo.get x.scope with
        | .error e => return .error e
        | .ok existing => decisionForExisting existing x.requestHash
      | .error e => return .error e
    | .error e => return .error e

/-- The status and body that are persisted for a handler's response. -/
def persisted (responseBody : GoString) (sensitive : Bool) : Status × GoString :=
  if sensitive then (.completedSensitive, []) else (.completed, responseBody)

theorem persisted_ne_inProgress (responseBody : GoString) (sensitive : Bool) :
    (persisted responseBody sensitive).1 ≠ .inProgress := by
  unfold persisted
  split_ifs <;> simp

def complete (id : ℕ) (responseStatus : ℤ) (responseBody : GoString) (sensitive : Bool) :
    Call (Except Err Unit) :=
  if id = 0 ∨ responseStatus < 100 ∨ 599 < responseStatus then return .error .invalidInput
  else
    let (status, body) := persisted responseBody sensitive
    Repo.complete id (some status) responseStatus body

def gcJob (payload : List (GoString × Job.Value)) : Call (Except Err Unit) := do
  let limit := Job.payloadInt payload (lit "limit") 1000
  let now ← perform Sql.now
  match ← Repo.deleteExpired now limit with
  | .error e => return .error e
  | .ok _ => return .ok ()

end Service

/-- What the wrapped handler wrote: status, captured body, and the `X-Idempotency-Sensitive` mark. -/
structure Response where
  status : ℤ
  body : GoString
  sensitive : Bool
  deriving DecidableEq, Repr

/-- `Middleware` from its `Begin` on: a replay ends the request, an executed handler is followed
by `Complete`, whose error is only logged. -/
def serve (U : CaseTables) (input : BeginInput) (response : Response) :
    Call (Except Err BeginResult) := do
  match ← Service.begin U input with
  | .error e => return .error e
  | .ok result =>
    if result.replay then return .ok result
    else
      let _ ← Service.complete result.record.id response.status response.body response.sensitive
      return .ok result

end SynapseGo.Idempotency
