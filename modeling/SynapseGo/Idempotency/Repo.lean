import Mathlib.Data.Int.Notation
import SynapseGo.Concurrency.Interleaving
import SynapseGo.Database.Driver
import SynapseGo.Database.Table

/-! The `idempotency_records` table, the SQL statements of `Repo` as atomic operations on it,
and the `Repo` methods that issue them. Times are wall-clock nanoseconds. -/
namespace SynapseGo.Idempotency
open SynapseGo.Go SynapseGo.Concurrency

inductive Status where
  | inProgress
  | completed
  | completedSensitive
  deriving DecidableEq, Repr

/-- The columns of the unique index `uk_idempotency_scope`. -/
structure Scope where
  tenantID : ℕ
  principalID : ℕ
  method : GoString
  path : GoString
  key : GoString
  deriving DecidableEq, Repr

structure Record where
  id : ℕ
  scope : Scope
  requestHash : GoString
  status : Status
  responseStatus : Option ℤ
  responseBody : Option GoString
  createdAt : ℤ
  updatedAt : ℤ
  expiresAt : ℤ
  runningExpiresAt : Option ℤ
  deriving DecidableEq, Repr

abbrev schema : Database.Schema Record Scope where
  id := Record.id
  key := Record.scope
  withID r n := { r with id := n }
  id_withID _ _ := rfl
  key_withID _ _ := rfl

abbrev Records := Database.Table schema

inductive Err where
  | invalidInput
  | notFound
  | duplicate
  | requestMismatch
  | requestInProcess
  | sensitiveResponse
  | driver (text : GoString)
  deriving DecidableEq, Repr

/-- The clock and the statements of `Repo`, each one atomic. -/
inductive Sql where
  | now
  | insert (record : Record)
  | selectFirst (scope : Scope)
  | updateCompleted (id : ℕ) (status : Status) (responseStatus : ℤ) (responseBody : GoString)
  | updateRestarted (id : ℕ) (requestHash : GoString) (runningExpiresAt updatedAt : ℤ)
  | deleteExpired (before : ℤ) (limit : ℕ)
  deriving DecidableEq, Repr

/-- `Except.error` carries the text of a driver error; `none` is `gorm.ErrRecordNotFound`. -/
abbrev Reply : Sql → Type
  | .now => ℤ
  | .insert _ => Except GoString ℕ
  | .selectFirst _ => Except GoString (Option Record)
  | .updateCompleted .. => Except GoString Unit
  | .updateRestarted .. => Except GoString Unit
  | .deleteExpired .. => Except GoString ℕ

/-- What the outside world contributes to a step: the clock, a driver fault without effect,
and the rows an unordered `LIMIT` prefers. -/
structure Env where
  now : ℤ
  fault : Option GoString
  pick : List ℕ

abbrev Call := Prog Sql Reply

def Record.complete (now : ℤ) (status : Status) (responseStatus : ℤ) (responseBody : GoString)
    (r : Record) : Record :=
  { r with
    status := status
    responseStatus := some responseStatus
    responseBody := some responseBody
    runningExpiresAt := none
    updatedAt := now }

def Record.restart (requestHash : GoString) (runningExpiresAt updatedAt : ℤ) (r : Record) : Record :=
  { r with requestHash := requestHash, runningExpiresAt := some runningExpiresAt, updatedAt := updatedAt }

@[simp] theorem Record.complete_id (now : ℤ) (status : Status) (responseStatus : ℤ)
    (responseBody : GoString) (r : Record) :
    (r.complete now status responseStatus responseBody).id = r.id := rfl

@[simp] theorem Record.complete_scope (now : ℤ) (status : Status) (responseStatus : ℤ)
    (responseBody : GoString) (r : Record) :
    (r.complete now status responseStatus responseBody).scope = r.scope := rfl

@[simp] theorem Record.restart_id (requestHash : GoString) (runningExpiresAt updatedAt : ℤ)
    (r : Record) : (r.restart requestHash runningExpiresAt updatedAt).id = r.id := rfl

@[simp] theorem Record.restart_scope (requestHash : GoString) (runningExpiresAt updatedAt : ℤ)
    (r : Record) : (r.restart requestHash runningExpiresAt updatedAt).scope = r.scope := rfl

/-- The ids an expiry sweep deletes: at most `limit` expired rows, the preferred ones first. -/
def expiredIDs (t : Records) (before : ℤ) (limit : ℕ) (pick : List ℕ) : List ℕ :=
  let ids := (t.rows.filter fun r => r.expiresAt < before).map Record.id
  (ids.filter (· ∈ pick) ++ ids.filter (· ∉ pick)).take limit

/-- The effect of one statement. `updateCompleted` also stamps `updated_at`, as GORM does for
every `Updates` whose map leaves that column out. -/
def handle : Handler Sql Reply Env Records
  | env, .now, t => (env.now, t)
  | env, .insert record, t => Database.faulty env.fault t <|
    if h : t.byKey record.scope = none then (.ok t.nextID, t.insert record h)
    else (.error Database.duplicateText, t)
  | env, .selectFirst scope, t => Database.faulty env.fault t (.ok (t.byKey scope), t)
  | env, .updateCompleted id status responseStatus responseBody, t => Database.faulty env.fault t
    (.ok (), t.update (fun r => r.id = id) (Record.complete env.now status responseStatus responseBody)
      (Record.complete_id env.now status responseStatus responseBody)
      (Record.complete_scope env.now status responseStatus responseBody))
  | env, .updateRestarted id requestHash runningExpiresAt updatedAt, t => Database.faulty env.fault t
    (.ok (), t.update (fun r => r.id = id ∧ r.status = .inProgress)
      (Record.restart requestHash runningExpiresAt updatedAt)
      (Record.restart_id requestHash runningExpiresAt updatedAt)
      (Record.restart_scope requestHash runningExpiresAt updatedAt))
  | env, .deleteExpired before limit, t => Database.faulty env.fault t
    (.ok (expiredIDs t before limit env.pick).length,
      t.delete fun r => r.id ∈ expiredIDs t before limit env.pick)

namespace Repo
open Prog (perform)

def isDuplicateKey (U : CaseTables) (text : GoString) : Bool := Database.reportsDuplicate U text

/-- Like GORM, hands back the record with its generated id. -/
def create (U : CaseTables) (record : Record) : Call (Except Err Record) := do
  match ← perform (Sql.insert record) with
  | .error text => return .error (if isDuplicateKey U text then .duplicate else .driver text)
  | .ok id => return .ok { record with id := id }

def get (scope : Scope) : Call (Except Err Record) := do
  match ← perform (Sql.selectFirst scope) with
  | .error text => return .error (.driver text)
  | .ok none => return .error .notFound
  | .ok (some record) => return .ok record

/-- The missing status stands for the empty string. -/
def complete (id : ℕ) (status : Option Status) (responseStatus : ℤ) (responseBody : GoString) :
    Call (Except Err Unit) := do
  match ← perform (Sql.updateCompleted id (status.getD .completed) responseStatus responseBody) with
  | .error text => return .error (.driver text)
  | .ok _ => return .ok ()

def restart (id : ℕ) (requestHash : GoString) (runningExpiresAt updatedAt : ℤ) :
    Call (Except Err Unit) := do
  match ← perform (Sql.updateRestarted id requestHash runningExpiresAt updatedAt) with
  | .error text => return .error (.driver text)
  | .ok _ => return .ok ()

def deleteExpired (before : ℤ) (limit : ℤ) : Call (Except Err ℕ) := do
  let limit := if limit ≤ 0 ∨ 10000 < limit then 1000 else limit
  match ← perform (Sql.deleteExpired before limit.toNat) with
  | .error text => return .error (.driver text)
  | .ok n => return .ok n

end Repo
end SynapseGo.Idempotency
