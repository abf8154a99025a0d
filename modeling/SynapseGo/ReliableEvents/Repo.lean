import Mathlib.Algebra.Group.Int.Defs
import Mathlib.Data.Int.Notation
import Mathlib.Data.List.Sort
import SynapseGo.Concurrency.Interleaving
import SynapseGo.Database.Driver
import SynapseGo.Database.Table

/-! The `outbox` table, the statements of `Repo` on it as atomic operations, and the calls of
`Service` that issue them. Times are nanoseconds. -/
namespace SynapseGo.ReliableEvents
open SynapseGo.Go SynapseGo.Concurrency

/-- 0, 1 and 2 in the `status` column. -/
inductive Status where
  | pending
  | sent
  | failed
  deriving DecidableEq, Repr

structure Outbox where
  id : ℕ
  eventID : GoString
  tenantID : ℕ
  eventType : GoString
  version : ℤ
  actor : GoString
  correlationID : Option GoString
  source : GoString
  payload : GoString
  status : Status
  retryCount : ℕ
  nextRetryAt : Option ℤ
  occurredAt : ℤ
  sentAt : Option ℤ
  deriving DecidableEq, Repr

abbrev schema : Database.Schema Outbox GoString where
  id := Outbox.id
  key := Outbox.eventID
  withID r n := { r with id := n }
  id_withID _ _ := rfl
  key_withID _ _ := rfl

abbrev Outboxes := Database.Table schema

inductive Err where
  | invalidInput
  | duplicateEvent
  | driver (text : GoString)
  deriving DecidableEq, Repr

inductive Sql where
  | insertOutbox (row : Outbox)
  | fetchPending (limit : ℤ)
  | markSent (id : ℕ)
  | markFailed (id : ℕ)
  deriving DecidableEq, Repr

abbrev Reply : Sql → Type
  | .insertOutbox _ => Except GoString ℕ
  | .fetchPending _ => Except GoString (List Outbox)
  | .markSent _ => Except GoString Unit
  | .markFailed _ => Except GoString Unit

/-- The clocks of the caller and of the database, a driver fault without effect, and the order of
rows that an `ORDER BY` leaves open. -/
structure Env where
  now : ℤ
  dbNow : ℤ
  fault : Option GoString
  rank : ℕ → ℕ

abbrev Call := Prog Sql Reply

/-- `UPDATE ... SET status = 1, sent_at = now`. -/
def Outbox.markSent (now : ℤ) (r : Outbox) : Outbox := { r with status := .sent, sentAt := some now }

/-- MySQL assigns from left to right: the status is decided on the old `retry_count`, the backoff
on the new one. -/
def Outbox.markFailed (dbNow : ℤ) (r : Outbox) : Outbox :=
  let r := { r with status := if r.retryCount ≥ 5 then .failed else .pending }
  let r := { r with retryCount := r.retryCount + 1 }
  { r with nextRetryAt := some (dbNow + 2 ^ min r.retryCount 5 * 10 * 10 ^ 9) }

@[simp] theorem Outbox.markSent_id (now : ℤ) (r : Outbox) : (r.markSent now).id = r.id := rfl

@[simp] theorem Outbox.markSent_eventID (now : ℤ) (r : Outbox) :
    (r.markSent now).eventID = r.eventID := rfl

@[simp] theorem Outbox.markFailed_id (dbNow : ℤ) (r : Outbox) : (r.markFailed dbNow).id = r.id := rfl

@[simp] theorem Outbox.markFailed_eventID (dbNow : ℤ) (r : Outbox) :
    (r.markFailed dbNow).eventID = r.eventID := rfl

/-- `status = 0 AND (next_retry_at IS NULL OR next_retry_at <= ?)`. -/
def Outbox.due (now : ℤ) (r : Outbox) : Bool :=
  r.status = .pending && (r.nextRetryAt.all fun t => t ≤ now)

/-- The due rows by `occurred_at`; a negative limit is none. -/
def pendingRows (t : Outboxes) (env : Env) (limit : ℤ) : List Outbox :=
  let rows := (t.rows.filter (Outbox.due env.now)).insertionSort fun r r' =>
    r.occurredAt < r'.occurredAt ∨ r.occurredAt = r'.occurredAt ∧ env.rank r.id ≤ env.rank r'.id
  if limit < 0 then rows else rows.take limit.toNat

def handle : Handler Sql Reply Env Outboxes
  | env, .insertOutbox row, t => Database.faulty env.fault t <|
    if h : t.byKey row.eventID = none then (.ok t.nextID, t.insert row h)
    else (.error Database.duplicateText, t)
  | env, .fetchPending limit, t => Database.faulty env.fault t (.ok (pendingRows t env limit), t)
  | env, .markSent id, t => Database.faulty env.fault t
    (.ok (), t.update (fun r => r.id = id) (Outbox.markSent env.now) (Outbox.markSent_id env.now)
      (Outbox.markSent_eventID env.now))
  | env, .markFailed id, t => Database.faulty env.fault t
    (.ok (), t.update (fun r => r.id = id) (Outbox.markFailed env.dbNow) (Outbox.markFailed_id env.dbNow)
      (Outbox.markFailed_eventID env.dbNow))

namespace Repo
open Prog (perform)

def isDuplicateKey (U : CaseTables) (text : GoString) : Bool := Database.reportsDuplicate U text

def insertOutbox (U : CaseTables) (row : Outbox) : Call (Except Err Outbox) := do
  match ← perform (Sql.insertOutbox row) with
  | .error text => return .error (if isDuplicateKey U text then .duplicateEvent else .driver text)
  | .ok id => return .ok { row with id := id }

def fetchPending (limit : ℤ) : Call (Except Err (List Outbox)) := do
  match ← perform (Sql.fetchPending limit) with
  | .error text => return .error (.driver text)
  | .ok rows => return .ok rows

def markSent (id : ℕ) : Call (Except Err Unit) := do
  match ← perform (Sql.markSent id) with
  | .error text => return .error (.driver text)
  | .ok _ => return .ok ()

def markFailed (id : ℕ) : Call (Except Err Unit) := do
  match ← perform (Sql.markFailed id) with
  | .error text => return .error (.driver text)
  | .ok _ => return .ok ()

end Repo

namespace Service

def normalizeLimit (limit : ℤ) : ℤ := if limit ≤ 0 ∨ limit > 100 then 50 else limit

def pending (limit : ℤ) : Call (Except Err (List Outbox)) := Repo.fetchPending (normalizeLimit limit)

def markSent (id : ℕ) : Call (Except Err Unit) :=
  if id = 0 then return .error .invalidInput else Repo.markSent id

def markFailed (id : ℕ) : Call (Except Err Unit) :=
  if id = 0 then return .error .invalidInput else Repo.markFailed id

end Service
end SynapseGo.ReliableEvents
