import SynapseGo.Database.Keyed
import SynapseGo.ReliableEvents.Repo

/-! `reliableevents.Service` over both of its tables: the outbox and the marks of the consumers. -/
namespace SynapseGo.ReliableEvents
open SynapseGo.Go SynapseGo.Concurrency

structure EventProcessed where
  consumerName : GoString
  eventID : GoString
  tenantID : ℕ
  processedAt : ℤ
  deriving DecidableEq, Repr

/-- The primary key of `event_processed`. -/
def EventProcessed.key (r : EventProcessed) : GoString × GoString := (r.consumerName, r.eventID)

abbrev Marks := Database.Keyed EventProcessed.key

structure Store where
  outboxes : Outboxes
  marks : Marks

/-- The statements on either table, the clock, and the generator of event ids. -/
inductive Statement where
  | outbox (sql : Sql)
  | list (limit offset : ℤ)
  | insertProcessed (row : EventProcessed)
  | countProcessed (consumerName eventID : GoString)
  | now
  | newEventID
  deriving DecidableEq, Repr

abbrev Answer : Statement → Type
  | .outbox sql => Reply sql
  | .list _ _ => Except GoString (List Outbox)
  | .insertProcessed _ => Except GoString Unit
  | .countProcessed _ _ => Except GoString ℕ
  | .now => ℤ
  | .newEventID => GoString

structure Surroundings extends Env where
  uuid : GoString

abbrev ServiceCall := Prog Statement Answer

/-- `ORDER BY occurred_at DESC, id DESC`. -/
def listedRows (t : Outboxes) (limit offset : ℤ) : List Outbox :=
  let rows := t.rows.insertionSort fun r r' =>
    r'.occurredAt < r.occurredAt ∨ r.occurredAt = r'.occurredAt ∧ r'.id ≤ r.id
  (rows.drop offset.toNat).take limit.toNat

def execute : Handler Statement Answer Surroundings Store
  | env, .outbox sql, s =>
    let r := handle env.toEnv sql s.outboxes
    (r.1, { s with outboxes := r.2 })
  | env, .list limit offset, s =>
    Database.faulty env.fault s (.ok (listedRows s.outboxes limit offset), s)
  | env, .insertProcessed row, s => Database.faulty env.fault s <|
    if h : s.marks.count row.key = 0 then (.ok (), { s with marks := s.marks.insert row h })
    else (.error Database.duplicateText, s)
  | env, .countProcessed consumerName eventID, s =>
    Database.faulty env.fault s (.ok (s.marks.count (consumerName, eventID)), s)
  | env, .now, s => (env.now, s)
  | env, .newEventID, s => (env.uuid, s)

/-- A call that only uses the outbox, as a call over both tables. -/
def onOutbox {α : Type} : Call α → ServiceCall α
  | .ret a => .ret a
  | .op sql k => .op (.outbox sql) fun r => onOutbox (k r)

namespace Repo
open Prog (perform)

def markProcessed (U : CaseTables) (row : EventProcessed) : ServiceCall (Except Err Unit) := do
  match ← perform (Statement.insertProcessed row) with
  | .error text => return if isDuplicateKey U text then .ok () else .error (.driver text)
  | .ok _ => return .ok ()

def isProcessed (consumerName eventID : GoString) : ServiceCall (Except Err Bool) := do
  match ← perform (Statement.countProcessed consumerName eventID) with
  | .error text => return .error (.driver text)
  | .ok count => return .ok (0 < count)

def list (limit offset : ℤ) : ServiceCall (Except Err (List Outbox)) := do
  match ← perform (Statement.list limit offset) with
  | .error text => return .error (.driver text)
  | .ok rows => return .ok rows

end Repo

/-- `Actor` and `Payload` are what `json.Marshal` makes of them, `none` where it fails. -/
structure PublishInput where
  eventID : GoString
  tenantID : ℕ
  eventType : GoString
  source : GoString
  correlationID : GoString
  actor : Option GoString
  payload : Option GoString
  deriving DecidableEq, Repr

namespace Service
open Prog (perform)

def buildOutbox (input : PublishInput) : ServiceCall (Except Err Outbox) :=
  let eventID := trimSpace input.eventID
  let eventType := trimSpace input.eventType
  let source := trimSpace input.source
  if input.tenantID = 0 ∨ eventType = [] ∨ source = [] ∨ 32 < eventID.length then
    return .error .invalidInput
  else match input.actor, input.payload with
    | some actor, some payload => do
      let eventID ← if eventID = [] then perform Statement.newEventID else pure eventID
      let now ← perform Statement.now
      let correlationID := trimSpace input.correlationID
      return .ok
        { id := 0
          eventID := eventID
          tenantID := input.tenantID
          eventType := eventType
          version := 1
          actor := actor
          correlationID := if correlationID = [] then none else some correlationID
          source := source
          payload := payload
          status := .pending
          retryCount := 0
          nextRetryAt := none
          occurredAt := now
          sentAt := none }
    | _, _ => return .error .invalidInput

def publish (U : CaseTables) (input : PublishInput) : ServiceCall (Except Err Outbox) := do
  match ← buildOutbox input with
  | .error e => return .error e
  | .ok row => onOutbox (Repo.insertOutbox U row)

/-- The blank check is on the trimmed strings, the query is on the strings as they are. -/
def isProcessed (consumerName eventID : GoString) : ServiceCall (Except Err Bool) :=
  if trimSpace consumerName = [] ∨ trimSpace eventID = [] then return .error .invalidInput
  else Repo.isProcessed consumerName eventID

def list (limit offset : ℤ) : ServiceCall (Except Err (List Outbox)) :=
  Repo.list (normalizeLimit limit) (if offset < 0 then 0 else offset)

/-- A missing event is the nil pointer. -/
def markProcessed (U : CaseTables) (consumerName : GoString) (event : Option Outbox) :
    ServiceCall (Except Err Unit) :=
  let consumerName := trimSpace consumerName
  match event with
  | none => return .error .invalidInput
  | some event =>
    if consumerName = [] ∨ event.eventID = [] ∨ event.tenantID = 0 then return .error .invalidInput
    else do
      match ← Repo.isProcessed consumerName event.eventID with
      | .error e => return .error e
      | .ok true => return .ok ()
      | .ok false => do
        let now ← perform Statement.now
        Repo.markProcessed U ⟨consumerName, event.eventID, event.tenantID, now⟩

end Service

inductive Request where
  | publish (input : PublishInput)
  | isProcessed (consumerName eventID : GoString)
  | pending (limit : ℤ)
  | list (limit offset : ℤ)
  | markSent (id : ℕ)
  | markFailed (id : ℕ)
  | markProcessed (consumerName : GoString) (event : Option Outbox)
  deriving DecidableEq, Repr

inductive Outcome where
  | published (result : Except Err Outbox)
  | checked (result : Except Err Bool)
  | listed (result : Except Err (List Outbox))
  | done (result : Except Err Unit)
  | marked (result : Except Err Unit)
  deriving DecidableEq, Repr

def Request.call (U : CaseTables) : Request → ServiceCall Outcome
  | .publish input => do return .published (← Service.publish U input)
  | .isProcessed consumerName eventID => do return .checked (← Service.isProcessed consumerName eventID)
  | .pending limit => do return .listed (← onOutbox (Service.pending limit))
  | .list limit offset => do return .listed (← Service.list limit offset)
  | .markSent id => do return .done (← onOutbox (Service.markSent id))
  | .markFailed id => do return .done (← onOutbox (Service.markFailed id))
  | .markProcessed consumerName event => do return .marked (← Service.markProcessed U consumerName event)

end SynapseGo.ReliableEvents
