import SynapseGo.Concurrency.Interleaving
import SynapseGo.Database.Keyed
import SynapseGo.Go.Strings
import SynapseGo.Go.Time

/-! The outbox in memory. Each method runs under the mutex and is one atomic step; `Dispatch` is not, it
works from a snapshot. -/
namespace SynapseGo.Outbox
open SynapseGo.Go SynapseGo.Concurrency SynapseGo.Database

structure OutboxRecord where
  id : GoString
  tenantID : GoString
  aggregateID : GoString
  eventType : GoString
  payload : GoString
  createdAt : Time
  dispatchedAt : Option Time
  retryCount : ℤ

inductive OutboxError where
  | invalidRecord
  | duplicateRecord
  | recordNotFound
  deriving DecidableEq, Repr

/-- The map from ids to records; every record is stored under its own id. -/
abbrev MemoryStore := Keyed OutboxRecord.id

def newMemoryStore : MemoryStore := Keyed.empty OutboxRecord.id

/-- What the outside world contributes to a step: the clock, and the order in which a range over the map
visits its records. -/
structure Env where
  now : Time
  order : List OutboxRecord → List OutboxRecord
  order_perm : ∀ l, (order l).Perm l

namespace OutboxRecord

/-- The record as it is stored. -/
def filled (rec : OutboxRecord) (now : Time) : OutboxRecord :=
  if rec.createdAt.isZero then { rec with createdAt := now } else rec

def dispatched (rec : OutboxRecord) (now : Time) : OutboxRecord := { rec with dispatchedAt := some now }

@[simp] theorem id_filled (rec : OutboxRecord) (now : Time) : (rec.filled now).id = rec.id := by
  unfold filled
  split_ifs <;> rfl

@[simp] theorem dispatchedAt_filled (rec : OutboxRecord) (now : Time) :
    (rec.filled now).dispatchedAt = rec.dispatchedAt := by
  unfold filled
  split_ifs <;> rfl

@[simp] theorem id_dispatched (rec : OutboxRecord) (now : Time) : (rec.dispatched now).id = rec.id := rfl

end OutboxRecord

namespace MemoryStore

def enqueue (now : Time) (rec : Option OutboxRecord) (s : MemoryStore) : Option OutboxError × MemoryStore :=
  match rec with
  | none => (some .invalidRecord, s)
  | some rec =>
    if rec.id = [] ∨ rec.tenantID = [] ∨ rec.eventType = [] then (some .invalidRecord, s)
    else if h : s.count rec.id = 0 then
      (none, s.insert (rec.filled now) (by rw [OutboxRecord.id_filled]; exact h))
    else (some .duplicateRecord, s)

def pending (order : List OutboxRecord → List OutboxRecord) (s : MemoryStore) : List OutboxRecord :=
  order (s.rows.filter fun rec => rec.dispatchedAt.isNone)

def markDispatched (now : Time) (id : GoString) (s : MemoryStore) : Option OutboxError × MemoryStore :=
  match s.get id with
  | none => (some .recordNotFound, s)
  | some _ => (none, s.modify id (fun rec => rec.dispatched now) fun rec => rec.id_dispatched now)

end MemoryStore

inductive Op where
  | enqueue (rec : Option OutboxRecord)
  | pending
  | markDispatched (id : GoString)

def Reply : Op → Type
  | .enqueue _ => Option OutboxError
  | .pending => List OutboxRecord
  | .markDispatched _ => Option OutboxError

def handle : Handler Op Reply Env MemoryStore := fun env op s =>
  match op with
  | .enqueue rec => MemoryStore.enqueue env.now rec s
  | .pending => (MemoryStore.pending env.order s, s)
  | .markDispatched id => MemoryStore.markDispatched env.now id s

/-- The calls that clients make. -/
inductive Call where
  | enqueue (rec : Option OutboxRecord)
  | pending
  | markDispatched (id : GoString)
  | dispatch

inductive Outcome where
  | done (err : Option OutboxError)
  | snapshot (records : List OutboxRecord)

/-- The loop of `Dispatch` over its snapshot; it stops at the first error. -/
def dispatchAll : List OutboxRecord → Prog Op Reply Outcome
  | [] => .ret (.done none)
  | rec :: rest => .op (.markDispatched rec.id) fun (err : Option OutboxError) =>
    match err with
    | some err => .ret (.done (some err))
    | none => dispatchAll rest

def dispatch : Prog Op Reply Outcome := .op .pending dispatchAll

def Call.prog : Call → Prog Op Reply Outcome
  | .enqueue rec => .op (.enqueue rec) fun (err : Option OutboxError) => .ret (.done err)
  | .pending => .op .pending fun (records : List OutboxRecord) => .ret (.snapshot records)
  | .markDispatched id => .op (.markDispatched id) fun (err : Option OutboxError) => .ret (.done err)
  | .dispatch => Outbox.dispatch

abbrev Event (ι : Type) := Entry ι Op Reply Env MemoryStore

/-- The step accepted the record. -/
def Accepts {ι : Type} (x : Event ι) (rec : OutboxRecord) : Prop := x.act = ⟨.enqueue (some rec), none⟩

/-- The step is a `MarkDispatched` of the id. -/
def Marks {ι : Type} (x : Event ι) (id : GoString) : Prop := x.act.1 = .markDispatched id

/-- The step took a snapshot. -/
def Shows {ι : Type} (x : Event ι) (snapshot : List OutboxRecord) : Prop := x.act = ⟨.pending, snapshot⟩

namespace MemoryStore
variable {s t : MemoryStore} {now : Time}

/-- `Enqueue` refuses and changes nothing, or stores the record under a free id. -/
theorem enqueue_cases {rec : Option OutboxRecord} {err : Option OutboxError}
    (h : enqueue now rec s = (err, t)) :
    (∃ e, err = some e ∧ t = s) ∨ ∃ r, rec = some r ∧ err = none ∧ s.get r.id = none ∧
      ∀ id, t.get id = if r.id = id then some (r.filled now) else s.get id := by
  unfold enqueue at h
  cases rec with
  | none =>
    cases h
    exact Or.inl ⟨_, rfl, rfl⟩
  | some r =>
    dsimp only at h
    split_ifs at h with hinvalid hfree
    · cases h
      exact Or.inl ⟨_, rfl, rfl⟩
    · cases h
      refine Or.inr ⟨r, rfl, rfl, Keyed.get_eq_none.mpr hfree, ?_⟩
      intro id
      rw [Keyed.get_insert, OutboxRecord.id_filled]
    · cases h
      exact Or.inl ⟨_, rfl, rfl⟩

/-- `MarkDispatched` finds nothing and changes nothing, or sets the time of its record. -/
theorem markDispatched_cases {id : GoString} {err : Option OutboxError}
    (h : markDispatched now id s = (err, t)) :
    (err = some .recordNotFound ∧ s.get id = none ∧ t = s) ∨ ∃ r, err = none ∧ s.get id = some r ∧
      ∀ k, t.get k = if k = id then some (r.dispatched now) else s.get k := by
  unfold markDispatched at h
  cases hget : s.get id with
  | none =>
    rw [hget] at h
    cases h
    exact Or.inl ⟨rfl, rfl, rfl⟩
  | some r =>
    rw [hget] at h
    cases h
    refine Or.inr ⟨r, rfl, rfl, ?_⟩
    intro k
    rw [Keyed.get_modify]
    split_ifs with hk
    · rw [hk, hget]
      rfl
    · rfl

end MemoryStore

section Step
variable {ι : Type} {x : Event ι}

/-- What one step can do to the record under an id. -/
theorem get_post_cases (hx : x.Valid handle) (id : GoString) :
    x.post.get id = x.pre.get id ∨
      (∃ r, Accepts x r ∧ r.id = id ∧ x.pre.get id = none ∧ x.post.get id = some (r.filled x.env.now)) ∨
      (Marks x id ∧ ∃ r, x.pre.get id = some r ∧ x.post.get id = some (r.dispatched x.env.now)) := by
  obtain ⟨i, env, ⟨op, reply⟩, pre, post⟩ := x
  change handle env op pre = (reply, post) at hx
  cases op with
  | enqueue rec =>
    rcases MemoryStore.enqueue_cases hx with ⟨e, -, rfl⟩ | ⟨r, rfl, rfl, hfree, hget⟩
    · exact Or.inl rfl
    · dsimp only
      rw [hget]
      split_ifs with hid
      · subst hid
        exact Or.inr (Or.inl ⟨r, rfl, rfl, hfree, rfl⟩)
      · exact Or.inl rfl
  | pending =>
    obtain ⟨-, rfl⟩ := Prod.mk.inj hx
    exact Or.inl rfl
  | markDispatched k =>
    rcases MemoryStore.markDispatched_cases hx with ⟨-, -, rfl⟩ | ⟨r, -, hfound, hget⟩
    · exact Or.inl rfl
    · dsimp only
      rw [hget]
      split_ifs with hid
      · subst hid
        exact Or.inr (Or.inr ⟨rfl, r, hfound, rfl⟩)
      · exact Or.inl rfl

end Step
end SynapseGo.Outbox
