import Mathlib.Data.Int.Notation
import SynapseGo.Concurrency.Purge
import SynapseGo.Tenant.Callbacks

/-! Requests of many tenants on one table, behind `tenant.Middleware` and the callbacks. Their handlers
use the database with the context of the request and are interleaved statement by statement. Of GORM it is
assumed that a statement is about the rows on which all of its conditions are true, and of the table that
no key, default or trigger relates the rows of one tenant to those of another. -/
namespace SynapseGo.Tenant
open SynapseGo.Go SynapseGo.Concurrency SynapseGo.Database

/-- A statement of a handler: `Create`, or `Find`, `Updates` or `Delete` with conditions that `Where` has
added, and without an assignment to the tenant column. -/
structure Stmt (column : GoString) where
  operation : Operation
  conditions : List (Predicate Row)
  columns : Row
  keeps : ∀ f, operation = .update f → ∀ row, (f row).lookup column = row.lookup column

/-- What an update of one column makes of a row. -/
def assign (name value : GoString) (row : Row) : Row :=
  row.map fun c => if c.1 = name then (name, value) else c

theorem lookup_assign_of_ne {name column : GoString} (h : name ≠ column) (value : GoString) (row : Row) :
    (assign name value row).lookup column = row.lookup column := by
  unfold assign
  induction row with
  | nil => rfl
  | cons c row ih =>
    obtain ⟨name', value'⟩ := c
    rw [List.map_cons, List.lookup_cons, ih, List.lookup_cons]
    by_cases hname : name' = name
    · rw [if_pos hname, hname, beq_false_of_ne h.symm]
    · rw [if_neg hname]

namespace Stmt
variable {column : GoString}

def create (columns : Row) : Stmt column := ⟨.create, [], columns, nofun⟩

def find (conditions : List (Predicate Row)) : Stmt column := ⟨.query, conditions, [], nofun⟩

def update (name value : GoString) (h : name ≠ column) (conditions : List (Predicate Row)) : Stmt column where
  operation := .update (assign name value)
  conditions := conditions
  columns := []
  keeps := by
    intro f hf row
    cases hf
    exact lookup_assign_of_ne h value row

def delete (conditions : List (Predicate Row)) : Stmt column := ⟨.delete, conditions, [], nofun⟩

end Stmt

/-- What a handler sees of a result. -/
structure Reply where
  rows : List Row
  rowsAffected : ℕ
  deriving DecidableEq, Repr

/-- A statement on `db.WithContext(ctx)`. -/
structure Op (column : GoString) where
  context : Context
  stmt : Stmt column

def Op.statement {column : GoString} (op : Op column) : Statement where
  context := some op.context
  conditions := op.stmt.conditions.map .conjunct
  columns := op.stmt.columns
  error := none

def handle (column : GoString) : Handler (Op column) (fun _ => Except Err Reply) Unit (List Row) :=
  fun _ op table =>
  match execute column op.stmt.operation op.statement table with
  | .error e => (.error e, table)
  | .ok result => (.ok ⟨result.rows, result.rowsAffected⟩, result.table)

abbrev Handling (column : GoString) (α : Type) := Prog (Stmt column) (fun _ => Except Err Reply) α

abbrev Serving (column : GoString) (α : Type) := Prog (Op column) (fun _ => Except Err Reply) α

/-- The handler with every statement on the context of its request. -/
def withContext {column : GoString} {α : Type} (ctx : Context) : Handling column α → Serving column α
  | .ret a => .ret a
  | .op stmt next => .op ⟨ctx, stmt⟩ fun reply => withContext ctx (next reply)

inductive Response (α : Type) where
  | error (status code : ℤ) (message : GoString)
  | handled (a : α)
  deriving DecidableEq, Repr

/-- `c.GetString`: a missing value and one of another type are empty. -/
def getString : Option Value → GoString
  | some (.string s) => s
  | _ => []

/-- A request as it comes to the middleware. -/
structure Request (column : GoString) (α : Type) where
  ginValue : Option Value
  context : Context
  handler : Handling column α

namespace Request
variable {column : GoString} {α : Type}

def tenantID (r : Request column α) : GoString := getString r.ginValue

def middleware (r : Request column α) : Serving column (Response α) :=
  if r.tenantID = [] then .ret (.error 400 1001 (lit "missing tenant context"))
  else do return .handled (← withContext (injectToContext r.context r.tenantID) r.handler)

end Request

/-- Where a schedule leads the requests. -/
def world {column : GoString} {ι α : Type} [DecidableEq ι] (requests : ι → Request column α)
    (table : List Row)
    (sched : List (ι × Unit)) : Config ι (Op column) (fun _ => Except Err Reply) Unit (List Row)
    (Response α) :=
  (Config.start (fun i => (requests i).middleware) table).run (handle column) sched

section Statements
variable {column t : GoString} {table : List Row} {row : Row}

namespace Stmt

/-- The rows that a statement of tenant `t` is about. -/
def selected (stmt : Stmt column) (t : GoString) : Row → Bool :=
  selects (stmt.conditions.map .conjunct ++ [.conjunct (eq column t)])

theorem owned_of_selected {stmt : Stmt column} (h : stmt.selected t row = true) :
    owned column t row = true := by
  unfold selected at h
  rcases (selects_append_conjunct _ _ _).mp h with ⟨g, hg, -⟩ | ⟨-, heq⟩
  · rw [closedGroups_map_conjunct] at hg
    cases hg
  · exact eq_eq_true.mp heq

/-- What an update makes of a row. -/
def updated (stmt : Stmt column) (t : GoString) (f : Row → Row) (row : Row) : Row :=
  if stmt.selected t row then f row else row

theorem owned_updated {stmt : Stmt column} {f : Row → Row} (hf : stmt.operation = .update f) (t t' : GoString)
    (row : Row) : owned column t' (stmt.updated t f row) = owned column t' row := by
  unfold updated owned
  split_ifs with hsel
  · rw [stmt.keeps f hf row]
  · rfl

end Stmt

/-- An operation of tenant `t`. -/
def Op.By (t : GoString) (op : Op column) : Prop := fromContext op.context = t ∧ t ≠ []

section Handle
variable {op : Op column} (h : op.By t) (env : Unit)
include h

theorem handle_create (hop : op.stmt.operation = .create) :
    handle column env op table = (.ok ⟨[], 1⟩, table ++ [(column, t) :: op.stmt.columns]) := by
  obtain ⟨rfl, ht⟩ := h
  simp [handle, execute, createCallback, Op.statement, hop, ht]

theorem handle_query (hop : op.stmt.operation = .query) : handle column env op table =
    (.ok ⟨table.filter (op.stmt.selected t), (table.filter (op.stmt.selected t)).length⟩, table) := by
  obtain ⟨rfl, ht⟩ := h
  simp [handle, execute, callback, Op.statement, hop, ht, Stmt.selected]

theorem handle_update {f : Row → Row} (hop : op.stmt.operation = .update f) : handle column env op table =
    (.ok ⟨[], (table.filter (op.stmt.selected t)).length⟩, table.map (op.stmt.updated t f)) := by
  obtain ⟨rfl, ht⟩ := h
  unfold handle execute
  rw [hop]
  simp only [callback, Op.statement, ht, if_false]
  rfl

theorem handle_delete (hop : op.stmt.operation = .delete) : handle column env op table =
    (.ok ⟨[], (table.filter (op.stmt.selected t)).length⟩, table.filter fun row =>
    !op.stmt.selected t row) := by
  obtain ⟨rfl, ht⟩ := h
  simp [handle, execute, callback, Op.statement, hop, ht, Stmt.selected]

end Handle

/-- The tenant's part of the table. -/
def part (column t : GoString) (table : List Row) : List Row := table.filter (owned column t)

theorem filter_part {stmt : Stmt column} : (part column t table).filter (stmt.selected t) =
    table.filter (stmt.selected t) := by
  unfold part
  rw [List.filter_filter]
  apply List.filter_congr
  intro row _
  cases hsel : stmt.selected t row with
  | false => rfl
  | true => simp [Stmt.owned_of_selected hsel]

/-- An update works on the parts of all tenants alike. -/
theorem part_map_updated {stmt : Stmt column} {f : Row → Row} (hf : stmt.operation = .update f)
    (t t' : GoString) :
    part column t' (table.map (stmt.updated t f)) = (part column t' table).map (stmt.updated t f) := by
  unfold part
  rw [List.filter_map]
  congr 1
  apply List.filter_congr
  intro row _
  exact Stmt.owned_updated hf t t' row

theorem part_filter (p : Row → Bool) : part column t (table.filter p) = (part column t table).filter p := by
  unfold part
  rw [List.filter_filter, List.filter_filter]
  apply List.filter_congr
  intro row _
  rw [Bool.and_comm]

theorem part_snoc_own (columns : Row) :
    part column t (table ++ [(column, t) :: columns]) = part column t table ++ [(column, t) :: columns] := by
  unfold part
  rw [List.filter_append]
  simp [owned]

theorem part_snoc_other {t' : GoString} (ht : t' ≠ t) (columns : Row) :
    part column t (table ++ [(column, t') :: columns]) = part column t table := by
  unfold part
  rw [List.filter_append]
  simp [owned, ht]

/-- Rows of one tenant are not selected by a statement of another. -/
theorem not_selected {stmt : Stmt column} {t' : GoString} (ht : t' ≠ t) (hrow : row ∈ part column t table) :
    stmt.selected t' row = false := by
  have hown : row.lookup column = some t := of_decide_eq_true (List.mem_filter.mp hrow).2
  rw [Bool.eq_false_iff]
  intro hsel
  have hown' : row.lookup column = some t' := of_decide_eq_true (Stmt.owned_of_selected hsel)
  exact ht (Option.some.inj (hown'.symm.trans hown))

/-- The tenant's part of the table is all that its statements need, and nobody else's statements
change it. -/
theorem parts_separated (column t : GoString) (α : Type) :
    Separated (handle column) (handle column) (part column t) (fun _ => True) (fun _ _ => True)
      (fun _ (p : Serving column α) => p.All (Op.By t)) fun _ p => p.All fun op => ∃ t' ≠ t, op.By t' := by
  apply Separated.of_ops
  case hown =>
    intro env op table h
    cases hop : op.stmt.operation with
    | create => rw [handle_create h env hop, handle_create h env hop, part_snoc_own]
    | query => rw [handle_query h env hop, handle_query h env hop, filter_part]
    | update f => rw [handle_update h env hop, handle_update h env hop, filter_part, part_map_updated hop]
    | delete => rw [handle_delete h env hop, handle_delete h env hop, filter_part, part_filter]
  case hother =>
    rintro env op table ⟨t', ht, h⟩
    cases hop : op.stmt.operation with
    | create => rw [handle_create h env hop, part_snoc_other ht]
    | query => rw [handle_query h env hop]
    | update f =>
      rw [handle_update h env hop]
      show part column t (table.map (op.stmt.updated t' f)) = part column t table
      rw [part_map_updated hop]
      have hsame : ∀ row ∈ part column t table, op.stmt.updated t' f row = id row := by
        intro row hrow
        unfold Stmt.updated
        rw [not_selected ht hrow, if_neg Bool.false_ne_true]
        rfl
      rw [List.map_congr_left hsame, List.map_id]
    | delete =>
      rw [handle_delete h env hop]
      show part column t (table.filter _) = part column t table
      rw [part_filter]
      apply List.filter_eq_self.mpr
      intro row hrow
      rw [not_selected ht hrow, Bool.not_false]

end Statements

section Requests
variable {column : GoString} {α : Type}

theorem withContext_all (P : Op column → Prop) {ctx : Context} (h : ∀ stmt, P ⟨ctx, stmt⟩)
    (p : Handling column α) :
    (withContext ctx p).All P := by
  induction p with
  | ret a => trivial
  | op stmt next ih => exact ⟨h stmt, ih⟩

/-- A request comes to the database in the name of its own tenant only. -/
theorem Request.middleware_all (r : Request column α) (P : Op column → Prop)
    (h : ∀ op, op.By r.tenantID → P op) :
    r.middleware.All P := by
  unfold middleware
  split_ifs with hempty
  · trivial
  · have hall :=
      withContext_all P (fun stmt => h ⟨injectToContext r.context r.tenantID, stmt⟩ ⟨rfl, hempty⟩) r.handler
    exact Prog.All.map hall _

variable {ι : Type} [DecidableEq ι]

end Requests

/-- `status = 'open'`. -/
def isOpen : Predicate Row := eq (lit "status") (lit "open")

/-- Two tenants on one table: the first adds an open row and reads its open rows, the second closes and
deletes what is open. -/
def twoTenants : Bool → Request (lit "operator_id") (Except Err Reply)
  | false =>
    { ginValue := some (.string (lit "t1"))
      context := .background
      handler := do
        let _ ← Prog.perform (Stmt.create [(lit "status", lit "open")])
        Prog.perform (Stmt.find [isOpen]) }
  | true =>
    { ginValue := some (.string (lit "t2"))
      context := .background
      handler := do
        let _ ← Prog.perform (Stmt.update (lit "status") (lit "closed") (by decide) [isOpen])
        Prog.perform (Stmt.delete []) }

def openRow (t : GoString) : Row := [(lit "operator_id", t), (lit "status", lit "open")]

end SynapseGo.Tenant
