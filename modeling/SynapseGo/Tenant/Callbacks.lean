import SynapseGo.Database.Where
import SynapseGo.Go.Strings

/-! The tenant filter that `RegisterCallbacks` adds to GORM statements. It is appended as one more
condition, so it reaches the last run of `AND`s only. -/
namespace SynapseGo.Tenant
open SynapseGo.Go SynapseGo.Database

/-- The package's own key, and everybody else's. -/
inductive Key where
  | contextKey
  | other (name : GoString)
  deriving DecidableEq, Repr

inductive Value where
  | string (s : GoString)
  | other
  deriving DecidableEq, Repr

inductive Context where
  | background
  | withValue (parent : Context) (key : Key) (value : Value)
  deriving DecidableEq, Repr

def Context.value (key : Key) : Context → Option Value
  | .background => none
  | .withValue parent key' value => if key' = key then some value else parent.value key

def injectToContext (ctx : Context) (tenantID : GoString) : Context :=
  .withValue ctx .contextKey (.string tenantID)

def fromContext (ctx : Context) : GoString :=
  match ctx.value .contextKey with
  | some (.string s) => s
  | _ => []

@[simp] theorem fromContext_injectToContext (ctx : Context) (tenantID : GoString) :
    fromContext (injectToContext ctx tenantID) = tenantID := rfl

/-- A row by its columns; a missing one is `NULL`. -/
abbrev Row := List (GoString × GoString)

inductive Err where
  | missingTenantID
  deriving DecidableEq, Repr

/-- What the callbacks see of a `gorm.Statement`; a nil context is `none`. -/
structure Statement where
  context : Option Context
  conditions : List (Condition Row)
  columns : Row
  error : Option Err

/-- `clause.Eq`, which is unknown on `NULL`. -/
def eq (column value : GoString) : Predicate Row := fun row => (row.lookup column).map (· = value)

/-- The callback before `gorm:query`, `gorm:update` and `gorm:delete`. -/
def callback (column : GoString) (db : Statement) : Statement :=
  match db.context with
  | none => db
  | some ctx =>
    let tenantID := fromContext ctx
    if tenantID = [] then { db with error := some .missingTenantID }
    else { db with conditions := db.conditions ++ [.conjunct (eq column tenantID)] }

/-- The callback before `gorm:create`; `SetColumn` replaces what the caller set. -/
def createCallback (column : GoString) (db : Statement) : Statement :=
  match db.context with
  | none => db
  | some ctx =>
    let tenantID := fromContext ctx
    if tenantID = [] then { db with error := some .missingTenantID }
    else { db with columns := (column, tenantID) :: db.columns }

inductive Operation where
  | create
  | query
  | update (f : Row → Row)
  | delete

structure Result where
  rows : List Row
  rowsAffected : ℕ
  table : List Row

/-- A statement runs its callback first; after an error GORM executes nothing. -/
def execute (column : GoString) (op : Operation) (db : Statement) (table : List Row) : Except Err Result :=
  match op with
  | .create =>
    let db := createCallback column db
    match db.error with
    | some e => .error e
    | none => .ok ⟨[], 1, table ++ [db.columns]⟩
  | .query =>
    let db := callback column db
    match db.error with
    | some e => .error e
    | none =>
      let rows := table.filter (selects db.conditions)
      .ok ⟨rows, rows.length, table⟩
  | .update f =>
    let db := callback column db
    match db.error with
    | some e => .error e
    | none => .ok ⟨[], (table.filter (selects db.conditions)).length,
        table.map fun row => if selects db.conditions row then f row else row⟩
  | .delete =>
    let db := callback column db
    match db.error with
    | some e => .error e
    | none => .ok ⟨[], (table.filter (selects db.conditions)).length,
        table.filter fun row => !selects db.conditions row⟩

def owned (column t : GoString) (row : Row) : Bool := row.lookup column = some t

/-- Whatever the table holds, a statement of tenant `t` returns, changes and removes rows of that
tenant only, and what it reports does not depend on the rows of others. -/
structure Isolated (column t : GoString) (db : Statement) : Prop where
  queried : ∀ table result, execute column .query db table = .ok result →
    ∀ row ∈ result.rows, owned column t row = true
  updated : ∀ f table result, execute column (.update f) db table = .ok result →
    ∀ p ∈ table.zip result.table, p.2 ≠ p.1 → owned column t p.1 = true
  deleted : ∀ table result, execute column .delete db table = .ok result →
    ∀ row ∈ table, row ∉ result.table → owned column t row = true
  independent : ∀ op table table' result result',
    table.filter (owned column t) = table'.filter (owned column t) →
    execute column op db table = .ok result → execute column op db table' = .ok result' →
    result.rows = result'.rows ∧ result.rowsAffected = result'.rowsAffected

theorem eq_eq_true {column value : GoString} {row : Row} :
    eq column value row = some true ↔ owned column value row = true := by
  unfold eq owned
  cases row.lookup column <;> simp

/-- Without a tenant in its context a statement fails before it touches the table. -/
theorem execute_of_missing_tenant (column : GoString) (op : Operation) {db : Statement} {ctx : Context}
    (hctx : db.context = some ctx) (hmissing : fromContext ctx = []) (table : List Row) :
    execute column op db table = .error .missingTenantID := by
  cases op <;> simp [execute, callback, createCallback, hctx, hmissing]

/-- A created row belongs to the tenant of its context, whatever the caller set. -/
theorem created_owned {column : GoString} {db : Statement} {ctx : Context} {table : List Row}
    {result : Result} (hctx : db.context = some ctx)
    (h : execute column .create db table = .ok result) :
    ∃ row, result.table = table ++ [row] ∧ owned column (fromContext ctx) row = true := by
  by_cases hmissing : fromContext ctx = []
  · rw [execute_of_missing_tenant column .create hctx hmissing] at h
    cases h
  · simp only [execute, createCallback, hctx, hmissing, if_false] at h
    split at h
    · cases h
    · cases h
      exact ⟨_, rfl, by simp [owned]⟩

private theorem snd_of_mem_zip_map {α : Type} {g : α → α} {l : List α} {p : α × α}
    (hp : p ∈ l.zip (l.map g)) : p.1 ∈ l ∧ p.2 = g p.1 := by
  induction l with
  | nil => simp at hp
  | cons a l ih =>
    rw [List.map_cons, List.zip_cons_cons, List.mem_cons] at hp
    rcases hp with rfl | hp
    · exact ⟨List.mem_cons_self, rfl⟩
    · exact ⟨List.mem_cons_of_mem _ (ih hp).1, (ih hp).2⟩

section
variable {column t : GoString} {conditions : List (Condition Row)} {ctx : Context} {columns : Row}

private abbrev filtered (column t : GoString) (conditions : List (Condition Row)) : Row → Bool :=
  selects (conditions ++ [.conjunct (eq column t)])

private theorem callback_eq (hctx : fromContext ctx = t) (ht : t ≠ []) :
    callback column ⟨some ctx, conditions, columns, none⟩ =
      ⟨some ctx, conditions ++ [.conjunct (eq column t)], columns, none⟩ := by
  simp [callback, hctx, ht]

/-- A filter that lets only the tenant's rows through cannot tell tables apart that agree on them. -/
private theorem filter_filtered_congr
    (hown : ∀ row, filtered column t conditions row = true → owned column t row = true)
    {table table' : List Row} (hsame : table.filter (owned column t) = table'.filter (owned column t)) :
    table.filter (filtered column t conditions) = table'.filter (filtered column t conditions) := by
  have hfilter : ∀ table : List Row, table.filter (filtered column t conditions) =
      (table.filter (owned column t)).filter (filtered column t conditions) := by
    intro table
    rw [List.filter_filter]
    apply List.filter_congr
    intro row _
    cases h : filtered column t conditions row with
    | false => rfl
    | true => simp [hown row h]
  rw [hfilter, hsame, ← hfilter]

private theorem isolated_of_filtered (hctx : fromContext ctx = t) (ht : t ≠ [])
    (hown : ∀ row, filtered column t conditions row = true → owned column t row = true) :
    Isolated column t ⟨some ctx, conditions, columns, none⟩ := by
  have hcb : callback column ⟨some ctx, conditions, columns, none⟩ =
      ⟨some ctx, conditions ++ [.conjunct (eq column t)], columns, none⟩ := callback_eq hctx ht
  constructor
  · intro table result h row hrow
    simp only [execute, hcb] at h
    cases h
    exact hown row (List.mem_filter.mp hrow).2
  · intro f table result h p hp hne
    simp only [execute, hcb] at h
    cases h
    obtain ⟨-, hp⟩ := snd_of_mem_zip_map hp
    apply hown
    by_contra hsel
    rw [if_neg hsel] at hp
    exact hne hp
  · intro table result h row hrow hgone
    simp only [execute, hcb] at h
    cases h
    apply hown
    by_contra hsel
    exact hgone (List.mem_filter.mpr ⟨hrow, by simpa using hsel⟩)
  · intro op table table' result result' hsame h h'
    have hrows := filter_filtered_congr hown hsame
    cases op with
    | create =>
      simp only [execute, createCallback, hctx, ht, if_false] at h h'
      cases h
      cases h'
      exact ⟨rfl, rfl⟩
    | query =>
      simp only [execute, hcb] at h h'
      cases h
      cases h'
      exact ⟨hrows, congrArg List.length hrows⟩
    | update f =>
      simp only [execute, hcb] at h h'
      cases h
      cases h'
      exact ⟨rfl, congrArg List.length hrows⟩
    | delete =>
      simp only [execute, hcb] at h h'
      cases h
      cases h'
      exact ⟨rfl, congrArg List.length hrows⟩

private theorem filtered_of_isolated (hctx : fromContext ctx = t) (ht : t ≠ [])
    (h : Isolated column t ⟨some ctx, conditions, columns, none⟩) {row : Row}
    (hrow : filtered column t conditions row = true) : owned column t row = true := by
  have hcb : callback column ⟨some ctx, conditions, columns, none⟩ =
      ⟨some ctx, conditions ++ [.conjunct (eq column t)], columns, none⟩ := callback_eq hctx ht
  refine h.queried [row] ⟨[row], 1, [row]⟩ ?_ row (List.mem_singleton_self row)
  simp only [execute, hcb, List.filter_cons, hrow, if_true, List.filter_nil, List.length_singleton]

end

/-- The filter isolates tenants exactly when every run of conditions that a later `Or` closes is
true of the tenant's own rows only. -/
theorem callback_isolates_iff (column : GoString) {t : GoString} (ht : t ≠ []) {ctx : Context}
    (hctx : fromContext ctx = t) (conditions : List (Condition Row)) (columns : Row) :
    Isolated column t ⟨some ctx, conditions, columns, none⟩ ↔
      ∀ g ∈ closedGroups conditions, ∀ row, AllTrue g row → owned column t row = true := by
  constructor
  · intro h g hg row hall
    apply filtered_of_isolated hctx ht h
    rw [selects_append_conjunct]
    exact Or.inl ⟨g, hg, hall⟩
  · intro h
    apply isolated_of_filtered hctx ht
    intro row hrow
    rcases (selects_append_conjunct conditions _ row).mp hrow with ⟨g, hg, hall⟩ | ⟨-, heq⟩
    · exact h g hg row hall
    · exact eq_eq_true.mp heq

/-- `Where("status = ?", "open")`, by a request of tenant `t1`. -/
theorem single_condition_isolated :
    Isolated (lit "operator_id") (lit "t1")
      ⟨some (injectToContext .background (lit "t1")),
        [.conjunct (eq (lit "status") (lit "open"))], [], none⟩ := by
  apply (callback_isolates_iff (lit "operator_id") (by decide) (fromContext_injectToContext _ _) _ _).mpr
  intro g hg
  simp [closedGroups, groups, groupsFrom] at hg

/-- `Where("status = ?", "open").Or("status = ?", "late")`: the open rows of tenant `t2` are
returned to tenant `t1`. -/
theorem alternative_not_isolated :
    ¬ Isolated (lit "operator_id") (lit "t1")
      ⟨some (injectToContext .background (lit "t1")),
        [.conjunct (eq (lit "status") (lit "open")), .alternative (eq (lit "status") (lit "late"))],
        [], none⟩ := by
  intro h
  have hrow := h.queried [[(lit "operator_id", lit "t2"), (lit "status", lit "open")]] _ rfl
    [(lit "operator_id", lit "t2"), (lit "status", lit "open")]
  exact absurd (hrow (by decide)) (by decide)

end SynapseGo.Tenant
