import Mathlib.Data.List.Basic

/-! Rendered `WHERE` clauses: conditions joined by `AND` and `OR` without parentheses, parsed with
`AND` binding tighter, and evaluated in SQL's three-valued logic (`none` is unknown). -/
namespace SynapseGo.Database

abbrev Truth := Option Bool

namespace Truth

def and : Truth → Truth → Truth
  | some false, _ | _, some false => some false
  | some true, some true => some true
  | _, _ => none

def or : Truth → Truth → Truth
  | some true, _ | _, some true => some true
  | some false, some false => some false
  | _, _ => none

@[simp] theorem and_eq_true {a b : Truth} : a.and b = some true ↔ a = some true ∧ b = some true := by
  rcases a with _ | _ | _ <;> rcases b with _ | _ | _ <;> simp [and]

@[simp] theorem or_eq_true {a b : Truth} : a.or b = some true ↔ a = some true ∨ b = some true := by
  rcases a with _ | _ | _ <;> rcases b with _ | _ | _ <;> simp [or]

end Truth

variable {ρ : Type}

abbrev Predicate (ρ : Type) := ρ → Truth

/-- An entry of a condition list; `alternative` is one that is joined with `OR`. -/
inductive Condition (ρ : Type) where
  | conjunct (p : Predicate ρ)
  | alternative (p : Predicate ρ)

def Condition.predicate : Condition ρ → Predicate ρ
  | .conjunct p | .alternative p => p

inductive Token (ρ : Type) where
  | atom (p : Predicate ρ)
  | and
  | or

def Condition.connective : Condition ρ → Token ρ
  | .conjunct _ => .and
  | .alternative _ => .or

def renderRest (conditions : List (Condition ρ)) : List (Token ρ) :=
  conditions.flatMap fun c => [c.connective, .atom c.predicate]

/-- The text of a condition list, left to right; the first entry has no connective. -/
def render : List (Condition ρ) → List (Token ρ)
  | [] => []
  | c :: conditions => .atom c.predicate :: renderRest conditions

inductive Expr (ρ : Type) where
  | atom (p : Predicate ρ)
  | and (l r : Expr ρ)
  | or (l r : Expr ρ)

def Expr.eval (row : ρ) : Expr ρ → Truth
  | .atom p => p row
  | .and l r => (l.eval row).and (r.eval row)
  | .or l r => (l.eval row).or (r.eval row)

def orElse : Option (Expr ρ) → Expr ρ → Expr ρ
  | none, e => e
  | some l, e => .or l e

/-- `left` is the disjunction read so far, `term` the conjunction that is still growing. -/
def parseFrom (left : Option (Expr ρ)) (term : Expr ρ) : List (Token ρ) → Option (Expr ρ)
  | [] => some (orElse left term)
  | .and :: .atom p :: tokens => parseFrom left (.and term (.atom p)) tokens
  | .or :: .atom p :: tokens => parseFrom (some (orElse left term)) (.atom p) tokens
  | _ => none

def parse : List (Token ρ) → Option (Expr ρ)
  | .atom p :: tokens => parseFrom none (.atom p) tokens
  | _ => none

/-- The rows of a table that a condition list selects; without conditions there is no clause. -/
def selects (conditions : List (Condition ρ)) (row : ρ) : Bool :=
  match conditions with
  | [] => true
  | _ => match parse (render conditions) with
    | none => false
    | some e => e.eval row = some true

def groupsFrom (term : List (Predicate ρ)) : List (Condition ρ) → List (List (Predicate ρ))
  | [] => [term]
  | .conjunct p :: conditions => groupsFrom (term ++ [p]) conditions
  | .alternative p :: conditions => term :: groupsFrom [p] conditions

/-- The runs of conditions between two `OR`s. -/
def groups : List (Condition ρ) → List (List (Predicate ρ))
  | [] => []
  | c :: conditions => groupsFrom [c.predicate] conditions

/-- The runs that a later `OR` closes. -/
def closedGroups (conditions : List (Condition ρ)) : List (List (Predicate ρ)) :=
  (groups conditions).dropLast

/-- The run that is still open at the end. -/
def openGroup (conditions : List (Condition ρ)) : List (Predicate ρ) :=
  (groups conditions).getLastD []

def AllTrue (group : List (Predicate ρ)) (row : ρ) : Prop := ∀ p ∈ group, p row = some true

theorem allTrue_append {g h : List (Predicate ρ)} {row : ρ} :
    AllTrue (g ++ h) row ↔ AllTrue g row ∧ AllTrue h row := by
  simp only [AllTrue, List.mem_append, or_imp, forall_and]

theorem allTrue_singleton {p : Predicate ρ} {row : ρ} : AllTrue [p] row ↔ p row = some true := by
  simp [AllTrue]

theorem eval_atom {p : Predicate ρ} {row : ρ} :
    (Expr.atom p).eval row = some true ↔ AllTrue [p] row := by
  rw [allTrue_singleton]
  rfl

theorem eval_orElse (left : Option (Expr ρ)) (term : Expr ρ) (row : ρ) :
    (orElse left term).eval row = some true ↔
      (∃ e ∈ left, e.eval row = some true) ∨ term.eval row = some true := by
  cases left <;> simp [orElse, Expr.eval]

/-- Parsing never fails on rendered text, and the result is true exactly when what was read before
is true or some run of conditions is. -/
theorem parseFrom_renderRest (conditions : List (Condition ρ)) (row : ρ) :
    ∀ (left : Option (Expr ρ)) (term : Expr ρ) (group : List (Predicate ρ)),
      (term.eval row = some true ↔ AllTrue group row) →
      ∃ e, parseFrom left term (renderRest conditions) = some e ∧
        (e.eval row = some true ↔
          (∃ l ∈ left, l.eval row = some true) ∨ ∃ g ∈ groupsFrom group conditions, AllTrue g row) := by
  induction conditions with
  | nil =>
    intro left term group hterm
    refine ⟨orElse left term, rfl, ?_⟩
    rw [eval_orElse, hterm]
    simp [groupsFrom]
  | cons c conditions ih =>
    intro left term group hterm
    cases c with
    | conjunct p =>
      apply ih left (.and term (.atom p)) (group ++ [p])
      rw [allTrue_append, allTrue_singleton, ← hterm]
      exact Truth.and_eq_true
    | alternative p =>
      obtain ⟨e, he, heval⟩ := ih (some (orElse left term)) (.atom p) [p] eval_atom
      refine ⟨e, he, ?_⟩
      rw [heval]
      simp only [Option.mem_some_iff, exists_eq_left', eval_orElse, hterm, groupsFrom, List.mem_cons,
        exists_eq_or_imp]
      rw [or_assoc]

theorem selects_iff {conditions : List (Condition ρ)} (hne : conditions ≠ []) (row : ρ) :
    selects conditions row = true ↔ ∃ g ∈ groups conditions, AllTrue g row := by
  cases conditions with
  | nil => exact absurd rfl hne
  | cons c conditions =>
    obtain ⟨e, he, heval⟩ := parseFrom_renderRest conditions row none _ [c.predicate] eval_atom
    simp only [selects, render, parse, he, decide_eq_true_eq, heval]
    simp [groups]

theorem groupsFrom_ne_nil (term : List (Predicate ρ)) (conditions : List (Condition ρ)) :
    groupsFrom term conditions ≠ [] := by
  induction conditions generalizing term with
  | nil => simp [groupsFrom]
  | cons c conditions ih =>
    cases c with
    | conjunct p => exact ih _
    | alternative p => simp [groupsFrom]

/-- Without alternatives there is one run, and no `OR` closes it. -/
theorem groupsFrom_map_conjunct (ps : List (Predicate ρ)) :
    ∀ term : List (Predicate ρ), groupsFrom term (ps.map .conjunct) = [term ++ ps] := by
  induction ps with
  | nil =>
    intro term
    rw [List.append_nil]
    rfl
  | cons p ps ih =>
    intro term
    rw [List.map_cons, groupsFrom, ih, List.append_assoc, List.singleton_append]

theorem closedGroups_map_conjunct (ps : List (Predicate ρ)) : closedGroups (ps.map .conjunct) = [] := by
  cases ps with
  | nil => rfl
  | cons p ps =>
    unfold closedGroups
    rw [List.map_cons, groups, groupsFrom_map_conjunct]
    rfl

/-- A further condition only extends the run that is still open. -/
theorem groupsFrom_append_conjunct (q : Predicate ρ) (conditions : List (Condition ρ)) :
    ∀ term : List (Predicate ρ), groupsFrom term (conditions ++ [.conjunct q]) =
      (groupsFrom term conditions).dropLast ++ [(groupsFrom term conditions).getLastD [] ++ [q]] := by
  induction conditions with
  | nil => exact fun term => rfl
  | cons c conditions ih =>
    intro term
    cases c with
    | conjunct p => exact ih _
    | alternative p =>
      have hne := groupsFrom_ne_nil [p] conditions
      simp only [List.cons_append, groupsFrom, ih]
      rw [List.dropLast_cons_of_ne_nil hne, List.cons_append]
      congr 2
      cases h : groupsFrom [p] conditions with
      | nil => exact absurd h hne
      | cons g gs => simp [List.getLastD]

/-- A condition list with one more conjunct selects the rows of the closed runs, and those of the
open run that meet the conjunct. -/
theorem selects_append_conjunct (conditions : List (Condition ρ)) (q : Predicate ρ) (row : ρ) :
    selects (conditions ++ [.conjunct q]) row = true ↔
      (∃ g ∈ closedGroups conditions, AllTrue g row) ∨
        AllTrue (openGroup conditions) row ∧ q row = some true := by
  rw [selects_iff (by simp)]
  have hgroups : groups (conditions ++ [.conjunct q]) =
      closedGroups conditions ++ [openGroup conditions ++ [q]] := by
    cases conditions with
    | nil => rfl
    | cons c conditions => exact groupsFrom_append_conjunct q conditions [c.predicate]
  rw [hgroups]
  simp only [List.mem_append, List.mem_singleton, or_and_right, exists_or, exists_eq_left,
    allTrue_append, allTrue_singleton]

end SynapseGo.Database
