import Mathlib.Data.List.Basic
import SynapseGo.Obs.Context

/-! The request fields of a `Logger`: every `WithRequest` attaches what its context carries, whatever
the logger has attached already. -/
namespace SynapseGo.Obs
open Go

inductive Value where
  | string (s : GoString)
  | uint64 (v : UInt64)
  deriving DecidableEq, Repr

structure Attr where
  key : GoString
  value : Value
  deriving DecidableEq, Repr

/-- A logger by the attributes attached through `With`, the first one first. -/
structure Logger where
  attrs : List Attr
  deriving DecidableEq, Repr

namespace Logger

/-- `With` on the logger and on the `slog.Logger` inside it. -/
def «with» (l : Logger) (attrs : List Attr) : Logger := ⟨l.attrs ++ attrs⟩

/-- `WithRequest`; a nil context stands for `context.Background()`. -/
def withRequest (l : Logger) (ctx : Option Context) : Logger :=
  let ctx := ctx.getD []
  let attrs := ((requestIDFromContext ctx).map fun rid => ⟨fieldRequestID, .string rid⟩).toList
  let attrs := attrs ++ ((tenantIDFromContext ctx).map fun tid => ⟨fieldTenantID, .uint64 tid⟩).toList
  let attrs := attrs ++ ((principalIDFromContext ctx).map fun pid => ⟨fieldPrincipalID, .uint64 pid⟩).toList
  if attrs.length = 0 then l else l.with attrs

end Logger

inductive RequestField where
  | requestID
  | tenantID
  | principalID
  deriving DecidableEq, Repr

namespace RequestField

def name : RequestField → GoString
  | .requestID => fieldRequestID
  | .tenantID => fieldTenantID
  | .principalID => fieldPrincipalID

/-- The context carries the field. -/
def isIn (f : RequestField) (ctx : Option Context) : Bool :=
  match f with
  | .requestID => (requestIDFromContext (ctx.getD [])).isSome
  | .tenantID => (tenantIDFromContext (ctx.getD [])).isSome
  | .principalID => (principalIDFromContext (ctx.getD [])).isSome

end RequestField

namespace Logger

/-- How often the logger has the field attached. -/
def occurrences (l : Logger) (f : RequestField) : ℕ := l.attrs.countP fun a => a.key = f.name

/-- What the context adds, in the order of the source. -/
def requestAttrs (ctx : Option Context) : List Attr :=
  ((requestIDFromContext (ctx.getD [])).map fun rid => ⟨fieldRequestID, .string rid⟩).toList ++
    ((tenantIDFromContext (ctx.getD [])).map fun tid => ⟨fieldTenantID, .uint64 tid⟩).toList ++
    ((principalIDFromContext (ctx.getD [])).map fun pid => ⟨fieldPrincipalID, .uint64 pid⟩).toList

theorem attrs_withRequest (l : Logger) (ctx : Option Context) :
    (l.withRequest ctx).attrs = l.attrs ++ requestAttrs ctx := by
  change (if (requestAttrs ctx).length = 0 then l else l.with (requestAttrs ctx)).attrs = _
  split_ifs with h
  · rw [List.length_eq_zero_iff.mp h, List.append_nil]
  · rfl

/-- The three names differ, so each field is counted by its own part. -/
theorem countP_toList {α : Type} (o : Option α) (key : GoString) (value : α → Value) (f : RequestField) :
    (o.map fun v => (⟨key, value v⟩ : Attr)).toList.countP (fun a => a.key = f.name) =
      if key = f.name then o.isSome.toNat else 0 := by
  cases o <;> simp [List.countP_cons]

theorem countP_requestAttrs (ctx : Option Context) (f : RequestField) :
    (requestAttrs ctx).countP (fun a => a.key = f.name) = (f.isIn ctx).toNat := by
  have h₁ : fieldRequestID ≠ fieldTenantID := by decide
  have h₂ : fieldRequestID ≠ fieldPrincipalID := by decide
  have h₃ : fieldTenantID ≠ fieldPrincipalID := by decide
  rw [requestAttrs, List.countP_append, List.countP_append, countP_toList, countP_toList, countP_toList]
  cases f <;> simp [RequestField.name, RequestField.isIn, h₁, h₂, h₃, h₁.symm, h₂.symm, h₃.symm]

theorem occurrences_withRequest (l : Logger) (ctx : Option Context) (f : RequestField) :
    (l.withRequest ctx).occurrences f = l.occurrences f + (f.isIn ctx).toNat := by
  rw [occurrences, attrs_withRequest, List.countP_append, countP_requestAttrs, occurrences]

/-- Over a sequence of calls a field is attached once for each context that carries it. -/
theorem occurrences_withRequests (l : Logger) (ctxs : List (Option Context)) (f : RequestField) :
    (ctxs.foldl withRequest l).occurrences f = l.occurrences f + ctxs.countP f.isIn := by
  induction ctxs generalizing l with
  | nil => rfl
  | cons ctx ctxs ih =>
    rw [List.foldl_cons, ih, occurrences_withRequest, List.countP_cons]
    cases f.isIn ctx with
    | false => simp
    | true =>
      rw [Bool.toNat_true, if_pos rfl]
      omega

theorem requestAttrs_eq_nil {ctx : Option Context} :
    requestAttrs ctx = [] ↔ ∀ f : RequestField, f.isIn ctx = false := by
  constructor
  · intro h f
    have hcount := countP_requestAttrs ctx f
    rw [h, List.countP_nil] at hcount
    exact Bool.toNat_eq_zero.mp hcount.symm
  · intro h
    have hrid := h .requestID
    have htid := h .tenantID
    have hpid := h .principalID
    simp only [RequestField.isIn, Option.isSome_eq_false_iff, Option.isNone_iff_eq_none] at hrid htid hpid
    simp [requestAttrs, hrid, htid, hpid]

/-- Request fields accumulate exactly when two contexts carry the same one. -/
theorem withRequest_atMostOnce_iff {l : Logger} (hl : ∀ f, l.occurrences f = 0) :
    (∀ ctxs : List (Option Context),
      (∀ f, (ctxs.foldl withRequest l).occurrences f ≤ 1) ↔ ∀ f : RequestField, ctxs.countP f.isIn ≤ 1) ∧
    ∀ ctx, ((l.withRequest ctx).withRequest ctx).attrs = (l.withRequest ctx).attrs ↔
      ∀ f : RequestField, f.isIn ctx = false := by
  constructor
  · intro ctxs
    simp only [occurrences_withRequests, hl, Nat.zero_add]
  · intro ctx
    rw [attrs_withRequest, List.append_right_eq_self, requestAttrs_eq_nil]

/-- The contexts of a request and of the job it started: they share no field. -/
theorem separate_fields_atMostOnce :
    (∀ f, (⟨[]⟩ : Logger).occurrences f = 0) ∧
      ∀ f,
      ([some [.requestID (lit "r-1")], some [.tenantID 7], none].foldl withRequest ⟨[]⟩).occurrences f ≤ 1 :=
  ⟨by intro f; rfl, ((withRequest_atMostOnce_iff (by intro f; rfl)).1 _).mpr (by intro f; cases f <;> decide)⟩

/-- Attaching one context twice writes its request id twice. -/
theorem repeated_request_accumulates :
    let l : Logger := ⟨[]⟩
    let ctx : Option Context := some (withRequestID [] (lit "r-1"))
    (∀ f, l.occurrences f = 0) ∧ ((l.withRequest ctx).withRequest ctx).occurrences .requestID = 2 ∧
      ((l.withRequest ctx).withRequest ctx).attrs ≠ (l.withRequest ctx).attrs :=
  ⟨by intro f; rfl, by decide, by decide⟩

end Logger
end SynapseGo.Obs
