import Mathlib.Data.List.Basic

/-! Calls as trees of atomic operations, with the histories they leave. -/
namespace SynapseGo.Concurrency

/-- A call either returns, or issues one atomic operation and continues with its reply. -/
inductive Prog (E : Type) (R : E → Type) (α : Type) where
  | ret (a : α)
  | op (e : E) (k : R e → Prog E R α)

namespace Prog
variable {E : Type} {R : E → Type} {α β σ : Type}

def bind : Prog E R α → (α → Prog E R β) → Prog E R β
  | .ret a, f => f a
  | .op e k, f => .op e fun r => (k r).bind f

instance : Monad (Prog E R) where
  pure := .ret
  bind := Prog.bind

/-- The call that issues one operation and returns its reply. -/
def perform (e : E) : Prog E R (R e) := .op e .ret

@[simp] theorem pure_eq_ret (a : α) : (pure a : Prog E R α) = .ret a := rfl

@[simp] theorem ret_bind (a : α) (f : α → Prog E R β) : (Prog.ret a >>= f) = f a := rfl

@[simp] theorem op_bind (e : E) (k : R e → Prog E R α) (f : α → Prog E R β) :
    (Prog.op e k >>= f) = .op e fun r => k r >>= f := rfl

@[simp] theorem perform_bind (e : E) (f : R e → Prog E R β) : (perform e >>= f) = .op e f := rfl

def result? : Prog E R α → Option α
  | .ret a => some a
  | .op _ _ => none

theorem result?_eq_some {p : Prog E R α} {a : α} : p.result? = some a ↔ p = .ret a := by
  cases p <;> simp [result?]

/-- Sequential execution: every operation is answered by `h` and no other call interferes. -/
def run (h : (e : E) → σ → R e × σ) : Prog E R α → σ → α × σ
  | .ret a, s => (a, s)
  | .op e k, s => (k (h e s).1).run h (h e s).2

@[simp] theorem run_ret (h : (e : E) → σ → R e × σ) (a : α) (s : σ) :
    (Prog.ret a).run h s = (a, s) := rfl

@[simp] theorem run_op (h : (e : E) → σ → R e × σ) (e : E) (k : R e → Prog E R α) (s : σ) :
    (Prog.op e k).run h s = (k (h e s).1).run h (h e s).2 := rfl

@[simp] theorem run_bind (h : (e : E) → σ → R e × σ) (p : Prog E R α) (f : α → Prog E R β) (s : σ) :
    (p >>= f).run h s = (f (p.run h s).1).run h (p.run h s).2 := by
  induction p generalizing s with
  | ret a => rfl
  | op e k ih => exact ih _ _

/-- After the operations and replies `es` the call `p` has become `q`. -/
inductive Path : Prog E R α → List (Σ e, R e) → Prog E R α → Prop
  | nil (p : Prog E R α) : Path p [] p
  | cons {e : E} {k : R e → Prog E R α} {r : R e} {es : List (Σ e, R e)} {q : Prog E R α}
      (h : Path (k r) es q) : Path (.op e k) (⟨e, r⟩ :: es) q

/-- A complete history of a call that returned `a`. -/
def Returns (p : Prog E R α) (es : List (Σ e, R e)) (a : α) : Prop := Path p es (.ret a)

theorem Path.snoc {p : Prog E R α} {es : List (Σ e, R e)} {e : E} {k : R e → Prog E R α}
    (h : Path p es (.op e k)) (r : R e) : Path p (es ++ [⟨e, r⟩]) (k r) := by
  generalize hq : Prog.op e k = q at h
  induction h with
  | nil p => subst hq; exact .cons (.nil _)
  | cons _ ih => exact .cons (ih hq)

@[simp] theorem returns_ret {a b : α} {es : List (Σ e, R e)} :
    Returns (.ret a : Prog E R α) es b ↔ es = [] ∧ a = b := by
  constructor
  · intro h
    cases h
    exact ⟨rfl, rfl⟩
  · rintro ⟨rfl, rfl⟩
    exact .nil _

@[simp] theorem returns_op {e : E} {k : R e → Prog E R α} {es : List (Σ e, R e)} {a : α} :
    Returns (.op e k) es a ↔ ∃ r es', es = ⟨e, r⟩ :: es' ∧ Returns (k r) es' a := by
  constructor
  · intro h
    cases h with
    | cons h => exact ⟨_, _, rfl, h⟩
  · rintro ⟨r, es', rfl, h⟩
    exact .cons h

theorem returns_bind {p : Prog E R α} {f : α → Prog E R β} {es : List (Σ e, R e)} {b : β} :
    Returns (p >>= f) es b ↔ ∃ a es₁ es₂, es = es₁ ++ es₂ ∧ Returns p es₁ a ∧ Returns (f a) es₂ b := by
  induction p generalizing es with
  | ret a => simp
  | op e k ih =>
    simp only [op_bind, returns_op, ih]
    constructor
    · rintro ⟨r, _, rfl, a, es₁, es₂, rfl, h₁, h₂⟩
      exact ⟨a, ⟨e, r⟩ :: es₁, es₂, rfl, ⟨r, es₁, rfl, h₁⟩, h₂⟩
    · rintro ⟨a, _, es₂, rfl, ⟨r, es₁, rfl, h₁⟩, h₂⟩
      exact ⟨r, es₁ ++ es₂, rfl, a, es₁, es₂, rfl, h₁, h₂⟩

/-- A history of a composed call is still inside its first part, or has passed its return. -/
theorem Path.of_bind {p : Prog E R α} {f : α → Prog E R β} {es : List (Σ e, R e)} {q : Prog E R β}
    (h : Path (p >>= f) es q) :
    (∃ p', Path p es p' ∧ q = p' >>= f) ∨
      ∃ a es₁ es₂, es = es₁ ++ es₂ ∧ Returns p es₁ a ∧ Path (f a) es₂ q := by
  induction p generalizing es with
  | ret a => exact Or.inr ⟨a, [], es, rfl, .nil _, h⟩
  | op e k ih =>
    cases h with
    | nil => exact Or.inl ⟨_, .nil _, rfl⟩
    | cons h =>
      rcases ih _ h with ⟨p', hp, hq⟩ | ⟨a, es₁, es₂, rfl, h₁, h₂⟩
      · exact Or.inl ⟨p', .cons hp, hq⟩
      · exact Or.inr ⟨a, _ :: es₁, es₂, rfl, .cons h₁, h₂⟩

/-- An operation in a call's history is the next one, or belongs to the continuation. -/
theorem Path.op_split {e : E} {k : R e → Prog E R α} {es es' : List (Σ e, R e)} {y : Σ e, R e}
    {q : Prog E R α} (h : Path (.op e k) (es ++ y :: es') q) :
    (es = [] ∧ ∃ r, y = ⟨e, r⟩) ∨
      ∃ r es₁, es = ⟨e, r⟩ :: es₁ ∧ Path (k r) (es₁ ++ y :: es') q := by
  cases es with
  | nil =>
    cases h
    exact Or.inl ⟨rfl, _, rfl⟩
  | cons z es =>
    cases h with
    | cons h => exact Or.inr ⟨_, es, rfl, h⟩

theorem Path.ret_split {a : α} {es es' : List (Σ e, R e)} {y : Σ e, R e} {q : Prog E R α}
    (h : Path (.ret a) (es ++ y :: es') q) : False := by
  generalize hl : es ++ y :: es' = l at h
  cases h
  simp at hl

/-- A call of one operation has it alone in its history. -/
theorem Path.single_split {e : E} {f : R e → α} {es es' : List (Σ e, R e)} {y : Σ e, R e} {q : Prog E R α}
    (h : Path (.op e fun r => .ret (f r)) (es ++ y :: es') q) : es = [] ∧ ∃ r, y = ⟨e, r⟩ := by
  rcases h.op_split with hfirst | ⟨r, es₁, -, hrest⟩
  · exact hfirst
  · exact hrest.ret_split.elim

/-- Post-processing a result adds no operations. -/
theorem Path.of_map {p : Prog E R α} {g : α → β} {es : List (Σ e, R e)} {q : Prog E R β}
    (h : Path (p >>= fun a => .ret (g a)) es q) : ∃ p', Path p es p' := by
  rcases h.of_bind with ⟨p', hp, -⟩ | ⟨a, es₁, es₂, rfl, h₁, h₂⟩
  · exact ⟨p', hp⟩
  · cases h₂
    rw [List.append_nil]
    exact ⟨_, h₁⟩

/-- Post-processing a result is done when the result is there. -/
theorem Path.exists_of_map {p : Prog E R α} {g : α → β} {es : List (Σ e, R e)} {q : Prog E R β}
    (h : Path (p >>= fun a => .ret (g a)) es q) : ∃ p', Path p es p' ∧ q = p' >>= fun a => .ret (g a) := by
  rcases h.of_bind with hinside | ⟨a, es₁, es₂, rfl, h₁, h₂⟩
  · exact hinside
  · cases h₂
    rw [List.append_nil]
    exact ⟨.ret a, h₁, rfl⟩

/-- An operation of a composed call belongs to its first part, or follows the return of that part. -/
theorem Path.bind_split {p : Prog E R α} {f : α → Prog E R β} {es es' : List (Σ e, R e)}
    {y : Σ e, R e} {q : Prog E R β} (h : Path (p >>= f) (es ++ y :: es') q) :
    (∃ es₁ p', Path p (es ++ y :: es₁) p') ∨
      ∃ a es₁ es₂, es = es₁ ++ es₂ ∧ Returns p es₁ a ∧ Path (f a) (es₂ ++ y :: es') q := by
  induction p generalizing es with
  | ret a => exact Or.inr ⟨a, [], es, rfl, .nil _, h⟩
  | op e k ih =>
    rcases Path.op_split h with ⟨rfl, r, rfl⟩ | ⟨r, es₁, rfl, h₁⟩
    · exact Or.inl ⟨[], k r, .cons (.nil _)⟩
    · rcases ih r h₁ with ⟨es₂, p', hp⟩ | ⟨a, es₂, es₃, rfl, hr, hp⟩
      · exact Or.inl ⟨es₂, p', .cons hp⟩
      · exact Or.inr ⟨a, _ :: es₂, es₃, rfl, .cons hr, hp⟩

/-- A returned call issues nothing more, and its history determines its result. -/
theorem Returns.eq_of_path {p q : Prog E R α} {es es' : List (Σ e, R e)} {a : α}
    (h : Returns p es a) (h' : Path p (es ++ es') q) : es' = [] ∧ q = .ret a := by
  induction p generalizing es with
  | ret b =>
    obtain ⟨rfl, rfl⟩ := returns_ret.mp h
    cases h'
    exact ⟨rfl, rfl⟩
  | op e k ih =>
    obtain ⟨r, es₁, rfl, h₁⟩ := returns_op.mp h
    cases h' with
    | cons h₂ => exact ih r h₁ h₂

/-- Every operation that the program can come to satisfies `P`. -/
def All (P : E → Prop) : Prog E R α → Prop
  | .ret _ => True
  | .op e k => P e ∧ ∀ r, (k r).All P

theorem All.bind {P : E → Prop} {p : Prog E R α} {f : α → Prog E R β} (h : p.All P) (hf : ∀ a, (f a).All P) :
    Prog.All P (p >>= f) := by
  induction p with
  | ret a => exact hf a
  | op e k ih => exact ⟨h.1, fun r => ih r (h.2 r)⟩

theorem All.map {P : E → Prop} {p : Prog E R α} (h : p.All P) (g : α → β) :
    Prog.All P (p >>= fun a => .ret (g a)) := h.bind fun _ => trivial

theorem All.of_path {P : E → Prop} {p q : Prog E R α} {es : List (Σ e, R e)} (h : p.All P)
    (hp : Path p es q) :
    ∀ y ∈ es, P y.1 := by
  induction hp with
  | nil p => exact nofun
  | cons _ ih =>
    intro y hy
    cases List.mem_cons.mp hy with
    | inl heq =>
      rw [heq]
      exact h.1
    | inr hlater => exact ih (h.2 _) y hlater

end Prog
end SynapseGo.Concurrency
