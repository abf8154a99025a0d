import Mathlib.Logic.Function.Basic
import Mathlib.Data.List.Induction
import SynapseGo.Concurrency.Prog

/-! Interleaved execution of any family of calls over one store. A schedule names, step by
step, the call that moves and what the outside world contributes to that step. -/
namespace SynapseGo.Concurrency

/-- The store's answer to one operation; `Env` carries clock readings, faults and free choices. -/
abbrev Handler (E : Type) (R : E → Type) (Env σ : Type) := Env → (e : E) → σ → R e × σ

/-- One executed operation, with the store before and after it. -/
structure Entry (ι E : Type) (R : E → Type) (Env σ : Type) where
  caller : ι
  env : Env
  act : Σ e, R e
  pre : σ
  post : σ

/-- The store, what is left of each call, and the operations executed so far (oldest first). -/
structure Config (ι E : Type) (R : E → Type) (Env σ α : Type) where
  store : σ
  calls : ι → Prog E R α
  log : List (Entry ι E R Env σ)

variable {ι E : Type} {R : E → Type} {Env σ α : Type}

/-- The operation was answered by the handler. -/
def Entry.Valid (h : Handler E R Env σ) (e : Entry ι E R Env σ) : Prop :=
  h e.env e.act.1 e.pre = (e.act.2, e.post)

theorem Entry.Valid.handle {h : Handler E R Env σ} {x : Entry ι E R Env σ} (hx : x.Valid h)
    {e : E} {r : R e} (ha : x.act = ⟨e, r⟩) : h x.env e x.pre = (r, x.post) := by
  obtain ⟨i, env, act, pre, post⟩ := x
  cases ha
  exact hx

/-- The entries form an unbroken chain of operations from `s` to `t`. -/
def Exec (h : Handler E R Env σ) : σ → List (Entry ι E R Env σ) → σ → Prop
  | s, [], t => s = t
  | s, x :: l, t => x.pre = s ∧ x.Valid h ∧ Exec h x.post l t

namespace Exec
variable {h : Handler E R Env σ} {s t u : σ} {a b l : List (Entry ι E R Env σ)} {x : Entry ι E R Env σ}

theorem append (ha : Exec h s a t) (hb : Exec h t b u) : Exec h s (a ++ b) u := by
  induction a generalizing s with
  | nil =>
    cases ha
    exact hb
  | cons x a ih => exact ⟨ha.1, ha.2.1, ih ha.2.2⟩

theorem of_append (hab : Exec h s (a ++ b) t) : ∃ u, Exec h s a u ∧ Exec h u b t := by
  induction a generalizing s with
  | nil => exact ⟨s, rfl, hab⟩
  | cons x a ih =>
    obtain ⟨hs, hx, hl⟩ := hab
    obtain ⟨u, ha, hb⟩ := ih hl
    exact ⟨u, ⟨hs, hx, ha⟩, hb⟩

/-- The state before and after each recorded operation lies on the chain. -/
theorem split (hl : Exec h s (a ++ x :: b) t) :
    Exec h s a x.pre ∧ x.Valid h ∧ Exec h x.post b t := by
  obtain ⟨u, ha, rfl, hx, hb⟩ := hl.of_append
  exact ⟨ha, hx, hb⟩

theorem valid (hl : Exec h s l t) (hx : x ∈ l) : x.Valid h := by
  obtain ⟨a, b, rfl⟩ := List.append_of_mem hx
  exact hl.split.2.1

theorem unique (hl : Exec h s l t) (hl' : Exec h s l u) : t = u := by
  induction l generalizing s with
  | nil => exact hl.symm.trans hl'
  | cons x l ih => exact ih hl.2.2 hl'.2.2

/-- What every single operation of a chain preserves, the whole chain preserves. -/
theorem invariant {P : σ → Prop} (hl : Exec h s l t)
    (hstep : ∀ x ∈ l, x.Valid h → P x.pre → P x.post) (hs : P s) : P t := by
  induction l generalizing s with
  | nil =>
    cases hl
    exact hs
  | cons x l ih =>
    obtain ⟨rfl, hx, hl⟩ := hl
    exact ih hl (fun y hy => hstep y (List.mem_cons_of_mem _ hy)) (hstep x List.mem_cons_self hx hs)

/-- What holds at the start of a chain and not at its end is lost in one of its operations. -/
theorem exists_leaving {P : σ → Prop} (hl : Exec h s l t) (hs : P s) (ht : ¬ P t) :
    ∃ x ∈ l, x.Valid h ∧ P x.pre ∧ ¬ P x.post := by
  by_contra hnone
  apply ht
  apply hl.invariant _ hs
  intro x hx hvalid hpre
  by_contra hpost
  exact hnone ⟨x, hx, hvalid, hpre, hpost⟩

/-- What may be lost in an operation but not with time: it holds before each operation of a chain whose
clock readings `f` do not go back, at the reading of that operation. -/
theorem timed_invariant {T : Type} [LE T] {f : Env → T} {P : T → σ → Prop} (hl : Exec h s l t)
    (hclock : l.Pairwise fun x y => f x.env ≤ f y.env)
    (hlater : ∀ t u s, t ≤ u → P t s → P u s)
    (hstep : ∀ x ∈ l, x.Valid h → P (f x.env) x.pre → P (f x.env) x.post)
    (hs : ∀ x ∈ l, P (f x.env) s) : ∀ x ∈ l, P (f x.env) x.pre := by
  induction l generalizing s with
  | nil =>
    intro x hx
    cases hx
  | cons x l ih =>
    obtain ⟨rfl, hx, hl⟩ := hl
    have hbefore := hs x List.mem_cons_self
    have hafter := hstep x List.mem_cons_self hx hbefore
    intro y hy
    rcases List.mem_cons.mp hy with rfl | hy
    · exact hbefore
    · apply ih hl hclock.of_cons (fun z hz => hstep z (List.mem_cons_of_mem x hz)) _ y hy
      intro z hz
      exact hlater _ _ _ ((List.pairwise_cons.mp hclock).1 z hz) hafter

/-- The invariant rule for properties of the history together with the state. -/
theorem history_invariant {P : List (Entry ι E R Env σ) → σ → Prop} (hl : Exec h s l t)
    (hs : P [] s)
    (hstep : ∀ a x b, l = a ++ x :: b → x.Valid h → P a x.pre → P (a ++ [x]) x.post) : P l t := by
  induction l using List.reverseRecOn generalizing t with
  | nil =>
    cases hl
    exact hs
  | append_singleton l x ih =>
    obtain ⟨ha, hx, rfl⟩ := hl.split
    refine hstep l x [] rfl hx (ih ha ?_)
    intro a y b hab
    exact hstep a y (b ++ [x]) (by rw [hab, List.append_assoc, List.cons_append])

/-- The same at a point within the log, with each step at its place in the whole. -/
theorem invariant_within {P : List (Entry ι E R Env σ) → σ → Prop} (ha : Exec h s a t) (hl : l = a ++ b)
    (hs : P [] s)
    (hstep : ∀ a x b, l = a ++ x :: b → x.Valid h → P a x.pre → P (a ++ [x]) x.post) : P a t := by
  apply ha.history_invariant hs
  intro a₁ x b₁ hab
  apply hstep a₁ x (b₁ ++ b)
  rw [hl, hab, List.append_assoc, List.cons_append]

end Exec

theorem mem_of_split {T : Type} {l a b : List T} {x : T} (hl : l = a ++ x :: b) : x ∈ l := by
  rw [hl]
  exact List.mem_append_right a List.mem_cons_self

/-- A relation between each operation and every later one. -/
theorem pairwise_iff_split {rel : Entry ι E R Env σ → Entry ι E R Env σ → Prop}
    {l : List (Entry ι E R Env σ)} :
    l.Pairwise rel ↔ ∀ a x b, l = a ++ x :: b → ∀ y ∈ b, rel x y := by
  constructor
  · intro h a x b hl y hy
    rw [hl] at h
    exact (List.pairwise_cons.mp (List.pairwise_append.mp h).2.1).1 y hy
  · intro h
    induction l with
    | nil => exact List.Pairwise.nil
    | cons x l ih =>
      refine List.Pairwise.cons (h [] x l rfl) (ih ?_)
      intro a y b hl
      exact h (x :: a) y b (by rw [hl, List.cons_append])

/-- A property of each operation and the log before it, by position or by splitting. -/
theorem forall_get_iff_split {P : List (Entry ι E R Env σ) → Entry ι E R Env σ → Prop}
    {l : List (Entry ι E R Env σ)} :
    (∀ n : Fin l.length, P (l.take n) (l.get n)) ↔ ∀ a x b, l = a ++ x :: b → P a x := by
  constructor
  · rintro h a x b rfl
    have hlt : a.length < (a ++ x :: b).length := by simp
    simpa using h ⟨a.length, hlt⟩
  · intro h n
    apply h (l.take n) (l.get n) (l.drop (n + 1))
    rw [List.get_eq_getElem, List.getElem_cons_drop, List.take_append_drop]

/-- Of two recorded operations one comes first. -/
theorem exists_split_of_mem {l : List (Entry ι E R Env σ)} {x y : Entry ι E R Env σ} (hx : x ∈ l)
    (hy : y ∈ l) : x = y ∨ (∃ a m b, l = a ++ x :: (m ++ y :: b)) ∨
      ∃ a m b, l = a ++ y :: (m ++ x :: b) := by
  obtain ⟨a, b, rfl⟩ := List.append_of_mem hx
  rcases List.mem_append.mp hy with hy | hy
  · obtain ⟨a₁, a₂, rfl⟩ := List.append_of_mem hy
    exact Or.inr (Or.inr ⟨a₁, a₂, b, by rw [List.append_assoc, List.cons_append]⟩)
  · rcases List.mem_cons.mp hy with rfl | hy
    · exact Or.inl rfl
    · obtain ⟨b₁, b₂, rfl⟩ := List.append_of_mem hy
      exact Or.inr (Or.inl ⟨a, b₁, b₂, rfl⟩)

section History
variable [DecidableEq ι]

/-- The operations and replies of one call, in order. -/
def history (i : ι) (l : List (Entry ι E R Env σ)) : List (Σ e, R e) :=
  (l.filter (fun x => x.caller = i)).map Entry.act

@[simp] theorem history_nil (i : ι) : history i ([] : List (Entry ι E R Env σ)) = [] := rfl

@[simp] theorem history_append (i : ι) (a b : List (Entry ι E R Env σ)) :
    history i (a ++ b) = history i a ++ history i b := by
  simp [history]

@[simp] theorem history_cons_self (x : Entry ι E R Env σ) (l : List (Entry ι E R Env σ)) :
    history x.caller (x :: l) = x.act :: history x.caller l := by
  simp [history]

theorem history_cons_of_ne {i : ι} {x : Entry ι E R Env σ} (h : x.caller ≠ i)
    (l : List (Entry ι E R Env σ)) : history i (x :: l) = history i l := by
  simp [history, h]

theorem mem_history {i : ι} {l : List (Entry ι E R Env σ)} {y : Σ e, R e} :
    y ∈ history i l ↔ ∃ x ∈ l, x.caller = i ∧ x.act = y := by
  simp [history, and_assoc]

/-- Every operation of a call's own history has its place in the global log. -/
theorem exists_of_history_eq {i : ι} {l : List (Entry ι E R Env σ)} {y : Σ e, R e}
    {es es' : List (Σ e, R e)} (h : history i l = es ++ y :: es') :
    ∃ a x b, l = a ++ x :: b ∧ x.caller = i ∧ x.act = y ∧ history i a = es ∧ history i b = es' := by
  induction l generalizing es with
  | nil => simp at h
  | cons x l ih =>
    by_cases hx : x.caller = i
    · subst hx
      rw [history_cons_self] at h
      cases es with
      | nil =>
        obtain ⟨rfl, hl⟩ := List.cons.inj h
        exact ⟨[], x, l, rfl, rfl, rfl, rfl, hl⟩
      | cons z es =>
        obtain ⟨rfl, hl⟩ := List.cons.inj h
        obtain ⟨a, y', b, rfl, hc, hy, ha, hb⟩ := ih hl
        exact ⟨x :: a, y', b, rfl, hc, hy, by rw [history_cons_self, ha], hb⟩
    · rw [history_cons_of_ne hx] at h
      obtain ⟨a, y', b, rfl, hc, hy, ha, hb⟩ := ih h
      exact ⟨x :: a, y', b, rfl, hc, hy, by rw [history_cons_of_ne hx, ha], hb⟩

theorem exists_of_history_cons {i : ι} {l : List (Entry ι E R Env σ)} {y : Σ e, R e}
    {es : List (Σ e, R e)} (h : history i l = y :: es) :
    ∃ a x b, l = a ++ x :: b ∧ x.caller = i ∧ x.act = y ∧ history i a = [] ∧ history i b = es :=
  exists_of_history_eq (by rw [h, List.nil_append])

end History

namespace Config
variable [DecidableEq ι]

/-- All calls are about to start on the store `s`. -/
def start (calls : ι → Prog E R α) (s : σ) : Config ι E R Env σ α := ⟨s, calls, []⟩

/-- Call `i` executes its next operation; a returned call has none. -/
def step (h : Handler E R Env σ) (c : Config ι E R Env σ α) (i : ι) (env : Env) :
    Config ι E R Env σ α :=
  match c.calls i with
  | .ret _ => c
  | .op e k =>
    { store := (h env e c.store).2
      calls := Function.update c.calls i (k (h env e c.store).1)
      log := c.log ++ [⟨i, env, ⟨e, (h env e c.store).1⟩, c.store, (h env e c.store).2⟩] }

/-- The configuration a schedule leads to. -/
def run (h : Handler E R Env σ) (c : Config ι E R Env σ α) (sched : List (ι × Env)) :
    Config ι E R Env σ α :=
  sched.foldl (fun c m => c.step h m.1 m.2) c

/-- What the log of a configuration reached from `calls` and `s` says about it. -/
structure Sound (h : Handler E R Env σ) (calls : ι → Prog E R α) (s : σ)
    (c : Config ι E R Env σ α) : Prop where
  exec : Exec h s c.log c.store
  path : ∀ i, (calls i).Path (history i c.log) (c.calls i)

theorem Sound.step {h : Handler E R Env σ} {calls : ι → Prog E R α} {s : σ}
    {c : Config ι E R Env σ α} (hc : Sound h calls s c) (i : ι) (env : Env) :
    Sound h calls s (c.step h i env) := by
  unfold Config.step
  cases hi : c.calls i with
  | ret a => exact hc
  | op e k =>
    refine ⟨hc.exec.append ⟨rfl, rfl, rfl⟩, fun j => ?_⟩
    by_cases hj : j = i
    · subst hj
      have hp := hc.path j
      rw [hi] at hp
      simpa [history] using hp.snoc (h env e c.store).1
    · simpa [history, Function.update_of_ne hj, Ne.symm hj] using hc.path j

/-- Every schedule keeps the global chain of operations and each call's own history. -/
theorem run_sound (h : Handler E R Env σ) (calls : ι → Prog E R α) (s : σ)
    (sched : List (ι × Env)) : Sound h calls s ((start calls s).run h sched) := by
  have key : ∀ c : Config ι E R Env σ α, Sound h calls s c → Sound h calls s (c.run h sched) := by
    induction sched with
    | nil => exact fun c hc => hc
    | cons m sched ih => exact fun c hc => ih _ (hc.step m.1 m.2)
  exact key _ ⟨rfl, fun i => .nil _⟩

/-- Call `i` has returned `a`. -/
def Returned (c : Config ι E R Env σ α) (i : ι) (a : α) : Prop := (c.calls i).result? = some a

instance [DecidableEq α] (c : Config ι E R Env σ α) (i : ι) (a : α) : Decidable (c.Returned i a) :=
  inferInstanceAs (Decidable (_ = _))

/-- The call of each recorded operation came to it by its own history. -/
theorem Sound.path_split {h : Handler E R Env σ} {calls : ι → Prog E R α} {s : σ}
    {c : Config ι E R Env σ α} (hc : Sound h calls s c) {a b : List (Entry ι E R Env σ)}
    {x : Entry ι E R Env σ} (hl : c.log = a ++ x :: b) :
    (calls x.caller).Path (history x.caller a ++ x.act :: history x.caller b) (c.calls x.caller) := by
  have hp := hc.path x.caller
  rwa [hl, history_append, history_cons_self] at hp

theorem Sound.returns {h : Handler E R Env σ} {calls : ι → Prog E R α} {s : σ}
    {c : Config ι E R Env σ α} (hc : Sound h calls s c) {i : ι} {a : α} (ha : c.Returned i a) :
    (calls i).Returns (history i c.log) a := by
  have hp := hc.path i
  rwa [Prog.result?_eq_some.mp ha] at hp

end Config
end SynapseGo.Concurrency
