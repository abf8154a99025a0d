import SynapseGo.Concurrency.Interleaving

/-! Leaving calls out of a run. When a view of the store is enough to answer some of the calls, and the
others cannot change it, the run of those calls alone on the view gives them the same replies. What a
call relies on may depend on the store, as long as every step of the others keeps it. -/
namespace SynapseGo.Concurrency
variable {ι E : Type} {R : E → Type} {Env σ τ α : Type}

/-- The view answers the programs of one side and is not changed by those of the other. Both sides keep
the invariant, and move the store only forward in the relation `ext`, under which the conditions on the
programs are stable. -/
structure Separated (h : Handler E R Env σ) (g : Handler E R Env τ) (view : σ → τ) (inv : σ → Prop)
    (ext : σ → σ → Prop) (own other : σ → Prog E R α → Prop) : Prop where
  own_step : ∀ env s e k, inv s → own s (.op e k) → g env e (view s) = ((h env e s).1, view (h env e s).2) ∧
    inv (h env e s).2 ∧ ext s (h env e s).2 ∧ own (h env e s).2 (k (h env e s).1)
  other_step : ∀ env s e k, inv s → other s (.op e k) → view (h env e s).2 = view s ∧
    inv (h env e s).2 ∧ ext s (h env e s).2 ∧ other (h env e s).2 (k (h env e s).1)
  own_stable : ∀ s t p, ext s t → own s p → own t p
  other_stable : ∀ s t p, ext s t → other s p → other t p

/-- The case of conditions on the operations alone. -/
theorem Separated.of_ops {h : Handler E R Env σ} {g : Handler E R Env τ} {view : σ → τ} {own other : E → Prop}
    (hown : ∀ env e s, own e → g env e (view s) = ((h env e s).1, view (h env e s).2))
    (hother : ∀ env e s, other e → view (h env e s).2 = view s) :
    Separated (α := α) h g view (fun _ => True) (fun _ _ => True) (fun _ p => p.All own) fun _ p =>
      p.All other where
  own_step env s e _ _ hp := ⟨hown env e s hp.1, trivial, trivial, hp.2 _⟩
  other_step env s e _ _ hp := ⟨hother env e s hp.1, trivial, trivial, hp.2 _⟩
  own_stable _ _ _ _ hp := hp
  other_stable _ _ _ _ hp := hp

/-- Who did what, without the store. -/
def Entry.deed (x : Entry ι E R Env σ) : ι × Σ e, R e := (x.caller, x.act)

namespace Config

/-- The configuration `d` is what the `kept` calls see of `c`. -/
structure Purged (view : σ → τ) (kept : ι → Bool) (inv : σ → Prop) (own other : σ → Prog E R α → Prop)
    (c : Config ι E R Env σ α) (d : Config ι E R Env τ α) : Prop where
  store : d.store = view c.store
  calls : ∀ i, kept i = true → d.calls i = c.calls i
  deeds : d.log.map Entry.deed = (c.log.filter fun x => kept x.caller).map Entry.deed
  inv : inv c.store
  own : ∀ i, kept i = true → own c.store (c.calls i)
  other : ∀ i, kept i = false → other c.store (c.calls i)

theorem ne_of_kept {kept : ι → Bool} {i j : ι} (hi : kept i = true) (hj : kept j = false) : j ≠ i := by
  intro heq
  rw [heq, hi] at hj
  cases hj

variable [DecidableEq ι] {h : Handler E R Env σ} {g : Handler E R Env τ} {view : σ → τ} {kept : ι → Bool}
  {inv : σ → Prop} {ext : σ → σ → Prop} {own other : σ → Prog E R α → Prop}
  {c : Config ι E R Env σ α} {d : Config ι E R Env τ α} {i : ι} {env : Env}

theorem step_of_ret {a : α} (hi : c.calls i = .ret a) : c.step h i env = c := by
  unfold step
  rw [hi]

theorem step_of_op (h : Handler E R Env σ) (env : Env) {e : E} {k : R e → Prog E R α}
    (hi : c.calls i = .op e k) :
    (c.step h i env).store = (h env e c.store).2 ∧
      (c.step h i env).calls = Function.update c.calls i (k (h env e c.store).1) ∧
      (c.step h i env).log = c.log ++ [⟨i, env, ⟨e, (h env e c.store).1⟩, c.store, (h env e c.store).2⟩] := by
  unfold step
  rw [hi]
  exact ⟨rfl, rfl, rfl⟩

theorem Purged.step_kept (hs : Separated h g view inv ext own other) (hc : Purged view kept inv own other c d)
    (hi : kept i = true) : Purged view kept inv own other (c.step h i env) (d.step g i env) := by
  have hd := hc.calls i hi
  have hown := hc.own i hi
  cases hci : c.calls i with
  | ret a =>
    rw [step_of_ret hci, step_of_ret (hd.trans hci)]
    exact hc
  | op e k =>
    rw [hci] at hown
    obtain ⟨hanswer, hinv, hext, hnext⟩ := hs.own_step env c.store e k hc.inv hown
    obtain ⟨hstore, hcalls, hlog⟩ := step_of_op h env hci
    obtain ⟨hstore', hcalls', hlog'⟩ := step_of_op g env (hd.trans hci)
    rw [hc.store, hanswer] at hstore' hcalls' hlog'
    constructor
    case store => rw [hstore', hstore]
    case calls =>
      intro j hj
      rw [hcalls, hcalls']
      by_cases hji : j = i
      · rw [hji, Function.update_self, Function.update_self]
      · rw [Function.update_of_ne hji, Function.update_of_ne hji]
        exact hc.calls j hj
    case deeds =>
      rw [hlog, hlog', List.map_append, List.filter_append, List.map_append, hc.deeds]
      simp [Entry.deed, hi]
    case inv =>
      rw [hstore]
      exact hinv
    case own =>
      intro j hj
      rw [hstore, hcalls]
      by_cases hji : j = i
      · rw [hji, Function.update_self]
        exact hnext
      · rw [Function.update_of_ne hji]
        exact hs.own_stable _ _ _ hext (hc.own j hj)
    case other =>
      intro j hj
      rw [hstore, hcalls, Function.update_of_ne (ne_of_kept hi hj)]
      exact hs.other_stable _ _ _ hext (hc.other j hj)

theorem Purged.step_left_out (hs : Separated h g view inv ext own other)
    (hc : Purged view kept inv own other c d)
    (hi : kept i = false) : Purged view kept inv own other (c.step h i env) d := by
  have hother := hc.other i hi
  cases hci : c.calls i with
  | ret a =>
    rw [step_of_ret hci]
    exact hc
  | op e k =>
    rw [hci] at hother
    obtain ⟨hview, hinv, hext, hnext⟩ := hs.other_step env c.store e k hc.inv hother
    obtain ⟨hstore, hcalls, hlog⟩ := step_of_op h env hci
    constructor
    case store => rw [hstore, hc.store, hview]
    case calls =>
      intro j hj
      rw [hcalls, Function.update_of_ne (ne_of_kept hj hi).symm]
      exact hc.calls j hj
    case deeds =>
      rw [hlog, List.filter_append, List.map_append, hc.deeds]
      simp [hi]
    case inv =>
      rw [hstore]
      exact hinv
    case own =>
      intro j hj
      rw [hstore, hcalls, Function.update_of_ne (ne_of_kept hj hi).symm]
      exact hs.own_stable _ _ _ hext (hc.own j hj)
    case other =>
      intro j hj
      rw [hstore, hcalls]
      by_cases hji : j = i
      · rw [hji, Function.update_self]
        exact hnext
      · rw [Function.update_of_ne hji]
        exact hs.other_stable _ _ _ hext (hc.other j hj)

theorem Purged.run (hs : Separated h g view inv ext own other) (hc : Purged view kept inv own other c d)
    (sched : List (ι × Env)) :
    Purged view kept inv own other (c.run h sched) (d.run g (sched.filter fun m => kept m.1)) := by
  induction sched generalizing c d with
  | nil => exact hc
  | cons m sched ih =>
    cases hm : kept m.1 with
    | true =>
      rw [List.filter_cons_of_pos (by simp [hm])]
      exact ih (hc.step_kept hs hm)
    | false =>
      rw [List.filter_cons_of_neg (by simp [hm])]
      exact ih (hc.step_left_out hs hm)

/-- The run of the kept calls alone, on the view, is what they see of the whole run. -/
theorem run_purge (hs : Separated h g view inv ext own other) {calls : ι → Prog E R α} {s : σ} (hinv : inv s)
    (hown : ∀ i, kept i = true → own s (calls i)) (hother : ∀ i, kept i = false → other s (calls i))
    (sched : List (ι × Env)) : Purged view kept inv own other ((start calls s).run h sched)
      ((start calls (view s)).run g (sched.filter fun m => kept m.1)) := by
  have hstart : Purged view kept inv own other (start calls s : Config ι E R Env σ α)
    (start calls (view s)) :=
    ⟨rfl, fun _ _ => rfl, rfl, hinv, hown, hother⟩
  exact hstart.run hs sched

end Config
end SynapseGo.Concurrency
