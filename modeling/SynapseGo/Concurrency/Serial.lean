import SynapseGo.Concurrency.Interleaving

/-! Calls executed one after another, each as one atomic step in an environment of its own. -/
namespace SynapseGo.Concurrency
variable {E : Type} {R : E → Type} {Env σ : Type}

/-- The log of a sequence of calls. -/
def serial (h : Handler E R Env σ) : σ → List (Env × E) → List (Entry Unit E R Env σ)
  | _, [] => []
  | s, m :: calls =>
    ⟨(), m.1, ⟨m.2, (h m.1 m.2 s).1⟩, s, (h m.1 m.2 s).2⟩ :: serial h (h m.1 m.2 s).2 calls

/-- The state a sequence of calls leads to. -/
def final (h : Handler E R Env σ) (s : σ) (calls : List (Env × E)) : σ :=
  calls.foldl (fun s m => (h m.1 m.2 s).2) s

/-- The call an entry of a log records. -/
def Entry.call (x : Entry Unit E R Env σ) : Env × E := (x.env, x.act.1)

theorem serial_cons (h : Handler E R Env σ) (s : σ) (m : Env × E) (calls : List (Env × E)) :
    serial h s (m :: calls) =
      ⟨(), m.1, ⟨m.2, (h m.1 m.2 s).1⟩, s, (h m.1 m.2 s).2⟩ :: serial h (h m.1 m.2 s).2 calls := rfl

theorem exec_serial (h : Handler E R Env σ) (s : σ) (calls : List (Env × E)) :
    Exec h s (serial h s calls) (final h s calls) := by
  induction calls generalizing s with
  | nil => rfl
  | cons m calls ih => exact ⟨rfl, rfl, ih _⟩

theorem map_call_serial (h : Handler E R Env σ) (s : σ) (calls : List (Env × E)) :
    (serial h s calls).map Entry.call = calls := by
  induction calls generalizing s with
  | nil => rfl
  | cons m calls ih =>
    rw [serial_cons, List.map_cons, ih]
    rfl

theorem length_serial (h : Handler E R Env σ) (s : σ) (calls : List (Env × E)) :
    (serial h s calls).length = calls.length := by
  rw [← map_call_serial h s calls, List.length_map, map_call_serial]

theorem serial_append (h : Handler E R Env σ) (s : σ) (calls calls' : List (Env × E)) :
    serial h s (calls ++ calls') = serial h s calls ++ serial h (final h s calls) calls' := by
  induction calls generalizing s with
  | nil => rfl
  | cons m calls ih =>
    rw [List.cons_append, serial_cons, ih]
    rfl

theorem final_snoc (h : Handler E R Env σ) (s : σ) (calls : List (Env × E)) (m : Env × E) :
    final h s (calls ++ [m]) = (h m.1 m.2 (final h s calls)).2 := by
  unfold final
  rw [List.foldl_append]
  rfl

/-- What holds between the calls of a sequence holds between the entries of its log. -/
theorem pairwise_serial {h : Handler E R Env σ} {s : σ} {calls : List (Env × E)}
    {rel : Env × E → Env × E → Prop} (hc : calls.Pairwise rel) :
    (serial h s calls).Pairwise fun x y => rel x.call y.call := by
  rw [← List.pairwise_map (f := Entry.call), map_call_serial]
  exact hc

theorem forall_serial {h : Handler E R Env σ} {s : σ} {calls : List (Env × E)} {P : Env × E → Prop}
    (hc : ∀ m ∈ calls, P m) : ∀ x ∈ serial h s calls, P x.call := by
  intro x hx
  apply hc
  rw [← map_call_serial h s calls]
  exact List.mem_map_of_mem hx

/-- Two systems that answer alike and stay related call by call do so over every sequence. -/
theorem serial_simulates {τ : Type} {h : Handler E R Env σ} {g : Handler E R Env τ} {rel : σ → τ → Prop}
    (hstep : ∀ env e s t, rel s t → (h env e s).1 = (g env e t).1 ∧ rel (h env e s).2 (g env e t).2)
    {s : σ} {t : τ} (hst : rel s t) (calls : List (Env × E)) :
    (serial h s calls).map Entry.act = (serial g t calls).map Entry.act ∧
      rel (final h s calls) (final g t calls) := by
  induction calls generalizing s t with
  | nil => exact ⟨rfl, hst⟩
  | cons m calls ih =>
    obtain ⟨hreply, hnext⟩ := hstep m.1 m.2 s t hst
    obtain ⟨hacts, hfinal⟩ := ih hnext
    refine ⟨?_, hfinal⟩
    rw [serial_cons, serial_cons, List.map_cons, List.map_cons, hacts]
    simp only [hreply]

/-- The operations of one call, each in an environment of its own; the counter says which is next. -/
def stepwise (h : Handler E R Env σ) (envs : ℕ → Env) (e : E) (s : ℕ × σ) : R e × (ℕ × σ) :=
  let r := h (envs s.1) e s.2
  (r.1, s.1 + 1, r.2)

/-- What every operation a call can come to keeps, the whole call keeps. -/
theorem run_stepwise_invariant {α : Type} {h : Handler E R Env σ} {envs : ℕ → Env} {Q : E → Prop}
    {P : σ → Prop}
    {p : Prog E R α} (hp : p.All Q) (hstep : ∀ env e s, Q e → P s → P (h env e s).2) {s : ℕ × σ}
    (hs : P s.2) :
    P (p.run (stepwise h envs) s).2.2 := by
  induction p generalizing s with
  | ret a => exact hs
  | op e k ih => exact ih _ (hp.2 _) (hstep (envs s.1) e s.2 hp.1 hs)

section Keyed
variable {κ τ : Type} [DecidableEq κ] {h : Handler E R Env (κ → τ)} {key : E → κ} {g : Handler E R Env τ}

/-- Each call reads and writes the state of its own key only. -/
def Local (h : Handler E R Env (κ → τ)) (key : E → κ) (g : Handler E R Env τ) : Prop :=
  ∀ env e s, h env e s = ((g env e (s (key e))).1, Function.update s (key e) (g env e (s (key e))).2)

theorem Local.frame (hl : Local h key g) {ι : Type} {x : Entry ι E R Env (κ → τ)} (hx : x.Valid h) {k : κ}
    (hk : key x.act.1 ≠ k) : x.post k = x.pre k := by
  unfold Entry.Valid at hx
  rw [hl] at hx
  rw [← (Prod.mk.inj hx).2, Function.update_of_ne (Ne.symm hk)]

theorem Local.own (hl : Local h key g) {ι : Type} {x : Entry ι E R Env (κ → τ)} (hx : x.Valid h) :
    g x.env x.act.1 (x.pre (key x.act.1)) = (x.act.2, x.post (key x.act.1)) := by
  unfold Entry.Valid at hx
  rw [hl] at hx
  obtain ⟨hr, hp⟩ := Prod.mk.inj hx
  rw [← hr, ← hp, Function.update_self]

/-- The replies for one key are those of a run on that key alone. -/
theorem Local.acts_eq (hl : Local h key g) (k : κ) (s : κ → τ) (calls : List (Env × E)) :
    ((serial h s calls).filter fun x => key x.act.1 = k).map Entry.act =
      (serial g (s k) (calls.filter fun m => key m.2 = k)).map Entry.act := by
  induction calls generalizing s with
  | nil => rfl
  | cons m calls ih =>
    rw [serial_cons, hl m.1 m.2 s]
    by_cases hm : key m.2 = k
    · subst hm
      rw [List.filter_cons_of_pos (by simp), List.filter_cons_of_pos (by simp), List.map_cons, ih,
        serial_cons, List.map_cons]
      dsimp only
      rw [Function.update_self]
    · rw [List.filter_cons_of_neg (by simp [hm]), List.filter_cons_of_neg (by simp [hm]), ih]
      dsimp only
      rw [Function.update_of_ne (Ne.symm hm)]

theorem Local.final_eq (hl : Local h key g) (k : κ) (s : κ → τ) (calls : List (Env × E)) :
    final h s calls k = final g (s k) (calls.filter fun m => key m.2 = k) := by
  induction calls generalizing s with
  | nil => rfl
  | cons m calls ih =>
    have hstep : final h s (m :: calls) = final h (h m.1 m.2 s).2 calls := rfl
    rw [hstep, ih, hl m.1 m.2 s]
    dsimp only
    by_cases hm : key m.2 = k
    · subst hm
      rw [List.filter_cons_of_pos (by simp), Function.update_self]
      rfl
    · rw [List.filter_cons_of_neg (by simp [hm]), Function.update_of_ne (Ne.symm hm)]

/-- Leaving out the calls on other keys changes neither the replies for `k` nor its state. -/
theorem Local.independent (hl : Local h key g) (k : κ) (s : κ → τ) (calls : List (Env × E)) :
    ((serial h s calls).filter fun x => key x.act.1 = k).map Entry.act =
        (serial h s (calls.filter fun m => key m.2 = k)).map Entry.act ∧
      final h s calls k = final h s (calls.filter fun m => key m.2 = k) k := by
  have hall : ∀ x ∈ serial h s (calls.filter fun m => key m.2 = k), key x.act.1 = k :=
    forall_serial (P := fun m => key m.2 = k) fun m hm => of_decide_eq_true (List.mem_filter.mp hm).2
  have hself : (serial h s (calls.filter fun m => key m.2 = k)).filter (fun x => key x.act.1 = k) =
      serial h s (calls.filter fun m => key m.2 = k) :=
    List.filter_eq_self.mpr fun x hx => decide_eq_true (hall x hx)
  constructor
  · rw [hl.acts_eq, ← hself, hl.acts_eq, List.filter_filter]
    simp only [Bool.and_self]
  · rw [hl.final_eq, hl.final_eq k s (calls.filter fun m => key m.2 = k), List.filter_filter]
    simp only [Bool.and_self]

end Keyed
end SynapseGo.Concurrency
