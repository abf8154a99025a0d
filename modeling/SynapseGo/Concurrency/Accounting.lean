import Mathlib.Algebra.BigOperators.Group.Finset.Basic
import Mathlib.Algebra.Order.BigOperators.Group.Finset
import Mathlib.Algebra.Order.Ring.Int
import SynapseGo.Concurrency.Interleaving

/-! Counters as sums over calls. What a call contributes is read off its own history, so one step
changes the contribution of its caller only. -/
namespace SynapseGo.Concurrency
variable {ι E : Type} {R : E → Type} {Env σ : Type} [DecidableEq ι]

/-- The calls that have executed an operation. -/
def callers (l : List (Entry ι E R Env σ)) : Finset ι := (l.map Entry.caller).toFinset

/-- The sum of what the calls contribute after the log `l`. -/
def total (contribution : ι → List (Σ e, R e) → ℤ) (l : List (Entry ι E R Env σ)) : ℤ :=
  ∑ i ∈ callers l, contribution i (history i l)

variable {c : ι → List (Σ e, R e) → ℤ} {l : List (Entry ι E R Env σ)}

theorem history_eq_nil {i : ι} (h : i ∉ callers l) : history i l = [] := by
  by_contra hne
  obtain ⟨y, es, hy⟩ := List.exists_cons_of_ne_nil hne
  obtain ⟨x, hx, hi, -⟩ := mem_history.mp (hy ▸ List.mem_cons_self : y ∈ history i l)
  exact h (List.mem_toFinset.mpr (List.mem_map.mpr ⟨x, hx, hi⟩))

theorem callers_snoc (x : Entry ι E R Env σ) : callers (l ++ [x]) = insert x.caller (callers l) := by
  unfold callers
  rw [List.map_append, List.map_singleton, List.toFinset_append, List.toFinset_cons, List.toFinset_nil,
    Finset.union_insert, Finset.union_empty]

theorem history_snoc_of_ne {i : ι} {x : Entry ι E R Env σ} (h : x.caller ≠ i) :
    history i (l ++ [x]) = history i l := by
  rw [history_append, history_cons_of_ne h, history_nil, List.append_nil]

theorem history_snoc_self (x : Entry ι E R Env σ) :
    history x.caller (l ++ [x]) = history x.caller l ++ [x.act] := by
  rw [history_append, history_cons_self, history_nil]

/-- One step changes the sum by what it changes for its caller. -/
theorem total_snoc (hc : ∀ i, c i [] = 0) (x : Entry ι E R Env σ) :
    total c (l ++ [x]) =
      total c l + (c x.caller (history x.caller l ++ [x.act]) - c x.caller (history x.caller l)) := by
  have hbefore : total c l = ∑ i ∈ insert x.caller (callers l), c i (history i l) := by
    by_cases hx : x.caller ∈ callers l
    · rw [Finset.insert_eq_of_mem hx]
      rfl
    · rw [Finset.sum_insert hx, history_eq_nil hx, hc, zero_add]
      rfl
  have hmem : x.caller ∈ insert x.caller (callers l) := Finset.mem_insert_self _ _
  have hrest : ∑ i ∈ (insert x.caller (callers l)).erase x.caller, c i (history i (l ++ [x])) =
      ∑ i ∈ (insert x.caller (callers l)).erase x.caller, c i (history i l) := by
    apply Finset.sum_congr rfl
    intro i hi
    rw [history_snoc_of_ne (Ne.symm (Finset.ne_of_mem_erase hi))]
  rw [hbefore]
  unfold total
  rw [callers_snoc, ← Finset.add_sum_erase _ _ hmem, hrest, history_snoc_self,
    ← Finset.add_sum_erase (insert x.caller (callers l)) (fun i => c i (history i l)) hmem]
  omega

theorem total_congr {c' : ι → List (Σ e, R e) → ℤ} (h : ∀ i, c i (history i l) = c' i (history i l)) :
    total c l = total c' l :=
  Finset.sum_congr rfl fun i _ => h i

theorem total_mono {c' : ι → List (Σ e, R e) → ℤ} (h : ∀ i, c i (history i l) ≤ c' i (history i l)) :
    total c l ≤ total c' l :=
  Finset.sum_le_sum fun i _ => h i

theorem total_nonneg (hpos : ∀ i, 0 ≤ c i (history i l)) : 0 ≤ total c l :=
  Finset.sum_nonneg fun i _ => hpos i

theorem le_total (hc : ∀ i, c i [] = 0) (hpos : ∀ i, 0 ≤ c i (history i l)) (i : ι) :
    c i (history i l) ≤ total c l := by
  by_cases hi : i ∈ callers l
  · exact Finset.single_le_sum (f := fun i => c i (history i l)) (fun j _ => hpos j) hi
  · rw [history_eq_nil hi, hc]
    exact total_nonneg hpos

/-- Calls that contribute at least one each are no more than the sum. -/
theorem card_le_total (hc : ∀ i, c i [] = 0) (hpos : ∀ i, 0 ≤ c i (history i l)) {S : Finset ι}
    (hS : ∀ i ∈ S, 1 ≤ c i (history i l)) : (S.card : ℤ) ≤ total c l := by
  have hsub : S ⊆ callers l := by
    intro i hi
    by_contra hnot
    have hone := hS i hi
    rw [history_eq_nil hnot, hc] at hone
    omega
  calc (S.card : ℤ) = ∑ i ∈ S, 1 := by simp
    _ ≤ ∑ i ∈ S, c i (history i l) := Finset.sum_le_sum hS
    _ ≤ total c l := Finset.sum_le_sum_of_subset_of_nonneg hsub fun i _ _ => hpos i

/-- What the steps of one call add up to. -/
def netEffect (effect : Entry ι E R Env σ → ℤ) (i : ι) (l : List (Entry ι E R Env σ)) : ℤ :=
  ((l.filter fun x => x.caller = i).map effect).sum

/-- Steps that each change a function of the call's history add up to its change over the whole. -/
theorem netEffect_eq {effect : Entry ι E R Env σ → ℤ} {i : ι} {f : List (Σ e, R e) → ℤ}
    (hstep : ∀ a x b, l = a ++ x :: b → x.caller = i →
      effect x = f (history i a ++ [x.act]) - f (history i a)) :
    netEffect effect i l = f (history i l) - f [] := by
  induction l using List.reverseRecOn with
  | nil => simp [netEffect]
  | append_singleton l x ih =>
    have hl := ih fun a y b hab => hstep a y (b ++ [x]) (by rw [hab, List.append_assoc, List.cons_append])
    unfold netEffect at hl ⊢
    rw [List.filter_append, List.map_append, List.sum_append, hl]
    by_cases hx : x.caller = i
    · have := hstep l x [] rfl hx
      subst hx
      rw [history_snoc_self]
      simp [this]
    · rw [history_snoc_of_ne hx]
      simp [hx]

end SynapseGo.Concurrency
