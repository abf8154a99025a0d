import Mathlib.Data.List.Basic
import Mathlib.Data.List.Chain
import Mathlib.Data.List.Count

/-! Regular expressions over an arbitrary alphabet with leftmost-first matching, and what the letters of
an expression tell about its matches. -/
namespace SynapseGo.Regex
variable {α : Type}

/-- Repetitions are of single letters, greedy, from `lo` to `hi` times. -/
inductive Re (α : Type) where
  | eps
  /-- A place where exactly one of the neighbours is a `word` letter. -/
  | bound (word : α → Bool)
  | rep (C : α → Bool) (lo : ℕ) (hi : Option ℕ)
  | seq (a b : Re α)
  | alt (a b : Re α)

/-- The letter before the place that is reached from `p` over `m`. -/
def after (p : Option α) (m : List α) : Option α := m.foldl (fun _ a => some a) p

@[simp] theorem after_nil (p : Option α) : after p [] = p := rfl

@[simp] theorem after_cons (p : Option α) (a : α) (m : List α) : after p (a :: m) = after (some a) m := rfl

theorem after_append (p : Option α) (m n : List α) : after p (m ++ n) = after (after p m) n :=
  List.foldl_append

theorem after_eq_getLast? (p : Option α) {m : List α} (hm : m ≠ []) : after p m = m.getLast? := by
  obtain ⟨m, a, rfl⟩ := List.eq_nil_or_concat' m |>.resolve_left hm
  rw [after_append, List.getLast?_append]
  rfl

/-- The ways to take letters of `C` off the front, the longest first, each with what is left. -/
def greedy (C : α → Bool) : ℕ → Option ℕ → List α → List (List α × List α)
  | lo, _, [] => if lo = 0 then [([], [])] else []
  | lo, hi, a :: s =>
    (if hi ≠ some 0 ∧ C a then (greedy C (lo - 1) (hi.map (· - 1)) s).map fun q => (a :: q.1, q.2) else []) ++
      if lo = 0 then [([], a :: s)] else []

namespace Re

/-- All matches at the front of `s`, in order of preference, each with what is left; `p` is the letter
before `s`. -/
def run : Re α → Option α → List α → List (List α × List α)
  | .eps, _, s => [([], s)]
  | .bound word, p, s => if p.any word ≠ s.head?.any word then [([], s)] else []
  | .rep C lo hi, _, s => greedy C lo hi s
  | .seq a b, p, s => (a.run p s).flatMap fun q => (b.run (after p q.1) q.2).map fun q' => (q.1 ++ q'.1, q'.2)
  | .alt a b, p, s => a.run p s ++ b.run p s

/-- The preferred match at the front of `s`. -/
def find (r : Re α) (p : Option α) (s : List α) : Option (List α × List α) := (r.run p s).head?

/-- `r` matches `m` between the letter `p` and the text `t`. -/
def Matches : Re α → Option α → List α → List α → Prop
  | .eps, _, m, _ => m = []
  | .bound word, p, m, t => m = [] ∧ p.any word ≠ t.head?.any word
  | .rep C lo hi, _, m, _ => (∀ a ∈ m, C a) ∧ lo ≤ m.length ∧ ∀ n ∈ hi, m.length ≤ n
  | .seq a b, p, m, t => ∃ m₁ m₂, m = m₁ ++ m₂ ∧ a.Matches p m₁ (m₂ ++ t) ∧ b.Matches (after p m₁) m₂ t
  | .alt a b, p, m, t => a.Matches p m t ∨ b.Matches p m t

end Re

private theorem forall_mem_succ_le {n : ℕ} {hi : Option ℕ} :
    (∀ k ∈ hi, n + 1 ≤ k) ↔ hi ≠ some 0 ∧ ∀ k ∈ hi.map (· - 1), n ≤ k := by
  cases hi with
  | none => simp
  | some k =>
    simp only [Option.mem_def, Option.some.injEq, forall_eq', Option.map_some, ne_eq]
    omega

theorem mem_greedy {C : α → Bool} {lo : ℕ} {hi : Option ℕ} {s m t : List α} :
    (m, t) ∈ greedy C lo hi s ↔ s = m ++ t ∧ (∀ a ∈ m, C a) ∧ lo ≤ m.length ∧ ∀ n ∈ hi, m.length ≤ n := by
  induction s generalizing lo hi m t with
  | nil =>
    unfold greedy
    cases m with
    | nil => cases t <;> simp
    | cons a m => simp
  | cons a s ih =>
    unfold greedy
    rw [List.mem_append]
    cases m with
    | nil =>
      -- nothing is taken: the last resort
      have hfirst : ([], t) ∉ (if hi ≠ some 0 ∧ C a then
          (greedy C (lo - 1) (hi.map (· - 1)) s).map fun q => (a :: q.1, q.2) else []) := by
        split <;> simp
      rw [or_iff_right hfirst]
      by_cases hlo : lo = 0
      · rw [if_pos hlo, List.mem_singleton, Prod.mk.injEq]
        simp [hlo, @eq_comm _ t]
      · simp [hlo]
    | cons b m =>
      have hlast : (b :: m, t) ∉ (if lo = 0 then [([], a :: s)] else []) := by
        split <;> simp
      rw [or_iff_left hlast, List.length_cons, forall_mem_succ_le, List.forall_mem_cons, List.cons_append,
        List.cons.injEq]
      constructor
      · intro h
        split at h
        next hguard =>
          obtain ⟨⟨m', t'⟩, hq, heq⟩ := List.mem_map.mp h
          obtain ⟨⟨rfl, rfl⟩, rfl⟩ : (a = b ∧ m' = m) ∧ t' = t := by simpa using heq
          obtain ⟨hs, hC, hlo, hhi⟩ := ih.mp hq
          exact ⟨⟨rfl, hs⟩, ⟨hguard.2, hC⟩, by omega, hguard.1, hhi⟩
        next => cases h
      · rintro ⟨⟨rfl, hs⟩, ⟨hb, hC⟩, hlo, hguard, hhi⟩
        rw [if_pos ⟨hguard, hb⟩]
        exact List.mem_map.mpr ⟨(m, t), ih.mpr ⟨hs, hC, by omega, hhi⟩, rfl⟩

namespace Re
variable {r : Re α} {p : Option α} {s m t : List α}

/-- The matcher finds exactly the matches. -/
theorem mem_run : (m, t) ∈ r.run p s ↔ s = m ++ t ∧ r.Matches p m t := by
  induction r generalizing p s m t with
  | eps =>
    simp only [run, Matches, List.mem_singleton, Prod.mk.injEq]
    constructor
    · rintro ⟨rfl, rfl⟩
      exact ⟨rfl, rfl⟩
    · rintro ⟨rfl, rfl⟩
      exact ⟨rfl, rfl⟩
  | bound word =>
    simp only [run, Matches]
    constructor
    · intro h
      split at h
      next hword =>
        obtain ⟨rfl, rfl⟩ := Prod.mk.inj (List.mem_singleton.mp h)
        exact ⟨rfl, rfl, hword⟩
      next => cases h
    · rintro ⟨rfl, rfl, hword⟩
      rw [List.nil_append, if_pos hword]
      exact List.mem_singleton.mpr rfl
  | rep C lo hi => exact mem_greedy
  | seq a b iha ihb =>
    simp only [run, Matches, List.mem_flatMap, List.mem_map]
    constructor
    · rintro ⟨⟨m₁, t₁⟩, hq, ⟨m₂, t₂⟩, hq', heq⟩
      obtain ⟨rfl, rfl⟩ := Prod.mk.inj heq
      obtain ⟨rfl, ha⟩ := iha.mp hq
      obtain ⟨rfl, hb⟩ := ihb.mp hq'
      exact ⟨(List.append_assoc ..).symm, m₁, m₂, rfl, ha, hb⟩
    · rintro ⟨rfl, m₁, m₂, rfl, ha, hb⟩
      refine ⟨(m₁, m₂ ++ t), iha.mpr ⟨List.append_assoc .., ha⟩, (m₂, t), ihb.mpr ⟨rfl, hb⟩, rfl⟩
  | alt a b iha ihb =>
    simp only [run, Matches, List.mem_append, iha, ihb]
    exact and_or_left.symm

theorem find_eq_some (h : r.find p s = some (m, t)) : s = m ++ t ∧ r.Matches p m t :=
  mem_run.mp (List.mem_of_mem_head? h)

theorem find_eq_none : r.find p s = none ↔ ∀ m t, s = m ++ t → ¬r.Matches p m t := by
  unfold find
  rw [List.head?_eq_none_iff, List.eq_nil_iff_forall_not_mem, Prod.forall]
  simp only [mem_run, not_and]

end Re

end SynapseGo.Regex
