import Mathlib.Data.List.Nodup

/-! Tables and maps whose rows carry their own primary key. Two rows under one key cannot be built. -/
namespace SynapseGo.Database

/-- Where keys are distinct, the first row with a key is the only one. -/
theorem find?_key_eq_some {ρ κ : Type} [DecidableEq κ] {key : ρ → κ} {rows : List ρ}
    (h : (rows.map key).Nodup)
    {k : κ} {r : ρ} : rows.find? (fun r => key r = k) = some r ↔ r ∈ rows ∧ key r = k := by
  constructor
  · intro hf
    exact ⟨List.mem_of_find?_eq_some hf, by simpa using List.find?_some hf⟩
  · rintro ⟨hr, rfl⟩
    cases hf : rows.find? (fun r' => key r' = key r) with
    | none => simpa using List.find?_eq_none.mp hf r hr
    | some r' =>
      have he : key r' = key r := by simpa using List.find?_some hf
      rw [List.inj_on_of_nodup_map h (List.mem_of_find?_eq_some hf) hr he]

structure Keyed {ρ κ : Type} (key : ρ → κ) where
  rows : List ρ
  nodup : (rows.map key).Nodup

namespace Keyed
variable {ρ κ : Type} {key : ρ → κ}

def empty (key : ρ → κ) : Keyed key := ⟨[], by simp⟩

variable [DecidableEq κ]

/-- `SELECT count(*) ... WHERE key = k`. -/
def count (t : Keyed key) (k : κ) : ℕ := (t.rows.map key).count k

theorem count_le_one (t : Keyed key) (k : κ) : t.count k ≤ 1 := List.nodup_iff_count_le_one.mp t.nodup k

@[simp] theorem count_empty (k : κ) : (empty key).count k = 0 := by simp [empty, count]

/-- A row whose key is free is stored. -/
def insert (t : Keyed key) (r : ρ) (h : t.count (key r) = 0) : Keyed key where
  rows := t.rows ++ [r]
  nodup := by
    rw [List.map_append, List.nodup_append]
    refine ⟨t.nodup, by simp, ?_⟩
    intro k hk k' hk' he
    have hkey : k' = key r := by simpa using hk'
    have hmem : key r ∈ t.rows.map key := by rwa [← hkey, ← he]
    exact List.count_eq_zero.mp h hmem

@[simp] theorem count_insert (t : Keyed key) (r : ρ) (h : t.count (key r) = 0) (k : κ) :
    (t.insert r h).count k = t.count k + if key r = k then 1 else 0 := by
  simp [insert, count, List.count_append, List.count_singleton]

/-- The row under a key. -/
def get (t : Keyed key) (k : κ) : Option ρ := t.rows.find? fun r => key r = k

theorem get_eq_some {t : Keyed key} {k : κ} {r : ρ} : t.get k = some r ↔ r ∈ t.rows ∧ key r = k :=
  find?_key_eq_some t.nodup

theorem get_eq_none {t : Keyed key} {k : κ} : t.get k = none ↔ t.count k = 0 := by
  simp [get, count, List.count_eq_zero]

theorem get_insert (t : Keyed key) (r : ρ) (h : t.count (key r) = 0) (k : κ) :
    (t.insert r h).get k = if key r = k then some r else t.get k := by
  split_ifs with hk
  · rw [get_eq_some]
    exact ⟨by simp [insert], hk⟩
  · simp [get, insert, List.find?_append, hk]

/-- The rows with a key, as the map has them. -/
theorem filter_key (t : Keyed key) (k : κ) : t.rows.filter (fun r => key r = k) = (t.get k).toList := by
  have hlength : (t.rows.filter fun r => key r = k).length ≤ 1 := by
    have hle := t.count_le_one k
    rw [count, List.count_eq_countP, List.countP_map, List.countP_eq_length_filter] at hle
    exact hle
  rw [get, ← List.head?_filter]
  cases hf : t.rows.filter fun r => key r = k with
  | nil => rfl
  | cons r rest =>
    rw [hf, List.length_cons] at hlength
    have hrest : rest = [] := List.length_eq_zero_iff.mp (by omega)
    rw [hrest]
    rfl

/-- The row under `k` is changed by `f`, which keeps keys. -/
def modify (t : Keyed key) (k : κ) (f : ρ → ρ) (hf : ∀ r, key (f r) = key r) : Keyed key where
  rows := t.rows.map fun r => if key r = k then f r else r
  nodup := by
    have hkeys : key ∘ (fun r => if key r = k then f r else r) = key := by
      funext r
      simp only [Function.comp_apply]
      split_ifs <;> simp [hf]
    rw [List.map_map, hkeys]
    exact t.nodup

theorem get_modify (t : Keyed key) (k : κ) (f : ρ → ρ) (hf : ∀ r, key (f r) = key r) (k' : κ) :
    (t.modify k f hf).get k' = if k' = k then (t.get k').map f else t.get k' := by
  have hkeys : ((fun r => decide (key r = k')) ∘ fun r => if key r = k then f r else r) =
      fun r => decide (key r = k') := by
    funext r
    simp only [Function.comp_apply]
    split_ifs <;> simp [hf]
  simp only [get, modify, List.find?_map, hkeys]
  cases hrow : t.rows.find? fun r => key r = k' with
  | none => simp
  | some r =>
    have hr : key r = k' := by simpa using List.find?_some hrow
    simp only [Option.map_some, hr]
    split_ifs <;> rfl

end Keyed
end SynapseGo.Database
