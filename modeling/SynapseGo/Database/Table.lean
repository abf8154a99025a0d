import Mathlib.Data.List.Nodup
import Mathlib.Data.List.Basic
import Mathlib.Data.Option.Basic
import SynapseGo.Database.Keyed

/-! Tables with an auto-increment primary key and one unique index. A table that violates
either uniqueness constraint cannot be built. -/
namespace SynapseGo.Database

/-- Where a row keeps its primary key and its uniquely indexed columns. -/
structure Schema (ρ κ : Type) where
  id : ρ → ℕ
  key : ρ → κ
  withID : ρ → ℕ → ρ
  id_withID : ∀ r n, id (withID r n) = n
  key_withID : ∀ r n, key (withID r n) = key r

structure Table {ρ κ : Type} (S : Schema ρ κ) where
  rows : List ρ
  nextID : ℕ
  nextID_pos : 0 < nextID
  id_pos : ∀ r ∈ rows, 0 < S.id r
  id_lt : ∀ r ∈ rows, S.id r < nextID
  id_nodup : (rows.map S.id).Nodup
  key_nodup : (rows.map S.key).Nodup

namespace Table
variable {ρ κ : Type} {S : Schema ρ κ}

def empty (S : Schema ρ κ) : Table S where
  rows := []
  nextID := 1
  nextID_pos := by decide
  id_pos := by simp
  id_lt := by simp
  id_nodup := by simp
  key_nodup := by simp

def byID (t : Table S) (n : ℕ) : Option ρ := t.rows.find? (fun r => S.id r = n)

def byKey [DecidableEq κ] (t : Table S) (k : κ) : Option ρ := t.rows.find? (fun r => S.key r = k)

theorem byID_eq_some {t : Table S} {n : ℕ} {r : ρ} :
    t.byID n = some r ↔ r ∈ t.rows ∧ S.id r = n := find?_key_eq_some t.id_nodup

theorem byKey_eq_some [DecidableEq κ] {t : Table S} {k : κ} {r : ρ} :
    t.byKey k = some r ↔ r ∈ t.rows ∧ S.key r = k := find?_key_eq_some t.key_nodup

theorem byID_eq_none {t : Table S} {n : ℕ} : t.byID n = none ↔ ∀ r ∈ t.rows, S.id r ≠ n := by
  simp [byID]

theorem byKey_eq_none [DecidableEq κ] {t : Table S} {k : κ} :
    t.byKey k = none ↔ ∀ r ∈ t.rows, S.key r ≠ k := by
  simp [byKey]

theorem byID_of_nextID_le {t : Table S} {n : ℕ} (h : t.nextID ≤ n) : t.byID n = none :=
  byID_eq_none.mpr fun r hr => Nat.ne_of_lt (Nat.lt_of_lt_of_le (t.id_lt r hr) h)

theorem lt_nextID_of_byID {t : Table S} {n : ℕ} {r : ρ} (h : t.byID n = some r) : n < t.nextID := by
  by_contra hle
  rw [byID_of_nextID_le (Nat.not_lt.mp hle)] at h
  cases h

/-- Rows found under one key and under one id are the same row. -/
theorem byID_of_byKey [DecidableEq κ] {t : Table S} {k : κ} {r : ρ} (h : t.byKey k = some r) :
    t.byID (S.id r) = some r := byID_eq_some.mpr ⟨(byKey_eq_some.mp h).1, rfl⟩

/-- A row whose indexed columns are free is stored under the next id. -/
def insert [DecidableEq κ] (t : Table S) (r : ρ) (h : t.byKey (S.key r) = none) : Table S where
  rows := t.rows ++ [S.withID r t.nextID]
  nextID := t.nextID + 1
  nextID_pos := Nat.succ_pos _
  id_pos := by
    intro r' hr'
    rcases List.mem_append.mp hr' with hr' | hr'
    · exact t.id_pos r' hr'
    · rw [List.mem_singleton.mp hr', S.id_withID]
      exact t.nextID_pos
  id_lt := by
    intro r' hr'
    rcases List.mem_append.mp hr' with hr' | hr'
    · exact Nat.lt_succ_of_lt (t.id_lt r' hr')
    · rw [List.mem_singleton.mp hr', S.id_withID]
      exact Nat.lt_succ_self _
  id_nodup := by
    simp only [List.map_append, List.map_cons, List.map_nil, S.id_withID]
    refine List.nodup_append.mpr ⟨t.id_nodup, by simp, ?_⟩
    rintro n hn m hm
    obtain ⟨r', hr', rfl⟩ := List.mem_map.mp hn
    rw [List.mem_singleton.mp hm]
    exact Nat.ne_of_lt (t.id_lt r' hr')
  key_nodup := by
    simp only [List.map_append, List.map_cons, List.map_nil, S.key_withID]
    refine List.nodup_append.mpr ⟨t.key_nodup, by simp, ?_⟩
    rintro k hk m hm
    obtain ⟨r', hr', rfl⟩ := List.mem_map.mp hk
    rw [List.mem_singleton.mp hm]
    exact byKey_eq_none.mp h r' hr'

/-- `UPDATE ... WHERE p`: the assignment `f` leaves both keys alone. -/
def update (t : Table S) (p : ρ → Bool) (f : ρ → ρ) (hid : ∀ r, S.id (f r) = S.id r)
    (hkey : ∀ r, S.key (f r) = S.key r) : Table S where
  rows := t.rows.map fun r => if p r then f r else r
  nextID := t.nextID
  nextID_pos := t.nextID_pos
  id_pos := by
    intro r' hr'
    obtain ⟨r, hr, rfl⟩ := List.mem_map.mp hr'
    split_ifs
    · rw [hid]
      exact t.id_pos r hr
    · exact t.id_pos r hr
  id_lt := by
    intro r' hr'
    obtain ⟨r, hr, rfl⟩ := List.mem_map.mp hr'
    split_ifs
    · rw [hid]
      exact t.id_lt r hr
    · exact t.id_lt r hr
  id_nodup := by
    have h : S.id ∘ (fun r => if p r then f r else r) = S.id := by
      funext r
      simp only [Function.comp_apply]
      split_ifs <;> simp [hid]
    rw [List.map_map, h]
    exact t.id_nodup
  key_nodup := by
    have h : S.key ∘ (fun r => if p r then f r else r) = S.key := by
      funext r
      simp only [Function.comp_apply]
      split_ifs <;> simp [hkey]
    rw [List.map_map, h]
    exact t.key_nodup

/-- `DELETE ... WHERE p`. -/
def delete (t : Table S) (p : ρ → Bool) : Table S where
  rows := t.rows.filter fun r => !p r
  nextID := t.nextID
  nextID_pos := t.nextID_pos
  id_pos r hr := t.id_pos r (List.mem_filter.mp hr).1
  id_lt r hr := t.id_lt r (List.mem_filter.mp hr).1
  id_nodup := t.id_nodup.sublist (List.filter_sublist.map _)
  key_nodup := t.key_nodup.sublist (List.filter_sublist.map _)

theorem byID_insert [DecidableEq κ] (t : Table S) (r : ρ) (h : t.byKey (S.key r) = none) (n : ℕ) :
    (t.insert r h).byID n = if n = t.nextID then some (S.withID r t.nextID) else t.byID n := by
  split_ifs with hn
  · subst hn
    refine byID_eq_some.mpr ⟨?_, S.id_withID _ _⟩
    simp [insert]
  · simp [byID, insert, List.find?_append, S.id_withID, Ne.symm hn]

theorem byKey_insert [DecidableEq κ] (t : Table S) (r : ρ) (h : t.byKey (S.key r) = none) (k : κ) :
    (t.insert r h).byKey k = if k = S.key r then some (S.withID r t.nextID) else t.byKey k := by
  split_ifs with hk
  · subst hk
    refine byKey_eq_some.mpr ⟨?_, S.key_withID _ _⟩
    simp [insert]
  · simp [byKey, insert, List.find?_append, S.key_withID, Ne.symm hk]

section Update
variable (t : Table S) (p : ρ → Bool) (f : ρ → ρ) (hid : ∀ r, S.id (f r) = S.id r)
  (hkey : ∀ r, S.key (f r) = S.key r)

theorem byID_update (n : ℕ) :
    (t.update p f hid hkey).byID n = (t.byID n).map fun r => if p r then f r else r := by
  have h : ((fun r => decide (S.id r = n)) ∘ fun r => if p r then f r else r) =
      fun r => decide (S.id r = n) := by
    funext r
    simp only [Function.comp_apply]
    split_ifs <;> simp [hid]
  simp only [byID, update, List.find?_map, h]

/-- An update by primary key reaches that row only. -/
theorem byID_update_id (id n : ℕ) : (t.update (fun r => S.id r = id) f hid hkey).byID n =
    if n = id then (t.byID n).map f else t.byID n := by
  rw [byID_update]
  cases hrow : t.byID n with
  | none => simp
  | some r =>
    have hr : S.id r = n := (byID_eq_some.mp hrow).2
    simp only [Option.map_some, decide_eq_true_eq, hr]
    split_ifs <;> rfl

theorem byKey_update [DecidableEq κ] (k : κ) :
    (t.update p f hid hkey).byKey k = (t.byKey k).map fun r => if p r then f r else r := by
  have h : ((fun r => decide (S.key r = k)) ∘ fun r => if p r then f r else r) =
      fun r => decide (S.key r = k) := by
    funext r
    simp only [Function.comp_apply]
    split_ifs <;> simp [hkey]
  simp only [byKey, update, List.find?_map, h]

end Update

theorem byID_delete (t : Table S) (p : ρ → Bool) (n : ℕ) :
    (t.delete p).byID n = (t.byID n).filter fun r => !p r := by
  ext r
  simp only [byID_eq_some, Option.filter_eq_some_iff, delete, List.mem_filter]
  tauto

theorem byKey_delete [DecidableEq κ] (t : Table S) (p : ρ → Bool) (k : κ) :
    (t.delete p).byKey k = (t.byKey k).filter fun r => !p r := by
  ext r
  simp only [byKey_eq_some, Option.filter_eq_some_iff, delete, List.mem_filter]
  tauto

end Table
end SynapseGo.Database
