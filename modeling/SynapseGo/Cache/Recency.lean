import Mathlib.Data.List.Dedup
import Mathlib.Data.List.Nodup

/-! Lists in order of last use, most recent first, and their truncation to a capacity: what a bounded
list keeps is the front of what an unbounded one would hold. -/
namespace SynapseGo.Recency
variable {κ α : Type} [DecidableEq κ]

/-- The distinct keys of a sequence of uses, the latest use first. -/
def recent (uses : List κ) : List κ := uses.dedup.reverse

theorem dedup_snoc (uses : List κ) (k : κ) : (uses ++ [k]).dedup = uses.dedup.filter (· ≠ k) ++ [k] := by
  induction uses with
  | nil => rfl
  | cons a uses ih =>
    rw [List.cons_append]
    by_cases ha : a ∈ uses
    · rw [List.dedup_cons_of_mem (List.mem_append_left [k] ha), List.dedup_cons_of_mem ha, ih]
    · rw [List.dedup_cons_of_notMem ha]
      by_cases hk : a = k
      · rw [List.dedup_cons_of_mem (by simp [hk]), ih, List.filter_cons_of_neg (by simp [hk])]
      · rw [List.dedup_cons_of_notMem (by simp [ha, hk]), ih, List.filter_cons_of_pos (by simp [hk]),
          List.cons_append]

theorem recent_snoc (uses : List κ) (k : κ) : recent (uses ++ [k]) = k :: (recent uses).filter (· ≠ k) := by
  unfold recent
  rw [dedup_snoc, List.reverse_append, ← List.filter_reverse]
  rfl

theorem nodup_recent (uses : List κ) : (recent uses).Nodup :=
  List.nodup_reverse.mpr (List.nodup_dedup uses)

/-- Taking `k` out before or after the cut makes no difference one place below it. -/
theorem take_filter_take (k : κ) {l : List κ} (hl : l.Nodup) (n : ℕ) :
    ((l.take (n + 1)).filter (· ≠ k)).take n = (l.filter (· ≠ k)).take n := by
  induction l generalizing n with
  | nil => rfl
  | cons a l ih =>
    obtain ⟨ha, hl⟩ := List.nodup_cons.mp hl
    rw [List.take_succ_cons]
    by_cases hk : a = k
    · -- `k` occurs nowhere else, so neither filter removes anything further
      subst hk
      have hrest : l.filter (· ≠ a) = l := List.filter_eq_self.mpr fun b hb => by
        simpa using ne_of_mem_of_not_mem hb ha
      have hcut : (l.take n).filter (· ≠ a) = l.take n := List.filter_eq_self.mpr fun b hb => by
        simpa using ne_of_mem_of_not_mem (List.mem_of_mem_take hb) ha
      rw [List.filter_cons_of_neg (by simp), List.filter_cons_of_neg (by simp), hcut, hrest, List.take_take,
        Nat.min_self]
    · rw [List.filter_cons_of_pos (by simp [hk]), List.filter_cons_of_pos (by simp [hk])]
      cases n with
      | zero => rfl
      | succ n => rw [List.take_succ_cons, List.take_succ_cons, ih hl]

/-- A bounded recency list follows the unbounded one. -/
theorem take_recent_snoc (uses : List κ) (k : κ) (n : ℕ) :
    (k :: ((recent uses).take n).filter (· ≠ k)).take n = (recent (uses ++ [k])).take n := by
  rw [recent_snoc]
  cases n with
  | zero => rfl
  | succ n => rw [List.take_succ_cons, List.take_succ_cons, take_filter_take k (nodup_recent uses)]

section
variable (key : α → κ)

/-- Puts `a` in front, in the place of whatever had its key. -/
def touch (a : α) (l : List α) : List α := a :: l.filter (key · ≠ key a)

theorem map_touch (a : α) (l : List α) :
    (touch key a l).map key = key a :: (l.map key).filter (· ≠ key a) := by
  rw [touch, List.map_cons, List.filter_map]
  rfl

theorem length_touch_of_mem {a b : α} {l : List α} (hb : b ∈ l) (hk : key b = key a) :
    (touch key a l).length ≤ l.length := by
  have hlt : (l.filter (key · ≠ key a)).length < l.length :=
    List.length_filter_lt_length_iff_exists.mpr ⟨b, hb, by simp [hk]⟩
  rw [touch, List.length_cons]
  omega

end

end SynapseGo.Recency
