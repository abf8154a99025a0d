import Mathlib.Data.List.GetD
import Mathlib.Order.Lattice

/-! Slices that start at the beginning of their array. `append` writes into the array while there is room,
so slices of one array share their elements; a slice keeps its elements as long as nothing is appended
through a shorter one. -/
namespace SynapseGo.Go
variable {α : Type}

/-- The arrays allocated so far, by number, each as long as its capacity. -/
abbrev Heap (α : Type) := List (List α)

def Heap.array (m : Heap α) (i : ℕ) : List α := m.getD i []

structure Slice where
  array : ℕ
  len : ℕ
  cap : ℕ
  deriving DecidableEq, Repr

namespace Slice

/-- The nil slice has no array. -/
def empty : Slice := ⟨0, 0, 0⟩

def read (s : Slice) (m : Heap α) : List α := (m.array s.array).take s.len

/-- `append(s, x)`; where there is no room the runtime chooses the new capacity. -/
def append [Inhabited α] (s : Slice) (m : Heap α) (newCap : ℕ) (x : α) : Slice × Heap α :=
  if s.len < s.cap then (⟨s.array, s.len + 1, s.cap⟩, m.set s.array ((m.array s.array).set s.len x))
  else
    let cap := max newCap (s.len + 1)
    (⟨m.length, s.len + 1, cap⟩, m ++ [s.read m ++ x :: List.replicate (cap - (s.len + 1)) default])

/-- The slice has its array, and that is as long as the slice says. -/
structure Valid (s : Slice) (m : Heap α) : Prop where
  len_le : s.len ≤ s.cap
  cap_eq : 0 < s.cap → (m.array s.array).length = s.cap

/-- Appending through `o` does not write among the elements of `s`. -/
def Spares (o s : Slice) : Prop := o.len < o.cap → s.array = o.array → s.len ≤ o.len

/-- Two slices of different arrays. -/
def Apart (s t : Slice) : Prop := 0 < s.cap → 0 < t.cap → s.array ≠ t.array

theorem valid_empty (m : Heap α) : empty.Valid m := ⟨le_rfl, fun h => absurd h (lt_irrefl 0)⟩

@[simp] theorem read_empty (m : Heap α) : empty.read m = [] := rfl

section
variable {s o : Slice} {m : Heap α}

theorem Valid.lt_length (h : s.Valid m) (hcap : 0 < s.cap) : s.array < m.length := by
  by_contra hge
  have hnil : m.array s.array = [] := List.getD_eq_default m [] (not_lt.mp hge)
  have hlen := h.cap_eq hcap
  rw [hnil, List.length_nil] at hlen
  omega

theorem Valid.length_read (h : s.Valid m) : (s.read m).length = s.len := by
  unfold read
  rw [List.length_take]
  rcases Nat.eq_zero_or_pos s.cap with hcap | hcap
  · have := h.len_le
    omega
  · rw [h.cap_eq hcap]
    exact min_eq_left h.len_le

theorem Valid.getElem?_read [Inhabited α] (h : s.Valid m) {k : ℕ} (hk : k < s.len) :
    (s.read m)[k]? = some ((m.array s.array).getD k default) := by
  have hlen := h.cap_eq (by have := h.len_le; omega)
  have hlt : k < (m.array s.array).length := by
    have := h.len_le
    omega
  unfold read
  rw [List.getElem?_take_of_lt hk, List.getElem?_eq_getElem hlt, List.getD_eq_getElem _ _ hlt]

theorem spares_self (s : Slice) : s.Spares s := fun _ _ => le_rfl

theorem Apart.spares (h : o.Apart s) (hs : s.Valid m) : o.Spares s := by
  intro hroom harray
  have hcap : ¬ 0 < s.cap := fun hcap => h (by omega) hcap harray.symm
  have := hs.len_le
  omega

theorem Apart.symm (h : o.Apart s) : s.Apart o := fun hs ho heq => h ho hs heq.symm

variable [Inhabited α] {newCap : ℕ} {x : α}

theorem append_of_room (h : s.len < s.cap) : s.append m newCap x =
    (⟨s.array, s.len + 1, s.cap⟩, m.set s.array ((m.array s.array).set s.len x)) := if_pos h

theorem append_of_full (h : ¬ s.len < s.cap) : s.append m newCap x =
    (⟨m.length, s.len + 1, max newCap (s.len + 1)⟩,
      m ++ [s.read m ++ x :: List.replicate (max newCap (s.len + 1) - (s.len + 1)) default]) := if_neg h

/-- The arrays after an append: a new one, or one element of an old one written. -/
theorem array_append_of_full (newCap : ℕ) (x : α) (h : ¬ o.len < o.cap) {i : ℕ} (hi : i < m.length) :
    (o.append m newCap x).2.array i = m.array i := by
  rw [append_of_full h]
  unfold Heap.array
  exact List.getD_append m _ [] i hi

theorem array_append_of_room (newCap : ℕ) (x : α) (h : o.len < o.cap) (ho : o.Valid m) (i : ℕ) :
    (o.append m newCap x).2.array i = if i = o.array then (m.array o.array).set o.len x else m.array i := by
  have hlt := ho.lt_length (by omega)
  rw [append_of_room h]
  unfold Heap.array
  split_ifs with hi
  · rw [hi, List.getD_eq_getElem _ _ (by simpa using hlt), List.getElem_set_self]
  · rw [List.getD_eq_getElem?_getD, List.getElem?_set_ne (Ne.symm hi), ← List.getD_eq_getElem?_getD]

/-- What the append leaves of another slice. -/
theorem Valid.append (newCap : ℕ) (x : α) (hs : s.Valid m) (ho : o.Valid m) (hspares : o.Spares s) :
    s.Valid (o.append m newCap x).2 ∧ s.read (o.append m newCap x).2 = s.read m := by
  rcases Nat.eq_zero_or_pos s.cap with hcap | hcap
  · have hlen : s.len = 0 := by
      have := hs.len_le
      omega
    refine ⟨⟨hs.len_le, fun h => absurd h (by omega)⟩, ?_⟩
    unfold read
    rw [hlen, List.take_zero, List.take_zero]
  by_cases hroom : o.len < o.cap
  · have harray := array_append_of_room newCap x hroom ho s.array
    by_cases heq : s.array = o.array
    · rw [if_pos heq, ← heq] at harray
      refine ⟨⟨hs.len_le, fun h => ?_⟩, ?_⟩
      · rw [harray, List.length_set]
        exact hs.cap_eq h
      · unfold read
        rw [harray, List.take_set_of_le (hspares hroom heq)]
    · rw [if_neg heq] at harray
      refine ⟨⟨hs.len_le, fun h => ?_⟩, ?_⟩
      · rw [harray]
        exact hs.cap_eq h
      · unfold read
        rw [harray]
  · have harray := array_append_of_full newCap x hroom (hs.lt_length hcap)
    refine ⟨⟨hs.len_le, fun h => ?_⟩, ?_⟩
    · rw [harray]
      exact hs.cap_eq h
    · unfold read
      rw [harray]

/-- The result holds one element more. -/
theorem Valid.append_self (ho : o.Valid m) :
    (o.append m newCap x).1.Valid (o.append m newCap x).2 ∧
      (o.append m newCap x).1.read (o.append m newCap x).2 = o.read m ++ [x] := by
  have hread := ho.length_read
  by_cases hroom : o.len < o.cap
  · have harray := array_append_of_room newCap x hroom ho o.array
    rw [if_pos rfl] at harray
    have hfst : (o.append m newCap x).1 = ⟨o.array, o.len + 1, o.cap⟩ := by rw [append_of_room hroom]
    have hlen := ho.cap_eq (by omega)
    rw [hfst]
    refine ⟨⟨hroom, fun h => ?_⟩, ?_⟩
    · show ((o.append m newCap x).2.array o.array).length = o.cap
      rw [harray, List.length_set]
      exact hlen
    · show ((o.append m newCap x).2.array o.array).take (o.len + 1) = (m.array o.array).take o.len ++ [x]
      rw [harray, List.take_add_one, List.take_set_of_le le_rfl, List.getElem?_set_self (by omega)]
      rfl
  · rw [append_of_full hroom]
    have harray :
      Heap.array (m ++ [o.read m ++ x :: List.replicate (max newCap (o.len + 1) - (o.len + 1)) default])
        m.length = o.read m ++ x :: List.replicate (max newCap (o.len + 1) - (o.len + 1)) default := by
      unfold Heap.array
      simp
    refine ⟨⟨le_max_right _ _, fun h => ?_⟩, ?_⟩
    · show (Heap.array _ m.length).length = max newCap (o.len + 1)
      rw [harray, List.length_append, List.length_cons, List.length_replicate, hread]
      have := le_max_right newCap (o.len + 1)
      omega
    · show (Heap.array _ m.length).take (o.len + 1) = _
      rw [harray, List.take_append, hread]
      simp [List.take_of_length_le, hread]

/-- A slice that was spared is spared by the result as well. -/
theorem Spares.append (hspares : o.Spares s) (hs : s.Valid m) : (o.append m newCap x).1.Spares s := by
  intro hroom' harray
  by_cases hroom : o.len < o.cap
  · rw [append_of_room hroom] at harray ⊢
    exact Nat.le_succ_of_le (hspares hroom harray)
  · rw [append_of_full hroom] at harray
    have hcap : ¬ 0 < s.cap := fun hcap => absurd (hs.lt_length hcap) (by rw [harray]; exact lt_irrefl _)
    have := hs.len_le
    omega

theorem Apart.append (h : o.Apart s) (hs : s.Valid m) : (o.append m newCap x).1.Apart s := by
  intro hcap' hcap harray
  by_cases hroom : o.len < o.cap
  · rw [append_of_room hroom] at harray
    exact h (by omega) hcap harray
  · rw [append_of_full hroom] at harray
    exact absurd (hs.lt_length hcap) (by rw [← harray]; exact lt_irrefl _)

end
end Slice
end SynapseGo.Go
