import SynapseGo.Regex.Expr

/-! What an expression shows of its matches: the letters they can hold, begin and end with, the pairs that
can stand side by side, and the length they have at least. -/
namespace SynapseGo.Regex.Re
variable {α : Type}

def uses : Re α → α → Bool
  | .eps, _ => false
  | .bound _, _ => false
  | .rep C _ _, x => C x
  | .seq a b, x => a.uses x || b.uses x
  | .alt a b, x => a.uses x || b.uses x

def nullable : Re α → Bool
  | .eps => true
  | .bound _ => true
  | .rep _ lo _ => lo = 0
  | .seq a b => a.nullable && b.nullable
  | .alt a b => a.nullable || b.nullable

def minLength : Re α → ℕ
  | .eps => 0
  | .bound _ => 0
  | .rep _ lo _ => lo
  | .seq a b => a.minLength + b.minLength
  | .alt a b => min a.minLength b.minLength

def first : Re α → α → Bool
  | .eps, _ => false
  | .bound _, _ => false
  | .rep C _ _, x => C x
  | .seq a b, x => a.first x || a.nullable && b.first x
  | .alt a b, x => a.first x || b.first x

def last : Re α → α → Bool
  | .eps, _ => false
  | .bound _, _ => false
  | .rep C _ _, x => C x
  | .seq a b, x => b.last x || b.nullable && a.last x
  | .alt a b, x => a.last x || b.last x

/-- `y` can stand right after `x` in a match. -/
def follows : Re α → α → α → Bool
  | .eps, _, _ => false
  | .bound _, _, _ => false
  | .rep C _ hi, x, y => hi ≠ some 1 && C x && C y
  | .seq a b, x, y => a.follows x y || b.follows x y || a.last x && b.first y
  | .alt a b, x, y => a.follows x y || b.follows x y

section
variable {r : Re α} {x y : α}

theorem uses_of_first (h : r.first x = true) : r.uses x = true := by
  induction r with
  | eps => exact h
  | bound word => exact h
  | rep C lo hi => exact h
  | seq a b iha ihb =>
    simp only [first, uses, Bool.or_eq_true, Bool.and_eq_true] at h ⊢
    exact h.imp iha fun h => ihb h.2
  | alt a b iha ihb =>
    simp only [first, uses, Bool.or_eq_true] at h ⊢
    exact h.imp iha ihb

theorem uses_of_last (h : r.last x = true) : r.uses x = true := by
  induction r with
  | eps => exact h
  | bound word => exact h
  | rep C lo hi => exact h
  | seq a b iha ihb =>
    simp only [last, uses, Bool.or_eq_true, Bool.and_eq_true] at h ⊢
    exact h.symm.imp (fun h => iha h.2) ihb
  | alt a b iha ihb =>
    simp only [last, uses, Bool.or_eq_true] at h ⊢
    exact h.imp iha ihb

theorem uses_of_follows (h : r.follows x y = true) : r.uses x = true ∧ r.uses y = true := by
  induction r with
  | eps => cases h
  | bound word => cases h
  | rep C lo hi =>
    simp only [follows, Bool.and_eq_true] at h
    exact ⟨h.1.2, h.2⟩
  | seq a b iha ihb =>
    simp only [follows, uses, Bool.or_eq_true, Bool.and_eq_true] at h ⊢
    rcases h with (h | h) | ⟨ha, hb⟩
    · exact ⟨.inl (iha h).1, .inl (iha h).2⟩
    · exact ⟨.inr (ihb h).1, .inr (ihb h).2⟩
    · exact ⟨.inl (uses_of_last ha), .inr (uses_of_first hb)⟩
  | alt a b iha ihb =>
    simp only [follows, uses, Bool.or_eq_true] at h ⊢
    rcases h with h | h
    · exact ⟨.inl (iha h).1, .inl (iha h).2⟩
    · exact ⟨.inr (ihb h).1, .inr (ihb h).2⟩

theorem follows_of_unused (h : r.uses x = false) (c : α) : r.follows x c = false ∧ r.follows c x = false := by
  constructor
  · cases hfollows : r.follows x c with
    | false => rfl
    | true => simp [(uses_of_follows hfollows).1] at h
  · cases hfollows : r.follows c x with
    | false => rfl
    | true => simp [(uses_of_follows hfollows).2] at h

end

section
variable {r : Re α} {p : Option α} {m t : List α}

theorem Matches.uses (h : r.Matches p m t) {x : α} (hx : x ∈ m) : r.uses x = true := by
  induction r generalizing p m t with
  | eps => simp_all [Matches]
  | bound word => simp_all [Matches]
  | rep C lo hi => exact h.1 x hx
  | seq a b iha ihb =>
    obtain ⟨m₁, m₂, rfl, ha, hb⟩ := h
    rw [Re.uses, Bool.or_eq_true]
    exact (List.mem_append.mp hx).imp (iha ha) (ihb hb)
  | alt a b iha ihb =>
    rw [Re.uses, Bool.or_eq_true]
    exact h.imp (iha · hx) (ihb · hx)

theorem Matches.minLength_le (h : r.Matches p m t) : r.minLength ≤ m.length := by
  induction r generalizing p m t with
  | eps => exact Nat.zero_le _
  | bound word => exact Nat.zero_le _
  | rep C lo hi => exact h.2.1
  | seq a b iha ihb =>
    obtain ⟨m₁, m₂, rfl, ha, hb⟩ := h
    rw [List.length_append]
    exact Nat.add_le_add (iha ha) (ihb hb)
  | alt a b iha ihb =>
    rcases h with h | h
    · exact Nat.le_trans (Nat.min_le_left ..) (iha h)
    · exact Nat.le_trans (Nat.min_le_right ..) (ihb h)

theorem Matches.nullable (h : r.Matches p [] t) : r.nullable = true := by
  induction r generalizing p t with
  | eps => rfl
  | bound word => rfl
  | rep C lo hi => simpa [Re.nullable] using h.2.1
  | seq a b iha ihb =>
    obtain ⟨m₁, m₂, heq, ha, hb⟩ := h
    obtain ⟨rfl, rfl⟩ := List.nil_eq_append_iff.mp heq
    rw [Re.nullable, iha ha, ihb hb]
    rfl
  | alt a b iha ihb =>
    rw [Re.nullable, Bool.or_eq_true]
    exact h.imp iha ihb

theorem Matches.first (h : r.Matches p m t) {x : α} (hx : m.head? = some x) : r.first x = true := by
  induction r generalizing p m t with
  | eps => simp_all [Matches]
  | bound word => simp_all [Matches]
  | rep C lo hi => exact h.1 x (List.mem_of_mem_head? hx)
  | seq a b iha ihb =>
    obtain ⟨m₁, m₂, rfl, ha, hb⟩ := h
    cases m₁ with
    | nil => simp [Re.first, ha.nullable, ihb hb hx]
    | cons y m₁ => simp [Re.first, iha ha hx]
  | alt a b iha ihb =>
    rw [Re.first, Bool.or_eq_true]
    exact h.imp (iha · hx) (ihb · hx)

theorem Matches.last (h : r.Matches p m t) {x : α} (hx : m.getLast? = some x) : r.last x = true := by
  induction r generalizing p m t with
  | eps => simp_all [Matches]
  | bound word => simp_all [Matches]
  | rep C lo hi => exact h.1 x (List.mem_of_getLast? hx)
  | seq a b iha ihb =>
    obtain ⟨m₁, m₂, rfl, ha, hb⟩ := h
    rw [List.getLast?_append] at hx
    cases hm₂ : m₂.getLast? with
    | none =>
      rw [hm₂, Option.none_or] at hx
      rw [List.getLast?_eq_none_iff] at hm₂
      subst hm₂
      simp [Re.last, hb.nullable, iha ha hx]
    | some y =>
      rw [hm₂, Option.some_or] at hx
      simp [Re.last, ihb hb (hm₂.trans hx)]
  | alt a b iha ihb =>
    rw [Re.last, Bool.or_eq_true]
    exact h.imp (iha · hx) (ihb · hx)

theorem Matches.isChain (h : r.Matches p m t) : m.IsChain fun x y => r.follows x y = true := by
  induction r generalizing p m t with
  | eps => simp_all [Matches]
  | bound word => simp_all [Matches]
  | rep C lo hi =>
    by_cases hone : hi = some 1
    · -- at most one letter
      have hlen := h.2.2 1 hone
      cases m with
      | nil => exact List.isChain_nil
      | cons x m =>
        have hm : m = [] := List.length_eq_zero_iff.mp (by simpa using hlen)
        rw [hm]
        exact List.isChain_singleton x
    · have hpairs : m.Pairwise fun x y => (Re.rep C lo hi).follows x y = true := by
        refine List.pairwise_of_forall_mem_list fun x hx y hy => ?_
        simp [Re.follows, hone, h.1 x hx, h.1 y hy]
      exact hpairs.isChain
  | seq a b iha ihb =>
    obtain ⟨m₁, m₂, rfl, ha, hb⟩ := h
    refine List.isChain_append.mpr ⟨?_, ?_, fun x hx y hy => ?_⟩
    · exact (iha ha).imp fun x y hxy => by simp [Re.follows, hxy]
    · exact (ihb hb).imp fun x y hxy => by simp [Re.follows, hxy]
    · simp [Re.follows, ha.last hx, hb.first hy]
  | alt a b iha ihb =>
    rcases h with h | h
    · exact (iha h).imp fun x y hxy => by simp [Re.follows, hxy]
    · exact (ihb h).imp fun x y hxy => by simp [Re.follows, hxy]

end

end SynapseGo.Regex.Re
