import SynapseGo.Concurrency.Prog

/-! Calls through a client that sends an operation again, for as long as its reply asks for it and a
number of times at most. The store carries out every sending; the call sees the last reply. -/
namespace SynapseGo.Concurrency

variable {E : Type} {R : E → Type} {α : Type}

namespace Prog
variable (again : (e : E) → R e → Bool)

/-- The operation `e`, sent `n` times more at most. -/
def repeated (e : E) (k : R e → Prog E R α) : ℕ → Prog E R α
  | 0 => .op e k
  | n + 1 => .op e fun r => if again e r then repeated e k n else k r

/-- The call with each of its operations sent `retries` times more at most. -/
def resending (retries : ℕ) : Prog E R α → Prog E R α
  | .ret a => .ret a
  | .op e k => repeated again e (fun r => (k r).resending retries) retries

/-- Of the sendings `es` the call has seen the replies `seen`; the others were sent again. -/
structure Seen (seen es : List (Σ e, R e)) : Prop where
  sent : ∀ y ∈ seen, y ∈ es
  unseen : ∀ y ∈ es, y ∈ seen ∨ again y.1 y.2 = true

variable {again} {e : E} {k : R e → Prog E R α} {p q : Prog E R α} {es es' seen : List (Σ e, R e)}
  {y : Σ e, R e} {a : α} {n : ℕ}

theorem Seen.of_again (h : ∀ y ∈ es, again y.1 y.2 = true) : Seen again [] es where
  sent := nofun
  unseen y hy := .inr (h y hy)

/-- The last sending of an operation is the one that is seen. -/
theorem Seen.cons (h : ∀ y ∈ es, again y.1 y.2 = true) (hseen : Seen again seen es') :
    Seen again (y :: seen) (es ++ y :: es') where
  sent := by
    intro z hz
    rcases List.mem_cons.mp hz with rfl | hz
    · exact List.mem_append_right es List.mem_cons_self
    · exact List.mem_append_right es (List.mem_cons_of_mem y (hseen.sent z hz))
  unseen := by
    intro z hz
    rcases List.mem_append.mp hz with hz | hz
    · exact .inr (h z hz)
    rcases List.mem_cons.mp hz with rfl | hz
    · exact .inl List.mem_cons_self
    · exact (hseen.unseen z hz).imp_left (List.mem_cons_of_mem y)

/-- A sending is one of `e`, or comes after the reply to `e` that was seen. -/
theorem Path.repeated_split (h : (repeated again e k n).Path (es ++ y :: es') q) :
    ((∃ r, y = ⟨e, r⟩) ∧ ∀ z ∈ es, again z.1 z.2 = true) ∨
      ∃ l r es₁, es = l ++ ⟨e, r⟩ :: es₁ ∧ (∀ z ∈ l, again z.1 z.2 = true) ∧
        (k r).Path (es₁ ++ y :: es') q := by
  induction n generalizing es with
  | zero =>
    rcases h.op_split with ⟨rfl, hy⟩ | ⟨r, es₁, rfl, hrest⟩
    · exact .inl ⟨hy, nofun⟩
    · exact .inr ⟨[], r, es₁, rfl, nofun, hrest⟩
  | succ n ih =>
    rcases h.op_split with ⟨rfl, hy⟩ | ⟨r, es₁, rfl, hrest⟩
    · exact .inl ⟨hy, nofun⟩
    split_ifs at hrest with hagain
    · have hcons : ∀ l : List (Σ e, R e), (∀ z ∈ l, again z.1 z.2 = true) →
          ∀ z ∈ (⟨e, r⟩ : Σ e, R e) :: l, again z.1 z.2 = true :=
        fun l hl => List.forall_mem_cons.mpr ⟨hagain, hl⟩
      rcases ih hrest with ⟨hy, hall⟩ | ⟨l, r', es₂, rfl, hall, hpath⟩
      · exact .inl ⟨hy, hcons es₁ hall⟩
      · exact .inr ⟨⟨e, r⟩ :: l, r', es₂, rfl, hcons l hall, hpath⟩
    · exact .inr ⟨[], r, es₁, rfl, nofun, hrest⟩

/-- Every sending is one that the call itself could come to after what it has seen. -/
theorem Path.resending_split (h : (p.resending again n).Path (es ++ y :: es') q) :
    ∃ seen p', p.Path (seen ++ [y]) p' ∧ Seen again seen es := by
  induction p generalizing es with
  | ret a => exact h.ret_split.elim
  | op e k ih =>
    rcases h.repeated_split with ⟨⟨r, rfl⟩, hall⟩ | ⟨l, r, es₁, rfl, hall, hrest⟩
    · exact ⟨[], k r, .cons (.nil _), .of_again hall⟩
    · obtain ⟨seen, p', hpath, hseen⟩ := ih r hrest
      exact ⟨⟨e, r⟩ :: seen, p', .cons hpath, .cons hall hseen⟩

theorem Returns.of_repeated (h : (repeated again e k n).Returns es a) :
    ∃ l r es₁, es = l ++ ⟨e, r⟩ :: es₁ ∧ (∀ z ∈ l, again z.1 z.2 = true) ∧ (k r).Returns es₁ a := by
  induction n generalizing es with
  | zero =>
    obtain ⟨r, es₁, rfl, hrest⟩ := returns_op.mp h
    exact ⟨[], r, es₁, rfl, nofun, hrest⟩
  | succ n ih =>
    obtain ⟨r, es₁, rfl, hrest⟩ := returns_op.mp h
    split_ifs at hrest with hagain
    · obtain ⟨l, r', es₂, rfl, hall, hreturns⟩ := ih hrest
      exact ⟨⟨e, r⟩ :: l, r', es₂, rfl, List.forall_mem_cons.mpr ⟨hagain, hall⟩, hreturns⟩
    · exact ⟨[], r, es₁, rfl, nofun, hrest⟩

/-- What a call returns is what it returns on the replies that it has seen. -/
theorem Returns.of_resending (h : (p.resending again n).Returns es a) :
    ∃ seen, p.Returns seen a ∧ Seen again seen es := by
  induction p generalizing es with
  | ret b =>
    obtain ⟨rfl, hb⟩ := returns_ret.mp h
    exact ⟨[], returns_ret.mpr ⟨rfl, hb⟩, .of_again nofun⟩
  | op e k ih =>
    obtain ⟨l, r, es₁, rfl, hall, hrest⟩ := Returns.of_repeated h
    obtain ⟨seen, hreturns, hseen⟩ := ih r hrest
    exact ⟨⟨e, r⟩ :: seen, .cons hreturns, .cons hall hseen⟩

end Prog
end SynapseGo.Concurrency
