import SynapseGo.Regex.Scan

/-! Texts in parts that a family of expressions cannot join: replacing in the text is replacing in each
part. -/
namespace SynapseGo.Regex.Re
variable {α : Type}

/-- `s` falls into parts with `P`, with a letter between two parts that separates them for every expression
of the family `R`. -/
inductive Parts (R : Re α → Prop) (P : List α → Prop) : List α → Prop
  | part {p : List α} (hp : P p) : Parts R P p
  | cons {p s : List α} {c : α} (hp : P p) (hs : Parts R P s)
      (hc : ∀ r, R r → r.Separates p.getLast? c s.head?) : Parts R P (p ++ c :: s)

/-- The expressions of the family join the front of `s'` to no letter to which they do not join that of
`s`. -/
def FrontKept (R : Re α → Prop) (s s' : List α) : Prop :=
  ∀ r, R r → ∀ c, (∀ y ∈ s.head?, r.follows c y = false) → ∀ y ∈ s'.head?, r.follows c y = false

/-- The same for the end of a text. -/
def BackKept (R : Re α → Prop) (s s' : List α) : Prop :=
  ∀ r, R r → ∀ c, (∀ x ∈ s.getLast?, r.follows x c = false) → ∀ x ∈ s'.getLast?, r.follows x c = false

/-- A part may be put for another with both its ends kept. -/
structure Kept (R : Re α → Prop) (s s' : List α) : Prop where
  nil_iff : s = [] ↔ s' = []
  front : FrontKept R s s'
  back : BackKept R s s'

section
variable {R : Re α → Prop} {P Q : List α → Prop} {r : Re α} {f : List α → List α} {p p' s s' : List α} {c : α}

theorem FrontKept.of_eq (h : s'.head? = s.head?) : FrontKept R s s' := by
  intro r _ c hs
  rwa [h]

theorem BackKept.of_eq (h : s'.getLast? = s.getLast?) : BackKept R s s' := by
  intro r _ c hs
  rwa [h]

/-- A front that no match can hold. -/
theorem FrontKept.of_unused {a : α} (h : s'.head? = some a) (ha : ∀ r, R r → r.uses a = false) :
    FrontKept R s s' := by
  intro r hr c _ y hy
  rw [h, Option.mem_some] at hy
  exact hy ▸ (follows_of_unused (ha r hr) c).2

theorem BackKept.of_unused {a : α} (h : s'.getLast? = some a) (ha : ∀ r, R r → r.uses a = false) :
    BackKept R s s' := by
  intro r hr c _ x hx
  rw [h, Option.mem_some] at hx
  exact hx ▸ (follows_of_unused (ha r hr) c).1

theorem Kept.refl (R : Re α → Prop) (s : List α) : Kept R s s :=
  ⟨Iff.rfl, .of_eq rfl, .of_eq rfl⟩

theorem Separates.kept (hr : R r) (h : r.Separates p.getLast? c s.head?) (hp : Kept R p p')
    (hs : FrontKept R s s') :
    r.Separates p'.getLast? c s'.head? :=
  ⟨h.1, h.2.imp (fun h => ⟨h.1, hs r hr c h.2⟩) fun h => ⟨h.1, hp.back r hr c h.2⟩⟩

theorem Kept.front_append (h : Kept R p p') : FrontKept R (p ++ c :: s) (p' ++ c :: s') := by
  cases p with
  | nil =>
    rw [h.nil_iff.mp rfl]
    exact fun _ _ _ h => h
  | cons a p =>
    cases p' with
    | nil => exact absurd (h.nil_iff.mpr rfl) (List.cons_ne_nil a p)
    | cons a' p' => exact h.front

theorem Parts.imp (h : Parts R P s) (himp : ∀ p, P p → Q p) : Parts R Q s := by
  induction h with
  | part hp => exact .part (himp _ hp)
  | cons hp _ hc ih => exact .cons (himp _ hp) ih hc

/-- One pass over a text in parts. -/
theorem Parts.replaceAll (h : Parts R P s) (hr : R r) (hnull : r.nullable = false)
    (hstep : ∀ p, P p → Q (r.replaceAll f p) ∧ Kept R p (r.replaceAll f p)) :
    Parts R Q (r.replaceAll f s) ∧ FrontKept R s (r.replaceAll f s) := by
  induction h with
  | part hp =>
    obtain ⟨hq, hkept⟩ := hstep _ hp
    exact ⟨.part hq, hkept.front⟩
  | cons hp _ hc ih =>
    obtain ⟨hq, hkept⟩ := hstep _ hp
    obtain ⟨hs, hfront⟩ := ih
    rw [replaceAll_separated hnull (hc r hr)]
    exact ⟨.cons hq hs fun r' hr' => (hc r' hr').kept hr' hkept hfront, hkept.front_append⟩

theorem Parts.replaceAll_eq_self (h : Parts R P s) (hr : R r) (hnull : r.nullable = false)
    (hsame : ∀ p, P p → r.replaceAll f p = p) : r.replaceAll f s = s := by
  induction h with
  | part hp => exact hsame _ hp
  | cons hp _ hc ih => rw [replaceAll_separated hnull (hc r hr), hsame _ hp, ih]

end

end SynapseGo.Regex.Re
