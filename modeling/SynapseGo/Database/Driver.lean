import SynapseGo.Go.Strings

/-! What the repositories see of the SQL driver: faults without effect, and the texts of errors. -/
namespace SynapseGo.Database
open SynapseGo.Go

/-- A statement that the driver fails with `fault` leaves the store alone. -/
def faulty {σ β : Type} (fault : Option GoString) (t : σ) (r : Except GoString β × σ) :
    Except GoString β × σ :=
  match fault with
  | some text => (.error text, t)
  | none => r

theorem faulty_cases {σ β : Type} {fault : Option GoString} {t t' : σ} {r : Except GoString β × σ}
    {reply : Except GoString β} (h : faulty fault t r = (reply, t')) :
    (∃ text, reply = .error text ∧ t' = t) ∨ r = (reply, t') := by
  unfold faulty at h
  split at h
  · obtain ⟨rfl, rfl⟩ := Prod.mk.inj h
    exact Or.inl ⟨_, rfl, rfl⟩
  · exact Or.inr h

/-- A statement that only the driver can fail. -/
theorem faulty_ok_cases {σ β : Type} {fault : Option GoString} {t t' u : σ} {b : β}
    {reply : Except GoString β} (h : faulty fault t (.ok b, u) = (reply, t')) :
    (∃ text, reply = .error text ∧ t' = t) ∨ (reply = .ok b ∧ t' = u) := by
  rcases faulty_cases h with hfault | hdone
  · exact Or.inl hfault
  · obtain ⟨hreply, hstore⟩ := Prod.mk.inj hdone
    exact Or.inr ⟨hreply.symm, hstore.symm⟩

/-- A statement that the store refuses without effect unless `P`. -/
theorem faulty_guarded_cases {σ β : Type} {P : Prop} [Decidable P] {fault : Option GoString} {t t' : σ}
    {b : β} {u : P → σ} {text : GoString} {reply : Except GoString β}
    (h : faulty fault t (if hp : P then (.ok b, u hp) else (.error text, t)) = (reply, t')) :
    (∃ text, reply = .error text ∧ t' = t) ∨ ∃ hp : P, reply = .ok b ∧ t' = u hp := by
  rcases faulty_cases h with hfault | hdone
  · exact Or.inl hfault
  · split_ifs at hdone with hp
    · obtain ⟨hreply, hstore⟩ := Prod.mk.inj hdone
      exact Or.inr ⟨hp, hreply.symm, hstore.symm⟩
    · obtain ⟨hreply, hstore⟩ := Prod.mk.inj hdone
      exact Or.inl ⟨text, hreply.symm, hstore.symm⟩

/-- What the MySQL driver reports for a second row under one unique key. -/
def duplicateText : GoString := lit "Error 1062 (23000): Duplicate entry"

/-- The test for a violated unique key that every repository makes on the error text. -/
def reportsDuplicate (U : CaseTables) (text : GoString) : Bool :=
  let msg := toLower U text
  contains msg (lit "1062") || contains msg (lit "duplicate") || contains msg (lit "unique constraint")

theorem reportsDuplicate_duplicateText (U : CaseTables) : reportsDuplicate U duplicateText = true := by
  rfl

end SynapseGo.Database
