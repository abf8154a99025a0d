import SynapseGo.Idempotency.Service

/-! What one executed statement does to the table, and to the row of one id. -/
namespace SynapseGo.Idempotency
open SynapseGo.Go SynapseGo.Concurrency

abbrev Event (ι : Type) := Entry ι Sql Reply Env Records

variable {ι : Type} {x : Event ι}

theorem Event.now (hx : x.Valid handle) {t : ℤ} (ha : x.act = ⟨.now, t⟩) :
    t = x.env.now ∧ x.post = x.pre := by
  obtain ⟨ht, hp⟩ := Prod.mk.inj (hx.handle ha)
  exact ⟨ht.symm, hp.symm⟩

theorem Event.selectFirst (hx : x.Valid handle) {scope : Scope} {reply : Except GoString (Option Record)}
    (ha : x.act = ⟨.selectFirst scope, reply⟩) :
    x.post = x.pre ∧ ∀ o, reply = .ok o → x.pre.byKey scope = o := by
  rcases Database.faulty_cases (hx.handle ha) with ⟨text, rfl, hp⟩ | h
  · exact ⟨hp, fun o ho => by simp at ho⟩
  · obtain ⟨rfl, hp⟩ := Prod.mk.inj h
    exact ⟨hp.symm, fun o ho => Except.ok.inj ho⟩

/-- An insert fails without effect, or finds its scope free and stores the row. -/
theorem Event.insert (hx : x.Valid handle) {record : Record} {reply : Except GoString ℕ}
    (ha : x.act = ⟨.insert record, reply⟩) :
    (∃ text, reply = .error text ∧ x.post = x.pre) ∨
      ∃ h : x.pre.byKey record.scope = none, reply = .ok x.pre.nextID ∧ x.post = x.pre.insert record h :=
  Database.faulty_guarded_cases (hx.handle ha)

theorem Event.selectFirst_of_faultless (hx : x.Valid handle) (hf : x.env.fault = none) {scope : Scope}
    {reply : Except GoString (Option Record)} (ha : x.act = ⟨.selectFirst scope, reply⟩) :
    reply = .ok (x.pre.byKey scope) := by
  have h := hx.handle ha
  simp only [handle, Database.faulty, hf] at h
  exact (Prod.mk.inj h).1.symm

/-- Without a fault the only failure of an insert is an occupied scope. -/
theorem Event.insert_of_faultless (hx : x.Valid handle) (hf : x.env.fault = none) {record : Record}
    {reply : Except GoString ℕ} (ha : x.act = ⟨.insert record, reply⟩) :
    reply = .error Database.duplicateText ∧ x.pre.byKey record.scope ≠ none ∨
      reply = .ok x.pre.nextID ∧ x.pre.byKey record.scope = none := by
  have h := hx.handle ha
  simp only [handle, Database.faulty, hf] at h
  split_ifs at h with hk
  · exact Or.inr ⟨(Prod.mk.inj h).1.symm, hk⟩
  · exact Or.inl ⟨(Prod.mk.inj h).1.symm, hk⟩

theorem Event.updateCompleted_of_faultless (hx : x.Valid handle) (hf : x.env.fault = none) {id : ℕ}
    {status : Status} {responseStatus : ℤ} {responseBody : GoString} {reply : Except GoString Unit}
    (ha : x.act = ⟨.updateCompleted id status responseStatus responseBody, reply⟩) : reply = .ok () := by
  have h := hx.handle ha
  simp only [handle, Database.faulty, hf] at h
  exact (Prod.mk.inj h).1.symm

theorem Event.updateCompleted (hx : x.Valid handle) {id : ℕ} {status : Status} {responseStatus : ℤ}
    {responseBody : GoString} {reply : Except GoString Unit}
    (ha : x.act = ⟨.updateCompleted id status responseStatus responseBody, reply⟩) :
    (∃ text, reply = .error text ∧ x.post = x.pre) ∨ (reply = .ok () ∧
      x.post = x.pre.update (fun r => r.id = id)
        (Record.complete x.env.now status responseStatus responseBody)
        (Record.complete_id x.env.now status responseStatus responseBody)
        (Record.complete_scope x.env.now status responseStatus responseBody)) :=
  Database.faulty_ok_cases (hx.handle ha)

theorem Event.updateRestarted (hx : x.Valid handle) {id : ℕ} {requestHash : GoString}
    {runningExpiresAt updatedAt : ℤ} {reply : Except GoString Unit}
    (ha : x.act = ⟨.updateRestarted id requestHash runningExpiresAt updatedAt, reply⟩) :
    (∃ text, reply = .error text ∧ x.post = x.pre) ∨ (reply = .ok () ∧
      x.post = x.pre.update (fun r => r.id = id ∧ r.status = .inProgress)
        (Record.restart requestHash runningExpiresAt updatedAt)
        (Record.restart_id requestHash runningExpiresAt updatedAt)
        (Record.restart_scope requestHash runningExpiresAt updatedAt)) :=
  Database.faulty_ok_cases (hx.handle ha)

theorem Event.deleteExpired (hx : x.Valid handle) {before : ℤ} {limit : ℕ} {reply : Except GoString ℕ}
    (ha : x.act = ⟨.deleteExpired before limit, reply⟩) :
    (∃ text, reply = .error text ∧ x.post = x.pre) ∨
      (reply = .ok (expiredIDs x.pre before limit x.env.pick).length ∧
      x.post = x.pre.delete fun r => r.id ∈ expiredIDs x.pre before limit x.env.pick) :=
  Database.faulty_ok_cases (hx.handle ha)

/-- Everything one statement can do to the row found under one id or one scope. -/
inductive RowStep (x : Event ι) : Option Record → Option Record → Prop
  | same (o : Option Record) : RowStep x o o
  | created {record : Record} {id : ℕ} (ha : x.act = ⟨.insert record, .ok id⟩)
    (hid : id = x.pre.nextID) : RowStep x none (some { record with id := id })
  | completed {r : Record} {status : Status} {responseStatus : ℤ} {responseBody : GoString}
    (ha : x.act = ⟨.updateCompleted r.id status responseStatus responseBody, .ok ()⟩) :
    RowStep x (some r) (some (r.complete x.env.now status responseStatus responseBody))
  | restarted {r : Record} {requestHash : GoString} {runningExpiresAt updatedAt : ℤ}
    (ha : x.act = ⟨.updateRestarted r.id requestHash runningExpiresAt updatedAt, .ok ()⟩)
    (hs : r.status = .inProgress) :
    RowStep x (some r) (some (r.restart requestHash runningExpiresAt updatedAt))
  | deleted {r : Record} {before : ℤ} {limit n : ℕ}
    (ha : x.act = ⟨.deleteExpired before limit, .ok n⟩) (he : r.expiresAt < before) :
    RowStep x (some r) none

theorem expired_of_mem {t : Records} {before : ℤ} {limit : ℕ} {pick : List ℕ} {r : Record}
    (hr : r ∈ t.rows) (h : r.id ∈ expiredIDs t before limit pick) : r.expiresAt < before := by
  have hm := List.mem_of_mem_take h
  simp only [List.mem_append, List.mem_filter, List.mem_map] at hm
  obtain ⟨⟨r', ⟨hr', he⟩, hid⟩, -⟩ | ⟨⟨r', ⟨hr', he⟩, hid⟩, -⟩ := hm <;>
  · rw [List.inj_on_of_nodup_map t.id_nodup hr hr' hid.symm]
    simpa using he

private theorem RowStep.of_delete {before : ℤ} {limit n : ℕ} {o : Option Record}
    (ha : x.act = ⟨.deleteExpired before limit, .ok n⟩) (ho : ∀ r, o = some r → r ∈ x.pre.rows) :
    RowStep x o (o.filter fun r => !decide (r.id ∈ expiredIDs x.pre before limit x.env.pick)) := by
  cases o with
  | none => exact .same none
  | some r =>
    by_cases hm : r.id ∈ expiredIDs x.pre before limit x.env.pick
    · simpa [Option.filter, hm] using RowStep.deleted ha (expired_of_mem (ho r rfl) hm)
    · simpa [Option.filter, hm] using RowStep.same (some r)

private theorem RowStep.of_complete {id : ℕ} {status : Status} {responseStatus : ℤ}
    {responseBody : GoString} {o : Option Record}
    (ha : x.act = ⟨.updateCompleted id status responseStatus responseBody, .ok ()⟩) :
    RowStep x o (o.map fun r => if decide (r.id = id) then
      r.complete x.env.now status responseStatus responseBody else r) := by
  cases o with
  | none => exact .same none
  | some r =>
    by_cases hid : r.id = id
    · subst hid
      simpa using RowStep.completed ha
    · simpa [hid] using RowStep.same (some r)

private theorem RowStep.of_restart {id : ℕ} {requestHash : GoString} {runningExpiresAt updatedAt : ℤ}
    {o : Option Record} (ha : x.act = ⟨.updateRestarted id requestHash runningExpiresAt updatedAt, .ok ()⟩) :
    RowStep x o (o.map fun r => if decide (r.id = id ∧ r.status = .inProgress) then
      r.restart requestHash runningExpiresAt updatedAt else r) := by
  cases o with
  | none => exact .same none
  | some r =>
    by_cases hid : r.id = id ∧ r.status = .inProgress
    · obtain ⟨rfl, hs⟩ := hid
      simpa [hs] using RowStep.restarted ha hs
    · simpa [hid] using RowStep.same (some r)

/-- The row of one id across a statement. -/
theorem RowStep.byID (hx : x.Valid handle) (n : ℕ) : RowStep x (x.pre.byID n) (x.post.byID n) := by
  obtain ⟨e, reply, ha⟩ : ∃ e reply, x.act = ⟨e, reply⟩ := ⟨_, _, rfl⟩
  cases e with
  | now =>
    rw [(Event.now hx ha).2]
    exact .same _
  | selectFirst scope =>
    rw [(Event.selectFirst hx ha).1]
    exact .same _
  | insert record =>
    rcases Event.insert hx ha with ⟨_, -, hp⟩ | ⟨hk, rfl, hp⟩
    · rw [hp]
      exact .same _
    · rw [hp, Database.Table.byID_insert]
      split_ifs with hn
      · subst hn
        rw [Database.Table.byID_of_nextID_le le_rfl]
        exact .created ha rfl
      · exact .same _
  | updateCompleted id status responseStatus responseBody =>
    rcases Event.updateCompleted hx ha with ⟨_, -, hp⟩ | ⟨rfl, hp⟩
    · rw [hp]
      exact .same _
    · rw [hp, Database.Table.byID_update]
      exact .of_complete ha
  | updateRestarted id requestHash runningExpiresAt updatedAt =>
    rcases Event.updateRestarted hx ha with ⟨_, -, hp⟩ | ⟨rfl, hp⟩
    · rw [hp]
      exact .same _
    · rw [hp, Database.Table.byID_update]
      exact .of_restart ha
  | deleteExpired before limit =>
    rcases Event.deleteExpired hx ha with ⟨_, -, hp⟩ | ⟨rfl, hp⟩
    · rw [hp]
      exact .same _
    · rw [hp, Database.Table.byID_delete]
      exact .of_delete ha fun r hr => (Database.Table.byID_eq_some.mp hr).1

/-- Ids are handed out in increasing order, whatever is deleted. -/
theorem Event.nextID_le (hx : x.Valid handle) : x.pre.nextID ≤ x.post.nextID := by
  obtain ⟨e, reply, ha⟩ : ∃ e reply, x.act = ⟨e, reply⟩ := ⟨_, _, rfl⟩
  cases e with
  | now => rw [(Event.now hx ha).2]
  | selectFirst scope => rw [(Event.selectFirst hx ha).1]
  | insert record =>
    rcases Event.insert hx ha with ⟨_, -, hp⟩ | ⟨hk, rfl, hp⟩
    · rw [hp]
    · rw [hp]
      exact Nat.le_succ _
  | updateCompleted id status responseStatus responseBody =>
    rcases Event.updateCompleted hx ha with ⟨_, -, hp⟩ | ⟨rfl, hp⟩ <;> rw [hp]
    exact le_rfl
  | updateRestarted id requestHash runningExpiresAt updatedAt =>
    rcases Event.updateRestarted hx ha with ⟨_, -, hp⟩ | ⟨rfl, hp⟩ <;> rw [hp]
    exact le_rfl
  | deleteExpired before limit =>
    rcases Event.deleteExpired hx ha with ⟨_, -, hp⟩ | ⟨rfl, hp⟩ <;> rw [hp]
    exact le_rfl

/-- What holds of the row of an id that has been given out is kept if the two updates keep it: the id
is not given out again. -/
theorem Event.row_invariant (hx : x.Valid handle) {id : ℕ} {P : Record → Prop}
    (hcompleted : ∀ r status responseStatus responseBody, x.pre.byID id = some r →
      x.act = ⟨.updateCompleted id status responseStatus responseBody, .ok ()⟩ → P r →
        P (r.complete x.env.now status responseStatus responseBody))
    (hrestarted : ∀ r hash running now, x.pre.byID id = some r → r.status = .inProgress →
      x.act = ⟨.updateRestarted id hash running now, .ok ()⟩ → P r → P (r.restart hash running now))
    (h : id < x.pre.nextID ∧ ∀ row ∈ x.pre.byID id, P row) :
    id < x.post.nextID ∧ ∀ row ∈ x.post.byID id, P row := by
  obtain ⟨hlt, hrow⟩ := h
  refine ⟨lt_of_lt_of_le hlt (Event.nextID_le hx), ?_⟩
  have hstep := RowStep.byID hx id
  generalize hpre : x.pre.byID id = p at hstep hrow
  generalize hpost : x.post.byID id = p' at hstep ⊢
  cases hstep with
  | same => exact hrow
  | created ha hid =>
    have hid' := (Database.Table.byID_eq_some.mp hpost).2
    exact absurd (hid.symm.trans hid') (Nat.ne_of_gt hlt)
  | @completed r _ _ _ ha =>
    have hid : r.id = id := (Database.Table.byID_eq_some.mp hpre).2
    rw [hid] at ha
    rintro row' ⟨⟩
    exact hcompleted r _ _ _ hpre ha (hrow r rfl)
  | @restarted r _ _ _ ha hs =>
    have hid : r.id = id := (Database.Table.byID_eq_some.mp hpre).2
    rw [hid] at ha
    rintro row' ⟨⟩
    exact hrestarted r _ _ _ hpre hs ha (hrow r rfl)
  | deleted => simp

end SynapseGo.Idempotency
