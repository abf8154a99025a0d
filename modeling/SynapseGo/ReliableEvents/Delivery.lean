import SynapseGo.ReliableEvents.Repo

/-! Dispatchers over one outbox. `FetchPending` takes no lock and `MarkFailed` selects its row by
id alone, so a late failure report takes a sent row back. -/
namespace SynapseGo.ReliableEvents
open SynapseGo.Go SynapseGo.Concurrency

abbrev Event (ι : Type) := Entry ι Sql Reply Env Outboxes

variable {ι : Type}

/-- The row on which this operation is a `MarkSent` that takes effect. -/
def sentID (x : Event ι) : Option ℕ :=
  match x.act with
  | ⟨.markSent id, .ok _⟩ => if x.pre.byID id = none then none else some id
  | _ => none

/-- The row on which this operation is a `MarkFailed` that takes effect. -/
def failedID (x : Event ι) : Option ℕ :=
  match x.act with
  | ⟨.markFailed id, .ok _⟩ => if x.pre.byID id = none then none else some id
  | _ => none

def Sent (t : Outboxes) (id : ℕ) : Prop := ∃ row ∈ t.byID id, row.status = .sent

/-- From a `MarkSent` on, the row keeps its status and no `FetchPending` returns it. -/
def SentForGood (log : List (Event ι)) : Prop :=
  ∀ a x b, log = a ++ x :: b → ∀ id ∈ sentID x, Sent x.post id ∧ ∀ y ∈ b, Sent y.post id ∧
    ∀ limit rows, y.act = ⟨.fetchPending limit, .ok rows⟩ → ∀ row ∈ rows, row.id ≠ id

theorem Event.insertOutbox {x : Event ι} (hx : x.Valid handle) {row : Outbox} {reply : Except GoString ℕ}
    (ha : x.act = ⟨.insertOutbox row, reply⟩) :
    (∃ text, reply = .error text ∧ x.post = x.pre) ∨
      ∃ h : x.pre.byKey row.eventID = none, reply = .ok x.pre.nextID ∧ x.post = x.pre.insert row h :=
  Database.faulty_guarded_cases (hx.handle ha)

theorem Event.fetchPending {x : Event ι} (hx : x.Valid handle) {limit : ℤ}
    {reply : Except GoString (List Outbox)} (ha : x.act = ⟨.fetchPending limit, reply⟩) :
    x.post = x.pre ∧ ∀ rows, reply = .ok rows → rows = pendingRows x.pre x.env limit := by
  rcases Database.faulty_cases (hx.handle ha) with ⟨text, rfl, hp⟩ | h
  · exact ⟨hp, fun rows hr => by simp at hr⟩
  · obtain ⟨rfl, hp⟩ := Prod.mk.inj h
    exact ⟨hp.symm, fun rows hr => (Except.ok.inj hr).symm⟩

theorem Event.markSent {x : Event ι} (hx : x.Valid handle) {id : ℕ} {reply : Except GoString Unit}
    (ha : x.act = ⟨.markSent id, reply⟩) :
    (∃ text, reply = .error text ∧ x.post = x.pre) ∨ (reply = .ok () ∧
      x.post = x.pre.update (fun r => r.id = id) (Outbox.markSent x.env.now)
        (Outbox.markSent_id x.env.now) (Outbox.markSent_eventID x.env.now)) :=
  Database.faulty_ok_cases (hx.handle ha)

theorem Event.markFailed {x : Event ι} (hx : x.Valid handle) {id : ℕ} {reply : Except GoString Unit}
    (ha : x.act = ⟨.markFailed id, reply⟩) :
    (∃ text, reply = .error text ∧ x.post = x.pre) ∨ (reply = .ok () ∧
      x.post = x.pre.update (fun r => r.id = id) (Outbox.markFailed x.env.dbNow)
        (Outbox.markFailed_id x.env.dbNow) (Outbox.markFailed_eventID x.env.dbNow)) :=
  Database.faulty_ok_cases (hx.handle ha)

theorem Event.byID_markSent {x : Event ι} (hx : x.Valid handle) {id : ℕ} (ha : x.act = ⟨.markSent id, .ok ()⟩)
    (n : ℕ) : x.post.byID n =
      if n = id then (x.pre.byID n).map (Outbox.markSent x.env.now) else x.pre.byID n := by
  rcases Event.markSent hx ha with ⟨_, he, -⟩ | ⟨-, hp⟩
  · cases he
  · rw [hp]
    exact Database.Table.byID_update_id _ _ _ _ id n

theorem Event.byID_markFailed {x : Event ι} (hx : x.Valid handle) {id : ℕ}
    (ha : x.act = ⟨.markFailed id, .ok ()⟩) (n : ℕ) : x.post.byID n =
      if n = id then (x.pre.byID n).map (Outbox.markFailed x.env.dbNow) else x.pre.byID n := by
  rcases Event.markFailed hx ha with ⟨_, he, -⟩ | ⟨-, hp⟩
  · cases he
  · rw [hp]
    exact Database.Table.byID_update_id _ _ _ _ id n

/-- Everything one statement can do to the row of one id. -/
inductive RowStep (x : Event ι) (id : ℕ) : Option Outbox → Option Outbox → Prop
  | same (o : Option Outbox) : RowStep x id o o
  | inserted (row : Outbox) : RowStep x id none (some row)
  | sent {r : Outbox} (ha : x.act = ⟨.markSent id, .ok ()⟩) :
    RowStep x id (some r) (some (r.markSent x.env.now))
  | failed {r : Outbox} (ha : x.act = ⟨.markFailed id, .ok ()⟩) :
    RowStep x id (some r) (some (r.markFailed x.env.dbNow))

theorem RowStep.byID {x : Event ι} (hx : x.Valid handle) (n : ℕ) :
    RowStep x n (x.pre.byID n) (x.post.byID n) := by
  obtain ⟨e, reply, ha⟩ : ∃ e reply, x.act = ⟨e, reply⟩ := ⟨_, _, rfl⟩
  cases e with
  | insertOutbox row =>
    rcases Event.insertOutbox hx ha with ⟨_, -, hp⟩ | ⟨hk, -, hp⟩
    · rw [hp]
      exact .same _
    · rw [hp, Database.Table.byID_insert]
      split_ifs with hn
      · subst hn
        rw [Database.Table.byID_of_nextID_le le_rfl]
        exact .inserted _
      · exact .same _
  | fetchPending limit =>
    rw [(Event.fetchPending hx ha).1]
    exact .same _
  | markSent id =>
    rcases Event.markSent hx ha with ⟨_, -, hp⟩ | ⟨rfl, -⟩
    · rw [hp]
      exact .same _
    · rw [Event.byID_markSent hx ha]
      split_ifs with hn
      · subst hn
        cases x.pre.byID n with
        | none => exact .same none
        | some r => exact .sent ha
      · exact .same _
  | markFailed id =>
    rcases Event.markFailed hx ha with ⟨_, -, hp⟩ | ⟨rfl, -⟩
    · rw [hp]
      exact .same _
    · rw [Event.byID_markFailed hx ha]
      split_ifs with hn
      · subst hn
        cases x.pre.byID n with
        | none => exact .same none
        | some r => exact .failed ha
      · exact .same _

theorem mem_sentID {x : Event ι} {id : ℕ} : id ∈ sentID x ↔
    x.act = ⟨.markSent id, .ok ()⟩ ∧ ∃ row, x.pre.byID id = some row := by
  unfold sentID
  constructor
  · intro h
    split at h
    · next id' _ ha =>
      split_ifs at h with hrow
      · cases h
      cases Option.mem_some_iff.mp h
      exact ⟨ha, Option.ne_none_iff_exists'.mp hrow⟩
    · cases h
  · rintro ⟨ha, row, hrow⟩
    rw [ha]
    simp [hrow]

theorem mem_failedID {x : Event ι} {id : ℕ} : id ∈ failedID x ↔
    x.act = ⟨.markFailed id, .ok ()⟩ ∧ ∃ row, x.pre.byID id = some row := by
  unfold failedID
  constructor
  · intro h
    split at h
    · next id' _ ha =>
      split_ifs at h with hrow
      · cases h
      cases Option.mem_some_iff.mp h
      exact ⟨ha, Option.ne_none_iff_exists'.mp hrow⟩
    · cases h
  · rintro ⟨ha, row, hrow⟩
    rw [ha]
    simp [hrow]

theorem Outbox.markFailed_status_ne (dbNow : ℤ) (r : Outbox) : (r.markFailed dbNow).status ≠ .sent := by
  unfold Outbox.markFailed
  dsimp only
  split_ifs <;> simp

theorem sent_of_sentID {x : Event ι} (hx : x.Valid handle) {id : ℕ} (h : id ∈ sentID x) :
    Sent x.post id := by
  obtain ⟨ha, row, hrow⟩ := mem_sentID.mp h
  refine ⟨row.markSent x.env.now, ?_, rfl⟩
  rw [Event.byID_markSent hx ha, if_pos rfl, hrow]
  rfl

theorem not_sent_of_failedID {x : Event ι} (hx : x.Valid handle) {id : ℕ} (h : id ∈ failedID x) :
    ¬ Sent x.post id := by
  obtain ⟨ha, row, hrow⟩ := mem_failedID.mp h
  rintro ⟨row', hrow', hst⟩
  rw [Event.byID_markFailed hx ha, if_pos rfl, hrow] at hrow'
  cases hrow'
  exact Outbox.markFailed_status_ne _ _ hst

/-- Only `MarkFailed` takes a row out of status sent. -/
theorem Sent.step {x : Event ι} (hx : x.Valid handle) {id : ℕ} (h : Sent x.pre id)
    (hf : id ∉ failedID x) : Sent x.post id := by
  obtain ⟨row, hrow, hst⟩ := h
  have hstep := RowStep.byID hx id
  rw [Option.mem_def.mp hrow] at hstep
  generalize hpost : x.post.byID id = o at hstep
  cases hstep with
  | same => exact ⟨row, hpost, hst⟩
  | sent ha => exact ⟨row.markSent x.env.now, hpost, rfl⟩
  | failed ha => exact absurd (mem_failedID.mpr ⟨ha, row, hrow⟩) hf

theorem mem_pendingRows {t : Outboxes} {env : Env} {limit : ℤ} {row : Outbox}
    (h : row ∈ pendingRows t env limit) : row ∈ t.rows ∧ row.due env.now = true := by
  unfold pendingRows at h
  dsimp only at h
  have hsorted : ∀ r, r ∈ (t.rows.filter (Outbox.due env.now)).insertionSort (fun r r' =>
      r.occurredAt < r'.occurredAt ∨ r.occurredAt = r'.occurredAt ∧ env.rank r.id ≤ env.rank r'.id) →
      r ∈ t.rows ∧ r.due env.now = true := by
    intro r hr
    exact List.mem_filter.mp ((List.mem_insertionSort _).mp hr)
  split_ifs at h
  · exact hsorted row h
  · exact hsorted row (List.mem_of_mem_take h)

theorem not_fetched_of_sent {x : Event ι} (hx : x.Valid handle) {id : ℕ} (h : Sent x.pre id) {limit : ℤ}
    {rows : List Outbox} (ha : x.act = ⟨.fetchPending limit, .ok rows⟩) {row : Outbox} (hrow : row ∈ rows) :
    row.id ≠ id := by
  intro hid
  rw [(Event.fetchPending hx ha).2 rows rfl] at hrow
  obtain ⟨hmem, hdue⟩ := mem_pendingRows hrow
  obtain ⟨row', hrow', hst⟩ := h
  have hsame : x.pre.byID id = some row := Database.Table.byID_eq_some.mpr ⟨hmem, hid⟩
  cases hsame.symm.trans hrow'
  simp [Outbox.due, hst] at hdue

/-- No failure report takes effect on a row after a success report did. -/
def NoLateFailure (log : List (Event ι)) : Prop :=
  log.Pairwise fun x y => ∀ id ∈ sentID x, id ∉ failedID y

instance (log : List (Event ι)) : Decidable (NoLateFailure log) :=
  inferInstanceAs (Decidable (log.Pairwise _))

theorem SentForGood.noLateFailure {log : List (Event ι)} {s t : Outboxes} (hexec : Exec handle s log t)
    (h : SentForGood log) : NoLateFailure log := by
  unfold NoLateFailure
  rw [pairwise_iff_split]
  intro a x b hl y hy id hid hfail
  have hlog : y ∈ log := by
    rw [hl]
    exact List.mem_append_right _ (List.mem_cons_of_mem _ hy)
  exact not_sent_of_failedID (hexec.valid hlog) hfail ((h a x b hl id hid).2 y hy).1

theorem NoLateFailure.sentForGood {log : List (Event ι)} {s t : Outboxes} (hexec : Exec handle s log t)
    (h : NoLateFailure log) : SentForGood log := by
  unfold NoLateFailure at h
  rw [pairwise_iff_split] at h
  intro a x b hl id hid
  rw [hl] at hexec
  obtain ⟨-, hx, hb⟩ := hexec.split
  have hsent := sent_of_sentID hx hid
  refine ⟨hsent, fun y hy => ?_⟩
  have hquiet : ∀ z ∈ b, id ∉ failedID z := fun z hz => h a x b hl z hz id hid
  obtain ⟨b₁, b₂, hb'⟩ := List.append_of_mem hy
  rw [hb'] at hb
  obtain ⟨hb₁, hyv, -⟩ := hb.split
  have hpre : Sent y.pre id := by
    refine hb₁.invariant (P := fun t => Sent t id) ?_ hsent
    intro z hz hzv hzs
    refine hzs.step hzv (hquiet z ?_)
    rw [hb']
    exact List.mem_append_left _ hz
  exact ⟨hpre.step hyv (hquiet y hy), fun limit rows ha row hrow => not_fetched_of_sent hyv hpre ha hrow⟩

/-- Sent rows stay sent exactly in the runs without a late failure report. The callers are
arbitrary programs over the repository. -/
theorem sentForGood_iff_noLateFailure {α : Type} [DecidableEq ι] (calls : ι → Call α) (t₀ : Outboxes)
    (sched : List (ι × Env)) :
    SentForGood ((Config.start calls t₀).run handle sched).log ↔
      NoLateFailure ((Config.start calls t₀).run handle sched).log := by
  have hexec := (Config.run_sound handle calls t₀ sched).exec
  exact ⟨SentForGood.noLateFailure hexec, NoLateFailure.sentForGood hexec⟩

/-- A dispatcher that fetches once and reports every row as delivered, or every row as failed. -/
def dispatch (limit : ℤ) (delivered : Bool) : Call Unit := do
  match ← Service.pending limit with
  | .error _ => return ()
  | .ok rows => rows.forM fun row => do
    let _ ← if delivered then Service.markSent row.id else Service.markFailed row.id

def sampleRow : Outbox where
  id := 0
  eventID := lit "e1"
  tenantID := 1
  eventType := lit "order.created"
  version := 1
  actor := lit "null"
  correlationID := none
  source := lit "shop"
  payload := lit "null"
  status := .pending
  retryCount := 0
  nextRetryAt := none
  occurredAt := 0
  sentAt := none

/-- Two dispatchers hold the same row; the one that delivered it reports first. -/
def overlapping : Config ℕ Sql Reply Env Outboxes Unit :=
  (Config.start (fun i : ℕ => dispatch 10 (i = 0)) ((Database.Table.empty schema).insert sampleRow rfl)).run
    handle (([0, 1, 0, 1] : List ℕ).map fun i => (i, ⟨0, 0, none, fun _ => 0⟩))

theorem overlapping_not_sentForGood : ¬ SentForGood overlapping.log := by
  intro h
  have hexec := (Config.run_sound handle _ _ _ : Config.Sound handle _ _ overlapping).exec
  have hlate : ¬ NoLateFailure overlapping.log := by decide +kernel
  exact hlate (h.noLateFailure hexec)

end SynapseGo.ReliableEvents
