import Mathlib.Algebra.Order.GroupWithZero.Basic
import Mathlib.Algebra.Order.Ring.Int
import SynapseGo.ReliableEvents.Delivery

/-! The retry ladder of one outbox row, over every interleaving of the statements on its table. -/
namespace SynapseGo.ReliableEvents
open SynapseGo.Go SynapseGo.Concurrency

variable {ι : Type}

/-- How often `MarkFailed` has taken effect on the row. -/
def failures (id : ℕ) (log : List (Event ι)) : ℕ := log.countP fun x => failedID x = some id

/-- Ten seconds, doubled with every failure up to the fifth. -/
def retryDelay (k : ℕ) : ℤ := 10 * 2 ^ min k 5 * 10 ^ 9

/-- A row after `k` failures. -/
structure OnRung (k : ℕ) (r : Outbox) : Prop where
  retryCount : r.retryCount = k
  pending : r.status = .pending → k ≤ 5
  failed : r.status = .failed → 6 ≤ k

/-- The status of a row that has only failed so far. -/
def ladderStatus (k : ℕ) : Status := if k < 6 then .pending else .failed

/-- The row stands after each statement on the rung of its failures; the statement that fails it sets
the next attempt, and a row without a success report has the status of its rung. -/
def Climbs (id : ℕ) (log : List (Event ι)) : Prop :=
  ∀ a x b, log = a ++ x :: b → ∃ r ∈ x.post.byID id,
    OnRung (failures id (a ++ [x])) r ∧
    (id ∈ failedID x → r.nextRetryAt = some (x.env.dbNow + retryDelay (failures id (a ++ [x])))) ∧
    ((∀ y ∈ a ++ [x], id ∉ sentID y) → r.status = ladderStatus (failures id (a ++ [x])))

/-- A row that `FetchPending` returns has failed at most five times, and the delay after each of its
failures has passed, as far as the database clock has not gone back in between. -/
def FetchedInTime (id : ℕ) (log : List (Event ι)) : Prop :=
  ∀ a x b, log = a ++ x :: b → ∀ limit rows, x.act = ⟨.fetchPending limit, .ok rows⟩ →
    (∃ row ∈ rows, row.id = id) → failures id a ≤ 5 ∧
      ∀ a₁ y a₂, a = a₁ ++ y :: a₂ → id ∈ failedID y →
        (∀ z ∈ a₂, id ∈ failedID z → y.env.dbNow ≤ z.env.dbNow) →
        y.env.dbNow + retryDelay (failures id (a₁ ++ [y])) ≤ x.env.now

/-- From its insertion as pending and never retried on, a row is on the ladder. -/
def RetryLadder (log : List (Event ι)) : Prop :=
  ∀ a x b, log = a ++ x :: b → ∀ row id, x.act = ⟨.insertOutbox row, .ok id⟩ →
    row.status = .pending → row.retryCount = 0 → Climbs id b ∧ FetchedInTime id b

theorem failures_append (id : ℕ) (a b : List (Event ι)) :
    failures id (a ++ b) = failures id a + failures id b :=
  List.countP_append

theorem failures_snoc_of_mem {id : ℕ} {x : Event ι} (h : id ∈ failedID x) (a : List (Event ι)) :
    failures id (a ++ [x]) = failures id a + 1 := by
  have hx : failedID x = some id := h
  rw [failures_append]
  simp [failures, hx]

theorem failures_snoc_of_notMem {id : ℕ} {x : Event ι} (h : id ∉ failedID x) (a : List (Event ι)) :
    failures id (a ++ [x]) = failures id a := by
  have hx : ¬ failedID x = some id := h
  rw [failures_append]
  simp [failures, hx]

theorem retryDelay_mono {k l : ℕ} (h : k ≤ l) : retryDelay k ≤ retryDelay l := by
  have hpow : (2 : ℤ) ^ min k 5 ≤ 2 ^ min l 5 := pow_le_pow_right₀ (by decide) (min_le_min_right 5 h)
  unfold retryDelay
  omega

theorem OnRung.start {r : Outbox} (hst : r.status = .pending) (hk : r.retryCount = 0) : OnRung 0 r where
  retryCount := hk
  pending _ := Nat.zero_le 5
  failed h := by simp [hst] at h

theorem OnRung.markSent {k : ℕ} {r : Outbox} (h : OnRung k r) (now : ℤ) : OnRung k (r.markSent now) where
  retryCount := h.retryCount
  pending hst := by simp [Outbox.markSent] at hst
  failed hst := by simp [Outbox.markSent] at hst

theorem Outbox.markFailed_status (dbNow : ℤ) (r : Outbox) :
    (r.markFailed dbNow).status = ladderStatus (r.retryCount + 1) := by
  unfold Outbox.markFailed ladderStatus
  dsimp only
  split_ifs <;> first | rfl | omega

theorem Outbox.markFailed_nextRetryAt (dbNow : ℤ) (r : Outbox) :
    (r.markFailed dbNow).nextRetryAt = some (dbNow + retryDelay (r.retryCount + 1)) := by
  have hdelay : (2 : ℤ) ^ min (r.retryCount + 1) 5 * 10 * 10 ^ 9 = retryDelay (r.retryCount + 1) := by
    unfold retryDelay
    omega
  rw [← hdelay]
  rfl

/-- The status is decided on the old count, so the sixth failure is the last. -/
theorem OnRung.markFailed {k : ℕ} {r : Outbox} (h : OnRung k r) (dbNow : ℤ) :
    OnRung (k + 1) (r.markFailed dbNow) where
  retryCount := congrArg (· + 1) h.retryCount
  pending hst := by
    rw [Outbox.markFailed_status, h.retryCount] at hst
    unfold ladderStatus at hst
    split_ifs at hst with hk
    omega
  failed hst := by
    rw [Outbox.markFailed_status, h.retryCount] at hst
    unfold ladderStatus at hst
    split_ifs at hst with hk
    omega

/-- The row after a statement that fails it. -/
theorem byID_of_failedID {x : Event ι} (hx : x.Valid handle) {id : ℕ} (h : id ∈ failedID x) {r : Outbox}
    (hr : x.pre.byID id = some r) : x.post.byID id = some (r.markFailed x.env.dbNow) := by
  rw [Event.byID_markFailed hx (mem_failedID.mp h).1, if_pos rfl, hr]
  rfl

/-- A statement that does not fail the row reports it as sent or leaves it. -/
theorem byID_of_notMem_failedID {x : Event ι} (hx : x.Valid handle) {id : ℕ} (h : id ∉ failedID x)
    {r : Outbox} (hr : x.pre.byID id = some r) :
    x.post.byID id = some r ∨ id ∈ sentID x ∧ x.post.byID id = some (r.markSent x.env.now) := by
  have hstep := RowStep.byID hx id
  rw [hr] at hstep
  generalize x.post.byID id = o at hstep
  cases hstep with
  | same => exact Or.inl rfl
  | sent ha => exact Or.inr ⟨mem_sentID.mpr ⟨ha, r, hr⟩, rfl⟩
  | failed ha => exact absurd (mem_failedID.mpr ⟨ha, r, hr⟩) h

/-- The row of `id` after the log `l`. -/
structure Rung (id : ℕ) (l : List (Event ι)) (t : Outboxes) (r : Outbox) : Prop extends
    OnRung (failures id l) r where
  row : t.byID id = some r
  onlyFailed : (∀ y ∈ l, id ∉ sentID y) → r.status = ladderStatus (failures id l)

theorem Rung.step {id : ℕ} {a : List (Event ι)} {x : Event ι} {r : Outbox} (hx : x.Valid handle)
    (h : Rung id a x.pre r) : ∃ r', Rung id (a ++ [x]) x.post r' ∧
      (id ∈ failedID x → r'.nextRetryAt = some (x.env.dbNow + retryDelay (failures id (a ++ [x])))) := by
  by_cases hf : id ∈ failedID x
  · refine ⟨r.markFailed x.env.dbNow, ⟨?_, byID_of_failedID hx hf h.row, ?_⟩, ?_⟩
    · rw [failures_snoc_of_mem hf]
      exact h.toOnRung.markFailed _
    · intro _
      rw [Outbox.markFailed_status, h.retryCount, failures_snoc_of_mem hf]
    · intro _
      rw [Outbox.markFailed_nextRetryAt, h.retryCount, failures_snoc_of_mem hf]
  · have hcount := failures_snoc_of_notMem hf a
    rcases byID_of_notMem_failedID hx hf h.row with hrow | ⟨hsent, hrow⟩
    · refine ⟨r, ⟨?_, hrow, ?_⟩, fun hmem => absurd hmem hf⟩
      · rw [hcount]
        exact h.toOnRung
      · intro hquiet
        rw [hcount]
        exact h.onlyFailed fun y hy => hquiet y (List.mem_append_left _ hy)
    · refine ⟨r.markSent x.env.now, ⟨?_, hrow, ?_⟩, fun hmem => absurd hmem hf⟩
      · rw [hcount]
        exact h.toOnRung.markSent _
      · intro hquiet
        exact absurd hsent (hquiet x (by simp))

/-- The row is on its rung at every point of the log. -/
theorem Rung.run {id : ℕ} {a : List (Event ι)} {s t : Outboxes} {r : Outbox} (ha : Exec handle s a t)
    (hs : Rung id ([] : List (Event ι)) s r) : ∃ r', Rung id a t r' := by
  refine ha.history_invariant (P := fun l u => ∃ r', Rung id l u r') ⟨r, hs⟩ ?_
  intro a x b _ hx ⟨r', hr'⟩
  obtain ⟨r'', hr'', -⟩ := hr'.step hx
  exact ⟨r'', hr''⟩

theorem climbs_of_rung {id : ℕ} {log : List (Event ι)} {s t : Outboxes} {r : Outbox}
    (hlog : Exec handle s log t) (hs : Rung id ([] : List (Event ι)) s r) : Climbs id log := by
  intro a x b hl
  rw [hl] at hlog
  obtain ⟨ha, hx, -⟩ := hlog.split
  obtain ⟨r', hr'⟩ := hs.run ha
  obtain ⟨r'', hr'', hnext⟩ := hr'.step hx
  exact ⟨r'', hr''.row, hr''.toOnRung, hnext, hr''.onlyFailed⟩

/-- The next attempt at the row is not before `bound`, and it has failed at least `k` times. -/
def Waits (id k : ℕ) (bound : ℤ) (t : Outboxes) : Prop :=
  ∃ r ∈ t.byID id, k ≤ r.retryCount ∧ ∃ next ∈ r.nextRetryAt, bound ≤ next

/-- Further failures only postpone the next attempt, if they are not reported before `dbNow`. -/
theorem Waits.step {id k : ℕ} {dbNow : ℤ} {x : Event ι} (hx : x.Valid handle)
    (hclock : id ∈ failedID x → dbNow ≤ x.env.dbNow) (h : Waits id k (dbNow + retryDelay k) x.pre) :
    Waits id k (dbNow + retryDelay k) x.post := by
  obtain ⟨r, hr, hk, next, hnext, hbound⟩ := h
  by_cases hf : id ∈ failedID x
  · have hdelay : retryDelay k ≤ retryDelay (r.retryCount + 1) := retryDelay_mono (by omega)
    have htime := hclock hf
    have hcount : k ≤ (r.markFailed x.env.dbNow).retryCount := Nat.le_succ_of_le hk
    refine ⟨_, byID_of_failedID hx hf hr, hcount, _, Outbox.markFailed_nextRetryAt _ r, ?_⟩
    omega
  · rcases byID_of_notMem_failedID hx hf hr with hrow | ⟨-, hrow⟩
    · exact ⟨r, hrow, hk, next, hnext, hbound⟩
    · exact ⟨r.markSent x.env.now, hrow, hk, next, hnext, hbound⟩

/-- A fetched row is pending, and its next attempt is due. -/
theorem due_of_fetched {x : Event ι} (hx : x.Valid handle) {limit : ℤ} {rows : List Outbox}
    (ha : x.act = ⟨.fetchPending limit, .ok rows⟩) {row : Outbox} (hrow : row ∈ rows) :
    x.pre.byID row.id = some row ∧ row.status = .pending ∧ ∀ next ∈ row.nextRetryAt, next ≤ x.env.now := by
  rw [(Event.fetchPending hx ha).2 rows rfl] at hrow
  obtain ⟨hmem, hdue⟩ := mem_pendingRows hrow
  simp only [Outbox.due, Bool.and_eq_true, decide_eq_true_eq] at hdue
  refine ⟨Database.Table.byID_eq_some.mpr ⟨hmem, rfl⟩, hdue.1, ?_⟩
  intro next hnext
  rw [Option.mem_def.mp hnext] at hdue
  simpa using hdue.2

theorem fetchedInTime_of_rung {id : ℕ} {log : List (Event ι)} {s t : Outboxes} {r : Outbox}
    (hlog : Exec handle s log t) (hs : Rung id ([] : List (Event ι)) s r) : FetchedInTime id log := by
  intro a x b hl limit rows hact ⟨row, hrow, hid⟩
  have hclimbs := climbs_of_rung hlog hs
  rw [hl] at hlog
  obtain ⟨ha, hx, -⟩ := hlog.split
  obtain ⟨hbyID, hpending, hdue⟩ := due_of_fetched hx hact hrow
  rw [hid] at hbyID
  constructor
  · obtain ⟨r', hr'⟩ := hs.run ha
    cases hr'.row.symm.trans hbyID
    exact hr'.pending hpending
  · intro a₁ y a₂ hsplit hfailed hclock
    obtain ⟨r', hr', hrung, hnext, -⟩ := hclimbs a₁ y (a₂ ++ x :: b) (by rw [hl, hsplit]; simp)
    have hstart :
      Waits id (failures id (a₁ ++ [y])) (y.env.dbNow + retryDelay (failures id (a₁ ++ [y]))) y.post :=
      ⟨r', hr', le_of_eq hrung.retryCount.symm, _, hnext hfailed, le_refl _⟩
    rw [hsplit] at ha
    have hwaits := ha.split.2.2.invariant (P := Waits id _ _)
      (fun z hz hzv hzw => hzw.step hzv (hclock z hz)) hstart
    obtain ⟨r'', hr'', -, next, hmem, hbound⟩ := hwaits
    cases (Option.mem_def.mp hr'').symm.trans hbyID
    exact hbound.trans (hdue next hmem)

end SynapseGo.ReliableEvents
