import SynapseGo.Idempotency.System

/-! Takeover of stale records. `Restart` checks the status of the stored row but neither its
lease nor the number of rows it changed, so what a `Begin` read before decides what it takes. -/
namespace SynapseGo.Idempotency
open SynapseGo.Go SynapseGo.Concurrency

variable {ι : Type}

def Creates (x : Event ι) (id : ℕ) : Prop :=
  match x.act with
  | ⟨.insert _, .ok id'⟩ => id' = id
  | _ => False

def Restarts (x : Event ι) (id : ℕ) : Prop :=
  match x.act with
  | ⟨.updateRestarted id' _ _ _, .ok _⟩ => id' = id
  | _ => False

/-- At the instant of this `Restart` of record `id` the stored record was in progress and its
lease had expired before the caller's `now`. -/
def TakesStale (x : Event ι) (id : ℕ) : Prop :=
  match x.act with
  | ⟨.updateRestarted id' _ _ now, .ok _⟩ => id' = id ∧ now ≤ x.env.now ∧
      ∃ row ∈ x.pre.byID id, row.status = .inProgress ∧ ∃ r ∈ row.runningExpiresAt, r < now
  | _ => False

instance (x : Event ι) (id : ℕ) : Decidable (Creates x id) := by
  unfold Creates
  split <;> infer_instance

instance (x : Event ι) (id : ℕ) : Decidable (TakesStale x id) := by
  unfold TakesStale
  split <;> infer_instance

/-- The operation completes record `id`, deletes it, or renews its lease to a time not before `now`. -/
def Disturbs (y : Event ι) (id : ℕ) (now : ℤ) : Prop :=
  match y.act with
  | ⟨.updateCompleted id' _ _ _, .ok _⟩ => id' = id
  | ⟨.updateRestarted id' _ running _, .ok _⟩ => id' = id ∧ now ≤ running
  | ⟨.deleteExpired _ _, .ok _⟩ => y.post.byID id = none
  | _ => False

/-- No call is disturbed between the read it bases a takeover on and its `Restart`. -/
def Undisturbed (log : List (Event ι)) : Prop :=
  ∀ a g m x b scope record hash running now, log = a ++ g :: (m ++ x :: b) → g.caller = x.caller →
    g.act = ⟨.selectFirst scope, .ok (some record)⟩ →
    x.act = ⟨.updateRestarted record.id hash running now, .ok ()⟩ → ∀ y ∈ m, ¬ Disturbs y record.id now

/-- Whenever `Begin` returns `Started` for a record it did not create itself, it took that record
over while its stored lease was expired; and no lease is taken over twice. -/
def ExclusiveTakeover (requests : ι → Request) (c : World ι) : Prop :=
  (∀ i input result, requests i = .begin input → c.Returned i (.begun (.ok result)) →
    result.started = true →
    (∃ x ∈ c.log, x.caller = i ∧ Creates x result.record.id) ∨
      ∃ x ∈ c.log, x.caller = i ∧ TakesStale x result.record.id) ∧
  ∀ a x m y b id, c.log = a ++ x :: (m ++ y :: b) → Restarts x id → Restarts y id →
    ∀ row row', x.pre.byID id = some row → y.pre.byID id = some row' →
      row.runningExpiresAt ≠ row'.runningExpiresAt

theorem restarts_iff {x : Event ι} {id : ℕ} : Restarts x id ↔
    ∃ hash running now, x.act = ⟨.updateRestarted id hash running now, .ok ()⟩ := by
  unfold Restarts
  constructor
  · intro h
    split at h
    · next ha =>
      subst h
      exact ⟨_, _, _, ha⟩
    · exact h.elim
  · rintro ⟨hash, running, now, ha⟩
    rw [ha]

theorem ClockMonotone.le {log a b : List (Event ι)} {x y : Event ι} (h : ClockMonotone log)
    (hl : log = a ++ x :: b) (hy : y ∈ b) : x.env.now ≤ y.env.now :=
  pairwise_iff_split.mp h a x b hl y hy

/-- The row a takeover is about: in progress, with a lease that expired before `now`. -/
private def Stale (id : ℕ) (now : ℤ) (t : Records) : Prop :=
  ∃ row ∈ t.byID id, row.status = .inProgress ∧ ∃ r ∈ row.runningExpiresAt, r < now

private theorem Stale.step {x : Event ι} {id : ℕ} {now : ℤ} (hx : x.Valid handle)
    (hd : ¬ Disturbs x id now) (h : Stale id now x.pre) : Stale id now x.post := by
  obtain ⟨row, hrow, hs, r, hr, hlt⟩ := h
  have hstep := RowStep.byID hx id
  rw [Option.mem_def.mp hrow] at hstep
  have hid : row.id = id := (Database.Table.byID_eq_some.mp hrow).2
  generalize hpost : x.post.byID id = o at hstep
  cases hstep with
  | same => exact ⟨row, hpost, hs, r, hr, hlt⟩
  | completed ha =>
    rw [hid] at ha
    exact absurd (by simp [Disturbs, ha]) hd
  | restarted ha hs' =>
    rw [hid] at ha
    refine ⟨_, hpost, hs, _, rfl, ?_⟩
    by_contra hlt'
    exact hd (by simpa [Disturbs, ha] using hlt')
  | deleted ha he => exact absurd (by simpa [Disturbs, ha] using hpost) hd

/-- After a takeover of a stale row the stored lease is later than the one it took. -/
theorem TakesStale.renewed {x : Event ι} {id : ℕ} (hx : x.Valid handle) (htake : TakesStale x id)
    (hrun : ∀ hash running now, x.act = ⟨.updateRestarted id hash running now, .ok ()⟩ → now < running)
    {row : Record} (hrow : x.pre.byID id = some row) :
    ∃ r, row.runningExpiresAt = some r ∧ ∀ row' ∈ x.post.byID id, ∀ r' ∈ row'.runningExpiresAt, r < r' := by
  unfold TakesStale at htake
  split at htake
  · next id' hash running now _ ha =>
    obtain ⟨rfl, -, row₁, hrow₁, hst, r, hr, hlt⟩ := htake
    cases hrow.symm.trans hrow₁
    have hid : row.id = id' := (Database.Table.byID_eq_some.mp hrow).2
    have hpost : x.post.byID id' = some (row.restart hash running now) := by
      rcases Event.updateRestarted hx ha with ⟨_, h, -⟩ | ⟨-, hp⟩
      · cases h
      · rw [hp, Database.Table.byID_update, hrow]
        simp [hid, hst]
    have hlater : r < running := lt_trans hlt (hrun _ _ _ ha)
    refine ⟨r, hr, ?_⟩
    rw [hpost]
    simpa [Record.restart] using hlater
  · exact htake.elim

/-- Along a log whose takeovers are all of stale rows, the lease of a record only moves forward. -/
private theorem lease_advances {log : List (Event ι)} {s t : Records} {id : ℕ} {r : ℤ}
    (hl : Exec handle s log t) (hstale : ∀ x ∈ log, Restarts x id → TakesStale x id)
    (hrun : ∀ x ∈ log, ∀ hash running now, x.act = ⟨.updateRestarted id hash running now, .ok ()⟩ →
      now ≤ running)
    (hid : id < s.nextID)
    (hs : ∀ row ∈ s.byID id, ∀ r' ∈ row.runningExpiresAt, r < r') :
    ∀ row ∈ t.byID id, ∀ r' ∈ row.runningExpiresAt, r < r' := by
  have key : id < t.nextID ∧ ∀ row ∈ t.byID id, ∀ r' ∈ row.runningExpiresAt, r < r' := by
    refine hl.invariant (P := fun s => id < s.nextID ∧
      ∀ row ∈ s.byID id, ∀ r' ∈ row.runningExpiresAt, r < r') ?_ ⟨hid, hs⟩
    intro x hx hv h
    refine Event.row_invariant hv ?_ ?_ h
    · intro r' status responseStatus responseBody hpre ha hlease
      simp [Record.complete]
    · intro row hash running now hpre hprogress ha hlease
      have htake := hstale x hx (restarts_iff.mpr ⟨_, _, _, ha⟩)
      unfold TakesStale at htake
      rw [ha] at htake
      obtain ⟨-, -, row', hrow', -, r', hr', hlt⟩ := htake
      have hbefore := h.2 row' hrow' r' hr'
      have hle := hrun x hx _ _ _ ha
      simp only [Record.restart, Option.mem_def, Option.some.injEq, forall_eq']
      omega
  exact key.2

section
variable [DecidableEq ι] {U : CaseTables} {requests : ι → Request} {t₀ : Records} {c : World ι}

/-- Every `Restart` in a log belongs to a `Begin` that read the record stale before. -/
theorem restart_origin (hs : Config.Sound handle (fun i => (requests i).call U) t₀ c)
    {a b : List (Event ι)} {x : Event ι} (hl : c.log = a ++ x :: b) {id : ℕ} {hash : GoString}
    {running now : ℤ} {reply : Except GoString Unit}
    (ha : x.act = ⟨.updateRestarted id hash running now, reply⟩) :
    ∃ input es record r t, requests x.caller = .begin input ∧
      history x.caller a = es ++ [⟨.selectFirst (input.normalize U).scope, .ok (some record)⟩,
        ⟨.now, t⟩, ⟨.now, now⟩] ∧
      id = record.id ∧ hash = (input.normalize U).requestHash ∧ running = now + runningTimeout ∧
      record.requestHash = hash ∧ record.status = .inProgress ∧
      record.runningExpiresAt = some r ∧ r < t := by
  have hop := requestOp_of_log hs hl
  rw [ha] at hop
  generalize hq : requests x.caller = q at hop
  generalize hist : history x.caller a = es at hop
  cases hop with
  | begin h =>
    cases h with
    | restart es record r t n reply hh hs hr ht =>
      exact ⟨_, es, record, r, t, rfl, rfl, rfl, rfl, rfl, hh, hs, hr, ht⟩

/-- An undisturbed takeover finds the stored record as stale as the copy it was decided on. -/
theorem takesStale_of_undisturbed (hs : Config.Sound handle (fun i => (requests i).call U) t₀ c)
    (hc : ClockMonotone c.log) (hu : Undisturbed c.log) {a b : List (Event ι)} {x : Event ι}
    (hl : c.log = a ++ x :: b) {id : ℕ} (hx : Restarts x id) : TakesStale x id := by
  obtain ⟨hash, running, now, ha⟩ := restarts_iff.mp hx
  obtain ⟨input, es, record, r, t, -, hist, rfl, -, -, -, hst, hr, hrt⟩ := restart_origin hs hl ha
  obtain ⟨a₁, g, m, rfl, hg, hgact, -, hm⟩ := exists_of_history_eq hist
  obtain ⟨m₁, yt, m₂, hm₁, -, hyt, -, hm₂⟩ := exists_of_history_cons hm
  obtain ⟨m₃, yn, m₄, rfl, -, hyn, -, -⟩ := exists_of_history_cons hm₂
  rw [List.append_assoc, List.cons_append] at hl
  have hexec := hs.exec
  rw [hl] at hexec
  obtain ⟨-, hgv, hexec⟩ := hexec.split
  obtain ⟨hexec, -, -⟩ := hexec.split
  have hread := Event.selectFirst hgv hgact
  have hfound : g.pre.byID record.id = some record := Database.Table.byID_of_byKey (hread.2 _ rfl)
  have hlt : c.log = (a₁ ++ g :: m₁) ++ yt :: (m₃ ++ yn :: (m₄ ++ x :: b)) := by simp [hl, hm₁]
  have hln : c.log = (a₁ ++ g :: (m₁ ++ yt :: m₃)) ++ yn :: (m₄ ++ x :: b) := by simp [hl, hm₁]
  have ht : t = yt.env.now := (Event.now (hs.exec.valid (by simp [hlt])) hyt).1
  have hn : now = yn.env.now := (Event.now (hs.exec.valid (by simp [hln])) hyn).1
  have htn : t ≤ now := by
    rw [ht, hn]
    exact hc.le hlt (by simp)
  have hnx : now ≤ x.env.now := by
    rw [hn]
    exact hc.le hln (by simp)
  have hstale : Stale record.id now g.post := by
    rw [hread.1]
    exact ⟨record, hfound, hst, r, hr, lt_of_lt_of_le hrt htn⟩
  have hquiet : ∀ y ∈ m, ¬ Disturbs y record.id now := hu a₁ g m x b _ record hash running now hl hg hgact ha
  have hpre : Stale record.id now x.pre :=
    hexec.invariant (fun y hy hv => Stale.step hv (hquiet y hy)) hstale
  unfold TakesStale
  rw [ha]
  exact ⟨rfl, hnx, hpre⟩

/-- A started `Begin` created its record or restarted it. -/
theorem begun_origin (hs : Config.Sound handle (fun i => (requests i).call U) t₀ c) {i : ι}
    {input : BeginInput} {result : BeginResult} (hi : requests i = .begin input)
    (hret : c.Returned i (.begun (.ok result))) (hstarted : result.started = true) :
    ∃ x ∈ c.log, x.caller = i ∧ (Creates x result.record.id ∨ Restarts x result.record.id) := by
  have hret := hs.returns hret
  simp only [hi] at hret
  obtain ⟨_, hout, hret⟩ := Request.returns_begin hret
  cases hout
  rcases BeginCourse.of_returns hret with ⟨-, -, hout⟩ | ⟨-, hcourse⟩
  · cases hout
  rcases hcourse.of_started hstarted with ⟨t, hes⟩ | ⟨hash, running, now, hm⟩
  · have hm : ⟨.insert ((input.normalize U).record t), .ok result.record.id⟩ ∈ history i c.log := by
      rw [hes]
      simp
    obtain ⟨x, hx, hxi, ha⟩ := mem_history.mp hm
    exact ⟨x, hx, hxi, Or.inl (by simp [Creates, ha])⟩
  · obtain ⟨x, hx, hxi, ha⟩ := mem_history.mp hm
    exact ⟨x, hx, hxi, Or.inr (restarts_iff.mpr ⟨_, _, _, ha⟩)⟩

/-- A `Restart` grants a lease that starts now. -/
theorem restart_running (hs : Config.Sound handle (fun i => (requests i).call U) t₀ c) {x : Event ι}
    (hx : x ∈ c.log) {id : ℕ} {hash : GoString} {running now : ℤ}
    (ha : x.act = ⟨.updateRestarted id hash running now, .ok ()⟩) : now < running := by
  obtain ⟨a, b, hl⟩ := List.append_of_mem hx
  obtain ⟨_, _, _, _, _, -, -, -, -, hrun, -⟩ := restart_origin hs hl ha
  rw [hrun, runningTimeout]
  omega

/-- No lease is taken over twice in a log whose takeovers are all of stale rows. -/
theorem lease_taken_once (hs : Config.Sound handle (fun i => (requests i).call U) t₀ c)
    (hstale : ∀ x ∈ c.log, ∀ id, Restarts x id → TakesStale x id) {a m b : List (Event ι)} {x y : Event ι}
    {id : ℕ} (hl : c.log = a ++ x :: (m ++ y :: b)) (hx : Restarts x id) {row row' : Record}
    (hrow : x.pre.byID id = some row) (hrow' : y.pre.byID id = some row') :
    row.runningExpiresAt ≠ row'.runningExpiresAt := by
  intro heq
  have hexec := hs.exec
  rw [hl] at hexec
  obtain ⟨-, hxv, hexec⟩ := hexec.split
  obtain ⟨hexec, -, -⟩ := hexec.split
  have hxmem : x ∈ c.log := mem_of_split hl
  have hmem : ∀ z ∈ m, z ∈ c.log := fun z hz => by simp [hl, hz]
  obtain ⟨r, hr, hahead⟩ := (hstale x hxmem id hx).renewed hxv
    (fun _ _ _ ha => restart_running hs hxmem ha) hrow
  have hnext : id < x.post.nextID := by
    obtain ⟨hin, rfl⟩ := Database.Table.byID_eq_some.mp hrow
    exact lt_of_lt_of_le (x.pre.id_lt row hin) (Event.nextID_le hxv)
  have hlast := lease_advances hexec (fun z hz => hstale z (hmem z hz) id)
    (fun z hz _ _ _ ha => (restart_running hs (hmem z hz) ha).le) hnext hahead
  exact lt_irrefl r (hlast row' hrow' r (heq ▸ hr))

end

/-- Undisturbed runs take over exclusively. -/
theorem begin_exclusiveTakeover [DecidableEq ι] (U : CaseTables) (requests : ι → Request)
    (t₀ : Records) (sched : List (ι × Env))
    (hc : ClockMonotone (world U requests t₀ sched).log)
    (hu : Undisturbed (world U requests t₀ sched).log) :
    ExclusiveTakeover requests (world U requests t₀ sched) := by
  have hs := world_sound U requests t₀ sched
  have hstale : ∀ x ∈ (world U requests t₀ sched).log, ∀ id, Restarts x id → TakesStale x id := by
    intro x hx id hr
    obtain ⟨a, b, hl⟩ := List.append_of_mem hx
    exact takesStale_of_undisturbed hs hc hu hl hr
  constructor
  · intro i input result hi hret hstarted
    obtain ⟨x, hx, hxi, hcreate | hrestart⟩ := begun_origin hs hi hret hstarted
    · exact Or.inl ⟨x, hx, hxi, hcreate⟩
    · exact Or.inr ⟨x, hx, hxi, hstale x hx _ hrestart⟩
  · intro a x m y b id hl hx _ row row' hrow hrow'
    exact lease_taken_once hs hstale hl hx hrow hrow'

/-- The operation can change or remove a stored record. -/
def Overwrites (y : Event ι) : Bool :=
  match y.act.1 with
  | .updateCompleted _ _ _ _ | .updateRestarted _ _ _ _ | .deleteExpired _ _ => true
  | _ => false

theorem Disturbs.overwrites {y : Event ι} {id : ℕ} {now : ℤ} (h : Disturbs y id now) :
    Overwrites y = true := by
  unfold Disturbs at h
  unfold Overwrites
  split at h
  · next ha => rw [ha]
  · next ha => rw [ha]
  · next ha => rw [ha]
  · exact h.elim

/-- A log whose last operation alone overwrites a record is undisturbed. -/
theorem undisturbed_of_overwrites_last {log : List (Event ι)}
    (h : log.Pairwise fun y _ => Overwrites y = false) : Undisturbed log := by
  intro a g m x b _ _ _ _ _ hl _ _ _ y hy hd
  rw [hl] at h
  have hm := (List.pairwise_cons.mp (List.pairwise_append.mp h).2.1).2
  have hyx := (List.pairwise_append.mp hm).2.2 y hy x List.mem_cons_self
  rw [hd.overwrites] at hyx
  cases hyx

/-- One `Begin` creates the record at second 0 and another takes it over at second 61. -/
def quietSchedule : List (ℕ × Env) :=
  [(0, atSecond 0), (0, atSecond 0), (0, atSecond 0), (1, atSecond 61), (1, atSecond 61),
    (1, atSecond 61), (1, atSecond 61)]

theorem quiet_takeover_exclusive :
    ExclusiveTakeover (fun _ : ℕ => .begin sampleInput)
      (world asciiTables (fun _ : ℕ => .begin sampleInput) (.empty schema) quietSchedule) := by
  apply begin_exclusiveTakeover
  · unfold ClockMonotone
    decide +kernel
  · apply undisturbed_of_overwrites_last
    decide +kernel

/-- One `Begin` creates the record at second 0; at second 61 two others read it stale before
either of them restarts it. -/
def racingSchedule : List (ℕ × Env) :=
  [(0, atSecond 0), (0, atSecond 0), (0, atSecond 0), (1, atSecond 61), (2, atSecond 61),
    (1, atSecond 61), (1, atSecond 61), (1, atSecond 61), (2, atSecond 61), (2, atSecond 61),
    (2, atSecond 61)]

def racingWorld : World ℕ :=
  world asciiTables (fun _ => .begin sampleInput) (.empty schema) racingSchedule

/-- Both racing calls return `Started`, the second one over a lease that runs until second 121. -/
theorem racing_takeover_not_exclusive : ClockMonotone racingWorld.log ∧
    ¬ ExclusiveTakeover (fun _ : ℕ => .begin sampleInput) racingWorld := by
  have hret : racingWorld.Returned 2 (.begun (.ok (.startedWith
      { sampleInput.record 0 with
        id := 1, updatedAt := 61 * 10 ^ 9, runningExpiresAt := some (121 * 10 ^ 9) }))) := by
    decide +kernel
  have hcreate : ∀ x ∈ racingWorld.log, ¬ (x.caller = 2 ∧ Creates x 1) := by decide +kernel
  have htake : ∀ x ∈ racingWorld.log, ¬ (x.caller = 2 ∧ TakesStale x 1) := by decide +kernel
  refine ⟨by unfold ClockMonotone; decide +kernel, fun h => ?_⟩
  rcases h.1 2 sampleInput _ rfl hret rfl with ⟨x, hx, h⟩ | ⟨x, hx, h⟩
  · exact hcreate x hx h
  · exact htake x hx h

end SynapseGo.Idempotency
