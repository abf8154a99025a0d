import SynapseGo.Idempotency.System

/-! Finished records. `Complete` selects its row by id alone, so a finished record is final
exactly as long as late executors write the outcome that is already there. -/
namespace SynapseGo.Idempotency
open SynapseGo.Go SynapseGo.Concurrency

variable {ι : Type}

def Record.Finished (r : Record) : Prop := r.status ≠ .inProgress

instance (r : Record) : Decidable r.Finished := inferInstanceAs (Decidable (_ ≠ _))

/-- What the execution of a request left behind. -/
def Record.outcome (r : Record) : Status × Option ℤ × Option GoString :=
  (r.status, r.responseStatus, r.responseBody)

/-- A finished record keeps its outcome for as long as it is stored. -/
def OutcomesFinal (t₀ : Records) (log : List (Event ι)) : Prop :=
  ∀ a m b s s' id row row', log = a ++ (m ++ b) → Exec handle t₀ a s → Exec handle s m s' →
    s.byID id = some row → row.Finished → s'.byID id = some row' → row'.outcome = row.outcome

/-- Any two replays of one record show the same response. -/
def ReplaysAgree (c : World ι) : Prop :=
  ∀ i j result result', c.Returned i (.begun (.ok result)) → c.Returned j (.begun (.ok result')) →
    result.replay = true → result'.replay = true → result.record.id = result'.record.id →
    result.responseStatus = result'.responseStatus ∧ result.responseBody = result'.responseBody

/-- No `Begin` that starts after a sensitive `Complete` of a stored record replays that record. -/
def SensitiveHidden [DecidableEq ι] (c : World ι) : Prop :=
  ∀ a x b id responseStatus responseBody i result, c.log = a ++ x :: b →
    x.act = ⟨.updateCompleted id .completedSensitive responseStatus responseBody, .ok ()⟩ →
    x.pre.byID id ≠ none → history i a = [] → c.Returned i (.begun (.ok result)) →
    result.replay = true → result.record.id ≠ id

/-- A `Complete` that finds its record finished writes the outcome that is already there. -/
def Confirms (x : Event ι) : Prop :=
  match x.act with
  | ⟨.updateCompleted id status responseStatus responseBody, .ok _⟩ =>
    ∀ row ∈ x.pre.byID id, row.Finished → row.outcome = (status, some responseStatus, some responseBody)
  | _ => True

instance (x : Event ι) : Decidable (Confirms x) := by
  obtain ⟨_, _, ⟨sql, reply⟩, _, _⟩ := x
  unfold Confirms
  cases sql with
  | updateCompleted => cases reply <;> infer_instance
  | _ => infer_instance

private def Settled (id : ℕ) (o : Status × Option ℤ × Option GoString) (t : Records) : Prop :=
  id < t.nextID ∧ ∀ row ∈ t.byID id, row.Finished ∧ row.outcome = o

private theorem Settled.of_byID {t : Records} {id : ℕ} {row : Record} (h : t.byID id = some row)
    (hf : row.Finished) : Settled id row.outcome t := by
  refine ⟨Database.Table.lt_nextID_of_byID h, fun row' hrow' => ?_⟩
  cases h.symm.trans hrow'
  exact ⟨hf, rfl⟩

private theorem Settled.step {x : Event ι} {id : ℕ} {o : Status × Option ℤ × Option GoString}
    (hx : x.Valid handle) (hc : Confirms x) (h : Settled id o x.pre) : Settled id o x.post := by
  refine Event.row_invariant hx ?_ ?_ h
  · intro r status responseStatus responseBody hpre ha hsettled
    obtain ⟨hf, ho⟩ := hsettled
    unfold Confirms at hc
    rw [ha] at hc
    have hw := hc r hpre hf
    constructor
    · have hs : r.status = status := congrArg Prod.fst hw
      unfold Record.Finished at hf ⊢
      rwa [hs] at hf
    · rw [← ho, hw]
      rfl
  · intro r hash running now hpre hs ha hsettled
    exact absurd hs hsettled.1

theorem outcomesFinal_of_confirms (t₀ : Records) {log : List (Event ι)} (hc : ∀ x ∈ log, Confirms x) :
    OutcomesFinal t₀ log := by
  intro a m b s s' id row row' hl _ hm hrow hf hrow'
  have h : Settled id row.outcome s' := by
    refine hm.invariant (fun x hx hv => Settled.step hv (hc x ?_)) (Settled.of_byID hrow hf)
    rw [hl]
    simp [hx]
  exact (h.2 row' hrow').2

/-- The row a successful `Complete` leaves behind. -/
theorem byID_post_of_completed {x : Event ι} (hx : x.Valid handle) {id : ℕ} {status : Status}
    {responseStatus : ℤ} {responseBody : GoString}
    (ha : x.act = ⟨.updateCompleted id status responseStatus responseBody, .ok ()⟩) {row : Record}
    (hrow : x.pre.byID id = some row) :
    x.post.byID id = some (row.complete x.env.now status responseStatus responseBody) := by
  have hid : row.id = id := (Database.Table.byID_eq_some.mp hrow).2
  rcases Event.updateCompleted hx ha with ⟨_, h, -⟩ | ⟨-, hp⟩
  · cases h
  · rw [hp, Database.Table.byID_update, hrow]
    simp [hid]

section
variable [DecidableEq ι] {U : CaseTables} {requests : ι → Request} {t₀ : Records} {c : World ι}

theorem confirms_of_outcomesFinal (hs : Config.Sound handle (fun i => (requests i).call U) t₀ c)
    (hf : OutcomesFinal t₀ c.log) : ∀ x ∈ c.log, Confirms x := by
  intro x hx
  obtain ⟨a, b, hl⟩ := List.append_of_mem hx
  have hexec := hs.exec
  rw [hl] at hexec
  obtain ⟨ha, hv, -⟩ := hexec.split
  unfold Confirms
  split
  · next id status responseStatus responseBody _ hact =>
    intro row hrow hfin
    have hpost := byID_post_of_completed hv hact hrow
    have hm : Exec handle x.pre [x] x.post := ⟨rfl, hv, rfl⟩
    exact (hf a [x] b _ _ id row _ hl ha hm hrow hfin hpost).symm
  · trivial

/-- The place in the log where a replayed record was read. -/
theorem replay_origin (hs : Config.Sound handle (fun i => (requests i).call U) t₀ c) {i : ι}
    {result : BeginResult} (hret : c.Returned i (.begun (.ok result))) (hr : result.replay = true) :
    ∃ g ∈ c.log, ∃ scope record, g.caller = i ∧ g.act = ⟨.selectFirst scope, .ok (some record)⟩ ∧
      g.pre.byID record.id = some record ∧ record.status = .completed ∧ result = .replayOf record := by
  obtain ⟨input, -, hret⟩ := Request.begin_of_returns_begun (hs.returns hret)
  rcases BeginCourse.of_returns hret with ⟨-, -, hout⟩ | ⟨-, hcourse⟩
  · cases hout
  obtain ⟨es₀, record, hes, -, hst, hres⟩ := hcourse.of_replay hr
  obtain ⟨a, g, b, hl, hg, hact, -, -⟩ := exists_of_history_eq hes
  have hmem : g ∈ c.log := by
    rw [hl]
    simp
  have hread := (Event.selectFirst (hs.exec.valid hmem) hact).2 _ rfl
  exact ⟨g, hmem, _, record, hg, hact, Database.Table.byID_of_byKey hread, hst, hres⟩

theorem OutcomesFinal.outcome_eq (hs : Config.Sound handle (fun i => (requests i).call U) t₀ c)
    (hf : OutcomesFinal t₀ c.log) {x y : Event ι} {a m b : List (Event ι)}
    (hl : c.log = a ++ x :: (m ++ y :: b)) {id : ℕ} {row row' : Record} (hx : x.pre.byID id = some row)
    (hfin : row.Finished) (hy : y.pre.byID id = some row') : row'.outcome = row.outcome := by
  have hexec := hs.exec
  rw [hl] at hexec
  obtain ⟨ha, hv, hexec⟩ := hexec.split
  obtain ⟨hm, -, -⟩ := hexec.split
  exact hf a (x :: m) (y :: b) _ _ id row row' hl ha ⟨rfl, hv, hm⟩ hx hfin hy

theorem replaysAgree_of_outcomesFinal (hs : Config.Sound handle (fun i => (requests i).call U) t₀ c)
    (hf : OutcomesFinal t₀ c.log) : ReplaysAgree c := by
  intro i j result result' hi hj hr hr' hid
  obtain ⟨g, hg, _, record, -, -, hrow, hst, rfl⟩ := replay_origin hs hi hr
  obtain ⟨g', hg', _, record', -, -, hrow', hst', rfl⟩ := replay_origin hs hj hr'
  have hid : record.id = record'.id := hid
  rw [← hid] at hrow'
  have hfin : record.Finished := by simp [Record.Finished, hst]
  have hfin' : record'.Finished := by simp [Record.Finished, hst']
  have hout : record.outcome = record'.outcome := by
    rcases exists_split_of_mem hg hg' with rfl | ⟨a, m, b, hl⟩ | ⟨a, m, b, hl⟩
    · cases hrow.symm.trans hrow'
      rfl
    · exact (hf.outcome_eq hs hl hrow hfin hrow').symm
    · exact hf.outcome_eq hs hl hrow' hfin' hrow
  obtain ⟨-, hstatus, hbody⟩ : record.status = record'.status ∧
      record.responseStatus = record'.responseStatus ∧ record.responseBody = record'.responseBody := by
    simpa only [Record.outcome, Prod.mk.injEq] using hout
  simp only [BeginResult.replayOf, hstatus, hbody, and_self]

theorem sensitiveHidden_of_outcomesFinal (hs : Config.Sound handle (fun i => (requests i).call U) t₀ c)
    (hf : OutcomesFinal t₀ c.log) : SensitiveHidden c := by
  intro a x b id responseStatus responseBody i result hl hact hstored hi hret hr hid
  obtain ⟨g, hg, scope, record, hgi, hgact, hread, hst, rfl⟩ := replay_origin hs hret hr
  have hexec := hs.exec
  rw [hl] at hexec hg
  obtain ⟨ha, hv, hexec⟩ := hexec.split
  obtain ⟨row, hrow⟩ := Option.ne_none_iff_exists'.mp hstored
  have hpost := byID_post_of_completed hv hact hrow
  have hgb : g ∈ b := by
    rcases List.mem_append.mp hg with hga | hgx
    · have hm : g.act ∈ history i a := mem_history.mpr ⟨g, hga, hgi, rfl⟩
      rw [hi] at hm
      cases hm
    · rcases List.mem_cons.mp hgx with rfl | hgb
      · rw [hact] at hgact
        cases hgact
      · exact hgb
  obtain ⟨b₁, b₂, rfl⟩ := List.append_of_mem hgb
  obtain ⟨hm, -, -⟩ := hexec.split
  have hax : Exec handle t₀ (a ++ [x]) x.post := ha.append ⟨rfl, hv, rfl⟩
  have hread : g.pre.byID id = some record := hid ▸ hread
  have hout := hf (a ++ [x]) b₁ (g :: b₂) _ _ id _ _ (by rw [hl, List.append_assoc, List.singleton_append])
    hax hm hpost (by simp [Record.Finished, Record.complete]) hread
  have hstatus := congrArg Prod.fst hout
  simp [Record.outcome, Record.complete, hst] at hstatus

end

/-- Records are final exactly in the runs whose repeated completions change nothing. -/
theorem finished_final_iff_confirms [DecidableEq ι] (U : CaseTables) (requests : ι → Request)
    (t₀ : Records) (sched : List (ι × Env)) :
    let c := world U requests t₀ sched
    (OutcomesFinal t₀ c.log ∧ ReplaysAgree c ∧ SensitiveHidden c) ↔ ∀ x ∈ c.log, Confirms x := by
  intro c
  have hs := world_sound U requests t₀ sched
  constructor
  · rintro ⟨hf, -, -⟩
    exact confirms_of_outcomesFinal hs hf
  · intro hc
    have hf := outcomesFinal_of_confirms t₀ hc
    exact ⟨hf, replaysAgree_of_outcomesFinal hs hf, sensitiveHidden_of_outcomesFinal hs hf⟩

/-- Two executions of one record: the second completes it as sensitive, and then the timed-out
first one completes it again. -/
def lateRequests : ℕ → Request
  | 2 => .complete 1 200 (lit "secret") true
  | 3 => .complete 1 200 (lit "late") false
  | _ => .begin sampleInput

def lateSchedule : List (ℕ × Env) :=
  [(0, atSecond 0), (0, atSecond 0), (0, atSecond 0), (1, atSecond 61), (1, atSecond 61),
    (1, atSecond 61), (1, atSecond 61), (2, atSecond 62), (3, atSecond 63), (4, atSecond 64)]

/-- The late completion overwrites the sensitive record, and the last `Begin` replays its body. -/
theorem late_completion_not_final :
    let c := world asciiTables lateRequests (.empty schema) lateSchedule
    (∃ result, c.Returned 4 (.begun (.ok result)) ∧ result.replay = true ∧
      result.record.id = 1 ∧ result.responseBody = lit "late") ∧
    ¬ (OutcomesFinal (.empty schema) c.log ∧ ReplaysAgree c ∧ SensitiveHidden c) := by
  intro c
  have hret : c.Returned 4 (.begun (.ok (.replayOf
      { sampleInput.record 0 with
        id := 1
        status := .completed
        responseStatus := some 200
        responseBody := some (lit "late")
        updatedAt := 63 * 10 ^ 9
        runningExpiresAt := none }))) := by
    decide +kernel
  have hlate : ¬ ∀ x ∈ c.log, Confirms x := by decide +kernel
  refine ⟨⟨_, hret, rfl, rfl, rfl⟩, fun h => hlate ?_⟩
  exact confirms_of_outcomesFinal (world_sound _ _ _ _) h.1

end SynapseGo.Idempotency
