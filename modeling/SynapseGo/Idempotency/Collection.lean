import SynapseGo.Idempotency.System

/-! Whole calls executed one at a time, with a ledger of the `Started` grants they hand out.
`GCJob` looks at `expires_at` only, which `Restart` does not move. -/
namespace SynapseGo.Idempotency
open SynapseGo.Go SynapseGo.Concurrency

/-- A `Started` result obtained at `time`. -/
structure Grant where
  scope : Scope
  recordID : ℕ
  time : ℤ
  completed : Bool
  deriving DecidableEq, Repr

def Grant.Live (g : Grant) (t : ℤ) : Prop := t ≤ g.time + runningTimeout ∧ g.completed = false

instance (g : Grant) (t : ℤ) : Decidable (g.Live t) := inferInstanceAs (Decidable (_ ∧ _))

/-- One call, the instant it runs at, and which grants of its record a `Complete` completes: the
call itself names only the record. The instant is a whole millisecond, which the time columns hold
as it is; finer times are rounded when they are stored. -/
structure Move where
  request : Request
  env : Env
  settles : Grant → Bool
  whole : 10 ^ 6 ∣ env.now

structure Ledger where
  table : Records
  grants : List Grant

def Grant.settle (id : ℕ) (settles : Grant → Bool) (g : Grant) : Grant :=
  if g.recordID = id ∧ settles g = true then { g with completed := true } else g

def Ledger.step (U : CaseTables) (s : Ledger) (m : Move) : Ledger :=
  let r := (m.request.call U).run (handle m.env) s.table
  { table := r.2
    grants := match m.request, r.1 with
      | .begin _, .begun (.ok result) =>
        if result.started then s.grants ++ [⟨result.record.scope, result.record.id, m.env.now, false⟩]
        else s.grants
      | .complete id _ _ _, .done (.ok _) => s.grants.map (Grant.settle id m.settles)
      | _, _ => s.grants }

def Ledger.run (U : CaseTables) (s : Ledger) (moves : List Move) : Ledger :=
  moves.foldl (Ledger.step U) s

/-- No two grants of one scope are live at `t`. -/
def Ledger.Exclusive (s : Ledger) (t : ℤ) : Prop :=
  s.grants.Pairwise fun g g' => g.scope = g'.scope → ¬ (g.Live t ∧ g'.Live t)

/-- When `GCJob` runs, the record of a grant that is still live has not reached its `expires_at`. -/
def Ledger.Spares (s : Ledger) (m : Move) : Prop :=
  match m.request with
  | .gcJob _ => ∀ g ∈ s.grants, g.Live m.env.now →
      ∀ row ∈ s.table.byID g.recordID, m.env.now ≤ row.expiresAt
  | _ => True

instance (s : Ledger) (m : Move) : Decidable (s.Spares m) := by
  unfold Ledger.Spares
  split <;> infer_instance

/-- Every `GCJob` of the run spares the live grants. -/
def SparesLive (U : CaseTables) : Ledger → List Move → Prop
  | _, [] => True
  | s, m :: moves => s.Spares m ∧ SparesLive U (s.step U m) moves

instance decidableSparesLive (U : CaseTables) :
    (s : Ledger) → (moves : List Move) → Decidable (SparesLive U s moves)
  | _, [] => inferInstanceAs (Decidable True)
  | s, m :: moves =>
    have := decidableSparesLive U (s.step U m) moves
    inferInstanceAs (Decidable (_ ∧ _))

/-- What `decisionForExisting` does when nothing interferes. -/
theorem decisionForExisting_run {env : Env} {t : Records} {record : Record} (hash : GoString)
    (hf : env.fault = none) :
    let r := (Service.decisionForExisting record hash).run (handle env) t
    (r.2 = t ∧ ∀ result, r.1 = .ok result → result.started = false) ∨
      ∃ lease, record.status = .inProgress ∧ record.runningExpiresAt = some lease ∧ lease < env.now ∧
        r.1 = .ok (.startedWith
          { record with updatedAt := env.now, runningExpiresAt := some (env.now + runningTimeout) }) ∧
        r.2 = t.update (fun r => r.id = record.id ∧ r.status = .inProgress)
          (Record.restart hash (env.now + runningTimeout) env.now)
          (Record.restart_id hash (env.now + runningTimeout) env.now)
          (Record.restart_scope hash (env.now + runningTimeout) env.now) := by
  unfold Service.decisionForExisting
  split_ifs with hh
  · exact Or.inl ⟨rfl, by simp⟩
  · split
    next hs =>
      refine Or.inl ⟨rfl, ?_⟩
      rintro result ⟨⟩
      rfl
    next hs => exact Or.inl ⟨rfl, by simp⟩
    next hs =>
      split
      next hr => exact Or.inl ⟨rfl, by simp⟩
      next lease hr =>
        by_cases hlt : lease < env.now
        · refine Or.inr ⟨lease, hs, hr, hlt, ?_⟩
          simp [Repo.restart, handle, Database.faulty, hf, hlt]
        · refine Or.inl ?_
          simp [handle, hlt]

/-- What `Begin` does when nothing interferes: nothing, create the record, or take it over. -/
theorem begin_run (U : CaseTables) (input : BeginInput) (env : Env) (t : Records) :
    let x := input.normalize U
    let r := (Service.begin U input).run (handle env) t
    (r.2 = t ∧ ∀ result, r.1 = .ok result → result.started = false) ∨
      (∃ (hk : t.byKey (x.record env.now).scope = none) (result : BeginResult), r.1 = .ok result ∧
        result.started = true ∧ result.record.scope = x.scope ∧ result.record.id = t.nextID ∧
        r.2 = t.insert (x.record env.now) hk) ∨
      ∃ record lease, t.byKey x.scope = some record ∧ record.status = .inProgress ∧
        record.runningExpiresAt = some lease ∧ lease < env.now ∧
        r.1 = .ok (.startedWith
          { record with updatedAt := env.now, runningExpiresAt := some (env.now + runningTimeout) }) ∧
        r.2 = t.update (fun r => r.id = record.id ∧ r.status = .inProgress)
          (Record.restart x.requestHash (env.now + runningTimeout) env.now)
          (Record.restart_id x.requestHash (env.now + runningTimeout) env.now)
          (Record.restart_scope x.requestHash (env.now + runningTimeout) env.now) := by
  intro x r
  have hr : r = (Service.begin U input).run (handle env) t := rfl
  unfold Service.begin at hr
  dsimp only at hr
  split_ifs at hr with hv
  · rw [hr]
    exact Or.inl ⟨rfl, by simp⟩
  cases hf : env.fault with
  | some text =>
    have hr : r = (.error (.driver text), t) := by
      rw [hr]
      simp [Repo.get, handle, Database.faulty, hf]
    rw [hr]
    exact Or.inl ⟨rfl, by simp⟩
  | none =>
    rcases Option.eq_none_or_eq_some (t.byKey x.scope) with hk | ⟨record, hk⟩
    · have hk' : t.byKey (x.record env.now).scope = none := hk
      have hr : r = (.ok (.startedWith { x.record env.now with id := t.nextID }),
          t.insert (x.record env.now) hk') := by
        rw [hr]
        simp [Repo.get, Repo.create, handle, Database.faulty, hf, hk, hk', x]
      rw [hr]
      exact Or.inr (Or.inl ⟨hk', _, rfl, rfl, rfl, rfl, rfl⟩)
    · have hr : r = (Service.decisionForExisting record x.requestHash).run (handle env) t := by
        rw [hr]
        simp [Repo.get, handle, Database.faulty, hf, hk, x]
      rcases decisionForExisting_run x.requestHash hf with h | ⟨lease, h⟩
      · rw [hr]
        exact Or.inl h
      · rw [hr]
        exact Or.inr (Or.inr ⟨record, lease, hk, h⟩)

theorem complete_run (id : ℕ) (responseStatus : ℤ) (responseBody : GoString) (sensitive : Bool)
    (env : Env) (t : Records) :
    let r := (Service.complete id responseStatus responseBody sensitive).run (handle env) t
    let status := (Service.persisted responseBody sensitive).1
    let body := (Service.persisted responseBody sensitive).2
    (∃ e, r = (.error e, t)) ∨
      r = (.ok (), t.update (fun r => r.id = id) (Record.complete env.now status responseStatus body)
        (Record.complete_id env.now status responseStatus body)
        (Record.complete_scope env.now status responseStatus body)) := by
  intro r status body
  have hr : r = (Service.complete id responseStatus responseBody sensitive).run (handle env) t := rfl
  unfold Service.complete at hr
  split_ifs at hr
  · exact Or.inl ⟨_, hr⟩
  · cases hf : env.fault with
    | some text =>
      refine Or.inl ⟨.driver text, ?_⟩
      rw [hr]
      simp [Repo.complete, handle, Database.faulty, hf]
    | none =>
      refine Or.inr ?_
      rw [hr]
      simp [Repo.complete, handle, Database.faulty, hf, status, body]

theorem gcJob_run (payload : List (GoString × Job.Value)) (env : Env) (t : Records) :
    let r := (Service.gcJob payload).run (handle env) t
    r.2 = t ∨ ∃ limit, r.2 = t.delete fun r => r.id ∈ expiredIDs t env.now limit env.pick := by
  intro r
  have hr : r = (Service.gcJob payload).run (handle env) t := rfl
  unfold Service.gcJob Repo.deleteExpired at hr
  cases hf : env.fault with
  | some text =>
    refine Or.inl ?_
    rw [hr]
    simp [handle, Database.faulty, hf]
  | none =>
    let limit := Job.payloadInt payload (lit "limit") 1000
    refine Or.inr ⟨(if limit ≤ 0 ∨ 10000 < limit then 1000 else limit).toNat, ?_⟩
    rw [hr]
    simp [handle, Database.faulty, hf, limit]

/-- The record a live grant stands for: while it is in progress its lease is the grant's. -/
private def Backed (t : Records) (g : Grant) : Prop :=
  ∃ row, t.byKey g.scope = some row ∧ row.id = g.recordID ∧
    (row.status = .inProgress → row.runningExpiresAt = some (g.time + runningTimeout))

private structure Ledger.Inv (s : Ledger) (now : ℤ) : Prop where
  exclusive : s.Exclusive now
  backed : ∀ g ∈ s.grants, g.Live now → Backed s.table g

theorem Grant.Live.mono {g : Grant} {t t' : ℤ} (h : g.Live t') (ht : t ≤ t') : g.Live t :=
  ⟨ht.trans h.1, h.2⟩

theorem Ledger.Exclusive.mono {s : Ledger} {t t' : ℤ} (h : s.Exclusive t) (ht : t ≤ t') :
    s.Exclusive t' :=
  List.Pairwise.imp (fun hg hs hl => hg hs ⟨hl.1.mono ht, hl.2.mono ht⟩) h

private theorem Ledger.Inv.mono {s : Ledger} {t t' : ℤ} (h : s.Inv t) (ht : t ≤ t') : s.Inv t' :=
  ⟨h.exclusive.mono ht, fun g hg hl => h.backed g hg (hl.mono ht)⟩

/-- A grant for a scope without live grants joins the ledger. -/
private theorem Ledger.Inv.grant {s : Ledger} {t' : Records} {now : ℤ} {k : Scope} {id : ℕ}
    (h : s.Inv now) (hfree : ∀ g ∈ s.grants, g.scope = k → ¬ g.Live now)
    (hkeep : ∀ g ∈ s.grants, g.Live now → Backed t' g) (hnew : Backed t' ⟨k, id, now, false⟩) :
    Ledger.Inv ⟨t', s.grants ++ [⟨k, id, now, false⟩]⟩ now := by
  constructor
  · refine List.pairwise_append.mpr ⟨h.exclusive, List.pairwise_singleton _ _, ?_⟩
    intro g hg g' hg' hscope hlive
    rw [List.mem_singleton.mp hg'] at hscope
    exact hfree g hg hscope hlive.1
  · intro g hg hlive
    rcases List.mem_append.mp hg with hg | hg
    · exact hkeep g hg hlive
    · rw [List.mem_singleton.mp hg]
      exact hnew

/-- Two rows of one table with one id are found under one scope. -/
private theorem scope_eq_of_id_eq {t : Records} {k k' : Scope} {r r' : Record}
    (h : t.byKey k = some r) (h' : t.byKey k' = some r') (hid : r.id = r'.id) : k = k' := by
  have hr := Database.Table.byID_of_byKey h
  have hr' := Database.Table.byID_of_byKey h'
  have hid : schema.id r = schema.id r' := hid
  rw [hid] at hr
  cases hr.symm.trans hr'
  exact (Database.Table.byKey_eq_some.mp h).2.symm.trans (Database.Table.byKey_eq_some.mp h').2

private theorem Ledger.step_begin {s : Ledger} {m : Move} {U : CaseTables} {input : BeginInput}
    (hm : m.request = .begin input) {out : Except Err BeginResult} {t' : Records}
    (hrun : (Service.begin U input).run (handle m.env) s.table = (out, t')) :
    s.step U m = ⟨t', match out with
      | .ok result => if result.started then
          s.grants ++ [⟨result.record.scope, result.record.id, m.env.now, false⟩] else s.grants
      | .error _ => s.grants⟩ := by
  unfold Ledger.step
  rw [hm]
  simp only [Request.call, Prog.run_bind, Prog.pure_eq_ret, Prog.run_ret, hrun]
  cases out <;> rfl

/-- A record that did not exist is granted to its creator. -/
private theorem Ledger.Inv.created {s : Ledger} {now : ℤ} (h : s.Inv now) (x : BeginInput)
    (hk : s.table.byKey (x.record now).scope = none) :
    Ledger.Inv ⟨s.table.insert (x.record now) hk,
      s.grants ++ [⟨x.scope, s.table.nextID, now, false⟩]⟩ now := by
  have hfree : ∀ g ∈ s.grants, g.scope = x.scope → ¬ g.Live now := by
    intro g hg hscope hlive
    obtain ⟨row, hrow, -⟩ := h.backed g hg hlive
    rw [hscope] at hrow
    cases hrow.symm.trans hk
  refine h.grant hfree ?_ ?_
  · intro g hg hlive
    obtain ⟨row, hrow, hrest⟩ := h.backed g hg hlive
    refine ⟨row, ?_, hrest⟩
    rw [Database.Table.byKey_insert, if_neg]
    · exact hrow
    · exact fun hscope => hfree g hg hscope hlive
  · refine ⟨schema.withID (x.record now) s.table.nextID, ?_, rfl, fun _ => rfl⟩
    rw [Database.Table.byKey_insert]
    exact if_pos rfl

/-- A record whose lease has run out is granted anew. -/
private theorem Ledger.Inv.takenOver {s : Ledger} {now lease : ℤ} {k : Scope} {record : Record}
    (h : s.Inv now) (hk : s.table.byKey k = some record) (hst : record.status = .inProgress)
    (hr : record.runningExpiresAt = some lease) (hlt : lease < now) (hash : GoString) :
    Ledger.Inv ⟨s.table.update (fun r => r.id = record.id ∧ r.status = .inProgress)
        (Record.restart hash (now + runningTimeout) now)
        (Record.restart_id hash (now + runningTimeout) now)
        (Record.restart_scope hash (now + runningTimeout) now),
      s.grants ++ [⟨k, record.id, now, false⟩]⟩ now := by
  have hfree : ∀ g ∈ s.grants, g.scope = k → ¬ g.Live now := by
    intro g hg hscope hlive
    obtain ⟨row, hrow, -, hlease⟩ := h.backed g hg hlive
    rw [hscope, hk] at hrow
    cases hrow
    have heq := hlease hst
    rw [hr] at heq
    cases heq
    have hle := hlive.1
    omega
  refine h.grant hfree ?_ ?_
  · intro g hg hlive
    obtain ⟨row, hrow, hrest⟩ := h.backed g hg hlive
    have hne : ¬ (row.id = record.id ∧ row.status = .inProgress) := fun hid =>
      hfree g hg (scope_eq_of_id_eq hrow hk hid.1) hlive
    refine ⟨row, ?_, hrest⟩
    rw [Database.Table.byKey_update, hrow]
    simp [hne]
  · refine ⟨record.restart hash (now + runningTimeout) now, ?_, rfl, fun _ => rfl⟩
    rw [Database.Table.byKey_update, hk]
    simp [hst]

private theorem Ledger.Inv.begin {s : Ledger} {m : Move} (h : s.Inv m.env.now) (U : CaseTables)
    {input : BeginInput} (hm : m.request = .begin input) : (s.step U m).Inv m.env.now := by
  have hspec := begin_run U input m.env s.table
  generalize hrun : (Service.begin U input).run (handle m.env) s.table = r at hspec
  obtain ⟨out, t'⟩ := r
  rw [Ledger.step_begin hm hrun]
  rcases hspec with ⟨rfl, hidle⟩ | ⟨hk, result, rfl, hst, hscope, hid, rfl⟩ |
    ⟨record, lease, hk, hst, hr, hlt, rfl, rfl⟩
  · cases out with
    | error e => exact h
    | ok result =>
      simp only [hidle result rfl]
      exact h
  · simp only [hst, hscope, hid, if_true]
    exact h.created (input.normalize U) hk
  · have hscope : record.scope = (input.normalize U).scope := (Database.Table.byKey_eq_some.mp hk).2
    simp only [BeginResult.startedWith, if_true, hscope]
    exact h.takenOver hk hst hr hlt (input.normalize U).requestHash

theorem Grant.Live.of_settle {g : Grant} {id : ℕ} {settles : Grant → Bool} {t : ℤ}
    (h : (g.settle id settles).Live t) : g.Live t := by
  unfold Grant.settle at h
  split_ifs at h
  · exact absurd h.2 (by simp)
  · exact h

theorem Grant.scope_settle (g : Grant) (id : ℕ) (settles : Grant → Bool) :
    (g.settle id settles).scope = g.scope := by
  unfold Grant.settle
  split_ifs <;> rfl

private theorem Ledger.Inv.complete {s : Ledger} {m : Move} (h : s.Inv m.env.now) (U : CaseTables)
    {id : ℕ} {responseStatus : ℤ} {responseBody : GoString} {sensitive : Bool}
    (hm : m.request = .complete id responseStatus responseBody sensitive) :
    (s.step U m).Inv m.env.now := by
  unfold Ledger.step
  rw [hm]
  simp only [Request.call, Prog.run_bind, Prog.pure_eq_ret, Prog.run_ret]
  rcases complete_run id responseStatus responseBody sensitive m.env s.table with ⟨e, hr⟩ | hr
  · rw [hr]
    exact h
  · rw [hr]
    constructor
    · refine List.pairwise_map.mpr (List.Pairwise.imp ?_ h.exclusive)
      intro g g' hg hscope hlive
      rw [Grant.scope_settle, Grant.scope_settle] at hscope
      exact hg hscope ⟨hlive.1.of_settle, hlive.2.of_settle⟩
    · intro g' hg' hlive
      obtain ⟨g, hg, rfl⟩ := List.mem_map.mp hg'
      have hsame : g.settle id m.settles = g := by
        unfold Grant.settle at hlive ⊢
        split_ifs at hlive ⊢
        · exact absurd hlive.2 (by simp)
        · rfl
      rw [hsame] at hlive ⊢
      obtain ⟨row, hrow, hid, hlease⟩ := h.backed g hg hlive
      by_cases hrid : row.id = id
      · refine ⟨row.complete m.env.now (Service.persisted responseBody sensitive).1 responseStatus
          (Service.persisted responseBody sensitive).2, ?_, hid, ?_⟩
        · rw [Database.Table.byKey_update, hrow]
          simp [hrid]
        · exact fun hst => absurd hst (Service.persisted_ne_inProgress _ _)
      · refine ⟨row, ?_, hid, hlease⟩
        rw [Database.Table.byKey_update, hrow]
        simp [hrid]

private theorem Ledger.Inv.gcJob {s : Ledger} {m : Move} (h : s.Inv m.env.now) (U : CaseTables)
    {payload : List (GoString × Job.Value)} (hm : m.request = .gcJob payload) (hs : s.Spares m) :
    (s.step U m).Inv m.env.now := by
  unfold Ledger.Spares at hs
  unfold Ledger.step
  rw [hm] at hs ⊢
  simp only [Request.call, Prog.run_bind, Prog.pure_eq_ret, Prog.run_ret]
  rcases gcJob_run payload m.env s.table with ht | ⟨limit, ht⟩
  · rw [ht]
    exact h
  · rw [ht]
    refine ⟨h.exclusive, ?_⟩
    intro g hg hlive
    obtain ⟨row, hrow, hid, hlease⟩ := h.backed g hg hlive
    have hfound : s.table.byID g.recordID = some row := hid ▸ Database.Table.byID_of_byKey hrow
    have hkept : row.id ∉ expiredIDs s.table m.env.now limit m.env.pick := by
      intro hm
      have hlt := expired_of_mem (Database.Table.byKey_eq_some.mp hrow).1 hm
      have hle := hs g hg hlive row hfound
      omega
    refine ⟨row, ?_, hid, hlease⟩
    rw [Database.Table.byKey_delete, hrow]
    simp [hkept]

private theorem Ledger.Inv.step {s : Ledger} {m : Move} (h : s.Inv m.env.now) (U : CaseTables)
    (hs : s.Spares m) : (s.step U m).Inv m.env.now := by
  cases hm : m.request with
  | begin input => exact h.begin U hm
  | complete id responseStatus responseBody sensitive => exact h.complete U hm
  | gcJob payload => exact h.gcJob U hm hs

private theorem Ledger.Inv.run {U : CaseTables} {moves : List Move} {t : ℤ}
    (ht : ∀ m ∈ moves, m.env.now ≤ t) (hclock : moves.Pairwise fun m m' => m.env.now ≤ m'.env.now) :
    ∀ {s : Ledger} {now : ℤ}, s.Inv now → (∀ m ∈ moves, now ≤ m.env.now) → now ≤ t →
      SparesLive U s moves → (s.run U moves).Exclusive t := by
  induction moves with
  | nil => exact fun h _ hle _ => h.exclusive.mono hle
  | cons m moves ih =>
    intro s now h hnow _ hspare
    obtain ⟨hm, hclock⟩ := List.pairwise_cons.mp hclock
    have hstep := (h.mono (hnow m List.mem_cons_self)).step U hspare.1
    exact ih (fun m' hm' => ht m' (List.mem_cons_of_mem _ hm')) hclock hstep hm
      (ht m List.mem_cons_self) hspare.2

/-- In every run that collects no record of a live grant, no scope ever has two live grants. -/
theorem grants_exclusive (U : CaseTables) (t₀ : Records) (moves : List Move)
    (hclock : moves.Pairwise fun m m' => m.env.now ≤ m'.env.now)
    (hspare : SparesLive U ⟨t₀, []⟩ moves) (t : ℤ) (ht : ∀ m ∈ moves, m.env.now ≤ t) :
    (Ledger.run U ⟨t₀, []⟩ moves).Exclusive t := by
  have hempty : ∀ now, Ledger.Inv ⟨t₀, []⟩ now := fun now => ⟨List.Pairwise.nil, by simp⟩
  cases moves with
  | nil => exact List.Pairwise.nil
  | cons m moves =>
    refine Ledger.Inv.run ht hclock (hempty m.env.now) ?_ (ht m List.mem_cons_self) hspare
    intro m' hm'
    rcases List.mem_cons.mp hm' with rfl | hm'
    · exact le_rfl
    · exact (List.pairwise_cons.mp hclock).1 m' hm'

/-- A call at second `s`. -/
def Request.moveAt (r : Request) (s : ℤ) : Move where
  request := r
  env := ⟨s * 10 ^ 9, none, []⟩
  settles := fun _ => false
  whole := Dvd.dvd.mul_left (by decide) s

def beginAt (s : ℤ) : Move := (Request.begin sampleInput).moveAt s

def collectAt (s : ℤ) : Move := (Request.gcJob []).moveAt s

theorem patient_collection_exclusive :
    (Ledger.run asciiTables ⟨.empty schema, []⟩
      [beginAt 0, collectAt 60, beginAt 61, collectAt 86401, beginAt 86402]).Exclusive
        (86402 * 10 ^ 9) := by
  apply grants_exclusive
  · decide +kernel
  · decide +kernel
  · decide +kernel

/-- A record created at second 0 is taken over one second before its `expires_at`; the collection
one second after that instant deletes it, and the next `Begin` starts a second execution. -/
theorem collected_takeover_not_exclusive :
    let moves := [beginAt 0, beginAt 86399, collectAt 86401, beginAt 86402]
    moves.Pairwise (fun m m' => m.env.now ≤ m'.env.now) ∧ (∀ m ∈ moves, m.env.now ≤ 86402 * 10 ^ 9) ∧
      ¬ (Ledger.run asciiTables ⟨.empty schema, []⟩ moves).Exclusive (86402 * 10 ^ 9) := by
  refine ⟨by decide +kernel, by decide +kernel, ?_⟩
  unfold Ledger.Exclusive
  decide +kernel

end SynapseGo.Idempotency
