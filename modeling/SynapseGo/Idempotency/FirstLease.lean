import SynapseGo.Idempotency.System

/-! The first lease of a scope: any number of requests race through `Begin` on a scope without a
record, and the one that started completes it. -/
namespace SynapseGo.Idempotency
open SynapseGo.Go SynapseGo.Concurrency

variable {ι : Type} [DecidableEq ι]

abbrev ServeWorld (ι : Type) := Config ι Sql Reply Env Records (Except Err BeginResult)

/-- Where a schedule leads the requests `inputs`, each answered by its handler with `responses`. -/
def serveWorld (U : CaseTables) (inputs : ι → BeginInput) (responses : ι → Response) (t₀ : Records)
    (sched : List (ι × Env)) : ServeWorld ι :=
  (Config.start (fun i => serve U (inputs i) (responses i)) t₀).run handle sched

/-- The `Begin` of request `i` has returned `out`. -/
def Begun (U : CaseTables) (inputs : ι → BeginInput) (log : List (Event ι)) (i : ι)
    (out : Except Err BeginResult) : Prop :=
  ∃ es es', history i log = es ++ es' ∧ (Service.begin U (inputs i)).Returns es out

/-- The `Begin` of request `i` has returned `Started`. -/
def BegunStarted (U : CaseTables) (inputs : ι → BeginInput) (log : List (Event ι)) (i : ι) : Prop :=
  ∃ result, Begun U inputs log i (.ok result) ∧ result.started = true

/-- The `Complete` of request `s` has taken effect. -/
def CompletedBy (s : ι) (log : List (Event ι)) : Prop :=
  ∃ x ∈ log, x.caller = s ∧ ∃ id status responseStatus responseBody,
    x.act = ⟨.updateCompleted id status responseStatus responseBody, .ok ()⟩

def trimmedHash (U : CaseTables) (inputs : ι → BeginInput) (i : ι) : GoString :=
  ((inputs i).normalize U).requestHash

/-- What a `Begin` returns that lost the scope to request `s`. Its last `Get` decides. -/
def LosesTo (U : CaseTables) (inputs : ι → BeginInput) (responses : ι → Response)
    (log : List (Event ι)) (s i : ι) (out : Except Err BeginResult) : Prop :=
  if trimmedHash U inputs i ≠ trimmedHash U inputs s then out = .error .requestMismatch
  else ∃ a g b scope record, log = a ++ g :: b ∧ g.caller = i ∧
    g.act = ⟨.selectFirst scope, .ok (some record)⟩ ∧
    (∀ y ∈ b, y.caller = i → ∀ scope reply, y.act ≠ ⟨.selectFirst scope, reply⟩) ∧
    (¬ CompletedBy s a ∧ out = .error .requestInProcess ∨
      CompletedBy s a ∧ out = if (responses s).sensitive then .error .sensitiveResponse
        else .ok ⟨record, false, true, (responses s).status, (responses s).body⟩)

/-- The `RunningExpiresAt` of the record this operation created. -/
def createdLease (x : Event ι) : Option ℤ :=
  match x.act with
  | ⟨.insert record, .ok _⟩ => record.runningExpiresAt
  | _ => none

/-- Valid requests on one free scope, without driver faults, and with no clock reading after the
lease of the created record. -/
structure Contention (U : CaseTables) (inputs : ι → BeginInput) (k : Scope) (t₀ : Records)
    (log : List (Event ι)) : Prop where
  valid : ∀ i, ((inputs i).normalize U).valid = true
  scope : ∀ i, ((inputs i).normalize U).scope = k
  free : t₀.byKey k = none
  faultless : ∀ x ∈ log, x.env.fault = none
  unexpired : ∀ x ∈ log, ∀ r ∈ createdLease x, ∀ y ∈ log, y.env.now ≤ r

structure FirstLease (U : CaseTables) (inputs : ι → BeginInput) (responses : ι → Response)
    (log : List (Event ι)) : Prop where
  atMostOne : ∀ i j, BegunStarted U inputs log i → BegunStarted U inputs log j → i = j
  exactlyOne : Nonempty ι → (∀ i, ∃ out, Begun U inputs log i out) → ∃! i, BegunStarted U inputs log i
  others : ∀ i out, Begun U inputs log i out → (∀ result, out = .ok result → result.started = false) →
    ∃ s, BegunStarted U inputs log s ∧ LosesTo U inputs responses log s i out
  sameHash : ∀ s i result, BegunStarted U inputs log s → Begun U inputs log i (.ok result) →
    result.started = true ∨ result.replay = true → trimmedHash U inputs i = trimmedHash U inputs s

/-- The operations of a request: those of its `Begin`, and the update of a started record. -/
theorem serve_split {U : CaseTables} {input : BeginInput} {response : Response}
    {es es' : List (Σ e, Reply e)} {y : Σ e, Reply e} {q : Call (Except Err BeginResult)}
    (h : (serve U input response).Path (es ++ y :: es') q) :
    (∃ es₁ p, (Service.begin U input).Path (es ++ y :: es₁) p) ∨
      ∃ result reply, (Service.begin U input).Returns es (.ok result) ∧ result.replay = false ∧
        y = ⟨.updateCompleted result.record.id (Service.persisted response.body response.sensitive).1
          response.status (Service.persisted response.body response.sensitive).2, reply⟩ := by
  rcases Prog.Path.bind_split h with hb | ⟨out, es₁, es₂, rfl, hr, hp⟩
  · exact Or.inl hb
  · cases out with
    | error e => exact hp.ret_split.elim
    | ok result =>
      dsimp only at hp
      split_ifs at hp with hreplay
      · exact hp.ret_split.elim
      · obtain ⟨p', hp'⟩ := Prog.Path.of_map hp
        obtain ⟨rfl, reply, hy⟩ := Service.complete_path hp'
        rw [List.append_nil]
        exact Or.inr ⟨result, reply, hr, by simpa using hreplay, hy⟩

theorem begin_returns_created {U : CaseTables} {input : BeginInput}
    (hv : (input.normalize U).valid = true) (t : ℤ) (id : ℕ) :
    (Service.begin U input).Returns
      [⟨.selectFirst (input.normalize U).scope, .ok none⟩, ⟨.now, t⟩,
        ⟨.insert ((input.normalize U).record t), .ok id⟩]
      (.ok (.startedWith { (input.normalize U).record t with id := id })) := by
  unfold Service.begin
  simp only [hv, Bool.not_true, Bool.false_eq_true, if_false]
  exact .cons (.cons (.cons (.nil _)))

/-- Before the first insert nothing was found and nothing was created. -/
private structure Fresh (k : Scope) (log : List (Event ι)) (t : Records) : Prop where
  row : t.byKey k = none
  unread : ∀ x ∈ log, ∀ record, x.act ≠ ⟨.selectFirst k, .ok (some record)⟩
  uncreated : ∀ x ∈ log, ∀ record id, x.act ≠ ⟨.insert record, .ok id⟩

/-- The stored row once request `s` created it at time `start`. -/
private structure Owned (U : CaseTables) (inputs : ι → BeginInput) (responses : ι → Response) (s : ι)
    (start : ℤ) (id : ℕ) (log : List (Event ι)) (row : Record) : Prop where
  id_eq : row.id = id
  hash_eq : row.requestHash = trimmedHash U inputs s
  state : ¬ CompletedBy s log ∧ row.status = .inProgress ∧
      row.runningExpiresAt = some (start + runningTimeout) ∨
    CompletedBy s log ∧
      row.status = (Service.persisted (responses s).body (responses s).sensitive).1 ∧
      row.responseStatus = some (responses s).status ∧
      row.responseBody = some (Service.persisted (responses s).body (responses s).sensitive).2

private structure Leased (U : CaseTables) (inputs : ι → BeginInput) (responses : ι → Response)
    (k : Scope) (s : ι) (start : ℤ) (id : ℕ) (log : List (Event ι)) (t : Records) : Prop where
  created : ∃ x ∈ log, x.caller = s ∧
    x.act = ⟨.insert (((inputs s).normalize U).record start), .ok id⟩
  once : ∀ x ∈ log, ∀ record id', x.act = ⟨.insert record, .ok id'⟩ → x.caller = s ∧ id' = id
  lease : ∀ x ∈ log, ∀ record, x.act = ⟨.selectFirst k, .ok (some record)⟩ →
    record.status = .inProgress → record.runningExpiresAt = some (start + runningTimeout)
  row : ∃ row, t.byKey k = some row ∧ Owned U inputs responses s start id log row

private def Phase (U : CaseTables) (inputs : ι → BeginInput) (responses : ι → Response)
    (k : Scope) (log : List (Event ι)) (t : Records) : Prop :=
  Fresh k log t ∨ ∃ s start id, Leased U inputs responses k s start id log t

section
variable {U : CaseTables} {inputs : ι → BeginInput} {responses : ι → Response} {k : Scope}
  {t₀ : Records} {c : ServeWorld ι}

omit [DecidableEq ι] in
private theorem completedBy_append {s : ι} {log : List (Event ι)} {x : Event ι}
    (hx : ∀ id status responseStatus responseBody,
      x.act ≠ ⟨.updateCompleted id status responseStatus responseBody, .ok ()⟩) :
    CompletedBy s (log ++ [x]) ↔ CompletedBy s log := by
  constructor
  · rintro ⟨y, hy, hys, id, status, responseStatus, responseBody, ha⟩
    rcases List.mem_append.mp hy with hy | hy
    · exact ⟨y, hy, hys, id, status, responseStatus, responseBody, ha⟩
    · rw [List.mem_singleton.mp hy] at ha
      exact absurd ha (hx _ _ _ _)
  · rintro ⟨y, hy, h⟩
    exact ⟨y, List.mem_append_left _ hy, h⟩

omit [DecidableEq ι] in
private theorem Leased.snoc {s : ι} {start : ℤ} {id : ℕ} {log : List (Event ι)} {x : Event ι}
    {t t' : Records} (h : Leased U inputs responses k s start id log t)
    (hi : ∀ record id, x.act ≠ ⟨.insert record, .ok id⟩)
    (hg : ∀ record, x.act = ⟨.selectFirst k, .ok (some record)⟩ → record.status = .inProgress →
      record.runningExpiresAt = some (start + runningTimeout))
    (hrow : ∃ row, t'.byKey k = some row ∧ Owned U inputs responses s start id (log ++ [x]) row) :
    Leased U inputs responses k s start id (log ++ [x]) t' where
  created := by
    obtain ⟨y, hy, hya⟩ := h.created
    exact ⟨y, List.mem_append_left _ hy, hya⟩
  once := by
    intro y hy record id' ha
    rcases List.mem_append.mp hy with hy | hy
    · exact h.once y hy record id' ha
    · rw [List.mem_singleton.mp hy] at ha
      exact absurd ha (hi record id')
  lease := by
    intro y hy record ha hst
    rcases List.mem_append.mp hy with hy | hy
    · exact h.lease y hy record ha hst
    · rw [List.mem_singleton.mp hy] at ha
      exact hg record ha hst
  row := hrow

omit [DecidableEq ι] in
/-- An operation that creates, completes and finds nothing new leaves the phase as it is. -/
private theorem Phase.skip {log : List (Event ι)} {x : Event ι} (h : Phase U inputs responses k log x.pre)
    (hp : x.post = x.pre) (hc : ∀ id status responseStatus responseBody,
      x.act ≠ ⟨.updateCompleted id status responseStatus responseBody, .ok ()⟩)
    (hi : ∀ record id, x.act ≠ ⟨.insert record, .ok id⟩)
    (hg : ∀ record, x.act = ⟨.selectFirst k, .ok (some record)⟩ → x.pre.byKey k = some record) :
    Phase U inputs responses k (log ++ [x]) x.post := by
  rw [hp]
  rcases h with h | ⟨s, start, id, h⟩
  · refine Or.inl ⟨h.row, ?_, ?_⟩
    · intro y hy record ha
      rcases List.mem_append.mp hy with hy | hy
      · exact h.unread y hy record ha
      · rw [List.mem_singleton.mp hy] at ha
        have := hg record ha
        rw [h.row] at this
        cases this
    · intro y hy record id ha
      rcases List.mem_append.mp hy with hy | hy
      · exact h.uncreated y hy record id ha
      · rw [List.mem_singleton.mp hy] at ha
        exact hi record id ha
  · obtain ⟨row, hrow, howned⟩ := h.row
    refine Or.inr ⟨s, start, id, h.snoc hi ?_ ⟨row, hrow, howned.id_eq, howned.hash_eq, ?_⟩⟩
    · intro record ha hst
      cases hrow.symm.trans (hg record ha)
      rcases howned.state with ⟨-, -, hr⟩ | ⟨-, hs, -⟩
      · exact hr
      · exact absurd (hs.symm.trans hst) (Service.persisted_ne_inProgress _ _)
    · rw [completedBy_append hc]
      exact howned.state

/-- Every operation of a log was issued by its caller's `Begin`, or by the `Complete` after it. -/
theorem serve_op_of_log (hs : Config.Sound handle (fun i => serve U (inputs i) (responses i)) t₀ c)
    {a b : List (Event ι)} {x : Event ι} (hl : c.log = a ++ x :: b) :
    BeginOp ((inputs x.caller).normalize U) (history x.caller a) x.act ∨
      ∃ result reply,
        (Service.begin U (inputs x.caller)).Returns (history x.caller a) (.ok result) ∧
        result.replay = false ∧
        x.act = ⟨.updateCompleted result.record.id
          (Service.persisted (responses x.caller).body (responses x.caller).sensitive).1
          (responses x.caller).status
          (Service.persisted (responses x.caller).body (responses x.caller).sensitive).2, reply⟩ := by
  rcases serve_split (hs.path_split hl) with ⟨es₁, p, hb⟩ | h
  · exact Or.inl (.of_path hb)
  · exact Or.inr h

/-- No request ever saw the lease expired, so none restarts the record. -/
private theorem Phase.unexpired {a d b : List (Event ι)} {t : Records}
    (hc : Contention U inputs k t₀ c.log) (hs : Exec handle t₀ c.log c.store)
    (hl : c.log = (a ++ d) ++ b) (hph : Phase U inputs responses k (a ++ d) t) {i : ι}
    {es : List (Σ e, Reply e)} {record : Record} {r reading n : ℤ}
    (hist : history i a = es ++ [⟨.selectFirst k, .ok (some record)⟩, ⟨.now, reading⟩, ⟨.now, n⟩])
    (hst : record.status = .inProgress) (hr : record.runningExpiresAt = some r) : reading ≤ r := by
  obtain ⟨a₁, g, a₂, rfl, -, hgact, -, hist₂⟩ := exists_of_history_eq hist
  obtain ⟨a₃, y, a₄, rfl, -, hyact, -, -⟩ := exists_of_history_cons hist₂
  have hg : g ∈ (a₁ ++ g :: (a₃ ++ y :: a₄)) ++ d := by simp
  have hy : y ∈ c.log := by simp [hl]
  rcases hph with h | ⟨s, start, id, h⟩
  · exact absurd hgact (h.unread g hg record)
  · have hlease := h.lease g hg record hgact hst
    obtain ⟨x, hx, -, hxact⟩ := h.created
    have hx : x ∈ c.log := by
      rw [hl]
      exact List.mem_append_left _ hx
    have hgranted : createdLease x = some (start + runningTimeout) := by
      unfold createdLease
      rw [hxact]
      rfl
    have hle := hc.unexpired x hx _ hgranted y hy
    have hnow := (Event.now (hs.valid hy) hyact).1
    rw [hr] at hlease
    cases hlease
    rw [hnow]
    exact hle

private theorem Phase.not_restarted {a d b : List (Event ι)} {x : Event ι} {t : Records}
    (hc : Contention U inputs k t₀ c.log)
    (hs : Config.Sound handle (fun i => serve U (inputs i) (responses i)) t₀ c)
    (hl : c.log = a ++ x :: b) (hd : ∃ d', x :: b = d ++ d')
    (hph : Phase U inputs responses k (a ++ d) t) {id : ℕ} {hash : GoString} {running now : ℤ}
    {reply : Except GoString Unit} : x.act ≠ ⟨.updateRestarted id hash running now, reply⟩ := by
  intro ha
  obtain ⟨d', hd⟩ := hd
  rcases serve_op_of_log hs hl with h | ⟨_, _, -, -, h⟩
  · rw [ha] at h
    generalize hist : history x.caller a = es at h
    cases h with
    | restart es record r t n reply hh hst hr ht =>
      rw [hc.scope x.caller] at hist
      rw [hd, ← List.append_assoc] at hl
      have hle := hph.unexpired hc hs.exec hl hist hst hr
      omega
  · rw [ha] at h
    cases h

private theorem Phase.created {a : List (Event ι)} {x : Event ι}
    (hc : Contention U inputs k t₀ c.log) (hv : x.Valid handle)
    (hph : Phase U inputs responses k a x.pre) {t : ℤ} {id : ℕ}
    (hist : history x.caller a = [⟨.selectFirst k, .ok none⟩, ⟨.now, t⟩])
    (ha : x.act = ⟨.insert (((inputs x.caller).normalize U).record t), .ok id⟩) :
    Phase U inputs responses k (a ++ [x]) x.post := by
  have hscope : (((inputs x.caller).normalize U).record t).scope = k := hc.scope x.caller
  rcases Event.insert hv ha with ⟨_, h, -⟩ | ⟨hk, hid, hp⟩
  · cases h
  have hfree : x.pre.byKey k = none := hscope ▸ hk
  rcases hph with h | ⟨s, start, id', h⟩
  · have hx : x ∈ a ++ [x] := by simp
    refine Or.inr ⟨x.caller, t, id, ⟨x, hx, rfl, ha⟩, ?_, ?_, ?_⟩
    · intro y hy record id' hya
      rcases List.mem_append.mp hy with hy | hy
      · exact absurd hya (h.uncreated y hy record id')
      · rw [List.mem_singleton.mp hy, ha] at hya
        cases hya
        rw [List.mem_singleton.mp hy]
        exact ⟨rfl, rfl⟩
    · intro y hy record hya
      rcases List.mem_append.mp hy with hy | hy
      · exact absurd hya (h.unread y hy record)
      · rw [List.mem_singleton.mp hy, ha] at hya
        cases hya
    · refine ⟨{ ((inputs x.caller).normalize U).record t with id := id }, ?_, rfl, rfl, Or.inl ⟨?_, rfl, rfl⟩⟩
      · rw [hp, Database.Table.byKey_insert, if_pos hscope.symm]
        cases hid
        rfl
      · rintro ⟨y, hy, hyc, _, _, _, _, hya⟩
        rcases List.mem_append.mp hy with hy | hy
        · have hm : y.act ∈ history x.caller a := mem_history.mpr ⟨y, hy, hyc, rfl⟩
          rw [hist, hya] at hm
          simp at hm
        · rw [List.mem_singleton.mp hy, ha] at hya
          cases hya
  · obtain ⟨row, hrow, -⟩ := h.row
    rw [hfree] at hrow
    cases hrow

/-- A `Begin` that has returned without a replay created the record. -/
private theorem Phase.created_of_begun {a b : List (Event ι)} {x : Event ι} {t' : Records}
    (hc : Contention U inputs k t₀ c.log) (hs : Config.Sound handle
      (fun i => serve U (inputs i) (responses i)) t₀ c) (hl : c.log = a ++ x :: b)
    (hph : Phase U inputs responses k a t') {result : BeginResult}
    (hret : (Service.begin U (inputs x.caller)).Returns (history x.caller a) (.ok result))
    (hr : result.replay = false) :
    ∃ t, ∃ y ∈ a, y.caller = x.caller ∧
      y.act = ⟨.insert (((inputs x.caller).normalize U).record t), .ok result.record.id⟩ := by
  rcases BeginCourse.of_returns hret with ⟨-, -, h⟩ | ⟨-, hcourse⟩
  · cases h
  have hstarted : result.started = true := by
    rw [hcourse.started_eq, hr]
    rfl
  rcases hcourse.of_started hstarted with ⟨t, hist⟩ | ⟨hash, running, now, hm⟩
  · refine ⟨t, mem_history.mp ?_⟩
    rw [hist]
    simp
  · obtain ⟨y, hy, -, hya⟩ := mem_history.mp hm
    obtain ⟨a₁, a₂, rfl⟩ := List.append_of_mem hy
    rw [List.append_assoc, List.cons_append] at hl
    exact absurd hya (Phase.not_restarted hc hs hl ⟨x :: b, rfl⟩ hph)

private theorem Phase.completed {a b : List (Event ι)} {x : Event ι}
    (hc : Contention U inputs k t₀ c.log) (hs : Config.Sound handle
      (fun i => serve U (inputs i) (responses i)) t₀ c) (hl : c.log = a ++ x :: b)
    (hph : Phase U inputs responses k a x.pre) {result : BeginResult}
    (hret : (Service.begin U (inputs x.caller)).Returns (history x.caller a) (.ok result))
    (hr : result.replay = false)
    (ha : x.act = ⟨.updateCompleted result.record.id
      (Service.persisted (responses x.caller).body (responses x.caller).sensitive).1
      (responses x.caller).status
      (Service.persisted (responses x.caller).body (responses x.caller).sensitive).2, .ok ()⟩) :
    Phase U inputs responses k (a ++ [x]) x.post := by
  have hv : x.Valid handle := hs.exec.valid (mem_of_split hl)
  obtain ⟨t, y, hy, hyc, hya⟩ := hph.created_of_begun hc hs hl hret hr
  rcases hph with h | ⟨s, start, id, h⟩
  · exact absurd hya (h.uncreated y hy _ _)
  · obtain ⟨hys, hid⟩ := h.once y hy _ _ hya
    have hxs : x.caller = s := hyc.symm.trans hys
    subst hxs
    obtain ⟨row, hrow, howned⟩ := h.row
    have hpost : x.post.byKey k = some (row.complete x.env.now
        (Service.persisted (responses x.caller).body (responses x.caller).sensitive).1
        (responses x.caller).status
        (Service.persisted (responses x.caller).body (responses x.caller).sensitive).2) := by
      rcases Event.updateCompleted hv ha with ⟨_, he, -⟩ | ⟨-, hp⟩
      · cases he
      · rw [hp, Database.Table.byKey_update, hrow]
        simp [howned.id_eq, hid]
    have hdone : CompletedBy x.caller (a ++ [x]) := ⟨x, by simp, rfl, _, _, _, _, ha⟩
    refine Or.inr ⟨x.caller, start, id, h.snoc ?_ ?_
      ⟨_, hpost, howned.id_eq, howned.hash_eq, Or.inr ⟨hdone, rfl, rfl, rfl⟩⟩⟩
    · intro record id' hxa
      rw [ha] at hxa
      cases hxa
    · intro record hxa
      rw [ha] at hxa
      cases hxa

private theorem Phase.step {a b : List (Event ι)} {x : Event ι} (hc : Contention U inputs k t₀ c.log)
    (hs : Config.Sound handle (fun i => serve U (inputs i) (responses i)) t₀ c)
    (hl : c.log = a ++ x :: b) (hph : Phase U inputs responses k a x.pre) :
    Phase U inputs responses k (a ++ [x]) x.post := by
  have hmem : x ∈ c.log := mem_of_split hl
  have hv := hs.exec.valid hmem
  have hf := hc.faultless x hmem
  rcases serve_op_of_log hs hl with h | ⟨result, reply, hret, hr, ha⟩
  · generalize hist : history x.caller a = es at h
    generalize ha : x.act = y at h
    cases h with
    | get es reply =>
      rw [hc.scope x.caller] at ha
      have hread := Event.selectFirst hv ha
      refine hph.skip hread.1 (by simp [ha]) (by simp [ha]) ?_
      intro record hrec
      rw [ha] at hrec
      cases hrec
      exact hread.2 _ rfl
    | now es t =>
      refine hph.skip (Event.now hv ha).2 ?_ ?_ ?_ <;> simp [ha]
    | insert t reply =>
      rw [hc.scope x.caller] at hist
      cases reply with
      | ok id => exact hph.created hc hv hist ha
      | error text =>
        rcases Event.insert hv ha with ⟨_, -, hp⟩ | ⟨_, he, -⟩
        · refine hph.skip hp ?_ ?_ ?_ <;> simp [ha]
        · cases he
    | restart es record r t n reply hh hst hr ht =>
      have hnil : Phase U inputs responses k (a ++ []) x.pre := by
        rw [List.append_nil]
        exact hph
      exact absurd ha (Phase.not_restarted hc hs hl ⟨_, rfl⟩ hnil)
  · cases Event.updateCompleted_of_faultless hv hf ha
    exact hph.completed hc hs hl hret hr ha

/-- The phase at every point of the run. -/
private theorem phase_of_prefix (hc : Contention U inputs k t₀ c.log)
    (hs : Config.Sound handle (fun i => serve U (inputs i) (responses i)) t₀ c)
    {a b : List (Event ι)} {t : Records} (hl : c.log = a ++ b) (ha : Exec handle t₀ a t) :
    Phase U inputs responses k a t := by
  apply ha.invariant_within hl (Or.inl ⟨hc.free, by simp, by simp⟩)
  intro a₁ x b₁ hlog hv hph
  exact hph.step hc hs hlog

private theorem log_not_restarted (hc : Contention U inputs k t₀ c.log)
    (hs : Config.Sound handle (fun i => serve U (inputs i) (responses i)) t₀ c) {x : Event ι}
    (hx : x ∈ c.log) {id : ℕ} {hash : GoString} {running now : ℤ} {reply : Except GoString Unit} :
    x.act ≠ ⟨.updateRestarted id hash running now, reply⟩ := by
  obtain ⟨a, b, hl⟩ := List.append_of_mem hx
  have hph := phase_of_prefix hc hs (List.append_nil c.log).symm hs.exec
  rw [hl] at hph
  exact Phase.not_restarted hc hs hl ⟨[], (List.append_nil _).symm⟩ hph

/-- A request that inserted the record has returned `Started`. -/
private theorem begunStarted_of_insert (hc : Contention U inputs k t₀ c.log)
    (hs : Config.Sound handle (fun i => serve U (inputs i) (responses i)) t₀ c) {x : Event ι}
    (hx : x ∈ c.log) {record : Record} {id : ℕ} (ha : x.act = ⟨.insert record, .ok id⟩) :
    BegunStarted U inputs c.log x.caller := by
  obtain ⟨a, b, hl⟩ := List.append_of_mem hx
  rcases serve_op_of_log hs hl with h | ⟨_, _, -, -, h⟩
  · generalize hist : history x.caller a = es at h
    rw [ha] at h
    cases h with
    | insert t reply =>
      refine ⟨_, ⟨_, history x.caller b, ?_, begin_returns_created (hc.valid x.caller) t id⟩, rfl⟩
      rw [hl, history_append, history_cons_self, hist, ha]
      rfl
  · rw [ha] at h
    cases h

/-- A `Begin` that started inserted the record. -/
private theorem insert_of_begunStarted (hc : Contention U inputs k t₀ c.log)
    (hs : Config.Sound handle (fun i => serve U (inputs i) (responses i)) t₀ c) {i : ι}
    (h : BegunStarted U inputs c.log i) :
    ∃ x ∈ c.log, x.caller = i ∧ ∃ record id, x.act = ⟨.insert record, .ok id⟩ := by
  obtain ⟨result, ⟨es, es', hist, hret⟩, hstarted⟩ := h
  rcases BeginCourse.of_returns hret with ⟨-, -, h⟩ | ⟨-, hcourse⟩
  · cases h
  rcases hcourse.of_started hstarted with ⟨t, rfl⟩ | ⟨hash, running, now, hm⟩
  · have hm : ⟨.insert (((inputs i).normalize U).record t), .ok result.record.id⟩ ∈ history i c.log := by
      rw [hist]
      simp
    obtain ⟨x, hx, hxi, ha⟩ := mem_history.mp hm
    exact ⟨x, hx, hxi, _, _, ha⟩
  · have hm := List.mem_append_left es' hm
    rw [← hist] at hm
    obtain ⟨x, hx, -, ha⟩ := mem_history.mp hm
    exact absurd ha (log_not_restarted hc hs hx)

private theorem begunStarted_unique (hc : Contention U inputs k t₀ c.log)
    (hs : Config.Sound handle (fun i => serve U (inputs i) (responses i)) t₀ c) {i j : ι}
    (hi : BegunStarted U inputs c.log i) (hj : BegunStarted U inputs c.log j) : i = j := by
  obtain ⟨x, hx, rfl, record, id, ha⟩ := insert_of_begunStarted hc hs hi
  obtain ⟨y, hy, rfl, record', id', ha'⟩ := insert_of_begunStarted hc hs hj
  rcases phase_of_prefix hc hs (List.append_nil c.log).symm hs.exec with h | ⟨s, start, id₀, h⟩
  · exact absurd ha (h.uncreated x hx _ _)
  · rw [(h.once x hx _ _ ha).1, (h.once y hy _ _ ha').1]

/-- After its `Begin` a request reads nothing. -/
private theorem no_get_after_begin (hs : Config.Sound handle
    (fun i => serve U (inputs i) (responses i)) t₀ c) {i : ι} {es es' : List (Σ e, Reply e)}
    {out : Except Err BeginResult} (hist : history i c.log = es ++ es')
    (hret : (Service.begin U (inputs i)).Returns es out) {y : Σ e, Reply e} (hy : y ∈ es')
    (scope : Scope) (reply : Except GoString (Option Record)) : y ≠ ⟨.selectFirst scope, reply⟩ := by
  obtain ⟨l₁, l₂, rfl⟩ := List.append_of_mem hy
  have hp := hs.path i
  rw [hist, ← List.append_assoc] at hp
  rcases serve_split hp with ⟨es₁, p, hb⟩ | ⟨_, _, -, -, rfl⟩
  · rw [List.append_assoc] at hb
    have hnil := (hret.eq_of_path hb).1
    simp at hnil
  · simp

omit [DecidableEq ι] in
/-- What `decisionForExisting` makes of the row while nobody restarts it. -/
private theorem Owned.verdict {s : ι} {start : ℤ} {id : ℕ} {log : List (Event ι)} {record : Record}
    (h : Owned U inputs responses s start id log record) {hash : GoString}
    {es : List (Σ e, Reply e)} {out : Except Err BeginResult} (hd : Decision record hash es out)
    (hes : ∀ id hash running now reply, ⟨.updateRestarted id hash running now, reply⟩ ∉ es) :
    hash ≠ trimmedHash U inputs s ∧ out = .error .requestMismatch ∨
      hash = trimmedHash U inputs s ∧ (¬ CompletedBy s log ∧ out = .error .requestInProcess ∨
        CompletedBy s log ∧ out = if (responses s).sensitive then .error .sensitiveResponse
          else .ok ⟨record, false, true, (responses s).status, (responses s).body⟩) := by
  have hhash := h.hash_eq
  cases hd with
  | mismatch hh =>
    rw [hhash] at hh
    exact Or.inl ⟨hh.symm, rfl⟩
  | replay hh hst =>
    refine Or.inr ⟨hh.symm.trans hhash, ?_⟩
    rcases h.state with ⟨-, hst', -⟩ | ⟨hdone, hst', hrs, hrb⟩
    · rw [hst] at hst'
      cases hst'
    · refine Or.inr ⟨hdone, ?_⟩
      cases hsens : (responses s).sensitive with
      | true => simp [Service.persisted, hsens, hst] at hst'
      | false => simp [BeginResult.replayOf, Service.persisted, hrs, hrb, hsens]
  | sensitive hh hst =>
    refine Or.inr ⟨hh.symm.trans hhash, ?_⟩
    rcases h.state with ⟨-, hst', -⟩ | ⟨hdone, hst', -⟩
    · rw [hst] at hst'
      cases hst'
    · refine Or.inr ⟨hdone, ?_⟩
      cases hsens : (responses s).sensitive with
      | true => rfl
      | false => simp [Service.persisted, hsens, hst] at hst'
  | leaseless hh hst | running _ _ hh hst =>
    refine Or.inr ⟨hh.symm.trans hhash, ?_⟩
    rcases h.state with ⟨hdone, -⟩ | ⟨-, hst', -⟩
    · exact Or.inl ⟨hdone, rfl⟩
    · exact absurd (hst'.symm.trans hst) (Service.persisted_ne_inProgress _ _)
  | takeover | takeoverFailed =>
    exact absurd (List.mem_cons_of_mem _ (List.mem_cons_of_mem _ List.mem_cons_self)) (hes _ _ _ _ _)

/-- The read that found `record` decides, whichever path of `Begin` led to it. -/
private theorem losesTo_of_decision (hc : Contention U inputs k t₀ c.log)
    (hs : Config.Sound handle (fun i => serve U (inputs i) (responses i)) t₀ c) {i : ι}
    {es₁ es es' : List (Σ e, Reply e)} {record : Record} {out : Except Err BeginResult}
    (hist : history i c.log = es₁ ++ ⟨.selectFirst k, .ok (some record)⟩ :: (es ++ es'))
    (hd : Decision record (trimmedHash U inputs i) es out)
    (hes' : ∀ y ∈ es', ∀ scope reply, y ≠ ⟨.selectFirst scope, reply⟩) :
    ∃ s, BegunStarted U inputs c.log s ∧ LosesTo U inputs responses c.log s i out := by
  obtain ⟨a, g, b, hl, hgi, hgact, -, hb⟩ := exists_of_history_eq hist
  have hexec := hs.exec
  rw [hl] at hexec
  obtain ⟨ha, hv, -⟩ := hexec.split
  have hread := (Event.selectFirst hv hgact).2 _ rfl
  rcases phase_of_prefix hc hs hl ha with h | ⟨s, start, id, h⟩
  · rw [h.row] at hread
    cases hread
  obtain ⟨x, hx, hxs, hxact⟩ := h.created
  obtain ⟨row, hrow, howned⟩ := h.row
  cases hrow.symm.trans hread
  have hxlog : x ∈ c.log := by
    rw [hl]
    exact List.mem_append_left _ hx
  refine ⟨s, hxs ▸ begunStarted_of_insert hc hs hxlog hxact, ?_⟩
  have hkept : ∀ id hash running now reply, ⟨.updateRestarted id hash running now, reply⟩ ∉ es := by
    intro _ _ _ _ _ hm
    have hm' := List.mem_append_left es' hm
    rw [← hb] at hm'
    obtain ⟨y, hy, -, hya⟩ := mem_history.mp hm'
    exact log_not_restarted hc hs (by simp [hl, hy]) hya
  have hlate : ∀ y ∈ b, y.caller = i → ∀ scope reply, y.act ≠ ⟨.selectFirst scope, reply⟩ := by
    intro y hy hyi scope reply hya
    have hm : y.act ∈ history i b := mem_history.mpr ⟨y, hy, hyi, rfl⟩
    rw [hb] at hm
    rcases List.mem_append.mp hm with hm | hm
    · exact hd.no_get hm hya
    · exact hes' _ hm scope reply hya
  unfold LosesTo
  rcases howned.verdict hd hkept with ⟨hne, hout⟩ | ⟨heq, hout⟩
  · rw [if_pos hne]
    exact hout
  · rw [if_neg (not_not.mpr heq)]
    exact ⟨a, g, b, k, record, hl, hgi, hgact, hlate, hout⟩

private theorem read_ok (hc : Contention U inputs k t₀ c.log)
    (hs : Config.Sound handle (fun i => serve U (inputs i) (responses i)) t₀ c) {i : ι} {scope : Scope}
    {text : GoString} : ⟨.selectFirst scope, .error text⟩ ∉ history i c.log := by
  intro hm
  obtain ⟨x, hx, -, ha⟩ := mem_history.mp hm
  have h := Event.selectFirst_of_faultless (hs.exec.valid hx) (hc.faultless x hx) ha
  cases h

/-- An insert that lost the race is followed by a read that finds the winner's record. -/
private theorem found_after_duplicate (hc : Contention U inputs k t₀ c.log)
    (hs : Config.Sound handle (fun i => serve U (inputs i) (responses i)) t₀ c) {i : ι}
    {es es' : List (Σ e, Reply e)} {record : Record} {text : GoString} (hscope : record.scope = k) :
    history i c.log ≠
      es ++ ⟨.insert record, .error text⟩ :: ⟨.selectFirst k, .ok none⟩ :: es' := by
  intro hist
  obtain ⟨a, x, b, hl, -, hxact, -, hb⟩ := exists_of_history_eq hist
  obtain ⟨b₁, g, b₂, rfl, -, hgact, -, -⟩ := exists_of_history_cons hb
  have hx : x ∈ c.log := by simp [hl]
  have hg : g ∈ c.log := by simp [hl]
  have hl' : c.log = (a ++ x :: b₁) ++ g :: b₂ := by simp [hl]
  have hexec := hs.exec
  rw [hl] at hexec
  have hexec' := hs.exec
  rw [hl'] at hexec'
  have htaken : x.pre.byKey k ≠ none := by
    rcases Event.insert_of_faultless (hs.exec.valid hx) (hc.faultless x hx) hxact with ⟨-, h⟩ | ⟨h, -⟩
    · rwa [hscope] at h
    · cases h
  have hfree : g.pre.byKey k = none := (Event.selectFirst (hs.exec.valid hg) hgact).2 _ rfl
  rcases phase_of_prefix hc hs hl hexec.split.1 with h | ⟨s, start, id, h⟩
  · exact htaken h.row
  obtain ⟨y, hy, -, hyact⟩ := h.created
  rcases phase_of_prefix hc hs hl' hexec'.split.1 with h' | ⟨_, _, _, h'⟩
  · exact h'.uncreated y (List.mem_append_left _ hy) _ _ hyact
  · obtain ⟨row, hrow, -⟩ := h'.row
    rw [hfree] at hrow
    cases hrow

private theorem losesTo_of_begun (hc : Contention U inputs k t₀ c.log)
    (hs : Config.Sound handle (fun i => serve U (inputs i) (responses i)) t₀ c) {i : ι}
    {out : Except Err BeginResult} (h : Begun U inputs c.log i out)
    (hout : ∀ result, out = .ok result → result.started = false) :
    ∃ s, BegunStarted U inputs c.log s ∧ LosesTo U inputs responses c.log s i out := by
  obtain ⟨es, es', hist, hret⟩ := h
  have hlate : ∀ y ∈ es', ∀ scope reply, y ≠ ⟨.selectFirst scope, reply⟩ :=
    fun y hy => no_get_after_begin hs hist hret hy
  rcases BeginCourse.of_returns hret with ⟨hv, -, -⟩ | ⟨-, hcourse⟩
  · rw [hc.valid i] at hv
    cases hv
  have hscope := hc.scope i
  cases hcourse with
  | found record hd =>
    rw [hscope] at hist
    have hist : history i c.log = [] ++ ⟨.selectFirst k, .ok (some record)⟩ :: (_ ++ es') := hist
    exact losesTo_of_decision hc hs hist hd hlate
  | created t id => exact absurd (hout _ rfl) (by simp [BeginResult.startedWith])
  | lost t text record hk hd =>
    rw [hscope] at hist
    have hist : history i c.log = [_, _, _] ++ ⟨.selectFirst k, .ok (some record)⟩ :: (_ ++ es') := hist
    exact losesTo_of_decision hc hs hist hd hlate
  | vanished t text hk =>
    rw [hscope] at hist
    have hist : history i c.log = [_, _] ++ ⟨.insert (((inputs i).normalize U).record t), .error text⟩ ::
      ⟨.selectFirst k, .ok none⟩ :: es' := hist
    exact absurd hist (found_after_duplicate hc hs hscope)
  | readFailed text =>
    have hm : ⟨.selectFirst ((inputs i).normalize U).scope, .error text⟩ ∈ history i c.log := by
      rw [hist]
      simp
    exact absurd hm (read_ok hc hs)
  | insertFailed t text hk =>
    have hm : ⟨.insert (((inputs i).normalize U).record t), .error text⟩ ∈ history i c.log := by
      rw [hist]
      simp
    obtain ⟨x, hx, -, ha⟩ := mem_history.mp hm
    rcases Event.insert_of_faultless (hs.exec.valid hx) (hc.faultless x hx) ha with ⟨ht, -⟩ | ⟨ht, -⟩
    · cases ht
      rw [Repo.isDuplicateKey, Database.reportsDuplicate_duplicateText] at hk
      cases hk
    · cases ht
  | rereadFailed t text text' hk =>
    have hm : ⟨.selectFirst ((inputs i).normalize U).scope, .error text'⟩ ∈ history i c.log := by
      rw [hist]
      simp
    exact absurd hm (read_ok hc hs)

end

/-- Requests 0 and 1 race for the scope; request 2 carries another body. -/
def contenders (i : ℕ) : BeginInput :=
  if i = 2 then { sampleInput with requestHash := List.replicate 64 0x62 } else sampleInput

def contendersSchedule : List (ℕ × Env) :=
  [(0, atSecond 0), (1, atSecond 0), (0, atSecond 1), (1, atSecond 1), (0, atSecond 2),
    (1, atSecond 2), (0, atSecond 3), (1, atSecond 4), (2, atSecond 5)]

end SynapseGo.Idempotency
