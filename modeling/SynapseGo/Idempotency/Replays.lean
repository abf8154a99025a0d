import SynapseGo.Idempotency.Binding
import SynapseGo.Idempotency.Middleware

/-! What a replay sends, over any interleaving of requests and garbage collection. A row that a request
has seen keeps its scope and its hash, and a stored response was written by a request that started the row. -/
namespace SynapseGo.Idempotency
open SynapseGo.Go SynapseGo.Concurrency

abbrev Act := Σ e : Sql, Reply e

inductive HttpCall where
  | serve (req : HttpRequest) (handled : Handled)
  | gcJob (payload : List (GoString × Job.Value))

section
variable (U : CaseTables) (authority : GoString → GoString → Bool) (sha256 : GoString → GoString)
  (unmarshalTenantID : GoString → Option UInt64) (bodyAllowed : ℤ → Bool)

/-- A collection answers no client. -/
def HttpCall.call : HttpCall → Call (Option HttpAnswer)
  | .serve req handled => do
      return some (← middleware U authority sha256 unmarshalTenantID bodyAllowed req handled)
  | .gcJob payload => do
    let _ ← Service.gcJob payload
    return none

/-- Where a schedule leads the calls on the table `t₀`. -/
def httpWorld {ι : Type} [DecidableEq ι] (calls : ι → HttpCall) (t₀ : Records) (sched : List (ι × Env)) :
    Config ι Sql Reply Env Records (Option HttpAnswer) :=
  (Config.start (fun i => (calls i).call U authority sha256 unmarshalTenantID bodyAllowed) t₀).run
    handle sched

/-- The operations of a call, each with what the call did before. -/
inductive HttpOp : HttpCall → List Act → Act → Prop
  | begin {req : HttpRequest} {handled : Handled} {input : BeginInput} {es : List Act} {y : Act}
    (hinput : beginInput U authority sha256 unmarshalTenantID req handled = .ok input)
    (h : BeginOp (input.normalize U) es y) : HttpOp (.serve req handled) es y
  | complete {req : HttpRequest} {handled : Handled} {input : BeginInput} {es : List Act}
      {result : BeginResult}
    (hinput : beginInput U authority sha256 unmarshalTenantID req handled = .ok input)
    (hbegun : BeginCourse U (input.normalize U) es (.ok result)) (reply : Except GoString Unit) :
    HttpOp (.serve req handled) es
      ⟨.updateCompleted result.record.id (Service.persisted handled.capture.body handled.sensitive).1
        handled.status (Service.persisted handled.capture.body handled.sensitive).2, reply⟩
  | gcNow (payload : List (GoString × Job.Value)) (t : ℤ) : HttpOp (.gcJob payload) [] ⟨.now, t⟩
  | sweep (payload : List (GoString × Job.Value)) (t : ℤ) (limit : ℕ) (reply : Except GoString ℕ) :
    HttpOp (.gcJob payload) [⟨.now, t⟩] ⟨.deleteExpired t limit, reply⟩

end

section Paths
variable {U : CaseTables} {authority : GoString → GoString → Bool} {sha256 : GoString → GoString}
  {unmarshalTenantID : GoString → Option UInt64} {bodyAllowed : ℤ → Bool} {es es' : List Act} {y : Act}

/-- An operation of a request belongs to its `Begin`, or it is the update of the record that it started,
after which the request returns. -/
theorem serve_cases {input : BeginInput} {response : Response} {q : Call (Except Err BeginResult)}
    (h : (serve U input response).Path (es ++ y :: es') q) :
    BeginOp (input.normalize U) es y ∨
      ∃ result reply, BeginCourse U (input.normalize U) es (.ok result) ∧ result.replay = false ∧
        y = ⟨.updateCompleted result.record.id (Service.persisted response.body response.sensitive).1
          response.status (Service.persisted response.body response.sensitive).2, reply⟩ ∧
        q = .ret (.ok result) := by
  unfold serve at h
  rcases h.bind_split with ⟨es₁, p, hp⟩ | ⟨out, es₁, es₂, rfl, hbegin, hrest⟩
  · exact .inl (.of_path hp)
  refine .inr ?_
  cases out with
  | error e => exact hrest.ret_split.elim
  | ok result =>
    dsimp only at hrest
    split_ifs at hrest with hreplay
    · exact hrest.ret_split.elim
    have hcourse : BeginCourse U (input.normalize U) es₁ (.ok result) := by
      rcases BeginCourse.of_returns hbegin with ⟨-, -, herr⟩ | ⟨-, hcourse⟩
      · cases herr
      · exact hcourse
    obtain ⟨p, hp, rfl⟩ := hrest.exists_of_map
    obtain ⟨rfl, reply, rfl⟩ := Service.complete_path hp
    rw [List.append_nil]
    refine ⟨result, reply, hcourse, by simpa using hreplay, rfl, ?_⟩
    -- the update was the last operation of `Complete`
    unfold Service.complete at hp
    split_ifs at hp
    · exact hp.ret_split.elim
    cases hp with
    | cons hlast =>
      cases reply with
      | error text =>
        cases hlast
        rfl
      | ok _ =>
        cases hlast
        rfl

theorem beginInput_ne_replayed {req : HttpRequest} {handled : Handled} (status : ℤ) (sent : GoString) :
    beginInput U authority sha256 unmarshalTenantID req handled ≠ .error (.replayed status sent) := by
  unfold beginInput
  intro h
  split_ifs at h
  · cases h
  split at h
  · cases h
  · cases h
  · split at h <;> cases h

theorem writeMiddlewareError_ne_replayed (e : Err) (status : ℤ) (sent : GoString) :
    writeMiddlewareError e ≠ .replayed status sent := by
  cases e <;> nofun

theorem replay_of_answer {handled : Handled} {out : Except Err BeginResult} {status : ℤ} {sent : GoString}
    (h : answer bodyAllowed handled out = .replayed status sent) :
    ∃ result, out = .ok result ∧ result.replay = true ∧ status = result.responseStatus ∧
      sent = if bodyAllowed result.responseStatus then result.responseBody else [] := by
  cases out with
  | error e => exact absurd h (writeMiddlewareError_ne_replayed e status sent)
  | ok result =>
    cases hreplay : result.replay with
    | true =>
      rw [answer_of_replay hreplay] at h
      obtain ⟨hstatus, hsent⟩ := HttpAnswer.replayed.inj h
      exact ⟨result, rfl, hreplay, hstatus.symm, hsent.symm⟩
    | false =>
      rw [answer_of_started hreplay] at h
      cases h

/-- A request that replays has done nothing but its `Begin`. -/
theorem begin_of_replay {input : BeginInput} {response : Response} {result : BeginResult}
    (h : (serve U input response).Returns es (.ok result)) (hreplay : result.replay = true) :
    (Service.begin U input).Returns es (.ok result) := by
  unfold serve at h
  obtain ⟨out, es₁, es₂, rfl, hbegin, hrest⟩ := Prog.returns_bind.mp h
  cases out with
  | error e => exact nomatch (Prog.returns_ret.mp hrest).2
  | ok result' =>
    dsimp only at hrest
    split_ifs at hrest with hreplay'
    · obtain ⟨rfl, hsame⟩ := Prog.returns_ret.mp hrest
      cases hsame
      rw [List.append_nil]
      exact hbegin
    · obtain ⟨_, _, _, -, -, hlast⟩ := Prog.returns_bind.mp hrest
      cases (Prog.returns_ret.mp hlast).2
      exact absurd hreplay hreplay'

theorem gcJob_cases {payload : List (GoString × Job.Value)} {q : Call (Except Err Unit)}
    (h : (Service.gcJob payload).Path (es ++ y :: es') q) :
    HttpOp U authority sha256 unmarshalTenantID (.gcJob payload) es y := by
  rcases h.op_split with ⟨rfl, t, rfl⟩ | ⟨t, es₁, rfl, h₁⟩
  · exact .gcNow payload t
  rcases h₁.op_split with ⟨rfl, reply, rfl⟩ | ⟨reply, es₂, rfl, h₂⟩
  · exact .sweep payload t _ reply
  cases reply <;> exact h₂.ret_split.elim

theorem HttpOp.of_path {call : HttpCall} {q : Call (Option HttpAnswer)}
    (h : (call.call U authority sha256 unmarshalTenantID bodyAllowed).Path (es ++ y :: es') q) :
    HttpOp U authority sha256 unmarshalTenantID call es y := by
  cases call with
  | gcJob payload =>
    obtain ⟨p, hp⟩ := Prog.Path.of_map h
    exact gcJob_cases hp
  | serve req handled =>
    obtain ⟨p, hp⟩ := Prog.Path.of_map h
    unfold middleware at hp
    cases hinput : beginInput U authority sha256 unmarshalTenantID req handled with
    | error done =>
      rw [hinput] at hp
      exact hp.ret_split.elim
    | ok input =>
      rw [hinput] at hp
      obtain ⟨p', hp'⟩ := Prog.Path.of_map hp
      rcases serve_cases hp' with hop | ⟨result, reply, hcourse, -, rfl, -⟩
      · exact .begin hinput hop
      · exact .complete hinput hcourse reply

/-- A request whose record has been updated has sent what its handlers wrote. -/
theorem executed_of_update {req : HttpRequest} {handled : Handled} {q : Call (Option HttpAnswer)} {id : ℕ}
    {status : Status} {responseStatus : ℤ} {responseBody : GoString} {reply : Except GoString Unit}
    (h : ((HttpCall.serve req handled).call U authority sha256 unmarshalTenantID bodyAllowed).Path
      (es ++ ⟨.updateCompleted id status responseStatus responseBody, reply⟩ :: es') q) :
    q = .ret (some (.executed handled.status handled.capture.sent)) := by
  obtain ⟨p, hp, rfl⟩ := Prog.Path.exists_of_map h
  unfold middleware at hp
  cases hinput : beginInput U authority sha256 unmarshalTenantID req handled with
  | error done =>
    rw [hinput] at hp
    exact hp.ret_split.elim
  | ok input =>
    rw [hinput] at hp
    obtain ⟨p', hp', rfl⟩ := Prog.Path.exists_of_map hp
    rcases serve_cases hp' with hop | ⟨result, reply', -, hreplay, -, rfl⟩
    · cases hop
    · show Prog.ret (some (answer bodyAllowed handled (.ok result))) = _
      rw [answer_of_started hreplay]

/-- A replay sends the completed record that the last read of the request found. -/
theorem read_of_replayed {req : HttpRequest} {handled : Handled} {status : ℤ} {sent : GoString}
    (h : ((HttpCall.serve req handled).call U authority sha256 unmarshalTenantID bodyAllowed).Returns es
      (some (.replayed status sent))) :
    ∃ input es₀ record, beginInput U authority sha256 unmarshalTenantID req handled = .ok input ∧
      es = es₀ ++ [⟨.selectFirst (input.normalize U).scope, .ok (some record)⟩] ∧
      record.requestHash = (input.normalize U).requestHash ∧ record.status = .completed ∧
      status = record.responseStatus.getD 200 ∧
      sent = if bodyAllowed status then record.responseBody.getD [] else [] := by
  obtain ⟨out, es₁, es₂, rfl, hmiddleware, hret⟩ := Prog.returns_bind.mp h
  obtain ⟨rfl, hout⟩ := Prog.returns_ret.mp hret
  cases Option.some.inj hout
  rw [List.append_nil]
  unfold middleware at hmiddleware
  cases hinput : beginInput U authority sha256 unmarshalTenantID req handled with
  | error done =>
    rw [hinput] at hmiddleware
    obtain ⟨rfl, hdone⟩ := Prog.returns_ret.mp hmiddleware
    rw [hdone] at hinput
    exact absurd hinput (beginInput_ne_replayed _ _)
  | ok input =>
    rw [hinput] at hmiddleware
    obtain ⟨out, es₃, es₄, rfl, hserve, hlast⟩ := Prog.returns_bind.mp hmiddleware
    obtain ⟨rfl, hanswer⟩ := Prog.returns_ret.mp hlast
    rw [List.append_nil]
    obtain ⟨result, rfl, hreplay, rfl, rfl⟩ := replay_of_answer hanswer
    have hbegin := begin_of_replay hserve hreplay
    rcases BeginCourse.of_returns hbegin with ⟨-, -, herr⟩ | ⟨-, hcourse⟩
    · cases herr
    obtain ⟨es₀, record, hes, hhash, hstatus, rfl⟩ := hcourse.of_replay hreplay
    exact ⟨input, es₀, record, rfl, hes, hhash, hstatus, rfl, rfl⟩

end Paths

section Rows
variable {ι : Type}

/-- The step reads or creates the row of `id`, and so shows its scope and its hash. -/
inductive Shows (x : Event ι) : ℕ → Scope → GoString → Prop
  | read {scope : Scope} {record : Record} (ha : x.act = ⟨.selectFirst scope, .ok (some record)⟩) :
    Shows x record.id scope record.requestHash
  | created {record : Record} {id : ℕ} (ha : x.act = ⟨.insert record, .ok id⟩) :
    Shows x id record.scope record.requestHash

/-- A row that has been seen keeps its scope and its hash, and its id is not given out again. -/
def Vouched (a : List (Event ι)) (t : Records) : Prop :=
  ∀ x ∈ a, ∀ id scope hash, Shows x id scope hash →
    id < t.nextID ∧ ∀ row ∈ t.byID id, row.scope = scope ∧ row.requestHash = hash

/-- A row is still without a response, or it stores what an update of it said. -/
def Answered (a : List (Event ι)) (t : Records) : Prop :=
  ∀ id, ∀ row ∈ t.byID id,
    (row.status = .inProgress ∧ row.responseStatus = none ∧ row.responseBody = none) ∨
      ∃ x ∈ a, ∃ status responseStatus responseBody,
        x.act = ⟨.updateCompleted id status responseStatus responseBody, .ok ()⟩ ∧ row.status = status ∧
        row.responseStatus = some responseStatus ∧ row.responseBody = some responseBody

variable {a : List (Event ι)} {x : Event ι}

theorem Shows.settled {id : ℕ} {scope : Scope} {hash : GoString} (h : Shows x id scope hash)
    (hx : x.Valid handle) : id < x.post.nextID ∧ ∀ row ∈ x.post.byID id, row.scope = scope ∧
    row.requestHash = hash := by
  cases h with
  | @read scope record ha =>
    obtain ⟨hpost, hread⟩ := Event.selectFirst hx ha
    have hkey := hread _ rfl
    have hrow := Database.Table.byID_of_byKey hkey
    rw [hpost]
    refine ⟨Database.Table.lt_nextID_of_byID hrow, fun row hmem => ?_⟩
    cases hrow.symm.trans hmem
    exact ⟨(Database.Table.byKey_eq_some.mp hkey).2, rfl⟩
  | @created record id ha =>
    rcases Event.insert hx ha with ⟨text, herr, -⟩ | ⟨hfree, hid, hpost⟩
    · cases herr
    have hid : id = x.pre.nextID := Except.ok.inj hid
    subst hid
    rw [hpost]
    refine ⟨Nat.lt_succ_self _, fun row hmem => ?_⟩
    rw [Database.Table.byID_insert, if_pos rfl] at hmem
    cases hmem
    exact ⟨rfl, rfl⟩

/-- A restart writes the hash that its own call has read. -/
theorem Vouched.step (h : Vouched a x.pre) (hx : x.Valid handle)
    (hrestart : ∀ id hash running now reply, x.act = ⟨.updateRestarted id hash running now, reply⟩ →
      ∃ g ∈ a, ∃ scope, Shows g id scope hash) : Vouched (a ++ [x]) x.post := by
  intro g hg id scope hash hshows
  rcases List.mem_append.mp hg with hg | hg
  · refine Event.row_invariant hx (P := fun row => row.scope = scope ∧ row.requestHash = hash) ?_ ?_
      (h g hg id scope hash hshows)
    · intro r status responseStatus responseBody hr hact hkeep
      exact hkeep
    · intro r hash' running now hr hprogress hact hkeep
      obtain ⟨g', hg', scope', hshows'⟩ := hrestart id hash' running now _ hact
      have hsame := ((h g' hg' id scope' hash' hshows').2 r hr).2
      exact ⟨hkeep.1, hsame.symm.trans hkeep.2⟩
  · rw [List.mem_singleton.mp hg] at hshows
    exact hshows.settled hx

theorem Answered.step (h : Answered a x.pre) (hx : x.Valid handle)
    (hinsert : ∀ record reply, x.act = ⟨.insert record, reply⟩ →
      record.status = .inProgress ∧ record.responseStatus = none ∧ record.responseBody = none) :
    Answered (a ++ [x]) x.post := by
  intro id row hrow
  have hearlier : ∀ r : Record, x.pre.byID id = some r → row.status = r.status →
      row.responseStatus = r.responseStatus → row.responseBody = r.responseBody →
      (row.status = .inProgress ∧ row.responseStatus = none ∧ row.responseBody = none) ∨
      ∃ y ∈ a ++ [x], ∃ status responseStatus responseBody,
        y.act = ⟨.updateCompleted id status responseStatus responseBody, .ok ()⟩ ∧ row.status = status ∧
        row.responseStatus = some responseStatus ∧ row.responseBody = some responseBody := by
    intro r hr hstatus hresponse hbody
    rw [hstatus, hresponse, hbody]
    rcases h id r hr with hnone | ⟨y, hy, hrest⟩
    · exact .inl hnone
    · exact .inr ⟨y, List.mem_append_left _ hy, hrest⟩
  have hstep := RowStep.byID hx id
  rw [Option.mem_def] at hrow
  rw [hrow] at hstep
  generalize hpre : x.pre.byID id = o at hstep
  generalize hpost : some row = o' at hstep
  cases hstep with
  | same =>
    subst hpost
    exact hearlier row hpre rfl rfl rfl
  | created ha hid =>
    cases hpost
    obtain ⟨hstatus, hresponse, hbody⟩ := hinsert _ _ ha
    exact .inl ⟨hstatus, hresponse, hbody⟩
  | @completed r _ _ _ ha =>
    cases hpost
    have hid : r.id = id := (Database.Table.byID_eq_some.mp hpre).2
    rw [hid] at ha
    exact .inr ⟨x, List.mem_append_right _ (List.mem_singleton_self x), _, _, _, ha, rfl, rfl, rfl⟩
  | restarted ha hprogress =>
    cases hpost
    exact hearlier _ hpre rfl rfl rfl
  | deleted => cases hpost

end Rows

section
variable (U : CaseTables) (authority : GoString → GoString → Bool) (sha256 : GoString → GoString)

/-- The text that `RequestHash` hashes. -/
def hashedText (req : HttpRequest) (body : GoString) : GoString :=
  stream [normalizeMethod U req.method, normalizePath authority req.path, bodyHash sha256 body]

end

/-- Where request hashes agree the bodies do, unless the hash collides on what was hashed for them. -/
theorem body_eq_of_requestHash {U : CaseTables} {authority : GoString → GoString → Bool}
    {sha256 : GoString → GoString} {req req' : HttpRequest} {body body' : GoString}
    (h : requestHash U authority sha256 req.method req.path body =
      requestHash U authority sha256 req'.method req'.path body')
    (htext : Separates sha256 (hashedText U authority sha256 req body)
    (hashedText U authority sha256 req' body')) (hbody : Separates sha256 body body') : body = body' := by
  have hparts := (hashParts_eq_iff htext).mp h
  have hhash := (List.cons.inj (List.cons.inj (List.cons.inj hparts).2).2).1
  exact (bodyHash_eq_iff hbody).mp hhash

/-- A request hash has no space at its ends. -/
theorem trimSpace_requestHash (U : CaseTables) (authority : GoString → GoString → Bool)
    (sha256 : GoString → GoString) (method path body : GoString) :
    trimSpace (requestHash U authority sha256 method path body) =
      requestHash U authority sha256 method path body := by
  unfold requestHash hashParts
  generalize sha256 _ = digest
  have hgraphic : ∀ b ∈ hashMark ++ hexEncode digest, graphic b = true := by
    intro b hb
    cases List.mem_append.mp hb with
    | inl hmark => exact List.all_eq_true.mp (by decide : hashMark.all graphic = true) b hmark
    | inr hdigit => exact hexEncode_graphic b hdigit
  have hne : hashMark ++ hexEncode digest ≠ [] := by
    intro hnil
    cases (List.append_eq_nil_iff.mp hnil).1
  have htrim := trimSpace_of_graphic blank_nil blank_nil hgraphic hne
  rwa [List.nil_append, List.append_nil] at htrim

section Runs
variable {ι : Type} [DecidableEq ι] {U : CaseTables} {authority : GoString → GoString → Bool}
  {sha256 : GoString → GoString} {unmarshalTenantID : GoString → Option UInt64} {bodyAllowed : ℤ → Bool}
  {calls : ι → HttpCall}
  {t₀ t : Records} {c : Config ι Sql Reply Env Records (Option HttpAnswer)} {a b : List (Event ι)}
    {x : Event ι}

theorem httpOp_of_log
    (hs : Config.Sound handle (fun i => (calls i).call U authority sha256 unmarshalTenantID bodyAllowed) t₀ c)
    (hl : c.log = a ++ x :: b) :
    HttpOp U authority sha256 unmarshalTenantID (calls x.caller) (history x.caller a) x.act :=
  .of_path (hs.path_split hl)

theorem vouched_of_log
    (hs : Config.Sound handle (fun i => (calls i).call U authority sha256 unmarshalTenantID bodyAllowed) t₀ c)
    (hl : c.log = a ++ b) (ha : Exec handle t₀ a t) : Vouched a t := by
  apply ha.invariant_within (P := Vouched) hl
  · intro x hx
    cases hx
  · intro a x b hlog hx ih
    apply ih.step hx
    intro id hash running now reply hact
    have hop := httpOp_of_log hs hlog
    rw [hact] at hop
    generalize calls x.caller = call at hop
    generalize hhist : history x.caller a = es at hop
    cases hop with
    | begin hinput hop =>
      cases hop with
      | restart es record r t n reply hhash =>
        obtain ⟨a₁, g, a₂, rfl, -, hg, -, -⟩ := exists_of_history_eq hhist
        have hshown := Shows.read hg
        rw [hhash] at hshown
        exact ⟨g, List.mem_append_right a₁ List.mem_cons_self, _, hshown⟩

theorem answered_of_log
    (hs : Config.Sound handle (fun i => (calls i).call U authority sha256 unmarshalTenantID bodyAllowed) t₀ c)
    (hfresh : Answered ([] : List (Event ι)) t₀) (hl : c.log = a ++ b) (ha : Exec handle t₀ a t) :
    Answered a t := by
  apply ha.invariant_within (P := Answered) hl hfresh
  intro a x b hlog hx ih
  apply ih.step hx
  intro record reply hact
  have hop := httpOp_of_log hs hlog
  rw [hact] at hop
  generalize calls x.caller = call at hop
  generalize history x.caller a = es at hop
  cases hop with
  | begin hinput hop =>
    cases hop with
    | insert t reply => exact ⟨rfl, rfl, rfl⟩

/-- A record that a request started was read or created by it, with the request's scope and hash. -/
theorem shows_of_begun {i : ι} {input : BeginInput} {result : BeginResult}
    (hcourse : BeginCourse U (input.normalize U) (history i a) (.ok result)) :
    ∃ g ∈ a, Shows g result.record.id (input.normalize U).scope (input.normalize U).requestHash := by
  rcases hcourse.origin.2 with ⟨es₀, es₁, record, hhist, hhash, hid⟩ | ⟨es₀, t, hhist⟩
  · obtain ⟨a₁, g, a₂, rfl, -, hg, -, -⟩ := exists_of_history_eq hhist
    have hshown := Shows.read hg
    rw [hid, hhash] at hshown
    exact ⟨g, List.mem_append_right a₁ List.mem_cons_self, hshown⟩
  · obtain ⟨a₁, g, a₂, rfl, -, hg, -, -⟩ := exists_of_history_eq hhist
    exact ⟨g, List.mem_append_right a₁ List.mem_cons_self, .created hg⟩

/-- What is known of the request that wrote a stored response, with the log up to the moment of storing. -/
theorem writer_of_update
    (hs : Config.Sound handle (fun i => (calls i).call U authority sha256 unmarshalTenantID bodyAllowed) t₀ c)
    (hl : c.log = a ++ b) (hx : x ∈ a) {id : ℕ} {status : Status} {responseStatus : ℤ}
    {responseBody : GoString}
    (hact : x.act = ⟨.updateCompleted id status responseStatus responseBody, .ok ()⟩) :
    ∃ req handled input, calls x.caller = .serve req handled ∧
      beginInput U authority sha256 unmarshalTenantID req handled = .ok input ∧
      c.Returned x.caller (some (.executed handled.status handled.capture.sent)) ∧
      (∃ g ∈ a, Shows g id (input.normalize U).scope (input.normalize U).requestHash) ∧
      responseStatus = handled.status ∧
      (status, responseBody) = Service.persisted handled.capture.body handled.sensitive := by
  obtain ⟨a₁, a₂, rfl⟩ := List.append_of_mem hx
  have hsplit : c.log = a₁ ++ x :: (a₂ ++ b) := by
    rw [hl, List.append_assoc, List.cons_append]
  have hop := httpOp_of_log hs hsplit
  have hpath := hs.path_split hsplit
  rw [hact] at hop hpath
  generalize hcall : calls x.caller = call at hop hpath
  generalize hhist : history x.caller a₁ = es at hop
  cases hop with
  | begin hinput hop => cases hop
  | @complete req handled input es result hinput hcourse reply =>
    subst hhist
    obtain ⟨g, hg, hshown⟩ := shows_of_begun hcourse
    have hret : c.calls x.caller = .ret (some (.executed handled.status handled.capture.sent)) :=
      executed_of_update hpath
    refine ⟨req, handled, input, rfl, hinput, ?_, ⟨g, List.mem_append_left _ hg, hshown⟩, rfl, rfl⟩
    exact Prog.result?_eq_some.mpr hret

/-- What a moment of the run stores for a record: the response of a request that ran its handlers. -/
theorem writer_of_stored
    (hs : Config.Sound handle (fun i => (calls i).call U authority sha256 unmarshalTenantID bodyAllowed) t₀ c)
    (hfresh : Answered ([] : List (Event ι)) t₀) (hl : c.log = a ++ b) (ha : Exec handle t₀ a t) {id : ℕ}
    {row : Record} (hrow : t.byID id = some row) {body : GoString} (hbody : row.responseBody = some body) :
    ∃ j req handled input, calls j = .serve req handled ∧
      beginInput U authority sha256 unmarshalTenantID req handled = .ok input ∧
      c.Returned j (some (.executed handled.status handled.capture.sent)) ∧
      row.scope = (input.normalize U).scope ∧ row.requestHash = (input.normalize U).requestHash ∧
      row.responseStatus = some handled.status ∧
      (row.status, body) = Service.persisted handled.capture.body handled.sensitive := by
  rcases answered_of_log hs hfresh hl ha id row hrow with ⟨-, -, hnone⟩ | ⟨x, hx, hupdate⟩
  · rw [hbody] at hnone
    cases hnone
  obtain ⟨status, responseStatus, responseBody, hact, hstatus, hresponse, hstored⟩ := hupdate
  obtain ⟨req, handled, input, hcall, hinput, hret, ⟨g, hg, hshown⟩, rfl, hpersisted⟩ :=
    writer_of_update hs hl hx hact
  obtain ⟨hscope, hhash⟩ := (vouched_of_log hs hl ha g hg _ _ _ hshown).2 row hrow
  have hsame : body = responseBody := by
    rw [hbody] at hstored
    exact Option.some.inj hstored
  refine ⟨x.caller, req, handled, input, hcall, hinput, hret, hscope, hhash, hresponse, ?_⟩
  rw [hsame, hstatus]
  exact hpersisted

end Runs

/-- The parts of the requests that an executed request and its replay share. -/
theorem beginInput_ok {U : CaseTables} {authority : GoString → GoString → Bool} {sha256 : GoString → GoString}
    {unmarshalTenantID : GoString → Option UInt64} {req : HttpRequest} {handled : Handled}
    {input : BeginInput} (h : beginInput U authority sha256 unmarshalTenantID req handled = .ok input) :
    ∃ body tenantID principalID, readBoundedBody req.body = .ok body ∧
      idempotencyScope unmarshalTenantID req body = some (tenantID, principalID) ∧
      input = ⟨tenantID.toNat, principalID.toNat, req.key, req.method, req.path,
        requestHash U authority sha256 req.method req.path body⟩ := by
  unfold beginInput at h
  split_ifs at h
  cases hbody : readBoundedBody req.body with
  | error e =>
    rw [hbody] at h
    cases e <;> cases h
  | ok body =>
    rw [hbody] at h
    dsimp only at h
    cases hscope : idempotencyScope unmarshalTenantID req body with
    | none =>
      rw [hscope] at h
      cases h
    | some ids =>
      rw [hscope] at h
      cases h
      exact ⟨body, ids.1, ids.2, rfl, hscope, rfl⟩

/-- Two requests that the middleware takes for one: same tenant and principal, same key, method and path
but for spaces and case, the same hash, and the same body unless the hash collides on what was hashed. -/
def SameRequest (U : CaseTables) (authority : GoString → GoString → Bool) (sha256 : GoString → GoString)
    (unmarshalTenantID : GoString → Option UInt64) (req req' : HttpRequest) : Prop :=
  ∃ body body', readBoundedBody req.body = .ok body ∧ readBoundedBody req'.body = .ok body' ∧
    idempotencyScope unmarshalTenantID req body = idempotencyScope unmarshalTenantID req' body' ∧
    trimSpace req.key = trimSpace req'.key ∧
    toUpper U (trimSpace req.method) = toUpper U (trimSpace req'.method) ∧
    trimSpace req.path = trimSpace req'.path ∧
    requestHash U authority sha256 req.method req.path body =
      requestHash U authority sha256 req'.method req'.path body' ∧
    (Separates sha256 (hashedText U authority sha256 req body) (hashedText U authority sha256 req' body') →
      Separates sha256 body body' → body = body')

theorem SameRequest.of_input {U : CaseTables} {authority : GoString → GoString → Bool}
    {sha256 : GoString → GoString} {unmarshalTenantID : GoString → Option UInt64} {req req' : HttpRequest}
    {handled handled' : Handled} {input input' : BeginInput}
    (h : beginInput U authority sha256 unmarshalTenantID req handled = .ok input)
    (h' : beginInput U authority sha256 unmarshalTenantID req' handled' = .ok input')
    (hscope : (input.normalize U).scope = (input'.normalize U).scope)
    (hhash : (input.normalize U).requestHash = (input'.normalize U).requestHash) :
    SameRequest U authority sha256 unmarshalTenantID req req' := by
  obtain ⟨body, tenantID, principalID, hbody, hids, rfl⟩ := beginInput_ok h
  obtain ⟨body', tenantID', principalID', hbody', hids', rfl⟩ := beginInput_ok h'
  simp only [BeginInput.normalize, BeginInput.scope, Scope.mk.injEq, UInt64.toNat_inj] at hscope
  obtain ⟨rfl, rfl, hmethod, hpath, hkey⟩ := hscope
  simp only [BeginInput.normalize, trimSpace_requestHash] at hhash
  exact ⟨body, body', hbody, hbody', hids.trans hids'.symm, hkey, hmethod, hpath, hhash,
    body_eq_of_requestHash hhash⟩

/-- No row of the table has a response yet. -/
def Unanswered (t : Records) : Prop :=
  ∀ r ∈ t.rows, r.status = .inProgress ∧ r.responseStatus = none ∧ r.responseBody = none

theorem Unanswered.answered {ι : Type} {t : Records} (h : Unanswered t) :
    Answered ([] : List (Event ι)) t := by
  intro id row hrow
  exact .inl (h row (Database.Table.byID_eq_some.mp hrow).1)

section Results
variable {ι : Type} [DecidableEq ι] (U : CaseTables) (authority : GoString → GoString → Bool)
  (sha256 : GoString → GoString) (unmarshalTenantID : GoString → Option UInt64) (bodyAllowed : ℤ → Bool)

/-- Whatever requests and collections run interleaved, and whatever the driver does: a replay sends the
status and the body that another request for the same thing has sent, and that were not marked sensitive. -/
theorem replay_repeats_response (calls : ι → HttpCall) (t₀ : Records) (hfresh : Unanswered t₀)
    (sched : List (ι × Env)) (i : ι) (req : HttpRequest) (handled : Handled) (status : ℤ) (sent : GoString)
    (hcall : calls i = .serve req handled)
    (hret : (httpWorld U authority sha256 unmarshalTenantID bodyAllowed calls t₀ sched).Returned i
      (some (.replayed status sent))) :
    ∃ j req' handled', calls j = .serve req' handled' ∧ handled'.sensitive = false ∧
      (httpWorld U authority sha256 unmarshalTenantID bodyAllowed calls t₀ sched).Returned j
        (some (.executed status handled'.writes.flatten)) ∧
      sent = (if bodyAllowed status then handled'.writes.flatten else []) ∧
      SameRequest U authority sha256 unmarshalTenantID req req' := by
  have hs : Config.Sound handle (fun i => (calls i).call U authority sha256 unmarshalTenantID bodyAllowed) t₀
      (httpWorld U authority sha256 unmarshalTenantID bodyAllowed calls t₀ sched) := Config.run_sound _ _ _ _
  have hreturns := hs.returns hret
  rw [hcall] at hreturns
  obtain ⟨input, es₀, record, hinput, hhist, hhash, hstatus, rfl, rfl⟩ := read_of_replayed hreturns
  obtain ⟨a, g, b, hl, -, hg, -, -⟩ := exists_of_history_eq hhist
  have hexec := hs.exec
  rw [hl] at hexec
  obtain ⟨ha, hvalid, -⟩ := hexec.split
  have hkey := (Event.selectFirst hvalid hg).2 _ rfl
  have hrow := Database.Table.byID_of_byKey hkey
  have hscope : record.scope = (input.normalize U).scope := (Database.Table.byKey_eq_some.mp hkey).2
  have hstored : ∃ body, record.responseBody = some body := by
    rcases answered_of_log hs hfresh.answered hl ha _ _ hrow with ⟨hprogress, -, -⟩ |
      ⟨x, -, -, -, body, -, -, -, hbody⟩
    · rw [hstatus] at hprogress
      cases hprogress
    · exact ⟨body, hbody⟩
  obtain ⟨body, hbody⟩ := hstored
  obtain ⟨j, req', handled', input', hcall', hinput', hret', hscope', hhash', hresponse, hpersisted⟩ :=
    writer_of_stored hs hfresh.answered hl ha hrow hbody
  have hplain : handled'.sensitive = false := by
    cases hsensitive : handled'.sensitive with
    | false => rfl
    | true =>
      rw [hstatus, hsensitive] at hpersisted
      cases (Prod.mk.inj hpersisted).1
  have hwritten : body = handled'.writes.flatten := by
    rw [hplain] at hpersisted
    have hsame := (Prod.mk.inj hpersisted).2
    rwa [Handled.capture_eq] at hsame
  rw [Handled.capture_eq] at hret'
  refine ⟨j, req', handled', hcall', hplain, ?_, ?_, ?_⟩
  · rw [hresponse]
    exact hret'
  · rw [hbody, hwritten]
    rfl
  · exact .of_input hinput hinput' (hscope.symm.trans hscope') (hhash.symm.trans hhash')

/-- Wherever a schedule leads, a body at rest is what a request of the row's own scope ran its handlers for
and sent, with the stored status, and that response was not marked sensitive. -/
theorem stored_body_not_sensitive (calls : ι → HttpCall) (t₀ : Records) (hfresh : Unanswered t₀)
    (sched : List (ι × Env)) (row : Record) (body : GoString)
    (hrow : row ∈ (httpWorld U authority sha256 unmarshalTenantID bodyAllowed calls t₀ sched).store.rows)
    (hbody : row.responseBody = some body) (hne : body ≠ []) :
    ∃ j req handled input, calls j = .serve req handled ∧ handled.sensitive = false ∧
      beginInput U authority sha256 unmarshalTenantID req handled = .ok input ∧
      row.scope = (input.normalize U).scope ∧ row.responseStatus = some handled.status ∧
      (httpWorld U authority sha256 unmarshalTenantID bodyAllowed calls t₀ sched).Returned j
        (some (.executed handled.status body)) := by
  have hs : Config.Sound handle (fun i => (calls i).call U authority sha256 unmarshalTenantID bodyAllowed) t₀
      (httpWorld U authority sha256 unmarshalTenantID bodyAllowed calls t₀ sched) := Config.run_sound _ _ _ _
  have hfound := Database.Table.byID_eq_some.mpr ⟨hrow, rfl⟩
  obtain ⟨j, req, handled, input, hcall, hinput, hret, hscope, -, hresponse, hpersisted⟩ :=
    writer_of_stored hs hfresh.answered (List.append_nil _).symm hs.exec hfound hbody
  have hplain : handled.sensitive = false := by
    cases hsensitive : handled.sensitive with
    | false => rfl
    | true =>
      rw [hsensitive] at hpersisted
      exact absurd (Prod.mk.inj hpersisted).2 hne
  refine ⟨j, req, handled, input, hcall, hplain, hinput, hscope, hresponse, ?_⟩
  -- what was captured is what was sent
  rw [hplain] at hpersisted
  have hcaptured : body = handled.capture.body := (Prod.mk.inj hpersisted).2
  rw [Handled.capture_eq] at hcaptured hret
  rw [hcaptured]
  exact hret

end Results

/-- Requests of tenant 1 for the same job; the second has spaces around its key, and other handlers. -/
def samplePost (second : Bool) : HttpRequest where
  key := if second then lit " k " else lit "k"
  method := lit "POST"
  path := lit "/jobs"
  body := some ⟨lit "x", false⟩
  tenantClaims := some ⟨1, [], 2, [], none, 0, lit "tenant", none, ⟨[], [], none, none⟩⟩
  platformClaims := none
  tenantParam := []
  tenantQuery := []

def sampleHandled (second : Bool) : Handled :=
  if second then ⟨[lit "job 8"], 202, []⟩ else ⟨[lit "job ", lit "7"], 201, []⟩

def samplePosts (second : Bool) : HttpCall := .serve (samplePost second) (sampleHandled second)

/-- The second request comes when the first is done. -/
def sampleOrder : List (Bool × Env) :=
  [(false, atSecond 0), (false, atSecond 0), (false, atSecond 0), (false, atSecond 1), (true, atSecond 2)]

def sampleWorld : Config Bool Sql Reply Env Records (Option HttpAnswer) :=
  httpWorld asciiTables (fun _ _ => true) Crypto.sha256 (fun _ => none) (fun _ => true) samplePosts
    (Database.Table.empty schema) sampleOrder

theorem sampleWorld_replays : sampleWorld.Returned true (some (.replayed 201 (lit "job 7"))) := by
  decide +kernel

theorem samplePosts_replayed : ∃ j req' handled', samplePosts j = .serve req' handled' ∧
    handled'.sensitive = false ∧ sampleWorld.Returned j (some (.executed 201 handled'.writes.flatten)) ∧
    lit "job 7" = (if true then handled'.writes.flatten else []) ∧
    SameRequest asciiTables (fun _ _ => true) Crypto.sha256 (fun _ => none) (samplePost true) req' :=
  replay_repeats_response asciiTables (fun _ _ => true) Crypto.sha256 (fun _ => none) (fun _ => true)
    samplePosts (Database.Table.empty schema) nofun sampleOrder true _ _ 201
      (lit "job 7") rfl sampleWorld_replays

/-- The row that the first request leaves. -/
def sampleRow : Record where
  id := 1
  scope := ⟨1, 2, lit "POST", lit "/jobs", lit "k"⟩
  requestHash := requestHash asciiTables (fun _ _ => true) Crypto.sha256 (lit "POST") (lit "/jobs") (lit "x")
  status := .completed
  responseStatus := some 201
  responseBody := some (lit "job 7")
  createdAt := 0
  updatedAt := 10 ^ 9
  expiresAt := ttl
  runningExpiresAt := none

theorem sampleRow_mem : sampleRow ∈ sampleWorld.store.rows := by
  decide +kernel

theorem samplePosts_stored : ∃ j req handled input, samplePosts j = .serve req handled ∧
    handled.sensitive = false ∧
    beginInput asciiTables (fun _ _ => true) Crypto.sha256 (fun _ => none) req handled = .ok input ∧
    sampleRow.scope = (input.normalize asciiTables).scope ∧ sampleRow.responseStatus = some handled.status ∧
    sampleWorld.Returned j (some (.executed handled.status (lit "job 7"))) := by
  have hmem := sampleRow_mem
  unfold sampleWorld at hmem ⊢
  exact stored_body_not_sensitive asciiTables (fun _ _ => true) Crypto.sha256 (fun _ => none) (fun _ => true)
    samplePosts (Database.Table.empty schema) nofun sampleOrder sampleRow (lit "job 7") hmem rfl (by decide)

end SynapseGo.Idempotency
