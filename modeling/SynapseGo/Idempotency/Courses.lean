import SynapseGo.Idempotency.Service

/-! The courses the calls of `Service` can take: their operations and replies, with the result. -/
namespace SynapseGo.Idempotency
open SynapseGo.Go SynapseGo.Concurrency

/-- Every course of `decisionForExisting`. -/
inductive Decision (record : Record) (hash : GoString) :
    List (Σ e, Reply e) → Except Err BeginResult → Prop
  | mismatch (hh : record.requestHash ≠ hash) : Decision record hash [] (.error .requestMismatch)
  | replay (hh : record.requestHash = hash) (hs : record.status = .completed) :
    Decision record hash [] (.ok (.replayOf record))
  | sensitive (hh : record.requestHash = hash) (hs : record.status = .completedSensitive) :
    Decision record hash [] (.error .sensitiveResponse)
  | leaseless (hh : record.requestHash = hash) (hs : record.status = .inProgress)
    (hr : record.runningExpiresAt = none) : Decision record hash [] (.error .requestInProcess)
  | running (r t : ℤ) (hh : record.requestHash = hash) (hs : record.status = .inProgress)
    (hr : record.runningExpiresAt = some r) (ht : t ≤ r) :
    Decision record hash [⟨.now, t⟩] (.error .requestInProcess)
  | takeover (r t n : ℤ) (hh : record.requestHash = hash) (hs : record.status = .inProgress)
    (hr : record.runningExpiresAt = some r) (ht : r < t) :
    Decision record hash
      [⟨.now, t⟩, ⟨.now, n⟩, ⟨.updateRestarted record.id hash (n + runningTimeout) n, .ok ()⟩]
      (.ok (.startedWith { record with updatedAt := n, runningExpiresAt := some (n + runningTimeout) }))
  | takeoverFailed (r t n : ℤ) (text : GoString) (hh : record.requestHash = hash)
    (hs : record.status = .inProgress) (hr : record.runningExpiresAt = some r) (ht : r < t) :
    Decision record hash
      [⟨.now, t⟩, ⟨.now, n⟩, ⟨.updateRestarted record.id hash (n + runningTimeout) n, .error text⟩]
      (.error (.driver text))

/-- Every course of `Begin` on a valid normalized input. -/
inductive BeginCourse (U : CaseTables) (x : BeginInput) :
    List (Σ e, Reply e) → Except Err BeginResult → Prop
  | found {es : List (Σ e, Reply e)} {out : Except Err BeginResult} (record : Record)
    (hd : Decision record x.requestHash es out) :
    BeginCourse U x (⟨.selectFirst x.scope, .ok (some record)⟩ :: es) out
  | created (t : ℤ) (id : ℕ) :
    BeginCourse U x
      [⟨.selectFirst x.scope, .ok none⟩, ⟨.now, t⟩, ⟨.insert (x.record t), .ok id⟩]
      (.ok (.startedWith { x.record t with id := id }))
  | lost {es : List (Σ e, Reply e)} {out : Except Err BeginResult} (t : ℤ) (text : GoString)
    (record : Record) (hk : Repo.isDuplicateKey U text = true)
    (hd : Decision record x.requestHash es out) :
    BeginCourse U x
      (⟨.selectFirst x.scope, .ok none⟩ :: ⟨.now, t⟩ :: ⟨.insert (x.record t), .error text⟩ ::
        ⟨.selectFirst x.scope, .ok (some record)⟩ :: es) out
  | vanished (t : ℤ) (text : GoString) (hk : Repo.isDuplicateKey U text = true) :
    BeginCourse U x
      [⟨.selectFirst x.scope, .ok none⟩, ⟨.now, t⟩, ⟨.insert (x.record t), .error text⟩,
        ⟨.selectFirst x.scope, .ok none⟩] (.error .notFound)
  | readFailed (text : GoString) :
    BeginCourse U x [⟨.selectFirst x.scope, .error text⟩] (.error (.driver text))
  | insertFailed (t : ℤ) (text : GoString) (hk : Repo.isDuplicateKey U text = false) :
    BeginCourse U x
      [⟨.selectFirst x.scope, .ok none⟩, ⟨.now, t⟩, ⟨.insert (x.record t), .error text⟩]
      (.error (.driver text))
  | rereadFailed (t : ℤ) (text text' : GoString) (hk : Repo.isDuplicateKey U text = true) :
    BeginCourse U x
      [⟨.selectFirst x.scope, .ok none⟩, ⟨.now, t⟩, ⟨.insert (x.record t), .error text⟩,
        ⟨.selectFirst x.scope, .error text'⟩] (.error (.driver text'))

theorem Decision.of_returns {record : Record} {hash : GoString} {es : List (Σ e, Reply e)}
    {out : Except Err BeginResult}
    (h : (Service.decisionForExisting record hash).Returns es out) : Decision record hash es out := by
  unfold Service.decisionForExisting at h
  split_ifs at h with hh
  · obtain ⟨rfl, rfl⟩ := Prog.returns_ret.mp h
    exact .mismatch hh
  · have hh : record.requestHash = hash := not_not.mp hh
    split at h
    next hs =>
      obtain ⟨rfl, rfl⟩ := Prog.returns_ret.mp h
      exact .replay hh hs
    next hs =>
      obtain ⟨rfl, rfl⟩ := Prog.returns_ret.mp h
      exact .sensitive hh hs
    next hs =>
      split at h
      next hr =>
        obtain ⟨rfl, rfl⟩ := Prog.returns_ret.mp h
        exact .leaseless hh hs hr
      next r hr =>
        rw [Prog.perform_bind] at h
        obtain ⟨t, es₁, rfl, h₁⟩ := Prog.returns_op.mp h
        split_ifs at h₁ with ht
        · obtain ⟨n, es₂, rfl, h₂⟩ := Prog.returns_op.mp h₁
          obtain ⟨reply, es₃, rfl, h₃⟩ := Prog.returns_op.mp h₂
          cases reply with
          | error text =>
            obtain ⟨rfl, rfl⟩ := Prog.returns_ret.mp h₃
            exact .takeoverFailed r t n text hh hs hr ht
          | ok _ =>
            obtain ⟨rfl, rfl⟩ := Prog.returns_ret.mp h₃
            exact .takeover r t n hh hs hr ht
        · obtain ⟨rfl, rfl⟩ := Prog.returns_ret.mp h₁
          exact .running r t hh hs hr (not_lt.mp ht)

/-- `Begin` returns only by one of its courses. -/
theorem BeginCourse.of_returns {U : CaseTables} {input : BeginInput} {es : List (Σ e, Reply e)}
    {out : Except Err BeginResult} (h : (Service.begin U input).Returns es out) :
    ((input.normalize U).valid = false ∧ es = [] ∧ out = .error .invalidInput) ∨
      ((input.normalize U).valid = true ∧ BeginCourse U (input.normalize U) es out) := by
  unfold Service.begin at h
  dsimp only at h
  split_ifs at h with hv
  · obtain ⟨rfl, rfl⟩ := Prog.returns_ret.mp h
    exact Or.inl ⟨by simpa using hv, rfl, rfl⟩
  · refine Or.inr ⟨by simpa using hv, ?_⟩
    obtain ⟨reply, es₁, rfl, h₁⟩ := Prog.returns_op.mp h
    match reply, h₁ with
    | .error text, h₁ =>
      obtain ⟨rfl, rfl⟩ := Prog.returns_ret.mp h₁
      exact .readFailed text
    | .ok (some record), h₁ => exact .found record (.of_returns h₁)
    | .ok none, h₁ =>
      obtain ⟨t, es₂, rfl, h₂⟩ := Prog.returns_op.mp h₁
      obtain ⟨reply, es₃, rfl, h₃⟩ := Prog.returns_op.mp h₂
      match reply, h₃ with
      | .ok id, h₃ =>
        obtain ⟨rfl, rfl⟩ := Prog.returns_ret.mp h₃
        exact .created t id
      | .error text, h₃ =>
        cases hk : Repo.isDuplicateKey U text with
        | false =>
          simp only [Prog.bind, Prog.pure_eq_ret, hk] at h₃
          obtain ⟨rfl, rfl⟩ := Prog.returns_ret.mp h₃
          exact .insertFailed t text hk
        | true =>
          simp only [Prog.bind, Prog.pure_eq_ret, hk] at h₃
          obtain ⟨reply, es₄, rfl, h₄⟩ := Prog.returns_op.mp h₃
          match reply, h₄ with
          | .error text', h₄ =>
            obtain ⟨rfl, rfl⟩ := Prog.returns_ret.mp h₄
            exact .rereadFailed t text text' hk
          | .ok none, h₄ =>
            obtain ⟨rfl, rfl⟩ := Prog.returns_ret.mp h₄
            exact .vanished t text hk
          | .ok (some record), h₄ => exact .lost t text record hk (.of_returns h₄)

/-- The operations `decisionForExisting` issues, each with what the call did before. -/
inductive DecisionOp (record : Record) (hash : GoString) : List (Σ e, Reply e) → (Σ e, Reply e) → Prop
  | now (es : List (Σ e, Reply e)) (t : ℤ) : DecisionOp record hash es ⟨.now, t⟩
  | restart (r t n : ℤ) (reply : Except GoString Unit) (hh : record.requestHash = hash)
    (hs : record.status = .inProgress) (hr : record.runningExpiresAt = some r) (ht : r < t) :
    DecisionOp record hash [⟨.now, t⟩, ⟨.now, n⟩]
      ⟨.updateRestarted record.id hash (n + runningTimeout) n, reply⟩

/-- The operations `Begin` issues, each with what the call did before. -/
inductive BeginOp (x : BeginInput) : List (Σ e, Reply e) → (Σ e, Reply e) → Prop
  | get (es : List (Σ e, Reply e)) (reply : Except GoString (Option Record)) :
    BeginOp x es ⟨.selectFirst x.scope, reply⟩
  | now (es : List (Σ e, Reply e)) (t : ℤ) : BeginOp x es ⟨.now, t⟩
  | insert (t : ℤ) (reply : Except GoString ℕ) :
    BeginOp x [⟨.selectFirst x.scope, .ok none⟩, ⟨.now, t⟩] ⟨.insert (x.record t), reply⟩
  | restart (es : List (Σ e, Reply e)) (record : Record) (r t n : ℤ) (reply : Except GoString Unit)
    (hh : record.requestHash = x.requestHash) (hs : record.status = .inProgress)
    (hr : record.runningExpiresAt = some r) (ht : r < t) :
    BeginOp x (es ++ [⟨.selectFirst x.scope, .ok (some record)⟩, ⟨.now, t⟩, ⟨.now, n⟩])
      ⟨.updateRestarted record.id x.requestHash (n + runningTimeout) n, reply⟩

theorem DecisionOp.of_path {record : Record} {hash : GoString} {es es' : List (Σ e, Reply e)}
    {y : Σ e, Reply e} {q : Call (Except Err BeginResult)}
    (h : (Service.decisionForExisting record hash).Path (es ++ y :: es') q) :
    DecisionOp record hash es y := by
  unfold Service.decisionForExisting at h
  split_ifs at h with hh
  · exact h.ret_split.elim
  · have hh : record.requestHash = hash := not_not.mp hh
    split at h
    next => exact h.ret_split.elim
    next => exact h.ret_split.elim
    next hs =>
      split at h
      next => exact h.ret_split.elim
      next r hr =>
        rw [Prog.perform_bind] at h
        rcases Prog.Path.op_split h with ⟨-, t, rfl⟩ | ⟨t, es₁, rfl, h₁⟩
        · exact .now es t
        · split_ifs at h₁ with ht
          · rcases Prog.Path.op_split h₁ with ⟨-, n, rfl⟩ | ⟨n, es₂, rfl, h₂⟩
            · exact .now _ n
            · rcases Prog.Path.op_split h₂ with ⟨rfl, reply, rfl⟩ | ⟨reply, es₃, rfl, h₃⟩
              · exact .restart r t n reply hh hs hr ht
              · cases reply <;> exact h₃.ret_split.elim
          · exact h₁.ret_split.elim

theorem DecisionOp.beginOp {x : BeginInput} {record : Record} {es : List (Σ e, Reply e)}
    {y : Σ e, Reply e} (h : DecisionOp record x.requestHash es y) (es₀ : List (Σ e, Reply e)) :
    BeginOp x (es₀ ++ ⟨.selectFirst x.scope, .ok (some record)⟩ :: es) y := by
  cases h with
  | now => exact .now _ _
  | restart r t n reply hh hs hr ht => exact .restart es₀ record r t n reply hh hs hr ht

theorem BeginOp.of_path {U : CaseTables} {input : BeginInput} {es es' : List (Σ e, Reply e)}
    {y : Σ e, Reply e} {q : Call (Except Err BeginResult)}
    (h : (Service.begin U input).Path (es ++ y :: es') q) : BeginOp (input.normalize U) es y := by
  unfold Service.begin at h
  dsimp only at h
  split_ifs at h
  · exact h.ret_split.elim
  · rcases Prog.Path.op_split h with ⟨-, reply, rfl⟩ | ⟨reply, es₁, rfl, h₁⟩
    · exact .get es reply
    match reply, h₁ with
    | .error text, h₁ => exact h₁.ret_split.elim
    | .ok (some record), h₁ => exact (DecisionOp.of_path h₁).beginOp []
    | .ok none, h₁ =>
      rcases Prog.Path.op_split h₁ with ⟨-, t, rfl⟩ | ⟨t, es₂, rfl, h₂⟩
      · exact .now _ t
      rcases Prog.Path.op_split h₂ with ⟨rfl, reply, rfl⟩ | ⟨reply, es₃, rfl, h₃⟩
      · exact .insert t reply
      match reply, h₃ with
      | .ok id, h₃ => exact h₃.ret_split.elim
      | .error text, h₃ =>
        cases hk : Repo.isDuplicateKey U text with
        | false =>
          simp only [Prog.bind, Prog.pure_eq_ret, hk] at h₃
          exact h₃.ret_split.elim
        | true =>
          simp only [Prog.bind, Prog.pure_eq_ret, hk] at h₃
          rcases Prog.Path.op_split h₃ with ⟨-, reply, rfl⟩ | ⟨reply, es₄, rfl, h₄⟩
          · exact .get _ reply
          match reply, h₄ with
          | .error text', h₄ => exact h₄.ret_split.elim
          | .ok none, h₄ => exact h₄.ret_split.elim
          | .ok (some record), h₄ => exact (DecisionOp.of_path h₄).beginOp [_, _, _]

theorem Decision.restarts_of_started {record : Record} {hash : GoString} {es : List (Σ e, Reply e)}
    {result : BeginResult} (h : Decision record hash es (.ok result)) (hs : result.started = true) :
    ∃ running now, result.record.id = record.id ∧
      ⟨.updateRestarted record.id hash running now, .ok ()⟩ ∈ es := by
  cases h with
  | replay => simp [BeginResult.replayOf] at hs
  | takeover r t n => exact ⟨n + runningTimeout, n, rfl, by simp⟩

/-- `Started` is returned for a record just inserted or just restarted. -/
theorem BeginCourse.of_started {U : CaseTables} {x : BeginInput} {es : List (Σ e, Reply e)}
    {result : BeginResult} (h : BeginCourse U x es (.ok result)) (hs : result.started = true) :
    (∃ t, es = [⟨.selectFirst x.scope, .ok none⟩, ⟨.now, t⟩,
        ⟨.insert (x.record t), .ok result.record.id⟩]) ∨
      ∃ hash running now, ⟨.updateRestarted result.record.id hash running now, .ok ()⟩ ∈ es := by
  cases h with
  | found record hd =>
    obtain ⟨running, now, hid, hm⟩ := hd.restarts_of_started hs
    exact Or.inr ⟨_, running, now, List.mem_cons_of_mem _ (hid ▸ hm)⟩
  | created t id => exact Or.inl ⟨t, rfl⟩
  | lost t text record hk hd =>
    obtain ⟨running, now, hid, hm⟩ := hd.restarts_of_started hs
    refine Or.inr ⟨x.requestHash, running, now, ?_⟩
    rw [hid]
    simp [hm]

theorem Decision.no_get {record : Record} {hash : GoString} {es : List (Σ e, Reply e)}
    {out : Except Err BeginResult} (h : Decision record hash es out) {y : Σ e, Reply e} (hy : y ∈ es)
    {scope : Scope} {reply : Except GoString (Option Record)} : y ≠ ⟨.selectFirst scope, reply⟩ := by
  rintro rfl
  cases h <;> simp at hy

theorem Decision.started_eq {record : Record} {hash : GoString} {es : List (Σ e, Reply e)}
    {result : BeginResult} (h : Decision record hash es (.ok result)) :
    result.started = !result.replay := by
  cases h <;> rfl

/-- A successful `Begin` either starts or replays. -/
theorem BeginCourse.started_eq {U : CaseTables} {x : BeginInput} {es : List (Σ e, Reply e)}
    {result : BeginResult} (h : BeginCourse U x es (.ok result)) :
    result.started = !result.replay := by
  cases h with
  | found record hd => exact hd.started_eq
  | created t id => rfl
  | lost t text record hk hd => exact hd.started_eq

/-- A replay repeats the completed record that the last read of the call found. -/
theorem BeginCourse.of_replay {U : CaseTables} {x : BeginInput} {es : List (Σ e, Reply e)}
    {result : BeginResult} (h : BeginCourse U x es (.ok result)) (hr : result.replay = true) :
    ∃ es₀ record, es = es₀ ++ [⟨.selectFirst x.scope, .ok (some record)⟩] ∧
      record.requestHash = x.requestHash ∧ record.status = .completed ∧ result = .replayOf record := by
  cases h with
  | found record hd =>
    cases hd with
    | replay hh hs => exact ⟨[], record, rfl, hh, hs, rfl⟩
    | takeover => simp [BeginResult.startedWith] at hr
  | created => simp [BeginResult.startedWith] at hr
  | lost t text record hk hd =>
    cases hd with
    | replay hh hs => exact ⟨[_, _, _], record, rfl, hh, hs, rfl⟩
    | takeover => simp [BeginResult.startedWith] at hr

end SynapseGo.Idempotency
