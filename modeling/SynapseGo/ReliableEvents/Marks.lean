import SynapseGo.Concurrency.Serial
import SynapseGo.ReliableEvents.Service

/-! The marks of the consumers: what a nil from `MarkProcessed` says about the table, and what
`IsProcessed` makes of it. -/
namespace SynapseGo.ReliableEvents
open SynapseGo.Go SynapseGo.Concurrency

section Interleaved
variable {ι : Type}

abbrev MarkEvent (ι : Type) := Entry ι Statement Answer Surroundings Store

/-- What one statement does to the marks. -/
theorem MarkEvent.marks {x : MarkEvent ι} (hx : x.Valid execute) : x.post.marks = x.pre.marks ∨
    ∃ row h, x.act = ⟨.insertProcessed row, .ok ()⟩ ∧ x.post.marks = x.pre.marks.insert row h := by
  obtain ⟨e, reply, ha⟩ : ∃ e reply, x.act = ⟨e, reply⟩ := ⟨_, _, rfl⟩
  have hstep := hx.handle ha
  cases e with
  | outbox sql =>
    have hpost := congrArg (fun r => r.2.marks) hstep
    exact Or.inl hpost.symm
  | insertProcessed row =>
    rcases Database.faulty_cases hstep with ⟨_, -, hpost⟩ | hdone
    · simp [hpost]
    · split_ifs at hdone with hfree
      · obtain ⟨hreply, hpost⟩ := Prod.mk.inj hdone
        refine Or.inr ⟨row, hfree, ?_, ?_⟩
        · rw [ha, ← hreply]
        · rw [← hpost]
      · have hpost : x.pre = x.post := congrArg Prod.snd hdone
        simp [hpost]
  | list limit offset =>
    rcases Database.faulty_ok_cases hstep with ⟨_, -, hpost⟩ | ⟨-, hpost⟩ <;> simp [hpost]
  | countProcessed consumerName eventID =>
    rcases Database.faulty_ok_cases hstep with ⟨_, -, hpost⟩ | ⟨-, hpost⟩ <;> simp [hpost]
  | now =>
    have hpost : x.pre = x.post := congrArg Prod.snd hstep
    simp [hpost]
  | newEventID =>
    have hpost : x.pre = x.post := congrArg Prod.snd hstep
    simp [hpost]

/-- Marks are never taken back. -/
theorem MarkEvent.count_le {x : MarkEvent ι} (hx : x.Valid execute) (k : GoString × GoString) :
    x.pre.marks.count k ≤ x.post.marks.count k := by
  rcases MarkEvent.marks hx with hsame | ⟨row, hfree, -, hpost⟩
  · rw [hsame]
  · simp [hpost]

theorem MarkEvent.countProcessed {x : MarkEvent ι} (hx : x.Valid execute) {consumerName eventID : GoString}
    {count : ℕ} (ha : x.act = ⟨.countProcessed consumerName eventID, .ok count⟩) :
    count = x.pre.marks.count (consumerName, eventID) := by
  rcases Database.faulty_ok_cases (hx.handle ha) with ⟨_, hreply, -⟩ | ⟨hreply, -⟩
  · cases hreply
  · exact Except.ok.inj hreply

theorem MarkEvent.insertProcessed_ok {x : MarkEvent ι} (hx : x.Valid execute) {row : EventProcessed}
    (ha : x.act = ⟨.insertProcessed row, .ok ()⟩) : 0 < x.post.marks.count row.key := by
  rcases Database.faulty_cases (hx.handle ha) with ⟨_, hreply, -⟩ | hdone
  · cases hreply
  · split_ifs at hdone with hfree
    · have hpost := (Prod.mk.inj hdone).2
      simp [← hpost]
    · have hreply := congrArg Prod.fst hdone
      cases hreply

theorem MarkEvent.insertProcessed_error {x : MarkEvent ι} (hx : x.Valid execute) {row : EventProcessed}
    {text : GoString} (ha : x.act = ⟨.insertProcessed row, .error text⟩) : x.post = x.pre := by
  rcases Database.faulty_cases (hx.handle ha) with ⟨_, -, hpost⟩ | hdone
  · exact hpost
  · split_ifs at hdone with hfree
    · have hreply := congrArg Prod.fst hdone
      cases hreply
    · exact (congrArg Prod.snd hdone).symm

theorem count_le_of_exec {l : List (MarkEvent ι)} {s t : Store} (hl : Exec execute s l t)
    (k : GoString × GoString) : s.marks.count k ≤ t.marks.count k :=
  hl.invariant (P := fun u => s.marks.count k ≤ u.marks.count k)
    (fun _ _ hx hpre => hpre.trans (MarkEvent.count_le hx k)) le_rfl

structure MarkInput where
  consumerName : GoString
  event : Option Outbox
  deriving DecidableEq, Repr

/-- The primary key of the row a mark stands for. -/
def MarkInput.key (m : MarkInput) : Option (GoString × GoString) :=
  m.event.map fun e => (trimSpace m.consumerName, e.eventID)

def MarkInput.call (U : CaseTables) (m : MarkInput) : ServiceCall (Except Err Unit) :=
  Service.markProcessed U m.consumerName m.event

/-- The courses of `MarkProcessed` that end in nil. -/
inductive MarkCourse (U : CaseTables) (k : GoString × GoString) : List (Σ e, Answer e) → Prop
  | found {count : ℕ} (hc : 0 < count) : MarkCourse U k [⟨.countProcessed k.1 k.2, .ok count⟩]
  | inserted (row : EventProcessed) (now : ℤ) (hk : row.key = k) :
    MarkCourse U k [⟨.countProcessed k.1 k.2, .ok 0⟩, ⟨.now, now⟩, ⟨.insertProcessed row, .ok ()⟩]
  | reported (row : EventProcessed) (now : ℤ) (text : GoString) (hk : row.key = k)
    (ht : Repo.isDuplicateKey U text = true) :
    MarkCourse U k [⟨.countProcessed k.1 k.2, .ok 0⟩, ⟨.now, now⟩, ⟨.insertProcessed row, .error text⟩]

theorem MarkCourse.of_returns {U : CaseTables} {m : MarkInput} {es : List (Σ e, Answer e)}
    (h : (m.call U).Returns es (.ok ())) : ∃ k ∈ m.key, MarkCourse U k es := by
  obtain ⟨consumerName, event⟩ := m
  unfold MarkInput.call Service.markProcessed at h
  dsimp only at h
  cases event with
  | none => simp at h
  | some event =>
    refine ⟨(trimSpace consumerName, event.eventID), rfl, ?_⟩
    dsimp only at h
    split_ifs at h
    · simp at h
    · obtain ⟨reply, es₁, rfl, h₁⟩ := Prog.returns_op.mp h
      match reply, h₁ with
      | .error text, h₁ =>
        have hret := (Prog.returns_ret.mp h₁).2
        cases hret
      | .ok 0, h₁ =>
        obtain ⟨now, es₂, rfl, h₂⟩ := Prog.returns_op.mp h₁
        obtain ⟨reply, es₃, rfl, h₃⟩ := Prog.returns_op.mp h₂
        match reply, h₃ with
        | .ok _, h₃ =>
          obtain ⟨rfl, -⟩ := Prog.returns_ret.mp h₃
          exact .inserted _ now rfl
        | .error text, h₃ =>
          obtain ⟨rfl, hret⟩ := Prog.returns_ret.mp h₃
          have ht : Repo.isDuplicateKey U text = true := by
            by_contra hnot
            simp [hnot] at hret
          exact .reported _ now text rfl ht
      | .ok (count + 1), h₁ =>
        obtain ⟨rfl, -⟩ := Prog.returns_ret.mp h₁
        exact .found (Nat.succ_pos count)

/-- A failed insert that reads as a duplicate ends its call with nil. -/
theorem returns_of_reported {U : CaseTables} {m : MarkInput} {es es' : List (Σ e, Answer e)}
    {row : EventProcessed} {text : GoString} {q : ServiceCall (Except Err Unit)}
    (h : (m.call U).Path (es ++ ⟨.insertProcessed row, .error text⟩ :: es') q)
    (ht : Repo.isDuplicateKey U text = true) :
    row.key ∈ m.key ∧ (m.call U).Returns (es ++ [⟨.insertProcessed row, .error text⟩]) (.ok ()) := by
  obtain ⟨consumerName, event⟩ := m
  unfold MarkInput.call Service.markProcessed at h ⊢
  dsimp only at h ⊢
  cases event with
  | none => exact h.ret_split.elim
  | some event =>
    dsimp only at h ⊢
    split_ifs at h ⊢
    · exact h.ret_split.elim
    · rcases Prog.Path.op_split h with ⟨-, reply, hy⟩ | ⟨reply, es₁, rfl, h₁⟩
      · cases hy
      match reply, h₁ with
      | .error text, h₁ => exact h₁.ret_split.elim
      | .ok (count + 1), h₁ => exact h₁.ret_split.elim
      | .ok 0, h₁ =>
        rcases Prog.Path.op_split h₁ with ⟨-, now, hy⟩ | ⟨now, es₂, rfl, h₂⟩
        · cases hy
        rcases Prog.Path.op_split h₂ with ⟨rfl, reply, hy⟩ | ⟨reply, es₃, rfl, h₃⟩
        · cases hy
          have hret : (if Repo.isDuplicateKey U text then Except.ok () else .error (Err.driver text)) =
              .ok () := if_pos ht
          refine ⟨rfl, .cons (.cons (.cons (Prog.returns_ret.mpr ⟨rfl, hret⟩)))⟩
        · cases reply <;> exact h₃.ret_split.elim

/-- An insert that fails with a text that reads as a duplicate finds the row it wanted to write. -/
def Honest (U : CaseTables) (x : MarkEvent ι) : Prop :=
  match x.act with
  | ⟨.insertProcessed row, .error text⟩ =>
    Repo.isDuplicateKey U text = true → 0 < x.pre.marks.count row.key
  | _ => True

section
variable [DecidableEq ι]

/-- At every moment of the run, a call that has returned nil has its row, and no key has two. -/
def SuccessesRecorded (U : CaseTables) (inputs : ι → MarkInput) (s₀ : Store) (log : List (MarkEvent ι)) :
    Prop :=
  ∀ a b s, log = a ++ b → Exec execute s₀ a s →
    (∀ i, ((inputs i).call U).Returns (history i a) (.ok ()) →
      ∃ k ∈ (inputs i).key, 0 < s.marks.count k) ∧
    ∀ k, s.marks.count k ≤ 1

abbrev MarkWorld (ι : Type) := Config ι Statement Answer Surroundings Store (Except Err Unit)

/-- Where a schedule leads the `MarkProcessed` calls `inputs` on the store `s₀`. -/
def markWorld (U : CaseTables) (inputs : ι → MarkInput) (s₀ : Store) (sched : List (ι × Surroundings)) :
    MarkWorld ι :=
  (Config.start (fun i => (inputs i).call U) s₀).run execute sched

theorem recorded_of_course {U : CaseTables} {i : ι} {s₀ s : Store} {a : List (MarkEvent ι)}
    {k : GoString × GoString} (hexec : Exec execute s₀ a s) (hh : ∀ x ∈ a, Honest U x)
    (hcourse : MarkCourse U k (history i a)) : 0 < s.marks.count k := by
  generalize hes : history i a = es at hcourse
  cases hcourse with
  | @found count hc =>
    obtain ⟨a₁, x, a₂, rfl, -, hx, -, -⟩ := exists_of_history_cons hes
    obtain ⟨-, hv, hrest⟩ := hexec.split
    have hcount : count = x.pre.marks.count k := MarkEvent.countProcessed hv hx
    have hpost := MarkEvent.count_le hv k
    have hlater := count_le_of_exec hrest k
    omega
  | inserted row now hk =>
    have hes : history i a = [_, _] ++ [_] := hes
    obtain ⟨a₁, x, a₂, rfl, -, hx, -, -⟩ := exists_of_history_eq hes
    obtain ⟨-, hv, hrest⟩ := hexec.split
    have hpost := MarkEvent.insertProcessed_ok hv hx
    rw [hk] at hpost
    exact hpost.trans_le (count_le_of_exec hrest k)
  | reported row now text hk ht =>
    have hes : history i a = [_, _] ++ [_] := hes
    obtain ⟨a₁, x, a₂, rfl, -, hx, -, -⟩ := exists_of_history_eq hes
    obtain ⟨-, hv, hrest⟩ := hexec.split
    have hpre := hh x (by simp)
    simp only [Honest, hx] at hpre
    have hpre := hpre ht
    rw [hk] at hpre
    exact hpre.trans_le ((MarkEvent.count_le hv k).trans (count_le_of_exec hrest k))

/-- Every nil stands for a row exactly in the runs in which no other failure reads as a duplicate. -/
theorem successesRecorded_iff_honest (U : CaseTables) (inputs : ι → MarkInput) (s₀ : Store)
    (sched : List (ι × Surroundings)) :
    let c := markWorld U inputs s₀ sched
    SuccessesRecorded U inputs s₀ c.log ↔ ∀ x ∈ c.log, Honest U x := by
  intro c
  have hs : Config.Sound execute (fun i => (inputs i).call U) s₀ c := Config.run_sound execute _ s₀ sched
  constructor
  · intro h x hx
    obtain ⟨a, b, hl⟩ := List.append_of_mem hx
    have hexec := hs.exec
    rw [hl] at hexec
    obtain ⟨ha, hv, -⟩ := hexec.split
    unfold Honest
    split
    · next row text hact =>
      intro ht
      have hpath := hs.path_split hl
      rw [hact] at hpath
      obtain ⟨hkey, hret⟩ := returns_of_reported hpath ht
      have hhist : history x.caller (a ++ [x]) =
          history x.caller a ++ [⟨.insertProcessed row, .error text⟩] := by
        simp [← hact]
      rw [← hhist] at hret
      have hnow := h (a ++ [x]) b x.post (by simp [hl]) (ha.append ⟨rfl, hv, rfl⟩)
      obtain ⟨k, hk, hpos⟩ := hnow.1 _ hret
      cases Option.mem_unique hk hkey
      rwa [MarkEvent.insertProcessed_error hv hact] at hpos
    · trivial
  · intro hh a b s hl ha
    refine ⟨fun i hret => ?_, s.marks.count_le_one⟩
    obtain ⟨k, hk, hcourse⟩ := MarkCourse.of_returns hret
    refine ⟨k, hk, recorded_of_course ha (fun x hx => hh x ?_) hcourse⟩
    rw [hl]
    exact List.mem_append_left b hx

end

def sampleEvent : Outbox :=
  ⟨1, lit "e1", 7, lit "order.paid", 1, lit "null", none, lit "billing", lit "null", .pending, 0, none, 0,
    none⟩

def sampleMark : MarkInput := ⟨lit "mailer", some sampleEvent⟩

/-- A step at second `t`, on which the driver fails with `fault`. -/
def marksAt (t : ℤ) (fault : Option GoString) : Surroundings := ⟨⟨t * 10 ^ 9, t * 10 ^ 9, fault, id⟩, []⟩

/-- The database is down; its port happens to contain the digits of the duplicate-key error. -/
def refusedSchedule : List (Unit × Surroundings) :=
  [((), marksAt 0 none), ((), marksAt 0 none),
    ((), marksAt 0 (some (lit "dial tcp 10.0.0.5:31062: connect: connection refused")))]

/-- The call returns nil and leaves no row. -/
theorem refused_not_recorded :
    let c := markWorld ⟨id, id⟩ (fun _ : Unit => sampleMark) ⟨.empty schema, .empty _⟩ refusedSchedule
    c.Returned () (.ok ()) ∧ c.store.marks.count (lit "mailer", lit "e1") = 0 ∧
      ¬ SuccessesRecorded ⟨id, id⟩ (fun _ : Unit => sampleMark) ⟨.empty schema, .empty _⟩ c.log := by
  intro c
  have hret : c.Returned () (.ok ()) := by decide +kernel
  have hcount : c.store.marks.count (lit "mailer", lit "e1") = 0 := by decide +kernel
  refine ⟨hret, hcount, fun h => ?_⟩
  have hs : Config.Sound execute (fun _ : Unit => sampleMark.call ⟨id, id⟩) ⟨.empty schema, .empty _⟩ c :=
    Config.run_sound execute _ _ refusedSchedule
  obtain ⟨k, hk, hpos⟩ := (h c.log [] c.store (by simp) hs.exec).1 () (hs.returns hret)
  have hkey : k = (lit "mailer", lit "e1") := Option.mem_unique hk (by decide +kernel)
  rw [hkey, hcount] at hpos
  exact absurd hpos (lt_irrefl 0)

end Interleaved

section Sequential

/-- One service call after another; the statements of a call may each meet a driver fault. -/
def sequence (U : CaseTables) : Handler Request (fun _ => Outcome) (ℕ → Surroundings) Store :=
  fun envs q s =>
    let r := (q.call U).run (stepwise execute envs) (0, s)
    (r.1, r.2.2)

abbrev CallEntry := Entry Unit Request (fun _ => Outcome) (ℕ → Surroundings) Store

/-- `MarkProcessed(c', e')` has returned nil for a name that trims like `c` and the event id of `e`. -/
def Marked (c : GoString) (e : Outbox) (x : CallEntry) : Prop :=
  ∃ c' e', trimSpace c' = trimSpace c ∧ e'.eventID = e.eventID ∧
    x.act = ⟨.markProcessed c' (some e'), .marked (.ok ())⟩

/-- A driver fault here has no text that reads as a duplicate key. -/
def Surroundings.Plain (U : CaseTables) (env : Surroundings) : Prop :=
  ∀ text ∈ env.fault, Repo.isDuplicateKey U text = false

/-- In every sequence of service calls on a store without marks, `IsProcessed(c, e.EventID)` is true
once `MarkProcessed(c, e)` has returned nil, and false as long as no mark of that name has. Statements
may fail, but not with a text that reads as a duplicate key; that of the check itself is answered. -/
def MarksAgree (U : CaseTables) (c : GoString) (e : Outbox) : Prop :=
  ∀ (outboxes : Outboxes) (calls : List ((ℕ → Surroundings) × Request)),
    (∀ m ∈ calls, ∀ n, (m.1 n).Plain U) →
    ∀ a y b, serial (sequence U) ⟨outboxes, .empty _⟩ calls = a ++ y :: b →
      y.act.1 = .isProcessed c e.eventID → (y.env 0).fault = none →
      ((∃ x ∈ a, x.act = ⟨.markProcessed c (some e), .marked (.ok ())⟩) → y.act.2 = .checked (.ok true)) ∧
      ((∀ x ∈ a, ¬ Marked c e x) → y.act.2 = .checked (.ok false))

/-- The statements that write no mark. -/
def Statement.Unmarking : Statement → Prop
  | .insertProcessed _ => False
  | _ => True

theorem marks_execute {q : Statement} (hq : q.Unmarking) (env : Surroundings) (s : Store) :
    (execute env q s).2.marks = s.marks := by
  cases hf : env.fault with
  | some text => cases q <;> simp_all [execute, Database.faulty, Statement.Unmarking]
  | none => cases q <;> simp_all [execute, Database.faulty, Statement.Unmarking]

theorem all_onOutbox {α : Type} (p : Call α) : (onOutbox p).All Statement.Unmarking := by
  induction p with
  | ret a => exact trivial
  | op sql k ih => exact ⟨trivial, ih⟩

theorem all_isProcessed (c id : GoString) : (Repo.isProcessed c id).All Statement.Unmarking := by
  refine ⟨trivial, fun r => ?_⟩
  cases r <;> exact trivial

theorem all_buildOutbox (input : PublishInput) : (Service.buildOutbox input).All Statement.Unmarking := by
  unfold Service.buildOutbox
  dsimp only
  split
  · exact trivial
  · cases input.actor with
    | none => exact trivial
    | some actor =>
      cases input.payload with
      | none => exact trivial
      | some payload =>
        dsimp only
        split
        · exact ⟨trivial, fun eventID => ⟨trivial, fun now => trivial⟩⟩
        · exact ⟨trivial, fun now => trivial⟩

theorem all_publish (U : CaseTables) (input : PublishInput) :
    (Service.publish U input).All Statement.Unmarking := by
  refine Prog.All.bind (all_buildOutbox input) fun built => ?_
  cases built with
  | error e => exact trivial
  | ok row => exact all_onOutbox _

theorem all_call (U : CaseTables) {q : Request} (hq : ∀ c e, q ≠ .markProcessed c (some e)) :
    (q.call U).All Statement.Unmarking := by
  cases q with
  | publish input => exact (all_publish U input).map _
  | isProcessed c id =>
    refine Prog.All.map ?_ _
    unfold Service.isProcessed
    split
    · exact trivial
    · exact all_isProcessed c id
  | pending limit => exact (all_onOutbox _).map _
  | list limit offset =>
    have hlist : (Service.list limit offset).All Statement.Unmarking := by
      refine ⟨trivial, fun r => ?_⟩
      cases r <;> exact trivial
    exact hlist.map _
  | markSent id => exact (all_onOutbox _).map _
  | markFailed id => exact (all_onOutbox _).map _
  | markProcessed c event =>
    cases event with
    | none => exact trivial
    | some e => exact absurd rfl (hq c e)

section
variable {U : CaseTables} {envs : ℕ → Surroundings} (s : Store)

theorem run_isProcessed (c id : GoString) (n : ℕ) :
    (Repo.isProcessed c id).run (stepwise execute envs) (n, s) =
      (match (envs n).fault with
        | some text => .error (.driver text)
        | none => .ok (0 < s.marks.count (c, id)), n + 1, s) := by
  cases hf : (envs n).fault <;> simp [Repo.isProcessed, stepwise, execute, Database.faulty, hf]

/-- `IsProcessed` whose statement is answered. -/
theorem sequence_isProcessed (hf : (envs 0).fault = none) (c id : GoString) :
    sequence U envs (.isProcessed c id) s =
      (.checked (if trimSpace c = [] ∨ trimSpace id = [] then .error .invalidInput
        else .ok (0 < s.marks.count (c, id))), s) := by
  simp only [sequence, Request.call, Service.isProcessed, Prog.run_bind]
  by_cases hblank : trimSpace c = [] ∨ trimSpace id = []
  · simp [hblank]
  · simp [hblank, run_isProcessed, hf]

theorem sequence_markProcessed_invalid {c : GoString} {e : Outbox}
    (hinvalid : trimSpace c = [] ∨ e.eventID = [] ∨ e.tenantID = 0) :
    sequence U envs (.markProcessed c (some e)) s = (.marked (.error .invalidInput), s) := by
  simp only [sequence, Request.call, Service.markProcessed, if_pos hinvalid]
  rfl

theorem run_markProcessed_fault {row : EventProcessed} {n : ℕ} {text : GoString}
    (hf : (envs n).fault = some text) (htext : Repo.isDuplicateKey U text = false) :
    (Repo.markProcessed U row).run (stepwise execute envs) (n, s) = (.error (.driver text), n + 1, s) := by
  simp [Repo.markProcessed, stepwise, execute, Database.faulty, hf, htext]

theorem run_markProcessed {row : EventProcessed} {n : ℕ} (hf : (envs n).fault = none)
    (hfree : s.marks.count row.key = 0) :
    (Repo.markProcessed U row).run (stepwise execute envs) (n, s) =
      (.ok (), n + 1, { s with marks := s.marks.insert row hfree }) := by
  simp [Repo.markProcessed, stepwise, execute, Database.faulty, hf, hfree]

/-- `MarkProcessed` of a valid input fails with a fault and leaves no mark, or returns nil with one. -/
theorem sequence_markProcessed (hp : ∀ n, (envs n).Plain U) {c : GoString} {e : Outbox}
    (hvalid : ¬ (trimSpace c = [] ∨ e.eventID = [] ∨ e.tenantID = 0)) :
    (∃ n text, (envs n).fault = some text ∧
      sequence U envs (.markProcessed c (some e)) s = (.marked (.error (.driver text)), s)) ∨
    (sequence U envs (.markProcessed c (some e)) s).1 = .marked (.ok ()) ∧ ∀ k,
      0 < (sequence U envs (.markProcessed c (some e)) s).2.marks.count k ↔
        0 < s.marks.count k ∨ k = (trimSpace c, e.eventID) := by
  simp only [sequence, Request.call, Service.markProcessed, Prog.run_bind, if_neg hvalid, run_isProcessed]
  cases hf : (envs 0).fault with
  | some text => exact .inl ⟨0, text, hf, rfl⟩
  | none =>
    by_cases hmark : 0 < s.marks.count (trimSpace c, e.eventID)
    · right
      simp only [hmark, decide_true, Prog.pure_eq_ret, Prog.run_ret, true_and]
      intro k
      constructor
      · exact Or.inl
      · rintro (hk | rfl)
        · exact hk
        · exact hmark
    · have hcall : ∀ r, (Repo.markProcessed U ⟨trimSpace c, e.eventID, e.tenantID, (envs 1).now⟩).run
          (stepwise execute envs) (2, s) = r → Prog.run (stepwise execute envs) (do
            let now ← Prog.perform Statement.now
            Repo.markProcessed U ⟨trimSpace c, e.eventID, e.tenantID, now⟩) (1, s) = r := fun r hr => hr
      cases hf₂ : (envs 2).fault with
      | some text =>
        have hrun := hcall _ (run_markProcessed_fault s hf₂ (hp 2 text hf₂))
        refine .inl ⟨2, text, hf₂, ?_⟩
        simp only [hmark, decide_false, hrun, Prog.pure_eq_ret, Prog.run_ret]
      | none =>
        right
        have hfree :
            s.marks.count (EventProcessed.key ⟨trimSpace c, e.eventID, e.tenantID, (envs 1).now⟩) = 0 :=
          Nat.eq_zero_of_not_pos hmark
        have hrun := hcall _ (run_markProcessed s hf₂ hfree)
        simp only [hmark, decide_false, hrun, Prog.pure_eq_ret, Prog.run_ret, true_and]
        intro k
        rw [Database.Keyed.count_insert, Nat.add_pos_iff_pos_or_pos]
        refine or_congr_right ?_
        split_ifs with hk
        · simp [← hk, EventProcessed.key]
        · simpa [EventProcessed.key, eq_comm] using hk

/-- Only `MarkProcessed` writes marks. -/
theorem marks_sequence_of_ne {q : Request} (hq : ∀ c e, q ≠ .markProcessed c (some e)) :
    (sequence U envs q s).2.marks = s.marks :=
  run_stepwise_invariant (P := fun u => u.marks = s.marks) (all_call U hq)
    (fun env _ u hst hu => (marks_execute hst env u).trans hu) rfl

/-- The marks after one call: those before it, and one for a nil of `MarkProcessed`. -/
theorem count_sequence_pos (hp : ∀ n, (envs n).Plain U) (q : Request) (k : GoString × GoString) :
    0 < (sequence U envs q s).2.marks.count k ↔ 0 < s.marks.count k ∨
      ∃ c e, q = .markProcessed c (some e) ∧ (sequence U envs q s).1 = .marked (.ok ()) ∧
        k = (trimSpace c, e.eventID) := by
  by_cases hq : ∃ c e, q = .markProcessed c (some e)
  · obtain ⟨c, e, rfl⟩ := hq
    by_cases hvalid : trimSpace c = [] ∨ e.eventID = [] ∨ e.tenantID = 0
    · rw [sequence_markProcessed_invalid s hvalid]
      simp
    · rcases sequence_markProcessed s hp hvalid with ⟨n, text, -, hr⟩ | ⟨hnil, hcount⟩
      · rw [hr]
        simp
      · rw [hcount, hnil]
        constructor
        · rintro (hk | hk)
          · exact Or.inl hk
          · exact Or.inr ⟨c, e, rfl, rfl, hk⟩
        · rintro (hk | ⟨c', e', hq, -, hk⟩)
          · exact Or.inl hk
          · cases hq
            exact Or.inr hk
  · have hne : ∀ c e, q ≠ .markProcessed c (some e) := fun c e h => hq ⟨c, e, h⟩
    rw [marks_sequence_of_ne s hne]
    simp [hne]

end

/-- After any sequence of calls, the marks are those of the nils. -/
theorem count_pos_iff_marked {U : CaseTables} {s t : Store} {log : List CallEntry}
    (hlog : Exec (sequence U) s log t) (hp : ∀ x ∈ log, ∀ n, (x.env n).Plain U)
    (hs : s.marks = .empty _) (k : GoString × GoString) : 0 < t.marks.count k ↔
      ∃ x ∈ log, ∃ c e, x.act = ⟨.markProcessed c (some e), .marked (.ok ())⟩ ∧
        k = (trimSpace c, e.eventID) := by
  refine hlog.history_invariant (P := fun a u => 0 < u.marks.count k ↔ ∃ x ∈ a, ∃ c e,
    x.act = ⟨.markProcessed c (some e), .marked (.ok ())⟩ ∧ k = (trimSpace c, e.eventID)) ?_ ?_
  · simp [hs]
  · intro a x b hl hx ih
    have hstep := count_sequence_pos x.pre (hp x (mem_of_split hl)) x.act.1 k
    have hvalid : sequence U x.env x.act.1 x.pre = (x.act.2, x.post) := hx
    rw [hvalid, ih] at hstep
    rw [hstep]
    simp only [List.mem_append, List.mem_singleton, or_and_right, exists_or, exists_eq_left]
    refine or_congr_right ?_
    constructor
    · rintro ⟨c, e, hq, hr, hk⟩
      refine ⟨c, e, ?_, hk⟩
      exact Sigma.ext hq (heq_of_eq hr)
    · rintro ⟨c, e, ha, hk⟩
      exact ⟨c, e, by rw [ha], by rw [ha], hk⟩

theorem marksAgree_of_trimmed (U : CaseTables) {c : GoString} {e : Outbox} (hc : trimSpace c ≠ [])
    (htrim : trimSpace c = c) (hblank : trimSpace e.eventID ≠ []) : MarksAgree U c e := by
  intro outboxes calls hp a y b hsplit hy hanswered
  have hexec := exec_serial (sequence U) ⟨outboxes, .empty _⟩ calls
  have hplain : ∀ x ∈ serial (sequence U) ⟨outboxes, .empty _⟩ calls, ∀ n, (x.env n).Plain U :=
    forall_serial (P := fun m : (ℕ → Surroundings) × Request => ∀ n, (m.1 n).Plain U) hp
  rw [hsplit] at hexec hplain
  obtain ⟨ha, hv, -⟩ := hexec.split
  have hmarks := count_pos_iff_marked ha (fun x hx => hplain x (by simp [hx])) rfl (c, e.eventID)
  have hreply : y.act.2 = .checked (.ok (0 < y.pre.marks.count (c, e.eventID))) := by
    have hvalid : sequence U y.env y.act.1 y.pre = (y.act.2, y.post) := hv
    rw [hy, sequence_isProcessed y.pre hanswered, if_neg (by simp [hc, hblank])] at hvalid
    exact (Prod.mk.inj hvalid).1.symm
  rw [hreply]
  constructor
  · rintro ⟨x, hx, hact⟩
    have hpos := hmarks.mpr ⟨x, hx, c, e, hact, by rw [htrim]⟩
    simp [hpos]
  · intro hnone
    have hzero : ¬ 0 < y.pre.marks.count (c, e.eventID) := by
      intro hpos
      obtain ⟨x, hx, c', e', hact, hk⟩ := hmarks.mp hpos
      obtain ⟨hname, hid⟩ := Prod.mk.inj hk
      exact hnone x hx ⟨c', e', by rw [htrim, hname], hid.symm, hact⟩
    simp [hzero]

/-- No statement fails. -/
def calm : ℕ → Surroundings := fun _ => marksAt 0 none

theorem plain_calm (U : CaseTables) (n : ℕ) : (calm n).Plain U := nofun

/-- Mark and check agree exactly on the names and event ids that both of them read alike: the check
neither trims the name it looks up nor accepts a blank event id. -/
theorem marksAgree_iff_trimmed (U : CaseTables) {c : GoString} {e : Outbox} (hc : trimSpace c ≠ [])
    (hid : e.eventID ≠ []) (htenant : e.tenantID ≠ 0) :
    MarksAgree U c e ↔ trimSpace c = c ∧ trimSpace e.eventID ≠ [] := by
  constructor
  · intro h
    -- mark once, then check
    have hvalid : ¬ (trimSpace c = [] ∨ e.eventID = [] ∨ e.tenantID = 0) := by simp [hc, hid, htenant]
    have hmark := (sequence_markProcessed ⟨.empty schema, .empty _⟩ (plain_calm U) hvalid).resolve_left
      (by rintro ⟨n, text, hf, -⟩; cases hf)
    have hcheck := (h (.empty schema)
      [(calm, .markProcessed c (some e)), (calm, .isProcessed c e.eventID)]
      (by simp [plain_calm]) [_] _ [] rfl rfl rfl).1 ⟨_, List.mem_singleton_self _, by rw [hmark.1]⟩
    rw [sequence_isProcessed _ (by rfl)] at hcheck
    split_ifs at hcheck with hblank
    · simp at hcheck
    · have hpos : 0 < (sequence U calm (.markProcessed c (some e))
          ⟨.empty schema, .empty _⟩).2.marks.count (c, e.eventID) := by simpa using hcheck
      have hkey := ((hmark.2 (c, e.eventID)).mp hpos).resolve_left (by simp)
      exact ⟨(Prod.mk.inj hkey).1.symm, fun hb => hblank (Or.inr hb)⟩
  · rintro ⟨htrim, hblank⟩
    exact marksAgree_of_trimmed U hc htrim hblank

theorem sample_marksAgree : MarksAgree ⟨id, id⟩ (lit "mailer") sampleEvent :=
  (marksAgree_iff_trimmed ⟨id, id⟩ (by decide +kernel) (by decide +kernel) (by decide +kernel)).mpr
    (by decide +kernel)

/-- A consumer configured with a trailing blank marks the event, and the check does not see it. -/
theorem padded_not_marksAgree : ¬ MarksAgree ⟨id, id⟩ (lit "mailer ") sampleEvent := by
  intro h
  have hcheck := (h (.empty schema)
    [(calm, .markProcessed (lit "mailer ") (some sampleEvent)),
    (calm, .isProcessed (lit "mailer ") (lit "e1"))]
    (by simp [plain_calm]) [_] _ [] rfl (by decide +kernel) (by rfl)).1
    ⟨_, List.mem_singleton_self _, by decide +kernel⟩
  revert hcheck
  decide +kernel

end Sequential
end SynapseGo.ReliableEvents
