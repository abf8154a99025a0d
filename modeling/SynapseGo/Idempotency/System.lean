import SynapseGo.Idempotency.Courses
import SynapseGo.Idempotency.Statements

/-! Any number of `Begin`, `Complete` and `GCJob` calls interleaved over one table. -/
namespace SynapseGo.Idempotency
open SynapseGo.Go SynapseGo.Concurrency

inductive Request where
  | begin (input : BeginInput)
  | complete (id : ℕ) (responseStatus : ℤ) (responseBody : GoString) (sensitive : Bool)
  | gcJob (payload : List (GoString × Job.Value))

inductive Outcome where
  | begun (result : Except Err BeginResult)
  | done (result : Except Err Unit)
  deriving DecidableEq, Repr

def Request.call (U : CaseTables) : Request → Call Outcome
  | .begin input => do return .begun (← Service.begin U input)
  | .complete id responseStatus responseBody sensitive =>
    do return .done (← Service.complete id responseStatus responseBody sensitive)
  | .gcJob payload => do return .done (← Service.gcJob payload)

abbrev World (ι : Type) := Config ι Sql Reply Env Records Outcome

section
variable {ι : Type} [DecidableEq ι]

/-- Where a schedule leads the calls `requests` on the table `t₀`. -/
def world (U : CaseTables) (requests : ι → Request) (t₀ : Records) (sched : List (ι × Env)) : World ι :=
  (Config.start (fun i => (requests i).call U) t₀).run handle sched

theorem world_sound (U : CaseTables) (requests : ι → Request) (t₀ : Records) (sched : List (ι × Env)) :
    Config.Sound handle (fun i => (requests i).call U) t₀ (world U requests t₀ sched) :=
  Config.run_sound handle _ t₀ sched

end

/-- The clock readings of a log never go back. -/
def ClockMonotone {ι : Type} (log : List (Event ι)) : Prop :=
  log.Pairwise fun x y => x.env.now ≤ y.env.now

theorem Request.returns_begin {U : CaseTables} {input : BeginInput} {es : List (Σ e, Reply e)}
    {out : Outcome} (h : ((Request.begin input).call U).Returns es out) :
    ∃ result, out = .begun result ∧ (Service.begin U input).Returns es result := by
  obtain ⟨result, es₁, es₂, rfl, h₁, h₂⟩ := Prog.returns_bind.mp h
  obtain ⟨rfl, rfl⟩ := Prog.returns_ret.mp h₂
  exact ⟨result, rfl, by rwa [List.append_nil]⟩

theorem Request.begin_of_returns_begun {U : CaseTables} {q : Request} {es : List (Σ e, Reply e)}
    {result : Except Err BeginResult} (h : (q.call U).Returns es (.begun result)) :
    ∃ input, q = .begin input ∧ (Service.begin U input).Returns es result := by
  cases q with
  | begin input =>
    obtain ⟨_, hout, h⟩ := Request.returns_begin h
    cases hout
    exact ⟨input, rfl, h⟩
  | complete id responseStatus responseBody sensitive =>
    obtain ⟨_, _, _, -, -, h⟩ := Prog.returns_bind.mp h
    cases (Prog.returns_ret.mp h).2
  | gcJob payload =>
    obtain ⟨_, _, _, -, -, h⟩ := Prog.returns_bind.mp h
    cases (Prog.returns_ret.mp h).2

/-- The operations a request issues, each with what its call did before. -/
inductive RequestOp (U : CaseTables) : Request → List (Σ e, Reply e) → (Σ e, Reply e) → Prop
  | begin {input : BeginInput} {es : List (Σ e, Reply e)} {y : Σ e, Reply e}
    (h : BeginOp (input.normalize U) es y) : RequestOp U (.begin input) es y
  | complete (id : ℕ) (responseStatus : ℤ) (responseBody : GoString) (sensitive : Bool)
    (reply : Except GoString Unit) :
    RequestOp U (.complete id responseStatus responseBody sensitive) []
      ⟨.updateCompleted id (Service.persisted responseBody sensitive).1 responseStatus
        (Service.persisted responseBody sensitive).2, reply⟩
  | gcNow (payload : List (GoString × Job.Value)) (t : ℤ) : RequestOp U (.gcJob payload) [] ⟨.now, t⟩
  | sweep (payload : List (GoString × Job.Value)) (t : ℤ) (limit : ℕ) (reply : Except GoString ℕ) :
    RequestOp U (.gcJob payload) [⟨.now, t⟩] ⟨.deleteExpired t limit, reply⟩

theorem Service.complete_path {id : ℕ} {responseStatus : ℤ} {responseBody : GoString} {sensitive : Bool}
    {es es' : List (Σ e, Reply e)} {y : Σ e, Reply e} {q : Call (Except Err Unit)}
    (h : (Service.complete id responseStatus responseBody sensitive).Path (es ++ y :: es') q) :
    es = [] ∧ ∃ reply, y = ⟨.updateCompleted id (Service.persisted responseBody sensitive).1
      responseStatus (Service.persisted responseBody sensitive).2, reply⟩ := by
  unfold Service.complete at h
  split_ifs at h
  · exact h.ret_split.elim
  · rcases Prog.Path.op_split h with hy | ⟨reply, es₁, rfl, h₁⟩
    · exact hy
    · cases reply <;> exact h₁.ret_split.elim

theorem RequestOp.of_path {U : CaseTables} {q : Request} {es es' : List (Σ e, Reply e)}
    {y : Σ e, Reply e} {p : Call Outcome} (h : (q.call U).Path (es ++ y :: es') p) :
    RequestOp U q es y := by
  cases q with
  | begin input =>
    obtain ⟨p', hp⟩ := Prog.Path.of_map h
    exact .begin (.of_path hp)
  | complete id responseStatus responseBody sensitive =>
    obtain ⟨p', hp⟩ := Prog.Path.of_map h
    obtain ⟨rfl, reply, rfl⟩ := Service.complete_path hp
    exact .complete id responseStatus responseBody sensitive reply
  | gcJob payload =>
    obtain ⟨p', hp⟩ := Prog.Path.of_map h
    rcases Prog.Path.op_split hp with ⟨rfl, t, rfl⟩ | ⟨t, es₁, rfl, h₁⟩
    · exact .gcNow payload t
    · rcases Prog.Path.op_split h₁ with ⟨rfl, reply, rfl⟩ | ⟨reply, es₂, rfl, h₂⟩
      · exact .sweep payload t _ reply
      · cases reply <;> exact h₂.ret_split.elim

/-- Every operation of a log was issued by the request of its caller. -/
theorem requestOp_of_log {ι : Type} [DecidableEq ι] {U : CaseTables} {requests : ι → Request}
    {t₀ : Records} {c : World ι} (hs : Config.Sound handle (fun i => (requests i).call U) t₀ c)
    {a b : List (Event ι)} {x : Event ι} (hl : c.log = a ++ x :: b) :
    RequestOp U (requests x.caller) (history x.caller a) x.act :=
  .of_path (hs.path_split hl)

/-- Case tables that agree with Unicode on ASCII text. -/
def asciiTables : CaseTables := ⟨id, id⟩

def sampleInput : BeginInput := ⟨1, 2, lit "k", lit "POST", lit "/jobs", List.replicate 64 0x61⟩

/-- A fault-free step at second `s`. -/
def atSecond (s : ℤ) : Env := ⟨s * 10 ^ 9, none, []⟩

end SynapseGo.Idempotency
