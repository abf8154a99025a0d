import SynapseGo.RateLimit.Limiter

/-! One request of a client: the check, then at most one release of its slot, with or without a
correction of the tokens. Every operation of a request has one of a few histories before it. -/
namespace SynapseGo.RateLimit
open SynapseGo.Go SynapseGo.Concurrency Limiter

/-- What a client does after an allowing check. -/
inductive Finish where
  | track (actualTokens : Int64)
  | release
  | leave
  deriving DecidableEq, Repr

structure Request where
  identity : RequestIdentity
  limits : RateLimits
  estimatedTokens : Int64
  finish : Finish
  deriving DecidableEq, Repr

abbrev Act := Σ e, Reply e

abbrev Event (ι : Type) := Entry ι Command Reply Env Keys

namespace Request

def owner (r : Request) : GoString := keyPrefix r.identity

/-- The slot is given back only if the check acquired one. -/
def settle (l : Limiter) (r : Request) (result : CheckResult) : Call Unit :=
  if result.allowed then
    match r.finish with
    | .track actualTokens => l.trackPostResponse r.identity r.estimatedTokens actualTokens
        result.minuteKey result.concurrencyAcquired
    | .release => if result.concurrencyAcquired then l.releaseConcurrency r.identity else return ()
    | .leave => return ()
  else return ()

def run (l : Limiter) (r : Request) : Call CheckResult := do
  let result ← l.checkPreRequest r.identity r.limits r.estimatedTokens
  r.settle l result
  return result

abbrev checkAct (r : Request) (t : ℤ) (reply : Except GoString (List ℤ)) : Act :=
  ⟨.checkAndIncrement (quotas r.identity r.limits r.estimatedTokens (minuteOf t)), reply⟩

abbrev acquireAct (r : Request) (reply : Except GoString ℤ) : Act :=
  ⟨.concurrencyAcquire (.conc r.owner) r.limits.concurrency.toInt keyTTL, reply⟩

abbrev releaseAct (r : Request) (reply : Except GoString ℤ) : Act :=
  ⟨.concurrencyRelease (.conc r.owner), reply⟩

abbrev rollbackRPM (r : Request) (t : ℤ) (reply : Except GoString ℤ) : Act :=
  ⟨.decrBy (.rpm r.owner (minuteOf t)) 1, reply⟩

abbrev rollbackTPM (r : Request) (t : ℤ) (reply : Except GoString ℤ) : Act :=
  ⟨.decrBy (.tpm r.owner (minuteOf t)) r.estimatedTokens.toInt, reply⟩

abbrev correctAct (r : Request) (actualTokens : Int64) (t : ℤ) (reply : Except GoString ℤ) : Act :=
  ⟨.incrBy (.tpm r.owner (minuteOf t)) (actualTokens - r.estimatedTokens).toInt, reply⟩

end Request

abbrev clockAct (t : ℤ) : Act := ⟨.now, t⟩

/-- The check script's reply admits the request. -/
def Passed (result : List ℤ) : Prop := result.getD 0 0 = 1

instance (result : List ℤ) : Decidable (Passed result) := inferInstanceAs (Decidable (_ = _))

/-- The operations of `CheckPreRequest`, each with what the call did before. -/
inductive CheckOp (r : Request) : List Act → Act → Prop
  | clock (t : ℤ) : CheckOp r [] (clockAct t)
  | check (t : ℤ) (reply : Except GoString (List ℤ)) : CheckOp r [clockAct t] (r.checkAct t reply)
  | reset (t : ℤ) {result : List ℤ} (h : ¬ Passed result) (t' : ℤ) :
    CheckOp r [clockAct t, r.checkAct t (.ok result)] (clockAct t')
  | acquire (t : ℤ) {result : List ℤ} (h : Passed result) (reply : Except GoString ℤ) :
    CheckOp r [clockAct t, r.checkAct t (.ok result)] (r.acquireAct reply)
  | rollbackRPM (t : ℤ) {result : List ℤ} (h : Passed result) (reply : Except GoString ℤ) :
    CheckOp r [clockAct t, r.checkAct t (.ok result), r.acquireAct (.ok 0)] (r.rollbackRPM t reply)
  | rollbackTPM (t : ℤ) {result : List ℤ} (h : Passed result) (rpm reply : Except GoString ℤ) :
    CheckOp r [clockAct t, r.checkAct t (.ok result), r.acquireAct (.ok 0), r.rollbackRPM t rpm]
      (r.rollbackTPM t reply)

/-- The complete histories of `CheckPreRequest`, with its results. -/
inductive Checked (r : Request) : List Act → CheckResult → Prop
  | uncounted (t : ℤ) (text : GoString) :
    Checked r [clockAct t, r.checkAct t (.error text)] (degraded r.limits (minuteOf t))
  | limited (t : ℤ) {result : List ℤ} (h : ¬ Passed result) (t' : ℤ) :
    Checked r [clockAct t, r.checkAct t (.ok result), clockAct t'] (overLimit r.limits (minuteOf t) result t')
  | full (t : ℤ) {result : List ℤ} (h : Passed result) (rpm tpm : Except GoString ℤ) :
    Checked r [clockAct t, r.checkAct t (.ok result), r.acquireAct (.ok 0), r.rollbackRPM t rpm,
      r.rollbackTPM t tpm] (noSlot r.limits (minuteOf t) result)
  | admitted (t : ℤ) {result : List ℤ} (h : Passed result) {reply : Except GoString ℤ}
    (hreply : reply ≠ .ok 0) :
    Checked r [clockAct t, r.checkAct t (.ok result), r.acquireAct reply]
      (granted r.limits (minuteOf t) result reply)

theorem CheckOp.of_path {l : Limiter} {r : Request} {es es' : List Act} {y : Act} {q : Call CheckResult}
    (h : (l.checkPreRequest r.identity r.limits r.estimatedTokens).Path (es ++ y :: es') q) :
    CheckOp r es y := by
  unfold checkPreRequest at h
  split_ifs at h
  · rw [Prog.perform_bind] at h
    rcases h.op_split with ⟨rfl, t, rfl⟩ | ⟨t, es₁, rfl, h₁⟩
    · exact .clock t
    dsimp only at h₁
    rw [Prog.perform_bind] at h₁
    rcases h₁.op_split with ⟨rfl, reply, rfl⟩ | ⟨reply, es₂, rfl, h₂⟩
    · exact .check t reply
    cases reply with
    | error text => exact h₂.ret_split.elim
    | ok result =>
      dsimp only at h₂
      split_ifs at h₂ with hpass
      · rw [Prog.perform_bind] at h₂
        rcases h₂.op_split with ⟨rfl, acquired, rfl⟩ | ⟨acquired, es₃, rfl, h₃⟩
        · exact .acquire t hpass acquired
        split_ifs at h₃ with hzero
        · subst hzero
          rw [Prog.perform_bind] at h₃
          rcases h₃.op_split with ⟨rfl, rpm, rfl⟩ | ⟨rpm, es₄, rfl, h₄⟩
          · exact .rollbackRPM t hpass rpm
          rw [Prog.perform_bind] at h₄
          obtain ⟨rfl, tpm, rfl⟩ := h₄.single_split
          exact .rollbackTPM t hpass rpm tpm
        · exact h₃.ret_split.elim
      · rw [Prog.perform_bind] at h₂
        obtain ⟨rfl, t', rfl⟩ := h₂.single_split
        exact .reset t hpass t'
  · exact h.ret_split.elim

theorem Checked.of_returns {l : Limiter} (hl : l.connected = true) {r : Request} {es : List Act}
    {res : CheckResult}
    (h : (l.checkPreRequest r.identity r.limits r.estimatedTokens).Returns es res) : Checked r es res := by
  unfold checkPreRequest at h
  rw [if_pos hl, Prog.perform_bind] at h
  obtain ⟨t, es₁, rfl, h₁⟩ := Prog.returns_op.mp h
  dsimp only at h₁
  rw [Prog.perform_bind] at h₁
  obtain ⟨reply, es₂, rfl, h₂⟩ := Prog.returns_op.mp h₁
  cases reply with
  | error text =>
    obtain ⟨rfl, rfl⟩ := Prog.returns_ret.mp h₂
    exact .uncounted t text
  | ok result =>
    dsimp only at h₂
    split_ifs at h₂ with hpass
    · rw [Prog.perform_bind] at h₂
      obtain ⟨acquired, es₃, rfl, h₃⟩ := Prog.returns_op.mp h₂
      split_ifs at h₃ with hzero
      · subst hzero
        rw [Prog.perform_bind] at h₃
        obtain ⟨rpm, es₄, rfl, h₄⟩ := Prog.returns_op.mp h₃
        rw [Prog.perform_bind] at h₄
        obtain ⟨tpm, es₅, rfl, h₅⟩ := Prog.returns_op.mp h₄
        obtain ⟨rfl, rfl⟩ := Prog.returns_ret.mp h₅
        exact .full t hpass rpm tpm
      · obtain ⟨rfl, rfl⟩ := Prog.returns_ret.mp h₃
        exact .admitted t hpass hzero
    · rw [Prog.perform_bind] at h₂
      obtain ⟨t', es₃, rfl, h₃⟩ := Prog.returns_op.mp h₂
      obtain ⟨rfl, rfl⟩ := Prog.returns_ret.mp h₃
      exact .limited t hpass t'

/-- The operations of `TrackPostResponse`, by the flag it is given. -/
inductive TrackOp (r : Request) (actualTokens : Int64) (m : ℤ) : Bool → List Act → Act → Prop
  | release (reply : Except GoString ℤ) : TrackOp r actualTokens m true [] (r.releaseAct reply)
  | correct (hne : actualTokens - r.estimatedTokens ≠ 0) (reply : Except GoString ℤ) :
    TrackOp r actualTokens m false []
      ⟨.incrBy (.tpm r.owner m) (actualTokens - r.estimatedTokens).toInt, reply⟩
  | correctReleased (hne : actualTokens - r.estimatedTokens ≠ 0) (released reply : Except GoString ℤ) :
    TrackOp r actualTokens m true [r.releaseAct released]
      ⟨.incrBy (.tpm r.owner m) (actualTokens - r.estimatedTokens).toInt, reply⟩

theorem TrackOp.of_path {l : Limiter} {r : Request} {actualTokens : Int64} {m : ℤ} {acquired : Bool}
    {es es' : List Act} {y : Act} {q : Call Unit}
    (h : (l.trackPostResponse r.identity r.estimatedTokens actualTokens m acquired).Path (es ++ y :: es') q) :
    l.connected = true ∧ TrackOp r actualTokens m acquired es y := by
  unfold trackPostResponse at h
  split_ifs at h with hl hacq
  · refine ⟨hl, ?_⟩
    subst hacq
    dsimp only at h
    rw [Prog.perform_bind] at h
    rcases h.op_split with ⟨rfl, released, rfl⟩ | ⟨released, es₁, rfl, h₁⟩
    · exact .release released
    split_ifs at h₁ with hne
    · rw [Prog.perform_bind] at h₁
      obtain ⟨rfl, reply, rfl⟩ := h₁.single_split
      exact .correctReleased hne released reply
    · exact h₁.ret_split.elim
  · refine ⟨hl, ?_⟩
    have hfalse : acquired = false := Bool.eq_false_iff.mpr hacq
    subst hfalse
    dsimp only at h
    split_ifs at h with hne
    · rw [Prog.perform_bind] at h
      obtain ⟨rfl, reply, rfl⟩ := h.single_split
      exact .correct hne reply
    · exact h.ret_split.elim
  · exact h.ret_split.elim

theorem release_of_path {l : Limiter} {r : Request} {es es' : List Act} {y : Act} {q : Call Unit}
    (h : (l.releaseConcurrency r.identity).Path (es ++ y :: es') q) :
    l.connected = true ∧ es = [] ∧ ∃ reply, y = r.releaseAct reply := by
  unfold releaseConcurrency at h
  split_ifs at h with hl
  · rw [Prog.perform_bind] at h
    obtain ⟨rfl, reply, rfl⟩ := h.single_split
    exact ⟨hl, rfl, reply, rfl⟩
  · exact h.ret_split.elim

/-- The operations of a request, each with what it did before. -/
inductive RequestOp (r : Request) : List Act → Act → Prop
  | pre {es : List Act} {y : Act} (h : CheckOp r es y) : RequestOp r es y
  | release (t : ℤ) {result : List ℤ} (h : Passed result) (reply : Except GoString ℤ) :
    RequestOp r [clockAct t, r.checkAct t (.ok result), r.acquireAct (.ok 1)] (r.releaseAct reply)
  | correctUncounted {actualTokens : Int64} (hfin : r.finish = .track actualTokens)
    (hne : actualTokens - r.estimatedTokens ≠ 0) (t : ℤ) (text : GoString) (reply : Except GoString ℤ) :
    RequestOp r [clockAct t, r.checkAct t (.error text)] (r.correctAct actualTokens t reply)
  | correctUnslotted {actualTokens : Int64} (hfin : r.finish = .track actualTokens)
    (hne : actualTokens - r.estimatedTokens ≠ 0) (t : ℤ) {result : List ℤ} (h : Passed result)
    {acquired : Except GoString ℤ} (h₀ : acquired ≠ .ok 0) (h₁ : acquired ≠ .ok 1)
    (reply : Except GoString ℤ) :
    RequestOp r [clockAct t, r.checkAct t (.ok result), r.acquireAct acquired]
      (r.correctAct actualTokens t reply)
  | correctSlotted {actualTokens : Int64} (hfin : r.finish = .track actualTokens)
    (hne : actualTokens - r.estimatedTokens ≠ 0) (t : ℤ) {result : List ℤ} (h : Passed result)
    (released reply : Except GoString ℤ) :
    RequestOp r [clockAct t, r.checkAct t (.ok result), r.acquireAct (.ok 1), r.releaseAct released]
      (r.correctAct actualTokens t reply)

/-- What follows an allowing check. -/
theorem settle_of_path {l : Limiter} {r : Request} {res : CheckResult} {es es' : List Act} {y : Act}
    {q : Call Unit} (h : (r.settle l res).Path (es ++ y :: es') q) :
    l.connected = true ∧ res.allowed = true ∧
      ((∃ actualTokens, r.finish = .track actualTokens ∧
          TrackOp r actualTokens res.minuteKey res.concurrencyAcquired es y) ∨
        (res.concurrencyAcquired = true ∧ es = [] ∧ ∃ reply, y = r.releaseAct reply)) := by
  unfold Request.settle at h
  by_cases hallowed : res.allowed = true
  · rw [if_pos hallowed] at h
    cases hfin : r.finish with
    | track actualTokens =>
      rw [hfin] at h
      obtain ⟨hl, hop⟩ := TrackOp.of_path h
      exact ⟨hl, hallowed, Or.inl ⟨actualTokens, rfl, hop⟩⟩
    | release =>
      rw [hfin] at h
      dsimp only at h
      split_ifs at h with hacq
      · obtain ⟨hl, hop⟩ := release_of_path h
        exact ⟨hl, hallowed, Or.inr ⟨hacq, hop⟩⟩
      · exact h.ret_split.elim
    | leave =>
      rw [hfin] at h
      exact h.ret_split.elim
  · rw [if_neg hallowed] at h
    exact h.ret_split.elim

theorem RequestOp.of_path {l : Limiter} {r : Request} {es es' : List Act} {y : Act} {q : Call CheckResult}
    (h : (r.run l).Path (es ++ y :: es') q) : RequestOp r es y := by
  rcases h.bind_split with ⟨es₁, p', hcheck⟩ | ⟨res, es₁, es₂, rfl, hret, hrest⟩
  · exact .pre (.of_path hcheck)
  rcases hrest.bind_split with ⟨es₃, p', hsettle⟩ | ⟨_, es₃, es₄, rfl, -, hdone⟩
  · obtain ⟨hl, hallowed, hop⟩ := settle_of_path hsettle
    cases Checked.of_returns hl hret with
    | limited t hpass t' => cases hallowed
    | full t hpass rpm tpm => cases hallowed
    | uncounted t text =>
      rcases hop with ⟨actualTokens, hfin, hop⟩ | ⟨hacq, -⟩
      · generalize hflag : (degraded r.limits (minuteOf t)).concurrencyAcquired = flag at hop
        cases hop with
        | correct hne reply => exact .correctUncounted hfin hne t text reply
        | release reply => cases hflag
        | correctReleased hne released reply => cases hflag
      · cases hacq
    | @admitted t result hpass acquired hzero =>
      have hacq : (granted r.limits (minuteOf t) result acquired).concurrencyAcquired =
        decide (acquired = .ok 1) := rfl
      rw [hacq] at hop
      by_cases hone : acquired = .ok 1
      · subst hone
        rcases hop with ⟨actualTokens, hfin, hop⟩ | ⟨-, rfl, reply, rfl⟩
        · rw [decide_eq_true rfl] at hop
          cases hop with
          | release reply => exact .release t hpass reply
          | correctReleased hne released reply => exact .correctSlotted hfin hne t hpass released reply
        · exact .release t hpass reply
      · rw [decide_eq_false hone] at hop
        rcases hop with ⟨actualTokens, hfin, hop⟩ | ⟨hf, -⟩
        · cases hop with
          | correct hne reply => exact .correctUnslotted hfin hne t hpass hzero hone reply
        · cases hf
  · exact hdone.ret_split.elim

/-- A denied request ends with its check. -/
theorem Checked.of_denied {l : Limiter} (hl : l.connected = true) {r : Request} {es : List Act}
    {res : CheckResult} (h : (r.run l).Returns es res) (hdenied : res.allowed = false) :
    Checked r es res := by
  obtain ⟨res', es₁, es₂, rfl, hcheck, hrest⟩ := Prog.returns_bind.mp h
  obtain ⟨_, es₃, es₄, rfl, hsettle, hret⟩ := Prog.returns_bind.mp hrest
  obtain ⟨rfl, rfl⟩ := Prog.returns_ret.mp hret
  unfold Request.settle at hsettle
  rw [if_neg (by simp [hdenied])] at hsettle
  obtain ⟨rfl, -⟩ := Prog.returns_ret.mp hsettle
  rw [List.append_nil, List.append_nil]
  exact .of_returns hl hcheck

/-- An admitted request only releases and corrects. -/
theorem RequestOp.after_admission {r : Request} {t : ℤ} {result : List ℤ} {acquired : Except GoString ℤ}
    (hne : acquired ≠ .ok 0) {rest : List Act} {y : Act}
    (hop : RequestOp r ([clockAct t, r.checkAct t (.ok result), r.acquireAct acquired] ++ rest) y) :
    (∃ reply, y = r.releaseAct reply) ∨ ∃ actualTokens t' reply, y = r.correctAct actualTokens t' reply := by
  generalize hes : [clockAct t, r.checkAct t (.ok result), r.acquireAct acquired] ++ rest = es at hop
  cases hop with
  | pre h =>
    cases h with
    | clock t' => simp at hes
    | check t' reply => simp at hes
    | reset t' h t'' => simp at hes
    | acquire t' h reply => simp at hes
    | rollbackRPM t' h reply => simp [hne] at hes
    | rollbackTPM t' h rpm reply => simp [hne] at hes
  | release t' h reply => exact Or.inl ⟨reply, rfl⟩
  | correctUncounted hfin hdelta t' text reply => exact Or.inr ⟨_, _, _, rfl⟩
  | correctUnslotted hfin hdelta t' h h₀ h₁ reply => exact Or.inr ⟨_, _, _, rfl⟩
  | correctSlotted hfin hdelta t' h released reply => exact Or.inr ⟨_, _, _, rfl⟩

end SynapseGo.RateLimit
