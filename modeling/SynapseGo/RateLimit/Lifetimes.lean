import SynapseGo.RateLimit.System

/-! Keys without an expiry. The scripts that count up renew the expiry of their key, but the roll-back
and the correction set none, so on a key that has expired they create one that stays for good. -/
namespace SynapseGo.RateLimit
open SynapseGo.Go SynapseGo.Concurrency SynapseGo.Redis Limiter

/-- One call of the limiter, with whatever arguments. -/
inductive LimiterCall where
  | check (identity : RequestIdentity) (limits : RateLimits) (estimatedTokens : Int64)
  | track (identity : RequestIdentity) (estimatedTokens actualTokens : Int64) (minuteKey : ℤ)
    (releaseConcurrency : Bool)
  | release (identity : RequestIdentity)
  deriving DecidableEq, Repr

def LimiterCall.run (l : Limiter) : LimiterCall → Call (Option CheckResult)
  | .check identity limits estimatedTokens => do
    return some (← l.checkPreRequest identity limits estimatedTokens)
  | .track identity estimatedTokens actualTokens minuteKey releaseConcurrency => do
    l.trackPostResponse identity estimatedTokens actualTokens minuteKey releaseConcurrency
    return none
  | .release identity => do
    l.releaseConcurrency identity
    return none

/-- The commands of the limiter; those that set an expiry set `keyTTL`. -/
inductive Issued : Act → Prop
  | clock (t : ℤ) : Issued (clockAct t)
  | check (r : Request) (t : ℤ) (reply : Except GoString (List ℤ)) : Issued (r.checkAct t reply)
  | acquire (key : Key) (limit : ℤ) (reply : Except GoString ℤ) :
    Issued ⟨.concurrencyAcquire key limit keyTTL, reply⟩
  | release (key : Key) (reply : Except GoString ℤ) : Issued ⟨.concurrencyRelease key, reply⟩
  | decrBy (key : Key) (d : ℤ) (reply : Except GoString ℤ) : Issued ⟨.decrBy key d, reply⟩
  | incrBy (key : Key) (d : ℤ) (reply : Except GoString ℤ) : Issued ⟨.incrBy key d, reply⟩

theorem CheckOp.issued {r : Request} {es : List Act} {y : Act} (h : CheckOp r es y) : Issued y := by
  cases h with
  | clock t => exact .clock t
  | check t reply => exact .check r t reply
  | reset t h t' => exact .clock t'
  | acquire t h reply => exact .acquire _ _ reply
  | rollbackRPM t h reply => exact .decrBy _ _ reply
  | rollbackTPM t h rpm reply => exact .decrBy _ _ reply

theorem TrackOp.issued {r : Request} {actualTokens : Int64} {m : ℤ} {acquired : Bool} {es : List Act}
    {y : Act} (h : TrackOp r actualTokens m acquired es y) : Issued y := by
  cases h with
  | release reply => exact .release _ reply
  | correct hne reply => exact .incrBy _ _ reply
  | correctReleased hne released reply => exact .incrBy _ _ reply

theorem Issued.of_path {l : Limiter} {c : LimiterCall} {es es' : List Act} {y : Act}
    {q : Call (Option CheckResult)} (h : (c.run l).Path (es ++ y :: es') q) : Issued y := by
  cases c with
  | check identity limits estimatedTokens =>
    obtain ⟨p, hp⟩ := h.of_map
    have hop : CheckOp ⟨identity, limits, estimatedTokens, .leave⟩ es y := .of_path hp
    exact hop.issued
  | track identity estimatedTokens actualTokens minuteKey releaseConcurrency =>
    obtain ⟨p, hp⟩ := h.of_map
    have hop : l.connected = true ∧ TrackOp ⟨identity, ⟨0, 0, 0⟩, estimatedTokens, .leave⟩ actualTokens
        minuteKey releaseConcurrency es y := TrackOp.of_path hp
    exact hop.2.issued
  | release identity =>
    obtain ⟨p, hp⟩ := h.of_map
    have hop : l.connected = true ∧ es = [] ∧
        ∃ reply, y = Request.releaseAct ⟨identity, ⟨0, 0, 0⟩, 0, .leave⟩ reply := release_of_path hp
    obtain ⟨-, -, reply, rfl⟩ := hop
    exact .release _ reply

variable {ι : Type}

/-- A roll-back or a correction took effect on a key that did not exist. -/
def Recreates (x : Event ι) : Prop :=
  match x.act with
  | ⟨.decrBy key _, .ok _⟩ => x.pre.live x.env.redisNow key = none
  | ⟨.incrBy key _, .ok _⟩ => x.pre.live x.env.redisNow key = none
  | _ => False

instance (x : Event ι) : Decidable (Recreates x) := by
  unfold Recreates
  split <;> infer_instance

/-- What is written on a key that does not exist has no expiry. -/
theorem not_mortal_of_created {s t : Keys} {now v : ℤ} {key : Key} (hlive : s.live now key = none)
    (ht : t = Function.update s key (some ⟨v, (s.live now key).bind Cell.expireAt⟩)) : ¬ t.Mortal := by
  intro hmortal
  have hcell : t key = some ⟨v, none⟩ := by
    rw [ht, Function.update_self, hlive]
    rfl
  exact hmortal key _ hcell rfl

theorem Recreates.not_mortal {x : Event ι} (hx : x.Valid handle) (h : Recreates x) : ¬ x.post.Mortal := by
  unfold Recreates at h
  split at h
  · next key d v ha =>
    rcases Event.decrBy hx ha with ⟨_, he, -⟩ | ⟨-, hpost⟩
    · cases he
    · exact not_mortal_of_created h hpost
  · next key d v ha =>
    rcases Event.incrBy hx ha with ⟨_, he, -⟩ | ⟨-, hpost⟩
    · cases he
    · exact not_mortal_of_created h hpost
  · exact h.elim

/-- Every other command leaves all keys with an expiry. -/
theorem mortal_step {x : Event ι} (hx : x.Valid handle) (hact : Issued x.act) (hno : ¬ Recreates x)
    (h : x.pre.Mortal) : x.post.Mortal := by
  generalize ha : x.act = y at hact
  unfold Recreates at hno
  rw [ha] at hno
  cases hact with
  | clock t =>
    rw [Event.now hx ha]
    exact h
  | check r t reply =>
    rcases Database.faulty_cases (hx.handle ha) with ⟨_, -, hp⟩ | hp
    · rw [hp]
      exact h
    · exact luaCheckAndIncrement_mortal (quotas_ttl r (minuteOf t)) hp h
  | acquire key limit reply =>
    rcases Event.acquire hx ha with ⟨_, -, hp⟩ | ⟨-, hp⟩ | ⟨-, -, hp⟩
    · rw [hp]
      exact h
    · rw [hp]
      exact h
    · rw [hp]
      apply h.update
      intro c hc
      cases hc
      exact Option.some_ne_none _
  | release key reply =>
    rcases Event.release hx ha with ⟨_, -, hp⟩ | ⟨-, -, hp⟩ | ⟨-, hp⟩
    · rw [hp]
      exact h
    · rw [hp]
      exact h
    · rcases Database.faulty_cases (hx.handle ha) with ⟨_, -, hsame⟩ | hrun
      · rw [hsame]
        exact h
      · rcases luaConcurrencyRelease_live hrun with hsame | hlive
        · rw [hsame]
          exact h
        · rw [hp]
          exact h.update_live hlive _
  | decrBy key d reply =>
    rcases Event.decrBy hx ha with ⟨_, -, hp⟩ | ⟨rfl, hp⟩
    · rw [hp]
      exact h
    · rw [hp]
      exact h.update_live hno _
  | incrBy key d reply =>
    rcases Event.incrBy hx ha with ⟨_, -, hp⟩ | ⟨rfl, hp⟩
    · rw [hp]
      exact h
    · rw [hp]
      exact h.update_live hno _

variable [DecidableEq ι]

/-- The state that a schedule of the calls leads to. -/
def callWorld (l : Limiter) (calls : ι → LimiterCall) (s₀ : Keys) (sched : List (ι × Env)) :
    Config ι Command Reply Env Keys (Option CheckResult) :=
  (Config.start (fun i => (calls i).run l) s₀).run handle sched

theorem issued_of_log {l : Limiter} {calls : ι → LimiterCall} {s₀ : Keys} {sched : List (ι × Env)}
    {x : Event ι} (hx : x ∈ (callWorld l calls s₀ sched).log) : Issued x.act := by
  obtain ⟨a, b, hl⟩ := List.append_of_mem hx
  have hsound : Config.Sound handle (fun i => (calls i).run l) s₀ (callWorld l calls s₀ sched) :=
    Config.run_sound _ _ _ _
  exact .of_path (hsound.path_split hl)

/-- Every key has an expiry in every state of a run. -/
def AlwaysMortal (log : List (Event ι)) : Prop := ∀ x ∈ log, x.post.Mortal

/-- Every key has an expiry in every state of a run if and only if no roll-back and no correction takes
effect on a key that has expired. -/
theorem mortal_iff_none_recreated (l : Limiter) (calls : ι → LimiterCall) (s₀ : Keys) (hs₀ : s₀.Mortal)
    (sched : List (ι × Env)) :
    AlwaysMortal (callWorld l calls s₀ sched).log ↔
      ∀ x ∈ (callWorld l calls s₀ sched).log, ¬ Recreates x := by
  have hexec : Exec handle s₀ (callWorld l calls s₀ sched).log (callWorld l calls s₀ sched).store :=
    (Config.run_sound handle (fun i => (calls i).run l) s₀ sched).exec
  constructor
  · intro h x hx hre
    exact hre.not_mortal (hexec.valid hx) (h x hx)
  · intro h x hx
    obtain ⟨a, b, hl⟩ := List.append_of_mem hx
    rw [hl] at hexec
    obtain ⟨hpre, hv, -⟩ := hexec.split
    have hbefore : x.pre.Mortal := by
      apply hpre.invariant _ hs₀
      intro y hy hyv hym
      have hmem : y ∈ (callWorld l calls s₀ sched).log := by
        rw [hl]
        exact List.mem_append_left _ hy
      exact mortal_step hyv (issued_of_log hmem) (h y hmem) hym
    exact mortal_step hv (issued_of_log hx) (h x hx) hbefore

/-- A check of 100 tokens, and the correction to 10 of a response that took two seconds. -/
def promptCalls : ℕ → LimiterCall
  | 0 => .check sampleIdentity ⟨10, 1000, 5⟩ 100
  | _ => .track sampleIdentity 100 10 0 true

def promptSchedule : List (ℕ × Env) :=
  [(0, atSecond 7), (0, atSecond 7), (0, atSecond 7), (1, atSecond 9), (1, atSecond 9)]

theorem prompt_mortal :
    AlwaysMortal (callWorld ⟨true⟩ promptCalls (fun _ => none) promptSchedule).log := by
  apply (mortal_iff_none_recreated ⟨true⟩ promptCalls (fun _ => none) _ promptSchedule).mpr
  · decide +kernel
  · intro k c hc
    cases hc

/-- The same response after 121 seconds: the token counter has expired. -/
def slowSchedule : List (ℕ × Env) :=
  [(0, atSecond 7), (0, atSecond 7), (0, atSecond 7), (1, atSecond 128), (1, atSecond 128)]

theorem slow_not_mortal : (callWorld ⟨true⟩ promptCalls (fun _ => none) slowSchedule).store
      (.tpm (keyPrefix sampleIdentity) 0) = some ⟨-90, none⟩ ∧
    ¬ AlwaysMortal (callWorld ⟨true⟩ promptCalls (fun _ => none) slowSchedule).log := by
  constructor
  · decide +kernel
  · intro h
    obtain ⟨x, hx, hre⟩ : ∃ x ∈ (callWorld ⟨true⟩ promptCalls (fun _ => none) slowSchedule).log,
        Recreates x := by
      decide +kernel
    have hsound := Config.run_sound handle (fun i => (promptCalls i).run ⟨true⟩) (fun _ => none) slowSchedule
    exact hre.not_mortal (hsound.exec.valid hx) (h x hx)

end SynapseGo.RateLimit
