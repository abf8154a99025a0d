import SynapseGo.RateLimit.Requests

/-! Any number of requests over one Redis server, and what each of their commands does to it. -/
namespace SynapseGo.RateLimit
open SynapseGo.Go SynapseGo.Concurrency SynapseGo.Redis Limiter

variable {ι : Type}

theorem validTTL_keyTTL : ValidTTL keyTTL := by decide

theorem Event.now {x : Event ι} (hx : x.Valid handle) {t : ℤ} (ha : x.act = clockAct t) :
    x.post = x.pre := by
  obtain ⟨-, hp⟩ := Prod.mk.inj (hx.handle ha)
  exact hp.symm

theorem Event.acquire {x : Event ι} (hx : x.Valid handle) {key : Key} {limit : ℤ}
    {reply : Except GoString ℤ} (ha : x.act = ⟨.concurrencyAcquire key limit keyTTL, reply⟩) :
    (∃ text, reply = .error text ∧ x.post = x.pre) ∨ (reply = .ok 0 ∧ x.post = x.pre) ∨
      (reply = .ok 1 ∧ roundDouble (x.pre.counter x.env.redisNow key) < roundDouble limit ∧
        x.post = Function.update x.pre key
          (some ⟨x.pre.counter x.env.redisNow key + 1, some (x.env.redisNow + keyTTL * 1000)⟩)) := by
  rcases Database.faulty_cases (hx.handle ha) with h | h
  · exact Or.inl h
  · exact luaConcurrencyAcquire_cases validTTL_keyTTL h

theorem Event.release {x : Event ι} (hx : x.Valid handle) {key : Key} {reply : Except GoString ℤ}
    (ha : x.act = ⟨.concurrencyRelease key, reply⟩) :
    (∃ text, reply = .error text ∧ x.post = x.pre) ∨
      (roundDouble (x.pre.counter x.env.redisNow key) ≤ 0 ∧ reply = .ok 0 ∧ x.post = x.pre) ∨
      (reply = .ok (x.pre.counter x.env.redisNow key - 1) ∧ x.post = Function.update x.pre key
        (some ⟨x.pre.counter x.env.redisNow key - 1,
          (x.pre.live x.env.redisNow key).bind Cell.expireAt⟩)) := by
  rcases Database.faulty_cases (hx.handle ha) with h | h
  · exact Or.inl h
  · exact luaConcurrencyRelease_cases h

theorem Event.decrBy {x : Event ι} (hx : x.Valid handle) {key : Key} {d : ℤ} {reply : Except GoString ℤ}
    (ha : x.act = ⟨.decrBy key d, reply⟩) :
    (∃ text, reply = .error text ∧ x.post = x.pre) ∨
      (reply = .ok (x.pre.counter x.env.redisNow key - d) ∧ x.post = Function.update x.pre key
        (some ⟨x.pre.counter x.env.redisNow key - d,
          (x.pre.live x.env.redisNow key).bind Cell.expireAt⟩)) := by
  rcases Database.faulty_cases (hx.handle ha) with h | h
  · exact Or.inl h
  · exact decrBy_cases h

theorem Event.incrBy {x : Event ι} (hx : x.Valid handle) {key : Key} {d : ℤ} {reply : Except GoString ℤ}
    (ha : x.act = ⟨.incrBy key d, reply⟩) :
    (∃ text, reply = .error text ∧ x.post = x.pre) ∨
      (reply = .ok (x.pre.counter x.env.redisNow key + d) ∧ x.post = Function.update x.pre key
        (some ⟨x.pre.counter x.env.redisNow key + d,
          (x.pre.live x.env.redisNow key).bind Cell.expireAt⟩)) := by
  rcases Database.faulty_cases (hx.handle ha) with h | h
  · exact Or.inl h
  · exact incrBy_cases h

theorem Event.incrBy_lt {x : Event ι} (hx : x.Valid handle) {key : Key} {d v : ℤ}
    (ha : x.act = ⟨.incrBy key d, .ok v⟩) : v < 2 ^ 63 := by
  rcases Database.faulty_cases (hx.handle ha) with ⟨_, he, -⟩ | h
  · cases he
  · exact lt_of_incrBy h

theorem Event.decrBy_faultless {x : Event ι} (hx : x.Valid handle) (hf : x.env.fault = none) {key : Key}
    {d : ℤ} (hd : 0 ≤ d) {text : GoString} (ha : x.act = ⟨.decrBy key d, .error text⟩) :
    x.pre.counter x.env.redisNow key - d < -2 ^ 63 ∨ 2 ^ 63 ≤ x.pre.counter x.env.redisNow key - d := by
  have h : Database.faulty x.env.fault x.pre (Redis.decrBy x.env.redisNow key d x.pre) =
    (.error text, x.post) :=
    hx.handle ha
  rw [hf] at h
  exact overflow_of_decrBy h hd

/-- The limit of a request for a counter, and what the request adds to it. -/
def Request.limit (r : Request) : Key → ℤ
  | .rpm _ _ => r.limits.rpm.toInt
  | .tpm _ _ => r.limits.tpm.toInt
  | .conc _ => r.limits.concurrency.toInt

def Request.amount (r : Request) : Key → ℤ
  | .rpm _ _ => 1
  | .tpm _ _ => r.estimatedTokens.toInt
  | .conc _ => 1

def Request.quota (r : Request) (k : Key) : Quota Key := ⟨k, r.limit k, r.amount k, keyTTL⟩

/-- The counters of a request in one minute. -/
def Request.counters (r : Request) (m : ℤ) : List Key := [.rpm r.owner m, .tpm r.owner m]

theorem quotas_eq (r : Request) (m : ℤ) :
    quotas r.identity r.limits r.estimatedTokens m = (r.counters m).map r.quota := rfl

theorem quotas_ttl (r : Request) (m : ℤ) :
    ∀ q ∈ quotas r.identity r.limits r.estimatedTokens m, ValidTTL q.ttl := by
  rw [quotas_eq, List.forall_mem_map]
  exact fun k _ => validTTL_keyTTL

theorem quotas_nodup (r : Request) (m : ℤ) :
    ((quotas r.identity r.limits r.estimatedTokens m).map Quota.key).Nodup := by
  simp [quotas]

/-- What the check script of a request can do. A script error stops before the token counter. -/
inductive CheckStep (x : Event ι) (r : Request) (m : ℤ) : Except GoString (List ℤ) → Prop
  | failed (text : GoString) (htpm : x.post (.tpm r.owner m) = x.pre (.tpm r.owner m)) :
    CheckStep x r m (.error text)
  | denied {result : List ℤ} (h : ¬ Passed result) (hpost : x.post = x.pre) : CheckStep x r m (.ok result)
  | passed {result : List ℤ} (h : Passed result)
    (hroom : ∀ k ∈ r.counters m, ¬ (r.quota k).Exceeded x.env.redisNow x.pre)
    (hpost : ∀ k ∈ r.counters m, x.post k = some ((r.quota k).charged x.env.redisNow x.pre)) :
    CheckStep x r m (.ok result)

theorem Event.check {x : Event ι} (hx : x.Valid handle) {r : Request} {t : ℤ}
    {reply : Except GoString (List ℤ)} (ha : x.act = r.checkAct t reply) :
    CheckStep x r (minuteOf t) reply := by
  rcases Database.faulty_cases (hx.handle ha) with ⟨text, rfl, hp⟩ | h
  · exact .failed text (by rw [hp])
  · rcases luaCheckAndIncrement_cases h with ⟨-, hp, denyIndex, results, rfl⟩ | ⟨hpass, hphase⟩
    · exact .denied (by simp [Passed]) hp
    · rcases hphase with ⟨text, rfl, hphase⟩ | ⟨results, rfl, hphase⟩
      · have hlast : x.post (.tpm r.owner (minuteOf t)) = x.pre (.tpm r.owner (minuteOf t)) := by
          have hkeys : ∀ q ∈ [r.quota (.rpm r.owner (minuteOf t))],
              q.key ≠ (r.quota (.tpm r.owner (minuteOf t))).key := by
            simp [Request.quota]
          exact incrementAll_error (quotas_ttl r (minuteOf t)) hkeys hphase
        exact .failed text hlast
      · have hcharged := incrementAll_ok (quotas_ttl r (minuteOf t)) (quotas_nodup r (minuteOf t)) hphase
        rw [quotas_eq, List.forall_mem_map] at hpass hcharged
        exact .passed (by simp [Passed]) hpass hcharged

/-- The check script touches the counters of its minute only. -/
theorem Event.check_frame {x : Event ι} (hx : x.Valid handle) {r : Request} {t : ℤ}
    {reply : Except GoString (List ℤ)} (ha : x.act = r.checkAct t reply) {k : Key}
    (hk : k ∉ r.counters (minuteOf t)) : x.post k = x.pre k := by
  have hkeys : ∀ q ∈ quotas r.identity r.limits r.estimatedTokens (minuteOf t), q.key ≠ k := by
    rw [quotas_eq, List.forall_mem_map]
    intro k' hk' heq
    exact hk (heq ▸ hk')
  rcases Database.faulty_cases (hx.handle ha) with ⟨text, rfl, hp⟩ | h
  · rw [hp]
  · rcases luaCheckAndIncrement_cases h with ⟨-, hp, -⟩ | ⟨-, hphase⟩
    · rw [hp]
    · rcases hphase with ⟨text, -, hphase⟩ | ⟨results, -, hphase⟩
      · exact incrementAll_frame (quotas_ttl r (minuteOf t)) hphase hkeys
      · exact incrementAll_frame (quotas_ttl r (minuteOf t)) hphase hkeys

/-- Without a fault the script fails only where a counter does not fit. -/
theorem Event.check_faultless {x : Event ι} (hx : x.Valid handle) (hf : x.env.fault = none) {r : Request}
    {t : ℤ} {text : GoString} (ha : x.act = r.checkAct t (.error text)) :
    ∃ k ∈ r.counters (minuteOf t), ¬ (r.quota k).Exceeded x.env.redisNow x.pre ∧
      ¬ (r.quota k).Fits x.env.redisNow x.pre := by
  by_contra hall
  push Not at hall
  have h : Database.faulty x.env.fault x.pre (luaCheckAndIncrement x.env.redisNow
      (quotas r.identity r.limits r.estimatedTokens (minuteOf t)) x.pre) = (.error text, x.post) :=
        hx.handle ha
  rw [hf] at h
  rcases luaCheckAndIncrement_cases h with ⟨-, -, _, _, he⟩ | ⟨hpass, hphase⟩
  · cases he
  · rcases hphase with ⟨_, -, hphase⟩ | ⟨_, he, -⟩
    · rw [quotas_eq, List.forall_mem_map] at hpass
      have hfits : ∀ q ∈ quotas r.identity r.limits r.estimatedTokens (minuteOf t),
          q.Fits x.env.redisNow x.pre := by
        rw [quotas_eq, List.forall_mem_map]
        exact fun k hk => hall k hk (hpass k hk)
      obtain ⟨results, u, hok⟩ :=
        incrementAll_of_fits (quotas_ttl r (minuteOf t)) (quotas_nodup r (minuteOf t)) hfits
      cases hok.symm.trans hphase
    · cases he

section World
variable [DecidableEq ι]

/-- The state that a schedule of the requests leads to. -/
def world (l : Limiter) (requests : ι → Request) (s₀ : Keys) (sched : List (ι × Env)) :
    Config ι Command Reply Env Keys CheckResult :=
  (Config.start (fun i => (requests i).run l) s₀).run handle sched

theorem world_sound (l : Limiter) (requests : ι → Request) (s₀ : Keys) (sched : List (ι × Env)) :
    Config.Sound handle (fun i => (requests i).run l) s₀ (world l requests s₀ sched) :=
  Config.run_sound _ _ _ _

theorem requestOp_of_log {l : Limiter} {requests : ι → Request} {s₀ : Keys} {sched : List (ι × Env)}
    {a b : List (Event ι)} {x : Event ι} (h : (world l requests s₀ sched).log = a ++ x :: b) :
    RequestOp (requests x.caller) (history x.caller a) x.act :=
  .of_path ((world_sound l requests s₀ sched).path_split h)

end World

def sampleIdentity : RequestIdentity := ⟨1, 0, 0⟩

/-- Both clocks at the same second, and no fault. -/
def atSecond (t : ℤ) : Env := ⟨t * 10 ^ 9, t * 1000, none⟩

end SynapseGo.RateLimit
