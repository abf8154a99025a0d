import SynapseGo.Concurrency.Interleaving
import SynapseGo.Database.Driver
import SynapseGo.Go.Strconv
import SynapseGo.RateLimit.Scripts

/-! `Limiter`: the calls before and after a request, with each Redis command and each reading of
the clock as one atomic operation. -/
namespace SynapseGo.RateLimit
open SynapseGo.Go SynapseGo.Concurrency SynapseGo.Redis

/-- The keys of the limiter, by the text in front of the minute and by the minute. -/
inductive Key where
  | rpm (identity : GoString) (minute : ℤ)
  | tpm (identity : GoString) (minute : ℤ)
  | conc (identity : GoString)
  deriving DecidableEq, Repr

/-- The key as Redis sees it. -/
def Key.render : Key → GoString
  | .rpm identity minute => lit "rl:rpm:" ++ identity ++ lit ":" ++ formatInt minute
  | .tpm identity minute => lit "rl:tpm:" ++ identity ++ lit ":" ++ formatInt minute
  | .conc identity => lit "rl:conc:" ++ identity

/-- The last colon separates the identity from the minute. -/
theorem append_colon_inj {s t u v : GoString} (hu : (0x3A : UInt8) ∉ u) (hv : (0x3A : UInt8) ∉ v)
    (h : s ++ 0x3A :: u = t ++ 0x3A :: v) : s = t ∧ u = v := by
  have hrev : u.reverse ++ 0x3A :: s.reverse = v.reverse ++ 0x3A :: t.reverse := by
    simpa using congrArg List.reverse h
  obtain ⟨huv, hst⟩ := append_sep_inj (by simpa using hu) (by simpa using hv) hrev
  exact ⟨List.reverse_inj.mp hst, List.reverse_inj.mp huv⟩

/-- Different keys have different texts. -/
theorem Key.render_injective : Function.Injective Key.render := by
  have hrpm : lit "rl:rpm:" = [0x72, 0x6C, 0x3A, 0x72, 0x70, 0x6D, 0x3A] := by decide
  have htpm : lit "rl:tpm:" = [0x72, 0x6C, 0x3A, 0x74, 0x70, 0x6D, 0x3A] := by decide
  have hconc : lit "rl:conc:" = [0x72, 0x6C, 0x3A, 0x63, 0x6F, 0x6E, 0x63, 0x3A] := by decide
  have hcolon : lit ":" = [0x3A] := by decide
  have hminute : ∀ (i j : GoString) (m n : ℤ), i ++ (lit ":" ++ formatInt m) = j ++ (lit ":" ++ formatInt n) →
      i = j ∧ m = n := by
    intro i j m n h
    rw [hcolon] at h
    obtain ⟨hi, hm⟩ := append_colon_inj (colon_notMem_formatInt m) (colon_notMem_formatInt n) h
    exact ⟨hi, formatInt_injective hm⟩
  intro k k' h
  cases k <;> cases k' <;> simp only [Key.render, hrpm, htpm, hconc, List.append_assoc, List.cons_append,
    List.nil_append, List.cons.injEq, true_and] at h
  · obtain ⟨rfl, rfl⟩ := hminute _ _ _ _ h
    rfl
  · exact absurd h.1 (by decide)
  · exact absurd h.1 (by decide)
  · exact absurd h.1 (by decide)
  · obtain ⟨rfl, rfl⟩ := hminute _ _ _ _ h
    rfl
  · exact absurd h.1 (by decide)
  · exact absurd h.1 (by decide)
  · exact absurd h.1 (by decide)
  · rw [h]

structure RateLimits where
  rpm : Int64
  tpm : Int64
  concurrency : Int64
  deriving DecidableEq, Repr

structure CheckResult where
  allowed : Bool
  denyReason : GoString
  concurrencyAcquired : Bool
  remainingRequests : Int64
  remainingTokens : Int64
  limitRequests : Int64
  limitTokens : Int64
  /-- Unix seconds; `none` is the zero time. -/
  resetAt : Option ℤ
  retryAfterSeconds : ℤ
  minuteKey : ℤ
  deriving DecidableEq, Repr

structure RequestIdentity where
  userID : Int64
  tenantID : Int64
  apiKeyID : Int64
  deriving DecidableEq, Repr

inductive Command where
  | now
  | checkAndIncrement (quotas : List (Quota Key))
  | concurrencyAcquire (key : Key) (limit ttl : ℤ)
  | concurrencyRelease (key : Key)
  | decrBy (key : Key) (d : ℤ)
  | incrBy (key : Key) (d : ℤ)
  deriving DecidableEq, Repr

abbrev Reply : Command → Type
  | .now => ℤ
  | .checkAndIncrement _ => Except GoString (List ℤ)
  | .concurrencyAcquire _ _ _ => Except GoString ℤ
  | .concurrencyRelease _ => Except GoString ℤ
  | .decrBy _ _ => Except GoString ℤ
  | .incrBy _ _ => Except GoString ℤ

/-- The caller's clock in nanoseconds, the server's in milliseconds, and a fault without effect. -/
structure Env where
  now : ℤ
  redisNow : ℤ
  fault : Option GoString

abbrev Call := Prog Command Reply

abbrev Keys := Store Key

def handle : Handler Command Reply Env Keys
  | env, .now, s => (env.now, s)
  | env, .checkAndIncrement quotas, s =>
    Database.faulty env.fault s (luaCheckAndIncrement env.redisNow quotas s)
  | env, .concurrencyAcquire key limit ttl, s =>
    Database.faulty env.fault s (luaConcurrencyAcquire env.redisNow key limit ttl s)
  | env, .concurrencyRelease key, s =>
    Database.faulty env.fault s (luaConcurrencyRelease env.redisNow key s)
  | env, .decrBy key d, s => Database.faulty env.fault s (Redis.decrBy env.redisNow key d s)
  | env, .incrBy key d, s => Database.faulty env.fault s (Redis.incrBy env.redisNow key d s)

/-- Seconds. -/
def keyTTL : ℤ := 120

structure Limiter where
  /-- `rdb` is not nil. -/
  connected : Bool

namespace Limiter
open Prog (perform)

def keyPrefix (identity : RequestIdentity) : GoString :=
  if identity.apiKeyID > 0 then lit "apikey:" ++ formatInt identity.apiKeyID.toInt
  else if identity.tenantID > 0 then lit "tenant:" ++ formatInt identity.tenantID.toInt
  else lit "user:" ++ formatInt identity.userID.toInt

/-- `time.Now().Unix() / 60`. -/
def minuteOf (now : ℤ) : ℤ := (now / 10 ^ 9).tdiv 60

/-- The allowing result for a request that Redis did not count. -/
def degraded (limits : RateLimits) (minuteKey : ℤ) : CheckResult where
  allowed := true
  denyReason := []
  concurrencyAcquired := false
  remainingRequests := limits.rpm
  remainingTokens := limits.tpm
  limitRequests := limits.rpm
  limitTokens := limits.tpm
  resetAt := none
  retryAfterSeconds := 0
  minuteKey := minuteKey

/-- The keys and arguments of the check script. -/
def quotas (identity : RequestIdentity) (limits : RateLimits) (estimatedTokens : Int64) (minuteKey : ℤ) :
    List (Quota Key) :=
  [⟨.rpm (keyPrefix identity) minuteKey, limits.rpm.toInt, 1, keyTTL⟩,
    ⟨.tpm (keyPrefix identity) minuteKey, limits.tpm.toInt, estimatedTokens.toInt, keyTTL⟩]

/-- The script denied the request; `now` is the second reading of the clock. -/
def overLimit (limits : RateLimits) (minuteKey : ℤ) (result : List ℤ) (now : ℤ) : CheckResult :=
  let resetAt := (minuteKey + 1) * 60
  let retryAfter := (resetAt * 10 ^ 9 - now).tdiv (10 ^ 9)
  { allowed := false
    denyReason := if result.getD 1 0 = 1 then lit "tpm" else lit "rpm"
    concurrencyAcquired := false
    remainingRequests := 0
    remainingTokens := 0
    limitRequests := limits.rpm
    limitTokens := limits.tpm
    resetAt := some resetAt
    retryAfterSeconds := if retryAfter < 1 then 1 else retryAfter
    minuteKey := minuteKey }

/-- The request was counted, but no slot is free. -/
def noSlot (limits : RateLimits) (minuteKey : ℤ) (result : List ℤ) : CheckResult where
  allowed := false
  denyReason := lit "concurrency"
  concurrencyAcquired := false
  remainingRequests := Int64.ofInt (result.getD 2 0)
  remainingTokens := Int64.ofInt (result.getD 3 0)
  limitRequests := limits.rpm
  limitTokens := limits.tpm
  resetAt := none
  retryAfterSeconds := 1
  minuteKey := minuteKey

/-- The request was counted; a failed acquisition admits it without a slot. -/
def granted (limits : RateLimits) (minuteKey : ℤ) (result : List ℤ) (acquired : Except GoString ℤ) :
    CheckResult where
  allowed := true
  denyReason := []
  concurrencyAcquired := acquired = .ok 1
  remainingRequests := Int64.ofInt (result.getD 2 0)
  remainingTokens := Int64.ofInt (result.getD 3 0)
  limitRequests := limits.rpm
  limitTokens := limits.tpm
  resetAt := some ((minuteKey + 1) * 60)
  retryAfterSeconds := 0
  minuteKey := minuteKey

def checkPreRequest (l : Limiter) (identity : RequestIdentity) (limits : RateLimits)
    (estimatedTokens : Int64) : Call CheckResult :=
  if l.connected then do
    let minuteKey := minuteOf (← perform Command.now)
    match ← perform (Command.checkAndIncrement (quotas identity limits estimatedTokens minuteKey)) with
    | .error _ => return degraded limits minuteKey
    | .ok result =>
      if result.getD 0 0 = 1 then
        let acquired ← perform (Command.concurrencyAcquire (.conc (keyPrefix identity))
          limits.concurrency.toInt keyTTL)
        if acquired = .ok 0 then
          let _ ← perform (Command.decrBy (.rpm (keyPrefix identity) minuteKey) 1)
          let _ ← perform (Command.decrBy (.tpm (keyPrefix identity) minuteKey) estimatedTokens.toInt)
          return noSlot limits minuteKey result
        else return granted limits minuteKey result acquired
      else return overLimit limits minuteKey result (← perform Command.now)
  else return degraded limits 0

def trackPostResponse (l : Limiter) (identity : RequestIdentity) (estimatedTokens actualTokens : Int64)
    (minuteKey : ℤ) (releaseConcurrency : Bool) : Call Unit := do
  if l.connected then
    if releaseConcurrency then
      let _ ← perform (Command.concurrencyRelease (.conc (keyPrefix identity)))
    let delta := actualTokens - estimatedTokens
    if delta ≠ 0 then
      let _ ← perform (Command.incrBy (.tpm (keyPrefix identity) minuteKey) delta.toInt)

def releaseConcurrency (l : Limiter) (identity : RequestIdentity) : Call Unit := do
  if l.connected then
    let _ ← perform (Command.concurrencyRelease (.conc (keyPrefix identity)))

end Limiter
end SynapseGo.RateLimit
