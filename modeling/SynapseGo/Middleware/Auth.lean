import SynapseGo.Concurrency.Interleaving
import SynapseGo.Database.Driver
import SynapseGo.Redis.Store

/-! The two limiters of `middleware/auth.go`, request by request. A request issues its Redis commands
one by one and runs the next handler in between; the pipeline of `INCR` and `EXPIRE` is one step. -/
namespace SynapseGo.Middleware
open SynapseGo.Go SynapseGo.Concurrency SynapseGo.Redis

inductive Op where
  | get (key : GoString)
  | incr (key : GoString)
  | expire (key : GoString) (ttl : ℤ)
  | incrExpire (key : GoString) (ttl : ℤ)
  | del (key : GoString)
  /-- `c.Next()`, with the status that the handlers after this one wrote. -/
  | next
  deriving DecidableEq, Repr

abbrev Reply : Op → Type
  | .get _ => Except GoString ℤ
  | .incr _ => Except GoString ℤ
  | .expire _ _ => Except GoString ℤ
  | .incrExpire _ _ => Unit
  | .del _ => Except GoString ℤ
  | .next => ℤ

/-- An operation with its reply. -/
abbrev Act := Σ op, Reply op

/-- Milliseconds of the server's clock, a fault of the connection, and the handlers' answer. -/
structure Env where
  now : ℤ
  fault : Option GoString
  status : ℤ

def handle : Handler Op Reply Env (Store GoString)
  | env, .get key, s => Database.faulty env.fault s (Redis.get env.now key s)
  | env, .incr key, s => Database.faulty env.fault s (incrBy env.now key 1 s)
  | env, .expire key ttl, s => Database.faulty env.fault s (Redis.expire env.now key ttl s)
  | env, .incrExpire key ttl, s =>
    match env.fault with
    | some _ => ((), s)
    -- A command of a pipeline that fails does not stop the next one.
    | none => ((), (Redis.expire env.now key ttl (incrBy env.now key 1 s).2).2)
  | env, .del key, s => Database.faulty env.fault s (Redis.del env.now key s)
  | env, .next, s => (env.status, s)

section
variable {env : Env} (hf : env.fault = none) (key : GoString) (ttl : ℤ) (s : Store GoString)
include hf

theorem handle_get : handle env (.get key) s = Redis.get env.now key s := by
  show Database.faulty env.fault s _ = _
  rw [hf]
  rfl

theorem handle_incr : handle env (.incr key) s = incrBy env.now key 1 s := by
  show Database.faulty env.fault s _ = _
  rw [hf]
  rfl

theorem handle_expire : handle env (.expire key ttl) s = Redis.expire env.now key ttl s := by
  show Database.faulty env.fault s _ = _
  rw [hf]
  rfl

theorem handle_del : handle env (.del key) s = Redis.del env.now key s := by
  show Database.faulty env.fault s _ = _
  rw [hf]
  rfl

theorem handle_incrExpire : handle env (.incrExpire key ttl) s =
    ((), (Redis.expire env.now key ttl (incrBy env.now key 1 s).2).2) := by
  show (match env.fault with
    | some _ => ((), s)
    | none => ((), (Redis.expire env.now key ttl (incrBy env.now key 1 s).2).2)) = _
  rw [hf]

end

/-- How a request ends: refused by the limiter, or with the handlers' status. -/
inductive Response where
  | aborted (status code : ℤ) (message : GoString)
  | served (status : ℤ)
  deriving DecidableEq, Repr

def Response.Refused : Response → Prop
  | .aborted _ _ _ => True
  | .served _ => False

instance : DecidablePred Response.Refused
  | .aborted _ _ _ => .isTrue trivial
  | .served _ => .isFalse id

abbrev Call := Prog Op Reply

/-- A number that could not be had is 0. -/
def count : Except GoString ℤ → ℤ
  | .ok n => n
  | .error _ => 0

/-- What a `GET` of a counter yields; it changes nothing. -/
theorem get_cases {now : ℤ} {key : GoString} {s t : Store GoString} {reply : Except GoString ℤ}
    (h : Redis.get now key s = (reply, t)) : count reply = s.counter now key ∧ t = s := by
  unfold Redis.get at h
  unfold Store.counter
  cases hlive : s.live now key with
  | none =>
    rw [hlive] at h
    obtain ⟨rfl, rfl⟩ := Prod.mk.inj h
    exact ⟨rfl, rfl⟩
  | some c =>
    rw [hlive] at h
    obtain ⟨rfl, rfl⟩ := Prod.mk.inj h
    exact ⟨rfl, rfl⟩

/-- The pipeline counts one more and moves the expiry. -/
theorem incrExpire_eq {env : Env} {key : GoString} {ttl : ℤ} {s : Store GoString} (hf : env.fault = none)
    (ht : ValidTTL ttl) (hlo : 0 ≤ s.counter env.now key) (hhi : s.counter env.now key + 1 < 2 ^ 63) :
    handle env (.incrExpire key ttl) s = ((), Function.update s key
      (some ⟨s.counter env.now key + 1, some (env.now + ttl * 1000)⟩)) := by
  have hincr : incrBy env.now key 1 s = (.ok (s.counter env.now key + 1), Function.update s key
      (some ⟨s.counter env.now key + 1, (s.live env.now key).bind Cell.expireAt⟩)) :=
    if_pos ⟨by omega, hhi⟩
  rw [handle_incrExpire hf, hincr, expire_incremented ht]

/-- The seconds that the client passes to `EXPIRE` for a duration. -/
def formatSec (d : Int64) : ℤ := if 0 < d ∧ d < 1000000000 then 1 else (d / 1000000000).toInt

theorem formatSec_le (d : Int64) : formatSec d ≤ 2 ^ 53 := by
  unfold formatSec
  split_ifs
  · decide
  · have hlt := Int64.toInt_lt d
    have hbillion : Int64.toInt 1000000000 = 10 ^ 9 := by decide
    have hself := Int.tdiv_mul_add_tmod d.toInt (10 ^ 9)
    have hrest := Int.lt_tmod_of_pos d.toInt (show (0 : ℤ) < 10 ^ 9 by decide)
    rw [Int64.toInt_div_of_ne_right _ _ (by decide), hbillion]
    omega

def loginKey (ip : GoString) : GoString := lit "login_fail:" ++ ip

/-- `LoginRateLimit`; `rdb` tells whether there is a client. -/
def loginRateLimit (rdb : Bool) (maxAttempts window : Int64) (ip : GoString) : Call Response := do
  if !rdb then return .served (← Prog.perform .next)
  let key := loginKey ip
  let failures := count (← Prog.perform (.get key))
  if failures ≥ maxAttempts.toInt then
    return .aborted 429 4029 (lit "too many failed login attempts, please try again later")
  let status ← Prog.perform .next
  if status = 401 then
    let _ ← Prog.perform (.incrExpire key (formatSec window))
  else if status = 200 then
    let _ ← Prog.perform (.del key)
  return .served status

def ipKey (ip : GoString) : GoString := lit "ip_rl:" ++ ip

/-- `IPRateLimit`. -/
def ipRateLimit (rdb : Bool) (rpm : ℤ) (ip : GoString) : Call Response := do
  if !rdb then return .served (← Prog.perform .next)
  let key := ipKey ip
  let n := count (← Prog.perform (.incr key))
  let _ ← Prog.perform (.expire key 60)
  if n > rpm then return .aborted 429 4029 (lit "rate limit exceeded")
  return .served (← Prog.perform .next)

end SynapseGo.Middleware
