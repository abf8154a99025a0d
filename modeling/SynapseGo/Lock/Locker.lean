import SynapseGo.Redis.LeaseRuns

/-! `lock.Locker`: a function runs between a `SET NX` with a time to live and a release that checks the
token. The lock is not renewed while the function runs. -/
namespace SynapseGo.Lock.Locker
open SynapseGo.Go SynapseGo.Concurrency SynapseGo.Redis

inductive Err where
  /-- `ErrLockNotAcquired`. -/
  | lockNotAcquired
  | other (text : GoString)
  deriving DecidableEq, Repr

inductive Op where
  | setNX (key token : GoString) (ttl : ℤ)
  /-- `luaRelease`. -/
  | release (key token : GoString)
  /-- The function under the lock is entered. -/
  | begin
  /-- The function under the lock returns. -/
  | finish

abbrev Reply : Op → Type
  | .setNX _ _ _ => Except GoString Bool
  | .release _ _ => Except GoString ℤ
  | .begin => Unit
  | .finish => Option Err

structure Env where
  now : ℤ
  fault : Option Fault
  /-- What the function returns, if it returns in this step. -/
  result : Option Err

def handle : Handler Op Reply Env Leases
  | env, .setNX key token ttl, s => answer env.fault s (s.setNX env.now key token ttl)
  | env, .release key token, s => answer env.fault s (s.compareDelete env.now key token)
  | _, .begin, s => ((), s)
  | env, .finish, s => (env.result, s)

/-- `Locker.TryLock`; the unlock function that it returns is `unlock` with the same key and token. -/
def tryLock (key : GoString) (ttl : Int64) (token : GoString) : Prog Op Reply (Except Err Unit) := do
  let reply : Except GoString Bool ← Prog.perform (Op.setNX key token (formatMs ttl))
  match reply with
  | .error text => return .error (.other text)
  | .ok ok =>
    if !ok then return .error .lockNotAcquired
    return .ok ()

/-- The result of the script is not looked at. -/
def unlock (key token : GoString) : Prog Op Reply Unit := do
  let _ ← Prog.perform (Op.release key token)
  return ()

/-- `Locker.ExecuteWithLock`. -/
def executeWithLock (key : GoString) (ttl : Int64) (token : GoString) (fn : Prog Op Reply (Option Err)) :
    Prog Op Reply (Option Err) := do
  match ← tryLock key ttl token with
  | .error err => return some err
  | .ok _ =>
    let err ← fn
    unlock key token
    return err

abbrev Act := Σ op : Op, Reply op

abbrev Event (ι : Type) := Entry ι Op Reply Env Leases

/-- Whether the lock was granted in this step. -/
def granted : Act → Bool
  | ⟨.setNX _ _ _, .ok ok⟩ => ok
  | _ => false

def isSetNX : Act → Bool
  | ⟨.setNX _ _ _, _⟩ => true
  | _ => false

def isBegin : Act → Bool
  | ⟨.begin, _⟩ => true
  | _ => false

def isFinish : Act → Bool
  | ⟨.finish, _⟩ => true
  | _ => false

/-- A call whose function has been entered and has not returned. -/
def running (es : List Act) : Bool := es.any isBegin && !es.any isFinish

section Paths
variable {key token : GoString} {ttl : Int64} {es es' : List Act} {y : Act}

theorem tryLock_split {q : Prog Op Reply (Except Err Unit)}
    (h : (tryLock key ttl token).Path (es ++ y :: es') q) :
    es = [] ∧ ∃ reply, y = ⟨.setNX key token (formatMs ttl), reply⟩ := by
  unfold tryLock at h
  rw [Prog.perform_bind] at h
  rcases h.op_split with hfirst | ⟨reply, es₁, rfl, h₁⟩
  · exact hfirst
  cases reply with
  | error text => exact h₁.ret_split.elim
  | ok ok => cases ok <;> exact h₁.ret_split.elim

/-- What `TryLock` returns says what Redis has replied. -/
theorem tryLock_returns {r : Except Err Unit} (h : (tryLock key ttl token).Returns es r) :
    ∃ reply, es = [⟨.setNX key token (formatMs ttl), reply⟩] ∧
      match reply with
      | .error text => r = .error (.other text)
      | .ok false => r = .error .lockNotAcquired
      | .ok true => r = .ok () := by
  unfold tryLock at h
  rw [Prog.perform_bind] at h
  obtain ⟨reply, es₁, rfl, h₁⟩ := Prog.returns_op.mp h
  cases reply with
  | error text =>
    obtain ⟨rfl, rfl⟩ := Prog.returns_ret.mp h₁
    exact ⟨.error text, rfl, rfl⟩
  | ok ok =>
    cases ok with
    | false =>
      obtain ⟨rfl, rfl⟩ := Prog.returns_ret.mp h₁
      exact ⟨.ok false, rfl, rfl⟩
    | true =>
      obtain ⟨rfl, rfl⟩ := Prog.returns_ret.mp h₁
      exact ⟨.ok true, rfl, rfl⟩

theorem setNX_of_ok (h : (tryLock key ttl token).Returns es (.ok ())) :
    es = [⟨.setNX key token (formatMs ttl), .ok true⟩] := by
  obtain ⟨reply, rfl, hr⟩ := tryLock_returns h
  rcases reply with text | _ | _
  · cases hr
  · cases hr
  · rfl

theorem setNX_of_notAcquired (h : (tryLock key ttl token).Returns es (.error .lockNotAcquired)) :
    es = [⟨.setNX key token (formatMs ttl), .ok false⟩] := by
  obtain ⟨reply, rfl, hr⟩ := tryLock_returns h
  rcases reply with text | _ | _
  · cases hr
  · rfl
  · cases hr

end Paths

/-- The lock as Redis sees it. -/
def view : LeaseView handle where
  clock env := env.now
  act
    | ⟨.setNX key token ttl, reply⟩ => .setNX key token ttl reply.toOption
    | ⟨.release key token, reply⟩ => .delete key token (reply.toOption.map fun n => n = 1)
    | _ => .other
  step := by
    intro ι x hx
    obtain ⟨op, reply, hact⟩ : ∃ op reply, x.act = ⟨op, reply⟩ := ⟨_, _, rfl⟩
    have hrun := hx.handle hact
    rw [hact]
    cases op with
    | setNX key token ttl => exact .of_setNX hrun
    | release key token => exact .of_compareDelete hrun
    | begin => exact .other (Prod.mk.inj hrun).2.symm
    | finish => exact .other (Prod.mk.inj hrun).2.symm

section View
variable {ι : Type} {x : Event ι} {key token : GoString}

theorem view_delete {r : Option Bool} (h : view.act x.act = .delete key token r) :
    ∃ reply, x.act = ⟨.release key token, reply⟩ := by
  obtain ⟨op, reply, hact⟩ : ∃ op reply, x.act = ⟨op, reply⟩ := ⟨_, _, rfl⟩
  rw [hact] at h
  cases op with
  | setNX key' token' ttl => cases h
  | release key' token' =>
    cases h
    exact ⟨reply, hact⟩
  | begin => cases h
  | finish => cases h

theorem view_setNX {ttl : ℤ} {r : Option Bool} (h : view.act x.act = .setNX key token ttl r) :
    ∃ reply, x.act = ⟨.setNX key token ttl, reply⟩ ∧ r = reply.toOption := by
  obtain ⟨op, reply, hact⟩ : ∃ op reply, x.act = ⟨op, reply⟩ := ⟨_, _, rfl⟩
  rw [hact] at h
  cases op with
  | setNX key' token' ttl' =>
    cases h
    exact ⟨reply, hact, rfl⟩
  | release key' token' => cases h
  | begin => cases h
  | finish => cases h

end View

/-- A client sends a command again after errors of certain texts. -/
def again (retried : GoString → Bool) : (op : Op) → Reply op → Bool
  | .setNX _ _ _, .error text => retried text
  | .release _ _, .error text => retried text
  | _, _ => false

end SynapseGo.Lock.Locker
