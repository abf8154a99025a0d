import SynapseGo.Concurrency.Interleaving
import SynapseGo.Redis.Lease

/-! `lock/distributed.go`: Redis locks with owner handles. A handle is known by the `Acquire` call that
made it. Its flag `released` is local to the process and shared by all calls on the handle. -/
namespace SynapseGo.Lock
open SynapseGo.Go SynapseGo.Concurrency SynapseGo.Redis

inductive LockError where
  | nilClient
  | emptyKey
  | invalidTTL
  | token (text : GoString)
  | setnx (fullKey text : GoString)
  | locked
  | alreadyReleased
  | unlockScript (fullKey text : GoString)
  | renewScript (fullKey text : GoString)
  | notOwner
  deriving DecidableEq, Repr

structure Handle where
  fullKey : GoString
  token : GoString
  deriving DecidableEq, Repr

inductive Op (ι : Type) where
  | setNX (key token : GoString) (ttl : ℤ)
  | unlock (key token : GoString)
  | renew (key token : GoString) (ttl : ℤ)
  /-- `released.CompareAndSwap(false, true)` of the handle of call `h`. -/
  | compareAndSwap (h : ι)
  /-- `released.Store(false)`. -/
  | reset (h : ι)
  /-- `released.Load()`. -/
  | load (h : ι)

abbrev Reply {ι : Type} : Op ι → Type
  | .setNX _ _ _ => Except GoString Bool
  | .unlock _ _ => Except GoString ℤ
  | .renew _ _ _ => Except GoString ℤ
  | .compareAndSwap _ => Bool
  | .reset _ => Unit
  | .load _ => Bool

structure Env where
  now : ℤ
  fault : Option Fault

/-- The keys in Redis and the flags of the handles. -/
structure State (ι : Type) where
  keys : Leases
  released : ι → Bool

variable {ι : Type}

/-- A Redis command as a step of the whole state. -/
def onKeys {α : Type} (fault : Option Fault) (s : State ι) (r : α × Leases) : Except GoString α × State ι :=
  answer fault s (r.1, { s with keys := r.2 })

def handle [DecidableEq ι] : Handler (Op ι) Reply Env (State ι)
  | env, .setNX key token ttl, s => onKeys env.fault s (s.keys.setNX env.now key token ttl)
  | env, .unlock key token, s => onKeys env.fault s (s.keys.compareDelete env.now key token)
  | env, .renew key token ttl, s => onKeys env.fault s (s.keys.compareExpire env.now key token ttl)
  | _, .compareAndSwap h, s =>
    if s.released h then (false, s) else (true, { s with released := Function.update s.released h true })
  | _, .reset h, s => ((), { s with released := Function.update s.released h false })
  | _, .load h, s => (s.released h, s)

inductive Result where
  | acquired (handle : Handle)
  | done
  | failed (err : LockError)
  deriving DecidableEq, Repr

/-- `Acquire`; `token` is what `newOwnerToken` returned. -/
def acquire (client : Bool) (keyPrefix key : GoString) (ttl : Int64) (token : Except GoString GoString) :
    Prog (Op ι) Reply Result := do
  if !client then return .failed .nilClient
  if key = [] then return .failed .emptyKey
  if ttl ≤ 0 then return .failed .invalidTTL
  match token with
  | .error text => return .failed (.token text)
  | .ok token =>
    let fullKey := keyPrefix ++ key
    let reply : Except GoString Bool ← Prog.perform (Op.setNX fullKey token (formatMs ttl))
    match reply with
    | .error text => return .failed (.setnx fullKey text)
    | .ok ok =>
      if !ok then return .failed .locked
      return .acquired ⟨fullKey, token⟩

/-- `Release` of the handle `hd` of call `h`. -/
def release (h : ι) (hd : Option Handle) : Prog (Op ι) Reply Result :=
  match hd with
  | none => return .failed .nilClient
  | some hd => do
    if !(← Prog.perform (.compareAndSwap h)) then return .failed .alreadyReleased
    let reply : Except GoString ℤ ← Prog.perform (Op.unlock hd.fullKey hd.token)
    match reply with
    | .error text =>
      let _ ← Prog.perform (.reset h)
      return .failed (.unlockScript hd.fullKey text)
    | .ok res =>
      if res ≠ 1 then return .failed .notOwner
      return .done

/-- `Renew`. -/
def renew (h : ι) (hd : Option Handle) (ttl : Int64) : Prog (Op ι) Reply Result :=
  match hd with
  | none => return .failed .nilClient
  | some hd => do
    if ttl ≤ 0 then return .failed .invalidTTL
    if ← Prog.perform (.load h) then return .failed .alreadyReleased
    let ms := (ttl / 1000000).toInt
    let ms := if ms ≤ 0 then 1 else ms
    let reply : Except GoString ℤ ← Prog.perform (Op.renew hd.fullKey hd.token ms)
    match reply with
    | .error text => return .failed (.renewScript hd.fullKey text)
    | .ok res =>
      if res ≠ 1 then return .failed .notOwner
      return .done

inductive LockCall (ι : Type) where
  | acquire (key : GoString) (ttl : Int64)
  | release (h : ι)
  | renew (h : ι) (ttl : Int64)
  deriving DecidableEq

/-- Any number of calls; an `Acquire` comes with the client and the prefix of its locker and with the
token that it generates. -/
structure Calls (ι : Type) where
  call : ι → LockCall ι
  client : ι → Bool
  keyPrefix : ι → GoString
  token : ι → Except GoString GoString

namespace Calls
variable (c : Calls ι)

/-- The handle that `Acquire` call `h` returns when it succeeds. A call on it may come at any time, so that
the runs in which it comes after that return are among all runs. -/
def handleOf (h : ι) : Option Handle :=
  match c.client h, c.call h, c.token h with
  | true, .acquire key _, .ok token => some ⟨c.keyPrefix h ++ key, token⟩
  | _, _, _ => none

def prog (i : ι) : Prog (Op ι) Reply Result :=
  match c.call i with
  | .acquire key ttl => Lock.acquire (c.client i) (c.keyPrefix i) key ttl (c.token i)
  | .release h => Lock.release h (c.handleOf h)
  | .renew h ttl => Lock.renew h (c.handleOf h) ttl

/-- No two calls generate the same token. -/
def DistinctTokens : Prop := ∀ i j t, c.token i = .ok t → c.token j = .ok t → i = j

/-- Everything the calls can have done after a schedule, from keys `s` and handles not released. -/
def world [DecidableEq ι] (s : Leases) (sched : List (ι × Env)) :
    Config ι (Op ι) Reply Env (State ι) Result :=
  (Config.start c.prog ⟨s, fun _ => false⟩).run handle sched

end Calls

abbrev Event (ι : Type) := Entry ι (Op ι) Reply Env (State ι)

abbrev Act (ι : Type) := Σ op : Op ι, Reply op

/-- The next operation of call `i` with its reply, after the operations `es`. -/
inductive CallOp (c : Calls ι) (i : ι) : List (Act ι) → Act ι → Prop
  | setNX {key token : GoString} {ttl : Int64} (hcall : c.call i = .acquire key ttl)
    (htoken : c.token i = .ok token) (reply : Except GoString Bool) :
    CallOp c i [] ⟨.setNX (c.keyPrefix i ++ key) token (formatMs ttl), reply⟩
  | swap {h : ι} {hd : Handle} (hcall : c.call i = .release h) (hhd : c.handleOf h = some hd)
    (swapped : Bool) : CallOp c i [] ⟨.compareAndSwap h, swapped⟩
  | unlock {h : ι} {hd : Handle} (hcall : c.call i = .release h) (hhd : c.handleOf h = some hd)
    (reply : Except GoString ℤ) :
    CallOp c i [⟨.compareAndSwap h, true⟩] ⟨.unlock hd.fullKey hd.token, reply⟩
  | reset {h : ι} {hd : Handle} (hcall : c.call i = .release h) (hhd : c.handleOf h = some hd)
    (text : GoString) :
    CallOp c i [⟨.compareAndSwap h, true⟩, ⟨.unlock hd.fullKey hd.token, .error text⟩] ⟨.reset h, ()⟩
  | load {h : ι} {hd : Handle} {ttl : Int64} (hcall : c.call i = .renew h ttl)
    (hhd : c.handleOf h = some hd) (released : Bool) : CallOp c i [] ⟨.load h, released⟩
  | renew {h : ι} {hd : Handle} {ttl : Int64} (hcall : c.call i = .renew h ttl)
    (hhd : c.handleOf h = some hd) (ms : ℤ) (reply : Except GoString ℤ) :
    CallOp c i [⟨.load h, false⟩] ⟨.renew hd.fullKey hd.token ms, reply⟩

section Paths
variable {c : Calls ι} {i h : ι} {hd : Handle} {es es' : List (Act ι)} {y : Act ι}
  {q : Prog (Op ι) Reply Result}

theorem CallOp.of_acquire {key : GoString} {ttl : Int64} (hcall : c.call i = .acquire key ttl)
    (hpath : (Lock.acquire (c.client i) (c.keyPrefix i) key ttl (c.token i)).Path (es ++ y :: es') q) :
    CallOp c i es y := by
  unfold Lock.acquire at hpath
  split_ifs at hpath with hclient hkey httl
  · exact hpath.ret_split.elim
  · exact hpath.ret_split.elim
  · exact hpath.ret_split.elim
  · cases htoken : c.token i with
    | error text =>
      rw [htoken] at hpath
      exact hpath.ret_split.elim
    | ok token =>
      rw [htoken] at hpath
      dsimp only at hpath
      rw [Prog.perform_bind] at hpath
      rcases hpath.op_split with ⟨rfl, reply, rfl⟩ | ⟨reply, es₁, rfl, h₁⟩
      · exact .setNX hcall htoken reply
      · cases reply with
        | error text => exact h₁.ret_split.elim
        | ok granted => cases granted <;> exact h₁.ret_split.elim

theorem CallOp.of_release (hcall : c.call i = .release h)
    (hpath : (Lock.release h (c.handleOf h)).Path (es ++ y :: es') q) : CallOp c i es y := by
  cases hhd : c.handleOf h with
  | none =>
    rw [hhd] at hpath
    exact hpath.ret_split.elim
  | some hd =>
    rw [hhd] at hpath
    unfold Lock.release at hpath
    dsimp only at hpath
    rw [Prog.perform_bind] at hpath
    rcases hpath.op_split with ⟨rfl, swapped, rfl⟩ | ⟨swapped, es₁, rfl, h₁⟩
    · exact .swap hcall hhd swapped
    cases swapped with
    | false => exact h₁.ret_split.elim
    | true =>
      rw [if_neg (by decide), Prog.perform_bind] at h₁
      rcases h₁.op_split with ⟨rfl, reply, rfl⟩ | ⟨reply, es₂, rfl, h₂⟩
      · exact .unlock hcall hhd reply
      cases reply with
      | error text =>
        obtain ⟨rfl, _, rfl⟩ := h₂.single_split
        exact .reset hcall hhd text
      | ok res =>
        dsimp only at h₂
        split_ifs at h₂ <;> exact h₂.ret_split.elim

theorem CallOp.of_renew {ttl : Int64} (hcall : c.call i = .renew h ttl)
    (hpath : (Lock.renew h (c.handleOf h) ttl).Path (es ++ y :: es') q) : CallOp c i es y := by
  cases hhd : c.handleOf h with
  | none =>
    rw [hhd] at hpath
    exact hpath.ret_split.elim
  | some hd =>
    rw [hhd] at hpath
    unfold Lock.renew at hpath
    dsimp only at hpath
    by_cases httl : ttl ≤ 0
    · rw [if_pos httl] at hpath
      exact hpath.ret_split.elim
    rw [if_neg httl, Prog.perform_bind] at hpath
    rcases hpath.op_split with ⟨rfl, released, rfl⟩ | ⟨released, es₁, rfl, h₁⟩
    · exact .load hcall hhd released
    cases released with
    | true => exact h₁.ret_split.elim
    | false =>
      rw [if_neg (by decide), Prog.perform_bind] at h₁
      rcases h₁.op_split with ⟨rfl, reply, rfl⟩ | ⟨reply, es₂, rfl, h₂⟩
      · exact .renew hcall hhd _ reply
      cases reply with
      | error text => exact h₂.ret_split.elim
      | ok res =>
        dsimp only at h₂
        split_ifs at h₂ <;> exact h₂.ret_split.elim

theorem CallOp.of_path (hpath : (c.prog i).Path (es ++ y :: es') q) : CallOp c i es y := by
  unfold Calls.prog at hpath
  cases hcall : c.call i with
  | acquire key ttl =>
    rw [hcall] at hpath
    exact .of_acquire hcall hpath
  | release h =>
    rw [hcall] at hpath
    exact .of_release hcall hpath
  | renew h ttl =>
    rw [hcall] at hpath
    exact .of_renew hcall hpath

end Paths

/-- What a `Release` of the handle `hd` of call `h` has done when it returns. -/
inductive ReleaseEnds (h : ι) (hd : Handle) : List (Act ι) → Result → Prop
  | refused : ReleaseEnds h hd [⟨.compareAndSwap h, false⟩] (.failed .alreadyReleased)
  | error (text : GoString) : ReleaseEnds h hd
    [⟨.compareAndSwap h, true⟩, ⟨.unlock hd.fullKey hd.token, .error text⟩, ⟨.reset h, ()⟩]
    (.failed (.unlockScript hd.fullKey text))
  | notOwner {res : ℤ} (hres : res ≠ 1) : ReleaseEnds h hd
    [⟨.compareAndSwap h, true⟩, ⟨.unlock hd.fullKey hd.token, .ok res⟩] (.failed .notOwner)
  | done : ReleaseEnds h hd
    [⟨.compareAndSwap h, true⟩, ⟨.unlock hd.fullKey hd.token, .ok 1⟩] .done

/-- What a `Renew` has done when it returns. -/
inductive RenewEnds (h : ι) (hd : Handle) (ttl : Int64) : List (Act ι) → Result → Prop
  | invalid (httl : ttl ≤ 0) : RenewEnds h hd ttl [] (.failed .invalidTTL)
  | refused : RenewEnds h hd ttl [⟨.load h, true⟩] (.failed .alreadyReleased)
  | error (ms : ℤ) (text : GoString) : RenewEnds h hd ttl
    [⟨.load h, false⟩, ⟨.renew hd.fullKey hd.token ms, .error text⟩]
    (.failed (.renewScript hd.fullKey text))
  | notOwner (ms : ℤ) {res : ℤ} (hres : res ≠ 1) : RenewEnds h hd ttl
    [⟨.load h, false⟩, ⟨.renew hd.fullKey hd.token ms, .ok res⟩] (.failed .notOwner)
  | done (ms : ℤ) : RenewEnds h hd ttl
    [⟨.load h, false⟩, ⟨.renew hd.fullKey hd.token ms, .ok 1⟩] .done

section Returns
variable {h : ι} {hd : Handle} {es : List (Act ι)} {r : Result}

theorem ReleaseEnds.of_returns (hret : (Lock.release h (some hd)).Returns es r) : ReleaseEnds h hd es r := by
  unfold Lock.release at hret
  dsimp only at hret
  rw [Prog.perform_bind] at hret
  obtain ⟨swapped, es₁, rfl, h₁⟩ := Prog.returns_op.mp hret
  cases swapped with
  | false =>
    obtain ⟨rfl, rfl⟩ := Prog.returns_ret.mp h₁
    exact .refused
  | true =>
    rw [if_neg (by decide), Prog.perform_bind] at h₁
    obtain ⟨reply, es₂, rfl, h₂⟩ := Prog.returns_op.mp h₁
    cases reply with
    | error text =>
      obtain ⟨_, es₃, rfl, h₃⟩ := Prog.returns_op.mp h₂
      obtain ⟨rfl, rfl⟩ := Prog.returns_ret.mp h₃
      exact .error text
    | ok res =>
      dsimp only at h₂
      split_ifs at h₂ with hres
      · obtain ⟨rfl, rfl⟩ := Prog.returns_ret.mp h₂
        exact .notOwner hres
      · obtain ⟨rfl, rfl⟩ := Prog.returns_ret.mp h₂
        rw [not_not.mp hres]
        exact .done

theorem RenewEnds.of_returns {ttl : Int64} (hret : (Lock.renew h (some hd) ttl).Returns es r) :
    RenewEnds h hd ttl es r := by
  unfold Lock.renew at hret
  dsimp only at hret
  by_cases httl : ttl ≤ 0
  · rw [if_pos httl] at hret
    obtain ⟨rfl, rfl⟩ := Prog.returns_ret.mp hret
    exact .invalid httl
  rw [if_neg httl, Prog.perform_bind] at hret
  obtain ⟨released, es₁, rfl, h₁⟩ := Prog.returns_op.mp hret
  cases released with
  | true =>
    obtain ⟨rfl, rfl⟩ := Prog.returns_ret.mp h₁
    exact .refused
  | false =>
    rw [if_neg (by decide), Prog.perform_bind] at h₁
    obtain ⟨reply, es₂, rfl, h₂⟩ := Prog.returns_op.mp h₁
    cases reply with
    | error text =>
      obtain ⟨rfl, rfl⟩ := Prog.returns_ret.mp h₂
      exact .error _ text
    | ok res =>
      dsimp only at h₂
      split_ifs at h₂ with hres
      · obtain ⟨rfl, rfl⟩ := Prog.returns_ret.mp h₂
        exact .notOwner _ hres
      · obtain ⟨rfl, rfl⟩ := Prog.returns_ret.mp h₂
        rw [not_not.mp hres]
        exact .done _

/-- An `Acquire` returns a handle only after its `SET NX` was granted. -/
theorem granted_of_acquired {client : Bool} {keyPrefix key : GoString} {ttl : Int64}
    {token : Except GoString GoString}
    (hret : (Lock.acquire client keyPrefix key ttl token).Returns es (.acquired hd)) :
    client = true ∧ token = .ok hd.token ∧ hd.fullKey = keyPrefix ++ key ∧
      es = [⟨.setNX hd.fullKey hd.token (formatMs ttl), .ok true⟩] := by
  unfold Lock.acquire at hret
  split_ifs at hret with hclient hkey httl
  · exact nomatch (Prog.returns_ret.mp hret).2
  · exact nomatch (Prog.returns_ret.mp hret).2
  · exact nomatch (Prog.returns_ret.mp hret).2
  cases token with
  | error text => exact nomatch (Prog.returns_ret.mp hret).2
  | ok token =>
    dsimp only at hret
    rw [Prog.perform_bind] at hret
    obtain ⟨reply, es₁, rfl, h₁⟩ := Prog.returns_op.mp hret
    cases reply with
    | error text => exact nomatch (Prog.returns_ret.mp h₁).2
    | ok granted =>
      cases granted with
      | false => exact nomatch (Prog.returns_ret.mp h₁).2
      | true =>
        obtain ⟨rfl, hacquired⟩ := Prog.returns_ret.mp h₁
        cases hacquired
        cases client with
        | false => exact absurd rfl hclient
        | true => exact ⟨rfl, rfl, rfl, rfl⟩

end Returns

/-- Whether Redis replied that the command changed the key. -/
def granted : Act ι → Bool
  | ⟨.setNX _ _ _, .ok ok⟩ => ok
  | ⟨.unlock _ _, .ok res⟩ => res = 1
  | ⟨.renew _ _ _, .ok res⟩ => res = 1
  | _ => false

/-- What an operation at `now` does to the keys: it leaves them as they are, or it sets a key that is
absent or expired, or it deletes or extends a key that stores the caller's token. -/
inductive KeyStep (now : ℤ) (s t : Leases) : Act ι → Prop
  | keep {y : Act ι} (hy : granted y = false) (ht : t = s) : KeyStep now s t y
  | set {key token : GoString} {ttl : ℤ} {reply : Except GoString Bool}
    (hfree : ∀ c, s key = some c → c.expireAt ≤ now)
    (ht : t = Function.update s key (some ⟨token, now + ttl⟩)) :
    KeyStep now s t ⟨.setNX key token ttl, reply⟩
  | delete {key token : GoString} {e : ℤ} {reply : Except GoString ℤ} (hmine : s key = some ⟨token, e⟩)
    (hreply : ∀ res, reply = .ok res → res = 1) (ht : t = Function.update s key none) :
    KeyStep now s t ⟨.unlock key token, reply⟩
  | extend {key token : GoString} {ttl e : ℤ} {reply : Except GoString ℤ}
    (hmine : s key = some ⟨token, e⟩) (hreply : ∀ res, reply = .ok res → res = 1)
    (ht : t = Function.update s key (some ⟨token, now + ttl⟩)) :
    KeyStep now s t ⟨.renew key token ttl, reply⟩

section Step
variable {s t : State ι}

theorem onKeys_cases {α : Type} {fault : Option Fault} {r : α × Leases} {reply : Except GoString α}
    (h : onKeys fault s r = (reply, t)) : t.released = s.released ∧
      (((∃ text, reply = .error text) ∧ t.keys = s.keys) ∨
        (t.keys = r.2 ∧ ∀ a, reply = .ok a → a = r.1)) := by
  rcases answer_cases h with ⟨hreply, rfl⟩ | ⟨rfl, hreply⟩
  · exact ⟨rfl, .inl ⟨hreply, rfl⟩⟩
  · exact ⟨rfl, .inr ⟨rfl, hreply⟩⟩

/-- A script leaves the keys as they are, or it has found the token and its reply, if any, is 1. -/
theorem script_cases {fault : Option Fault} {r : ℤ × Leases} {u : Leases} {P : Prop}
    {reply : Except GoString ℤ} (h : onKeys fault s r = (reply, t))
    (hr : (r.1 = 0 ∧ r.2 = s.keys) ∨ (r.1 = 1 ∧ r.2 = u ∧ P)) :
    (reply ≠ .ok 1 ∧ t.keys = s.keys) ∨ ((∀ res, reply = .ok res → res = 1) ∧ t.keys = u ∧ P) := by
  obtain ⟨-, ⟨⟨text, rfl⟩, hkeys⟩ | ⟨hkeys, hreply⟩⟩ := onKeys_cases h
  · exact .inl ⟨nofun, hkeys⟩
  rcases hr with ⟨hzero, hsame⟩ | ⟨hone, hnew, hP⟩
  · refine .inl ⟨?_, hkeys.trans hsame⟩
    intro hok
    have := hreply 1 hok
    omega
  · refine .inr ⟨?_, hkeys.trans hnew, hP⟩
    intro res hok
    rw [hreply res hok, hone]

variable [DecidableEq ι] {x : Event ι}

theorem KeyStep.of_setNX {key token : GoString} {ttl : ℤ} {reply : Except GoString Bool}
    (h : handle x.env (.setNX key token ttl) x.pre = (reply, x.post)) :
    KeyStep (ι := ι) x.env.now x.pre.keys x.post.keys ⟨.setNX key token ttl, reply⟩ := by
  obtain ⟨-, ⟨⟨text, rfl⟩, hkeys⟩ | ⟨hkeys, hreply⟩⟩ := onKeys_cases h
  · exact .keep rfl hkeys
  generalize hr : x.pre.keys.setNX x.env.now key token ttl = r at hkeys hreply
  rcases Leases.setNX_cases hr with ⟨hres, hsame, -⟩ | ⟨-, hset, hfree⟩
  · refine .keep ?_ (hkeys.trans hsame)
    cases reply with
    | error text => rfl
    | ok ok => exact (hreply ok rfl).trans hres
  · exact .set hfree (hkeys.trans hset)

theorem KeyStep.of_unlock {key token : GoString} {reply : Except GoString ℤ}
    (h : handle x.env (.unlock key token) x.pre = (reply, x.post)) :
    KeyStep (ι := ι) x.env.now x.pre.keys x.post.keys ⟨.unlock key token, reply⟩ := by
  rcases script_cases h (Leases.compareDelete_cases rfl) with
    ⟨hreply, hkeys⟩ | ⟨hreply, hkeys, e, hmine, -⟩
  · refine .keep ?_ hkeys
    cases reply with
    | error text => rfl
    | ok res => exact decide_eq_false fun hres => hreply (congrArg _ hres)
  · exact .delete hmine hreply hkeys

theorem KeyStep.of_renew {key token : GoString} {ttl : ℤ} {reply : Except GoString ℤ}
    (h : handle x.env (.renew key token ttl) x.pre = (reply, x.post)) :
    KeyStep (ι := ι) x.env.now x.pre.keys x.post.keys ⟨.renew key token ttl, reply⟩ := by
  rcases script_cases h (Leases.compareExpire_cases rfl) with
    ⟨hreply, hkeys⟩ | ⟨hreply, hkeys, e, hmine, -⟩
  · refine .keep ?_ hkeys
    cases reply with
    | error text => rfl
    | ok res => exact decide_eq_false fun hres => hreply (congrArg _ hres)
  · exact .extend hmine hreply hkeys

/-- A compare-and-swap succeeds exactly on a flag that is not set. -/
theorem compareAndSwap_cases {h : ι} {swapped : Bool}
    (hrun : handle x.env (.compareAndSwap h) x.pre = (swapped, x.post)) :
    swapped = !x.pre.released h ∧ x.post.keys = x.pre.keys ∧
      x.post.released = Function.update x.pre.released h true := by
  unfold handle at hrun
  dsimp only at hrun
  split_ifs at hrun with hset
  · obtain ⟨rfl, hpost⟩ := Prod.mk.inj hrun
    rw [← hpost]
    refine ⟨by rw [hset]; rfl, rfl, ?_⟩
    rw [← hset, Function.update_eq_self]
  · obtain ⟨rfl, hpost⟩ := Prod.mk.inj hrun
    rw [← hpost, Bool.eq_false_iff.mpr hset]
    exact ⟨rfl, rfl, rfl⟩

theorem KeyStep.of_valid (hx : x.Valid handle) : KeyStep x.env.now x.pre.keys x.post.keys x.act := by
  obtain ⟨op, reply, hact⟩ : ∃ op reply, x.act = ⟨op, reply⟩ := ⟨_, _, rfl⟩
  have hrun := hx.handle hact
  rw [hact]
  cases op with
  | setNX key token ttl => exact .of_setNX hrun
  | unlock key token => exact .of_unlock hrun
  | renew key token ttl => exact .of_renew hrun
  | compareAndSwap h => exact .keep rfl (compareAndSwap_cases hrun).2.1
  | reset h =>
    obtain ⟨-, hpost⟩ := Prod.mk.inj hrun
    exact .keep rfl (by rw [← hpost])
  | load h =>
    obtain ⟨-, hpost⟩ := Prod.mk.inj hrun
    exact .keep rfl (by rw [← hpost])

end Step

end SynapseGo.Lock
