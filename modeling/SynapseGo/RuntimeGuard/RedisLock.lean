import SynapseGo.Concurrency.Resend
import SynapseGo.Go.Strconv
import SynapseGo.Redis.LeaseRuns
import SynapseGo.RuntimeGuard.RedisLimiter

/-! `runtimeguard.RedisLockManager`: locks shared by processes. The lock is a Redis key with a time to
live that stores a random token; whoever has the token can release it. The client of a manager may send a
command again after an error, which Redis may have carried out all the same. -/
namespace SynapseGo.RuntimeGuard.RedisLock
open SynapseGo.Go SynapseGo.Concurrency SynapseGo.Redis

/-- `RedisLock`, apart from its manager. -/
structure Lock where
  key : GoString
  owner : GoString
  token : GoString
  deriving DecidableEq, Repr

inductive Op where
  | setNX (key token : GoString) (ttl : ℤ)
  /-- `redisLockReleaseScript`. -/
  | release (key token : GoString)

abbrev Reply : Op → Type
  | .setNX _ _ _ => Except GoString Bool
  | .release _ _ => Except GoString ℤ

structure Env where
  now : ℤ
  fault : Option Fault

def handle : Handler Op Reply Env Leases
  | env, .setNX key token ttl, s => answer env.fault s (s.setNX env.now key token ttl)
  | env, .release key token, s => answer env.fault s (s.compareDelete env.now key token)

inductive Result where
  | acquired (lock : Lock)
  | notAcquired
  | released (deleted : Bool)
  | failed (text : GoString)
  deriving DecidableEq, Repr

def lockKey (keyPrefix key : GoString) : GoString := keyPrefix ++ lit "lock:" ++ key

/-- What `rand.Read` fills a token's array with. -/
abbrev TokenBytes := {bytes : GoString // bytes.length = 32}

def newLockToken (random : Except GoString TokenBytes) : Except GoString GoString :=
  random.map fun bytes => hexEncode bytes.1

/-- `Acquire`; `store` says whether the manager has a store. -/
def acquire (store : Bool) (keyPrefix key owner : GoString) (ttl : Int64)
    (random : Except GoString TokenBytes) :
    Prog Op Reply Result := do
  let key := trimSpace key
  let owner := trimSpace owner
  if key = [] ∨ owner = [] ∨ ttl ≤ 0 then return .notAcquired
  if !store then return .failed (lit "runtimeguard: redis lock store is nil")
  match newLockToken random with
  | .error text => return .failed text
  | .ok token =>
    let reply : Except GoString Bool ← Prog.perform (Op.setNX (lockKey keyPrefix key) token (formatMs ttl))
    match reply with
    | .error text => return .failed text
    | .ok acquired =>
      if !acquired then return .notAcquired
      return .acquired ⟨key, owner, token⟩

/-- `RedisLockManager.Release`. -/
def release (store : Bool) (keyPrefix key token : GoString) : Prog Op Reply Result := do
  let key := trimSpace key
  let token := trimSpace token
  if key = [] ∨ token = [] then return .released false
  if !store then return .failed (lit "runtimeguard: redis lock store is nil")
  let reply : Except GoString ℤ ← Prog.perform (Op.release (lockKey keyPrefix key) token)
  match reply with
  | .error text => return .failed text
  | .ok deleted => return .released (deleted = 1)

/-- `RedisLock.Release`; the manager of an acquired lock has a store. -/
def Lock.release (l : Lock) (keyPrefix : GoString) : Prog Op Reply Result :=
  RedisLock.release true keyPrefix l.key l.token

inductive LockCall where
  | acquire (key owner : GoString) (ttl : Int64) (random : Except GoString TokenBytes)
  | release (key token : GoString)

/-- A client sends a command again after errors of certain texts. -/
def again (retried : GoString → Bool) : (op : Op) → Reply op → Bool
  | .setNX _ _ _, .error text => retried text
  | .release _ _, .error text => retried text
  | _, _ => false

/-- Any number of calls, each of a manager with its own options and client. -/
structure Calls (ι : Type) where
  call : ι → LockCall
  store : ι → Bool
  prefixOption : ι → GoString
  maxRetries : ι → ℕ
  retried : ι → GoString → Bool

namespace Calls
variable {ι : Type} (c : Calls ι)

def keyPrefix (i : ι) : GoString := RedisLimiter.redisKeyPrefix (c.prefixOption i)

def prog (i : ι) : Prog Op Reply Result :=
  match c.call i with
  | .acquire key owner ttl random => RedisLock.acquire (c.store i) (c.keyPrefix i) key owner ttl random
  | .release key token => RedisLock.release (c.store i) (c.keyPrefix i) key token

/-- The call with what its client sends again. -/
def sent (i : ι) : Prog Op Reply Result := (c.prog i).resending (again (c.retried i)) (c.maxRetries i)

/-- No two calls of `Acquire` get the same random bytes. -/
def DistinctRandom : Prop := ∀ i j key owner ttl key' owner' ttl' bytes,
  c.call i = .acquire key owner ttl (.ok bytes) → c.call j = .acquire key' owner' ttl' (.ok bytes) → i = j

/-- Where a schedule leads the calls on a Redis without lock keys. -/
def world [DecidableEq ι] (sched : List (ι × Env)) : Config ι Op Reply Env Leases Result :=
  (Config.start c.sent fun _ => none).run handle sched

end Calls

abbrev Act := Σ op : Op, Reply op

abbrev Event (ι : Type) := Entry ι Op Reply Env Leases

def view : LeaseView handle where
  clock env := env.now
  act
    | ⟨.setNX key token ttl, reply⟩ => .setNX key token ttl reply.toOption
    | ⟨.release key token, reply⟩ => .delete key token (reply.toOption.map fun n => n = 1)
  step := by
    intro ι x hx
    obtain ⟨op, reply, hact⟩ : ∃ op reply, x.act = ⟨op, reply⟩ := ⟨_, _, rfl⟩
    have hrun := hx.handle hact
    rw [hact]
    cases op with
    | setNX key token ttl => exact .of_setNX hrun
    | release key token => exact .of_compareDelete hrun

/-- The one operation of a call with its reply. -/
inductive CallOp {ι : Type} (c : Calls ι) (i : ι) : Act → Prop
  | setNX {key owner : GoString} {ttl : Int64} {bytes : TokenBytes}
      (hcall : c.call i = .acquire key owner ttl (.ok bytes))
    (reply : Except GoString Bool) :
    CallOp c i ⟨.setNX (lockKey (c.keyPrefix i) (trimSpace key)) (hexEncode bytes.1) (formatMs ttl), reply⟩
  | release {key token : GoString} (hcall : c.call i = .release key token) (reply : Except GoString ℤ) :
    CallOp c i ⟨.release (lockKey (c.keyPrefix i) (trimSpace key)) (trimSpace token), reply⟩

section Paths
variable {ι : Type} {c : Calls ι} {i : ι} {es es' : List Act} {y : Act} {q : Prog Op Reply Result}

theorem CallOp.of_path (hpath : (c.prog i).Path (es ++ y :: es') q) : es = [] ∧ CallOp c i y := by
  unfold Calls.prog at hpath
  cases hcall : c.call i with
  | acquire key owner ttl random =>
    rw [hcall] at hpath
    dsimp only [RedisLock.acquire] at hpath
    split_ifs at hpath
    · exact hpath.ret_split.elim
    · exact hpath.ret_split.elim
    cases random with
    | error text => exact hpath.ret_split.elim
    | ok bytes =>
      rcases hpath.op_split with ⟨rfl, reply, rfl⟩ | ⟨reply, es₁, rfl, hrest⟩
      · exact ⟨rfl, .setNX hcall reply⟩
      cases reply with
      | error text => exact hrest.ret_split.elim
      | ok acquired => cases acquired <;> exact hrest.ret_split.elim
  | release key token =>
    rw [hcall] at hpath
    dsimp only [RedisLock.release] at hpath
    split_ifs at hpath
    · exact hpath.ret_split.elim
    · exact hpath.ret_split.elim
    rcases hpath.op_split with ⟨rfl, reply, rfl⟩ | ⟨reply, es₁, rfl, hrest⟩
    · exact ⟨rfl, .release hcall reply⟩
    cases reply <;> exact hrest.ret_split.elim

/-- Hexadecimal digits have no space at their ends. -/
theorem trimSpace_token (bytes : TokenBytes) :
    trimSpace (hexEncode bytes.1) = hexEncode bytes.1 ∧ hexEncode bytes.1 ≠ [] := by
  have hlength : (hexEncode bytes.1).length = 64 := by
    rw [length_hexEncode, bytes.2]
  have hne : hexEncode bytes.1 ≠ [] := by
    intro hnil
    rw [hnil] at hlength
    cases hlength
  have htrim := trimSpace_of_graphic blank_nil blank_nil hexEncode_graphic hne
  rw [List.nil_append, List.append_nil] at htrim
  exact ⟨htrim, hne⟩

/-- An `Acquire` returns a lock only after its `SET NX` was granted, and the lock releases what was stored. -/
theorem grant_of_acquired {lock : Lock} (hret : (c.prog i).Returns es (.acquired lock)) :
    ∃ ttl, es = [⟨.setNX (lockKey (c.keyPrefix i) lock.key) lock.token (formatMs ttl), .ok true⟩] ∧
      ∃ k, lock.release (c.keyPrefix i) = .op (.release (lockKey (c.keyPrefix i) lock.key) lock.token) k := by
  unfold Calls.prog at hret
  cases hcall : c.call i with
  | acquire key owner ttl random =>
    rw [hcall] at hret
    dsimp only [RedisLock.acquire] at hret
    split_ifs at hret with hinvalid hstore
    · exact nomatch (Prog.returns_ret.mp hret).2
    · exact nomatch (Prog.returns_ret.mp hret).2
    cases random with
    | error text => exact nomatch (Prog.returns_ret.mp hret).2
    | ok bytes =>
      obtain ⟨reply, es₁, rfl, hrest⟩ := Prog.returns_op.mp hret
      cases reply with
      | error text => exact nomatch (Prog.returns_ret.mp hrest).2
      | ok acquired =>
        cases acquired with
        | false => exact nomatch (Prog.returns_ret.mp hrest).2
        | true =>
          obtain ⟨rfl, hlock⟩ := Prog.returns_ret.mp hrest
          cases hlock
          refine ⟨ttl, rfl, ?_⟩
          obtain ⟨htoken, hne⟩ := trimSpace_token bytes
          have hkey : trimSpace key ≠ [] := fun hnil => hinvalid (.inl hnil)
          unfold Lock.release RedisLock.release
          rw [trimSpace_trimSpace, htoken, if_neg (not_or.mpr ⟨hkey, hne⟩), if_neg (by decide)]
          exact ⟨_, rfl⟩
  | release key token =>
    rw [hcall] at hret
    dsimp only [RedisLock.release] at hret
    split_ifs at hret
    · exact nomatch (Prog.returns_ret.mp hret).2
    · exact nomatch (Prog.returns_ret.mp hret).2
    obtain ⟨reply, es₁, rfl, hrest⟩ := Prog.returns_op.mp hret
    cases reply <;> exact nomatch (Prog.returns_ret.mp hrest).2

end Paths

section Runs
variable {ι : Type}

/-- Call `i` got the lock in the part `a` of a run and holds it at `t`: its time has not run out, and no
release with its token has come since. -/
def Holds (a : List (Event ι)) (t : ℤ) (i : ι) (key token : GoString) : Prop :=
  ∃ a₁ x a₂ ttl, a = a₁ ++ x :: a₂ ∧ x.caller = i ∧ x.act = ⟨.setNX key token ttl, .ok true⟩ ∧
    t < x.env.now + ttl ∧ ∀ z ∈ a₂, ∀ reply, z.act ≠ ⟨.release key token, reply⟩

/-- The contract of the locks in a run. -/
structure LocksSafe [DecidableEq ι] (c : Calls ι) (w : Config ι Op Reply Env Leases Result) : Prop where
  /-- An acquired lock was granted, and its own `Release` is for the token that was stored. -/
  acquired : ∀ i lock, w.Returned i (.acquired lock) →
    (∃ x ∈ w.log, x.caller = i ∧
      ∃ ttl, x.act = ⟨.setNX (lockKey (c.keyPrefix i) lock.key) lock.token ttl, .ok true⟩) ∧
    ∃ k, lock.release (c.keyPrefix i) = .op (.release (lockKey (c.keyPrefix i) lock.key) lock.token) k
  /-- One call at a time holds a key. -/
  exclusive : ∀ a b t i j key token token', w.log = a ++ b → (∀ z ∈ a, z.env.now ≤ t) →
    Holds a t i key token → Holds a t j key token' → i = j
  /-- The first release with the holder's token, if Redis answers it, succeeds. -/
  released : ∀ a z b i key token n, w.log = a ++ z :: b → Holds a z.env.now i key token →
    z.act = ⟨.release key token, .ok n⟩ → n = 1
  /-- A token is released twice only if its `SET NX` failed for the client before the first release and was
  sent again between the two. -/
  released_once : ∀ a z m z' b key token, w.log = a ++ z :: (m ++ z' :: b) →
    z.act = ⟨.release key token, .ok 1⟩ → z'.act = ⟨.release key token, .ok 1⟩ →
    ∃ x ∈ a, ∃ y ∈ m, x.caller = y.caller ∧
      (∃ ttl text, x.act = ⟨.setNX key token ttl, .error text⟩ ∧ c.retried x.caller text = true) ∧
      ∃ ttl reply, y.act = ⟨.setNX key token ttl, reply⟩
  /-- An `Acquire` is refused only within the time of a `SET NX` that was not refused: of another call, or
  one of its own that failed for its client and was sent again. -/
  refused : ∀ a z b key token ttl, w.log = a ++ z :: b → z.act = ⟨.setNX key token ttl, .ok false⟩ →
    ∃ x ∈ a, ∃ token' ttl' reply, x.act = ⟨.setNX key token' ttl', reply⟩ ∧ reply ≠ .ok false ∧
      z.env.now < x.env.now + ttl' ∧
      (x.caller = z.caller → ∃ text, reply = .error text ∧ c.retried z.caller text = true)

variable {a : List (Event ι)} {x : Event ι} {t : ℤ} {key token : GoString}

theorem view_setNX {ttl : ℤ} {granted : Option Bool} (h : view.act x.act = .setNX key token ttl granted) :
    ∃ reply, x.act = ⟨.setNX key token ttl, reply⟩ ∧ granted = reply.toOption := by
  obtain ⟨op, reply, hact⟩ : ∃ op reply, x.act = ⟨op, reply⟩ := ⟨_, _, rfl⟩
  rw [hact] at h
  cases op with
  | setNX key' token' ttl' =>
    cases h
    exact ⟨reply, hact, rfl⟩
  | release key' token' => cases h

theorem view_ne_delete (h : ∀ reply, x.act ≠ ⟨.release key token, reply⟩) (r : Option Bool) :
    view.act x.act ≠ .delete key token r := by
  obtain ⟨op, reply, hact⟩ : ∃ op reply, x.act = ⟨op, reply⟩ := ⟨_, _, rfl⟩
  rw [hact]
  intro hview
  cases op with
  | setNX key' token' ttl' => cases hview
  | release key' token' =>
    cases hview
    exact h reply hact

theorem clock_le_of_mem {log a b : List (Event ι)} {z : Event ι}
    (hclock : log.Pairwise fun x y => x.env.now ≤ y.env.now) (hl : log = a ++ z :: b) :
    ∀ x ∈ a, x.env.now ≤ z.env.now := by
  rw [hl] at hclock
  intro x hx
  exact (List.pairwise_append.mp hclock).2.2 x hx z List.mem_cons_self

/-- While a call holds a key, the key stores its token and its time. -/
theorem Holds.stored {i : ι} {s₀ s : Leases} (h : Holds a t i key token) (hexec : Exec handle s₀ a s)
    (htime : ∀ z ∈ a, z.env.now ≤ t) : ∃ e, s key = some ⟨token, e⟩ ∧ t < e := by
  obtain ⟨a₁, x, a₂, ttl, rfl, -, hact, ht, hkept⟩ := h
  obtain ⟨-, hvalid, hrest⟩ := hexec.split
  have hview : view.act x.act = .setNX key token ttl (some true) := by
    rw [hact]
    rfl
  have hpost := (view.granted hvalid hview).1
  refine ⟨x.env.now + ttl, ?_, ht⟩
  apply view.held hrest hpost
  · intro z hz
    have hle := htime z (List.mem_append_right _ (List.mem_cons_of_mem _ hz))
    exact lt_of_le_of_lt hle ht
  · intro z hz
    exact view_ne_delete (hkept z hz)

/-- A release that Redis answers at a time when the token is stored and has time left deletes it. -/
theorem deleted_of_stored {z : Event ι} {e n : ℤ} (hvalid : z.Valid handle)
    (hpre : z.pre key = some ⟨token, e⟩) (htime : z.env.now < e)
    (hact : z.act = ⟨.release key token, .ok n⟩) : n = 1 := by
  have hstep := view.step z hvalid
  rw [hact] at hstep
  by_contra hn
  have hview : view.act ⟨Op.release key token, Except.ok n⟩ = .delete key token (some false) := by
    simp [view, Except.toOption, hn]
  rw [hview] at hstep
  cases hstep with
  | kept hdeleted hlost ht => exact absurd (hlost rfl e hpre) (not_le.mpr htime)
  | deleted hdeleted hmine ht => exact absurd rfl hdeleted

/-- A release that says it deleted the key found its token and leaves no lock. -/
theorem stored_of_deleted {z : Event ι} (hvalid : z.Valid handle)
    (hact : z.act = ⟨.release key token, .ok 1⟩) :
    (∃ e, z.pre key = some ⟨token, e⟩) ∧ z.post key = none := by
  have hstep := view.step z hvalid
  have hview : view.act z.act = .delete key token (some true) := by
    rw [hact]
    rfl
  rw [hview] at hstep
  cases hstep with
  | kept hdeleted hlost ht => exact absurd rfl hdeleted
  | deleted hdeleted hmine ht =>
    refine ⟨⟨_, hmine⟩, ?_⟩
    rw [ht, Function.update_self]

/-- What a key stores was put there by an `Acquire` that Redis did not refuse. -/
theorem exists_acquire {s : Leases} (hexec : Exec handle (fun _ => none) a s) {e : ℤ}
    (hs : s key = some ⟨token, e⟩) : ∃ x ∈ a, ∃ ttl reply,
      x.act = ⟨.setNX key token ttl, reply⟩ ∧ reply ≠ .ok false ∧ e = x.env.now + ttl := by
  obtain ⟨x, hx, ttl, granted, hact, hgranted, he⟩ := view.exists_set hexec nofun hs
  obtain ⟨reply, hreply, rfl⟩ := view_setNX hact
  refine ⟨x, hx, ttl, reply, hreply, ?_, he⟩
  intro hfalse
  rw [hfalse] at hgranted
  exact hgranted rfl

section World
variable [DecidableEq ι] {c : Calls ι} {w : Config ι Op Reply Env Leases Result}

/-- Every sending is one of its call's operation, and the sendings before it failed for the client. -/
theorem callOp_of_split (hw : w.Sound handle c.sent fun _ => none) {b : List (Event ι)}
    (hl : w.log = a ++ x :: b) :
    (∀ y ∈ history x.caller a, again (c.retried x.caller) y.1 y.2 = true) ∧ CallOp c x.caller x.act := by
  obtain ⟨seen, p, hpath, hseen⟩ := Prog.Path.resending_split (hw.path_split hl)
  obtain ⟨rfl, hop⟩ := CallOp.of_path hpath
  refine ⟨?_, hop⟩
  intro y hy
  exact (hseen.unseen y hy).resolve_left List.not_mem_nil

/-- A `SET NX` that its call's client sends again has failed for it. -/
theorem failed_of_resent (hw : w.Sound handle c.sent fun _ => none) {y : Event ι} {b : List (Event ι)}
    (hl : w.log = a ++ y :: b) (hx : x ∈ a) (hcaller : x.caller = y.caller) {ttl : ℤ}
    {reply : Except GoString Bool} (hact : x.act = ⟨.setNX key token ttl, reply⟩) :
    ∃ text, reply = .error text ∧ c.retried y.caller text = true := by
  have hagain := (callOp_of_split hw hl).1 x.act (mem_history.mpr ⟨x, hx, hcaller, rfl⟩)
  rw [hact] at hagain
  cases reply with
  | error text => exact ⟨text, rfl, hagain⟩
  | ok acquired => cases hagain

/-- Two steps that set one token belong to one call. -/
theorem caller_eq_of_token (hw : w.Sound handle c.sent fun _ => none) (hrandom : c.DistinctRandom)
    {x y : Event ι} (hx : x ∈ w.log) (hy : y ∈ w.log) {key' : GoString} {ttl ttl' : ℤ}
    {reply reply' : Except GoString Bool} (hactx : x.act = ⟨.setNX key token ttl, reply⟩)
    (hacty : y.act = ⟨.setNX key' token ttl', reply'⟩) : x.caller = y.caller := by
  have hbytes : ∀ {z : Event ι} {key ttl reply}, z ∈ w.log → z.act = ⟨.setNX key token ttl, reply⟩ →
      ∃ k o l bytes, c.call z.caller = .acquire k o l (.ok bytes) ∧ token = hexEncode bytes.1 := by
    intro z key ttl reply hz hact
    obtain ⟨a, b, hl⟩ := List.append_of_mem hz
    have hop := (callOp_of_split hw hl).2
    rw [hact] at hop
    cases hop with
    | setNX hcall reply => exact ⟨_, _, _, _, hcall, rfl⟩
  obtain ⟨k, o, l, bytes, hcall, htoken⟩ := hbytes hx hactx
  obtain ⟨k', o', l', bytes', hcall', htoken'⟩ := hbytes hy hacty
  have hsame : bytes = bytes' := Subtype.ext (hexEncode_injective (htoken.symm.trans htoken'))
  subst hsame
  exact hrandom _ _ _ _ _ _ _ _ _ hcall hcall'

theorem holds_exclusive (hw : w.Sound handle c.sent fun _ => none) (hrandom : c.DistinctRandom)
    {b : List (Event ι)} (hl : w.log = a ++ b) (htime : ∀ z ∈ a, z.env.now ≤ t) {i j : ι} {token' : GoString}
    (hi : Holds a t i key token) (hj : Holds a t j key token') : i = j := by
  have hexec := hw.exec
  rw [hl] at hexec
  obtain ⟨s, ha, -⟩ := hexec.of_append
  obtain ⟨e, he, -⟩ := hi.stored ha htime
  obtain ⟨e', he', -⟩ := hj.stored ha htime
  have htoken : token' = token := by
    rw [he] at he'
    exact congrArg Lease.token (Option.some.inj he').symm
  subst htoken
  obtain ⟨a₁, x, a₂, ttl, ha₁, rfl, hactx, -, -⟩ := hi
  obtain ⟨a₃, y, a₄, ttl', ha₃, rfl, hacty, -, -⟩ := hj
  have hx : x ∈ w.log := by
    rw [hl]
    exact List.mem_append_left b (mem_of_split ha₁)
  have hy : y ∈ w.log := by
    rw [hl]
    exact List.mem_append_left b (mem_of_split ha₃)
  exact caller_eq_of_token hw hrandom hx hy hactx hacty

theorem deleted_once (hw : w.Sound handle c.sent fun _ => none) (hrandom : c.DistinctRandom)
    {z z' : Event ι} {m b : List (Event ι)} (hl : w.log = a ++ z :: (m ++ z' :: b))
    (hact : z.act = ⟨.release key token, .ok 1⟩) (hact' : z'.act = ⟨.release key token, .ok 1⟩) :
    ∃ x ∈ a, ∃ y ∈ m, x.caller = y.caller ∧
      (∃ ttl text, x.act = ⟨.setNX key token ttl, .error text⟩ ∧ c.retried x.caller text = true) ∧
      ∃ ttl reply, y.act = ⟨.setNX key token ttl, reply⟩ := by
  have hexec := hw.exec
  rw [hl] at hexec
  obtain ⟨ha, hz, hrest⟩ := hexec.split
  obtain ⟨hm, hz', -⟩ := hrest.split
  obtain ⟨⟨e, hpre⟩, hpost⟩ := stored_of_deleted hz hact
  obtain ⟨⟨e', hpre'⟩, -⟩ := stored_of_deleted hz' hact'
  -- The token was set before the first release, and again between the two: by the same call.
  obtain ⟨x, hx, ttl, reply, hactx, -, -⟩ := exists_acquire ha hpre
  have habsent : z.post key ≠ some ⟨token, e'⟩ := by
    rw [hpost]
    nofun
  obtain ⟨y, hy, ttl', granted, hview, -, -⟩ := view.exists_set hm habsent hpre'
  obtain ⟨reply', hacty, -⟩ := view_setNX hview
  obtain ⟨m₁, m₂, hm'⟩ := List.append_of_mem hy
  have hsplit : w.log = (a ++ z :: m₁) ++ y :: (m₂ ++ z' :: b) := by
    rw [hl, hm']
    simp
  have hxlog : x ∈ w.log := by
    rw [hl]
    exact List.mem_append_left _ hx
  have hcaller := caller_eq_of_token hw hrandom hxlog (mem_of_split hsplit) hactx hacty
  obtain ⟨text, rfl, hretried⟩ := failed_of_resent hw hsplit (List.mem_append_left _ hx) hcaller hactx
  rw [← hcaller] at hretried
  exact ⟨x, hx, y, hy, hcaller, ⟨ttl, text, hactx, hretried⟩, ttl', reply', hacty⟩

end World

/-- Whatever the calls of any number of managers, their schedule and their clients, lost replies and repeated
commands included: locks are held by one call at a time, released once, and refused only while one is held. -/
theorem redisLocks_safe [DecidableEq ι] (c : Calls ι) (hrandom : c.DistinctRandom) (sched : List (ι × Env))
    (hclock : (c.world sched).log.Pairwise fun x y => x.env.now ≤ y.env.now) :
    LocksSafe c (c.world sched) := by
  have hw : (c.world sched).Sound handle c.sent fun _ => none := Config.run_sound _ _ _ _
  constructor
  case acquired =>
    intro i lock hret
    obtain ⟨seen, hreturns, hseen⟩ := Prog.Returns.of_resending (hw.returns hret)
    obtain ⟨ttl, rfl, hrelease⟩ := grant_of_acquired hreturns
    obtain ⟨x, hx, hcaller, hact⟩ := mem_history.mp (hseen.sent _ (List.mem_singleton_self _))
    exact ⟨⟨x, hx, hcaller, formatMs ttl, hact⟩, hrelease⟩
  case exclusive =>
    intro a b t i j key token token' hl htime hi hj
    exact holds_exclusive hw hrandom hl htime hi hj
  case released =>
    intro a z b i key token n hl hholds hact
    have hexec := hw.exec
    rw [hl] at hexec
    obtain ⟨ha, hz, -⟩ := hexec.split
    obtain ⟨e, hpre, htime⟩ := hholds.stored ha (clock_le_of_mem hclock hl)
    exact deleted_of_stored hz hpre htime hact
  case released_once =>
    intro a z m z' b key token hl hact hact'
    exact deleted_once hw hrandom hl hact hact'
  case refused =>
    intro a z b key token ttl hl hact
    have hexec := hw.exec
    rw [hl] at hexec
    obtain ⟨ha, hz, -⟩ := hexec.split
    have hstep := view.step z hz
    have hview : view.act z.act = .setNX key token ttl (some false) := by
      rw [hact]
      rfl
    rw [hview] at hstep
    cases hstep with
    | refused hgranted hheld ht =>
      obtain ⟨lease, hlease, htime⟩ := hheld rfl
      obtain ⟨x, hx, ttl', reply, hactx, hreply, he⟩ := exists_acquire ha hlease
      refine ⟨x, hx, lease.token, ttl', reply, hactx, hreply, ?_, ?_⟩
      · rw [← he]
        exact htime
      · intro hcaller
        exact failed_of_resent hw hl hx hcaller hactx
    | set hgranted => exact absurd rfl hgranted

end Runs

/-- Two managers that ask for one lock, with different spaces around its key; their clients send a command
again after every error, three times at most. -/
def twoManagers : Calls Bool where
  call
    | false => .acquire (lit "job") (lit "a") 1000000000 (.ok ⟨List.replicate 32 1, rfl⟩)
    | true => .acquire (lit " job ") (lit "b") 1000000000 (.ok ⟨List.replicate 32 2, rfl⟩)
  store _ := true
  prefixOption _ := lit "app"
  maxRetries _ := 3
  retried _ _ := true

/-- The first `SET NX` is carried out and its reply lost, so that both managers are refused within a
second. -/
theorem twoManagers_safe : LocksSafe twoManagers (twoManagers.world
    [(false, ⟨0, some ⟨lit "EOF", true⟩⟩), (true, ⟨500, none⟩), (false, ⟨600, none⟩)]) := by
  apply redisLocks_safe
  · intro i j key owner ttl key' owner' ttl' bytes hi hj
    cases i <;> cases j
    · rfl
    · cases hi
      cases hj
    · cases hi
      cases hj
    · rfl
  · decide +kernel

end SynapseGo.RuntimeGuard.RedisLock
