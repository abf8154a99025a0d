import SynapseGo.Concurrency.Resend
import SynapseGo.Lock.Locker

/-! `idempotent.Middleware`: a request with an `Idempotency-Key` is handled under a Redis lock for the key
that lives for `ttl`. The lock is given up after the handlers, so that the key excludes requests that
overlap and not requests that follow. The client may send a command again after an error, which Redis may
have carried out all the same. -/
namespace SynapseGo.Idempotent
open SynapseGo.Go SynapseGo.Concurrency SynapseGo.Redis SynapseGo.Lock.Locker

inductive CheckError where
  /-- `ErrDuplicateRequest`. -/
  | duplicateRequest
  | other (text : GoString)
  deriving DecidableEq, Repr

inductive Answer where
  | handled
  | refused (status code : ℕ) (message : GoString)
  deriving DecidableEq, Repr

def lockKey (key : GoString) : GoString := lit "idem:" ++ key

/-- `Check`; the release function that it returns is `unlock` with the same key and token. -/
def check (key : GoString) (ttl : Int64) (token : GoString) : Prog Op Reply (Except CheckError Unit) := do
  match ← tryLock (lockKey key) ttl token with
  | .error .lockNotAcquired => return .error .duplicateRequest
  | .error (.other text) => return .error (.other text)
  | .ok _ => return .ok ()

/-- `c.Next()`. -/
def next : Prog Op Reply Unit := do
  let _ ← Prog.perform Op.begin
  let _ ← Prog.perform Op.finish
  return ()

/-- `Middleware` on a request with the header `key`. -/
def middleware (key : GoString) (ttl : Int64) (token : GoString) : Prog Op Reply Answer := do
  if key = [] then
    next
    return .handled
  match ← check key ttl token with
  | .error .duplicateRequest => return .refused 409 1003 (lit "duplicate request")
  | .error (.other _) => return .refused 500 5001 (lit "idempotency check failed")
  | .ok _ =>
    next
    unlock (lockKey key) token
    return .handled

/-- Any number of requests with their headers and tokens, in instances of any durations and clients. -/
structure Requests (ι : Type) where
  key : ι → GoString
  ttl : ι → Int64
  ttl_pos : ∀ i, 0 < ttl i
  token : ι → GoString
  maxRetries : ι → ℕ
  retried : ι → GoString → Bool

namespace Requests
variable {ι : Type} (q : Requests ι)

def prog (i : ι) : Prog Op Reply Answer := middleware (q.key i) (q.ttl i) (q.token i)

/-- The request with what its client sends again. -/
def sent (i : ι) : Prog Op Reply Answer := (q.prog i).resending (again (q.retried i)) (q.maxRetries i)

/-- Where a schedule leads the requests on a Redis without lock keys. -/
def world [DecidableEq ι] (sched : List (ι × Env)) : Config ι Op Reply Env Leases Answer :=
  (Config.start q.sent fun _ => none).run handle sched

end Requests

/-- The next operation of a request with a key, after the operations `es`. -/
inductive RequestOp (key token : GoString) (ttl : ℤ) : List Act → Act → Prop
  | setNX (reply : Except GoString Bool) : RequestOp key token ttl [] ⟨.setNX (lockKey key) token ttl, reply⟩
  | begin : RequestOp key token ttl [⟨.setNX (lockKey key) token ttl, .ok true⟩] ⟨.begin, ()⟩
  | finish (err : Option Err) :
    RequestOp key token ttl [⟨.setNX (lockKey key) token ttl, .ok true⟩, ⟨.begin, ()⟩] ⟨.finish, err⟩
  | release (err : Option Err) (reply : Except GoString ℤ) :
    RequestOp key token ttl [⟨.setNX (lockKey key) token ttl, .ok true⟩, ⟨.begin, ()⟩, ⟨.finish, err⟩]
      ⟨.release (lockKey key) token, reply⟩

section Paths
variable {key token : GoString} {ttl : Int64} {es es' : List Act} {y : Act}

theorem check_split {p : Prog Op Reply (Except CheckError Unit)}
    (h : (check key ttl token).Path (es ++ y :: es') p) :
    es = [] ∧ ∃ reply, y = ⟨.setNX (lockKey key) token (formatMs ttl), reply⟩ := by
  unfold check at h
  rcases h.bind_split with ⟨es₁, p', hp⟩ | ⟨r, es₁, es₂, rfl, -, hrest⟩
  · exact tryLock_split hp
  · cases r with
    | error err => cases err <;> exact hrest.ret_split.elim
    | ok _ => exact hrest.ret_split.elim

theorem check_returns (h : (check key ttl token).Returns es (.ok ())) :
    es = [⟨.setNX (lockKey key) token (formatMs ttl), .ok true⟩] := by
  unfold check at h
  obtain ⟨r, es₁, es₂, rfl, hlock, hrest⟩ := Prog.returns_bind.mp h
  cases r with
  | error err => cases err <;> exact nomatch (Prog.returns_ret.mp hrest).2
  | ok _ =>
    rw [(Prog.returns_ret.mp hrest).1, List.append_nil]
    exact setNX_of_ok hlock

theorem RequestOp.of_path (hkey : key ≠ []) {p : Prog Op Reply Answer}
    (h : (middleware key ttl token).Path (es ++ y :: es') p) : RequestOp key token (formatMs ttl) es y := by
  unfold middleware at h
  rw [if_neg hkey] at h
  rcases h.bind_split with ⟨es₁, p', hp⟩ | ⟨r, es₁, es₂, rfl, hr, h₁⟩
  · obtain ⟨rfl, reply, rfl⟩ := check_split hp
    exact .setNX reply
  cases r with
  | error err => cases err <;> exact h₁.ret_split.elim
  | ok _ =>
    rw [check_returns hr]
    rcases h₁.op_split with ⟨rfl, _, rfl⟩ | ⟨_, es₃, rfl, h₂⟩
    · exact .begin
    rcases h₂.op_split with ⟨rfl, err, rfl⟩ | ⟨err, es₄, rfl, h₃⟩
    · exact .finish err
    obtain ⟨rfl, reply, rfl⟩ := h₃.single_split
    exact .release err reply

/-- A request without a key does not come near Redis. -/
theorem keyless_split {p : Prog Op Reply Answer}
    (h : (middleware [] ttl token).Path (es ++ y :: es') p) :
    y = ⟨.begin, ()⟩ ∨ ∃ err, y = ⟨.finish, err⟩ := by
  unfold middleware at h
  rw [if_pos rfl] at h
  rcases h.op_split with ⟨-, _, rfl⟩ | ⟨_, es₁, -, hrest⟩
  · exact .inl rfl
  obtain ⟨-, err, rfl⟩ := hrest.single_split
  exact .inr ⟨err, rfl⟩

theorem check_duplicate (h : (check key ttl token).Returns es (.error .duplicateRequest)) :
    es = [⟨.setNX (lockKey key) token (formatMs ttl), .ok false⟩] := by
  unfold check at h
  obtain ⟨r, es₁, es₂, rfl, hlock, hrest⟩ := Prog.returns_bind.mp h
  cases r with
  | error err =>
    cases err with
    | lockNotAcquired =>
      rw [(Prog.returns_ret.mp hrest).1, List.append_nil]
      exact setNX_of_notAcquired hlock
    | other text => exact nomatch (Prog.returns_ret.mp hrest).2
  | ok _ => exact nomatch (Prog.returns_ret.mp hrest).2

/-- A request is answered 409 after Redis has refused it the lock. -/
theorem refused_returns {message : GoString}
    (h : (middleware key ttl token).Returns es (.refused 409 1003 message)) :
    es = [⟨.setNX (lockKey key) token (formatMs ttl), .ok false⟩] := by
  unfold middleware at h
  split_ifs at h with hkey
  · obtain ⟨_, es₁, es₂, rfl, -, hrest⟩ := Prog.returns_bind.mp h
    exact nomatch (Prog.returns_ret.mp hrest).2
  obtain ⟨r, es₁, es₂, rfl, hcheck, hrest⟩ := Prog.returns_bind.mp h
  cases r with
  | error err =>
    cases err with
    | duplicateRequest =>
      rw [(Prog.returns_ret.mp hrest).1, List.append_nil]
      exact check_duplicate hcheck
    | other text => exact nomatch (Prog.returns_ret.mp hrest).2
  | ok _ =>
    obtain ⟨_, es₃, es₄, rfl, -, hlast⟩ := Prog.returns_bind.mp hrest
    obtain ⟨_, es₅, es₆, rfl, -, hanswer⟩ := Prog.returns_bind.mp hlast
    exact nomatch (Prog.returns_ret.mp hanswer).2

end Paths

section Runs
variable {ι : Type} [DecidableEq ι]

/-- In the part `a` of a run, request `i` got the lock, and request `j` got it after the time of `i`. -/
def OutlivedBy (q : Requests ι) (a : List (Event ι)) (i j : ι) : Prop :=
  ∃ a₁ x a₂ y a₃, a = a₁ ++ x :: (a₂ ++ y :: a₃) ∧ x.caller = i ∧ y.caller = j ∧
    granted x.act = true ∧ granted y.act = true ∧ x.env.now + formatMs (q.ttl i) ≤ y.env.now

/-- What the middleware guarantees in a run. -/
structure Guarded (q : Requests ι) (w : Config ι Op Reply Env Leases Answer) : Prop where
  /-- Handlers of one key overlap only if one of the requests has outlived its lock. -/
  overlap : ∀ a b i j, w.log = a ++ b → i ≠ j → q.key i = q.key j → q.key i ≠ [] →
    running (history i a) = true → running (history j a) = true →
    OutlivedBy q a i j ∨ OutlivedBy q a j i
  /-- A request is refused as a duplicate only within the time of a `SET NX` for its key that was not
  refused: of another request, or one of its own that failed for its client and was sent again. -/
  duplicate : ∀ i message, w.Returned i (.refused 409 1003 message) →
    ∃ a x m z b reply, w.log = a ++ x :: (m ++ z :: b) ∧
      z.caller = i ∧ z.act = ⟨.setNX (lockKey (q.key i)) (q.token i) (formatMs (q.ttl i)), .ok false⟩ ∧
      x.act = ⟨.setNX (lockKey (q.key i)) (q.token x.caller) (formatMs (q.ttl x.caller)), reply⟩ ∧
      reply ≠ .ok false ∧ q.key x.caller = q.key i ∧
      z.env.now < x.env.now + formatMs (q.ttl x.caller) ∧
      (x.caller = i → ∃ text, reply = .error text ∧ q.retried i text = true)
  /-- The end of a request leaves the locks of the others in place. -/
  others_kept : ∀ x ∈ w.log, ∀ key token reply, x.act = ⟨.release key token, reply⟩ → ∀ j ≠ x.caller,
    ∀ key' e, x.pre key' = some ⟨q.token j, e⟩ → x.post key' = some ⟨q.token j, e⟩

variable {q : Requests ι} {w : Config ι Op Reply Env Leases Answer} {a b : List (Event ι)} {x : Event ι}

/-- Only requests with a key come near Redis; what such a request sends follows what it has seen. -/
theorem requestOp_of_split (hw : w.Sound handle q.sent fun _ => none) (hl : w.log = a ++ x :: b) :
    (q.key x.caller ≠ [] ∧ ∃ seen, Prog.Seen (again (q.retried x.caller)) seen (history x.caller a) ∧
      RequestOp (q.key x.caller) (q.token x.caller) (formatMs (q.ttl x.caller)) seen x.act) ∨
      view.act x.act = .other := by
  obtain ⟨seen, p, hpath, hseen⟩ := Prog.Path.resending_split (hw.path_split hl)
  unfold Requests.prog at hpath
  by_cases hkey : q.key x.caller = []
  · rw [hkey] at hpath
    refine .inr ?_
    rcases keyless_split hpath with hact | ⟨err, hact⟩
    · rw [hact]
      rfl
    · rw [hact]
      rfl
  · exact .inl ⟨hkey, seen, hseen, .of_path hkey hpath⟩

/-- A release is in its request's own name and comes after its handlers. -/
theorem release_own (hw : w.Sound handle q.sent fun _ => none) (hl : w.log = a ++ x :: b)
    {key token : GoString} {reply : Except GoString ℤ} (hact : x.act = ⟨.release key token, reply⟩) :
    token = q.token x.caller ∧ ∃ err, ⟨.finish, err⟩ ∈ history x.caller a := by
  rcases requestOp_of_split hw hl with ⟨-, seen, hseen, hop⟩ | hother
  · rw [hact] at hop
    cases hop with
    | release err reply => exact ⟨rfl, err, hseen.sent _ (by simp)⟩
  · rw [hact] at hother
    cases hother

/-- A `SET NX` is for its request's own key and in its own name; what its request has sent before has failed
for the client. -/
theorem setNX_own (hw : w.Sound handle q.sent fun _ => none) (hl : w.log = a ++ x :: b)
    {key token : GoString} {ttl : ℤ} {reply : Except GoString Bool}
    (hact : x.act = ⟨.setNX key token ttl, reply⟩) :
    (key = lockKey (q.key x.caller) ∧ token = q.token x.caller ∧ ttl = formatMs (q.ttl x.caller)) ∧
      ∀ y ∈ history x.caller a, again (q.retried x.caller) y.1 y.2 = true := by
  rcases requestOp_of_split hw hl with ⟨-, seen, hseen, hop⟩ | hother
  · rw [hact] at hop
    cases hop with
    | setNX reply =>
      refine ⟨⟨rfl, rfl, rfl⟩, ?_⟩
      intro y hy
      exact (hseen.unseen y hy).resolve_left List.not_mem_nil
  · rw [hact] at hother
    cases hother

/-- A request that is being handled was granted the lock. -/
theorem grant_of_running (hw : w.Sound handle q.sent fun _ => none) (hl : w.log = a ++ b) {i : ι}
    (hkey : q.key i ≠ []) (hrun : running (history i a) = true) : ∃ x ∈ a, x.caller = i ∧
      x.act = ⟨.setNX (lockKey (q.key i)) (q.token i) (formatMs (q.ttl i)), .ok true⟩ := by
  obtain ⟨hbegin, -⟩ := Bool.and_eq_true_iff.mp hrun
  obtain ⟨y, hy, hact⟩ := List.any_eq_true.mp hbegin
  obtain ⟨z, hz, rfl, rfl⟩ := mem_history.mp hy
  obtain ⟨a₁, a₂, rfl⟩ := List.append_of_mem hz
  have hsplit : w.log = a₁ ++ z :: (a₂ ++ b) := by
    rw [hl, List.append_assoc, List.cons_append]
  obtain ⟨seen, p, hpath, hseen⟩ := Prog.Path.resending_split (hw.path_split hsplit)
  have hop := RequestOp.of_path hkey hpath
  generalize z.act = y at hact hop
  cases hop with
  | setNX reply => cases hact
  | begin =>
    obtain ⟨x, hx, hcaller, hgrant⟩ := mem_history.mp (hseen.sent _ (List.mem_singleton_self _))
    exact ⟨x, List.mem_append_left _ hx, hcaller, hgrant⟩
  | finish err => cases hact
  | release err reply => cases hact

/-- A request that is being handled has not released the lock. -/
theorem not_released_of_running (hw : w.Sound handle q.sent fun _ => none) (hl : w.log = a ++ b)
    (hrun : running (history x.caller a) = true) (hx : x ∈ a) {key token : GoString}
    {reply : Except GoString ℤ} : x.act ≠ ⟨.release key token, reply⟩ := by
  intro hact
  obtain ⟨a₁, a₂, rfl⟩ := List.append_of_mem hx
  have hsplit : w.log = a₁ ++ x :: (a₂ ++ b) := by
    rw [hl, List.append_assoc, List.cons_append]
  obtain ⟨-, err, hfinish⟩ := release_own hw hsplit hact
  have hdone : (history x.caller (a₁ ++ x :: a₂)).any isFinish = true := by
    refine List.any_eq_true.mpr ⟨⟨.finish, err⟩, ?_, rfl⟩
    rw [history_append]
    exact List.mem_append_left _ hfinish
  unfold running at hrun
  rw [hdone] at hrun
  simp at hrun

/-- The lock of a request that is being handled stays in place for its time. -/
theorem held_of_running (hw : w.Sound handle q.sent fun _ => none) (htoken : Function.Injective q.token)
    (hclock : w.log.Pairwise fun x y => x.env.now ≤ y.env.now) (hl : w.log = a ++ b)
    {a₁ m a₃ : List (Event ι)} {x y : Event ι} (ha : a = a₁ ++ x :: (m ++ y :: a₃))
    (hrun : running (history x.caller a) = true)
    (hx : x.act = ⟨.setNX (lockKey (q.key x.caller)) (q.token x.caller) (formatMs (q.ttl x.caller)),
      .ok true⟩)
    (htime : y.env.now < x.env.now + formatMs (q.ttl x.caller)) :
    y.pre (lockKey (q.key x.caller)) =
      some ⟨q.token x.caller, x.env.now + formatMs (q.ttl x.caller)⟩ := by
  have hexec := hw.exec
  rw [hl, ha, List.append_assoc, List.cons_append] at hexec
  obtain ⟨-, hvalid, hrest⟩ := hexec.split
  rw [List.append_assoc, List.cons_append] at hrest
  obtain ⟨hm, -, -⟩ := hrest.split
  have hview : view.act x.act = .setNX (lockKey (q.key x.caller)) (q.token x.caller)
      (formatMs (q.ttl x.caller)) (some true) := by
    rw [hx]
    rfl
  have hsplit : ∀ m₁ z m₂, m = m₁ ++ z :: m₂ →
      w.log = (a₁ ++ x :: m₁) ++ z :: (m₂ ++ y :: (a₃ ++ b)) := by
    intro m₁ z m₂ hm'
    rw [hl, ha, hm']
    simp
  apply view.held hm (view.granted hvalid hview).1
  · intro z hz
    obtain ⟨m₁, m₂, hm'⟩ := List.append_of_mem hz
    have hle : z.env.now ≤ y.env.now := by
      rw [hsplit m₁ z m₂ hm'] at hclock
      have hafter := (List.pairwise_cons.mp (List.pairwise_append.mp hclock).2.1).1
      exact hafter y (List.mem_append_right m₂ List.mem_cons_self)
    exact lt_of_le_of_lt hle htime
  · intro z hz r hdelete
    obtain ⟨m₁, m₂, hm'⟩ := List.append_of_mem hz
    obtain ⟨reply, hact⟩ := view_delete hdelete
    have hmine := (release_own hw (hsplit m₁ z m₂ hm') hact).1
    have hcaller : z.caller = x.caller := htoken hmine.symm
    -- The request that is still being handled would have released its lock.
    have hza : z ∈ a := by
      rw [ha]
      simp [hz]
    rw [← hcaller] at hrun
    exact not_released_of_running hw hl hrun hza hact

/-- Of two requests that are being handled, the one that got the lock later found the time of the other
over. -/
theorem outlived_of_order (hw : w.Sound handle q.sent fun _ => none) (htoken : Function.Injective q.token)
    (hclock : w.log.Pairwise fun x y => x.env.now ≤ y.env.now) (hl : w.log = a ++ b)
    {a₁ m a₃ : List (Event ι)} {x y : Event ι} (ha : a = a₁ ++ x :: (m ++ y :: a₃))
    (hkey : q.key x.caller = q.key y.caller) (hrun : running (history x.caller a) = true)
    (hx : x.act = ⟨.setNX (lockKey (q.key x.caller)) (q.token x.caller) (formatMs (q.ttl x.caller)),
      .ok true⟩)
    (hy : y.act = ⟨.setNX (lockKey (q.key y.caller)) (q.token y.caller) (formatMs (q.ttl y.caller)),
      .ok true⟩) :
    OutlivedBy q a x.caller y.caller := by
  refine ⟨a₁, x, m, y, a₃, ha, rfl, rfl, ?_, ?_, ?_⟩
  · rw [hx]
    rfl
  · rw [hy]
    rfl
  by_contra hlate
  have hvalid : y.Valid handle := by
    apply hw.exec.valid
    rw [hl, ha]
    simp
  have hview : view.act y.act = .setNX (lockKey (q.key x.caller)) (q.token y.caller)
      (formatMs (q.ttl y.caller)) (some true) := by
    rw [hy, hkey]
    rfl
  have hheld := held_of_running hw htoken hclock hl ha hrun hx (not_le.mp hlate)
  exact hlate ((view.granted hvalid hview).2 _ hheld)

theorem refused_within (hw : w.Sound handle q.sent fun _ => none) {i : ι} {message : GoString}
    (hret : w.Returned i (.refused 409 1003 message)) :
    ∃ a x m z b reply, w.log = a ++ x :: (m ++ z :: b) ∧
      z.caller = i ∧ z.act = ⟨.setNX (lockKey (q.key i)) (q.token i) (formatMs (q.ttl i)), .ok false⟩ ∧
      x.act = ⟨.setNX (lockKey (q.key i)) (q.token x.caller) (formatMs (q.ttl x.caller)), reply⟩ ∧
      reply ≠ .ok false ∧ q.key x.caller = q.key i ∧
      z.env.now < x.env.now + formatMs (q.ttl x.caller) ∧
      (x.caller = i → ∃ text, reply = .error text ∧ q.retried i text = true) := by
  obtain ⟨seen, hreturns, hseen⟩ := Prog.Returns.of_resending (hw.returns hret)
  rw [refused_returns hreturns] at hseen
  obtain ⟨z, hz, rfl, hact⟩ := mem_history.mp (hseen.sent _ (List.mem_singleton_self _))
  obtain ⟨a, b, hl⟩ := List.append_of_mem hz
  have hexec := hw.exec
  rw [hl] at hexec
  obtain ⟨ha, hvalid, -⟩ := hexec.split
  have hstep := view.step z hvalid
  have hview : view.act z.act = .setNX (lockKey (q.key z.caller)) (q.token z.caller)
      (formatMs (q.ttl z.caller)) (some false) := by
    rw [hact]
    rfl
  rw [hview] at hstep
  cases hstep with
  | refused hgranted hheld ht =>
    obtain ⟨lease, hlease, htime⟩ := hheld rfl
    obtain ⟨x, hx, ttl, granted, hset, hnot, he⟩ := view.exists_set ha nofun hlease
    obtain ⟨reply, hactx, rfl⟩ := view_setNX hset
    obtain ⟨a₁, a₂, rfl⟩ := List.append_of_mem hx
    have hlx : w.log = a₁ ++ x :: (a₂ ++ z :: b) := by
      rw [hl, List.append_assoc, List.cons_append]
    obtain ⟨⟨hkey, htoken, rfl⟩, -⟩ := setNX_own hw hlx hactx
    rw [htoken] at hactx
    refine ⟨a₁, x, a₂, z, b, reply, hlx, rfl, hact, hactx, ?_, (List.append_cancel_left hkey).symm, ?_, ?_⟩
    · intro hfalse
      rw [hfalse] at hnot
      exact hnot rfl
    · rw [he] at htime
      exact htime
    · intro hsame
      have hagain := (setNX_own hw hl hact).2 x.act (mem_history.mpr ⟨x, hx, hsame, rfl⟩)
      rw [hactx] at hagain
      cases reply with
      | error text => exact ⟨text, rfl, hagain⟩
      | ok granted => cases hagain
  | set hgranted => exact absurd rfl hgranted

/-- In every run of requests with distinct tokens: two requests with one key are handled at once only if
one has outlived its lock, and a request is refused only within the time of a lock for its key. -/
theorem middleware_guarded (q : Requests ι) (htoken : Function.Injective q.token) (sched : List (ι × Env))
    (hclock : (q.world sched).log.Pairwise fun x y => x.env.now ≤ y.env.now) : Guarded q (q.world sched) := by
  have hw : (q.world sched).Sound handle q.sent fun _ => none := Config.run_sound _ _ _ _
  constructor
  case overlap =>
    intro a b i j hl hij hkey hne hi hj
    obtain ⟨x, hx, rfl, hactx⟩ := grant_of_running hw hl hne hi
    obtain ⟨y, hy, rfl, hacty⟩ := grant_of_running hw hl (hkey ▸ hne) hj
    rcases exists_split_of_mem hx hy with rfl | ⟨a₁, m, a₃, ha⟩ | ⟨a₁, m, a₃, ha⟩
    · exact absurd rfl hij
    · exact .inl (outlived_of_order hw htoken hclock hl ha hkey hi hactx hacty)
    · exact .inr (outlived_of_order hw htoken hclock hl ha hkey.symm hj hacty hactx)
  case duplicate =>
    intro i message hret
    exact refused_within hw hret
  case others_kept =>
    intro x hx key token reply hact j hj key' e hpre
    obtain ⟨a, b, hl⟩ := List.append_of_mem hx
    have hmine := (release_own hw hl hact).1
    have hstep := view.step x (hw.exec.valid hx)
    have hview : view.act x.act = .delete key token (reply.toOption.map fun n => n = 1) := by
      rw [hact]
      rfl
    rw [hview] at hstep
    cases hstep with
    | kept hdeleted hlost ht => rw [ht, hpre]
    | deleted hdeleted hstored ht =>
      have hne : key' ≠ key := by
        intro hkey
        rw [hkey, hstored] at hpre
        have hsame : token = q.token j := congrArg Lease.token (Option.some.inj hpre)
        exact hj (htoken (hsame.symm.trans hmine))
      rw [ht, Function.update_of_ne hne, hpre]

end Runs

/-- Two requests with one key; the lock lives for a second, and the clients send a command again after every
error, three times at most. -/
def twoRequests : Requests Bool where
  key _ := lit "order-1"
  ttl _ := 1000000000
  ttl_pos _ := by decide
  token
    | false => [97]
    | true => [98]
  maxRetries _ := 3
  retried _ _ := true

theorem twoRequests_token : Function.Injective twoRequests.token := by
  intro i j h
  cases i <;> cases j
  · rfl
  · cases h
  · cases h
  · rfl

/-- The second request comes while the first is being handled, and is refused; its first `SET NX` fails. -/
theorem twoRequests_guarded : Guarded twoRequests (twoRequests.world
    [(false, ⟨0, none, none⟩), (false, ⟨1, none, none⟩), (true, ⟨400, some ⟨lit "EOF", false⟩, none⟩),
      (true, ⟨410, none, none⟩)]) :=
  middleware_guarded twoRequests twoRequests_token _ (by decide +kernel)

end SynapseGo.Idempotent
