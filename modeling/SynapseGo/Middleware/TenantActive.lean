import SynapseGo.Auth.Tokens
import SynapseGo.Cache.Runs

/-! `RequireTenantActive` of `middleware/platform.go` with a `cache.LRU` as its `StatusCache`: requests and
changes of status, one after another. -/
namespace SynapseGo.Middleware.TenantActive
open SynapseGo.Go SynapseGo.Concurrency SynapseGo.Cache

/-- What the gin context can hold under a key, as far as the middleware tells it apart. -/
inductive Value where
  | nil
  /-- A `*auth.TenantClaims`, which may be a nil pointer. -/
  | tenantClaims (claims : Option Auth.TenantClaims)
  | other
  deriving DecidableEq, Repr

structure Context where
  platformClaims : Option Value
  tenantClaims : Option Value
  deriving DecidableEq, Repr

inductive LookupErr where
  | tenantGone
  | other
  deriving DecidableEq, Repr

inductive Verdict where
  | aborted (status : ℕ) (error : GoString)
  | next
  deriving DecidableEq, Repr

abbrev StatusCache := LRU UInt64 Int8

/-- The clock as the cache reads it, in `Get` and then in `Set`. -/
structure Clock where
  start : ℤ
  finish : ℤ
  deriving DecidableEq, Repr

def lookupStatus (clock : Clock) (lookup : UInt64 → Except LookupErr Int8) (cache : Option StatusCache)
    (tenantID : UInt64) : Except LookupErr Int8 × Option StatusCache :=
  match cache with
  | none => (lookup tenantID, none)
  | some c =>
    match c.get clock.start tenantID with
    | (some v, c') => (.ok v, some c')
    | (none, c') =>
      match lookup tenantID with
      | .error err => (.error err, some c')
      | .ok status => (.ok status, some (c'.set clock.finish tenantID status))

def Context.hasPlatformClaims (ctx : Context) : Bool :=
  match ctx.platformClaims with
  | none => false
  | some v => v ≠ .nil

/-- The claims of a tenant token with an id. -/
def Context.tenant (ctx : Context) : Option Auth.TenantClaims :=
  match ctx.tenantClaims with
  | some (.tenantClaims (some claims)) => if claims.tenantID = 0 then none else some claims
  | _ => none

def requireTenantActive (clock : Clock) (lookup : Option (UInt64 → Except LookupErr Int8))
    (cache : Option StatusCache) (ctx : Context) : Verdict × Option StatusCache :=
  if ctx.hasPlatformClaims then (.next, cache)
  else match ctx.tenant with
    | none => (.aborted 401 (lit "tenant token required"), cache)
    | some claims =>
      match lookup with
      | none => (.aborted 500 (lit "tenant status check unavailable"), cache)
      | some lookup =>
        match lookupStatus clock lookup cache claims.tenantID with
        | (.error .tenantGone, cache) => (.aborted 403 (lit "tenant_gone"), cache)
        | (.error .other, cache) => (.aborted 500 (lit "tenant status check failed"), cache)
        | (.ok status, cache) =>
          if status ≠ 0 then (.aborted 403 (lit "tenant_suspended"), cache) else (.next, cache)

structure State where
  cache : StatusCache
  status : UInt64 → Int8

inductive Event where
  | request (ctx : Context)
  | change (tenantID : UInt64) (status : Int8)
  deriving DecidableEq, Repr

abbrev Event.Reply : Event → Type
  | .request _ => Verdict
  | .change _ _ => Unit

structure Env where
  clock : Clock
  /-- An error of the lookup, if it is asked. -/
  failure : Option LookupErr
  deriving DecidableEq, Repr

/-- The lookup returns the current status or an error. -/
def Env.lookup (env : Env) (s : State) (tenantID : UInt64) : Except LookupErr Int8 :=
  match env.failure with
  | some err => .error err
  | none => .ok (s.status tenantID)

def step : Handler Event Event.Reply Env State
  | env, .request ctx, s =>
    let r := requireTenantActive env.clock (some (env.lookup s)) (some s.cache) ctx
    (r.1, { s with cache := r.2.getD s.cache })
  | _, .change tenantID status, s => ((), { s with status := Function.update s.status tenantID status })

abbrev Log := List (Entry Unit Event Event.Reply Env State)

section
variable {C d : ℤ} {clock : Clock} {lookup : UInt64 → Except LookupErr Int8} {c : StatusCache}
  {l : List (Cache.Entry UInt64 Int8)} {k : UInt64}

/-- A status is the current one, or one that was cached and has not expired. -/
theorem lookupStatus_ok (hc : c.Lists C d l) {status : Int8}
    (h : (lookupStatus clock lookup (some c) k).1 = .ok status) :
    lookup k = .ok status ∨
      ∃ en ∈ l, en.key = k ∧ en.value = status ∧ ¬(en.expiresAt ≠ 0 ∧ en.expiresAt < clock.start) := by
  have hget := (hc.get clock.start k).1
  unfold lookupStatus at h
  dsimp only at h
  split at h
  next v c' heq =>
    rw [heq] at hget
    obtain ⟨en, hen, hkey, hvalue, hexp, -⟩ := Listing.get_eq_some hget.symm
    exact .inr ⟨en, hen, hkey, hvalue.trans (Except.ok.inj h), hexp⟩
  next c' heq =>
    split at h
    · cases h
    next status' hlookup => exact .inl (hlookup.trans h)

/-- The cache gains at most the status that was looked up. -/
theorem lookupStatus_cache (hc : c.Lists C d l) :
    ∃ c' l', (lookupStatus clock lookup (some c) k).2 = some c' ∧ c'.Lists C d l' ∧
      ∀ en ∈ l', en ∈ l ∨ lookup en.key = .ok en.value ∧ en.expiresAt = LRU.expiresAt d clock.finish := by
  have hget := (hc.get clock.start k).2
  unfold lookupStatus
  dsimp only
  split
  next v c' heq =>
    rw [heq] at hget
    exact ⟨c', _, rfl, hget, fun en hen => .inl (Listing.mem_get hen)⟩
  next c' heq =>
    rw [heq] at hget
    split
    next err hlookup => exact ⟨c', _, rfl, hget, fun en hen => .inl (Listing.mem_get hen)⟩
    next status hlookup =>
      refine ⟨_, _, rfl, hget.set clock.finish k status, fun en hen => ?_⟩
      rcases Listing.mem_set hen with rfl | ⟨hen, -⟩
      · exact .inr ⟨hlookup, rfl⟩
      · exact .inl (Listing.mem_get hen)

variable {ctx : Context}

theorem requireTenantActive_next (hplatform : ctx.hasPlatformClaims = false)
    (h : (requireTenantActive clock (some lookup) (some c) ctx).1 = .next) :
    ∃ claims, ctx.tenant = some claims ∧ (lookupStatus clock lookup (some c) claims.tenantID).1 = .ok 0 := by
  rw [requireTenantActive, if_neg (by simp [hplatform])] at h
  cases htenant : ctx.tenant with
  | none => simp [htenant] at h
  | some claims =>
    refine ⟨claims, rfl, ?_⟩
    simp only [htenant] at h
    split at h
    · cases h
    · cases h
    next status cache heq =>
      by_cases hstatus : status = 0
      · rw [heq, hstatus]
      · simp [hstatus] at h

theorem requireTenantActive_cache (hc : c.Lists C d l) :
    ∃ c' l', (requireTenantActive clock (some lookup) (some c) ctx).2 = some c' ∧ c'.Lists C d l' ∧
      ∀ en ∈ l', en ∈ l ∨ lookup en.key = .ok en.value ∧ en.expiresAt = LRU.expiresAt d clock.finish := by
  unfold requireTenantActive
  split
  · exact ⟨c, l, rfl, hc, fun en hen => .inl hen⟩
  split
  · exact ⟨c, l, rfl, hc, fun en hen => .inl hen⟩
  next claims htenant =>
    obtain ⟨c', l', heq, hlists, hmem⟩ := lookupStatus_cache (k := claims.tenantID) hc
    refine ⟨c', l', ?_, hlists, hmem⟩
    rw [← heq]
    dsimp only
    split
    next cache hcache => rw [hcache]
    next cache hcache => rw [hcache]
    next status cache hcache =>
      rw [hcache]
      split <;> rfl

end

/-- Each cached status was the tenant's when it was put there, for a lifetime from then on. -/
def Cached (C d : ℤ) (log : Log) (s : State) : Prop :=
  ∃ l, s.cache.Lists C d l ∧ ∀ en ∈ l, ∃ y ∈ log, y.post.status en.key = en.value ∧
    en.expiresAt = LRU.expiresAt d y.env.clock.finish

theorem Cached.mono {C d : ℤ} {log log' : Log} {s t : State} (h : Cached C d log s)
    (hlog : ∀ y ∈ log, y ∈ log') (hcache : t.cache = s.cache) : Cached C d log' t := by
  obtain ⟨l, hlists, horigin⟩ := h
  refine ⟨l, hcache ▸ hlists, fun en hen => ?_⟩
  obtain ⟨y, hy, hstatus⟩ := horigin en hen
  exact ⟨y, hlog y hy, hstatus⟩

theorem Cached.step {C d : ℤ} {log : Log} {x : Entry Unit Event Event.Reply Env State} (hx : x.Valid step)
    (h : Cached C d log x.pre) : Cached C d (log ++ [x]) x.post := by
  obtain ⟨⟨⟩, env, ⟨event, reply⟩, pre, post⟩ := x
  have hpost : (TenantActive.step env event pre).2 = post := congrArg Prod.snd hx
  subst hpost
  cases event with
  | change tenantID status => exact h.mono (fun y hy => List.mem_append_left _ hy) rfl
  | request ctx =>
    obtain ⟨l, hlists, horigin⟩ := h
    have hcache : ∃ c' l', (requireTenantActive env.clock (some (env.lookup pre)) (some pre.cache) ctx).2 =
        some c' ∧ _ := requireTenantActive_cache hlists
    obtain ⟨c', l', heq, hlists', hmem⟩ := hcache
    refine ⟨l', ?_, fun en hen => ?_⟩
    · simp only [TenantActive.step, heq, Option.getD_some]
      exact hlists'
    · rcases hmem en hen with hen | ⟨hlookup, hexp⟩
      · obtain ⟨y, hy, hstatus⟩ := horigin en hen
        exact ⟨y, List.mem_append_left _ hy, hstatus⟩
      · -- the request itself looked the status up, and requests change none
        refine ⟨_, List.mem_append_right _ List.mem_cons_self, ?_, hexp⟩
        unfold Env.lookup at hlookup
        split at hlookup
        · cases hlookup
        · exact Except.ok.inj hlookup

/-- A tenant that is not active at `T`, nor in any state from then on up to the request, is refused from one
lifetime after `T`, whatever the cache still holds. -/
theorem suspension_bounded {C d : ℤ} (hd : 0 < d) (status : UInt64 → Int8) {calls : List (Env × Event)}
    (hclock : ∀ m ∈ calls, 0 < m.1.clock.finish) {a b : Log} {x : Entry Unit Event Event.Reply Env State}
    (hlog : serial step ⟨LRU.new C d, status⟩ calls = a ++ x :: b) {ctx : Context} {verdict : Verdict}
    (hact : x.act = ⟨.request ctx, verdict⟩) (hplatform : ctx.hasPlatformClaims = false)
    {claims : Auth.TenantClaims} (htenant : ctx.tenantClaims = some (.tenantClaims (some claims))) {T : ℤ}
    (hsince : ∀ y ∈ a, T ≤ y.env.clock.finish → y.post.status claims.tenantID ≠ 0)
    (hnow : x.pre.status claims.tenantID ≠ 0) (hlate : T + d < x.env.clock.start) : verdict ≠ .next := by
  have hrun := exec_serial step ⟨LRU.new C d, status⟩ calls
  rw [hlog] at hrun
  obtain ⟨hbefore, hx, -⟩ := hrun.split
  obtain ⟨l, hlists, horigin⟩ : Cached C d a x.pre := hbefore.history_invariant
    ⟨[], LRU.lists_new C d, nofun⟩ fun a y b _ hy h => h.step hy
  have hpositive : ∀ y ∈ a, 0 < y.env.clock.finish := by
    intro y hy
    have hall := forall_serial (h := step) (s := ⟨LRU.new C d, status⟩) hclock
    rw [hlog] at hall
    exact hall y (List.mem_append_left _ hy)
  rintro rfl
  obtain ⟨⟨⟩, env, act, pre, post⟩ := x
  subst hact
  have hverdict : (requireTenantActive env.clock (some (env.lookup pre)) (some pre.cache) ctx).1 = .next :=
    congrArg Prod.fst hx
  obtain ⟨claims', hclaims, hok⟩ := requireTenantActive_next hplatform hverdict
  have hsame : claims' = claims := by
    unfold Context.tenant at hclaims
    rw [htenant] at hclaims
    simp only at hclaims
    split at hclaims
    · cases hclaims
    · exact (Option.some.inj hclaims).symm
  subst hsame
  rcases lookupStatus_ok hlists hok with hlookup | ⟨en, hen, hkey, hzero, hlive⟩
  · -- looked up now
    unfold Env.lookup at hlookup
    split at hlookup
    · cases hlookup
    · exact hnow (Except.ok.inj hlookup)
  · -- cached by a request before, which saw the status of its own time
    obtain ⟨y, hy, hstatus, hexp⟩ := horigin en hen
    have hput := hpositive y hy
    rw [hexp, LRU.expiresAt, if_pos hd] at hlive
    dsimp only at hlive hlate
    refine hsince y hy (by omega) ?_
    rw [← hkey, hstatus, hzero]

def sampleClaims : Auth.TenantClaims :=
  ⟨3, lit "acme", 7, lit "user", none, 1, lit "tenant", none, ⟨[], [], none, none⟩⟩

def sampleContext : Context := ⟨none, some (.tenantClaims (some sampleClaims))⟩

/-- The tenant is suspended at 6, after a request at 5 has cached its status for 10. -/
def sampleCalls : List (Env × Event) :=
  [(⟨⟨5, 5⟩, none⟩, .request sampleContext), (⟨⟨6, 6⟩, none⟩, .change 3 1),
    (⟨⟨7, 8⟩, none⟩, .request sampleContext), (⟨⟨17, 17⟩, none⟩, .request sampleContext)]

theorem sampleCalls_refused : ∃ x ∈ serial step ⟨LRU.new 1 10, fun _ => 0⟩ sampleCalls,
    x.env.clock.start = 17 ∧ ∃ verdict, x.act = ⟨.request sampleContext, verdict⟩ ∧ verdict ≠ .next := by
  have hlog : serial step ⟨LRU.new 1 10, fun _ => 0⟩ sampleCalls = [_, _, _] ++ _ :: [] := rfl
  rw [hlog]
  refine ⟨_, List.mem_append_right _ List.mem_cons_self, rfl, _, rfl, ?_⟩
  refine suspension_bounded (T := 6) (by decide) _ (by decide) hlog rfl rfl rfl ?_ (by decide) (by decide)
  simp only [List.forall_mem_cons]
  decide +kernel

end SynapseGo.Middleware.TenantActive
