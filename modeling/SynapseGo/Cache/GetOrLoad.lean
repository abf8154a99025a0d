import SynapseGo.Concurrency.Interleaving
import SynapseGo.Redis.Values

/-! `cache.GetOrLoad` over `RedisCache`, with the source that its loaders read. Calls of any number of
processes interleave; between the load of a value and its `Set` anything can happen. -/
namespace SynapseGo.Cache.GetOrLoad
open SynapseGo.Go SynapseGo.Concurrency SynapseGo.Redis

def prefixedKey (keyPrefix key : GoString) : GoString := keyPrefix ++ lit ":" ++ key

inductive Op where
  | get (key : GoString)
  | set (key value : GoString) (ttl : Int64)
  | del (key : GoString)
  /-- The loader reads the source. -/
  | load (keyPrefix key : GoString)
  /-- The source gets a new value, by whoever owns it. -/
  | update (keyPrefix key value : GoString)

/-- The reply `none` to a `get` is `redis.Nil`. -/
abbrev Reply : Op → Type
  | .get _ => Except GoString (Option GoString)
  | .set _ _ _ => Except GoString Unit
  | .del _ => Except GoString Unit
  | .load _ _ => Except GoString GoString
  | .update _ _ _ => Unit

structure Env where
  now : ℤ
  fault : Option Fault

structure State where
  redis : Values
  source : GoString → GoString → GoString

def handle : Handler Op Reply Env State
  | env, .get key, s => answer env.fault s (s.redis.get env.now key, s)
  | env, .set key value ttl, s =>
    answer env.fault s ((), { s with redis := s.redis.set env.now key value ttl })
  | env, .del key, s => answer env.fault s ((), { s with redis := s.redis.del key })
  | env, .load keyPrefix key, s => answer env.fault s (s.source keyPrefix key, s)
  | _, .update keyPrefix key value, s => ((), { s with
      source := Function.update s.source keyPrefix (Function.update (s.source keyPrefix) key value) })

/-- What `GetOrLoad` does on a miss; the failure of `Set` is not reported. -/
def loadAndSet (keyPrefix key : GoString) (ttl : Int64) : Prog Op Reply (Except GoString GoString) := do
  let loaded : Except GoString GoString ← Prog.perform (Op.load keyPrefix key)
  match loaded with
  | .error err => return .error err
  | .ok result =>
    let _ ← Prog.perform (Op.set (prefixedKey keyPrefix key) result ttl)
    return .ok result

/-- `GetOrLoad` on the cache with this prefix. Any error of `Get` is a miss; the error is that of the
loader. -/
def getOrLoad (keyPrefix key : GoString) (ttl : Int64) : Prog Op Reply (Except GoString GoString) := do
  let found : Except GoString (Option GoString) ← Prog.perform (Op.get (prefixedKey keyPrefix key))
  match found with
  | .ok (some val) => return .ok val
  | .ok none => loadAndSet keyPrefix key ttl
  | .error _ => loadAndSet keyPrefix key ttl

inductive Call where
  | getOrLoad (keyPrefix key : GoString) (ttl : Int64)
  /-- `RedisCache.Set` and `RedisCache.Del` by a user of the cache. -/
  | set (keyPrefix key value : GoString) (ttl : Int64)
  | del (keyPrefix key : GoString)
  | update (keyPrefix key value : GoString)
  deriving DecidableEq, Repr

def Call.keyPrefix : Call → GoString
  | .getOrLoad keyPrefix _ _ => keyPrefix
  | .set keyPrefix _ _ _ => keyPrefix
  | .del keyPrefix _ => keyPrefix
  | .update keyPrefix _ _ => keyPrefix

inductive Result where
  | value (v : Except GoString GoString)
  | done (err : Option GoString)
  deriving DecidableEq, Repr

def err : Except GoString Unit → Option GoString
  | .error text => some text
  | .ok _ => none

def Call.prog : Call → Prog Op Reply Result
  | .getOrLoad keyPrefix key ttl => do return .value (← GetOrLoad.getOrLoad keyPrefix key ttl)
  | .set keyPrefix key value ttl => do
      return .done (err (← Prog.perform (Op.set (prefixedKey keyPrefix key) value ttl)))
  | .del keyPrefix key => do return .done (err (← Prog.perform (Op.del (prefixedKey keyPrefix key))))
  | .update keyPrefix key value => do
    let _ ← Prog.perform (Op.update keyPrefix key value)
    return .done none

/-- Where a schedule leads the calls on an empty Redis. -/
def world {ι : Type} [DecidableEq ι] (calls : ι → Call) (source : GoString → GoString → GoString)
    (sched : List (ι × Env)) : Config ι Op Reply Env State Result :=
  (Config.start (fun i => (calls i).prog) ⟨fun _ => none, source⟩).run handle sched

abbrev Act := Σ op : Op, Reply op

abbrev Event (ι : Type) := Concurrency.Entry ι Op Reply Env State

/-- Each operation of a call, with those before it. -/
inductive CallOp : Call → List Act → Act → Prop
  | get (keyPrefix key : GoString) (ttl : Int64) (reply : Except GoString (Option GoString)) :
    CallOp (.getOrLoad keyPrefix key ttl) [] ⟨.get (prefixedKey keyPrefix key), reply⟩
  | load {keyPrefix key : GoString} {ttl : Int64} (found : Except GoString (Option GoString))
    (reply : Except GoString GoString) :
    CallOp (.getOrLoad keyPrefix key ttl) [⟨.get (prefixedKey keyPrefix key), found⟩]
      ⟨.load keyPrefix key, reply⟩
  | fill {keyPrefix key value : GoString} {ttl : Int64} (found : Except GoString (Option GoString))
    (reply : Except GoString Unit) :
    CallOp (.getOrLoad keyPrefix key ttl)
      [⟨.get (prefixedKey keyPrefix key), found⟩, ⟨.load keyPrefix key, .ok value⟩]
      ⟨.set (prefixedKey keyPrefix key) value ttl, reply⟩
  | set (keyPrefix key value : GoString) (ttl : Int64) (reply : Except GoString Unit) :
    CallOp (.set keyPrefix key value ttl) [] ⟨.set (prefixedKey keyPrefix key) value ttl, reply⟩
  | del (keyPrefix key : GoString) (reply : Except GoString Unit) :
    CallOp (.del keyPrefix key) [] ⟨.del (prefixedKey keyPrefix key), reply⟩
  | update (keyPrefix key value : GoString) :
    CallOp (.update keyPrefix key value) [] ⟨.update keyPrefix key value, ()⟩

section Paths
variable {es es' : List Act} {y : Act} {keyPrefix key : GoString} {ttl : Int64}
  {q : Prog Op Reply (Except GoString GoString)}

theorem loadAndSet_split (h : (loadAndSet keyPrefix key ttl).Path (es ++ y :: es') q)
    (found : Except GoString (Option GoString)) :
    CallOp (.getOrLoad keyPrefix key ttl) (⟨.get (prefixedKey keyPrefix key), found⟩ :: es) y := by
  rcases h.op_split with ⟨rfl, loaded, rfl⟩ | ⟨loaded, es₁, rfl, h₁⟩
  · exact .load found loaded
  cases loaded with
  | error err => exact h₁.ret_split.elim
  | ok result =>
    obtain ⟨rfl, reply, rfl⟩ := h₁.single_split
    exact .fill found reply

theorem getOrLoad_split (h : (getOrLoad keyPrefix key ttl).Path (es ++ y :: es') q) :
    CallOp (.getOrLoad keyPrefix key ttl) es y := by
  rcases h.op_split with ⟨rfl, found, rfl⟩ | ⟨found, es₁, rfl, h₁⟩
  · exact .get keyPrefix key ttl found
  cases found with
  | error text => exact loadAndSet_split h₁ _
  | ok found =>
    cases found with
    | none => exact loadAndSet_split h₁ _
    | some val => exact h₁.ret_split.elim

/-- A call returns what it found, or what it loaded. -/
theorem getOrLoad_returns {v : GoString} (h : (getOrLoad keyPrefix key ttl).Returns es (.ok v)) :
    es = [⟨.get (prefixedKey keyPrefix key), .ok (some v)⟩] ∨
      ∃ found reply, es = [⟨.get (prefixedKey keyPrefix key), found⟩, ⟨.load keyPrefix key, .ok v⟩,
        ⟨.set (prefixedKey keyPrefix key) v ttl, reply⟩] := by
  obtain ⟨found, es₁, rfl, h₁⟩ := Prog.returns_op.mp h
  have hmiss : (loadAndSet keyPrefix key ttl).Returns es₁ (.ok v) →
      ∃ reply, es₁ = [⟨.load keyPrefix key, .ok v⟩, ⟨.set (prefixedKey keyPrefix key) v ttl, reply⟩] := by
    intro hload
    obtain ⟨loaded, es₂, rfl, h₂⟩ := Prog.returns_op.mp hload
    cases loaded with
    | error err => exact nomatch (Prog.returns_ret.mp h₂).2
    | ok result =>
      obtain ⟨reply, es₃, rfl, h₃⟩ := Prog.returns_op.mp h₂
      obtain ⟨rfl, hv⟩ := Prog.returns_ret.mp h₃
      cases hv
      exact ⟨reply, rfl⟩
  cases found with
  | error text =>
    obtain ⟨reply, rfl⟩ := hmiss h₁
    exact .inr ⟨_, reply, rfl⟩
  | ok found =>
    cases found with
    | none =>
      obtain ⟨reply, rfl⟩ := hmiss h₁
      exact .inr ⟨_, reply, rfl⟩
    | some val =>
      obtain ⟨rfl, hv⟩ := Prog.returns_ret.mp h₁
      cases hv
      exact .inl rfl

theorem CallOp.of_path {call : Call} {q : Prog Op Reply Result} (h : call.prog.Path (es ++ y :: es') q) :
    CallOp call es y := by
  cases call with
  | getOrLoad keyPrefix key ttl =>
    obtain ⟨p, hp⟩ := Prog.Path.of_map h
    exact getOrLoad_split hp
  | set keyPrefix key value ttl =>
    obtain ⟨rfl, reply, rfl⟩ := Prog.Path.single_split h
    exact .set keyPrefix key value ttl reply
  | del keyPrefix key =>
    obtain ⟨rfl, reply, rfl⟩ := Prog.Path.single_split h
    exact .del keyPrefix key reply
  | update keyPrefix key value =>
    obtain ⟨rfl, reply, rfl⟩ := Prog.Path.single_split h
    exact .update keyPrefix key value

/-- The two calls that store a value under a key. -/
theorem CallOp.of_set {call : Call} {stored text : GoString} {ttl : Int64} {reply : Except GoString Unit}
    (h : CallOp call es ⟨.set stored text ttl, reply⟩) :
    ∃ keyPrefix key, stored = prefixedKey keyPrefix key ∧ (call = .set keyPrefix key text ttl ∨
      call = .getOrLoad keyPrefix key ttl ∧ (⟨.load keyPrefix key, .ok text⟩ : Act) ∈ es) := by
  cases h with
  | fill found reply => exact ⟨_, _, rfl, .inr ⟨rfl, by simp⟩⟩
  | set keyPrefix key value ttl reply => exact ⟨keyPrefix, key, rfl, .inl rfl⟩

end Paths

section Runs
variable {ι : Type}

/-- A `Set` of the text under the key; its reply may have been lost. -/
def Stores (x : Event ι) (key text : GoString) (ttl : Int64) : Prop :=
  ∃ reply, x.act = ⟨.set key text ttl, reply⟩

/-- What the keys hold was stored by a step of the run, with its time to live, and not deleted since. -/
def Traced (a : List (Event ι)) (s : State) : Prop :=
  ∀ key c, s.redis key = some c → ∃ a₁ x a₂ ttl, a = a₁ ++ x :: a₂ ∧ Stores x key c.text ttl ∧
    (0 < ttl → c.expireAt = some (x.env.now + formatMs ttl)) ∧
    (∀ z ∈ a₂, z.act ≠ ⟨.del key, .ok ()⟩) ∧ ∀ z ∈ a₂, ∀ v l, z.act ≠ ⟨.set key v l, .ok ()⟩

variable {a : List (Event ι)} {x : Event ι}

/-- Everything one operation can do to the keys. -/
theorem redis_cases (hx : x.Valid handle) :
    (x.post.redis = x.pre.redis ∧ (∀ key, x.act ≠ ⟨.del key, .ok ()⟩) ∧ ∀ key v l,
    x.act ≠ ⟨.set key v l, .ok ()⟩) ∨
      (∃ key text ttl, Stores x key text ttl ∧ x.post.redis = x.pre.redis.set x.env.now key text ttl) ∨
      ∃ key reply, x.act = ⟨.del key, reply⟩ ∧ x.post.redis = x.pre.redis.del key := by
  obtain ⟨op, reply, hact⟩ : ∃ op reply, x.act = ⟨op, reply⟩ := ⟨_, _, rfl⟩
  have hrun := hx.handle hact
  have hother : (∀ key, op ≠ .del key) → (∀ key v l, op ≠ .set key v l) → x.post.redis = x.pre.redis →
      x.post.redis = x.pre.redis ∧ (∀ key, x.act ≠ ⟨.del key, .ok ()⟩) ∧
        ∀ key v l, x.act ≠ ⟨.set key v l, .ok ()⟩ := by
    intro hdel hset hsame
    refine ⟨hsame, fun key heq => ?_, fun key v l heq => ?_⟩
    · exact hdel key (congrArg Sigma.fst (hact.symm.trans heq))
    · exact hset key v l (congrArg Sigma.fst (hact.symm.trans heq))
  cases op with
  | get key =>
    refine .inl (hother nofun nofun ?_)
    rcases answer_cases hrun with ⟨-, hpost⟩ | ⟨hpost, -⟩
    · rw [hpost]
    · rw [hpost]
  | load keyPrefix key =>
    refine .inl (hother nofun nofun ?_)
    rcases answer_cases hrun with ⟨-, hpost⟩ | ⟨hpost, -⟩
    · rw [hpost]
    · rw [hpost]
  | update keyPrefix key value =>
    refine .inl (hother nofun nofun ?_)
    rw [← (Prod.mk.inj hrun).2]
  | set key value ttl =>
    rcases answer_cases hrun with ⟨⟨text, rfl⟩, hpost⟩ | ⟨hpost, -⟩
    · refine .inl ⟨by rw [hpost], fun k heq => ?_, fun k v l heq => ?_⟩
      · cases hact.symm.trans heq
      · cases hact.symm.trans heq
    · refine .inr (.inl ⟨key, value, ttl, ⟨reply, hact⟩, ?_⟩)
      rw [hpost]
  | del key =>
    rcases answer_cases hrun with ⟨⟨text, rfl⟩, hpost⟩ | ⟨hpost, -⟩
    · refine .inl ⟨by rw [hpost], fun k heq => ?_, fun k v l heq => ?_⟩
      · cases hact.symm.trans heq
      · cases hact.symm.trans heq
    · refine .inr (.inr ⟨key, reply, hact, ?_⟩)
      rw [hpost]

theorem Traced.step (h : Traced a x.pre) (hx : x.Valid handle) : Traced (a ++ [x]) x.post := by
  -- A step that leaves the key alone comes after the one that stored it.
  have hlater : ∀ key c, x.pre.redis key = some c → x.act ≠ ⟨.del key, .ok ()⟩ →
      (∀ v l, x.act ≠ ⟨.set key v l, .ok ()⟩) →
      ∃ a₁ y a₂ ttl, a ++ [x] = a₁ ++ y :: a₂ ∧ Stores y key c.text ttl ∧
        (0 < ttl → c.expireAt = some (y.env.now + formatMs ttl)) ∧
        (∀ z ∈ a₂, z.act ≠ ⟨.del key, .ok ()⟩) ∧ ∀ z ∈ a₂, ∀ v l, z.act ≠ ⟨.set key v l, .ok ()⟩ := by
    intro key c hc hdel hset
    obtain ⟨a₁, y, a₂, ttl, rfl, hstores, htime, hdels, hsets⟩ := h key c hc
    refine ⟨a₁, y, a₂ ++ [x], ttl, by simp, hstores, htime, ?_, ?_⟩
    · intro z hz
      rcases List.mem_append.mp hz with hz | hz
      · exact hdels z hz
      · rw [List.mem_singleton.mp hz]
        exact hdel
    · intro z hz
      rcases List.mem_append.mp hz with hz | hz
      · exact hsets z hz
      · rw [List.mem_singleton.mp hz]
        exact hset
  intro key c hc
  rcases redis_cases hx with ⟨hsame, hdel, hset⟩ | ⟨key', text, ttl, hstores, hpost⟩ |
    ⟨key', reply, hact, hpost⟩
  · rw [hsame] at hc
    exact hlater key c hc (hdel key) (hset key)
  · rw [hpost] at hc
    unfold Values.set at hc
    by_cases hkey : key = key'
    · subst hkey
      rw [Function.update_self] at hc
      cases hc
      refine ⟨a, x, [], ttl, rfl, hstores, Values.expiry_of_pos, nofun, nofun⟩
    · rw [Function.update_of_ne hkey] at hc
      obtain ⟨reply, hact⟩ := hstores
      apply hlater key c hc
      · rw [hact]
        nofun
      · intro v l heq
        rw [hact] at heq
        cases heq
        exact hkey rfl
  · rw [hpost] at hc
    unfold Values.del at hc
    by_cases hkey : key = key'
    · subst hkey
      rw [Function.update_self] at hc
      cases hc
    · rw [Function.update_of_ne hkey] at hc
      apply hlater key c hc
      · rw [hact]
        intro heq
        cases heq
        exact hkey rfl
      · intro v l
        rw [hact]
        nofun

/-- The loader read this value from the source. -/
def Loads (x : Event ι) (keyPrefix key v : GoString) : Prop :=
  x.act = ⟨.load keyPrefix key, .ok v⟩ ∧ x.pre.source keyPrefix key = v

theorem loads_of_act (hx : x.Valid handle) {keyPrefix key v : GoString}
    (hact : x.act = ⟨.load keyPrefix key, .ok v⟩) : Loads x keyPrefix key v := by
  refine ⟨hact, ?_⟩
  rcases answer_cases (hx.handle hact) with ⟨⟨text, hreply⟩, -⟩ | ⟨-, hreply⟩
  · cases hreply
  · exact (hreply v rfl).symm

/-- The call that stored a value was a `Set` of that value, or had loaded it. -/
def Wrote (calls : ι → Call) (a : List (Event ι)) (x : Event ι) (keyPrefix key v : GoString) (ttl : Int64) :
    Prop :=
  calls x.caller = .set keyPrefix key v ttl ∨
    calls x.caller = .getOrLoad keyPrefix key ttl ∧ ∃ y ∈ a, y.caller = x.caller ∧ Loads y keyPrefix key v

/-- Where the value that call `i` returned came from. -/
inductive Origin (calls : ι → Call) (log : List (Event ι)) (i : ι) (keyPrefix key v : GoString) : Prop
  | loaded {x : Event ι} (hx : x ∈ log) (hcaller : x.caller = i) (hload : Loads x keyPrefix key v)
  | found {a : List (Event ι)} {x : Event ι} {m : List (Event ι)} {g : Event ι} {b : List (Event ι)}
      {ttl : Int64}
    (hlog : log = a ++ x :: (m ++ g :: b)) (hcaller : g.caller = i)
    (hget : g.act = ⟨.get (prefixedKey keyPrefix key), .ok (some v)⟩)
    (hset : Stores x (prefixedKey keyPrefix key) v ttl) (hwrote : Wrote calls a x keyPrefix key v ttl)
    (htime : 0 < ttl → g.env.now < x.env.now + formatMs ttl)
    (hdel : ∀ z ∈ m, z.act ≠ ⟨.del (prefixedKey keyPrefix key), .ok ()⟩)
    (hlast : ∀ z ∈ m, ∀ v' l, z.act ≠ ⟨.set (prefixedKey keyPrefix key) v' l, .ok ()⟩)

end Runs

section Origins
variable {ι : Type} [DecidableEq ι] {calls : ι → Call} {source : GoString → GoString → GoString}
  {w : Config ι Op Reply Env State Result} {a b : List (Event ι)} {x : Event ι} {keyPrefix key v : GoString}

theorem prefixedKey_inj {keyPrefix' key' : GoString} (h : (0x3A : UInt8) ∉ keyPrefix)
    (h' : (0x3A : UInt8) ∉ keyPrefix')
    (heq : prefixedKey keyPrefix key = prefixedKey keyPrefix' key') :
    keyPrefix = keyPrefix' ∧ key = key' := by
  unfold prefixedKey at heq
  rw [List.append_assoc, List.append_assoc] at heq
  exact append_sep_inj h h' heq

/-- A `Set` of a key is by a call for that prefix and key: no other call builds the same text. -/
theorem wrote_of_stores (hw : w.Sound handle (fun i => (calls i).prog) ⟨fun _ => none, source⟩)
    (hcolon : ∀ i, (0x3A : UInt8) ∉ (calls i).keyPrefix) (hkey : (0x3A : UInt8) ∉ keyPrefix)
    (hl : w.log = a ++ x :: b) {ttl : Int64} (hset : Stores x (prefixedKey keyPrefix key) v ttl) :
    Wrote calls a x keyPrefix key v ttl := by
  obtain ⟨reply, hact⟩ := hset
  have hop := CallOp.of_path (hw.path_split hl)
  rw [hact] at hop
  have hfree := hcolon x.caller
  obtain ⟨keyPrefix', key', hsame, hcall⟩ := hop.of_set
  have hfree' : (0x3A : UInt8) ∉ keyPrefix' := by
    rcases hcall with hcall | ⟨hcall, -⟩
    · rwa [hcall] at hfree
    · rwa [hcall] at hfree
  obtain ⟨rfl, rfl⟩ := prefixedKey_inj hkey hfree' hsame
  rcases hcall with hcall | ⟨hcall, hmem⟩
  · exact .inl hcall
  · obtain ⟨y, hy, hcaller, hload⟩ := mem_history.mp hmem
    refine .inr ⟨hcall, y, hy, hcaller, loads_of_act ?_ hload⟩
    apply hw.exec.valid
    rw [hl]
    exact List.mem_append_left _ hy

/-- A value that a `Get` finds was stored by a step before it. -/
theorem stored_before (hw : w.Sound handle (fun i => (calls i).prog) ⟨fun _ => none, source⟩)
    (hl : w.log = a ++ x :: b) {stored : GoString} (hget : x.act = ⟨.get stored, .ok (some v)⟩) :
    ∃ a₁ y m ttl, a = a₁ ++ y :: m ∧ Stores y stored v ttl ∧
      (0 < ttl → x.env.now < y.env.now + formatMs ttl) ∧
      (∀ z ∈ m, z.act ≠ ⟨.del stored, .ok ()⟩) ∧ ∀ z ∈ m, ∀ v' l, z.act ≠ ⟨.set stored v' l, .ok ()⟩ := by
  have hexec := hw.exec
  rw [hl] at hexec
  obtain ⟨ha, hvalid, -⟩ := hexec.split
  have htraced : Traced a x.pre := by
    apply ha.history_invariant (P := Traced) nofun
    intro a x b hab hx h
    exact h.step hx
  have hfound : x.pre.redis.get x.env.now stored = some v := by
    rcases answer_cases (hvalid.handle hget) with ⟨⟨text, hreply⟩, -⟩ | ⟨-, hreply⟩
    · cases hreply
    · exact (hreply (some v) rfl).symm
  obtain ⟨e, hstored, hlive⟩ := Values.get_eq_some hfound
  obtain ⟨a₁, y, m, ttl, rfl, hset, htime, hdel, hlast⟩ := htraced stored _ hstored
  exact ⟨a₁, y, m, ttl, rfl, hset, fun hpos => hlive _ (htime hpos), hdel, hlast⟩

/-- In every run on an empty Redis, with prefixes free of colons: what a `GetOrLoad` returns was read from
the source by its own loader, or was stored for the same prefix and key, by a `Set` of it or by a
`GetOrLoad` that had read it from the source. It is then within the time to live it was stored with, and
no acknowledged `Set` or `Del` of the key came between. -/
theorem getOrLoad_origin (calls : ι → Call) (source : GoString → GoString → GoString) (sched : List (ι × Env))
    (hcolon : ∀ i, (0x3A : UInt8) ∉ (calls i).keyPrefix) (i : ι) (keyPrefix key : GoString) (ttl : Int64)
    (hcall : calls i = .getOrLoad keyPrefix key ttl) (v : GoString)
    (hret : (world calls source sched).Returned i (.value (.ok v))) :
    Origin calls (world calls source sched).log i keyPrefix key v := by
  have hw : (world calls source sched).Sound handle (fun i => (calls i).prog) ⟨fun _ => none, source⟩ :=
    Config.run_sound _ _ _ _
  have hprog := hw.returns hret
  rw [hcall] at hprog
  obtain ⟨r, es, es', hhist, hreturns, hlast⟩ := Prog.returns_bind.mp hprog
  obtain ⟨rfl, hr⟩ := Prog.returns_ret.mp hlast
  rw [List.append_nil] at hhist
  cases hr
  rcases getOrLoad_returns hreturns with rfl | ⟨found, reply, rfl⟩
  · obtain ⟨a, g, b, hl, hcaller, hget, -, -⟩ := exists_of_history_cons hhist
    obtain ⟨a₁, x, m, l, rfl, hset, htime, hdel, hlast⟩ := stored_before hw hl hget
    rw [List.append_assoc, List.cons_append] at hl
    have hkey := hcolon i
    rw [hcall] at hkey
    exact .found hl hcaller hget hset (wrote_of_stores hw hcolon hkey hl hset) htime hdel hlast
  · have hmem : (⟨.load keyPrefix key, .ok v⟩ : Act) ∈ history i (world calls source sched).log := by
      rw [hhist]
      simp
    obtain ⟨x, hx, hcaller, hact⟩ := mem_history.mp hmem
    exact .loaded hx hcaller (loads_of_act (hw.exec.valid hx) hact)

end Origins

def sampleCalls : Bool → Call
  | false => .getOrLoad (lit "user") (lit "7") 1000000000
  | true => .getOrLoad (lit "user") (lit "7") 1000000000

/-- The second call finds what the first has loaded. -/
def sampleSchedule : List (Bool × Env) :=
  [(false, ⟨0, none⟩), (false, ⟨1, none⟩), (false, ⟨2, none⟩), (true, ⟨900, none⟩)]

theorem sampleCalls_origin :
    Origin sampleCalls (world sampleCalls (fun _ _ => lit "Ada") sampleSchedule).log true (lit "user")
    (lit "7")
      (lit "Ada") :=
  getOrLoad_origin sampleCalls (fun _ _ => lit "Ada") sampleSchedule
    (by intro i; cases i <;> decide) true (lit "user") (lit "7") 1000000000 rfl (lit "Ada") (by decide)

end SynapseGo.Cache.GetOrLoad
