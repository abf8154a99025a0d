import SynapseGo.Concurrency.Accounting
import SynapseGo.Lock.Locker

/-! `Scheduler.execute` over `lock.Locker`: the lock of a task lives for one interval, while the task's
function may take longer. -/
namespace SynapseGo.Scheduler
open SynapseGo.Go SynapseGo.Concurrency SynapseGo.Redis SynapseGo.Lock.Locker

structure Task where
  interval : Int64
  lockKey : GoString

def Task.fn : Prog Op Reply (Option Err) := do
  let _ ← Prog.perform Op.begin
  Prog.perform Op.finish

/-- `Scheduler.execute`, with the error that it logs. `locker` says whether the scheduler has a locker, and
`run` calls it for positive intervals only. -/
def execute (locker : Bool) (task : Task) (token : GoString) : Prog Op Reply (Option Err) := do
  if task.lockKey ≠ [] ∧ locker then
    let err ← executeWithLock task.lockKey task.interval token Task.fn
    if err = some .lockNotAcquired then return none
    return err
  Task.fn

/-- The next operation of an execution with its reply, after the operations `es`. -/
inductive ExecOp (key token : GoString) (ttl : ℤ) : List Act → Act → Prop
  | setNX (reply : Except GoString Bool) : ExecOp key token ttl [] ⟨.setNX key token ttl, reply⟩
  | begin : ExecOp key token ttl [⟨.setNX key token ttl, .ok true⟩] ⟨.begin, ()⟩
  | finish (err : Option Err) :
    ExecOp key token ttl [⟨.setNX key token ttl, .ok true⟩, ⟨.begin, ()⟩] ⟨.finish, err⟩
  | release (err : Option Err) (reply : Except GoString ℤ) :
    ExecOp key token ttl [⟨.setNX key token ttl, .ok true⟩, ⟨.begin, ()⟩, ⟨.finish, err⟩]
      ⟨.release key token, reply⟩

section Paths
variable {key token : GoString} {ttl : Int64} {es es' : List Act} {y : Act}

/-- After the lock is granted, the function runs and the lock is released. -/
theorem ExecOp.of_granted {q : Prog Op Reply (Option Err)}
    (h : (Task.fn >>= fun err => unlock key token >>= fun _ => .ret err).Path (es ++ y :: es') q) :
    ExecOp key token (formatMs ttl) (⟨.setNX key token (formatMs ttl), .ok true⟩ :: es) y := by
  rcases h.op_split with ⟨rfl, _, rfl⟩ | ⟨_, es₁, rfl, h₁⟩
  · exact .begin
  rcases h₁.op_split with ⟨rfl, err, rfl⟩ | ⟨err, es₂, rfl, h₂⟩
  · exact .finish err
  obtain ⟨rfl, reply, rfl⟩ := h₂.single_split
  exact .release err reply

theorem ExecOp.of_executeWithLock {q : Prog Op Reply (Option Err)}
    (h : (executeWithLock key ttl token Task.fn).Path (es ++ y :: es') q) :
    ExecOp key token (formatMs ttl) es y := by
  unfold executeWithLock at h
  rcases h.bind_split with ⟨es₁, p, hp⟩ | ⟨r, es₁, es₂, rfl, hr, h₁⟩
  · obtain ⟨rfl, reply, rfl⟩ := tryLock_split hp
    exact .setNX reply
  cases r with
  | error err => exact h₁.ret_split.elim
  | ok _ =>
    rw [setNX_of_ok hr]
    exact .of_granted h₁

theorem ExecOp.of_path {task : Task} (hkey : task.lockKey ≠ []) {q : Prog Op Reply (Option Err)}
    (h : (execute true task token).Path (es ++ y :: es') q) :
    ExecOp task.lockKey token (formatMs task.interval) es y := by
  unfold execute at h
  rw [if_pos ⟨hkey, rfl⟩] at h
  rcases h.bind_split with ⟨es₁, p, hp⟩ | ⟨err, es₁, es₂, rfl, -, h₁⟩
  · exact .of_executeWithLock hp
  · split_ifs at h₁ <;> exact h₁.ret_split.elim

end Paths

/-- An execution that got the lock and whose function has not returned. -/
def holding (es : List Act) : Bool := es.any granted && !es.any isFinish

variable {ι : Type} [DecidableEq ι]

/-- At no time is the function running in two executions. -/
def Exclusive (log : List (Event ι)) : Prop :=
  ∀ a b, log = a ++ b → ∀ i j, running (history i a) = true → running (history j a) = true → i = j

/-- After the log `a`: when an execution tries to get the lock, the executions that got it before and whose
function has not returned got it less than `ttl` ago. -/
def TimelyStep (ttl : ℤ) (a : List (Event ι)) (y : Event ι) : Prop :=
  isSetNX y.act = true → ∀ x ∈ a, granted x.act = true → holding (history x.caller a) = true →
    y.env.now < x.env.now + ttl

instance (ttl : ℤ) (a : List (Event ι)) (y : Event ι) : Decidable (TimelyStep ttl a y) := by
  unfold TimelyStep
  infer_instance

def Timely (ttl : ℤ) (log : List (Event ι)) : Prop := ∀ a y b, log = a ++ y :: b → TimelyStep ttl a y

instance (ttl : ℤ) (log : List (Event ι)) : Decidable (Timely ttl log) :=
  decidable_of_iff _ (forall_get_iff_split (P := TimelyStep ttl))

/-- A function that runs has been entered with the lock. -/
theorem holding_of_running {task : Task} (hkey : task.lockKey ≠ []) {token : GoString} {es es' : List Act}
    {q : Prog Op Reply (Option Err)} (hpath : (execute true task token).Path (es ++ es') q)
    (hrun : running es = true) : holding es = true := by
  rcases List.eq_nil_or_concat' es with rfl | ⟨es, y, rfl⟩
  · cases hrun
  · rw [List.append_assoc, List.singleton_append] at hpath
    cases ExecOp.of_path hkey hpath with
    | setNX reply => cases hrun
    | begin => rfl
    | finish err => cases hrun
    | release err reply => cases hrun

/-- Every execution that holds the lock is the owner of the key, with the time of its grant. -/
def Owned (key : GoString) (token : ι → GoString) (ttl : ℤ) (a : List (Event ι)) (s : Leases) : Prop :=
  ∀ j, holding (history j a) = true →
    ∃ x ∈ a, x.caller = j ∧ granted x.act = true ∧ s key = some ⟨token j, x.env.now + ttl⟩

section Step
variable {key : GoString} {token : ι → GoString} {ttl : ℤ} {a : List (Event ι)} {x : Event ι}

/-- A step of a call that does not get the lock, and that leaves the owner of the key in place. -/
theorem Owned.keep (h : Owned key token ttl a x.pre)
    (hself : holding (history x.caller a ++ [x.act]) = true → holding (history x.caller a) = true)
    (hpost : ∀ j e, holding (history j (a ++ [x])) = true → x.pre key = some ⟨token j, e⟩ →
      x.post key = some ⟨token j, e⟩) : Owned key token ttl (a ++ [x]) x.post := by
  intro j hj
  have hbefore : holding (history j a) = true := by
    by_cases hi : x.caller = j
    · subst hi
      rw [history_snoc_self] at hj
      exact hself hj
    · rw [history_snoc_of_ne hi] at hj
      exact hj
  obtain ⟨y, hy, hcaller, hgrant, hs⟩ := h j hbefore
  exact ⟨y, List.mem_append_left _ hy, hcaller, hgrant, hpost j _ hj hs⟩

/-- A step of a call that holds the lock already, and that leaves the keys as they are. -/
theorem Owned.same (h : Owned key token ttl a x.pre) (hpost : x.pre = x.post)
    (hhold : holding (history x.caller a) = true) : Owned key token ttl (a ++ [x]) x.post := by
  apply h.keep
  · intro _
    exact hhold
  · intro j e _ hs
    rw [← hpost, hs]

/-- An attempt that gets the lock finds it expired, so that no timely execution holds it. -/
theorem Owned.grant (h : Owned key token ttl a x.pre) (hcare : TimelyStep ttl a x)
    {reply : Except GoString Bool} (hact : x.act = ⟨.setNX key (token x.caller) ttl, reply⟩)
    (hhist : history x.caller a = [])
    (hfree : ∀ c, x.pre key = some c → c.expireAt ≤ x.env.now)
    (hpost : x.post = Function.update x.pre key (some ⟨token x.caller, x.env.now + ttl⟩)) :
    Owned key token ttl (a ++ [x]) x.post := by
  intro j hj
  by_cases hi : x.caller = j
  · subst hi
    rw [history_snoc_self, hhist, List.nil_append, hact] at hj
    refine ⟨x, List.mem_append_right _ (List.mem_singleton_self x), rfl, ?_, ?_⟩
    · rw [hact]
      simpa [holding, isFinish] using hj
    · rw [hpost, Function.update_self]
  · rw [history_snoc_of_ne hi] at hj
    obtain ⟨y, hy, rfl, hgrant, hs⟩ := h j hj
    have hlate : y.env.now + ttl ≤ x.env.now := hfree _ hs
    have htimely := hcare (by rw [hact]; rfl) y hy hgrant hj
    omega

theorem Owned.setNX (h : Owned key token ttl a x.pre) (hx : x.Valid handle) (hcare : TimelyStep ttl a x)
    {reply : Except GoString Bool} (hact : x.act = ⟨.setNX key (token x.caller) ttl, reply⟩)
    (hhist : history x.caller a = []) : Owned key token ttl (a ++ [x]) x.post := by
  have hrun : answer x.env.fault x.pre (x.pre.setNX x.env.now key (token x.caller) ttl) = (reply, x.post) :=
    hx.handle hact
  have hrefused : reply ≠ .ok true → x.post = x.pre → Owned key token ttl (a ++ [x]) x.post := by
    intro hreply hsame
    apply h.keep
    · intro hj
      rw [hhist, hact] at hj
      cases reply with
      | error text => cases hj
      | ok ok =>
        cases ok with
        | false => cases hj
        | true => exact absurd rfl hreply
    · intro j e _ hs
      rw [hsame, hs]
  generalize hr : x.pre.setNX x.env.now key (token x.caller) ttl = r at hrun
  rcases answer_cases hrun with ⟨⟨text, rfl⟩, hsame⟩ | ⟨hpost, hreply⟩
  · exact hrefused nofun hsame
  rcases Leases.setNX_cases hr with ⟨hres, hsame, -⟩ | ⟨-, hset, hfree⟩
  · apply hrefused _ (hpost.trans hsame)
    intro hok
    have := hreply true hok
    rw [hres] at this
    cases this
  · exact h.grant hcare hact hhist hfree (hpost.trans hset)

theorem Owned.release (h : Owned key token ttl a x.pre) (hx : x.Valid handle)
    (htoken : Function.Injective token) {err : Option Err} {reply : Except GoString ℤ}
    (hact : x.act = ⟨.release key (token x.caller), reply⟩)
    (hhist : history x.caller a =
      [⟨.setNX key (token x.caller) ttl, .ok true⟩, ⟨.begin, ()⟩, ⟨.finish, err⟩]) :
    Owned key token ttl (a ++ [x]) x.post := by
  have hdone : holding (history x.caller a ++ [x.act]) = false := by
    rw [hhist, hact]
    rfl
  apply h.keep
  · intro hj
    rw [hdone] at hj
    cases hj
  · intro j e hj hs
    have hrun : answer x.env.fault x.pre (x.pre.compareDelete x.env.now key (token x.caller)) =
        (reply, x.post) := hx.handle hact
    generalize hr : x.pre.compareDelete x.env.now key (token x.caller) = r at hrun
    rcases answer_cases hrun with ⟨-, hsame⟩ | ⟨hdelete, -⟩
    · rw [hsame, hs]
    rcases Leases.compareDelete_cases hr with ⟨-, hsame⟩ | ⟨-, -, e', hmine, -⟩
    · rw [hdelete, hsame, hs]
    · -- The execution would have found its own token, which is not the one stored.
      have hsame : token j = token x.caller := by
        rw [hs] at hmine
        exact congrArg Lease.token (Option.some.inj hmine)
      rw [htoken hsame, history_snoc_self, hdone] at hj
      cases hj

theorem Owned.step (h : Owned key token ttl a x.pre) (hx : x.Valid handle) (hcare : TimelyStep ttl a x)
    (htoken : Function.Injective token)
    (hop : ExecOp key (token x.caller) ttl (history x.caller a) x.act) :
    Owned key token ttl (a ++ [x]) x.post := by
  generalize hhist : history x.caller a = es at hop
  generalize hact : x.act = y at hop
  cases hop with
  | setNX reply => exact h.setNX hx hcare hact hhist
  | begin => exact h.same (Prod.mk.inj (hx.handle hact)).2 (by rw [hhist]; rfl)
  | finish err => exact h.same (Prod.mk.inj (hx.handle hact)).2 (by rw [hhist]; rfl)
  | release err reply => exact h.release hx htoken hact hhist

end Step

/-- Any number of executions of one task, in any instances, each with its own token. -/
def executions (task : Task) (token : ι → GoString) (s : Leases) (sched : List (ι × Env)) :
    Config ι Op Reply Env Leases (Option Err) :=
  (Config.start (fun i => execute true task (token i)) s).run handle sched

/-- In every run in which no execution is late when another tries to get the lock, the function never runs
in two executions at once. -/
theorem execute_exclusive (task : Task) (hkey : task.lockKey ≠ []) (token : ι → GoString)
    (htoken : Function.Injective token) (s : Leases) (sched : List (ι × Env))
    (htimely : Timely (formatMs task.interval) (executions task token s sched).log) :
    Exclusive (executions task token s sched).log := by
  have hw : Config.Sound handle (fun i => execute true task (token i)) s (executions task token s sched) :=
    Config.run_sound _ _ _ _
  intro a b hl i j hi hj
  have hexec := hw.exec
  rw [hl] at hexec
  obtain ⟨u, ha, -⟩ := hexec.of_append
  have howned : Owned task.lockKey token (formatMs task.interval) a u := by
    apply ha.invariant_within (P := Owned task.lockKey token (formatMs task.interval)) hl
    · intro k hk
      cases hk
    · intro a' x b' hlog hx ih
      exact ih.step hx (htimely a' x b' hlog) htoken (ExecOp.of_path hkey (hw.path_split hlog))
  have hholding : ∀ k, running (history k a) = true → holding (history k a) = true := by
    intro k
    have hpath := hw.path k
    rw [hl, history_append] at hpath
    exact holding_of_running hkey hpath
  obtain ⟨x, -, -, -, hx⟩ := howned i (hholding i hi)
  obtain ⟨y, -, -, -, hy⟩ := howned j (hholding j hj)
  rw [hx] at hy
  exact htoken (congrArg Lease.token (Option.some.inj hy))

/-- A task that is due every second. -/
def everySecond : Task := ⟨1000000000, lit "sched:locked-task"⟩

/-- Two instances that execute the task, with the steps of each by the millisecond. -/
def twoInstances (steps : List (ℕ × ℤ)) : List (Event ℕ) :=
  (executions everySecond (fun i => List.replicate i 0x61) (fun _ => none)
    (steps.map fun m => (m.1, ⟨m.2, none, none⟩))).log

/-- The function takes 400 ms in the first instance; the second finds the lock held. -/
theorem short_function_exclusive : Exclusive (twoInstances [(0, 0), (0, 1), (1, 200), (0, 401), (0, 402)]) :=
  execute_exclusive everySecond (by decide) _ (fun i j h => by simpa using congrArg List.length h) _ _
    (by decide +kernel)

/-- The function takes more than a second in the first instance; the second gets the lock meanwhile. -/
theorem long_function_not_exclusive : ¬ Exclusive (twoInstances [(0, 0), (0, 1), (1, 1200), (1, 1201)]) := by
  intro h
  have hsame := h _ [] (List.append_nil _).symm 0 1 (by decide +kernel) (by decide +kernel)
  cases hsame

end SynapseGo.Scheduler
