import SynapseGo.Concurrency.Accounting
import SynapseGo.Middleware.Auth

/-! `LoginRateLimit` under concurrency. The check reads the counter before the handlers run and the
failure is counted after them, so that the requests in between are not counted yet. -/
namespace SynapseGo.Middleware.LoginRate
open SynapseGo.Go SynapseGo.Concurrency SynapseGo.Redis

abbrev Event (ι : Type) := Entry ι Op Reply Env (Store GoString)

/-- The next operation of a request with its reply, after the operations `es`. -/
inductive LoginOp (M : ℤ) (key : GoString) (ttl : ℤ) : List Act → Act → Prop
  | get (reply : Except GoString ℤ) : LoginOp M key ttl [] ⟨.get key, reply⟩
  | next {reply : Except GoString ℤ} (hpass : count reply < M) (status : ℤ) :
    LoginOp M key ttl [⟨.get key, reply⟩] ⟨.next, status⟩
  | fail {reply : Except GoString ℤ} (hpass : count reply < M) :
    LoginOp M key ttl [⟨.get key, reply⟩, ⟨.next, (401 : ℤ)⟩] ⟨.incrExpire key ttl, ()⟩
  | succeed {reply : Except GoString ℤ} (hpass : count reply < M) (deleted : Except GoString ℤ) :
    LoginOp M key ttl [⟨.get key, reply⟩, ⟨.next, (200 : ℤ)⟩] ⟨.del key, deleted⟩

theorem LoginOp.of_path {maxAttempts window : Int64} {ip : GoString} {es es' : List Act} {y : Act}
    {q : Call Response} (h : (loginRateLimit true maxAttempts window ip).Path (es ++ y :: es') q) :
    LoginOp maxAttempts.toInt (loginKey ip) (formatSec window) es y := by
  unfold loginRateLimit at h
  rw [if_neg (by decide), Prog.perform_bind] at h
  rcases h.op_split with ⟨rfl, reply, rfl⟩ | ⟨reply, es₁, rfl, h₁⟩
  · exact .get reply
  dsimp only at h₁
  split_ifs at h₁ with hfull
  · exact h₁.ret_split.elim
  · rw [Prog.perform_bind] at h₁
    rcases h₁.op_split with ⟨rfl, status, rfl⟩ | ⟨status, es₂, rfl, h₂⟩
    · exact .next (not_le.mp hfull) status
    split_ifs at h₂ with hfail hok
    · subst hfail
      rw [Prog.perform_bind] at h₂
      obtain ⟨rfl, reply, rfl⟩ := h₂.single_split
      exact .fail (not_le.mp hfull)
    · subst hok
      rw [Prog.perform_bind] at h₂
      obtain ⟨rfl, deleted, rfl⟩ := h₂.single_split
      exact .succeed (not_le.mp hfull) deleted
    · exact h₂.ret_split.elim

/-- Whether a request has passed the check and has not come to its last operation. -/
def inFlight (M : ℤ) : List Act → ℤ
  | [⟨.get _, reply⟩] => if count reply < M then 1 else 0
  | [_, ⟨.next, status⟩] => if status = 401 ∨ status = 200 then 1 else 0
  | _ => 0

/-- Whether a request has been answered 401 and its failure is not counted yet. -/
def owing : List Act → ℤ
  | [_, ⟨.next, status⟩] => if status = 401 then 1 else 0
  | _ => 0

/-- Whether the handlers answered with `status` in this step. -/
def answers (status : ℤ) : Act → Bool
  | ⟨.next, answer⟩ => answer = status
  | _ => false

variable {ι : Type}

/-- The requests answered 401 since the last that was answered 200. -/
def failuresSince (log : List (Event ι)) : ℕ :=
  log.foldl (fun n x => if answers 200 x.act then 0 else if answers 401 x.act then n + 1 else n) 0

/-- Between two answers 200 at most `M` requests are answered 401. -/
def FailuresBounded (M : ℤ) (log : List (Event ι)) : Prop :=
  ∀ a m b, log = a ++ (m ++ b) → (∀ x ∈ m, answers 200 x.act = false) →
    (m.countP fun x => answers 401 x.act : ℤ) ≤ M

theorem failuresSince_snoc {log : List (Event ι)} {x : Event ι} : failuresSince (log ++ [x]) =
    if answers 200 x.act then 0 else if answers 401 x.act then failuresSince log + 1
    else failuresSince log := by
  unfold failuresSince
  rw [List.foldl_append]
  rfl

theorem failuresSince_append {a m : List (Event ι)} (hm : ∀ x ∈ m, answers 200 x.act = false) :
    failuresSince (a ++ m) = failuresSince a + m.countP fun x => answers 401 x.act := by
  induction m using List.reverseRecOn with
  | nil => rw [List.append_nil, List.countP_nil, Nat.add_zero]
  | append_singleton m x ih =>
    have hx := hm x (List.mem_append_right _ (List.mem_singleton_self x))
    have hrest := ih fun y hy => hm y (List.mem_append_left _ hy)
    rw [← List.append_assoc, failuresSince_snoc, hx, hrest, List.countP_append, List.countP_singleton]
    simp only [Bool.false_eq_true, if_false]
    split_ifs <;> omega

theorem inFlight_nonneg (M : ℤ) (es : List Act) : 0 ≤ inFlight M es := by
  unfold inFlight
  split
  · split_ifs <;> decide
  · split_ifs <;> decide
  · exact le_rfl

theorem owing_nonneg (es : List Act) : 0 ≤ owing es := by
  unfold owing
  split
  · split_ifs <;> decide
  · exact le_rfl

theorem owing_le_inFlight (M : ℤ) (es : List Act) : owing es ≤ inFlight M es := by
  unfold owing
  split
  · unfold inFlight
    split_ifs with h401
    · subst h401
      simp
    · exact inFlight_nonneg M _
  · exact inFlight_nonneg M _

variable [DecidableEq ι]

/-- The requests that have passed the check and have their last operation to come. -/
def pending (M : ℤ) (log : List (Event ι)) : ℤ := total (fun _ => inFlight M) log

def uncounted (log : List (Event ι)) : ℤ := total (fun _ => owing) log

/-- After the log `a`: a request passes the check only while the failures it reads and the requests in
flight together are below the limit, and a success resets the counter only while no failure has been
answered after it. -/
def UnhurriedStep (M : ℤ) (a : List (Event ι)) (x : Event ι) : Prop :=
  match x.act with
  | ⟨.get _, reply⟩ => count reply < M → count reply + pending M a < M
  | ⟨.del _, _⟩ => failuresSince a = 0
  | _ => True

instance (M : ℤ) (a : List (Event ι)) (x : Event ι) : Decidable (UnhurriedStep M a x) := by
  unfold UnhurriedStep
  split <;> infer_instance

def Unhurried (M : ℤ) (log : List (Event ι)) : Prop := ∀ a x b, log = a ++ x :: b → UnhurriedStep M a x

instance (M : ℤ) (log : List (Event ι)) : Decidable (Unhurried M log) :=
  decidable_of_iff _ (forall_get_iff_split (P := UnhurriedStep M))

section Counts
variable {M : ℤ} {log : List (Event ι)} {x : Event ι}

theorem pending_snoc : pending M (log ++ [x]) = pending M log +
    (inFlight M (history x.caller log ++ [x.act]) - inFlight M (history x.caller log)) :=
  total_snoc (fun _ => rfl) x

theorem uncounted_snoc : uncounted (log ++ [x]) = uncounted log +
    (owing (history x.caller log ++ [x.act]) - owing (history x.caller log)) :=
  total_snoc (fun _ => rfl) x

theorem uncounted_nonneg : 0 ≤ uncounted log := total_nonneg fun _ => owing_nonneg _

theorem inFlight_le_pending (i : ι) : inFlight M (history i log) ≤ pending M log :=
  le_total (c := fun _ => inFlight M) (fun _ => rfl) (fun _ => inFlight_nonneg M _) i

theorem uncounted_le_pending : uncounted log ≤ pending M log := total_mono fun _ => owing_le_inFlight M _

end Counts

/-- The counter and the requests in flight, in a window that ends at `due`. -/
structure LoginInv (M : ℤ) (key : GoString) (due : ℤ) (log : List (Event ι)) (s : Store GoString) : Prop where
  lasting : ∀ c ∈ s key, ∃ t, c.expireAt = some t ∧ due ≤ t
  nonneg : 0 ≤ s.value key
  room : s.value key + pending M log ≤ M
  covered : failuresSince log ≤ s.value key + uncounted log

section Step
variable {M ttl due : ℤ} {key : GoString} {a : List (Event ι)} {x : Event ι} {s : Store GoString}

/-- Within the window the counter does not expire. -/
theorem LoginInv.counter_eq {now : ℤ} (h : LoginInv M key due a s) (hnow : now < due) :
    s.counter now key = s.value key := by
  apply Store.counter_eq_value
  intro c hc
  obtain ⟨t, ht, hle⟩ := h.lasting c hc
  have hlt : now < t := by omega
  simp [Cell.alive, ht, hlt]

theorem LoginInv.failures_le (h : LoginInv M key due a s) : failuresSince a ≤ M := by
  have hroom := h.room
  have hcovered := h.covered
  have hle : uncounted a ≤ pending M a := uncounted_le_pending
  omega

theorem LoginInv.get {reply : Except GoString ℤ} (h : LoginInv M key due a x.pre) (hx : x.Valid handle)
    (hf : x.env.fault = none) (hnow : x.env.now < due) (hact : x.act = ⟨.get key, reply⟩)
    (hhist : history x.caller a = []) (hcare : count reply < M → count reply + pending M a < M) :
    LoginInv M key due (a ++ [x]) x.post := by
  have hrun : Redis.get x.env.now key x.pre = (reply, x.post) := by
    rw [← handle_get hf]
    exact hx.handle hact
  obtain ⟨hcount, hpost⟩ := get_cases hrun
  rw [h.counter_eq hnow] at hcount
  have hpending : pending M (a ++ [x]) = pending M a + (if count reply < M then 1 else 0) := by
    rw [pending_snoc, hhist, hact]
    exact congrArg _ (Int.sub_zero _)
  have huncounted : uncounted (a ++ [x]) = uncounted a := by
    rw [uncounted_snoc, hhist, hact]
    exact Int.add_zero _
  have hfailures : failuresSince (a ++ [x]) = failuresSince a := by
    rw [failuresSince_snoc, hact]
    rfl
  obtain ⟨hlasting, hnonneg, hroom, hcovered⟩ := h
  rw [hpost]
  refine ⟨hlasting, hnonneg, ?_, ?_⟩
  · rw [hpending]
    split_ifs with hpass
    · have := hcare hpass
      omega
    · omega
  · rw [hfailures, huncounted]
    exact hcovered

theorem LoginInv.next {status : ℤ} {reply : Except GoString ℤ} (h : LoginInv M key due a x.pre)
    (hx : x.Valid handle) (hact : x.act = ⟨.next, status⟩)
    (hhist : history x.caller a = [⟨.get key, reply⟩]) (hpass : count reply < M) :
    LoginInv M key due (a ++ [x]) x.post := by
  have hpost : x.pre = x.post := (Prod.mk.inj (hx.handle hact)).2
  have hpending : pending M (a ++ [x]) =
    pending M a + ((if status = 401 ∨ status = 200 then 1 else 0) - 1) := by
    have hbefore : inFlight M [⟨.get key, reply⟩] = 1 := if_pos hpass
    rw [pending_snoc, hhist, hact, hbefore]
    rfl
  have huncounted : uncounted (a ++ [x]) = uncounted a + if status = 401 then 1 else 0 := by
    rw [uncounted_snoc, hhist, hact]
    exact congrArg _ (Int.sub_zero _)
  have hfailures : failuresSince (a ++ [x]) =
      if status = 200 then 0 else if status = 401 then failuresSince a + 1 else failuresSince a := by
    rw [failuresSince_snoc, hact]
    simp only [answers, decide_eq_true_eq]
  have huncounted₀ : 0 ≤ uncounted a := uncounted_nonneg
  obtain ⟨hlasting, hnonneg, hroom, hcovered⟩ := h
  rw [← hpost]
  refine ⟨hlasting, hnonneg, ?_, ?_⟩
  · rw [hpending]
    split_ifs <;> omega
  · rw [hfailures, huncounted]
    split_ifs <;> push_cast <;> omega

theorem LoginInv.fail {reply : Except GoString ℤ} (h : LoginInv M key due a x.pre) (hx : x.Valid handle)
    (hf : x.env.fault = none) (hnow : x.env.now < due) (httl : ValidTTL ttl)
    (hdue : due ≤ x.env.now + ttl * 1000) (hM : M < 2 ^ 63) (hact : x.act = ⟨.incrExpire key ttl, ()⟩)
    (hhist : history x.caller a = [⟨.get key, reply⟩, ⟨.next, (401 : ℤ)⟩]) :
    LoginInv M key due (a ++ [x]) x.post := by
  have hcounter := h.counter_eq hnow
  -- The request itself is in flight, so that the counter is below the limit.
  have hself : 1 ≤ pending M a := by
    have hle : inFlight M (history x.caller a) ≤ pending M a := inFlight_le_pending x.caller
    rw [hhist] at hle
    exact hle
  have hpending : pending M (a ++ [x]) = pending M a - 1 := by
    rw [pending_snoc, hhist, hact]
    rfl
  have huncounted : uncounted (a ++ [x]) = uncounted a - 1 := by
    rw [uncounted_snoc, hhist, hact]
    rfl
  have hfailures : failuresSince (a ++ [x]) = failuresSince a := by
    rw [failuresSince_snoc, hact]
    rfl
  obtain ⟨hlasting, hnonneg, hroom, hcovered⟩ := h
  have hpost : Function.update x.pre key (some ⟨x.pre.value key + 1, some (x.env.now + ttl * 1000)⟩) =
    x.post := by
    have hrun := hx.handle hact
    rw [incrExpire_eq hf httl (by omega) (by omega), hcounter] at hrun
    exact (Prod.mk.inj hrun).2
  have hvalue : x.post.value key = x.pre.value key + 1 := by
    rw [← hpost]
    exact Store.value_of_eq_some (Function.update_self key _ _)
  refine ⟨?_, by omega, by omega, by omega⟩
  rw [← hpost, Function.update_self]
  intro c hc
  cases hc
  exact ⟨_, rfl, hdue⟩

theorem LoginInv.succeed {reply deleted : Except GoString ℤ} (h : LoginInv M key due a x.pre)
    (hx : x.Valid handle) (hf : x.env.fault = none) (hact : x.act = ⟨.del key, deleted⟩)
    (hhist : history x.caller a = [⟨.get key, reply⟩, ⟨.next, (200 : ℤ)⟩]) (hcare : failuresSince a = 0) :
    LoginInv M key due (a ++ [x]) x.post := by
  have hpending : pending M (a ++ [x]) = pending M a - 1 := by
    rw [pending_snoc, hhist, hact]
    rfl
  have hfailures : failuresSince (a ++ [x]) = failuresSince a := by
    rw [failuresSince_snoc, hact]
    rfl
  have huncounted : 0 ≤ uncounted (a ++ [x]) := uncounted_nonneg
  have hpost : Function.update x.pre key none = x.post := by
    have hrun := hx.handle hact
    rw [handle_del hf] at hrun
    exact (Prod.mk.inj hrun).2
  have hnone : x.post key = none := by rw [← hpost, Function.update_self]
  have hvalue : x.post.value key = 0 := by
    unfold Store.value
    rw [hnone]
    rfl
  obtain ⟨hlasting, hnonneg, hroom, hcovered⟩ := h
  refine ⟨?_, by omega, by omega, by omega⟩
  rw [hnone]
  intro c hc
  cases hc

theorem LoginInv.step (h : LoginInv M key due a x.pre) (hx : x.Valid handle)
    (hop : LoginOp M key ttl (history x.caller a) x.act) (hf : x.env.fault = none) (hnow : x.env.now < due)
    (httl : ValidTTL ttl) (hdue : due ≤ x.env.now + ttl * 1000) (hM : M < 2 ^ 63)
    (hcare : UnhurriedStep M a x) : LoginInv M key due (a ++ [x]) x.post := by
  generalize hhist : history x.caller a = es at hop
  generalize hact : x.act = y at hop
  unfold UnhurriedStep at hcare
  rw [hact] at hcare
  cases hop with
  | get reply => exact h.get hx hf hnow hact hhist hcare
  | next hpass status => exact h.next hx hact hhist hpass
  | fail hpass => exact h.fail hx hf hnow httl hdue hM hact hhist
  | succeed hpass deleted => exact h.succeed hx hf hact hhist hcare

end Step

/-- Any number of login requests from one address. -/
def loginWorld (maxAttempts window : Int64) (ip : GoString) (s : Store GoString) (sched : List (ι × Env)) :
    Config ι Op Reply Env (Store GoString) Response :=
  (Config.start (fun _ => loginRateLimit true maxAttempts window ip) s).run handle sched

/-- A run within one window that starts at `T`, in which all commands succeed. -/
structure InWindow (window : Int64) (T : ℤ) (log : List (Event ι)) : Prop where
  faultless : ∀ x ∈ log, x.env.fault = none
  start : ∀ x ∈ log, T ≤ x.env.now
  finish : ∀ x ∈ log, x.env.now < T + formatSec window * 1000

theorem loginInv_of_exec {maxAttempts window : Int64} (hM : 1 ≤ maxAttempts.toInt) {ip : GoString}
    {s : Store GoString} (hs : s (loginKey ip) = none)
    {w : Config ι Op Reply Env (Store GoString) Response}
    (hsound : w.Sound handle (fun _ => loginRateLimit true maxAttempts window ip) s) {T : ℤ}
    (hwindow : InWindow window T w.log) (hcare : Unhurried maxAttempts.toInt w.log)
    {l b : List (Event ι)} (hl : w.log = l ++ b) {u : Store GoString} (hexec : Exec handle s l u) :
    LoginInv maxAttempts.toInt (loginKey ip) (T + formatSec window * 1000) l u := by
  refine hexec.invariant_within
    (P := LoginInv maxAttempts.toInt (loginKey ip) (T + formatSec window * 1000)) hl ?_ ?_
  · have hvalue : s.value (loginKey ip) = 0 := by
      unfold Store.value
      rw [hs]
      rfl
    have hpending : pending maxAttempts.toInt ([] : List (Event ι)) = 0 := rfl
    have huncounted : uncounted ([] : List (Event ι)) = 0 := rfl
    have hfailures : failuresSince ([] : List (Event ι)) = 0 := rfl
    refine ⟨?_, by omega, by omega, by omega⟩
    rw [hs]
    intro c hc
    cases hc
  · intro a x b' hlog hx ih
    have hmem : x ∈ w.log := mem_of_split hlog
    have hpath := hsound.path_split hlog
    have hstart := hwindow.start x hmem
    have hfinish := hwindow.finish x hmem
    have httl : ValidTTL (formatSec window) := ⟨by omega, formatSec_le window⟩
    exact ih.step hx (LoginOp.of_path hpath) (hwindow.faultless x hmem) hfinish httl (by omega)
      (Int64.toInt_lt maxAttempts) (hcare a x _ hlog)

/-- Within one window, with no failure counted at first: in every unhurried run at most `maxAttempts`
requests are answered 401 with no answer 200 between them. -/
theorem loginRateLimit_failuresBounded (maxAttempts window : Int64) (hM : 1 ≤ maxAttempts.toInt)
    (ip : GoString) (s : Store GoString) (hs : s (loginKey ip) = none) (sched : List (ι × Env)) (T : ℤ)
    (hwindow : InWindow window T (loginWorld maxAttempts window ip s sched).log)
    (hcare : Unhurried maxAttempts.toInt (loginWorld maxAttempts window ip s sched).log) :
    FailuresBounded maxAttempts.toInt (loginWorld maxAttempts window ip s sched).log := by
  have hsound : Config.Sound handle (fun _ => loginRateLimit true maxAttempts window ip) s
      (loginWorld maxAttempts window ip s sched) := Config.run_sound _ _ _ _
  intro a m b hl hm
  rw [← List.append_assoc] at hl
  have hexec := hsound.exec
  rw [hl] at hexec
  obtain ⟨u, hpre, -⟩ := hexec.of_append
  have hle := (loginInv_of_exec hM hs hsound hwindow hcare hl hpre).failures_le
  rw [failuresSince_append hm] at hle
  omega

/-- The steps of the requests, at second 0, with the statuses that the handlers answer. -/
def steps (l : List (ℕ × ℤ)) : List (ℕ × Env) := l.map fun m => (m.1, ⟨0, none, m.2⟩)

/-- Three requests one after another, with two attempts allowed in 15 minutes: two fail, and the third is
refused. -/
def sequential : List (Event ℕ) := (loginWorld 2 900000000000 (lit "192.0.2.1") (fun _ => none)
  (steps [(0, 401), (0, 401), (0, 401), (1, 401), (1, 401), (1, 401), (2, 401)])).log

theorem sequential_failuresBounded : failuresSince sequential = 2 ∧ FailuresBounded 2 sequential :=
  ⟨by decide +kernel, loginRateLimit_failuresBounded 2 900000000000 (by decide) _ _ rfl _ 0
    ⟨by decide +kernel, by decide +kernel, by decide +kernel⟩ (by decide +kernel)⟩

/-- Two requests that both pass the check before either is answered, with one attempt allowed. -/
def overlapping : List (Event ℕ) := (loginWorld 1 900000000000 (lit "192.0.2.1") (fun _ => none)
  (steps [(0, 401), (1, 401), (0, 401), (1, 401)])).log

theorem overlapping_not_failuresBounded : ¬ FailuresBounded 1 overlapping := by
  intro h
  have hle := h [] overlapping [] (by rw [List.append_nil, List.nil_append]) (by decide +kernel)
  exact absurd hle (by decide +kernel)

end SynapseGo.Middleware.LoginRate
