import SynapseGo.Concurrency.Accounting
import SynapseGo.RateLimit.Counters
import SynapseGo.RateLimit.Slots

/-! Admission in one minute of one identity. Between the check script and the roll-back a request
counts without being admitted, so the counters are sums over the requests in force. -/
namespace SynapseGo.RateLimit
open SynapseGo.Go SynapseGo.Concurrency SynapseGo.Redis Limiter

variable {ι : Type}

/-- The requests of `p` have the limits `L`, which are exact as doubles, and count no negative tokens. -/
structure Regime (requests : ι → Request) (p : GoString) (L : RateLimits) : Prop where
  limits : ∀ i, (requests i).owner = p → (requests i).limits = L
  tokens : NonnegTokens requests p
  rpm_nonneg : 0 ≤ L.rpm.toInt
  rpm_lt : L.rpm.toInt < 2 ^ 53
  tpm_nonneg : 0 ≤ L.tpm.toInt
  tpm_lt : L.tpm.toInt < 2 ^ 53

theorem Regime.limit_bounds {requests : ι → Request} {p : GoString} {m : ℤ} {L : RateLimits}
    (hreg : Regime requests p L) {i : ι} (hi : (requests i).owner = p) {k : Key}
    (hk : k ∈ minuteCounters p m) : 0 ≤ (requests i).limit k ∧ (requests i).limit k < 2 ^ 53 := by
  simp only [minuteCounters, List.mem_cons, List.not_mem_nil, or_false] at hk
  rcases hk with rfl | rfl
  · show 0 ≤ (requests i).limits.rpm.toInt ∧ (requests i).limits.rpm.toInt < 2 ^ 53
    rw [hreg.limits i hi]
    exact ⟨hreg.rpm_nonneg, hreg.rpm_lt⟩
  · show 0 ≤ (requests i).limits.tpm.toInt ∧ (requests i).limits.tpm.toInt < 2 ^ 53
    rw [hreg.limits i hi]
    exact ⟨hreg.tpm_nonneg, hreg.tpm_lt⟩

variable [DecidableEq ι]

/-- The requests of `p` whose increment took effect in minute `m` and was not rolled back. -/
def requestsInForce (p : GoString) (m : ℤ) (log : List (Event ι)) : ℤ :=
  total (fun _ es => if inForce (.rpm p m) es then 1 else 0) log

/-- The sum of their estimates, by the token counter. -/
def tokensInForce (requests : ι → Request) (p : GoString) (m : ℤ) (log : List (Event ι)) : ℤ :=
  total (fun i es => if inForce (.tpm p m) es then (requests i).estimatedTokens.toInt else 0) log

/-- `CheckPreRequest` of call `i` has allowed a request of `p` in minute `m`. -/
def Admitted (l : Limiter) (requests : ι → Request) (p : GoString) (m : ℤ) (log : List (Event ι)) (i : ι) :
    Prop :=
  (requests i).owner = p ∧ ∃ es rest res, history i log = es ++ rest ∧
    (l.checkPreRequest (requests i).identity (requests i).limits (requests i).estimatedTokens).Returns es
      res ∧
    res.allowed = true ∧ res.minuteKey = m

/-- What one operation does to the counter `k`, at the time of the operation. -/
def effectOn (k : Key) (x : Event ι) : ℤ :=
  x.post.counter x.env.redisNow k - x.pre.counter x.env.redisNow k

/-- The accounting of minute `m` for `p` in the state `c` at time `now`. -/
structure AdmissionExact (l : Limiter) (requests : ι → Request) (p : GoString) (m : ℤ) (L : RateLimits)
    (now : ℤ) (c : Config ι Command Reply Env Keys CheckResult) : Prop where
  requests_eq : c.store.counter now (.rpm p m) = requestsInForce p m c.log
  requests_le : requestsInForce p m c.log ≤ L.rpm.toInt
  admitted_le : ∀ S : Finset ι, (∀ i ∈ S, Admitted l requests p m c.log i) → (S.card : ℤ) ≤ L.rpm.toInt
  tokens_eq : (∀ i, (requests i).owner = p → (requests i).tracks = false) →
    c.store.counter now (.tpm p m) = tokensInForce requests p m c.log
  tokens_le : (∀ i, (requests i).owner = p → (requests i).tracks = false) →
    tokensInForce requests p m c.log ≤ L.tpm.toInt
  denied_net : ∀ i res, c.Returned i res → (requests i).owner = p → res.minuteKey = m → res.allowed = false →
    ∀ k ∈ [.rpm p m, .tpm p m, .conc p], netEffect (effectOn k) i c.log = 0

section
variable {l : Limiter} {requests : ι → Request} {p : GoString} {m : ℤ} {L : RateLimits} {s₀ : Keys}
  {sched : List (ι × Env)}

/-- The counters are sums, the request counter is within its limit, and no script has failed. -/
structure CountInv (requests : ι → Request) (p : GoString) (m : ℤ) (L : RateLimits) (log : List (Event ι))
    (s : Keys) : Prop where
  sum : ∀ k ∈ minuteCounters p m, s.value k = total (ledger requests k) log
  rpm_le : s.value (.rpm p m) ≤ L.rpm.toInt
  tpm_lt : s.value (.tpm p m) < 2 ^ 63
  tpm_le : (∀ i, (requests i).owner = p → (requests i).tracks = false) → s.value (.tpm p m) ≤ L.tpm.toInt
  sane : ∀ y ∈ log, ∀ t text, (requests y.caller).owner = p → minuteOf t = m →
    y.act ≠ (requests y.caller).checkAct t (.error text)

theorem CountInv.nonneg {a : List (Event ι)} {s : Keys} (h : CountInv requests p m L a s)
    (hreg : Regime requests p L) (ha : a ⊆ (world l requests s₀ sched).log) {k : Key}
    (hk : k ∈ minuteCounters p m) : 0 ≤ s.value k := by
  rw [h.sum k hk]
  exact total_nonneg (ledger_nonneg hreg.tokens ha hk)

/-- The operation `x` of a run, after the log `a`: without a fault, on unexpired counters. -/
structure QuietStep (l : Limiter) (requests : ι → Request) (p : GoString) (m : ℤ) (s₀ : Keys)
    (sched : List (ι × Env)) (a : List (Event ι)) (x : Event ι) : Prop where
  log : ∃ b, (world l requests s₀ sched).log = a ++ x :: b
  valid : x.Valid handle
  faultless : x.env.fault = none
  live : ∀ k ∈ minuteCounters p m, ∀ c ∈ x.pre k, c.alive x.env.redisNow = true

section Step
variable {a : List (Event ι)} {x : Event ι} {k : Key}

theorem QuietStep.subset (hq : QuietStep l requests p m s₀ sched a x) :
    a ⊆ (world l requests s₀ sched).log := by
  obtain ⟨b, hl⟩ := hq.log
  rw [hl]
  exact List.subset_append_left _ _

theorem QuietStep.op (hq : QuietStep l requests p m s₀ sched a x) :
    RequestOp (requests x.caller) (history x.caller a) x.act := by
  obtain ⟨b, hl⟩ := hq.log
  exact requestOp_of_log hl

theorem QuietStep.counter (hq : QuietStep l requests p m s₀ sched a x) (hk : k ∈ minuteCounters p m) :
    x.pre.counter x.env.redisNow k = x.pre.value k := Store.counter_eq_value (hq.live k hk)

/-- A check that passes adds at most what is left. -/
theorem CountInv.le_of_room (h : CountInv requests p m L a x.pre) (hreg : Regime requests p L)
    (hq : QuietStep l requests p m s₀ sched a x) (hk : k ∈ minuteCounters p m) {i : ι}
    (hi : (requests i).owner = p) (hroom : ¬ ((requests i).quota k).Exceeded x.env.redisNow x.pre) :
    0 ≤ x.pre.counter x.env.redisNow k ∧
      x.pre.counter x.env.redisNow k + (requests i).amount k ≤ (requests i).limit k := by
  have hcounter : 0 ≤ x.pre.counter x.env.redisNow k := by
    rw [hq.counter hk]
    exact h.nonneg hreg hq.subset hk
  obtain ⟨hlim₀, hlim⟩ := hreg.limit_bounds hi hk
  exact ⟨hcounter, (Quota.not_exceeded_iff hcounter (hreg.tokens.amount_nonneg hi k).1 hlim₀ hlim).mp hroom⟩

theorem CountInv.sane_step (h : CountInv requests p m L a x.pre) (hreg : Regime requests p L)
    (hq : QuietStep l requests p m s₀ sched a x) {t : ℤ} {text : GoString}
    (hi : (requests x.caller).owner = p) (ht : minuteOf t = m) :
    x.act ≠ (requests x.caller).checkAct t (.error text) := by
  intro hact
  obtain ⟨k, hk, hroom, hfit⟩ := Event.check_faultless hq.valid hq.faultless hact
  have hk' : k ∈ minuteCounters p m := by
    rw [← hi, ← ht]
    exact hk
  obtain ⟨hcounter, hle⟩ := h.le_of_room hreg hq hk' hi hroom
  exact hfit (Quota.fits_of_le hcounter (hreg.tokens.amount_nonneg hi k).1 (hreg.limit_bounds hi hk').2 hle)

theorem CountInv.countStep (h : CountInv requests p m L a x.pre) (hreg : Regime requests p L)
    (hq : QuietStep l requests p m s₀ sched a x) (hk : k ∈ minuteCounters p m) :
    CountStep x (requests x.caller) k (history x.caller a) := by
  refine CountStep.of_op hq.valid ?_ ?_ hq.op
  · rintro q rfl
    simp [minuteCounters] at hk
  · intro t text hact
    by_cases hmem : k ∈ (requests x.caller).counters (minuteOf t)
    · obtain ⟨hi, ht⟩ := eq_of_mem_counters hk hmem
      exact absurd hact (h.sane_step hreg hq hi ht)
    · exact Event.check_frame hq.valid hact hmem

/-- The standing of the caller carries the counter. -/
theorem CountInv.value_eq (h : CountInv requests p m L a x.pre) (hreg : Regime requests p L)
    (hq : QuietStep l requests p m s₀ sched a x) (hk : k ∈ minuteCounters p m) :
    x.post.value k - x.pre.value k = ledgerChange requests k x (history x.caller a) := by
  have howner : ∀ m', k = .tpm (requests x.caller).owner m' → (requests x.caller).owner = p := by
    intro m' hm'
    have hmem : k ∈ (requests x.caller).counters m' := by simp [Request.counters, hm']
    exact (eq_of_mem_counters hk hmem).1
  have hstep := (h.countStep hreg hq hk).ledgerStep (hq.live k hk)
  refine (hstep.value_iff hreg.tokens howner).mpr ⟨?_, ?_⟩
  · intro hinc
    obtain ⟨m', hm'⟩ := hq.op.counters_of_increments hinc
    have hi := (eq_of_mem_counters hk hm').1
    cases hstep with
    | even hinc' => simp [hinc] at hinc'
    | adjusted _ _ _ hinc' => simp [hinc] at hinc'
    | counted _ _ hroom =>
      obtain ⟨hcounter, hle⟩ := h.le_of_room hreg hq hk hi hroom
      have hlim := (hreg.limit_bounds hi hk).2
      have hamount := (hreg.tokens.amount_nonneg hi k).1
      exact roundDouble_of_natAbs_le (by omega)
  · intro hcorr
    rcases hq.op.inForce_of_corrects hcorr with hin | ⟨t, text, hkt, hes⟩
    · exact hin
    · have hmem : k ∈ (requests x.caller).counters (minuteOf t) := by simp [Request.counters, hkt]
      obtain ⟨hi, ht⟩ := eq_of_mem_counters hk hmem
      have hcheck : (requests x.caller).checkAct t (.error text) ∈ history x.caller a := by simp [hes]
      obtain ⟨y, hy, hcaller, hact⟩ := mem_history.mp hcheck
      rw [← hcaller] at hi hact
      exact absurd hact (h.sane y hy t text hi ht)

/-- Only a correction can lift a counter above a bound that holds for its limit. -/
theorem CountInv.value_le (h : CountInv requests p m L a x.pre) (hreg : Regime requests p L)
    (hq : QuietStep l requests p m s₀ sched a x) (hk : k ∈ minuteCounters p m) {B : ℤ}
    (hpre : x.pre.value k ≤ B) (hlimit : ∀ i, (requests i).owner = p → (requests i).limit k ≤ B)
    (hadjust : ∀ m', k = .tpm (requests x.caller).owner m' → (requests x.caller).tracks = true →
      x.post.value k < 2 ^ 63 → x.post.value k ≤ B) : x.post.value k ≤ B := by
  have hcounter := hq.counter hk
  cases h.countStep hreg hq hk with
  | other hpost =>
    unfold Store.value at hpre ⊢
    rw [hpost]
    exact hpre
  | counted hk' hinc hcor hbefore hafter hplain hroom hpost =>
    have hi := (eq_of_mem_counters hk hk').1
    obtain ⟨hpos, hle⟩ := h.le_of_room hreg hq hk hi hroom
    have hexact : roundDouble ((requests x.caller).amount k) = (requests x.caller).amount k := by
      have hlim := (hreg.limit_bounds hi hk).2
      have hamount := (hreg.tokens.amount_nonneg hi k).1
      exact roundDouble_of_natAbs_le (by omega)
    rw [Store.value_of_eq_some hpost]
    show x.pre.counter x.env.redisNow k + roundDouble ((requests x.caller).amount k) ≤ B
    rw [hexact]
    exact hle.trans (hlimit _ hi)
  | rolledBack hk' hinc hroll hcor hbefore hplain hpost =>
    have hi := (eq_of_mem_counters hk hk').1
    have hamount := (hreg.tokens.amount_nonneg hi k).1
    rw [Store.value_of_eq_some hpost]
    show x.pre.counter x.env.redisNow k - (requests x.caller).amount k ≤ B
    omega
  | adjusted hfin hne hk' hinc hroll hcor hplain hlt hpost =>
    have htracks : (requests x.caller).tracks = true := by
      unfold Request.tracks
      rw [hfin]
    refine hadjust _ hk' htracks ?_
    rw [Store.value_of_eq_some hpost]
    exact hlt

theorem CountInv.step (h : CountInv requests p m L a x.pre) (hreg : Regime requests p L)
    (hq : QuietStep l requests p m s₀ sched a x) : CountInv requests p m L (a ++ [x]) x.post := by
  have hrpm : Key.rpm p m ∈ minuteCounters p m := List.mem_cons_self
  have htpm : Key.tpm p m ∈ minuteCounters p m := List.mem_cons_of_mem _ List.mem_cons_self
  refine ⟨?_, ?_, ?_, ?_, ?_⟩
  · intro k hk
    exact sum_snoc (h.sum k hk) (h.value_eq hreg hq hk)
  · refine h.value_le hreg hq hrpm h.rpm_le ?_ ?_
    · intro i hi
      exact (congrArg (fun limits => limits.rpm.toInt) (hreg.limits i hi)).le
    · intro m' hm'
      cases hm'
  · have hle : x.post.value (.tpm p m) ≤ 2 ^ 63 - 1 := by
      refine h.value_le hreg hq htpm (by have := h.tpm_lt; omega) ?_ ?_
      · intro i hi
        have := (hreg.limit_bounds hi htpm).2
        omega
      · intro m' hm' htracks hlt
        omega
    omega
  · intro hquiet
    refine h.value_le hreg hq htpm (h.tpm_le hquiet) ?_ ?_
    · intro i hi
      exact (congrArg (fun limits => limits.tpm.toInt) (hreg.limits i hi)).le
    · intro m' hm' htracks
      rw [hquiet x.caller (Key.tpm.inj hm').1.symm] at htracks
      cases htracks
  · intro y hy t text hi ht
    rcases List.mem_append.mp hy with hy | hy
    · exact h.sane y hy t text hi ht
    · rw [List.mem_singleton] at hy
      subst hy
      exact h.sane_step hreg hq hi ht

end Step

theorem CountInv.init (hreg : Regime requests p L) {s : Keys} (hs : ∀ k ∈ minuteCounters p m, s k = none) :
    CountInv requests p m L [] s := by
  have hvalue : ∀ k ∈ minuteCounters p m, s.value k = 0 := by
    intro k hk
    unfold Store.value
    rw [hs k hk]
    rfl
  have hrpm := hvalue (.rpm p m) List.mem_cons_self
  have htpm := hvalue (.tpm p m) (List.mem_cons_of_mem _ List.mem_cons_self)
  refine ⟨hvalue, ?_, ?_, ?_, ?_⟩
  · rw [hrpm]
    exact hreg.rpm_nonneg
  · rw [htpm]
    decide
  · intro _
    rw [htpm]
    exact hreg.tpm_nonneg
  · intro y hy
    cases hy

/-- The run has no faults, and the counters of minute `m` start absent and do not expire. -/
structure QuietRun (l : Limiter) (requests : ι → Request) (p : GoString) (m : ℤ) (s₀ : Keys)
    (sched : List (ι × Env)) : Prop where
  fresh : ∀ k ∈ minuteCounters p m, s₀ k = none
  faultless : ∀ x ∈ (world l requests s₀ sched).log, x.env.fault = none
  live : ∀ x ∈ (world l requests s₀ sched).log, ∀ k ∈ minuteCounters p m, ∀ c ∈ x.pre k,
    c.alive x.env.redisNow = true

theorem QuietRun.step (hrun : QuietRun l requests p m s₀ sched) {a b : List (Event ι)} {x : Event ι}
    (hl : (world l requests s₀ sched).log = a ++ x :: b) : QuietStep l requests p m s₀ sched a x := by
  have hx : x ∈ (world l requests s₀ sched).log := mem_of_split hl
  exact ⟨⟨b, hl⟩, (world_sound l requests s₀ sched).exec.valid hx, hrun.faultless x hx, hrun.live x hx⟩

theorem QuietRun.countInv (hrun : QuietRun l requests p m s₀ sched) (hreg : Regime requests p L)
    {a b : List (Event ι)} {s : Keys} (hl : (world l requests s₀ sched).log = a ++ b)
    (hexec : Exec handle s₀ a s) : CountInv requests p m L a s := by
  apply hexec.invariant_within hl (CountInv.init hreg hrun.fresh)
  intro a₁ x b₁ hlog hx hinv
  exact hinv.step hreg (hrun.step hlog)

theorem QuietRun.countInv_pre (hrun : QuietRun l requests p m s₀ sched) (hreg : Regime requests p L)
    {a b : List (Event ι)} {x : Event ι} (hl : (world l requests s₀ sched).log = a ++ x :: b) :
    CountInv requests p m L a x.pre := by
  have hexec := (world_sound l requests s₀ sched).exec
  rw [hl] at hexec
  exact hrun.countInv hreg hl hexec.split.1

theorem QuietRun.countInv_final (hrun : QuietRun l requests p m s₀ sched) (hreg : Regime requests p L) :
    CountInv requests p m L (world l requests s₀ sched).log (world l requests s₀ sched).store :=
  hrun.countInv hreg (List.append_nil _).symm (world_sound l requests s₀ sched).exec

/-- A request that is admitted stays in force. -/
theorem QuietRun.inForce_of_admitted (hrun : QuietRun l requests p m s₀ sched) (hreg : Regime requests p L)
    (hl : l.connected = true) {i : ι}
    (h : Admitted l requests p m (world l requests s₀ sched).log i) :
    inForce (.rpm p m) (history i (world l requests s₀ sched).log) = true := by
  obtain ⟨rfl, es, rest, res, hhist, hret, hallowed, rfl⟩ := h
  have hmem : ∀ y ∈ es, y ∈ history i (world l requests s₀ sched).log := by
    intro y hy
    rw [hhist]
    exact List.mem_append_left _ hy
  cases Checked.of_returns hl hret with
  | limited t hpass t' => cases hallowed
  | full t hpass rpm tpm => cases hallowed
  | uncounted t text =>
    obtain ⟨x, hx, rfl, hact⟩ := mem_history.mp (hmem ((requests i).checkAct t (.error text)) (by simp))
    exact absurd hact ((hrun.countInv_final hreg).sane x hx t text rfl rfl)
  | @admitted t result hpass acquired hne =>
    have hlater : ∀ y ∈ rest, increments (.rpm (requests i).owner (minuteOf t)) y = false ∧
        rollsBack (.rpm (requests i).owner (minuteOf t)) y = false := by
      intro y hy
      obtain ⟨r₁, r₂, rfl⟩ := List.append_of_mem hy
      have hpath := (world_sound l requests s₀ sched).path i
      rw [hhist, ← List.append_assoc] at hpath
      rcases (RequestOp.of_path hpath).after_admission hne with ⟨_, rfl⟩ | ⟨_, _, _, rfl⟩
      · exact ⟨rfl, rfl⟩
      · exact ⟨rfl, rfl⟩
    rw [hhist]
    exact inForce_admitted List.mem_cons_self hpass hlater

/-- The check history of a denied request leaves it without standing, if its roll-backs took effect. -/
theorem not_inForce_of_denied {r : Request} {es : List Act} {res : CheckResult} (h : Checked r es res)
    (hdenied : res.allowed = false) {k : Key} (hk : k ∈ r.counters res.minuteKey)
    (hroll : ∀ k' ∈ r.counters res.minuteKey, ∀ text, ⟨.decrBy k' (r.amount k'), .error text⟩ ∉ es) :
    inForce k es = false := by
  cases h with
  | uncounted t text => cases hdenied
  | admitted t hpass hne => cases hdenied
  | limited t hpass t' =>
    unfold inForce
    rw [List.any_cons, List.any_cons, increments_check, decide_eq_false hpass]
    simp [increments]
  | full t hpass rpm tpm =>
    have hrpm : ∃ v, rpm = .ok v := by
      cases rpm with
      | ok v => exact ⟨v, rfl⟩
      | error text =>
        exact absurd (by simp [Request.amount]) (hroll (.rpm r.owner (minuteOf t)) List.mem_cons_self text)
    have htpm : ∃ v, tpm = .ok v := by
      cases tpm with
      | ok v => exact ⟨v, rfl⟩
      | error text =>
        exact absurd (by simp [Request.amount])
          (hroll (.tpm r.owner (minuteOf t)) (List.mem_cons_of_mem _ List.mem_cons_self) text)
    obtain ⟨v, rfl⟩ := hrpm
    obtain ⟨w, rfl⟩ := htpm
    refine (inForce_passed hpass rfl).trans ?_
    simp only [Request.counters, List.mem_cons, List.not_mem_nil, or_false] at hk
    rcases hk with rfl | rfl <;> simp [rollsBack, noSlot]

/-- Without faults every roll-back takes effect. -/
theorem QuietRun.rollback_ok (hrun : QuietRun l requests p m s₀ sched) (hreg : Regime requests p L)
    {x : Event ι} (hx : x ∈ (world l requests s₀ sched).log) (hi : (requests x.caller).owner = p) {k : Key}
    (hk : k ∈ minuteCounters p m) {text : GoString} :
    x.act ≠ ⟨.decrBy k ((requests x.caller).amount k), .error text⟩ := by
  intro hact
  obtain ⟨a, b, hl⟩ := List.append_of_mem hx
  have hq := hrun.step hl
  have hinv := hrun.countInv_pre hreg hl
  have hamount := (hreg.tokens.amount_nonneg hi k).1
  have hover := Event.decrBy_faultless hq.valid hq.faultless hamount hact
  have hnonneg := hinv.nonneg hreg hq.subset hk
  rw [hq.counter hk] at hover
  have hrpm := hinv.rpm_le
  have htpm := hinv.tpm_lt
  have hlt := hreg.rpm_lt
  have hest := Int64.toInt_lt (requests x.caller).estimatedTokens
  simp only [minuteCounters, List.mem_cons, List.not_mem_nil, or_false] at hk
  rcases hk with rfl | rfl
  · simp only [Request.amount] at hover
    omega
  · simp only [Request.amount] at hover hamount
    omega

/-- Over a whole request, its operations change a counter by its standing in the end. -/
theorem QuietRun.netEffect_eq_ledger (hrun : QuietRun l requests p m s₀ sched) (hreg : Regime requests p L)
    {k : Key} (hk : k ∈ minuteCounters p m) (i : ι) :
    netEffect (effectOn k) i (world l requests s₀ sched).log =
      ledger requests k i (history i (world l requests s₀ sched).log) := by
  refine (netEffect_eq (f := ledger requests k i) ?_).trans (sub_zero _)
  intro a x b hl hi
  subst hi
  have hq := hrun.step hl
  have hinv := hrun.countInv_pre hreg hl
  have hpost := Store.counter_eq_value ((hinv.countStep hreg hq hk).alive_post (hq.live k hk))
  unfold effectOn
  rw [hpost, hq.counter hk]
  exact hinv.value_eq hreg hq hk

theorem QuietRun.netEffect_counter (hrun : QuietRun l requests p m s₀ sched) (hreg : Regime requests p L)
    {i : ι} (hi : (requests i).owner = p) {res : CheckResult} (hm : res.minuteKey = m)
    (hchecked : Checked (requests i) (history i (world l requests s₀ sched).log) res)
    (hdenied : res.allowed = false) {k : Key} (hk : k ∈ minuteCounters p m) :
    netEffect (effectOn k) i (world l requests s₀ sched).log = 0 := by
  subst hi hm
  have hforce : inForce k (history i (world l requests s₀ sched).log) = false := by
    refine not_inForce_of_denied hchecked hdenied hk ?_
    intro k' hk' text hmem
    obtain ⟨x, hx, rfl, hact⟩ := mem_history.mp hmem
    exact hrun.rollback_ok hreg hx rfl hk' hact
  rw [hrun.netEffect_eq_ledger hreg hk]
  unfold ledger
  rw [hforce]
  rfl

/-- A request that never acquired a slot leaves the slots alone. -/
theorem netEffect_conc {i : ι} {q : GoString}
    (h : (history i (world l requests s₀ sched).log).any (acquires q) = false) :
    netEffect (effectOn (.conc q)) i (world l requests s₀ sched).log = 0 := by
  refine (netEffect_eq (f := fun _ => 0) ?_).trans (sub_zero 0)
  intro a x b hl hi
  subst hi
  have hnone : (history x.caller a ++ [x.act]).any (acquires q) = false := by
    rw [hl, history_append, history_cons_self, List.any_append, List.any_cons, ← Bool.or_assoc,
      Bool.or_eq_false_iff] at h
    rw [List.any_append, List.any_cons, List.any_nil, Bool.or_false]
    exact h.1
  have hfree : ∀ es : List Act, es.any (acquires q) = false → heldSlots q es = 0 := by
    intro es hes
    unfold heldSlots
    rw [hes]
    rfl
  have hvalid := (world_sound l requests s₀ sched).exec.valid (mem_of_split hl)
  unfold effectOn
  rw [sub_self]
  cases SlotStep.of_op (p := q) hvalid (fun _ => rfl) (requestOp_of_log hl) with
  | other hpost => rw [Store.counter_congr hpost, sub_self]
  | acquired hbefore hafter =>
    rw [hfree _ hnone] at hafter
    cases hafter
  | released hacq hbefore =>
    rw [List.any_append, Bool.or_eq_false_iff] at hnone
    rw [hfree _ hnone.1] at hbefore
    cases hbefore

theorem not_acquired_of_denied {r : Request} {es : List Act} {res : CheckResult} (h : Checked r es res)
    (hdenied : res.allowed = false) (q : GoString) : es.any (acquires q) = false := by
  cases h with
  | uncounted t text => cases hdenied
  | admitted t hpass hne => cases hdenied
  | limited t hpass t' => rfl
  | full t hpass rpm tpm => simp [acquires]

/-- The request counter's ledger counts the requests in force. -/
theorem total_ledger_rpm (requests : ι → Request) (p : GoString) (m : ℤ) (log : List (Event ι)) :
    total (ledger requests (.rpm p m)) log = requestsInForce p m log := by
  apply total_congr
  intro i
  simp [ledger, Request.settled, Request.amount]

/-- Without corrections the token counter's ledger is the sum of the estimates in force. -/
theorem total_ledger_tpm (hquiet : ∀ i, (requests i).owner = p → (requests i).tracks = false) :
    total (ledger requests (.tpm p m)) (world l requests s₀ sched).log =
      tokensInForce requests p m (world l requests s₀ sched).log := by
  apply total_congr
  intro i
  unfold ledger
  by_cases hin : inForce (.tpm p m) (history i (world l requests s₀ sched).log) = true
  · have hactual := (requests i).actual_of_not_tracks (hquiet i
      (owner_of_inForce (List.Subset.refl _) (List.mem_cons_of_mem _ List.mem_cons_self) hin))
    rw [if_pos hin, if_pos hin]
    simp [Request.settled, Request.amount, hactual]
  · rw [if_neg hin, if_neg hin]

end

/-- In a run without faults, in a minute whose keys do not expire, the counters are exactly the requests
in force and keep the limits, if these are below `2^53`. -/
theorem admission_exact (l : Limiter) (hl : l.connected = true) (requests : ι → Request) (p : GoString)
    (m : ℤ) (L : RateLimits) (hreg : Regime requests p L) (s₀ : Keys) (sched : List (ι × Env))
    (hrun : QuietRun l requests p m s₀ sched) (now : ℤ)
    (hnow : ∀ k ∈ minuteCounters p m, ∀ c ∈ (world l requests s₀ sched).store k, c.alive now = true) :
    AdmissionExact l requests p m L now (world l requests s₀ sched) := by
  have hinv := hrun.countInv_final hreg
  have hrpm : Key.rpm p m ∈ minuteCounters p m := List.mem_cons_self
  have htpm : Key.tpm p m ∈ minuteCounters p m := List.mem_cons_of_mem _ List.mem_cons_self
  have hrequests := total_ledger_rpm requests p m (world l requests s₀ sched).log
  refine ⟨?_, ?_, ?_, ?_, ?_, ?_⟩
  · rw [Store.counter_eq_value (hnow _ hrpm), hinv.sum _ hrpm, hrequests]
  · rw [← hrequests, ← hinv.sum _ hrpm]
    exact hinv.rpm_le
  · intro S hS
    calc (S.card : ℤ) ≤ requestsInForce p m (world l requests s₀ sched).log := by
          refine card_le_total (fun _ => rfl) (fun i => ?_) (fun i hi => ?_)
          · split_ifs <;> decide
          · rw [if_pos (hrun.inForce_of_admitted hreg hl (hS i hi))]
      _ = (world l requests s₀ sched).store.value (.rpm p m) := by rw [hinv.sum _ hrpm, hrequests]
      _ ≤ L.rpm.toInt := hinv.rpm_le
  · intro hquiet
    rw [Store.counter_eq_value (hnow _ htpm), hinv.sum _ htpm, total_ledger_tpm hquiet]
  · intro hquiet
    rw [← total_ledger_tpm hquiet, ← hinv.sum _ htpm]
    exact hinv.tpm_le hquiet
  · intro i res hret hi hm hdenied k hk
    have hchecked := Checked.of_denied hl ((world_sound l requests s₀ sched).returns hret) hdenied
    simp only [List.mem_cons, List.not_mem_nil, or_false] at hk
    rcases hk with rfl | rfl | rfl
    · exact hrun.netEffect_counter hreg hi hm hchecked hdenied hrpm
    · exact hrun.netEffect_counter hreg hi hm hchecked hdenied htpm
    · exact netEffect_conc (not_acquired_of_denied hchecked hdenied p)

/-- Three requests of one minute: one is admitted, one finds no slot, one is over the limit. -/
def rush : ℕ → Request := fun _ => ⟨sampleIdentity, ⟨2, 1000, 1⟩, 100, .leave⟩

def rushSchedule : List (ℕ × Env) :=
  ([0, 1, 0, 1, 2, 2, 0, 1, 2, 1, 1] : List ℕ).map fun i => (i, atSecond 7)

theorem rush_exact : AdmissionExact ⟨true⟩ rush (keyPrefix sampleIdentity) 0 ⟨2, 1000, 1⟩ 8000
    (world ⟨true⟩ rush (fun _ => none) rushSchedule) :=
  admission_exact ⟨true⟩ rfl rush (keyPrefix sampleIdentity) 0 ⟨2, 1000, 1⟩
    ⟨fun _ _ => rfl, fun _ _ => by unfold rush; decide, by decide, by decide, by decide, by decide⟩
      (fun _ => none)
    rushSchedule ⟨fun _ _ => rfl, by decide +kernel, by decide +kernel⟩ 8000 (by decide +kernel)

/-- The token limit `2^53` is used up, and one token more rounds back to it. -/
def roundedRequests : ℕ → Request := fun i =>
  ⟨sampleIdentity, ⟨10, 9007199254740992, 10⟩, if i = 0 then 9007199254740992 else 1, .leave⟩

def roundedSchedule : List (ℕ × Env) :=
  ([0, 0, 0, 1, 1, 1] : List ℕ).map fun i => (i, atSecond 7)

theorem rounded_not_exact :
    QuietRun ⟨true⟩ roundedRequests (keyPrefix sampleIdentity) 0 (fun _ => none) roundedSchedule ∧
      ¬ AdmissionExact ⟨true⟩ roundedRequests (keyPrefix sampleIdentity) 0 ⟨10, 9007199254740992, 10⟩ 8000
        (world ⟨true⟩ roundedRequests (fun _ => none) roundedSchedule) := by
  refine ⟨⟨fun _ _ => rfl, by decide +kernel, by decide +kernel⟩, fun h => ?_⟩
  have hle := h.tokens_le fun _ _ => rfl
  revert hle
  decide +kernel

end SynapseGo.RateLimit
