import SynapseGo.CircuitBreaker.Recovery

/-! The calls a half-open circuit lets through. `IsAvailable` keeps no count of them, so that their
number is bounded by the number of calls and by nothing else. -/
namespace SynapseGo.CircuitBreaker
open SynapseGo.Go SynapseGo.Concurrency

/-- Whether a call was `IsAvailable(k)` and returned true. -/
def admits (k : GoString) : (Σ op, Reply op) → Bool
  | ⟨.isAvailable key, reply⟩ => key = k && reply
  | _ => false

def admissions (k : GoString) (log : List Event) : ℕ := log.countP fun x => admits k x.act

def asks (k : GoString) (log : List Event) : ℕ := log.countP fun x => x.act.1 = .isAvailable k

/-- In `log`, the call `x` turns the circuit of `k` half-open and the calls `m` after it leave it so. -/
structure HalfOpenPeriod (k : GoString) (log : List Event) (x : Event) (m b : List Event) : Prop where
  within : ∃ a, log = a ++ x :: (m ++ b)
  starts : Probes k x
  stays : ∀ y ∈ m, (circuit y.post k).state = .stateHalfOpen

/-- In each half-open period at most `HalfOpenMaxRequests` calls return true. -/
def ProbesLimited (cfg : Config) (log : List Event) : Prop :=
  ∀ k x m b, HalfOpenPeriod k log x m b → (admissions k (x :: m) : ℤ) ≤ cfg.halfOpenMaxRequests.toInt

/-- No caller asks for a half-open circuit once `HalfOpenMaxRequests` have asked in the period. -/
def ProbesPaced (cfg : Config) (log : List Event) : Prop :=
  ∀ k x m y b, HalfOpenPeriod k log x m (y :: b) → y.act.1 = .isAvailable k →
    (asks k (x :: m) : ℤ) < cfg.halfOpenMaxRequests.toInt

section
variable {cfg : Config} {k : GoString} {log m b : List Event} {x y : Event}

/-- The state a run of calls ends in, where each of them leaves the circuit half-open. -/
theorem state_of_exec {s t : Circuits} (h : Exec (handle cfg) s m t)
    (hs : (circuit s k).state = .stateHalfOpen)
    (hm : ∀ y ∈ m, (circuit y.post k).state = .stateHalfOpen) :
    (circuit t k).state = .stateHalfOpen := by
  induction m generalizing s with
  | nil =>
    have : s = t := h
    subst t
    exact hs
  | cons y m ih =>
    obtain ⟨-, -, hrest⟩ := h
    apply ih hrest (hm y List.mem_cons_self)
    intro z hz
    exact hm z (List.mem_cons_of_mem y hz)

theorem HalfOpenPeriod.valid {s t : Circuits} (h : HalfOpenPeriod k log x m b)
    (hexec : Exec (handle cfg) s log t) : ∀ y ∈ x :: m, y.Valid (handle cfg) := by
  intro y hy
  apply hexec.valid
  obtain ⟨a, rfl⟩ := h.within
  apply List.mem_append_right
  rw [← List.cons_append]
  exact List.mem_append_left b hy

/-- A call on a half-open circuit is let through and leaves it half-open. -/
theorem halfOpen_admits (hy : y.Valid (handle cfg)) (hask : y.act.1 = .isAvailable k)
    (hpre : (circuit y.pre k).state = .stateHalfOpen) :
    (circuit y.post k).state = .stateHalfOpen := by
  rcases circuit_cases hy k with ⟨-, hpost⟩ | ⟨-, hopen, -⟩ | ⟨ha, -⟩ | ⟨ha, -⟩
  · rw [hpost, hpre]
  · rw [hpre] at hopen
    cases hopen
  · rw [ha] at hask
    cases hask
  · rw [ha] at hask
    cases hask

theorem admits_iff (hy : y.Valid (handle cfg)) (hpost : (circuit y.post k).state = .stateHalfOpen) :
    admits k y.act = true ↔ y.act.1 = .isAvailable k := by
  cases CircuitStep.of_valid hy k with
  | elsewhere hkey =>
    obtain ⟨op, reply, ha⟩ : ∃ op reply, y.act = ⟨op, reply⟩ := ⟨_, _, rfl⟩
    rw [ha] at hkey ⊢
    cases op with
    | isAvailable key =>
      have hne : key ≠ k := hkey
      simp [admits, hne]
    | recordSuccess key => simp [admits]
    | recordFailure key => simp [admits]
  | passed ha => simp [ha, admits]
  | probed ha => simp [ha, admits]
  | succeeded ha => simp [ha, admits]
  | failed ha => simp [ha, admits]
  | blocked _ hopen _ hsame =>
    rw [hsame, hopen] at hpost
    cases hpost

/-- Within a half-open period every call is let through. -/
theorem HalfOpenPeriod.admissions_eq {s t : Circuits} (h : HalfOpenPeriod k log x m b)
    (hexec : Exec (handle cfg) s log t) : admissions k (x :: m) = asks k (x :: m) := by
  apply List.countP_congr
  intro y hy
  have hpost : (circuit y.post k).state = .stateHalfOpen := by
    rcases List.mem_cons.mp hy with rfl | hm
    · exact h.starts.2.2
    · exact h.stays y hm
  rw [admits_iff (h.valid hexec y hy) hpost, decide_eq_true_eq]

theorem asks_snoc : asks k (log ++ [y]) = asks k log + if y.act.1 = .isAvailable k then 1 else 0 := by
  unfold asks
  rw [List.countP_append, List.countP_singleton]
  simp only [decide_eq_true_eq]

theorem HalfOpenPeriod.init (h : HalfOpenPeriod k log x (m ++ [y]) b) :
    HalfOpenPeriod k log x m (y :: b) := by
  obtain ⟨a, hlog⟩ := h.within
  refine ⟨⟨a, by rw [hlog, List.append_assoc, List.singleton_append]⟩, h.starts, ?_⟩
  intro z hz
  exact h.stays z (List.mem_append_left _ hz)

/-- A call for the half-open circuit belongs to the period. -/
theorem HalfOpenPeriod.snoc {s t : Circuits} (h : HalfOpenPeriod k log x m (y :: b))
    (hexec : Exec (handle cfg) s log t) (hask : y.act.1 = .isAvailable k) :
    HalfOpenPeriod k log x (m ++ [y]) b := by
  obtain ⟨a, hlog⟩ := h.within
  rw [hlog] at hexec
  obtain ⟨-, -, hrest⟩ := hexec.split
  obtain ⟨hm, hy, -⟩ := hrest.split
  have hpre := state_of_exec hm h.starts.2.2 h.stays
  refine ⟨⟨a, by rw [hlog, List.append_assoc, List.singleton_append]⟩, h.starts, ?_⟩
  intro z hz
  rcases List.mem_append.mp hz with hz | hz
  · exact h.stays z hz
  · rw [List.mem_singleton.mp hz]
    exact halfOpen_admits hy hask hpre

/-- Callers that keep the pace ask at most `HalfOpenMaxRequests` times in a period. -/
theorem ProbesPaced.asks_le (hcfg : cfg.Positive) (hp : ProbesPaced cfg log)
    (h : HalfOpenPeriod k log x m b) : (asks k (x :: m) : ℤ) ≤ cfg.halfOpenMaxRequests.toInt := by
  induction m using List.reverseRecOn generalizing b with
  | nil =>
    have hone : asks k ([] ++ [x]) = 0 + 1 := by
      have ha : x.act.1 = .isAvailable k := by rw [h.starts.1]
      rw [asks_snoc, if_pos ha]
      rfl
    rw [List.nil_append] at hone
    have : 0 < cfg.halfOpenMaxRequests.toInt := Int64.lt_iff_toInt_lt.mp hcfg.probes
    omega
  | append_singleton m y ih =>
    have hle := ih h.init
    rw [← List.cons_append, asks_snoc]
    split_ifs with hask
    · have hlt := hp k x m y b h.init hask
      omega
    · exact hle

end

/-- The probes of a half-open circuit stay within the limit exactly when no caller asks once the limit
is reached. -/
theorem probes_limited_iff_paced (cfg : Config) (hcfg : cfg.Positive) (calls : List (ℤ × Op)) :
    ProbesLimited cfg (run cfg calls) ↔ ProbesPaced cfg (run cfg calls) := by
  have hexec := run_exec hcfg calls
  constructor
  · intro hl k x m y b h hask
    have hsnoc := h.snoc hexec hask
    have hle := hl k x (m ++ [y]) b hsnoc
    rw [hsnoc.admissions_eq hexec, ← List.cons_append, asks_snoc, if_pos hask] at hle
    omega
  · intro hp k x m b h
    rw [h.admissions_eq hexec]
    exact hp.asks_le hcfg h

/-- One caller asks after the open duration, and its success closes the circuit. -/
theorem lone_probe_limited : ProbesLimited ⟨1, 10, 1⟩ (run ⟨1, 10, 1⟩
    [(0, .recordFailure (lit "a")), (11, .isAvailable (lit "a")), (12, .recordSuccess (lit "a"))]) := by
  apply (probes_limited_iff_paced ⟨1, 10, 1⟩ ⟨by decide, by decide, by decide⟩ _).mpr
  rintro k x m y b ⟨⟨a, hlog⟩, ⟨hx, -⟩, -⟩ hask
  -- The only call of `IsAvailable` comes right after the failure, which starts no period.
  cases a with
  | nil =>
    obtain ⟨rfl, -⟩ := List.cons.inj hlog
    cases hx
  | cons z a =>
    obtain ⟨-, htail⟩ := List.cons.inj hlog
    have hlen : 2 = (a ++ x :: (m ++ y :: b)).length := congrArg List.length htail
    simp only [List.length_append, List.length_cons] at hlen
    have ha : a = [] := List.eq_nil_of_length_eq_zero (by omega)
    have hm : m = [] := List.eq_nil_of_length_eq_zero (by omega)
    subst ha hm
    obtain ⟨-, hlast⟩ := List.cons.inj htail
    obtain ⟨rfl, -⟩ := List.cons.inj hlast
    cases hask

/-- With one probe allowed, two callers ask after the open duration and both are let through. -/
theorem crowded_probes_not_limited : ¬ ProbesLimited ⟨1, 10, 1⟩ (run ⟨1, 10, 1⟩
    [(0, .recordFailure (lit "a")), (11, .isAvailable (lit "a")), (12, .isAvailable (lit "a"))]) := by
  intro h
  have hle := h (lit "a") _ [_] [] ⟨⟨[_], rfl⟩, ⟨rfl, rfl, rfl⟩, List.forall_mem_singleton.mpr rfl⟩
  exact absurd hle (by decide)

end SynapseGo.CircuitBreaker
