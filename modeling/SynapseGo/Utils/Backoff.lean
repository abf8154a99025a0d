import SynapseGo.Job.Backoff

/-! `utils.Calculator` over `job.BackoffPolicy`. The policy keeps the arguments as they were given,
and a zero among them is read as a default each time it is used. -/
namespace SynapseGo.Utils
open SynapseGo.Go SynapseGo.Job

inductive Err where
  | negativeRetryCount
  | policy (err : BackoffErr)
  deriving DecidableEq, Repr

structure Calculator where
  policy : BackoffPolicy
  maxRetry : ℤ

def newCalculator (initial : Int64) (multiplier : ℚ) (maxCap : Int64) (maxRetry : ℤ) :
    Except Err Calculator :=
  if maxRetry < 0 then .error .negativeRetryCount
  else
    let policy : BackoffPolicy := { base := initial, max := maxCap, multiplier := multiplier }
    match policy.validate with
    | .error e => .error (.policy e)
    | .ok _ => .ok { policy := policy, maxRetry := maxRetry }

def Calculator.calculateBackoff (c : Calculator) (retryCount : ℤ) : Except Err Int64 :=
  if retryCount < 0 then .error .negativeRetryCount
  else
    let attempt := retryCount - 1
    let attempt := if attempt < 0 then 0 else attempt
    match c.policy.delay attempt with
    | .error e => .error (.policy e)
    | .ok d => .ok d

/-- Ten minutes, doubled without an effective cap (100 years), five retries. -/
def defaultCalculator : Calculator where
  policy := { base := 600000000000, max := 3153600000000000000, multiplier := 2 }
  maxRetry := 5

def Calculator.shouldRetry (c : Calculator) (retryCount : ℤ) : Bool :=
  let retryCount := if retryCount < 0 then 0 else retryCount
  retryCount < c.maxRetry

def Calculator.isPermanentFailure (c : Calculator) (retryCount : ℤ) : Bool :=
  let retryCount := if retryCount < 0 then 0 else retryCount
  retryCount ≥ c.maxRetry

/-- The documented arguments. -/
def Documented (initial : Int64) (multiplier : ℚ) (maxCap : Int64) (maxRetry : ℤ) : Prop :=
  0 < initial ∧ 1 ≤ multiplier ∧ initial ≤ maxCap ∧ 0 ≤ maxRetry

/-- The delay before retry `n`: the capped product, the initial delay at first, and no later one shorter. -/
def DelayOf (c : Calculator) (initial : Int64) (multiplier : ℚ) (maxCap : Int64) (n : ℤ) (d : Int64) : Prop :=
  d.toInt = min maxCap.toInt ⌊(initial.toInt : ℚ) * multiplier ^ (n - 1).toNat⌋ ∧ (n ≤ 1 → d = initial) ∧
    d ≤ maxCap ∧ ∀ m d', n ≤ m → c.calculateBackoff m = .ok d' → d ≤ d'

/-- `NewCalculator` accepts the documented arguments and no others, and what it returns computes the
documented delays. -/
def Contract (initial : Int64) (multiplier : ℚ) (maxCap : Int64) (maxRetry : ℤ) : Prop :=
  ((∃ c, newCalculator initial multiplier maxCap maxRetry = .ok c) ↔
      Documented initial multiplier maxCap maxRetry) ∧
    ∀ c, newCalculator initial multiplier maxCap maxRetry = .ok c → ∀ n, 0 ≤ n →
      ∃ d, c.calculateBackoff n = .ok d ∧ DelayOf c initial multiplier maxCap n d

/-- The policy a calculator of these arguments has. -/
def policyOf (initial : Int64) (multiplier : ℚ) (maxCap : Int64) : BackoffPolicy :=
  ⟨initial, maxCap, multiplier⟩

section
variable {initial : Int64} {multiplier : ℚ} {maxCap : Int64} {maxRetry : ℤ}

theorem newCalculator_eq_ok_iff {c : Calculator} : newCalculator initial multiplier maxCap maxRetry = .ok c ↔
    0 ≤ maxRetry ∧ (policyOf initial multiplier maxCap).withDefaults.Proper ∧
      c = ⟨policyOf initial multiplier maxCap, maxRetry⟩ := by
  rw [← BackoffPolicy.validate_eq_ok_iff]
  unfold newCalculator policyOf
  dsimp only
  by_cases hretry : maxRetry < 0
  · rw [if_pos hretry]
    constructor
    · intro h
      cases h
    · intro h
      exact absurd h.1 (not_le.mpr hretry)
  · rw [if_neg hretry]
    cases hvalid : BackoffPolicy.validate ⟨initial, maxCap, multiplier⟩ with
    | error e => simp
    | ok u =>
      simp only [Except.ok.injEq, true_and]
      constructor
      · intro h
        exact ⟨not_lt.mp hretry, h.symm⟩
      · intro h
        exact h.2.symm

theorem documented_iff : Documented initial multiplier maxCap maxRetry ↔
    0 ≤ maxRetry ∧ (policyOf initial multiplier maxCap).Proper := by
  constructor
  · intro h
    exact ⟨h.2.2.2, h.1, h.2.2.1, h.2.1⟩
  · intro h
    exact ⟨h.2.base_pos, h.2.one_le, h.2.base_le, h.1⟩

/-- A calculator of a proper policy. -/
theorem calculateBackoff_eq (maxRetry : ℤ) (h : (policyOf initial multiplier maxCap).Proper) {n : ℤ}
    (hn : 0 ≤ n) :
    ∃ d, (⟨policyOf initial multiplier maxCap, maxRetry⟩ : Calculator).calculateBackoff n = .ok d ∧
      d.toInt = (policyOf initial multiplier maxCap).capped (n - 1).toNat := by
  obtain ⟨d, hd, hcapped⟩ := h.delay_eq (if n - 1 < 0 then 0 else n - 1)
  have hattempt : (if n - 1 < 0 then 0 else n - 1).toNat = (n - 1).toNat := by
    split_ifs <;> omega
  rw [hattempt] at hcapped
  refine ⟨d, ?_, hcapped⟩
  unfold Calculator.calculateBackoff
  dsimp only
  rw [if_neg (not_lt.mpr hn), hd]

theorem delayOf_of_proper (h : (policyOf initial multiplier maxCap).Proper) {n : ℤ} (hn : 0 ≤ n) {d : Int64}
    (hd : d.toInt = (policyOf initial multiplier maxCap).capped (n - 1).toNat) :
    DelayOf ⟨policyOf initial multiplier maxCap, maxRetry⟩ initial multiplier maxCap n d := by
  refine ⟨hd, ?_, ?_, ?_⟩
  · intro hfirst
    have hzero : (n - 1).toNat = 0 := by omega
    rw [hzero, h.capped_zero] at hd
    exact Int64.toInt_inj.mp hd
  · rw [Int64.le_iff_toInt_le, hd]
    exact min_le_left _ _
  · intro m d' hnm hm
    obtain ⟨e, he, hcapped⟩ := calculateBackoff_eq maxRetry h (hn.trans hnm)
    cases he.symm.trans hm
    rw [Int64.le_iff_toInt_le, hd, hcapped]
    exact h.capped_mono (by omega)

/-- The arguments whose defaults make a difference to nobody: they are accepted as they stand, or not
at all. -/
theorem accepted_iff_documented (h : (policyOf initial multiplier maxCap).Explicit ∨ maxRetry < 0 ∨
    ¬ (policyOf initial multiplier maxCap).withDefaults.Proper) :
    0 ≤ maxRetry ∧ (policyOf initial multiplier maxCap).withDefaults.Proper ↔
      0 ≤ maxRetry ∧ (policyOf initial multiplier maxCap).Proper := by
  constructor
  · rintro ⟨hretry, hproper⟩
    rcases h with hexplicit | hneg | hnot
    · rw [hexplicit.withDefaults_eq] at hproper
      exact ⟨hretry, hproper⟩
    · omega
    · exact absurd hproper hnot
  · rintro ⟨hretry, hproper⟩
    rw [hproper.explicit.withDefaults_eq]
    exact ⟨hretry, hproper⟩

/-- The default calculator is one that `NewCalculator` returns, with the documented delays. -/
theorem defaultCalculator_delay {n : ℤ} (hn : 0 ≤ n) :
    newCalculator 600000000000 2 3153600000000000000 5 = .ok defaultCalculator ∧
      ∃ d, defaultCalculator.calculateBackoff n = .ok d ∧
        DelayOf defaultCalculator 600000000000 2 3153600000000000000 n d := by
  have hproper : (policyOf 600000000000 2 3153600000000000000).Proper := ⟨by decide, by decide, by decide⟩
  have hvalid : (policyOf 600000000000 2 3153600000000000000).withDefaults.Proper := by
    rw [hproper.explicit.withDefaults_eq]
    exact hproper
  obtain ⟨d, hd, hcapped⟩ := calculateBackoff_eq 5 hproper hn
  exact ⟨newCalculator_eq_ok_iff.mpr ⟨by decide, hvalid, rfl⟩, d, hd, delayOf_of_proper hproper hn hcapped⟩

/-- A failure is permanent exactly if there is no retry. -/
theorem isPermanentFailure_eq (c : Calculator) (n : ℤ) : c.isPermanentFailure n = !c.shouldRetry n := by
  simp only [Calculator.isPermanentFailure, Calculator.shouldRetry, ge_iff_le, ← decide_not, not_lt]

/-- The contract holds exactly where no argument is a zero that a default makes acceptable. -/
theorem contract_iff (initial : Int64) (multiplier : ℚ) (maxCap : Int64) (maxRetry : ℤ) :
    Contract initial multiplier maxCap maxRetry ↔
      (policyOf initial multiplier maxCap).Explicit ∨ maxRetry < 0 ∨
        ¬ (policyOf initial multiplier maxCap).withDefaults.Proper := by
  constructor
  · intro h
    by_contra hnot
    simp only [not_or, not_lt, not_not] at hnot
    have haccepted := newCalculator_eq_ok_iff.mpr ⟨hnot.2.1, hnot.2.2, rfl⟩
    have hproper := (documented_iff.mp (h.1.mp ⟨_, haccepted⟩)).2
    exact hnot.1 hproper.explicit
  · intro h
    have haccepted := accepted_iff_documented h
    constructor
    · rw [documented_iff, ← haccepted]
      simp only [newCalculator_eq_ok_iff, exists_and_left, exists_eq, and_true]
    · intro c hc n hn
      obtain ⟨hretry, hproper, rfl⟩ := newCalculator_eq_ok_iff.mp hc
      have hgiven := (haccepted.mp ⟨hretry, hproper⟩).2
      obtain ⟨d, hd, hcapped⟩ := calculateBackoff_eq maxRetry hgiven hn
      exact ⟨d, hd, delayOf_of_proper hgiven hn hcapped⟩

/-- An initial delay of zero is accepted, and stands for one second. -/
theorem zero_initial_not_contract : ¬ Contract 0 2 300000000000 3 := by
  intro h
  have hproper : (policyOf 0 2 300000000000).withDefaults.Proper := by
    rw [← BackoffPolicy.validate_eq_ok_iff]
    decide +kernel
  have haccepted := newCalculator_eq_ok_iff.mpr ⟨(by decide : (0 : ℤ) ≤ 3), hproper, rfl⟩
  have hpos : (0 : Int64) < 0 := (h.1.mp ⟨_, haccepted⟩).1
  revert hpos
  decide

end
end SynapseGo.Utils
