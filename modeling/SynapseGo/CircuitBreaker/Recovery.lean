import SynapseGo.CircuitBreaker.Breaker

/-! The trip and recovery law of a circuit, read off the log of calls. Outcomes may be recorded in any
state: the failures since the last success are counted through all of them, and the successes of a
half-open circuit start at the probe. -/
namespace SynapseGo.CircuitBreaker
open SynapseGo.Go SynapseGo.Concurrency

def failuresOf (k : GoString) (log : List Event) : ℕ := log.countP fun x => x.act.1 = .recordFailure k

def successesOf (k : GoString) (log : List Event) : ℕ := log.countP fun x => x.act.1 = .recordSuccess k

/-- The failures of `k` since its last success. -/
def failuresSince (k : GoString) (log : List Event) : ℕ :=
  log.foldl (fun n x => if x.act.1 = .recordSuccess k then 0 else
    if x.act.1 = .recordFailure k then n + 1 else n) 0

/-- As many failures as the threshold, and no success between them. -/
def Tripped (cfg : Config) (k : GoString) (log : List Event) : Prop :=
  ∃ a m b, log = a ++ (m ++ b) ∧ (failuresOf k m : ℤ) = cfg.failureThreshold.toInt ∧ successesOf k m = 0

/-- The call that turns the open circuit of `k` half-open. -/
def Probes (k : GoString) (x : Event) : Prop :=
  x.act = ⟨.isAvailable k, true⟩ ∧ (circuit x.pre k).state = .stateOpen ∧
    (circuit x.post k).state = .stateHalfOpen

/-- A probe followed by all the successes it takes, and no failure between them. -/
def Recovered (cfg : Config) (k : GoString) (log : List Event) : Prop :=
  ∃ a x m b, log = a ++ x :: (m ++ b) ∧ Probes k x ∧
    (successesOf k m : ℤ) = cfg.halfOpenMaxRequests.toInt ∧ failuresOf k m = 0

section Counts
variable {k : GoString} {log : List Event} {x : Event}

theorem failuresOf_snoc : failuresOf k (log ++ [x]) =
    failuresOf k log + if x.act.1 = .recordFailure k then 1 else 0 := by
  unfold failuresOf
  rw [List.countP_append, List.countP_singleton]
  simp only [decide_eq_true_eq]

theorem successesOf_snoc : successesOf k (log ++ [x]) =
    successesOf k log + if x.act.1 = .recordSuccess k then 1 else 0 := by
  unfold successesOf
  rw [List.countP_append, List.countP_singleton]
  simp only [decide_eq_true_eq]

theorem failuresSince_snoc : failuresSince k (log ++ [x]) =
    if x.act.1 = .recordSuccess k then 0
    else if x.act.1 = .recordFailure k then failuresSince k log + 1 else failuresSince k log := by
  unfold failuresSince
  rw [List.foldl_append]
  rfl

/-- The failures since the last success are the last ones of the log. -/
theorem exists_failuresSince (k : GoString) (log : List Event) :
    ∃ a m, log = a ++ m ∧ failuresOf k m = failuresSince k log ∧ successesOf k m = 0 := by
  induction log using List.reverseRecOn with
  | nil => exact ⟨[], [], rfl, rfl, rfl⟩
  | append_singleton log x ih =>
    by_cases hs : x.act.1 = .recordSuccess k
    · refine ⟨log ++ [x], [], by rw [List.append_nil], ?_, rfl⟩
      rw [failuresSince_snoc, if_pos hs]
      rfl
    · obtain ⟨a, m, rfl, hf, hz⟩ := ih
      refine ⟨a, m ++ [x], by rw [List.append_assoc], ?_, ?_⟩
      · rw [failuresSince_snoc, if_neg hs, failuresOf_snoc, hf]
        split_ifs <;> rfl
      · rw [successesOf_snoc, hz, if_neg hs]

theorem Tripped.snoc {cfg : Config} (h : Tripped cfg k log) : Tripped cfg k (log ++ [x]) := by
  obtain ⟨a, m, b, rfl, hm⟩ := h
  exact ⟨a, m, b ++ [x], by rw [List.append_assoc, List.append_assoc], hm⟩

theorem Recovered.snoc {cfg : Config} (h : Recovered cfg k log) : Recovered cfg k (log ++ [x]) := by
  obtain ⟨a, y, m, b, rfl, hy⟩ := h
  exact ⟨a, y, m, b ++ [x], by rw [List.append_assoc, List.cons_append, List.append_assoc], hy⟩

/-- Calls that are no outcome of `k` leave its counts alone. -/
theorem counts_snoc_of_ne (hs : x.act.1 ≠ .recordSuccess k) (hf : x.act.1 ≠ .recordFailure k) :
    failuresSince k (log ++ [x]) = failuresSince k log ∧ failuresOf k (log ++ [x]) = failuresOf k log ∧
      successesOf k (log ++ [x]) = successesOf k log := by
  rw [failuresSince_snoc, failuresOf_snoc, successesOf_snoc, if_neg hs, if_neg hf, if_neg hf, if_neg hs]
  exact ⟨rfl, rfl, rfl⟩

end Counts

/-- What the log says about the circuit of `k`. -/
structure CircuitInv (cfg : Config) (k : GoString) (log : List Event) (s : Circuits) : Prop where
  failures : (circuit s k).state = .stateClosed →
    (circuit s k).consecutiveFailures.toInt = failuresSince k log
  below : (circuit s k).state = .stateClosed → (failuresSince k log : ℤ) < cfg.failureThreshold.toInt
  openUntil : (circuit s k).state = .stateOpen → ∃ y ∈ log, y.act.1 = .recordFailure k ∧
    (circuit s k).openUntil = y.env + cfg.openDuration.toInt
  tripped : (circuit s k).state ≠ .stateClosed → Tripped cfg k log

section Steps
variable {cfg : Config} {k : GoString} {log : List Event} {x : Event}

theorem CircuitInv.init (hcfg : cfg.Positive) : CircuitInv cfg k [] (fun _ => none) where
  failures := fun _ => rfl
  below := fun _ => Int64.lt_iff_toInt_lt.mp hcfg.threshold
  openUntil := fun h => nomatch h
  tripped := fun h => absurd rfl h

/-- A call that records nothing for `k` and leaves its circuit alone. -/
theorem CircuitInv.skip (h : CircuitInv cfg k log x.pre) (hs : x.act.1 ≠ .recordSuccess k)
    (hf : x.act.1 ≠ .recordFailure k) (hpost : circuit x.post k = circuit x.pre k) :
    CircuitInv cfg k (log ++ [x]) x.post := by
  obtain ⟨hsince, -, -⟩ := counts_snoc_of_ne hs hf
  constructor
  · rw [hpost, hsince]
    exact h.failures
  · rw [hpost, hsince]
    exact h.below
  · rw [hpost]
    intro hopen
    obtain ⟨y, hy, hrest⟩ := h.openUntil hopen
    exact ⟨y, List.mem_append_left _ hy, hrest⟩
  · rw [hpost]
    exact fun hstate => (h.tripped hstate).snoc

theorem failuresSince_failure (ha : x.act = ⟨.recordFailure k, ()⟩) :
    failuresSince k (log ++ [x]) = failuresSince k log + 1 := by
  rw [failuresSince_snoc, ha, if_neg nofun, if_pos rfl]

theorem CircuitInv.probed (h : CircuitInv cfg k log x.pre) (hstate : (circuit x.pre k).state = .stateOpen)
    (hpost : circuit x.post k = { circuit x.pre k with state := .stateHalfOpen, consecutiveSuccess := 0 }) :
    CircuitInv cfg k (log ++ [x]) x.post := by
  constructor
  · rw [hpost]
    exact fun hclosed => nomatch hclosed
  · rw [hpost]
    exact fun hclosed => nomatch hclosed
  · rw [hpost]
    exact fun hopen => nomatch hopen
  · intro _
    apply Tripped.snoc
    apply h.tripped
    rw [hstate]
    decide

theorem CircuitInv.succeeded (hcfg : cfg.Positive) (h : CircuitInv cfg k log x.pre)
    (ha : x.act = ⟨.recordSuccess k, ()⟩)
    (hpost : circuit x.post k = (circuit x.pre k).recordSuccess cfg) :
    CircuitInv cfg k (log ++ [x]) x.post := by
  have hsince : failuresSince k (log ++ [x]) = 0 := by
    rw [failuresSince_snoc, ha, if_pos rfl]
  constructor
  · intro _
    rw [hpost, hsince, recordSuccess_failures]
    rfl
  · intro _
    rw [hsince]
    exact Int64.lt_iff_toInt_lt.mp hcfg.threshold
  · rw [hpost]
    intro hopen
    rcases recordSuccess_cases cfg (circuit x.pre k) with ⟨-, -, hclosed⟩ | ⟨hsame, huntil, -⟩
    · rw [hclosed] at hopen
      cases hopen
    · rw [hsame] at hopen
      obtain ⟨y, hy, hfail, hdue⟩ := h.openUntil hopen
      exact ⟨y, List.mem_append_left _ hy, hfail, huntil.trans hdue⟩
  · rw [hpost]
    intro hne
    rcases recordSuccess_cases cfg (circuit x.pre k) with ⟨-, -, hclosed⟩ | ⟨hsame, -⟩
    · exact absurd hclosed hne
    · rw [hsame] at hne
      exact (h.tripped hne).snoc

/-- The failure that trips a closed circuit is the last of as many as the threshold. -/
theorem CircuitInv.trips (h : CircuitInv cfg k log x.pre) (ha : x.act = ⟨.recordFailure k, ()⟩)
    (hclosed : (circuit x.pre k).state = .stateClosed)
    (hfull : cfg.failureThreshold ≤ (circuit x.pre k).consecutiveFailures + 1) :
    Tripped cfg k (log ++ [x]) := by
  have hsince : failuresSince k (log ++ [x]) = failuresSince k log + 1 := failuresSince_failure ha
  obtain ⟨a, m, hlog, hf, hz⟩ := exists_failuresSince k (log ++ [x])
  have hcount := h.failures hclosed
  have hbelow := h.below hclosed
  rw [← hcount] at hbelow
  rw [Int64.le_iff_toInt_le, toInt_add_one hbelow] at hfull
  refine ⟨a, m, [], by rw [List.append_nil, hlog], ?_, hz⟩
  rw [hf, hsince]
  omega

theorem CircuitInv.failed (h : CircuitInv cfg k log x.pre) (ha : x.act = ⟨.recordFailure k, ()⟩)
    (hpost : circuit x.post k = (circuit x.pre k).recordFailure cfg x.env) :
    CircuitInv cfg k (log ++ [x]) x.post := by
  have hsince : failuresSince k (log ++ [x]) = failuresSince k log + 1 := failuresSince_failure ha
  have hx : x ∈ log ++ [x] := List.mem_append_right _ (List.mem_singleton_self x)
  rcases recordFailure_cases cfg x.env (circuit x.pre k) with ⟨hclosed, hlt, hstate⟩ | ⟨hfull, hstate, huntil⟩
  · have hcount := h.failures hclosed
    have hbelow := h.below hclosed
    rw [← hcount] at hbelow
    rw [Int64.lt_iff_toInt_lt, toInt_add_one hbelow] at hlt
    constructor
    · intro _
      rw [hpost, hsince, recordFailure_failures, toInt_add_one hbelow, hcount]
      rfl
    · intro _
      rw [hsince]
      omega
    · rw [hpost, hstate]
      exact fun hopen => nomatch hopen
    · rw [hpost, hstate]
      exact fun hne => absurd rfl hne
  · constructor
    · rw [hpost, hstate]
      exact fun hc => nomatch hc
    · rw [hpost, hstate]
      exact fun hc => nomatch hc
    · intro _
      rw [hpost]
      exact ⟨x, hx, by rw [ha], huntil⟩
    · intro _
      by_cases hclosed : (circuit x.pre k).state = .stateClosed
      · exact h.trips ha hclosed (hfull hclosed)
      · exact (h.tripped hclosed).snoc

/-- The calls a circuit hears of: all others leave it and its counts alone. -/
theorem circuit_cases (hx : x.Valid (handle cfg)) (k : GoString) :
    ((x.act.1 ≠ .recordSuccess k ∧ x.act.1 ≠ .recordFailure k) ∧ circuit x.post k = circuit x.pre k) ∨
    (x.act = ⟨.isAvailable k, true⟩ ∧ (circuit x.pre k).state = .stateOpen ∧
      circuit x.post k = { circuit x.pre k with state := .stateHalfOpen, consecutiveSuccess := 0 }) ∨
    (x.act = ⟨.recordSuccess k, ()⟩ ∧ circuit x.post k = (circuit x.pre k).recordSuccess cfg) ∨
    (x.act = ⟨.recordFailure k, ()⟩ ∧ circuit x.post k = (circuit x.pre k).recordFailure cfg x.env) := by
  cases CircuitStep.of_valid hx k with
  | elsewhere hkey hpost =>
    refine .inl ⟨⟨?_, ?_⟩, hpost⟩
    · exact fun ha => hkey (by rw [ha]; rfl)
    · exact fun ha => hkey (by rw [ha]; rfl)
  | passed ha _ hpost => exact .inl ⟨by rw [ha]; exact ⟨nofun, nofun⟩, hpost⟩
  | blocked ha _ _ hpost => exact .inl ⟨by rw [ha]; exact ⟨nofun, nofun⟩, hpost⟩
  | probed ha hstate hpost => exact .inr (.inl ⟨ha, hstate, hpost⟩)
  | succeeded ha hpost => exact .inr (.inr (.inl ⟨ha, hpost⟩))
  | failed ha hpost => exact .inr (.inr (.inr ⟨ha, hpost⟩))

theorem CircuitInv.step (hcfg : cfg.Positive) (hx : x.Valid (handle cfg)) (h : CircuitInv cfg k log x.pre) :
    CircuitInv cfg k (log ++ [x]) x.post := by
  rcases circuit_cases hx k with ⟨⟨hs, hf⟩, hpost⟩ | ⟨-, hstate, hpost⟩ | ⟨ha, hpost⟩ | ⟨ha, hpost⟩
  · exact h.skip hs hf hpost
  · exact h.probed hstate hpost
  · exact h.succeeded hcfg ha hpost
  · exact h.failed ha hpost

/-- Where a circuit stands that was open when `log` began. -/
inductive Standing (cfg : Config) (k : GoString) (log : List Event) (s : Circuits) : Prop
  | blocked (hstate : (circuit s k).state = .stateOpen)
  | probing {a m : List Event} {x : Event} (hlog : log = a ++ x :: m) (hx : Probes k x)
    (hstate : (circuit s k).state = .stateHalfOpen) (hfail : failuresOf k m = 0)
    (hcount : (circuit s k).consecutiveSuccess.toInt = successesOf k m)
    (hlt : (successesOf k m : ℤ) < cfg.halfOpenMaxRequests.toInt)
  | recovered (h : Recovered cfg k log)

theorem Standing.skip (h : Standing cfg k log x.pre) (hs : x.act.1 ≠ .recordSuccess k)
    (hf : x.act.1 ≠ .recordFailure k) (hpost : circuit x.post k = circuit x.pre k) :
    Standing cfg k (log ++ [x]) x.post := by
  cases h with
  | blocked hstate => exact .blocked (by rw [hpost, hstate])
  | @probing a m y hlog hy hstate hfail hcount hlt =>
    obtain ⟨-, hfails, hsuccs⟩ := counts_snoc_of_ne hs hf
    refine .probing (a := a) (m := m ++ [x]) (x := y) ?_ hy ?_ ?_ ?_ ?_
    · rw [hlog, List.append_assoc, List.cons_append]
    · rw [hpost, hstate]
    · rw [hfails, hfail]
    · rw [hpost, hsuccs, hcount]
    · rw [hsuccs]
      exact hlt
  | recovered h => exact .recovered h.snoc

theorem Standing.succeeded (h : Standing cfg k log x.pre) (ha : x.act = ⟨.recordSuccess k, ()⟩)
    (hpost : circuit x.post k = (circuit x.pre k).recordSuccess cfg) :
    Standing cfg k (log ++ [x]) x.post := by
  cases h with
  | blocked hstate =>
    rcases recordSuccess_cases cfg (circuit x.pre k) with ⟨hhalf, -⟩ | ⟨hsame, -⟩
    · rw [hstate] at hhalf
      cases hhalf
    · exact .blocked (by rw [hpost, hsame, hstate])
  | @probing a m y hlog hy hstate hfail hcount hlt =>
    have hsucc : successesOf k (m ++ [x]) = successesOf k m + 1 := by
      rw [successesOf_snoc, ha, if_pos rfl]
    have hfails : failuresOf k (m ++ [x]) = 0 := by
      rw [failuresOf_snoc, ha, hfail]
      rfl
    rw [← hcount] at hlt
    rcases recordSuccess_cases cfg (circuit x.pre k) with ⟨-, hfull, -⟩ | ⟨hsame, -, hnext, hmore⟩
    · rw [Int64.le_iff_toInt_le, toInt_add_one hlt] at hfull
      refine .recovered ⟨a, y, m ++ [x], [], ?_, hy, ?_, hfails⟩
      · rw [hlog, List.append_assoc, List.cons_append, List.append_nil]
      · rw [hsucc]
        omega
    · have hroom := hmore hstate
      rw [Int64.lt_iff_toInt_lt, toInt_add_one hlt] at hroom
      refine .probing (a := a) (m := m ++ [x]) (x := y) ?_ hy ?_ hfails ?_ ?_
      · rw [hlog, List.append_assoc, List.cons_append]
      · rw [hpost, hsame, hstate]
      · rw [hpost, hnext, toInt_add_one hlt, hcount, hsucc]
        rfl
      · rw [hsucc]
        omega
  | recovered h => exact .recovered h.snoc

theorem Standing.failed (h : Standing cfg k log x.pre)
    (hpost : circuit x.post k = (circuit x.pre k).recordFailure cfg x.env) :
    Standing cfg k (log ++ [x]) x.post := by
  by_cases hclosed : (circuit x.pre k).state = .stateClosed
  · cases h with
    | recovered h => exact .recovered h.snoc
    | blocked hstate => rw [hclosed] at hstate; cases hstate
    | probing _ _ hstate => rw [hclosed] at hstate; cases hstate
  · rcases recordFailure_cases cfg x.env (circuit x.pre k) with ⟨hstate, -⟩ | ⟨-, hopen, -⟩
    · exact absurd hstate hclosed
    · exact .blocked (by rw [hpost, hopen])

theorem Standing.step (hcfg : cfg.Positive) (hx : x.Valid (handle cfg)) (h : Standing cfg k log x.pre) :
    Standing cfg k (log ++ [x]) x.post := by
  rcases circuit_cases hx k with ⟨⟨hs, hf⟩, hpost⟩ | ⟨ha, hstate, hpost⟩ | ⟨ha, hpost⟩ | ⟨-, hpost⟩
  · exact h.skip hs hf hpost
  · have hhalf : (circuit x.post k).state = .stateHalfOpen := by rw [hpost]
    have hzero : (circuit x.post k).consecutiveSuccess.toInt = 0 := by rw [hpost, Int64.toInt_zero]
    have hroom : 0 < cfg.halfOpenMaxRequests.toInt := Int64.lt_iff_toInt_lt.mp hcfg.probes
    exact .probing (a := log) (m := []) (x := x) rfl ⟨ha, hstate, hhalf⟩ hhalf rfl hzero hroom
  · exact h.succeeded ha hpost
  · exact h.failed hpost

end Steps

/-- The law, for the calls on a new breaker. -/
structure TripLaw (cfg : Config) (calls : List (ℤ × Op)) : Prop where
  blocked : ∀ a x b k, run cfg calls = a ++ x :: b → x.act = ⟨.isAvailable k, false⟩ →
    (∃ y ∈ a, y.act.1 = .recordFailure k ∧ y.env ≤ x.env ∧ x.env ≤ y.env + cfg.openDuration.toInt) ∧
      Tripped cfg k a
  recovered : ∀ a x m y b k, run cfg calls = a ++ x :: (m ++ y :: b) →
    (circuit x.post k).state = .stateOpen → (circuit y.post k).state = .stateClosed →
      Recovered cfg k (m ++ [y])
  counted : ∀ a x b k, run cfg calls = a ++ x :: b → (circuit x.post k).state = .stateClosed →
    (circuit x.post k).consecutiveFailures.toInt = failuresSince k (a ++ [x]) ∧
      (circuit x.post k).consecutiveFailures < cfg.failureThreshold
  independent : ∀ k, ((run cfg calls).filter fun x => x.act.1.key = k).map Entry.act =
      (run cfg (calls.filter fun m => m.2.key = k)).map Entry.act ∧
    ∀ x ∈ run cfg calls, x.act.1.key ≠ k → x.post k = x.pre k

section Law
variable {cfg : Config} {calls : List (ℤ × Op)} {a b : List Event} {x : Event}

theorem run_exec (hcfg : cfg.Positive) (calls : List (ℤ × Op)) :
    Exec (handle cfg) (fun _ => none) (run cfg calls) (final (handle cfg) (fun _ => none) calls) := by
  unfold run
  rw [hcfg.withDefaults_eq]
  exact exec_serial _ _ _

theorem circuitInv_of_exec (hcfg : cfg.Positive) (k : GoString) {t : Circuits}
    (h : Exec (handle cfg) (fun _ => none) a t) : CircuitInv cfg k a t := by
  refine h.history_invariant (P := CircuitInv cfg k) (CircuitInv.init hcfg) ?_
  intro _ x _ _ hx hinv
  exact hinv.step hcfg hx

end Law

/-- Every run of a breaker with a positive configuration and a clock that does not go back obeys the
law. -/
theorem breaker_tripLaw (cfg : Config) (hcfg : cfg.Positive) (calls : List (ℤ × Op))
    (hclock : calls.Pairwise fun m m' => m.1 ≤ m'.1) : TripLaw cfg calls := by
  have hexec := run_exec hcfg calls
  constructor
  · intro a x b k hl ha
    have hmono : (run cfg calls).Pairwise fun y z => y.env ≤ z.env := pairwise_serial hclock
    rw [hl] at hexec hmono
    obtain ⟨hpre, hx, -⟩ := hexec.split
    have hinv := circuitInv_of_exec hcfg k hpre
    cases CircuitStep.of_valid hx k with
    | elsewhere hkey => exact absurd (by rw [ha]; rfl) hkey
    | passed ha' => rw [ha] at ha'; cases ha'
    | probed ha' => rw [ha] at ha'; cases ha'
    | succeeded ha' => rw [ha] at ha'; cases ha'
    | failed ha' => rw [ha] at ha'; cases ha'
    | blocked _ hopen hnow _ =>
      obtain ⟨y, hy, hfail, hdue⟩ := hinv.openUntil hopen
      rw [hdue] at hnow
      have hle : y.env ≤ x.env := (List.pairwise_append.mp hmono).2.2 y hy x List.mem_cons_self
      refine ⟨⟨y, hy, hfail, hle, hnow⟩, hinv.tripped ?_⟩
      rw [hopen]
      decide
  · intro a x m y b k hl hopen hclosed
    rw [hl] at hexec
    obtain ⟨-, -, hrest⟩ := hexec.split
    obtain ⟨hm, hy, -⟩ := hrest.split
    have hstand : Standing cfg k m y.pre := by
      refine hm.history_invariant (P := Standing cfg k) (.blocked hopen) ?_
      intro _ z _ _ hz hs
      exact hs.step hcfg hz
    cases hstand.step hcfg hy with
    | blocked hstate => rw [hclosed] at hstate; cases hstate
    | probing _ _ hstate => rw [hclosed] at hstate; cases hstate
    | recovered h => exact h
  · intro a x b k hl hclosed
    rw [hl] at hexec
    obtain ⟨hpre, hx, -⟩ := hexec.split
    have hinv := (circuitInv_of_exec hcfg k hpre).step hcfg hx
    refine ⟨hinv.failures hclosed, ?_⟩
    rw [Int64.lt_iff_toInt_lt, hinv.failures hclosed]
    exact hinv.below hclosed
  · intro k
    refine ⟨((handle_local cfg.withDefaults).independent k _ calls).1, ?_⟩
    intro x hx hkey
    exact (handle_local cfg).frame (hexec.valid hx) hkey

/-- Two failures trip the circuit, a third holds it open, a probe and a success close it. -/
theorem recovering_tripLaw : TripLaw ⟨2, 10, 1⟩
    [(0, .recordFailure (lit "a")), (1, .recordFailure (lit "a")), (5, .recordFailure (lit "a")),
      (15, .isAvailable (lit "a")), (15, .isAvailable (lit "b")), (16, .isAvailable (lit "a")),
      (17, .recordSuccess (lit "a"))] :=
  breaker_tripLaw ⟨2, 10, 1⟩ ⟨by decide, by decide, by decide⟩ _ (by decide)

end SynapseGo.CircuitBreaker
