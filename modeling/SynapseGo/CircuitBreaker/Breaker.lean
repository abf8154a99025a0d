import SynapseGo.Concurrency.Serial
import SynapseGo.Go.Strings
import SynapseGo.Go.Time

/-! `circuitbreaker`: one circuit for each key, each method one atomic step under the mutex.
Times are nanoseconds. The counts are machine integers and wrap; a closed circuit keeps its failures, and
a half-open one its successes, below the limit they are compared with. -/
namespace SynapseGo.CircuitBreaker
open SynapseGo.Go SynapseGo.Concurrency

inductive State where
  | stateClosed
  | stateOpen
  | stateHalfOpen
  deriving DecidableEq, Repr

structure Config where
  failureThreshold : Int64
  openDuration : Int64
  halfOpenMaxRequests : Int64
  deriving DecidableEq, Repr

/-- The configuration that `New` keeps: 5 failures, 30 s and 3 probes where a field is zero. -/
def Config.withDefaults (cfg : Config) : Config where
  failureThreshold := if cfg.failureThreshold = 0 then 5 else cfg.failureThreshold
  openDuration := if cfg.openDuration = 0 then 30000000000 else cfg.openDuration
  halfOpenMaxRequests := if cfg.halfOpenMaxRequests = 0 then 3 else cfg.halfOpenMaxRequests

structure Config.Positive (cfg : Config) : Prop where
  threshold : 0 < cfg.failureThreshold
  duration : 0 < cfg.openDuration
  probes : 0 < cfg.halfOpenMaxRequests

theorem Config.Positive.withDefaults_eq {cfg : Config} (h : cfg.Positive) : cfg.withDefaults = cfg := by
  obtain ⟨hn, hd, hh⟩ := h
  unfold Config.withDefaults
  rw [if_neg (Int64.ne_of_lt hn).symm, if_neg (Int64.ne_of_lt hd).symm, if_neg (Int64.ne_of_lt hh).symm]

structure CircuitState where
  state : State
  consecutiveFailures : Int64
  consecutiveSuccess : Int64
  openUntil : ℤ
  deriving DecidableEq, Repr

/-- The circuit of a key; a new one is closed. -/
def getOrCreate (s : Option CircuitState) : CircuitState := s.getD ⟨.stateClosed, 0, 0, 0⟩

def isAvailable (now : ℤ) : Option CircuitState → Bool × Option CircuitState
  | none => (true, none)
  | some s =>
    match s.state with
    | .stateClosed => (true, some s)
    | .stateOpen =>
      if s.openUntil < now then (true, some { s with state := .stateHalfOpen, consecutiveSuccess := 0 })
      else (false, some s)
    | .stateHalfOpen => (true, some s)

def CircuitState.recordSuccess (cfg : Config) (s : CircuitState) : CircuitState :=
  let s := { s with consecutiveFailures := 0, consecutiveSuccess := s.consecutiveSuccess + 1 }
  if s.state = .stateHalfOpen ∧ s.consecutiveSuccess ≥ cfg.halfOpenMaxRequests then
    { s with state := .stateClosed, consecutiveSuccess := 0 }
  else s

def CircuitState.recordFailure (cfg : Config) (now : ℤ) (s : CircuitState) : CircuitState :=
  let s := { s with consecutiveFailures := s.consecutiveFailures + 1, consecutiveSuccess := 0 }
  match s.state with
  | .stateClosed =>
    if s.consecutiveFailures ≥ cfg.failureThreshold then
      { s with state := .stateOpen, openUntil := now + cfg.openDuration.toInt }
    else s
  | .stateHalfOpen => { s with state := .stateOpen, openUntil := now + cfg.openDuration.toInt }
  | .stateOpen => { s with openUntil := now + cfg.openDuration.toInt }

inductive Op where
  | isAvailable (key : GoString)
  | recordSuccess (key : GoString)
  | recordFailure (key : GoString)
  deriving DecidableEq, Repr

def Op.key : Op → GoString
  | .isAvailable key => key
  | .recordSuccess key => key
  | .recordFailure key => key

abbrev Reply : Op → Type
  | .isAvailable _ => Bool
  | .recordSuccess _ => Unit
  | .recordFailure _ => Unit

/-- A method on the circuit of its key. -/
def serve (cfg : Config) : Handler Op Reply ℤ (Option CircuitState)
  | now, .isAvailable _, s => isAvailable now s
  | _, .recordSuccess _, s => ((), some ((getOrCreate s).recordSuccess cfg))
  | now, .recordFailure _, s => ((), some ((getOrCreate s).recordFailure cfg now))

abbrev Circuits := GoString → Option CircuitState

def handle (cfg : Config) : Handler Op Reply ℤ Circuits := fun now op s =>
  ((serve cfg now op (s op.key)).1, Function.update s op.key (serve cfg now op (s op.key)).2)

abbrev Event := Entry Unit Op Reply ℤ Circuits

/-- The log of a sequence of calls, each with its reading of the clock, on a new breaker. -/
def run (cfg : Config) (calls : List (ℤ × Op)) : List Event :=
  serial (handle cfg.withDefaults) (fun _ => none) calls

theorem handle_local (cfg : Config) : Local (handle cfg) Op.key (serve cfg) := fun _ _ _ => rfl

/-- The circuit of `k`; a key without one behaves as a new circuit. -/
def circuit (s : Circuits) (k : GoString) : CircuitState := getOrCreate (s k)

@[simp] theorem getOrCreate_some (c : CircuitState) : getOrCreate (some c) = c := rfl

/-- Everything one call can do to the circuit of `k`. -/
inductive CircuitStep (cfg : Config) (k : GoString) (x : Event) : Prop
  | elsewhere (hkey : x.act.1.key ≠ k) (hpost : circuit x.post k = circuit x.pre k)
  | passed (ha : x.act = ⟨.isAvailable k, true⟩) (hstate : (circuit x.pre k).state ≠ .stateOpen)
    (hpost : circuit x.post k = circuit x.pre k)
  | blocked (ha : x.act = ⟨.isAvailable k, false⟩) (hstate : (circuit x.pre k).state = .stateOpen)
    (hnow : x.env ≤ (circuit x.pre k).openUntil) (hpost : circuit x.post k = circuit x.pre k)
  | probed (ha : x.act = ⟨.isAvailable k, true⟩) (hstate : (circuit x.pre k).state = .stateOpen)
    (hpost : circuit x.post k =
      { circuit x.pre k with state := .stateHalfOpen, consecutiveSuccess := 0 })
  | succeeded (ha : x.act = ⟨.recordSuccess k, ()⟩)
    (hpost : circuit x.post k = (circuit x.pre k).recordSuccess cfg)
  | failed (ha : x.act = ⟨.recordFailure k, ()⟩)
    (hpost : circuit x.post k = (circuit x.pre k).recordFailure cfg x.env)

theorem isAvailable_cases {now : ℤ} {s t : Option CircuitState} {reply : Bool}
    (h : isAvailable now s = (reply, t)) :
    (reply = true ∧ (getOrCreate s).state ≠ .stateOpen ∧ t = s) ∨
      (reply = false ∧ (getOrCreate s).state = .stateOpen ∧ now ≤ (getOrCreate s).openUntil ∧ t = s) ∨
      (reply = true ∧ (getOrCreate s).state = .stateOpen ∧
        getOrCreate t = { getOrCreate s with state := .stateHalfOpen, consecutiveSuccess := 0 }) := by
  cases s with
  | none =>
    obtain ⟨rfl, rfl⟩ := Prod.mk.inj h
    refine Or.inl ⟨rfl, ?_, rfl⟩
    decide
  | some c =>
    rw [getOrCreate_some]
    unfold isAvailable at h
    dsimp only at h
    cases hc : c.state with
    | stateClosed =>
      rw [hc] at h
      obtain ⟨rfl, rfl⟩ := Prod.mk.inj h
      exact Or.inl ⟨rfl, by decide, rfl⟩
    | stateHalfOpen =>
      rw [hc] at h
      obtain ⟨rfl, rfl⟩ := Prod.mk.inj h
      exact Or.inl ⟨rfl, by decide, rfl⟩
    | stateOpen =>
      rw [hc] at h
      dsimp only at h
      split_ifs at h with hnow
      · obtain ⟨rfl, rfl⟩ := Prod.mk.inj h
        exact Or.inr (Or.inr ⟨rfl, rfl, rfl⟩)
      · obtain ⟨rfl, rfl⟩ := Prod.mk.inj h
        exact Or.inr (Or.inl ⟨rfl, rfl, not_lt.mp hnow, rfl⟩)

theorem CircuitStep.of_valid {cfg : Config} {x : Event} (hx : x.Valid (handle cfg)) (k : GoString) :
    CircuitStep cfg k x := by
  by_cases hkey : x.act.1.key = k
  · have hown := (handle_local cfg).own hx
    obtain ⟨op, reply, ha⟩ : ∃ op reply, x.act = ⟨op, reply⟩ := ⟨_, _, rfl⟩
    rw [hkey] at hown
    rw [ha] at hown hkey
    cases op with
    | isAvailable key =>
      cases hkey
      rcases isAvailable_cases hown with ⟨rfl, hs, ht⟩ | ⟨rfl, hs, hnow, ht⟩ | ⟨rfl, hs, ht⟩
      · exact .passed ha hs (congrArg getOrCreate ht)
      · exact .blocked ha hs hnow (congrArg getOrCreate ht)
      · exact .probed ha hs ht
    | recordSuccess key =>
      cases hkey
      exact .succeeded ha (congrArg getOrCreate (Prod.mk.inj hown).2).symm
    | recordFailure key =>
      cases hkey
      exact .failed ha (congrArg getOrCreate (Prod.mk.inj hown).2).symm
  · exact .elsewhere hkey (congrArg getOrCreate ((handle_local cfg).frame hx hkey))

/-- A count below a limit has room for one more. -/
theorem toInt_add_one {n limit : Int64} (h : n.toInt < limit.toInt) : (n + 1).toInt = n.toInt + 1 := by
  have hlo := Int64.le_toInt n
  have hhi := Int64.toInt_lt limit
  have hone : (1 : Int64).toInt = 1 := Int64.toInt_one
  rw [Time.toInt_add_of_fits (by omega) (by omega), hone]

section
variable {cfg : Config} {c : CircuitState}

@[simp] theorem recordSuccess_failures : (c.recordSuccess cfg).consecutiveFailures = 0 := by
  unfold CircuitState.recordSuccess
  dsimp only
  split_ifs <;> rfl

@[simp] theorem recordFailure_failures (now : ℤ) :
    (c.recordFailure cfg now).consecutiveFailures = c.consecutiveFailures + 1 := by
  unfold CircuitState.recordFailure
  dsimp only
  split
  · split_ifs <;> rfl
  · rfl
  · rfl

/-- A success closes a half-open circuit that has enough of them, and changes no other state. -/
theorem recordSuccess_cases (cfg : Config) (c : CircuitState) :
    (c.state = .stateHalfOpen ∧ cfg.halfOpenMaxRequests ≤ c.consecutiveSuccess + 1 ∧
        (c.recordSuccess cfg).state = .stateClosed) ∨
      ((c.recordSuccess cfg).state = c.state ∧ (c.recordSuccess cfg).openUntil = c.openUntil ∧
        (c.recordSuccess cfg).consecutiveSuccess = c.consecutiveSuccess + 1 ∧
        (c.state = .stateHalfOpen → c.consecutiveSuccess + 1 < cfg.halfOpenMaxRequests)) := by
  unfold CircuitState.recordSuccess
  dsimp only
  split_ifs with h
  · exact Or.inl ⟨h.1, h.2, rfl⟩
  · refine Or.inr ⟨rfl, rfl, rfl, ?_⟩
    intro hs
    by_contra hge
    exact h ⟨hs, Int64.not_lt.mp hge⟩

/-- A failure leaves a closed circuit below the threshold closed, and opens every other until `now`
plus the open duration. -/
theorem recordFailure_cases (cfg : Config) (now : ℤ) (c : CircuitState) :
    (c.state = .stateClosed ∧ c.consecutiveFailures + 1 < cfg.failureThreshold ∧
        (c.recordFailure cfg now).state = .stateClosed) ∨
      ((c.state = .stateClosed → cfg.failureThreshold ≤ c.consecutiveFailures + 1) ∧
        (c.recordFailure cfg now).state = .stateOpen ∧
        (c.recordFailure cfg now).openUntil = now + cfg.openDuration.toInt) := by
  unfold CircuitState.recordFailure
  dsimp only
  cases hs : c.state with
  | stateClosed =>
    dsimp only
    split_ifs with h
    · exact Or.inr ⟨fun _ => h, rfl, rfl⟩
    · exact Or.inl ⟨rfl, Int64.not_le.mp h, rfl⟩
  | stateOpen => exact Or.inr ⟨fun h => (nomatch h), rfl, rfl⟩
  | stateHalfOpen => exact Or.inr ⟨fun h => (nomatch h), rfl, rfl⟩

end
end SynapseGo.CircuitBreaker
