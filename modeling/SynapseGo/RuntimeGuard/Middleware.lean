import Mathlib.Data.Rat.Floor
import SynapseGo.Go.Strconv
import SynapseGo.RuntimeGuard.Limiter

/-! The Gin middleware over a limiter, and how long its `Retry-After` header tells a client to wait. -/
namespace SynapseGo.RuntimeGuard
open SynapseGo.Go SynapseGo.Concurrency

/-- A route's configuration over requests of type `ρ`. -/
structure LimitConfig (ρ : Type) where
  limit : ℤ
  window : Int64
  key : Option (ρ → GoString)

namespace LimitConfig
variable {ρ : Type}

/-- The key of a request; without a key function it is empty. -/
def keyOf (cfg : LimitConfig ρ) (req : ρ) : GoString :=
  match cfg.key with
  | some key => key req
  | none => []

def call (cfg : LimitConfig ρ) (req : ρ) : AllowCall := ⟨cfg.keyOf req, cfg.limit, cfg.window⟩

end LimitConfig

inductive Outcome where
  | aborted (status : ℕ) (error : GoString)
  | next
  deriving DecidableEq

/-- The headers set on the response, and whether the next handler runs. -/
structure Response where
  headers : List (GoString × GoString)
  outcome : Outcome
  deriving DecidableEq

/-- A limiter's answer: a decision, and the text of an error. -/
abbrev LimiterAnswer : AllowCall → Type := fun _ => Decision × Option GoString

/-- `int(d.Seconds() + 0.999)`. -/
def retryAfterSeconds (d : Int64) : ℤ := (toDuration ((d.toInt : ℚ) / 10 ^ 9 + 999 / 1000)).toInt

def limitExceeded : Outcome := .aborted 429 (lit "rate limit exceeded")

def respond (decision : Decision) (err : Option GoString) : Response :=
  if err.isSome ∨ ¬ decision.allowed then
    { headers :=
        if 0 < decision.retryAfter then
          [(lit "Retry-After", formatInt (retryAfterSeconds decision.retryAfter))]
        else []
      outcome := limitExceeded }
  else ⟨[(lit "X-RateLimit-Remaining", formatInt decision.remaining)], .next⟩

/-- One request through `GinMiddleware(l, cfg)`; a nil limiter refuses everything. -/
def ginMiddleware {ρ Env σ : Type} (l : Option (Handler AllowCall LimiterAnswer Env σ)) (cfg : LimitConfig ρ)
    (env : Env) (req : ρ) (s : σ) : Response × σ :=
  match l with
  | none => (⟨[], limitExceeded⟩, s)
  | some allow =>
    let r := allow env (cfg.call req) s
    (respond r.1.1 r.1.2, r.2)

theorem retryAfterSeconds_eq {d : Int64} (hd : 0 ≤ d.toInt) :
    retryAfterSeconds d = (d.toInt + 999000000) / 10 ^ 9 := by
  have hlt := Int64.toInt_lt d
  have hsum : (d.toInt : ℚ) / 10 ^ 9 + 999 / 1000 = ((d.toInt + 999000000 : ℤ) : ℚ) / ((10 ^ 9 : ℕ) : ℚ) := by
    push_cast
    ring
  have h0 : (0 : ℚ) ≤ (d.toInt : ℚ) / 10 ^ 9 + 999 / 1000 := by positivity
  have hbound : (d.toInt : ℚ) < 2 ^ 63 := by exact_mod_cast hlt
  have h : (d.toInt : ℚ) / 10 ^ 9 + 999 / 1000 < 2 ^ 63 := by linarith
  rw [retryAfterSeconds, toInt_toDuration h0 h, hsum, Rat.floor_intCast_div_natCast]
  norm_num

theorem respond_next {decision : Decision} {err : Option GoString} :
    (respond decision err).outcome = .next ↔ err = none ∧ decision.allowed = true := by
  unfold respond
  by_cases h : err.isSome ∨ ¬ decision.allowed
  · rw [if_pos h]
    simp only [limitExceeded, reduceCtorEq, false_iff]
    rintro ⟨rfl, hallowed⟩
    simp [hallowed] at h
  · rw [if_neg h]
    simpa [not_or] using h

/-- A response with `Retry-After` was a refusal with a positive wait. -/
theorem respond_retryAfter {decision : Decision} {err : Option GoString} {h : ℤ}
    (hh : (lit "Retry-After", formatInt h) ∈ (respond decision err).headers) :
    0 < decision.retryAfter ∧ h = retryAfterSeconds decision.retryAfter := by
  unfold respond at hh
  split_ifs at hh with hrefused hretry
  · have heq := List.mem_singleton.mp hh
    exact ⟨hretry, formatInt_injective (Prod.mk.inj heq).2⟩
  · simp at hh
  · have hname : lit "Retry-After" ≠ lit "X-RateLimit-Remaining" := by decide
    exact absurd (Prod.mk.inj (List.mem_singleton.mp hh)).1 hname

namespace MemoryLimiter

/-- The limiter in memory never fails. -/
def limiter : Handler AllowCall LimiterAnswer ℤ Buckets := fun now c s =>
  (((allow now c s).1, none), (allow now c s).2)

theorem consume_allowed_iff {now limit : ℤ} {window : Int64} {b : Bucket} (hlimit : 0 < limit)
    (hwindow : 0 < window) : (consume now limit window b).1.allowed = true ↔
      b.windowStart = 0 ∨ window.toInt ≤ now - b.windowStart ∨ b.count < limit := by
  rw [← or_assoc]
  by_cases hopen : b.windowStart = 0 ∨ window.toInt ≤ now - b.windowStart
  · rw [consume_of_open hlimit hwindow hopen]
    simp [hopen]
  · have hclosed := hopen
    rw [not_or, not_le] at hopen
    by_cases hfull : limit ≤ b.count
    · rw [consume_of_full hwindow hopen.1 hopen.2 hfull]
      simp [hclosed, not_lt.mpr hfull]
    · rw [consume_of_room hwindow hopen.1 hopen.2 (not_le.mp hfull)]
      simp [not_le.mp hfull]

/-- A refused request has found its window open and full. -/
theorem full_of_refused {now limit : ℤ} {window : Int64} {b : Bucket} (hlimit : 0 < limit)
    (hwindow : 0 < window) (h : (respond (consume now limit window b).1 none).outcome = limitExceeded) :
    b.windowStart ≠ 0 ∧ now - b.windowStart < window.toInt ∧ limit ≤ b.count := by
  have hfull : ¬ (b.windowStart = 0 ∨ window.toInt ≤ now - b.windowStart ∨ b.count < limit) := by
    rw [← consume_allowed_iff hlimit hwindow]
    intro hallowed
    rw [respond_next.mpr ⟨rfl, hallowed⟩] at h
    cases h
  simpa only [not_or, not_le, not_lt] using hfull

/-- The seconds announced until `due`, with the wait saturated as a duration. -/
theorem retryAfterSeconds_until {due t : ℤ} (h : 0 < due - t) : retryAfterSeconds (subNanos due t) =
    ((if 2 ^ 63 ≤ due - t then 2 ^ 63 - 1 else due - t) + 999000000) / 10 ^ 9 := by
  have hwait : (subNanos due t).toInt = if 2 ^ 63 ≤ due - t then 2 ^ 63 - 1 else due - t := by
    rw [toInt_subNanos, if_neg (by omega)]
  have hnonneg : 0 ≤ (subNanos due t).toInt := by
    rw [hwait]
    split_ifs <;> omega
  rw [retryAfterSeconds_eq hnonneg, hwait]

/-- How the announced wait compares with what is left of the window. -/
theorem retry_after_exact (rem : ℤ) (hrem : 0 < rem) :
    rem ≤ ((if 2 ^ 63 ≤ rem then 2 ^ 63 - 1 else rem) + 999000000) / 10 ^ 9 * 10 ^ 9 ↔
      rem ≤ 9223372037 * 10 ^ 9 ∧ (rem % 10 ^ 9 = 0 ∨ 10 ^ 6 ≤ rem % 10 ^ 9) := by
  split_ifs <;> omega

/-- The key is not blank and the configuration is positive. -/
def Admissible {ρ : Type} (cfg : LimitConfig ρ) (req : ρ) : Prop :=
  trimSpace (cfg.keyOf req) ≠ [] ∧ 1 ≤ cfg.limit ∧ 0 < cfg.window

instance {ρ : Type} (cfg : LimitConfig ρ) (req : ρ) : Decidable (Admissible cfg req) :=
  inferInstanceAs (Decidable (_ ∧ _ ∧ _))

theorem ginMiddleware_eq {ρ : Type} {cfg : LimitConfig ρ} {req : ρ} (hvalid : Admissible cfg req) (now : ℤ)
    (s : Buckets) : ginMiddleware (some limiter) cfg now req s =
      (respond (consume now cfg.limit cfg.window (s (trimSpace (cfg.keyOf req)))).1 none,
        Function.update s (trimSpace (cfg.keyOf req))
          (consume now cfg.limit cfg.window (s (trimSpace (cfg.keyOf req)))).2) := by
  have hcall : ¬ (cfg.call req).Invalid := by
    obtain ⟨hkey, hlimit, hwindow⟩ := hvalid
    have hlimit : ¬ cfg.limit ≤ 0 := by omega
    simp [AllowCall.Invalid, LimitConfig.call, hkey, hlimit, hwindow]
  simp only [ginMiddleware, limiter, allow, if_neg hcall]
  rfl

/-- Waiting as long as `Retry-After` says is enough exactly when the announced seconds cover what is left
of the window: adding 0.999 rounds a last part below a millisecond down. -/
theorem retryAfter_honoured_iff {ρ : Type} {cfg : LimitConfig ρ} {req : ρ} (hvalid : Admissible cfg req)
    {s s' : Buckets} {t h : ℤ}
    (hrejected : (ginMiddleware (some limiter) cfg t req s).1.outcome = limitExceeded)
    (hheader : (lit "Retry-After", formatInt h) ∈ (ginMiddleware (some limiter) cfg t req s).1.headers)
    (huntouched : s' (trimSpace (cfg.keyOf req)) =
      (ginMiddleware (some limiter) cfg t req s).2 (trimSpace (cfg.keyOf req))) :
    (ginMiddleware (some limiter) cfg (t + h * 10 ^ 9) req s').1.outcome = .next ↔
      let left := (s (trimSpace (cfg.keyOf req))).windowStart + cfg.window.toInt - t
      left ≤ 9223372037 * 10 ^ 9 ∧ (left % 10 ^ 9 = 0 ∨ 10 ^ 6 ≤ left % 10 ^ 9) := by
  obtain ⟨-, hlimit, hwindow⟩ := id hvalid
  rw [ginMiddleware_eq hvalid] at hrejected hheader huntouched
  rw [ginMiddleware_eq hvalid]
  dsimp only at hrejected hheader huntouched ⊢
  rw [Function.update_self] at huntouched
  generalize s (trimSpace (cfg.keyOf req)) = b at *
  obtain ⟨hset, hnow, hcount⟩ := full_of_refused (by omega) hwindow hrejected
  rw [consume_of_full hwindow hset hnow hcount] at hheader huntouched
  change s' (trimSpace (cfg.keyOf req)) = b at huntouched
  have hseconds : h = ((if 2 ^ 63 ≤ b.windowStart + cfg.window.toInt - t then 2 ^ 63 - 1
      else b.windowStart + cfg.window.toInt - t) + 999000000) / 10 ^ 9 := by
    rw [(respond_retryAfter hheader).2]
    exact retryAfterSeconds_until (by omega)
  rw [respond_next, consume_allowed_iff (by omega) hwindow, huntouched,
    ← retry_after_exact _ (by omega), ← hseconds]
  constructor
  · rintro ⟨-, hzero | hold | hroom⟩
    · exact absurd hzero hset
    · omega
    · omega
  · intro hleft
    exact ⟨rfl, Or.inr (Or.inl (by omega))⟩

/-- One request a minute, with the only one of this minute taken at time 1. -/
def minuteRoute : LimitConfig Unit := ⟨1, 60000000000, some fun _ => lit "k"⟩

def minuteTaken : Buckets := fun _ => ⟨1, 1⟩

theorem halfSecond_honoured : Admissible minuteRoute () ∧
    (lit "Retry-After", formatInt 60) ∈
    (ginMiddleware (some limiter) minuteRoute 500000001 () minuteTaken).1.headers ∧
    (ginMiddleware (some limiter) minuteRoute (500000001 + 60 * 10 ^ 9) ()
      (ginMiddleware (some limiter) minuteRoute 500000001 () minuteTaken).2).1.outcome = .next :=
  ⟨by decide, by decide +kernel,
    (retryAfter_honoured_iff (by decide) (by decide +kernel) (by decide +kernel) rfl).mpr (by decide)⟩

/-- With 1.0005 s left the header says 1, and a request one second later is refused again. -/
theorem submillisecond_not_honoured : Admissible minuteRoute () ∧
    (ginMiddleware (some limiter) minuteRoute 58999500001 () minuteTaken).1 =
      ⟨[(lit "Retry-After", lit "1")], limitExceeded⟩ ∧
    (ginMiddleware (some limiter) minuteRoute (58999500001 + 1 * 10 ^ 9) ()
      (ginMiddleware (some limiter) minuteRoute 58999500001 () minuteTaken).2).1.outcome = limitExceeded := by
  decide +kernel

end MemoryLimiter
end SynapseGo.RuntimeGuard
