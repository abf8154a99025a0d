import SynapseGo.Redis.Store
import SynapseGo.RuntimeGuard.Limiter

/-! The fixed-window limiter on Redis. The script runs as one atomic step; times are milliseconds. -/
namespace SynapseGo.RuntimeGuard.RedisLimiter
open SynapseGo.Go SynapseGo.Concurrency SynapseGo.Redis

/-- Numbers in the script are doubles. -/
def redisLimiterScript {κ : Type} [DecidableEq κ] (now : ℤ) (key : κ) (window limit : ℤ) :
    Script κ (List ℤ) := do
  let current ← getNumber now key
  let window := roundDouble window
  let limit := roundDouble limit
  let ttl := roundDouble (← pttl now key)
  if current ≥ limit then
    if ttl < 0 then
      let _ ← pexpire now key (← integerArg window)
      return [0, current, window]
    return [0, current, ttl]
  let current := roundDouble (← incrBy now key 1)
  if current = 1 ∨ ttl < 0 then
    let _ ← pexpire now key (← integerArg window)
    return [1, current, window]
  return [1, current, ttl]

def redisLimiterDecision (allowed count ttl limit : ℤ) (window : Int64) : Decision :=
  let remaining := limit - count
  let remaining := if remaining < 0 then 0 else remaining
  let retryAfter := Int64.ofInt ttl * 1000000
  let retryAfter := if retryAfter < 0 then 0 else retryAfter
  if allowed = 1 then ⟨true, remaining, 0⟩
  else
    let retryAfter := if retryAfter = 0 then window else retryAfter
    ⟨false, 0, retryAfter⟩

def redisKeyPrefix (opt : GoString) : GoString :=
  let opt := trimSpace opt
  if opt = [] then lit "runtimeguard:"
  else if (lit ":").isSuffixOf opt then opt
  else opt ++ lit ":"

def durationMillis (d : Int64) : Int64 :=
  let ms := d / 1000000
  if ms ≤ 0 then 1 else ms

def limiterKey (keyPrefix key : GoString) : GoString := keyPrefix ++ lit "limiter:" ++ key

/-- `Allow`: a decision and an error text. -/
abbrev Answers : AllowCall → Type := fun _ => Decision × Option GoString

def allow (keyPrefix : GoString) : Handler AllowCall Answers ℤ (Store GoString) := fun now c s =>
  let key := trimSpace c.key
  if c.Invalid then ((⟨false, 0, c.window⟩, none), s)
  else
    match redisLimiterScript now (limiterKey keyPrefix key) (durationMillis c.window).toInt c.limit s with
    | (.error text, t) => ((⟨false, 0, c.window⟩, some text), t)
    | (.ok [allowed, count, ttl], t) => ((redisLimiterDecision allowed count ttl c.limit c.window, none), t)
    | (.ok _, t) => ((⟨false, 0, c.window⟩, some (lit "runtimeguard: invalid redis limiter response")), t)

section Script
variable {κ : Type} {now window limit c e : ℤ} {key : κ} {s : Store κ}

/-- What the script reads of a key in its window. -/
theorem read_present (hs : s.live now key = some ⟨c, some e⟩) :
    s.counter now key = c ∧ pttl now key s = (.ok (e - now), s) := by
  constructor
  · unfold Store.counter
    rw [hs]
    rfl
  · unfold pttl
    rw [hs]
    rfl

variable [DecidableEq κ]

/-- Below the limit the script increments the key, and sets its expiry where the key had none. -/
theorem redisLimiterScript_below {n ttl m : ℤ} {t : Store κ} (hcounter : s.counter now key = n)
    (hpttl : pttl now key s = (.ok ttl, s)) (hroom : roundDouble n < roundDouble limit)
    (hincr : incrBy now key 1 s = (.ok m, t)) :
    redisLimiterScript now key window limit s =
      (if roundDouble m = 1 ∨ roundDouble ttl < 0 then do
        let _ ← pexpire now key (← integerArg (roundDouble window))
        return [1, roundDouble m, roundDouble window]
      else return [1, roundDouble m, roundDouble ttl] : Script κ (List ℤ)) t := by
  unfold redisLimiterScript
  rw [Script.bind_apply]
  unfold getNumber
  rw [hcounter]
  dsimp only
  rw [Script.bind_apply, hpttl]
  dsimp only
  rw [if_neg (not_le.mpr hroom), Script.bind_apply, hincr]

/-- Without the key the script opens a window. -/
theorem redisLimiterScript_absent (hs : s.live now key = none) (hlimit : 0 < limit)
    (hwindow : 0 < window) (hexact : window ≤ 2 ^ 53) :
    redisLimiterScript now key window limit s =
      (.ok [1, 1, window], Function.update s key (some ⟨1, some (now + window)⟩)) := by
  have hone : roundDouble 1 = 1 := rfl
  have hround : roundDouble window = window := roundDouble_of_natAbs_le (by omega)
  have hcounter : s.counter now key = 0 := by
    unfold Store.counter
    rw [hs]
    rfl
  have hpttl : pttl now key s = (.ok (-2), s) := by
    unfold pttl
    rw [hs]
  have hincr : incrBy now key 1 s =
      (.ok 1, Function.update s key (some ⟨1, (s.live now key).bind Cell.expireAt⟩)) := by
    unfold incrBy
    rw [hcounter]
    rfl
  rw [redisLimiterScript_below hcounter hpttl (roundDouble_pos hlimit) hincr, if_pos (Or.inl hone), hround,
    Script.bind_apply, integerArg_of_lt (by omega)]
  dsimp only
  rw [Script.bind_apply, pexpire_incremented hwindow]
  rfl

theorem redisLimiterScript_full (hs : s.live now key = some ⟨c, some e⟩) (hnow : now < e)
    (hfull : roundDouble limit ≤ roundDouble c) :
    redisLimiterScript now key window limit s =
      (.ok [0, roundDouble c, roundDouble (e - now)], s) := by
  obtain ⟨hcounter, hpttl⟩ := read_present hs
  have hpos := roundDouble_pos (show 0 < e - now by omega)
  unfold redisLimiterScript
  rw [Script.bind_apply]
  unfold getNumber
  rw [hcounter]
  dsimp only
  rw [Script.bind_apply, hpttl]
  dsimp only
  rw [if_pos hfull, if_neg (by omega)]
  rfl

theorem redisLimiterScript_room (hs : s.live now key = some ⟨c, some e⟩) (hnow : now < e)
    (hroom : roundDouble c < roundDouble limit) (hlo : 1 ≤ c) (hhi : c < 2 ^ 53) :
    redisLimiterScript now key window limit s =
      (.ok [1, c + 1, roundDouble (e - now)], Function.update s key (some ⟨c + 1, some e⟩)) := by
  obtain ⟨hcounter, hpttl⟩ := read_present hs
  have hpos := roundDouble_pos (show 0 < e - now by omega)
  have hround : roundDouble (c + 1) = c + 1 := roundDouble_of_natAbs_le (by omega)
  have hincr : incrBy now key 1 s = (.ok (c + 1), Function.update s key (some ⟨c + 1, some e⟩)) := by
    unfold incrBy
    rw [hcounter, hs]
    exact if_pos (by omega)
  rw [redisLimiterScript_below hcounter hpttl hroom hincr, hround, if_neg (by omega)]
  rfl

end Script

theorem redisLimiterDecision_allowed {count ttl limit : ℤ} {window : Int64} (h : count ≤ limit) :
    redisLimiterDecision 1 count ttl limit window = ⟨true, limit - count, 0⟩ := by
  unfold redisLimiterDecision
  dsimp only
  rw [if_pos rfl, if_neg (by omega)]

theorem redisLimiterDecision_denied {count ttl limit : ℤ} {window retry : Int64} (hpos : 0 < ttl)
    (hretry : retry.toInt = ttl * 10 ^ 6) :
    redisLimiterDecision 0 count ttl limit window = ⟨false, 0, retry⟩ := by
  have hlt := Int64.toInt_lt retry
  have hmillion : Int64.toInt 1000000 = 10 ^ 6 := by decide
  have hmul : Int64.ofInt ttl * 1000000 = retry := by
    apply Int64.toInt_inj.mp
    rw [Int64.toInt_mul, Int64.toInt_ofInt_of_le (by omega) (by omega), hretry, hmillion]
    apply Int.bmod_eq_of_le <;> omega
  have hneg : ¬ retry < 0 := by
    rw [Int64.lt_iff_toInt_lt, Int64.toInt_zero]
    omega
  have hne : retry ≠ 0 := by
    intro h
    rw [h, Int64.toInt_zero] at hretry
    omega
  unfold redisLimiterDecision
  dsimp only
  rw [hmul, if_neg hneg, if_neg (by decide), if_neg hne]

/-- A whole number of milliseconds is converted exactly. -/
theorem durationMillis_of_whole {d : Int64} {ms : ℤ} (hms : 0 < ms) (hd : d.toInt = ms * 10 ^ 6) :
    (durationMillis d).toInt = ms := by
  have hdiv : (d / 1000000).toInt = ms := by
    rw [Int64.toInt_div_of_ne_right _ _ (by decide), hd]
    exact Int.mul_tdiv_cancel ms (by decide)
  unfold durationMillis
  dsimp only
  rw [if_neg]
  · exact hdiv
  · rw [Int64.le_iff_toInt_le, hdiv, Int64.toInt_zero]
    omega

theorem limiterKey_injective (keyPrefix : GoString) : Function.Injective (limiterKey keyPrefix) := by
  intro k k' h
  exact List.append_cancel_left h

end SynapseGo.RuntimeGuard.RedisLimiter
