import SynapseGo.Redis.Store

/-! The three Lua scripts of the limiter, each one atomic step of the Redis server. -/
namespace SynapseGo.RateLimit
open SynapseGo.Go SynapseGo.Redis

/-- One key of the check script with its `ARGV` triple. -/
structure Quota (κ : Type) where
  key : κ
  limit : ℤ
  increment : ℤ
  ttl : ℤ
  deriving DecidableEq, Repr

variable {κ : Type}

/-- `current + increment > limit`, in doubles. -/
def Quota.Exceeded (now : ℤ) (s : Store κ) (q : Quota κ) : Prop :=
  roundDouble (roundDouble (s.counter now q.key) + roundDouble q.increment) > roundDouble q.limit

instance (now : ℤ) (s : Store κ) (q : Quota κ) : Decidable (q.Exceeded now s) :=
  inferInstanceAs (Decidable (_ > _))

/-- Below `2^53` the test in doubles is the test in integers. -/
theorem Quota.not_exceeded_iff {now : ℤ} {s : Store κ} {q : Quota κ} (hc : 0 ≤ s.counter now q.key)
    (hi : 0 ≤ q.increment) (hl₀ : 0 ≤ q.limit) (hl : q.limit < 2 ^ 53) :
    ¬ q.Exceeded now s ↔ s.counter now q.key + q.increment ≤ q.limit := by
  have hround : ∀ n : ℤ, 0 ≤ n → (n ≤ 2 ^ 53 ∧ roundDouble n = n) ∨
    (2 ^ 53 < n ∧ 2 ^ 53 ≤ roundDouble n) := by
    intro n hn
    by_cases hle : n ≤ 2 ^ 53
    · exact Or.inl ⟨hle, roundDouble_of_natAbs_le (by omega)⟩
    · exact Or.inr ⟨by omega, le_roundDouble (by omega)⟩
  have hcounter := hround _ hc
  have hincrement := hround _ hi
  unfold Quota.Exceeded
  rw [gt_iff_lt, not_lt, roundDouble_of_natAbs_le (show q.limit.natAbs ≤ 2 ^ 53 by omega),
    roundDouble_le_iff (by omega) hl]
  omega

/-- The increment is an integer argument and does not overflow the counter. -/
def Quota.Fits (now : ℤ) (s : Store κ) (q : Quota κ) : Prop :=
  (roundDouble q.increment).natAbs < 10 ^ 17 ∧ -2 ^ 63 ≤ s.counter now q.key + roundDouble q.increment ∧
    s.counter now q.key + roundDouble q.increment < 2 ^ 63

theorem Quota.fits_of_le {now : ℤ} {s : Store κ} {q : Quota κ} (hc : 0 ≤ s.counter now q.key)
    (hi : 0 ≤ q.increment) (hl : q.limit < 2 ^ 53) (h : s.counter now q.key + q.increment ≤ q.limit) :
    q.Fits now s := by
  unfold Quota.Fits
  rw [roundDouble_of_natAbs_le (show q.increment.natAbs ≤ 2 ^ 53 by omega)]
  omega

/-- Phase 1 from position `i` on: the index that is denied, and the results so far. -/
def checkLimits (now : ℤ) (s : Store κ) : ℤ → List (Quota κ) → Option ℤ × List ℤ
  | _, [] => (none, [])
  | i, q :: quotas =>
    if q.Exceeded now s then (some i, [])
    else
      let remaining := roundDouble (roundDouble (roundDouble q.limit - roundDouble (s.counter now q.key)) -
        roundDouble q.increment)
      ((checkLimits now s (i + 1) quotas).1, remaining :: (checkLimits now s (i + 1) quotas).2)

theorem checkLimits_eq_none {now : ℤ} {s : Store κ} {i : ℤ} {quotas : List (Quota κ)} :
    (checkLimits now s i quotas).1 = none ↔ ∀ q ∈ quotas, ¬ q.Exceeded now s := by
  induction quotas generalizing i with
  | nil => simp [checkLimits]
  | cons q quotas ih =>
    unfold checkLimits
    split_ifs with hq
    · simp [hq]
    · rw [List.forall_mem_cons]
      dsimp only
      rw [ih]
      exact ⟨fun h => ⟨hq, h⟩, fun h => h.2⟩

variable [DecidableEq κ]

/-- Phase 2: every key is incremented and its expiry renewed. -/
def incrementAll (now : ℤ) : List (Quota κ) → Script κ (List ℤ)
  | [] => return []
  | q :: quotas => do
    let newVal ← bump now q.key (roundDouble q.increment) (roundDouble q.ttl)
    let results ← incrementAll now quotas
    return roundDouble (roundDouble q.limit - roundDouble newVal) :: results

def luaCheckAndIncrement (now : ℤ) (quotas : List (Quota κ)) : Script κ (List ℤ) := do
  match checkLimits now (← get) 0 quotas with
  | (some denyIndex, results) =>
    return 0 :: denyIndex :: (results ++ List.replicate (quotas.length - results.length) 0)
  | (none, _) => return 1 :: -1 :: (← incrementAll now quotas)

def luaConcurrencyAcquire (now : ℤ) (key : κ) (limit ttl : ℤ) : Script κ ℤ := do
  let current ← getNumber now key
  if current ≥ roundDouble limit then return 0
  let _ ← bump now key 1 (roundDouble ttl)
  return 1

def luaConcurrencyRelease (now : ℤ) (key : κ) : Script κ ℤ := do
  let current ← getNumber now key
  if current > 0 then decrBy now key 1 else return 0

theorem roundDouble_ttl {ttl : ℤ} (ht : ValidTTL ttl) : roundDouble ttl = ttl := by
  obtain ⟨hpos, hle⟩ := ht
  exact roundDouble_of_natAbs_le (by omega)

/-- The key of a quota after phase 2. -/
def Quota.charged (now : ℤ) (s : Store κ) (q : Quota κ) : Cell :=
  ⟨s.counter now q.key + roundDouble q.increment, some (now + q.ttl * 1000)⟩

theorem incrementAll_cons (now : ℤ) (q : Quota κ) (quotas : List (Quota κ)) (s : Store κ) :
    incrementAll now (q :: quotas) s =
      match bump now q.key (roundDouble q.increment) (roundDouble q.ttl) s with
      | (.error text, t) => (.error text, t)
      | (.ok newVal, t) =>
        match incrementAll now quotas t with
        | (.error text, u) => (.error text, u)
        | (.ok results, u) =>
          (.ok (roundDouble (roundDouble q.limit - roundDouble newVal) :: results), u) := by
  show (bump now q.key (roundDouble q.increment) (roundDouble q.ttl) >>= _) s = _
  rw [Script.bind_apply]
  rcases bump now q.key (roundDouble q.increment) (roundDouble q.ttl) s with ⟨text | newVal, t⟩
  · rfl
  · dsimp only
    rw [Script.bind_apply]
    rcases incrementAll now quotas t with ⟨_ | _, u⟩ <;> rfl

/-- Phase 2 stops at once, or charges its first key and goes on. -/
theorem incrementAll_cons_cases {now : ℤ} {q : Quota κ} (hq : ValidTTL q.ttl) {quotas : List (Quota κ)}
    {s t : Store κ} {reply : Except GoString (List ℤ)}
    (h : incrementAll now (q :: quotas) s = (reply, t)) :
    (∃ text, reply = .error text ∧ t = s) ∨
      ∃ rest, incrementAll now quotas (Function.update s q.key (some (q.charged now s))) = (rest, t) ∧
        ((∃ text, reply = .error text ∧ rest = .error text) ∨
          ∃ r results, reply = .ok (r :: results) ∧ rest = .ok results) := by
  rw [incrementAll_cons] at h
  rcases hb : bump now q.key (roundDouble q.increment) (roundDouble q.ttl) s with ⟨reply', t'⟩
  rw [hb] at h
  rw [roundDouble_ttl hq] at hb
  rcases bump_cases hq hb with ⟨text, rfl, rfl⟩ | ⟨rfl, rfl⟩
  · obtain ⟨rfl, rfl⟩ := Prod.mk.inj h
    exact Or.inl ⟨text, rfl, rfl⟩
  · refine Or.inr ?_
    dsimp only at h
    unfold Quota.charged
    rcases hi : incrementAll now quotas (Function.update s q.key
      (some ⟨s.counter now q.key + roundDouble q.increment, some (now + q.ttl * 1000)⟩)) with
        ⟨text | results, u⟩
    · rw [hi] at h
      obtain ⟨rfl, rfl⟩ := Prod.mk.inj h
      exact ⟨_, rfl, Or.inl ⟨text, rfl, rfl⟩⟩
    · rw [hi] at h
      obtain ⟨rfl, rfl⟩ := Prod.mk.inj h
      exact ⟨_, rfl, Or.inr ⟨_, results, rfl, rfl⟩⟩

/-- Phase 2 leaves all other keys alone, whether it completes or not. -/
theorem incrementAll_frame {now : ℤ} {quotas : List (Quota κ)} (hq : ∀ q ∈ quotas, ValidTTL q.ttl)
    {s t : Store κ} {reply : Except GoString (List ℤ)} (h : incrementAll now quotas s = (reply, t)) {k : κ}
    (hk : ∀ q ∈ quotas, q.key ≠ k) : t k = s k := by
  induction quotas generalizing s reply with
  | nil =>
    obtain ⟨-, rfl⟩ := Prod.mk.inj h
    rfl
  | cons q quotas ih =>
    rw [List.forall_mem_cons] at hq hk
    rcases incrementAll_cons_cases hq.1 h with ⟨_, -, rfl⟩ | ⟨rest, hrest, -⟩
    · rfl
    · rw [ih hq.2 hrest hk.2, Function.update_of_ne (Ne.symm hk.1)]

theorem Quota.charged_update_of_ne {q : Quota κ} {k : κ} (h : q.key ≠ k) (now : ℤ) (s : Store κ)
    (c : Option Cell) : q.charged now (Function.update s k c) = q.charged now s := by
  unfold Quota.charged
  rw [Store.counter_congr (Function.update_of_ne h c s)]

/-- A completed phase 2 has charged every key. -/
theorem incrementAll_ok {now : ℤ} {quotas : List (Quota κ)} (hq : ∀ q ∈ quotas, ValidTTL q.ttl)
    (hnodup : (quotas.map Quota.key).Nodup) {s t : Store κ} {results : List ℤ}
    (h : incrementAll now quotas s = (.ok results, t)) : ∀ q ∈ quotas, t q.key = some (q.charged now s) := by
  induction quotas generalizing s results with
  | nil => simp
  | cons q quotas ih =>
    rw [List.forall_mem_cons] at hq
    rw [List.map_cons, List.nodup_cons] at hnodup
    have hne : ∀ q' ∈ quotas, q'.key ≠ q.key := by
      intro q' hq' heq
      exact hnodup.1 (List.mem_map.mpr ⟨q', hq', heq⟩)
    rcases incrementAll_cons_cases hq.1 h with ⟨_, he, -⟩ | ⟨rest, hrest, hr⟩
    · cases he
    · rcases hr with ⟨_, he, -⟩ | ⟨r, results', -, rfl⟩
      · cases he
      · rw [List.forall_mem_cons]
        constructor
        · rw [incrementAll_frame hq.2 hrest hne, Function.update_self]
        · intro q' hq'
          rw [ih hq.2 hnodup.2 hrest q' hq', Quota.charged_update_of_ne (hne q' hq')]

/-- A phase 2 that fails has not reached its last key. -/
theorem incrementAll_error {now : ℤ} {quotas : List (Quota κ)} {q : Quota κ}
    (hq : ∀ q' ∈ quotas ++ [q], ValidTTL q'.ttl) (hne : ∀ q' ∈ quotas, q'.key ≠ q.key) {s t : Store κ}
    {text : GoString} (h : incrementAll now (quotas ++ [q]) s = (.error text, t)) : t q.key = s q.key := by
  induction quotas generalizing s text with
  | nil =>
    rcases incrementAll_cons_cases (hq q (by simp)) h with ⟨_, -, rfl⟩ | ⟨rest, hrest, hr⟩
    · rfl
    · rcases hr with ⟨_, -, rfl⟩ | ⟨_, _, he, -⟩
      · cases (Prod.mk.inj hrest).1
      · cases he
  | cons q' quotas ih =>
    rw [List.cons_append, List.forall_mem_cons] at hq
    rw [List.forall_mem_cons] at hne
    rcases incrementAll_cons_cases hq.1 h with ⟨_, -, rfl⟩ | ⟨rest, hrest, hr⟩
    · rfl
    · rcases hr with ⟨_, -, rfl⟩ | ⟨_, _, he, -⟩
      · rw [ih hq.2 hne.2 hrest, Function.update_of_ne (Ne.symm hne.1)]
      · cases he

theorem incrementAll_of_fits {now : ℤ} {quotas : List (Quota κ)} (hq : ∀ q ∈ quotas, ValidTTL q.ttl)
    (hnodup : (quotas.map Quota.key).Nodup) {s : Store κ} (hfits : ∀ q ∈ quotas, q.Fits now s) :
    ∃ results t, incrementAll now quotas s = (.ok results, t) := by
  induction quotas generalizing s with
  | nil => exact ⟨[], s, rfl⟩
  | cons q quotas ih =>
    rw [List.forall_mem_cons] at hq hfits
    rw [List.map_cons, List.nodup_cons] at hnodup
    obtain ⟨harg, hlo, hhi⟩ := hfits.1
    have hrest : ∀ q' ∈ quotas, q'.Fits now (Function.update s q.key (some (q.charged now s))) := by
      intro q' hq'
      have hne : q'.key ≠ q.key := fun heq => hnodup.1 (List.mem_map.mpr ⟨q', hq', heq⟩)
      have hfit := hfits.2 q' hq'
      unfold Quota.Fits at hfit ⊢
      rwa [Store.counter_congr (Function.update_of_ne hne _ s)]
    obtain ⟨results, t, ht⟩ := ih hq.2 hnodup.2 hrest
    unfold Quota.charged at ht
    rw [incrementAll_cons, roundDouble_ttl hq.1, bump_of_mem hq.1 harg hlo hhi]
    dsimp only
    rw [ht]
    exact ⟨_, t, rfl⟩

theorem luaCheckAndIncrement_of_denied {now : ℤ} {quotas : List (Quota κ)} {s : Store κ} {denyIndex : ℤ}
    {results : List ℤ} (h : checkLimits now s 0 quotas = (some denyIndex, results)) :
    luaCheckAndIncrement now quotas s =
      (.ok (0 :: denyIndex :: (results ++ List.replicate (quotas.length - results.length) 0)), s) := by
  unfold luaCheckAndIncrement
  rw [Script.bind_apply]
  change (match checkLimits now s 0 quotas with
    | (some denyIndex, results) => _
    | (none, _) => _ : Script κ (List ℤ)) s = _
  rw [h]
  rfl

theorem luaCheckAndIncrement_of_allowed {now : ℤ} {quotas : List (Quota κ)} {s : Store κ}
    (h : (checkLimits now s 0 quotas).1 = none) :
    luaCheckAndIncrement now quotas s =
      ((incrementAll now quotas s).1.map fun results => 1 :: -1 :: results,
        (incrementAll now quotas s).2) := by
  unfold luaCheckAndIncrement
  rw [Script.bind_apply]
  change (match checkLimits now s 0 quotas with
    | (some denyIndex, results) => _
    | (none, _) => _ : Script κ (List ℤ)) s = _
  rcases hc : checkLimits now s 0 quotas with ⟨_ | denyIndex, results⟩
  · dsimp only
    rw [Script.bind_apply]
    rcases incrementAll now quotas s with ⟨text | results', t⟩
    · rfl
    · rfl
  · rw [hc] at h
    cases h

/-- The script denies and changes nothing, or passes on to phase 2. -/
theorem luaCheckAndIncrement_cases {now : ℤ} {quotas : List (Quota κ)} {s t : Store κ}
    {reply : Except GoString (List ℤ)} (h : luaCheckAndIncrement now quotas s = (reply, t)) :
    ((∃ q ∈ quotas, q.Exceeded now s) ∧ t = s ∧ ∃ denyIndex results,
      reply = .ok (0 :: denyIndex :: results)) ∨ ((∀ q ∈ quotas, ¬ q.Exceeded now s) ∧
        ((∃ text, reply = .error text ∧ incrementAll now quotas s = (.error text, t)) ∨
          ∃ results, reply = .ok (1 :: -1 :: results) ∧ incrementAll now quotas s = (.ok results, t))) := by
  have hcheck : (checkLimits now s 0 quotas).1 = none ↔ ∀ q ∈ quotas, ¬ q.Exceeded now s :=
    checkLimits_eq_none
  rcases hc : checkLimits now s 0 quotas with ⟨_ | denyIndex, results⟩
  · rw [luaCheckAndIncrement_of_allowed (by rw [hc])] at h
    rw [hc] at hcheck
    refine Or.inr ⟨hcheck.mp rfl, ?_⟩
    rcases hi : incrementAll now quotas s with ⟨text | results', u⟩
    · rw [hi] at h
      obtain ⟨rfl, rfl⟩ := Prod.mk.inj h
      exact Or.inl ⟨text, rfl, rfl⟩
    · rw [hi] at h
      obtain ⟨rfl, rfl⟩ := Prod.mk.inj h
      exact Or.inr ⟨results', rfl, rfl⟩
  · rw [luaCheckAndIncrement_of_denied hc] at h
    rw [hc] at hcheck
    obtain ⟨rfl, rfl⟩ := Prod.mk.inj h
    refine Or.inl ⟨?_, rfl, denyIndex, _, rfl⟩
    by_contra hall
    push Not at hall
    cases hcheck.mpr hall

theorem luaConcurrencyAcquire_cases {now limit ttl : ℤ} (ht : ValidTTL ttl) {k : κ} {s t : Store κ}
    {reply : Except GoString ℤ} (h : luaConcurrencyAcquire now k limit ttl s = (reply, t)) :
    (∃ text, reply = .error text ∧ t = s) ∨ (reply = .ok 0 ∧ t = s) ∨
      (reply = .ok 1 ∧ roundDouble (s.counter now k) < roundDouble limit ∧
        t = Function.update s k (some ⟨s.counter now k + 1, some (now + ttl * 1000)⟩)) := by
  unfold luaConcurrencyAcquire at h
  rw [Script.bind_apply] at h
  unfold getNumber at h
  dsimp only at h
  split_ifs at h with hfull
  · obtain ⟨rfl, rfl⟩ := Prod.mk.inj h
    exact Or.inr (Or.inl ⟨rfl, rfl⟩)
  · rw [Script.bind_apply, roundDouble_ttl ht] at h
    rcases hb : bump now k 1 ttl s with ⟨reply', t'⟩
    rw [hb] at h
    rcases bump_cases ht hb with ⟨text, rfl, rfl⟩ | ⟨rfl, rfl⟩
    · obtain ⟨rfl, rfl⟩ := Prod.mk.inj h
      exact Or.inl ⟨text, rfl, rfl⟩
    · obtain ⟨rfl, rfl⟩ := Prod.mk.inj h
      exact Or.inr (Or.inr ⟨rfl, not_le.mp hfull, rfl⟩)

theorem luaConcurrencyRelease_cases {now : ℤ} {k : κ} {s t : Store κ} {reply : Except GoString ℤ}
    (h : luaConcurrencyRelease now k s = (reply, t)) :
    (∃ text, reply = .error text ∧ t = s) ∨ (roundDouble (s.counter now k) ≤ 0 ∧ reply = .ok 0 ∧ t = s) ∨
      (reply = .ok (s.counter now k - 1) ∧
        t = Function.update s k (some ⟨s.counter now k - 1, (s.live now k).bind Cell.expireAt⟩)) := by
  unfold luaConcurrencyRelease at h
  rw [Script.bind_apply] at h
  unfold getNumber at h
  dsimp only at h
  split_ifs at h with hpos
  · rcases decrBy_cases h with herror | hdecr
    · exact Or.inl herror
    · exact Or.inr (Or.inr hdecr)
  · obtain ⟨rfl, rfl⟩ := Prod.mk.inj h
    exact Or.inr (Or.inl ⟨not_lt.mp hpos, rfl, rfl⟩)

/-- A release changes a key only while it is alive. -/
theorem luaConcurrencyRelease_live {now : ℤ} {k : κ} {s t : Store κ} {reply : Except GoString ℤ}
    (h : luaConcurrencyRelease now k s = (reply, t)) : t = s ∨ s.live now k ≠ none := by
  cases hlive : s.live now k with
  | none =>
    have hzero : s.counter now k = 0 := by
      unfold Store.counter
      rw [hlive]
      rfl
    unfold luaConcurrencyRelease at h
    rw [Script.bind_apply] at h
    unfold getNumber at h
    rw [hzero] at h
    obtain ⟨-, rfl⟩ := Prod.mk.inj h
    exact Or.inl rfl
  | some c => exact Or.inr (Option.some_ne_none c)

theorem incrementAll_mortal {now : ℤ} {quotas : List (Quota κ)} (hq : ∀ q ∈ quotas, ValidTTL q.ttl)
    {s t : Store κ} {reply : Except GoString (List ℤ)} (h : incrementAll now quotas s = (reply, t))
    (hs : s.Mortal) : t.Mortal := by
  induction quotas generalizing s reply with
  | nil =>
    obtain ⟨-, rfl⟩ := Prod.mk.inj h
    exact hs
  | cons q quotas ih =>
    rw [List.forall_mem_cons] at hq
    rcases incrementAll_cons_cases hq.1 h with ⟨_, -, rfl⟩ | ⟨rest, hrest, -⟩
    · exact hs
    · apply ih hq.2 hrest
      apply hs.update
      intro c hc
      cases hc
      exact Option.some_ne_none _

/-- The check script never leaves a key without an expiry, even where it fails half-way. -/
theorem luaCheckAndIncrement_mortal {now : ℤ} {quotas : List (Quota κ)} (hq : ∀ q ∈ quotas, ValidTTL q.ttl)
    {s t : Store κ} {reply : Except GoString (List ℤ)} (h : luaCheckAndIncrement now quotas s = (reply, t))
    (hs : s.Mortal) : t.Mortal := by
  rcases luaCheckAndIncrement_cases h with ⟨-, rfl, -⟩ | ⟨-, hphase⟩
  · exact hs
  · rcases hphase with ⟨_, -, hphase⟩ | ⟨_, -, hphase⟩
    · exact incrementAll_mortal hq hphase hs
    · exact incrementAll_mortal hq hphase hs

end SynapseGo.RateLimit
