import SynapseGo.RuntimeGuard.RedisLimiter

/-! The limiter on Redis makes the decisions of the limiter in memory as long as its script counts
exactly: a bucket and the key of the same window are kept in step. -/
namespace SynapseGo.RuntimeGuard.RedisLimiter
open SynapseGo.Go SynapseGo.Concurrency SynapseGo.Redis

/-- A bucket and a cell that stand for the same window, of `w` milliseconds. -/
def Matches (w : ℤ) (b : Bucket) (cell : Option Cell) : Prop :=
  (b.windowStart = 0 ∧ cell = none) ∨
    ∃ t, t ≠ 0 ∧ b.windowStart = t * 10 ^ 6 ∧ 1 ≤ b.count ∧ cell = some ⟨b.count, some (t + w)⟩

/-- The script computes with the exact counter of the key, or with a limit below any inexact one. -/
def Exact (now limit : ℤ) (key : GoString) (s : Store GoString) : Prop :=
  limit ≤ 2 ^ 53 ∨ s.counter now key < 2 ^ 53

section Step
variable {keyPrefix : GoString} {w now limit : ℤ} {W : Int64} {b : Bucket} {key : GoString}
    {s : Store GoString}

/-- What the script has to return for the decision `d`, and leave in the key for the bucket `b'`. -/
def Answered (now limit w : ℤ) (W : Int64) (key : GoString) (s : Store GoString) (d : Decision)
    (b' : Bucket) : Prop :=
  ∃ allowed count ttl t, redisLimiterScript now key w limit s = (.ok [allowed, count, ttl], t) ∧
    redisLimiterDecision allowed count ttl limit W = d ∧ Matches w b' (t key) ∧
    ∀ key' ≠ key, t key' = s key'

/-- Once the window is over the key is gone. -/
theorem Matches.live_closed (hw : W.toInt = w * 10 ^ 6) (h : Matches w b (s key))
    (hold : b.windowStart = 0 ∨ W.toInt ≤ now * 10 ^ 6 - b.windowStart) : s.live now key = none := by
  unfold Store.live
  rcases h with ⟨-, hcell⟩ | ⟨t, hne, ht, -, hcell⟩
  · rw [hcell]
    rfl
  · have hend : ¬ now < t + w := by omega
    rw [hcell, Option.filter_some, if_neg]
    simpa [Cell.alive] using hend

/-- In the window the key holds the count, and expires when the window ends. -/
theorem Matches.live_open (hw : W.toInt = w * 10 ^ 6) (h : Matches w b (s key))
    (hset : b.windowStart ≠ 0) (hnow : now * 10 ^ 6 - b.windowStart < W.toInt) :
    1 ≤ b.count ∧ ∃ t, t ≠ 0 ∧ b.windowStart = t * 10 ^ 6 ∧ now < t + w ∧
      s.live now key = some ⟨b.count, some (t + w)⟩ := by
  rcases h with ⟨hzero, -⟩ | ⟨t, hne, ht, hcount, hcell⟩
  · exact absurd hzero hset
  · have hend : now < t + w := by omega
    refine ⟨hcount, t, hne, ht, hend, Store.live_of_alive hcell ?_⟩
    simpa [Cell.alive] using hend

/-- The script on a key answers as the limiter in memory does on its bucket. -/
theorem answered (hw : W.toInt = w * 10 ^ 6) (hpos : 0 < w) (hlimit : 0 < limit) (hnow : now ≠ 0)
    (hpast : b.windowStart = 0 ∨ b.windowStart ≤ now * 10 ^ 6) (h : Matches w b (s key))
    (hexact : Exact now limit key s) :
    Answered now limit w W key s (MemoryLimiter.consume (now * 10 ^ 6) limit W b).1
      (MemoryLimiter.consume (now * 10 ^ 6) limit W b).2 := by
  have hlt := Int64.toInt_lt W
  have hW : 0 < W := by
    rw [Int64.lt_iff_toInt_lt, Int64.toInt_zero]
    omega
  cases MemoryLimiter.consumes hlimit hW hpast with
  | opens hold hd hb =>
    refine ⟨1, 1, w, _, redisLimiterScript_absent (h.live_closed hw hold) hlimit hpos (by omega), ?_, ?_, ?_⟩
    · rw [hd, redisLimiterDecision_allowed (by omega)]
    · rw [hb, Function.update_self]
      exact .inr ⟨now, hnow, rfl, le_rfl, rfl⟩
    · exact fun key' hne => Function.update_of_ne hne _ _
  | counts hset hwithin hroom hd hb =>
    obtain ⟨hcount, t, hne, ht, hend, hlive⟩ := h.live_open hw hset hwithin
    have hcounter := (read_present hlive).1
    unfold Exact at hexact
    have hsmall : b.count < 2 ^ 53 := by omega
    have hround : roundDouble b.count < roundDouble limit := by
      rw [roundDouble_of_natAbs_le (show b.count.natAbs ≤ 2 ^ 53 by omega)]
      by_cases hbig : limit ≤ 2 ^ 53
      · rw [roundDouble_of_natAbs_le (by omega)]
        exact hroom
      · have := le_roundDouble (show 2 ^ 53 ≤ limit by omega)
        omega
    refine ⟨1, b.count + 1, _, _, redisLimiterScript_room hlive hend hround hcount hsmall, ?_, ?_, ?_⟩
    · rw [hd, redisLimiterDecision_allowed (by omega)]
    · rw [hb, Function.update_self]
      exact .inr ⟨t, hne, ht, by dsimp only; omega, rfl⟩
    · exact fun key' hne => Function.update_of_ne hne _ _
  | refuses hset hwithin hfull hretry hd hb =>
    obtain ⟨hcount, t, hne, ht, hend, hlive⟩ := h.live_open hw hset hwithin
    have hcounter := (read_present hlive).1
    unfold Exact at hexact
    have hround : roundDouble limit ≤ roundDouble b.count := by
      rw [roundDouble_of_natAbs_le (show limit.natAbs ≤ 2 ^ 53 by omega)]
      by_cases hbig : b.count ≤ 2 ^ 53
      · rw [roundDouble_of_natAbs_le (by omega)]
        exact hfull
      · have := le_roundDouble (show 2 ^ 53 ≤ b.count by omega)
        omega
    have hpast := hpast.resolve_left hset
    have hrest : roundDouble (t + w - now) = t + w - now := roundDouble_of_natAbs_le (by omega)
    refine ⟨0, _, _, s, redisLimiterScript_full hlive hend hround, ?_, ?_, fun _ _ => rfl⟩
    · rw [hd, hrest]
      exact redisLimiterDecision_denied (by omega) (by omega)
    · rw [hb]
      exact h

end Step

/-- Calls that both limiters take: `w` is the window of each key, in milliseconds. -/
structure Comparable (w : GoString → ℤ) (calls : List (ℤ × AllowCall)) : Prop where
  clock : calls.Pairwise fun m m' => m.1 ≤ m'.1
  nonzero : ∀ m ∈ calls, m.1 ≠ 0
  key : ∀ m ∈ calls, trimSpace m.2.key ≠ []
  limit : ∀ m ∈ calls, 0 < m.2.limit
  window : ∀ m ∈ calls, 0 < w (trimSpace m.2.key) ∧ m.2.window.toInt = w (trimSpace m.2.key) * 10 ^ 6

abbrev Event := Entry Unit AllowCall Answers ℤ (Store GoString)

def run (keyPrefix : GoString) (s : Store GoString) (calls : List (ℤ × AllowCall)) : List Event :=
  serial (allow keyPrefix) s calls

/-- Both limiters, started new at the same time, return the same decisions and no error. -/
def SameDecisions (keyPrefix : GoString) (s : Store GoString) (calls : List (ℤ × AllowCall)) : Prop :=
  (run keyPrefix s calls).map (fun x => x.act.2) =
    (MemoryLimiter.run (calls.map fun m => (m.1 * 10 ^ 6, m.2))).map fun x => (x.act.2, none)

/-- The condition on a call of the limiter on Redis. -/
def ExactCall (keyPrefix : GoString) (x : Event) : Prop :=
  Exact x.env x.act.1.limit (limiterKey keyPrefix (trimSpace x.act.1.key)) x.pre

section Run
variable {keyPrefix : GoString} {w : GoString → ℤ} {s : Store GoString} {b : MemoryLimiter.Buckets}

def Simulates (keyPrefix : GoString) (w : GoString → ℤ) (s : Store GoString) (b : MemoryLimiter.Buckets) :
    Prop := ∀ k, Matches (w k) (b k) (s (limiterKey keyPrefix k))

/-- No window started after `now`, in milliseconds. -/
def Past (now : ℤ) (b : MemoryLimiter.Buckets) : Prop :=
  ∀ k, (b k).windowStart = 0 ∨ (b k).windowStart ≤ now * 10 ^ 6

theorem Comparable.head {m : ℤ × AllowCall} {calls : List (ℤ × AllowCall)} (h : Comparable w (m :: calls)) :
    ¬ m.2.Invalid := by
  have hm : m ∈ m :: calls := List.mem_cons_self
  obtain ⟨hpos, hw⟩ := h.window m hm
  have hlimit := h.limit m hm
  rintro (hk | hl | hW)
  · exact h.key m hm hk
  · omega
  · rw [Int64.le_iff_toInt_le, Int64.toInt_zero] at hW
    omega

theorem Comparable.tail {m : ℤ × AllowCall} {calls : List (ℤ × AllowCall)} (h : Comparable w (m :: calls)) :
    Comparable w calls where
  clock := h.clock.of_cons
  nonzero := fun m' hm' => h.nonzero m' (List.mem_cons_of_mem m hm')
  key := fun m' hm' => h.key m' (List.mem_cons_of_mem m hm')
  limit := fun m' hm' => h.limit m' (List.mem_cons_of_mem m hm')
  window := fun m' hm' => h.window m' (List.mem_cons_of_mem m hm')

/-- One call keeps the two limiters in step. -/
theorem Simulates.step {m : ℤ × AllowCall} {calls : List (ℤ × AllowCall)} (hc : Comparable w (m :: calls))
    (hs : Simulates keyPrefix w s b) (hp : Past m.1 b)
    (hexact : Exact m.1 m.2.limit (limiterKey keyPrefix (trimSpace m.2.key)) s) :
    (allow keyPrefix m.1 m.2 s).1 = ((MemoryLimiter.allow (m.1 * 10 ^ 6) m.2 b).1, none) ∧
      Simulates keyPrefix w (allow keyPrefix m.1 m.2 s).2 (MemoryLimiter.allow (m.1 * 10 ^ 6) m.2 b).2 := by
  have hm : m ∈ m :: calls := List.mem_cons_self
  obtain ⟨hpos, hw⟩ := hc.window m hm
  obtain ⟨allowed, count, ttl, t, hscript, hd, hmatch, hframe⟩ :=
    answered hw hpos (hc.limit m hm) (hc.nonzero m hm) (hp _) (hs _) hexact
  have hredis : allow keyPrefix m.1 m.2 s =
      ((redisLimiterDecision allowed count ttl m.2.limit m.2.window, none), t) := by
    unfold allow
    dsimp only
    rw [if_neg hc.head, durationMillis_of_whole hpos hw, hscript]
  have hmemory : MemoryLimiter.allow (m.1 * 10 ^ 6) m.2 b =
      ((MemoryLimiter.consume (m.1 * 10 ^ 6) m.2.limit m.2.window (b (trimSpace m.2.key))).1,
        Function.update b (trimSpace m.2.key)
          (MemoryLimiter.consume (m.1 * 10 ^ 6) m.2.limit m.2.window (b (trimSpace m.2.key))).2) := by
    unfold MemoryLimiter.allow
    dsimp only
    rw [if_neg hc.head]
  rw [hredis, hmemory]
  refine ⟨by rw [hd], ?_⟩
  intro k
  by_cases hk : k = trimSpace m.2.key
  · subst hk
    dsimp only
    rw [Function.update_self]
    exact hmatch
  · dsimp only
    rw [Function.update_of_ne hk, hframe _ ((limiterKey_injective keyPrefix).ne hk)]
    exact hs k

theorem Past.step {m : ℤ × AllowCall} {calls : List (ℤ × AllowCall)} (hc : Comparable w (m :: calls))
    (hp : Past m.1 b) {now : ℤ} (hle : m.1 ≤ now) :
    Past now (MemoryLimiter.allow (m.1 * 10 ^ 6) m.2 b).2 := by
  have hm : m ∈ m :: calls := List.mem_cons_self
  obtain ⟨hpos, hw⟩ := hc.window m hm
  have hW : 0 < m.2.window := by
    rw [Int64.lt_iff_toInt_lt, Int64.toInt_zero]
    omega
  intro k
  unfold MemoryLimiter.allow
  dsimp only
  rw [if_neg hc.head]
  have hold := hp k
  by_cases hk : k = trimSpace m.2.key
  · subst hk
    dsimp only
    rw [Function.update_self]
    cases MemoryLimiter.consumes (hc.limit m hm) hW hold with
    | opens _ _ hb => rw [hb]; dsimp only; omega
    | counts _ _ _ _ hb => rw [hb]; dsimp only; omega
    | refuses _ _ _ _ _ hb => rw [hb]; omega
  · dsimp only
    rw [Function.update_of_ne hk]
    omega

/-- Limiters that are in step stay so, call by call. -/
theorem Simulates.run {calls : List (ℤ × AllowCall)} (hc : Comparable w calls)
    (hs : Simulates keyPrefix w s b) (hp : ∀ m ∈ calls, Past m.1 b)
    (hexact : ∀ x ∈ RedisLimiter.run keyPrefix s calls, ExactCall keyPrefix x) :
    (RedisLimiter.run keyPrefix s calls).map (fun x => x.act.2) =
      (serial MemoryLimiter.allow b (calls.map fun m => (m.1 * 10 ^ 6, m.2))).map
        fun x => (x.act.2, none) := by
  induction calls generalizing s b with
  | nil => rfl
  | cons m calls ih =>
    unfold RedisLimiter.run at hexact ih ⊢
    rw [serial_cons] at hexact ⊢
    obtain ⟨hhere, hrest⟩ := List.forall_mem_cons.mp hexact
    obtain ⟨hreply, hnext⟩ := hs.step hc (hp m List.mem_cons_self) hhere
    have hpast : ∀ m' ∈ calls, Past m'.1 (MemoryLimiter.allow (m.1 * 10 ^ 6) m.2 b).2 := by
      intro m' hm'
      exact (hp m List.mem_cons_self).step hc ((List.pairwise_cons.mp hc.clock).1 m' hm')
    rw [List.map_cons, List.map_cons, serial_cons, List.map_cons, ih hc.tail hnext hpast hrest, hreply]

end Run

/-- The limiter on Redis, with no key of its own to begin with, makes the decisions of the limiter in
memory in every run in which its script counts exactly. -/
theorem redisLimiter_sameDecisions (keyPrefix : GoString) (s : Store GoString)
    (hs : ∀ k, s (limiterKey keyPrefix k) = none) (w : GoString → ℤ) (calls : List (ℤ × AllowCall))
    (hc : Comparable w calls) (hexact : ∀ x ∈ run keyPrefix s calls, ExactCall keyPrefix x) :
    SameDecisions keyPrefix s calls := by
  have hsim : Simulates keyPrefix w s fun _ => ⟨0, 0⟩ := fun k => .inl ⟨rfl, hs k⟩
  exact hsim.run hc (fun _ _ _ => .inl rfl) hexact

/-- A window fills up, the limit is raised, and the next window opens. -/
theorem raised_sameDecisions : SameDecisions (lit "runtimeguard:") (fun _ => none)
    [(1, ⟨lit "a", 1, 60000000⟩), (21, ⟨lit "a ", 1, 60000000⟩), (21, ⟨lit "b", 3, 5000000⟩),
      (30, ⟨lit "a", 2, 60000000⟩), (61, ⟨lit "a", 1, 60000000⟩)] := by
  refine redisLimiter_sameDecisions _ _ (fun _ => rfl) (fun k => if k = lit "a" then 60 else 5) _
    ⟨by decide, by decide, by decide, by decide, by decide⟩ ?_
  intro x hx
  exact .inl (forall_serial (P := fun m : ℤ × AllowCall => m.2.limit ≤ 2 ^ 53) (by decide) x hx)

/-! A limit that no double holds: the script rounds it down to the count it is compared with. The window is
of 285 years, and 1024 calls come in every millisecond of it. -/

section Crowded

def crowdedCall : AllowCall := ⟨lit "a", 2 ^ 53 + 1, 9000000000000000000⟩

/-- The time of the call after `n` of them, in milliseconds. -/
def crowdedTime (n : ℕ) : ℤ := 1 + n / 1024

def crowdedCalls (n : ℕ) : List (ℤ × AllowCall) := (List.range n).map fun k => (crowdedTime k, crowdedCall)

theorem crowdedCalls_succ (n : ℕ) : crowdedCalls (n + 1) =
    crowdedCalls n ++ [(crowdedTime n, crowdedCall)] := by
  unfold crowdedCalls
  rw [List.range_succ, List.map_append]
  rfl

theorem crowdedCall_comparable (n : ℕ) :
    Comparable (fun _ => 9000000000000) [(crowdedTime n, crowdedCall)] where
  clock := List.pairwise_singleton _ _
  nonzero := by
    intro m hm
    rw [List.mem_singleton.mp hm]
    show crowdedTime n ≠ 0
    unfold crowdedTime
    omega
  key := fun _ hm => by rw [List.mem_singleton.mp hm]; dsimp only; decide
  limit := fun _ hm => by rw [List.mem_singleton.mp hm]; dsimp only; decide
  window := fun _ hm => by rw [List.mem_singleton.mp hm]; dsimp only; decide

/-- The bucket after `n` of the calls. -/
def crowdedBucket (n : ℕ) : Bucket := ⟨if n = 0 then 0 else 10 ^ 6, n⟩

def crowdedBuckets (n : ℕ) : MemoryLimiter.Buckets :=
  Function.update (fun _ => ⟨0, 0⟩) (lit "a") (crowdedBucket n)

/-- The window of the first call stays open for all of them. -/
theorem crowded_open {n : ℕ} (hn : n ≤ 2 ^ 53) :
    ¬ 9000000000000000000 ≤ subNanos (crowdedTime n * 10 ^ 6) (10 ^ 6) := by
  have hwindow : (9000000000000000000 : Int64).toInt = 9000000000000000000 := by decide
  rw [le_subNanos (by decide), hwindow]
  unfold crowdedTime
  omega

theorem consume_crowded {n : ℕ} (hn : n ≤ 2 ^ 53) :
    MemoryLimiter.consume (crowdedTime n * 10 ^ 6) (2 ^ 53 + 1) 9000000000000000000 (crowdedBucket n) =
      (⟨true, 2 ^ 53 - n, 0⟩, crowdedBucket (n + 1)) := by
  unfold crowdedBucket
  cases n with
  | zero => rfl
  | succ n =>
    have hopen :
      ¬ ((10 : ℤ) ^ 6 = 0 ∨ 9000000000000000000 ≤ subNanos (crowdedTime (n + 1) * 10 ^ 6) (10 ^ 6)) :=
      not_or.mpr ⟨by decide, crowded_open hn⟩
    have hrest : (2 : ℤ) ^ 53 + 1 - (((n + 1 : ℕ) : ℤ) + 1) = 2 ^ 53 - ((n + 1 : ℕ) : ℤ) := by omega
    unfold MemoryLimiter.consume
    rw [if_neg (Nat.succ_ne_zero n), if_neg (Nat.succ_ne_zero (n + 1))]
    dsimp only
    rw [if_neg hopen, if_neg (by dsimp only; omega)]
    dsimp only
    rw [hrest, Nat.cast_succ (n + 1)]

theorem allow_crowded {n : ℕ} (hn : n ≤ 2 ^ 53) :
    MemoryLimiter.allow (crowdedTime n * 10 ^ 6) crowdedCall (crowdedBuckets n) =
      (⟨true, 2 ^ 53 - n, 0⟩, crowdedBuckets (n + 1)) := by
  have hkey : trimSpace crowdedCall.key = lit "a" := by decide
  have hvalid : ¬ crowdedCall.Invalid := (crowdedCall_comparable n).head
  unfold MemoryLimiter.allow
  dsimp only
  rw [if_neg hvalid, hkey]
  unfold crowdedBuckets
  rw [Function.update_self, Function.update_idem]
  have hstep := consume_crowded hn
  unfold crowdedCall
  dsimp only
  rw [hstep]

theorem past_crowded (n : ℕ) : Past (crowdedTime n) (crowdedBuckets n) := by
  intro k
  unfold crowdedBuckets
  by_cases hk : k = lit "a"
  · subst hk
    rw [Function.update_self]
    unfold crowdedBucket crowdedTime
    dsimp only
    split_ifs
    · exact .inl rfl
    · exact .inr (by omega)
  · rw [Function.update_of_ne hk]
    exact .inl rfl

variable (keyPrefix : GoString)

/-- What the key holds after `n` of the calls, at the time of the next. -/
theorem live_crowded {n : ℕ} (hzero : n ≠ 0) (hn : n ≤ 2 ^ 53) {s : Store GoString}
    (h : Simulates keyPrefix (fun _ => 9000000000000) s (crowdedBuckets n)) :
    s.live (crowdedTime n) (limiterKey keyPrefix (lit "a")) = some ⟨n, some 9000000000001⟩ := by
  have hmatch := h (lit "a")
  have hW : Int64.toInt 9000000000000000000 = 9000000000000 * 10 ^ 6 := by decide
  unfold crowdedBuckets at hmatch
  rw [Function.update_self] at hmatch
  have hstart : (crowdedBucket n).windowStart = 10 ^ 6 := if_neg hzero
  have hwithin : crowdedTime n * 10 ^ 6 - (crowdedBucket n).windowStart <
    Int64.toInt 9000000000000000000 := by
    rw [hstart, hW]
    unfold crowdedTime
    omega
  obtain ⟨-, t, -, ht, -, hlive⟩ := hmatch.live_open hW (by omega) hwithin
  have hone : t = 1 := by omega
  rw [hone] at hlive
  exact hlive

theorem exact_crowded {n : ℕ} (hn : n < 2 ^ 53) {s : Store GoString}
    (h : Simulates keyPrefix (fun _ => 9000000000000) s (crowdedBuckets n)) :
    Exact (crowdedTime n) crowdedCall.limit (limiterKey keyPrefix (trimSpace crowdedCall.key)) s := by
  right
  have hkey : trimSpace crowdedCall.key = lit "a" := by decide
  rw [hkey]
  by_cases hzero : n = 0
  · have hmatch := h (lit "a")
    have hW : Int64.toInt 9000000000000000000 = 9000000000000 * 10 ^ 6 := by decide
    unfold crowdedBuckets at hmatch
    rw [Function.update_self, hzero] at hmatch
    have hlive : s.live (crowdedTime n) (limiterKey keyPrefix (lit "a")) = none :=
      hmatch.live_closed hW (.inl rfl)
    unfold Store.counter
    rw [hlive]
    decide
  · rw [(read_present (live_crowded keyPrefix hzero hn.le h)).1]
    omega

/-- As long as the count is below `2^53`, the calls keep the limiters in step. -/
theorem simulates_crowded {n : ℕ} (hn : n ≤ 2 ^ 53) :
    final MemoryLimiter.allow (fun _ => ⟨0, 0⟩) ((crowdedCalls n).map fun m => (m.1 * 10 ^ 6, m.2)) =
        crowdedBuckets n ∧
      Simulates keyPrefix (fun _ => 9000000000000)
        (final (allow keyPrefix) (fun _ => none) (crowdedCalls n)) (crowdedBuckets n) := by
  induction n with
  | zero =>
    have hnone : crowdedBuckets 0 = fun _ => ⟨0, 0⟩ := Function.update_eq_self _ _
    rw [hnone]
    exact ⟨rfl, fun _ => .inl ⟨rfl, rfl⟩⟩
  | succ n ih =>
    obtain ⟨hmem, hsim⟩ := ih (by omega)
    have hexact := exact_crowded keyPrefix (show n < 2 ^ 53 by omega) hsim
    obtain ⟨-, hnext⟩ := hsim.step (crowdedCall_comparable n) (past_crowded n) hexact
    have hallow := allow_crowded (show n ≤ 2 ^ 53 by omega)
    rw [crowdedCalls_succ, List.map_append, List.map_singleton, final_snoc, final_snoc, hmem, hallow]
    rw [hallow] at hnext
    exact ⟨rfl, hnext⟩

/-- The call after `2^53` of them: the limiter in memory has room for one more, the script has not. -/
theorem last_crowded_differs {n : ℕ} (hn : n = 2 ^ 53) {s : Store GoString}
    (h : Simulates keyPrefix (fun _ => 9000000000000) s (crowdedBuckets n)) :
    (allow keyPrefix (crowdedTime n) crowdedCall s).1 ≠
      ((MemoryLimiter.allow (crowdedTime n * 10 ^ 6) crowdedCall (crowdedBuckets n)).1, none) := by
  have hkey : trimSpace crowdedCall.key = lit "a" := by decide
  have hvalid : ¬ crowdedCall.Invalid := (crowdedCall_comparable n).head
  have hlive := live_crowded keyPrefix (show n ≠ 0 by omega) hn.le h
  have hend : crowdedTime n < 9000000000001 := by
    unfold crowdedTime
    omega
  have hround : roundDouble crowdedCall.limit ≤ roundDouble n := by
    have hlimit : roundDouble crowdedCall.limit = 2 ^ 53 := by decide
    rw [hlimit, hn]
    decide
  have hdenied : (allow keyPrefix (crowdedTime n) crowdedCall s).1.1.allowed = false := by
    unfold allow
    dsimp only
    rw [if_neg hvalid, hkey, redisLimiterScript_full hlive hend hround]
    rfl
  intro heq
  rw [allow_crowded (show n ≤ 2 ^ 53 by omega)] at heq
  rw [heq] at hdenied
  cases hdenied

theorem crowded_not_same {n : ℕ} (hn : n = 2 ^ 53) :
    ¬ SameDecisions keyPrefix (fun _ => none) (crowdedCalls (n + 1)) := by
  obtain ⟨hmem, hsim⟩ := simulates_crowded keyPrefix (show n ≤ 2 ^ 53 by omega)
  intro hsame
  unfold SameDecisions run MemoryLimiter.run at hsame
  rw [crowdedCalls_succ, List.map_append, serial_append, serial_append, hmem, List.map_append,
    List.map_append] at hsame
  obtain ⟨-, hlast⟩ := List.append_inj' hsame (by simp only [List.length_map, length_serial])
  exact last_crowded_differs keyPrefix hn hsim (List.cons.inj hlast).1

end Crowded

/-- After `2^53` allowed calls in one window with the limit `2^53 + 1`, the next is allowed in memory and
denied on Redis. -/
theorem uncountable_not_sameDecisions : ¬ SameDecisions (lit "runtimeguard:") (fun _ => none)
    (crowdedCalls (2 ^ 53 + 1)) :=
  crowded_not_same (lit "runtimeguard:") rfl

end SynapseGo.RuntimeGuard.RedisLimiter
