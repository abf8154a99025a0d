import SynapseGo.RuntimeGuard.Limiter

/-! The bounds of `MemoryLimiter` over a whole run, for one key with a fixed limit and window. -/
namespace SynapseGo.RuntimeGuard.MemoryLimiter
open SynapseGo.Go SynapseGo.Concurrency

/-- The call is on the trimmed key `k`. -/
def On (k : GoString) (x : Event) : Prop := trimSpace x.act.1.key = k

instance (k : GoString) (x : Event) : Decidable (On k x) := inferInstanceAs (Decidable (_ = _))

/-- The call is on `k` and starts a new window. -/
def StartsWindow (k : GoString) (x : Event) : Prop :=
  On k x ∧ (x.post k).windowStart ≠ (x.pre k).windowStart

/-- The calls on `k` that were allowed. -/
def allowedOn (k : GoString) (log : List Event) : ℕ := log.countP fun x => On k x ∧ x.act.2.allowed

/-- The calls on `k` that were allowed at a time in `[t, t + W)`. -/
def allowedIn (k : GoString) (W t : ℤ) (log : List Event) : ℕ :=
  log.countP fun x => (On k x ∧ x.act.2.allowed) ∧ t ≤ x.env ∧ x.env < t + W

/-- The bounds for the calls on `k`, with limit `L` and window `W`. -/
structure WindowLaw (k : GoString) (L : ℤ) (W : Int64) (calls : List (ℤ × AllowCall)) : Prop where
  interval : ∀ t, (allowedIn k W.toInt t (run calls) : ℤ) ≤ 2 * L
  window : ∀ a x m b, run calls = a ++ x :: (m ++ b) → StartsWindow k x → (∀ y ∈ m, ¬ StartsWindow k y) →
    (allowedOn k (x :: m) : ℤ) ≤ L
  retry : ∀ a x b, run calls = a ++ x :: b → On k x → x.act.2.allowed = false →
    0 < x.act.2.retryAfter ∧ x.act.2.retryAfter ≤ W ∧
      ∀ m y b', b = m ++ y :: b' → (∀ z ∈ m, ¬ On k z) → On k y →
        y.env = x.env + x.act.2.retryAfter.toInt → y.act.2.allowed = true
  independent : ((run calls).filter fun x => trimSpace x.act.1.key = k).map Entry.act =
    (run (calls.filter fun m => trimSpace m.2.key = k)).map Entry.act

/-- A log of a new limiter in which the calls on `k` have limit `L` and window `W`. -/
structure Regime (k : GoString) (L : ℤ) (W : Int64) (log : List Event) : Prop where
  exec : ∃ t, Exec allow (fun _ => ⟨0, 0⟩) log t
  clock : log.Pairwise fun x y => x.env ≤ y.env
  nonzero : ∀ x ∈ log, x.env ≠ 0
  key : k ≠ []
  limit : 0 < L
  window : 0 < W
  args : ∀ x ∈ log, On k x → x.act.1.limit = L ∧ x.act.1.window = W

section
variable {k : GoString} {L t : ℤ} {W : Int64} {log a b m : List Event} {x : Event}

theorem Regime.le (hr : Regime k L W log) (hl : log = a ++ x :: b) : ∀ y ∈ a, y.env ≤ x.env := by
  have hclock := hr.clock
  rw [hl] at hclock
  intro y hy
  exact (List.pairwise_append.mp hclock).2.2 y hy x List.mem_cons_self

/-- The window of a bucket was started by one of the calls. -/
def Started (log : List Event) (b : Bucket) : Prop := b.windowStart = 0 ∨ ∃ y ∈ log, y.env = b.windowStart

theorem Started.snoc {c : Bucket} (h : Started a c) : Started (a ++ [x]) c := by
  rcases h with h | ⟨y, hy, he⟩
  · exact .inl h
  · exact .inr ⟨y, List.mem_append_left _ hy, he⟩

/-- A call on `k` consumes from its bucket; any other leaves it alone. -/
theorem Regime.consumes_of_started (hr : Regime k L W log) (hl : log = a ++ x :: b) (hx : x.Valid allow)
    (hs : Started a (x.pre k)) :
    (¬ On k x ∧ x.post k = x.pre k) ∨ (On k x ∧ Consumes x.env L W (x.pre k) x.act.2 (x.post k)) := by
  by_cases hon : On k x
  · right
    refine ⟨hon, ?_⟩
    have hmem : x ∈ log := mem_of_split hl
    obtain ⟨hlimit, hwindow⟩ := hr.args x hmem hon
    have hwpos := hr.window
    have hvalid : ¬ x.act.1.Invalid := by
      unfold AllowCall.Invalid
      rw [hlimit, hwindow, show trimSpace x.act.1.key = k from hon]
      rintro (hk | hL | hW)
      · exact hr.key hk
      · exact absurd hr.limit (not_lt.mpr hL)
      · rw [Int64.lt_iff_toInt_lt] at hwpos
        rw [Int64.le_iff_toInt_le] at hW
        omega
    have hpast : (x.pre k).windowStart = 0 ∨ (x.pre k).windowStart ≤ x.env := by
      rcases hs with h0 | ⟨y, hy, he⟩
      · exact .inl h0
      · right
        rw [← he]
        exact hr.le hl y hy
    have hown := allow_local.own hx
    rw [show trimSpace x.act.1.key = k from hon] at hown
    unfold allowKey at hown
    rw [if_neg hvalid, hlimit, hwindow] at hown
    have hstep := consumes hr.limit hwpos hpast
    rw [hown] at hstep
    exact hstep
  · exact .inl ⟨hon, allow_local.frame hx hon⟩

theorem Regime.started (hr : Regime k L W log) (hl : log = a ++ b) {s : Buckets}
    (ha : Exec allow (fun _ => ⟨0, 0⟩) a s) : Started a (s k) := by
  refine ha.invariant_within (P := fun a s => Started a (s k)) hl (.inl rfl) ?_
  intro a' x b' hlog hx hs
  rcases hr.consumes_of_started hlog hx hs with ⟨-, hpost⟩ | ⟨-, hstep⟩
  · rw [hpost]
    exact hs.snoc
  · cases hstep with
    | opens _ _ hpost =>
      rw [hpost]
      exact .inr ⟨x, List.mem_append_right _ (List.mem_singleton_self x), rfl⟩
    | counts _ _ _ _ hpost =>
      rw [hpost]
      exact hs.snoc
    | refuses _ _ _ _ _ hpost =>
      rw [hpost]
      exact hs.snoc

theorem Regime.consumes (hr : Regime k L W log) (hl : log = a ++ x :: b) :
    (¬ On k x ∧ x.post k = x.pre k) ∨ (On k x ∧ Consumes x.env L W (x.pre k) x.act.2 (x.post k)) := by
  obtain ⟨s, hexec⟩ := hr.exec
  rw [hl] at hexec
  obtain ⟨ha, hx, -⟩ := hexec.split
  exact hr.consumes_of_started hl hx (hr.started hl ha)

/-- A window starts exactly when a call opens one. -/
theorem Regime.startsWindow_iff (hr : Regime k L W log) (hl : log = a ++ x :: b) (hon : On k x) :
    StartsWindow k x ↔
      (x.pre k).windowStart = 0 ∨ W.toInt ≤ x.env - (x.pre k).windowStart := by
  have hpos := hr.window
  rw [Int64.lt_iff_toInt_lt, Int64.toInt_zero] at hpos
  have hne := hr.nonzero x (mem_of_split hl)
  unfold StartsWindow
  rcases hr.consumes hl with ⟨hoff, -⟩ | ⟨-, hstep⟩
  · exact absurd hon hoff
  · cases hstep with
    | opens hold _ hpost =>
      refine ⟨fun _ => hold, fun _ => ⟨hon, ?_⟩⟩
      rw [hpost]
      dsimp only
      omega
    | counts hset hnow _ _ hpost =>
      rw [hpost]
      constructor
      · exact fun h => absurd rfl h.2
      · omega
    | refuses hset hnow _ _ _ hpost =>
      rw [hpost]
      constructor
      · exact fun h => absurd rfl h.2
      · omega

theorem allowedOn_snoc : allowedOn k (log ++ [x]) =
    allowedOn k log + if On k x ∧ x.act.2.allowed then 1 else 0 := by
  unfold allowedOn
  rw [List.countP_append, List.countP_singleton]
  simp only [decide_eq_true_eq]

theorem allowedIn_snoc {w : ℤ} : allowedIn k w t (log ++ [x]) =
    allowedIn k w t log + if (On k x ∧ x.act.2.allowed) ∧ t ≤ x.env ∧ x.env < t + w then 1 else 0 := by
  unfold allowedIn
  rw [List.countP_append, List.countP_singleton]
  simp only [decide_eq_true_eq]

theorem allowedIn_eq_zero {w : ℤ} (h : ∀ y ∈ log, y.env < t) : allowedIn k w t log = 0 := by
  unfold allowedIn
  rw [List.countP_eq_zero]
  intro y hy
  have hlt := h y hy
  simp only [decide_eq_true_eq]
  omega

/-- In a window the count of the bucket is the number of calls it allowed, and at most the limit. -/
theorem Regime.allowedOn_le (hr : Regime k L W log) (hl : log = a ++ x :: (m ++ b))
    (hstart : StartsWindow k x) (hm : ∀ y ∈ m, ¬ StartsWindow k y) : (allowedOn k (x :: m) : ℤ) ≤ L := by
  obtain ⟨s, hexec⟩ := hr.exec
  rw [hl] at hexec
  obtain ⟨-, -, hrest⟩ := hexec.split
  obtain ⟨u, hrun, -⟩ := hrest.of_append
  have hfirst : x.act.2.allowed = true ∧ (x.post k).count = 1 := by
    have hold := (hr.startsWindow_iff hl hstart.1).mp hstart
    rcases hr.consumes hl with ⟨hoff, -⟩ | ⟨-, hstep⟩
    · exact absurd hstart.1 hoff
    · cases hstep with
      | opens _ hd hpost => exact ⟨by rw [hd], by rw [hpost]⟩
      | counts hset hnow => omega
      | refuses hset hnow => omega
  have hinv : (allowedOn k (x :: m) : ℤ) = (u k).count ∧ (u k).count ≤ L := by
    refine hrun.history_invariant
      (P := fun m s => (allowedOn k (x :: m) : ℤ) = (s k).count ∧ (s k).count ≤ L) ?_ ?_
    · have hone : allowedOn k ([] ++ [x]) = 0 + 1 := by
        rw [allowedOn_snoc, if_pos ⟨hstart.1, hfirst.1⟩]
        rfl
      have hpos := hr.limit
      rw [List.nil_append] at hone
      rw [hone, hfirst.2]
      omega
    · intro m₁ y m₂ hsplit hy ih
      have hnot : ¬ StartsWindow k y := hm y (mem_of_split hsplit)
      have hlog : log = (a ++ x :: m₁) ++ y :: (m₂ ++ b) := by
        rw [hl, hsplit]
        simp only [List.append_assoc, List.cons_append]
      rw [← List.cons_append, allowedOn_snoc]
      rcases hr.consumes hlog with ⟨hoff, hpost⟩ | ⟨hon, hstep⟩
      · rw [if_neg (fun h => hoff h.1), hpost]
        exact ih
      · have hold := mt (hr.startsWindow_iff hlog hon).mpr hnot
        cases hstep with
        | opens h => exact absurd h hold
        | counts _ _ hroom hd hpost =>
          rw [if_pos ⟨hon, by rw [hd]⟩, hpost]
          dsimp only
          omega
        | refuses _ _ _ _ hd hpost =>
          rw [if_neg (by rw [hd]; exact fun h => nomatch h.2), hpost]
          exact ih
  omega

/-- What an interval `[t, t + w)` has let through, by the start and the count of the current window. -/
structure IntervalInv (k : GoString) (L w t : ℤ) (log : List Event) (start count : ℤ) : Prop where
  count_le : count ≤ L
  early : start = 0 ∨ start < t → (allowedIn k w t log : ℤ) ≤ count
  inside : t ≤ start → start < t + w → (allowedIn k w t log : ℤ) ≤ L + count
  total : (allowedIn k w t log : ℤ) ≤ 2 * L

variable {w start count : ℤ}

/-- A call adds at most one, and none when it is outside the interval or refused. -/
theorem allowedIn_snoc_le (k : GoString) (w t : ℤ) (log : List Event) (x : Event) :
    allowedIn k w t (log ++ [x]) ≤ allowedIn k w t log + 1 ∧
      (¬ (t ≤ x.env ∧ x.env < t + w) → allowedIn k w t (log ++ [x]) = allowedIn k w t log) ∧
      (¬ (On k x ∧ x.act.2.allowed) → allowedIn k w t (log ++ [x]) = allowedIn k w t log) := by
  rw [allowedIn_snoc]
  refine ⟨?_, ?_, ?_⟩
  · split_ifs <;> omega
  · intro h
    rw [if_neg (fun hin => h hin.2), Nat.add_zero]
  · intro h
    rw [if_neg (fun hin => h hin.1), Nat.add_zero]

theorem IntervalInv.init (hL : 0 < L) : IntervalInv k L w t [] 0 0 := by
  have hzero : allowedIn k w t [] = 0 := rfl
  constructor <;> intros <;> omega

theorem IntervalInv.skip (h : IntervalInv k L w t a start count)
    (hsame : allowedIn k w t (a ++ [x]) = allowedIn k w t a) :
    IntervalInv k L w t (a ++ [x]) start count := by
  obtain ⟨hcount, hearly, hinside, htotal⟩ := h
  constructor
  · exact hcount
  · rw [hsame]
    exact hearly
  · rw [hsame]
    exact hinside
  · rw [hsame]
    exact htotal

theorem IntervalInv.opens (hL : 0 < L) (hne : x.env ≠ 0) (hle : ∀ y ∈ a, y.env ≤ x.env)
    (h : IntervalInv k L w t a start count) (hold : start = 0 ∨ w ≤ x.env - start) :
    IntervalInv k L w t (a ++ [x]) x.env 1 := by
  obtain ⟨hcount, hearly, hinside, htotal⟩ := h
  obtain ⟨hgrow, hsame, -⟩ := allowedIn_snoc_le k w t a x
  by_cases hbefore : x.env < t
  · -- The interval has not begun, so nothing in the log belongs to it.
    have hzero : allowedIn k w t a = 0 := by
      apply allowedIn_eq_zero
      intro y hy
      have hy := hle y hy
      omega
    have hzero' := hsame (by omega)
    constructor <;> intros <;> omega
  · by_cases hafter : x.env < t + w
    · -- The last window started before the interval, since this one starts at least `w` later.
      have hfew := hearly (by omega)
      constructor <;> intros <;> omega
    · have hnone := hsame (by omega)
      constructor <;> intros <;> omega

theorem IntervalInv.counts (hpast : start ≤ x.env) (hroom : count < L)
    (h : IntervalInv k L w t a start count) : IntervalInv k L w t (a ++ [x]) start (count + 1) := by
  obtain ⟨hcount, hearly, hinside, htotal⟩ := h
  obtain ⟨hgrow, hsame, -⟩ := allowedIn_snoc_le k w t a x
  by_cases hafter : start < t + w
  · constructor <;> intros <;> omega
  · have hnone := hsame (by omega)
    constructor <;> intros <;> omega

theorem Regime.intervalInv (hr : Regime k L W log) (t : ℤ) {s : Buckets}
    (hexec : Exec allow (fun _ => ⟨0, 0⟩) log s) :
    IntervalInv k L W.toInt t log (s k).windowStart (s k).count := by
  refine hexec.history_invariant
    (P := fun log s => IntervalInv k L W.toInt t log (s k).windowStart (s k).count) ?_ ?_
  · exact .init hr.limit
  · intro a x b hl hx ih
    obtain ⟨-, -, hkeep⟩ := allowedIn_snoc_le k W.toInt t a x
    rcases hr.consumes hl with ⟨hoff, hpost⟩ | ⟨hon, hstep⟩
    · rw [hpost]
      exact ih.skip (hkeep fun h => hoff h.1)
    · cases hstep with
      | opens hold _ hpost =>
        rw [hpost]
        have hne := hr.nonzero x (mem_of_split hl)
        exact ih.opens hr.limit hne (hr.le hl) hold
      | counts hset _ hroom _ hpost =>
        rw [hpost]
        rw [hl] at hexec
        have hstarted := hr.started hl hexec.split.1
        obtain ⟨y, hy, he⟩ := hstarted.resolve_left hset
        have hpast := hr.le hl y hy
        rw [he] at hpast
        exact ih.counts hpast hroom
      | refuses _ _ _ _ hd hpost =>
        rw [hpost]
        exact ih.skip (hkeep (by rw [hd]; exact fun h => nomatch h.2))

/-- Calls on other keys leave the bucket of `k` as it is. -/
theorem bucket_of_exec {s u : Buckets} (hm : Exec allow s m u) (hoff : ∀ z ∈ m, ¬ On k z) : u k = s k := by
  apply hm.invariant (P := fun u => u k = s k)
  · intro z hz hvalid ih
    rw [allow_local.frame hvalid (hoff z hz)]
    exact ih
  · rfl

theorem Regime.retry (hr : Regime k L W log) (hl : log = a ++ x :: b) (hon : On k x)
    (hdenied : x.act.2.allowed = false) :
    0 < x.act.2.retryAfter ∧ x.act.2.retryAfter ≤ W ∧
      ∀ m y b', b = m ++ y :: b' → (∀ z ∈ m, ¬ On k z) → On k y →
        y.env = x.env + x.act.2.retryAfter.toInt → y.act.2.allowed = true := by
  obtain ⟨s, hexec⟩ := hr.exec
  rcases hr.consumes hl with ⟨hoff, -⟩ | ⟨-, hstep⟩
  · exact absurd hon hoff
  · cases hstep with
    | opens _ hd =>
      rw [hd] at hdenied
      cases hdenied
    | counts _ _ _ hd =>
      rw [hd] at hdenied
      cases hdenied
    | refuses hset hnow _ hretry hd hpost =>
      rw [hl] at hexec
      obtain ⟨ha, -, hrest⟩ := hexec.split
      obtain ⟨y₀, hy₀, he⟩ := (hr.started hl ha).resolve_left hset
      have hpast := hr.le hl y₀ hy₀
      rw [hd]
      dsimp only
      refine ⟨?_, ?_, ?_⟩
      · rw [Int64.lt_iff_toInt_lt, Int64.toInt_zero]
        omega
      · rw [Int64.le_iff_toInt_le]
        omega
      · intro m y b' hb hm hy henv
        rw [hb] at hl hrest
        have hbucket : y.pre k = x.pre k := by
          rw [bucket_of_exec hrest.split.1 hm, hpost]
        have hlog : log = (a ++ x :: m) ++ y :: b' := by
          rw [hl, List.append_assoc, List.cons_append]
        rcases hr.consumes hlog with ⟨hoff, -⟩ | ⟨-, hnext⟩
        · exact absurd hy hoff
        · rw [hbucket] at hnext
          cases hnext with
          | opens _ hd' => rw [hd']
          | counts _ hnow' => omega
          | refuses _ hnow' => omega

end

theorem regime_run {k : GoString} {L : ℤ} {W : Int64} {calls : List (ℤ × AllowCall)} (hk : k ≠ [])
    (hL : 0 < L) (hW : 0 < W) (hclock : calls.Pairwise fun m m' => m.1 ≤ m'.1)
    (hzero : ∀ m ∈ calls, m.1 ≠ 0)
    (hargs : ∀ m ∈ calls, trimSpace m.2.key = k → m.2.limit = L ∧ m.2.window = W) :
    Regime k L W (run calls) where
  exec := ⟨_, exec_serial _ _ _⟩
  clock := pairwise_serial hclock
  nonzero := forall_serial (P := fun m => m.1 ≠ 0) hzero
  key := hk
  limit := hL
  window := hW
  args :=
    forall_serial (P := fun m : ℤ × AllowCall => trimSpace m.2.key = k → m.2.limit = L ∧ m.2.window = W) hargs

/-- On a new limiter with a non-decreasing clock that is never the zero time, a key that is not blank
and always comes with limit `L` and window `W` keeps to the bounds. -/
theorem memoryLimiter_windowLaw (k : GoString) (L : ℤ) (W : Int64) (calls : List (ℤ × AllowCall))
    (hk : k ≠ []) (hL : 0 < L) (hW : 0 < W) (hclock : calls.Pairwise fun m m' => m.1 ≤ m'.1)
    (hzero : ∀ m ∈ calls, m.1 ≠ 0)
    (hargs : ∀ m ∈ calls, trimSpace m.2.key = k → m.2.limit = L ∧ m.2.window = W) :
    WindowLaw k L W calls := by
  have hr := regime_run hk hL hW hclock hzero hargs
  constructor
  · intro t
    exact (hr.intervalInv t (exec_serial _ _ _)).total
  · intro a x m b hl hstart hm
    exact hr.allowedOn_le hl hstart hm
  · intro a x b hl hon hdenied
    exact hr.retry hl hon hdenied
  · exact (allow_local.independent k _ calls).1

/-- A call is refused, and so is not the next one after its `RetryAfter`. -/
theorem refused_windowLaw : WindowLaw (lit "a") 1 10
    [(1, ⟨lit "a", 1, 10⟩), (4, ⟨lit " a", 1, 10⟩), (5, ⟨lit "b", 3, 7⟩), (11, ⟨lit "a ", 1, 10⟩)] :=
  memoryLimiter_windowLaw (lit "a") 1 10 _ (by decide) (by decide) (by decide) (by decide) (by decide)
    (by decide)

/-- A blank key is refused at any time, also after the `RetryAfter` it is given. -/
theorem blank_not_windowLaw : ¬ WindowLaw [] 1 10 [(1, ⟨lit " ", 1, 10⟩), (11, ⟨lit " ", 1, 10⟩)] := by
  intro h
  obtain ⟨-, -, hnext⟩ := h.retry [] _ [_] rfl rfl rfl
  have hallowed := hnext [] _ [] rfl (List.forall_mem_nil _) rfl rfl
  exact absurd hallowed (by decide)

end SynapseGo.RuntimeGuard.MemoryLimiter
