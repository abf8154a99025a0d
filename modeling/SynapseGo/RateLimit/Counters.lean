import SynapseGo.Concurrency.Accounting
import SynapseGo.RateLimit.System

/-! The request and token counters: what each operation does to one of them, and how the standing
of its request changes with it. -/
namespace SynapseGo.RateLimit
open SynapseGo.Go SynapseGo.Concurrency SynapseGo.Redis Limiter

/-- A check script admitted a request and incremented `k`. -/
def increments (k : Key) : Act → Bool
  | ⟨.checkAndIncrement quotas, .ok result⟩ => quotas.any (fun q => q.key = k) && Passed result
  | _ => false

/-- A roll-back of `k` took effect. -/
def rollsBack (k : Key) : Act → Bool
  | ⟨.decrBy key _, .ok _⟩ => key = k
  | _ => false

/-- A correction of `k` took effect. -/
def corrects (k : Key) : Act → Bool
  | ⟨.incrBy key _, .ok _⟩ => key = k
  | _ => false

/-- The request's increment of `k` took effect and was not rolled back. -/
def inForce (k : Key) (es : List Act) : Bool := es.any (increments k) && !es.any (rollsBack k)

/-- The request's correction of `k` has been applied. -/
def corrected (k : Key) (es : List Act) : Bool := es.any (corrects k)

theorem inForce_skip {k : Key} {y : Act} (hi : increments k y = false) (hr : rollsBack k y = false)
    (es : List Act) : inForce k (es ++ [y]) = inForce k es := by
  unfold inForce
  rw [List.any_append, List.any_append, List.any_cons, List.any_cons, hi, hr]
  simp only [List.any_nil, Bool.or_false]

theorem inForce_rollback {k : Key} {y : Act} (hr : rollsBack k y = true) (es : List Act) :
    inForce k (es ++ [y]) = false := by
  have hany : (es ++ [y]).any (rollsBack k) = true :=
    List.any_eq_true.mpr ⟨y, List.mem_append_right es (List.mem_singleton_self y), hr⟩
  unfold inForce
  rw [hany, Bool.not_true, Bool.and_false]

theorem corrected_skip {k : Key} {y : Act} (hc : corrects k y = false) (es : List Act) :
    corrected k (es ++ [y]) = corrected k es := by
  unfold corrected
  rw [List.any_append, List.any_cons, hc]
  simp only [List.any_nil, Bool.or_false]

theorem increments_check (r : Request) (t : ℤ) (k : Key) (result : List ℤ) :
    increments k (r.checkAct t (.ok result)) =
      (decide (k ∈ r.counters (minuteOf t)) && decide (Passed result)) := by
  show ((quotas r.identity r.limits r.estimatedTokens (minuteOf t)).any (fun q => q.key = k) && _) = _
  rw [quotas_eq]
  simp [Request.counters, Request.quota, eq_comm]

/-- The standing of a request that passed the check script. -/
theorem inForce_passed {r : Request} {t : ℤ} {k : Key} {result : List ℤ} (h : Passed result)
    {rest : List Act} (hrest : rest.any (increments k) = false) :
    inForce k (clockAct t :: r.checkAct t (.ok result) :: rest) =
      (decide (k ∈ r.counters (minuteOf t)) && !rest.any (rollsBack k)) := by
  show ((false || (increments k (r.checkAct t (.ok result)) || rest.any (increments k))) &&
    !(false || (false || rest.any (rollsBack k)))) = _
  rw [increments_check, hrest, decide_eq_true h]
  simp only [Bool.and_true, Bool.or_false, Bool.false_or]

/-- An admitted request is in force as long as it does not roll back. -/
theorem inForce_admitted {r : Request} {t : ℤ} {k : Key} (hk : k ∈ r.counters (minuteOf t)) {result : List ℤ}
    (h : Passed result) {acquired : Except GoString ℤ} {rest : List Act}
    (hrest : ∀ y ∈ rest, increments k y = false ∧ rollsBack k y = false) :
    inForce k ([clockAct t, r.checkAct t (.ok result), r.acquireAct acquired] ++ rest) = true := by
  have hfalse : ∀ f : Act → Bool, f (r.acquireAct acquired) = false → (∀ y ∈ rest, f y = false) →
      (r.acquireAct acquired :: rest).any f = false := by
    intro f hacq hf
    rw [List.any_cons, hacq, Bool.false_or, List.any_eq_false]
    intro y hy
    rw [hf y hy]
    exact Bool.false_ne_true
  refine (inForce_passed h (hfalse _ rfl fun y hy => (hrest y hy).1)).trans ?_
  rw [hfalse _ rfl fun y hy => (hrest y hy).2, decide_eq_true hk]
  rfl

variable {ι : Type}

/-- Everything an operation of `r` can do to the counter `k`, by the request's history. -/
inductive CountStep (x : Event ι) (r : Request) (k : Key) (es : List Act) : Prop
  | other (hpost : x.post k = x.pre k) (hinc : increments k x.act = false)
    (hroll : rollsBack k x.act = false) (hcor : corrects k x.act = false)
  | counted {m : ℤ} (hk : k ∈ r.counters m) (hinc : increments k x.act = true)
    (hcor : corrects k x.act = false) (hbefore : inForce k es = false)
    (hafter : inForce k (es ++ [x.act]) = true) (hplain : corrected k es = false)
    (hroom : ¬ (r.quota k).Exceeded x.env.redisNow x.pre)
    (hpost : x.post k = some ((r.quota k).charged x.env.redisNow x.pre))
  | rolledBack {m : ℤ} (hk : k ∈ r.counters m) (hinc : increments k x.act = false)
    (hroll : rollsBack k x.act = true) (hcor : corrects k x.act = false) (hbefore : inForce k es = true)
    (hplain : corrected k es = false)
    (hpost : x.post k = some ⟨x.pre.counter x.env.redisNow k - r.amount k,
      (x.pre.live x.env.redisNow k).bind Cell.expireAt⟩)
  | adjusted {actualTokens : Int64} (hfin : r.finish = .track actualTokens)
    (hne : actualTokens - r.estimatedTokens ≠ 0) {m : ℤ} (hk : k = .tpm r.owner m)
    (hinc : increments k x.act = false) (hroll : rollsBack k x.act = false)
    (hcor : corrects k x.act = true) (hplain : corrected k es = false)
    (hlt : x.pre.counter x.env.redisNow k + (actualTokens - r.estimatedTokens).toInt < 2 ^ 63)
    (hpost : x.post k = some ⟨x.pre.counter x.env.redisNow k + (actualTokens - r.estimatedTokens).toInt,
      (x.pre.live x.env.redisNow k).bind Cell.expireAt⟩)

theorem CountStep.skip {x : Event ι} {r : Request} {k : Key} {y : Act} (hy : x.act = y)
    (hpost : x.post k = x.pre k) (hinc : increments k y = false) (hroll : rollsBack k y = false)
    (hcor : corrects k y = false) (es : List Act) : CountStep x r k es := by
  subst hy
  exact .other hpost hinc hroll hcor

theorem CountStep.of_check {x : Event ι} (hx : x.Valid handle) {r : Request} {k : Key} {t : ℤ}
    {reply : Except GoString (List ℤ)} (hy : x.act = r.checkAct t reply)
    (hfail : ∀ text, reply = .error text → x.post k = x.pre k) : CountStep x r k [clockAct t] := by
  cases Event.check hx hy with
  | failed text _ => exact .skip hy (hfail text rfl) rfl rfl rfl _
  | denied h hpost =>
    refine .skip hy (by rw [hpost]) ?_ rfl rfl _
    rw [increments_check, decide_eq_false h, Bool.and_false]
  | passed h hroom hpost =>
    by_cases hk : k ∈ r.counters (minuteOf t)
    · refine .counted hk ?_ (by rw [hy]; rfl) rfl ?_ rfl (hroom k hk) (hpost k hk)
      · rw [hy, increments_check, decide_eq_true hk, decide_eq_true h]
        rfl
      · rw [hy]
        exact (inForce_passed h rfl).trans (by simp [hk])
    · refine .skip hy (Event.check_frame hx hy hk) ?_ rfl rfl _
      rw [increments_check, decide_eq_false hk, Bool.false_and]

/-- A roll-back of the counter `key`, which the request had incremented before. -/
theorem CountStep.of_rollback {x : Event ι} (hx : x.Valid handle) {r : Request} {k key : Key}
    {m : ℤ} (hmem : key ∈ r.counters m) {reply : Except GoString ℤ}
    (hy : x.act = ⟨.decrBy key (r.amount key), reply⟩) {es : List Act} (hbefore : inForce key es = true)
    (hcorr : corrected key es = false) : CountStep x r k es := by
  rcases Event.decrBy hx hy with ⟨text, rfl, hpost⟩ | ⟨rfl, hpost⟩
  · exact .skip hy (by rw [hpost]) rfl rfl rfl es
  · by_cases hk : key = k
    · subst hk
      exact .rolledBack hmem (by rw [hy]; rfl) (by rw [hy]; simp [rollsBack]) (by rw [hy]; rfl) hbefore hcorr
        (by rw [hpost, Function.update_self])
    · refine .skip hy (by rw [hpost, Function.update_of_ne (Ne.symm hk)]) rfl ?_ rfl es
      simp [rollsBack, hk]

theorem CountStep.of_correct {x : Event ι} (hx : x.Valid handle) {r : Request} {k : Key}
    {actualTokens : Int64} (hfin : r.finish = .track actualTokens)
    (hne : actualTokens - r.estimatedTokens ≠ 0) {t : ℤ} {reply : Except GoString ℤ}
    (hy : x.act = r.correctAct actualTokens t reply) {es : List Act}
    (hcorr : ∀ k, corrected k es = false) : CountStep x r k es := by
  rcases Event.incrBy hx hy with ⟨text, rfl, hpost⟩ | ⟨rfl, hpost⟩
  · exact .skip hy (by rw [hpost]) rfl rfl rfl es
  · by_cases hk : .tpm r.owner (minuteOf t) = k
    · subst hk
      exact .adjusted hfin hne rfl (by rw [hy]; rfl) (by rw [hy]; rfl) (by rw [hy]; simp [corrects]) (hcorr _)
        (Event.incrBy_lt hx hy) (by rw [hpost, Function.update_self])
    · refine .skip hy (by rw [hpost, Function.update_of_ne (Ne.symm hk)]) rfl rfl ?_ es
      simp [corrects, hk]

/-- A slot is not a counter. -/
theorem CountStep.of_slot {x : Event ι} (hx : x.Valid handle) {r : Request} {k : Key} (hk : ∀ p, k ≠ .conc p)
    {reply : Except GoString ℤ} (hy : x.act = r.acquireAct reply ∨ x.act = r.releaseAct reply)
    (es : List Act) : CountStep x r k es := by
  rcases hy with hy | hy
  · refine .skip hy ?_ rfl rfl rfl es
    rcases Event.acquire hx hy with ⟨_, -, hpost⟩ | ⟨-, hpost⟩ | ⟨-, -, hpost⟩
    · rw [hpost]
    · rw [hpost]
    · rw [hpost, Function.update_of_ne (hk _)]
  · refine .skip hy ?_ rfl rfl rfl es
    rcases Event.release hx hy with ⟨_, -, hpost⟩ | ⟨-, -, hpost⟩ | ⟨-, hpost⟩
    · rw [hpost]
    · rw [hpost]
    · rw [hpost, Function.update_of_ne (hk _)]

/-- A failed check script may have incremented the request counter only, which `hfail` excludes. -/
theorem CountStep.of_op {x : Event ι} (hx : x.Valid handle) {r : Request} {k : Key} (hk : ∀ p, k ≠ .conc p)
    (hfail : ∀ t text, x.act = r.checkAct t (.error text) → x.post k = x.pre k) {es : List Act}
    (hop : RequestOp r es x.act) : CountStep x r k es := by
  generalize hy : x.act = y at hop
  cases hop with
  | pre h =>
    cases h with
    | clock t => exact .skip hy (by rw [Event.now hx hy]) rfl rfl rfl _
    | check t reply =>
      refine .of_check hx hy ?_
      rintro text rfl
      exact hfail t text hy
    | reset t h t' => exact .skip hy (by rw [Event.now hx hy]) rfl rfl rfl _
    | acquire t h reply => exact .of_slot hx hk (Or.inl hy) _
    | rollbackRPM t h reply =>
      refine .of_rollback hx List.mem_cons_self hy ((inForce_passed h rfl).trans ?_) rfl
      simp [Request.counters, rollsBack]
    | rollbackTPM t h rpm reply =>
      refine .of_rollback hx (List.mem_cons_of_mem _ List.mem_cons_self) hy
        ((inForce_passed h rfl).trans ?_) rfl
      cases rpm <;> simp [Request.counters, rollsBack]
  | release t h reply => exact .of_slot hx hk (Or.inr hy) _
  | correctUncounted hfin hne t text reply => exact .of_correct hx hfin hne hy fun _ => rfl
  | correctUnslotted hfin hne t h h₀ h₁ reply => exact .of_correct hx hfin hne hy fun _ => rfl
  | correctSlotted hfin hne t h released reply => exact .of_correct hx hfin hne hy fun _ => rfl

/-- A failed check script has not reached the token counter. -/
theorem CountStep.of_tokens {x : Event ι} (hx : x.Valid handle) {r : Request} {p : GoString} {m : ℤ}
    {es : List Act} (hop : RequestOp r es x.act) : CountStep x r (.tpm p m) es := by
  refine CountStep.of_op hx (by simp) ?_ hop
  intro t text hact
  by_cases hk : Key.tpm p m ∈ r.counters (minuteOf t)
  · have hkey : Key.tpm p m = .tpm r.owner (minuteOf t) := by simpa [Request.counters] using hk
    rw [hkey]
    cases Event.check hx hact with
    | failed _ htpm => exact htpm
  · exact Event.check_frame hx hact hk

/-- Only the check script counts, for the counters of its own identity and minute. -/
theorem RequestOp.counters_of_increments {r : Request} {es : List Act} {y : Act} (hop : RequestOp r es y)
    {k : Key} (hi : increments k y = true) : ∃ m, k ∈ r.counters m := by
  cases hop with
  | pre h =>
    cases h with
    | check t reply =>
      cases reply with
      | error text => cases hi
      | ok result =>
        rw [increments_check, Bool.and_eq_true, decide_eq_true_eq] at hi
        exact ⟨_, hi.1⟩
    | _ => cases hi
  | _ => cases hi

/-- A correction follows an increment in force, or a check that Redis failed. -/
theorem RequestOp.inForce_of_corrects {r : Request} {es : List Act} {y : Act} (hop : RequestOp r es y)
    {k : Key} (hc : corrects k y = true) : inForce k es = true ∨
      ∃ t text, k = .tpm r.owner (minuteOf t) ∧ es = [clockAct t, r.checkAct t (.error text)] := by
  have hkey : ∀ actualTokens t reply, corrects k (r.correctAct actualTokens t reply) = true →
      k = .tpm r.owner (minuteOf t) := by
    intro actualTokens t reply h
    cases reply with
    | error text => cases h
    | ok v => exact (of_decide_eq_true h).symm
  cases hop with
  | pre h => cases h <;> cases hc
  | release t h reply => cases hc
  | correctUncounted hfin hne t text reply => exact Or.inr ⟨t, text, hkey _ _ _ hc, rfl⟩
  | correctUnslotted hfin hne t h h₀ h₁ reply =>
    left
    rw [hkey _ _ _ hc]
    exact (inForce_passed h rfl).trans (by simp [Request.counters, rollsBack])
  | correctSlotted hfin hne t h released reply =>
    left
    rw [hkey _ _ _ hc]
    exact (inForce_passed h rfl).trans (by simp [Request.counters, rollsBack])

/-- A step leaves an unexpired key unexpired. -/
theorem CountStep.alive_post {x : Event ι} {r : Request} {k : Key} {es : List Act} (h : CountStep x r k es)
    (hlive : ∀ c ∈ x.pre k, c.alive x.env.redisNow = true) :
    ∀ c ∈ x.post k, c.alive x.env.redisNow = true := by
  cases h with
  | other hpost => rwa [hpost]
  | counted hk hinc hcor hbefore hafter hplain hroom hpost =>
    intro c hc
    rw [hpost, Option.mem_some_iff] at hc
    subst hc
    simp [Cell.alive, Quota.charged, Request.quota, keyTTL]
  | rolledBack hk hinc hroll hcor hbefore hplain hpost =>
    intro c hc
    rw [hpost, Option.mem_some_iff] at hc
    subst hc
    exact alive_incremented _ _ _ _
  | adjusted hfin hne hk hinc hroll hcor hplain hlt hpost =>
    intro c hc
    rw [hpost, Option.mem_some_iff] at hc
    subst hc
    exact alive_incremented _ _ _ _

/-- What the client reports in the end; without a report the estimate stands. -/
def Request.actual (r : Request) : ℤ :=
  match r.finish with
  | .track actualTokens => actualTokens.toInt
  | _ => r.estimatedTokens.toInt

def Request.tracks (r : Request) : Bool :=
  match r.finish with
  | .track _ => true
  | _ => false

theorem Request.actual_of_not_tracks (r : Request) (h : r.tracks = false) :
    r.actual = r.estimatedTokens.toInt := by
  unfold Request.tracks at h
  unfold Request.actual
  cases hfin : r.finish with
  | track actualTokens =>
    rw [hfin] at h
    cases h
  | release => rfl
  | leave => rfl

/-- What a request stands for in a counter after its correction. -/
def Request.settled (r : Request) : Key → ℤ
  | .rpm _ _ => 1
  | .tpm _ _ => r.actual
  | .conc _ => 1

/-- What a request with this history stands for in the counter `k`. -/
def ledger (requests : ι → Request) (k : Key) (i : ι) (es : List Act) : ℤ :=
  if inForce k es then (if corrected k es then (requests i).settled k else (requests i).amount k) else 0

theorem ledger_nil (requests : ι → Request) (k : Key) (i : ι) : ledger requests k i [] = 0 := rfl

theorem toInt_sub_of_nonneg {a b : Int64} (ha : 0 ≤ a.toInt) (hb : 0 ≤ b.toInt) :
    (a - b).toInt = a.toInt - b.toInt := by
  have := Int64.toInt_lt a
  have := Int64.toInt_lt b
  rw [Int64.toInt_sub]
  apply Int.bmod_eq_of_le <;> omega

/-- The requests of `p` count no negative tokens. -/
def NonnegTokens (requests : ι → Request) (p : GoString) : Prop :=
  ∀ i, (requests i).owner = p → 0 ≤ (requests i).estimatedTokens.toInt ∧ 0 ≤ (requests i).actual

/-- The two counters of minute `m`. -/
def minuteCounters (p : GoString) (m : ℤ) : List Key := [.rpm p m, .tpm p m]

theorem eq_of_mem_counters {p : GoString} {m : ℤ} {k : Key} (hk : k ∈ minuteCounters p m) {r : Request}
    {m' : ℤ} (h : k ∈ r.counters m') : r.owner = p ∧ m' = m := by
  simp only [minuteCounters, Request.counters, List.mem_cons, List.not_mem_nil, or_false] at hk h
  rcases hk with rfl | rfl <;> simpa [eq_comm] using h

theorem NonnegTokens.amount_nonneg {requests : ι → Request} {p : GoString} (h : NonnegTokens requests p)
    {i : ι} (hi : (requests i).owner = p) (k : Key) :
    0 ≤ (requests i).amount k ∧ 0 ≤ (requests i).settled k := by
  cases k with
  | rpm => exact ⟨zero_le_one, zero_le_one⟩
  | tpm => exact h i hi
  | conc => exact ⟨zero_le_one, zero_le_one⟩

section Ledger
variable {requests : ι → Request} {p : GoString} {x : Event ι} {k : Key} {es : List Act}

/-- How the caller's standing changes with an operation. -/
def ledgerChange (requests : ι → Request) (k : Key) (x : Event ι) (es : List Act) : ℤ :=
  ledger requests k x.caller (es ++ [x.act]) - ledger requests k x.caller es

/-- How an unexpired key moves with its caller's standing. -/
inductive LedgerStep (requests : ι → Request) (x : Event ι) (k : Key) (es : List Act) : Prop
  | even (hinc : increments k x.act = false) (hcor : corrects k x.act = false)
    (hvalue : x.post.value k - x.pre.value k = ledgerChange requests k x es)
  | counted (hinc : increments k x.act = true) (hcor : corrects k x.act = false)
    (hroom : ¬ ((requests x.caller).quota k).Exceeded x.env.redisNow x.pre)
    (hvalue : x.post.value k - x.pre.value k = roundDouble ((requests x.caller).amount k))
    (hledger : ledgerChange requests k x es = (requests x.caller).amount k)
  | adjusted {actualTokens : Int64} (hactual : (requests x.caller).actual = actualTokens.toInt)
    (hne : actualTokens - (requests x.caller).estimatedTokens ≠ 0) {m : ℤ}
    (hk : k = .tpm (requests x.caller).owner m) (hinc : increments k x.act = false)
    (hcor : corrects k x.act = true)
    (hvalue : x.post.value k - x.pre.value k = (actualTokens - (requests x.caller).estimatedTokens).toInt)
    (hledger : ledgerChange requests k x es =
      if inForce k es then actualTokens.toInt - (requests x.caller).estimatedTokens.toInt else 0)

theorem CountStep.ledgerStep (h : CountStep x (requests x.caller) k es)
    (hlive : ∀ c ∈ x.pre k, c.alive x.env.redisNow = true) : LedgerStep requests x k es := by
  have hcounter := Store.counter_eq_value hlive
  cases h with
  | other hpost hinc hroll hcor =>
    refine .even hinc hcor ?_
    unfold ledgerChange ledger Store.value
    rw [hpost, inForce_skip hinc hroll, corrected_skip hcor, sub_self, sub_self]
  | counted hk hinc hcor hbefore hafter hplain hroom hpost =>
    refine .counted hinc hcor hroom ?_ ?_
    · rw [Store.value_of_eq_some hpost, ← hcounter]
      exact add_sub_cancel_left _ _
    · unfold ledgerChange ledger
      rw [hbefore, hafter, corrected_skip hcor, hplain]
      exact sub_zero _
  | rolledBack hk hinc hroll hcor hbefore hplain hpost =>
    refine .even hinc hcor ?_
    rw [Store.value_of_eq_some hpost, ← hcounter]
    unfold ledgerChange ledger
    rw [inForce_rollback hroll, hbefore, hplain]
    simp only [if_true, Bool.false_eq_true, if_false]
    omega
  | @adjusted actualTokens hfin hne m hk hinc hroll hcor hplain hlt hpost =>
    have hactual : (requests x.caller).actual = actualTokens.toInt := by
      unfold Request.actual
      rw [hfin]
    refine .adjusted hactual hne hk hinc hcor ?_ ?_
    · rw [Store.value_of_eq_some hpost, ← hcounter]
      exact add_sub_cancel_left _ _
    · have hnow : corrected k (es ++ [x.act]) = true :=
        List.any_eq_true.mpr ⟨x.act, List.mem_append_right es (List.mem_singleton_self _), hcor⟩
      unfold ledgerChange ledger
      rw [inForce_skip hinc hroll, hnow, hplain, ← hactual, hk]
      cases inForce (.tpm (requests x.caller).owner m) es <;> rfl

/-- The estimate is exact as a double where it counts, and no request corrects what it has not added. -/
def Faithful (requests : ι → Request) (k : Key) (x : Event ι) (es : List Act) : Prop :=
  (increments k x.act = true → roundDouble ((requests x.caller).amount k) = (requests x.caller).amount k) ∧
    (corrects k x.act = true → inForce k es = true)

instance (k : Key) (es : List Act) : Decidable (Faithful requests k x es) :=
  inferInstanceAs (Decidable (_ ∧ _))

/-- A key moves with its caller's standing exactly when the operation is faithful. -/
theorem LedgerStep.value_iff (h : LedgerStep requests x k es) (htokens : NonnegTokens requests p)
    (howner : ∀ m, k = .tpm (requests x.caller).owner m → (requests x.caller).owner = p) :
    x.post.value k - x.pre.value k = ledgerChange requests k x es ↔ Faithful requests k x es := by
  unfold Faithful
  cases h with
  | even hinc hcor hvalue => simp [hinc, hcor, hvalue]
  | counted hinc hcor hroom hvalue hledger =>
    rw [hvalue, hledger, hinc, hcor]
    simp
  | @adjusted actualTokens hactual hne m hk hinc hcor hvalue hledger =>
    obtain ⟨hest, hpos⟩ := htokens x.caller (howner m hk)
    have hsub := toInt_sub_of_nonneg (hactual ▸ hpos) hest
    rw [hvalue, hledger, hinc, hcor]
    cases hin : inForce k es with
    | true => simp [hsub]
    | false =>
      have hzero : (actualTokens - (requests x.caller).estimatedTokens).toInt ≠ 0 := by
        intro h
        exact hne (Int64.toInt_inj.mp (h.trans Int64.toInt_zero.symm))
      constructor
      · intro h
        exact absurd h hzero
      · intro h
        exact absurd (h.2 rfl) Bool.false_ne_true

section Sum
variable [DecidableEq ι] {l : Limiter} {m : ℤ} {s₀ : Keys} {sched : List (ι × Env)} {a : List (Event ι)}

/-- Whoever stands in a counter of `p` is a request of `p`. -/
theorem owner_of_inForce (ha : a ⊆ (world l requests s₀ sched).log) {k : Key}
    (hk : k ∈ minuteCounters p m) {i : ι} (h : inForce k (history i a) = true) : (requests i).owner = p := by
  unfold inForce at h
  rw [Bool.and_eq_true] at h
  obtain ⟨y, hy, hi⟩ := List.any_eq_true.mp h.1
  obtain ⟨x, hx, rfl, rfl⟩ := mem_history.mp hy
  obtain ⟨a₁, b₁, hl⟩ := List.append_of_mem (ha hx)
  obtain ⟨m', hm'⟩ := (requestOp_of_log hl).counters_of_increments hi
  exact (eq_of_mem_counters hk hm').1

theorem ledger_nonneg (htokens : NonnegTokens requests p)
    (ha : a ⊆ (world l requests s₀ sched).log) {k : Key} (hk : k ∈ minuteCounters p m) (i : ι) :
    0 ≤ ledger requests k i (history i a) := by
  unfold ledger
  by_cases hin : inForce k (history i a) = true
  · obtain ⟨hamount, hsettled⟩ := htokens.amount_nonneg (owner_of_inForce ha hk hin) k
    rw [if_pos hin]
    split_ifs
    · exact hsettled
    · exact hamount
  · rw [if_neg hin]

theorem sum_snoc (hsum : x.pre.value k = total (ledger requests k) a)
    (hstep : x.post.value k - x.pre.value k = ledgerChange requests k x (history x.caller a)) :
    x.post.value k = total (ledger requests k) (a ++ [x]) := by
  unfold ledgerChange at hstep
  rw [total_snoc (ledger_nil requests k)]
  omega

end Sum
end Ledger

end SynapseGo.RateLimit
