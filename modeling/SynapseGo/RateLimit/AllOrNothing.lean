import SynapseGo.RateLimit.Scripts

/-! The check script as a whole: over any list of distinct keys it counts on all of them or on none. -/
namespace SynapseGo.RateLimit
open SynapseGo.Go SynapseGo.Redis

/-- The integer reply that a Lua number becomes; a number out of range is cast as on amd64. -/
def integerReply (n : ℤ) : ℤ := if -2 ^ 63 ≤ n ∧ n < 2 ^ 63 then n else -2 ^ 63

variable {κ : Type}

namespace Quota

/-- What phase 2 does to the key of a quota. -/
def charge (now : ℤ) (s : Store κ) (q : Quota κ) : Except GoString ℤ × Option Cell :=
  bumpCell now (roundDouble q.increment) (roundDouble q.ttl) (s q.key)

theorem charge_congr {now : ℤ} {s t : Store κ} {q : Quota κ} (h : s q.key = t q.key) :
    q.charge now s = q.charge now t := by
  unfold charge
  rw [h]

/-- The remaining value that phase 2 reports. -/
def remaining (now : ℤ) (s : Store κ) (q : Quota κ) : ℤ :=
  roundDouble (roundDouble q.limit - roundDouble (s.counter now q.key + roundDouble q.increment))

/-- The counter would pass the limit. -/
def Violated (now : ℤ) (s : Store κ) (q : Quota κ) : Prop := q.limit < s.counter now q.key + q.increment

instance (now : ℤ) (s : Store κ) (q : Quota κ) : Decidable (q.Violated now s) :=
  inferInstanceAs (Decidable (_ < _))

/-- The commands accept their numbers, and what they do and report is what the integers say. -/
structure Countable (now : ℤ) (s : Store κ) (q : Quota κ) : Prop where
  increment_arg : (roundDouble q.increment).natAbs < 10 ^ 17
  no_overflow : -2 ^ 63 ≤ s.counter now q.key + roundDouble q.increment ∧
    s.counter now q.key + roundDouble q.increment < 2 ^ 63
  ttl_arg : (roundDouble q.ttl).natAbs < 10 ^ 17
  ttl_range : -2 ^ 63 ≤ roundDouble q.ttl * 1000 ∧ roundDouble q.ttl * 1000 < 2 ^ 63
  counted : if 0 < roundDouble q.ttl then roundDouble q.increment = q.increment
    else s.counter now q.key + q.increment = 0
  reported : integerReply (q.remaining now s) = q.limit - (s.counter now q.key + q.increment)

/-- Every number of the script is exact as a double, and the expiry is positive. -/
structure Small (now : ℤ) (s : Store κ) (q : Quota κ) : Prop where
  counter : (s.counter now q.key).natAbs ≤ 2 ^ 53
  increment : q.increment.natAbs ≤ 2 ^ 53
  limit : q.limit.natAbs ≤ 2 ^ 53
  sum : (s.counter now q.key + q.increment).natAbs ≤ 2 ^ 53
  rest : (q.limit - (s.counter now q.key + q.increment)).natAbs ≤ 2 ^ 53
  ttl : ValidTTL q.ttl

theorem Small.exceeded_iff {now : ℤ} {s : Store κ} {q : Quota κ} (h : q.Small now s) :
    q.Exceeded now s ↔ q.Violated now s := by
  unfold Exceeded Violated
  rw [roundDouble_of_natAbs_le h.counter, roundDouble_of_natAbs_le h.increment,
    roundDouble_of_natAbs_le h.sum, roundDouble_of_natAbs_le h.limit]

theorem Small.countable {now : ℤ} {s : Store κ} {q : Quota κ} (h : q.Small now s) : q.Countable now s := by
  obtain ⟨hpos, hle⟩ := h.ttl
  have hincrement := roundDouble_of_natAbs_le h.increment
  have httl := roundDouble_of_natAbs_le (show q.ttl.natAbs ≤ 2 ^ 53 by omega)
  have hsmall := h.increment
  have hsum := h.sum
  have hrest := h.rest
  constructor
  · rw [hincrement]
    omega
  · rw [hincrement]
    omega
  · rw [httl]
    omega
  · rw [httl]
    omega
  · rw [httl, if_pos hpos, hincrement]
  · rw [remaining, hincrement, roundDouble_of_natAbs_le h.sum, roundDouble_of_natAbs_le h.limit,
      roundDouble_of_natAbs_le h.rest, integerReply, if_pos (by omega)]

end Quota

theorem key_ne_of_nodup {q : Quota κ} {quotas : List (Quota κ)} (hnodup : ((q :: quotas).map Quota.key).Nodup)
    {q' : Quota κ} (hq' : q' ∈ quotas) : q'.key ≠ q.key := by
  rw [List.map_cons, List.nodup_cons] at hnodup
  intro heq
  exact hnodup.1 (List.mem_map.mpr ⟨q', hq', heq⟩)

/-- The doubles compare as the integers do, up to the first violated limit. -/
def ComparesRight (now : ℤ) (quotas : List (Quota κ)) (s : Store κ) : Prop :=
  ∀ before q after, quotas = before ++ q :: after → (∀ p ∈ before, ¬ p.Violated now s) →
    (q.Exceeded now s ↔ q.Violated now s)

theorem comparesRight_of_small {now : ℤ} {quotas : List (Quota κ)} {s : Store κ}
    (h : ∀ q ∈ quotas, q.Small now s) : ComparesRight now quotas s := by
  intro before q after hsplit _
  apply (h q _).exceeded_iff
  rw [hsplit]
  simp

theorem comparesRight_cons {now : ℤ} {q : Quota κ} {quotas : List (Quota κ)} {s : Store κ} :
    ComparesRight now (q :: quotas) s ↔
      (q.Exceeded now s ↔ q.Violated now s) ∧ (¬ q.Violated now s → ComparesRight now quotas s) := by
  constructor
  · intro h
    refine ⟨h [] q quotas rfl (by simp), ?_⟩
    intro hq before p after hsplit hbefore
    refine h (q :: before) p after (by rw [hsplit, List.cons_append]) ?_
    rw [List.forall_mem_cons]
    exact ⟨hq, hbefore⟩
  · rintro ⟨hq, hrest⟩ before p after hsplit hbefore
    cases before with
    | nil =>
      obtain ⟨rfl, -⟩ := List.cons.inj hsplit
      exact hq
    | cons b before =>
      obtain ⟨rfl, htail⟩ := List.cons.inj hsplit
      rw [List.forall_mem_cons] at hbefore
      exact hrest hbefore.1 before p after htail hbefore.2

/-- Equivalently, both find the same first position. -/
theorem comparesRight_iff {now : ℤ} {quotas : List (Quota κ)} {s : Store κ} :
    ComparesRight now quotas s ↔
      quotas.findIdx? (fun q => q.Exceeded now s) = quotas.findIdx? fun q => q.Violated now s := by
  induction quotas with
  | nil => simp [ComparesRight]
  | cons q quotas ih =>
    rw [comparesRight_cons, ih, List.findIdx?_cons, List.findIdx?_cons]
    by_cases hv : q.Violated now s
    · by_cases he : q.Exceeded now s
      · simp [hv, he]
      · simp [hv, he]
    · by_cases he : q.Exceeded now s
      · simp [hv, he]
      · simp only [hv, he, decide_false, Bool.false_eq_true, if_false, not_false_eq_true, true_implies,
          true_and]
        exact (Option.map_injective (Nat.succ_injective)).eq_iff.symm

/-- The position at which phase 1 stops. -/
theorem checkLimits_fst {now : ℤ} {s : Store κ} {i : ℤ} {quotas : List (Quota κ)} :
    (checkLimits now s i quotas).1 = (quotas.findIdx? fun q => q.Exceeded now s).map fun n : ℕ =>
    i + (n : ℤ) := by
  induction quotas generalizing i with
  | nil => rfl
  | cons q quotas ih =>
    rw [List.findIdx?_cons]
    unfold checkLimits
    by_cases he : q.Exceeded now s
    · simp [he]
    · simp only [he, if_false, ih, decide_false, Bool.false_eq_true]
      cases quotas.findIdx? fun q => q.Exceeded now s with
      | none => rfl
      | some n =>
        simp only [Option.map_some, Option.some.injEq]
        omega

theorem forall_not_iff_findIdx? {α : Type} {P : α → Prop} [DecidablePred P] {l : List α} :
    (∀ a ∈ l, ¬ P a) ↔ l.findIdx? (fun a => P a) = none := by
  simp [List.findIdx?_eq_none_iff]

variable [DecidableEq κ]

theorem incrementAll_cons_ok {now : ℤ} {q : Quota κ} {quotas : List (Quota κ)} {s t : Store κ}
    {results : List ℤ} :
    incrementAll now (q :: quotas) s = (.ok results, t) ↔ ∃ v rest, (q.charge now s).1 = .ok v ∧
      incrementAll now quotas (Function.update s q.key (q.charge now s).2) = (.ok rest, t) ∧
      results = roundDouble (roundDouble q.limit - roundDouble v) :: rest := by
  rw [incrementAll_cons, bump_eq]
  change (match ((q.charge now s).1, Function.update s q.key (q.charge now s).2) with
    | (.error text, t) => _
    | (.ok newVal, t) => _) = _ ↔ _
  cases hv : (q.charge now s).1 with
  | error text =>
    constructor
    · intro h
      cases (Prod.mk.inj h).1
    · rintro ⟨v, rest, hv', -⟩
      cases hv'
  | ok v =>
    dsimp only
    constructor
    · intro h
      cases hi : incrementAll now quotas (Function.update s q.key (q.charge now s).2) with
      | mk reply u =>
        rw [hi] at h
        cases reply with
        | error text => cases (Prod.mk.inj h).1
        | ok rest =>
          obtain ⟨hresults, rfl⟩ := Prod.mk.inj h
          exact ⟨v, rest, rfl, rfl, (Except.ok.inj hresults).symm⟩
    · rintro ⟨v', rest, hv', hrest, rfl⟩
      cases hv'
      rw [hrest]

theorem incrementAll_untouched {now : ℤ} {quotas : List (Quota κ)} {s t : Store κ} {results : List ℤ}
    (h : incrementAll now quotas s = (.ok results, t)) {k : κ} (hk : ∀ q ∈ quotas, q.key ≠ k) :
    t k = s k := by
  induction quotas generalizing s results with
  | nil =>
    cases h
    rfl
  | cons q quotas ih =>
    obtain ⟨v, rest, -, hrest, -⟩ := incrementAll_cons_ok.mp h
    rw [List.forall_mem_cons] at hk
    rw [ih hrest hk.2, Function.update_of_ne (Ne.symm hk.1)]

/-- A completed phase 2 over distinct keys has charged each key by itself. -/
theorem charge_of_incrementAll {now : ℤ} {quotas : List (Quota κ)} (hnodup : (quotas.map Quota.key).Nodup)
    {s t : Store κ} {results : List ℤ} (h : incrementAll now quotas s = (.ok results, t)) :
    results = quotas.map (Quota.remaining now s) ∧
      ∀ q ∈ quotas, (q.charge now s).1 = .ok (s.counter now q.key + roundDouble q.increment) ∧
        t q.key = (q.charge now s).2 := by
  have hvalue : ∀ {s : Store κ} {q : Quota κ} {v : ℤ}, (q.charge now s).1 = .ok v →
      v = s.counter now q.key + roundDouble q.increment := fun hv => (bumpCell_ok hv).1
  induction quotas generalizing s results with
  | nil =>
    cases h
    simp
  | cons q quotas ih =>
    obtain ⟨v, rest, hv, hrest, rfl⟩ := incrementAll_cons_ok.mp h
    obtain ⟨hresults, hkeys⟩ := ih (List.nodup_cons.mp hnodup).2 hrest
    have hsame : ∀ q' ∈ quotas, Function.update s q.key (q.charge now s).2 q'.key = s q'.key := by
      intro q' hq'
      exact Function.update_of_ne (key_ne_of_nodup hnodup hq') _ s
    constructor
    · rw [hresults, List.map_cons, hvalue hv]
      congr 1
      apply List.map_congr_left
      intro q' hq'
      rw [Quota.remaining, Store.counter_congr (hsame q' hq'), Quota.remaining]
    · rw [List.forall_mem_cons]
      constructor
      · rw [incrementAll_untouched hrest fun q' hq' => key_ne_of_nodup hnodup hq', Function.update_self, hv,
          hvalue hv]
        exact ⟨rfl, rfl⟩
      · intro q' hq'
        rw [← Quota.charge_congr (hsame q' hq'), ← Store.counter_congr (hsame q' hq')]
        exact hkeys q' hq'

/-- Phase 2 completes when each key can be charged. -/
theorem incrementAll_of_charge {now : ℤ} {quotas : List (Quota κ)} (hnodup : (quotas.map Quota.key).Nodup)
    {s : Store κ} (hok : ∀ q ∈ quotas, ∃ v, (q.charge now s).1 = .ok v) :
    ∃ results t, incrementAll now quotas s = (.ok results, t) := by
  induction quotas generalizing s with
  | nil => exact ⟨[], s, rfl⟩
  | cons q quotas ih =>
    rw [List.forall_mem_cons] at hok
    obtain ⟨v, hv⟩ := hok.1
    have hrest : ∀ q' ∈ quotas,
        ∃ v, (q'.charge now (Function.update s q.key (q.charge now s).2)).1 = .ok v := by
      intro q' hq'
      rw [Quota.charge_congr (Function.update_of_ne (key_ne_of_nodup hnodup hq') _ s)]
      exact hok.2 q' hq'
    obtain ⟨results, t, ht⟩ := ih (List.nodup_cons.mp hnodup).2 hrest
    exact ⟨_, t, incrementAll_cons_ok.mpr ⟨v, results, hv, ht, rfl⟩⟩

/-- What one run of the script promises: all keys are counted on, or none and the first violated limit is
named. -/
structure AllOrNothing (now : ℤ) (quotas : List (Quota κ)) (s : Store κ) : Prop where
  allowed_iff : (∃ rest, (luaCheckAndIncrement now quotas s).1 = .ok (1 :: rest)) ↔
    ∀ q ∈ quotas, ¬ q.Violated now s
  allowed : ∀ rest, (luaCheckAndIncrement now quotas s).1 = .ok (1 :: rest) →
    rest.map integerReply =
        -1 :: quotas.map (fun q => q.limit - (luaCheckAndIncrement now quotas s).2.counter now q.key) ∧
      ∀ q ∈ quotas, (luaCheckAndIncrement now quotas s).2.counter now q.key =
        s.counter now q.key + q.increment
  denied : ∀ i : ℕ, quotas.findIdx? (fun q => q.Violated now s) = some i →
    ∃ rest, luaCheckAndIncrement now quotas s = (.ok (0 :: (i : ℤ) :: rest), s)

/-- Phase 1 stops at the first limit that the doubles find exceeded, and nothing is changed. -/
theorem luaCheckAndIncrement_of_exceeded {now : ℤ} {quotas : List (Quota κ)} {s : Store κ} {i : ℕ}
    (h : quotas.findIdx? (fun q => q.Exceeded now s) = some i) :
    ∃ rest, luaCheckAndIncrement now quotas s = (.ok (0 :: (i : ℤ) :: rest), s) := by
  have hcheck : (checkLimits now s 0 quotas).1 = some (i : ℤ) := by
    rw [checkLimits_fst, h]
    simp
  exact ⟨_, luaCheckAndIncrement_of_denied (Prod.ext hcheck rfl)⟩

theorem luaCheckAndIncrement_of_passed {now : ℤ} {quotas : List (Quota κ)} {s : Store κ}
    (h : quotas.findIdx? (fun q => q.Exceeded now s) = none) :
    luaCheckAndIncrement now quotas s =
      ((incrementAll now quotas s).1.map fun results => 1 :: -1 :: results,
        (incrementAll now quotas s).2) := by
  apply luaCheckAndIncrement_of_allowed
  rw [checkLimits_fst, h]
  rfl

omit [DecidableEq κ] in
/-- The counter of a key that phase 2 has charged; without a positive expiry the key is gone. -/
theorem counter_charged {now : ℤ} {s t : Store κ} {q : Quota κ} {v : ℤ} (hv : (q.charge now s).1 = .ok v)
    (ht : t q.key = (q.charge now s).2) :
    t.counter now q.key =
      if 0 < roundDouble q.ttl then s.counter now q.key + roundDouble q.increment else 0 := by
  obtain ⟨hvalue, -, -, -, -, hcell⟩ := bumpCell_ok hv
  have hcounter : v = s.counter now q.key + roundDouble q.increment := hvalue
  change (q.charge now s).2 = _ at hcell
  rw [hcell] at ht
  unfold Store.counter
  by_cases hpos : 0 < roundDouble q.ttl
  · rw [if_neg (not_le.mpr hpos)] at ht
    have halive : Cell.alive now ⟨v, some (now + roundDouble q.ttl * 1000)⟩ = true := by
      simp only [Cell.alive, Option.all_some, decide_eq_true_eq]
      omega
    rw [Store.live_of_alive ht halive, if_pos hpos]
    exact hcounter
  · rw [if_pos (not_lt.mp hpos)] at ht
    rw [Store.live_of_eq_none ht, if_neg hpos]
    rfl

omit [DecidableEq κ] in
theorem Quota.Countable.charge {now : ℤ} {s : Store κ} {q : Quota κ} (h : q.Countable now s) :
    (q.charge now s).1 = .ok (s.counter now q.key + roundDouble q.increment) := by
  unfold Quota.charge
  rw [bumpCell_of_mem rfl h.increment_arg h.no_overflow h.ttl_arg (by have := h.ttl_range; omega)]
  rfl

omit [DecidableEq κ] in
/-- A charged key is countable exactly if its counter and the reported value came out right. -/
theorem countable_iff_of_charge {now : ℤ} {s t : Store κ} {q : Quota κ} {v : ℤ}
    (hv : (q.charge now s).1 = .ok v) (ht : t q.key = (q.charge now s).2) :
    q.Countable now s ↔ t.counter now q.key = s.counter now q.key + q.increment ∧
      integerReply (q.remaining now s) = q.limit - t.counter now q.key := by
  have hcounter := counter_charged hv ht
  obtain ⟨hvalue, harg, hrange, httl, hexpire, -⟩ := bumpCell_ok hv
  have hsum : v = s.counter now q.key + roundDouble q.increment := hvalue
  have hcounted : (if 0 < roundDouble q.ttl then roundDouble q.increment = q.increment
      else s.counter now q.key + q.increment = 0) ↔
      t.counter now q.key = s.counter now q.key + q.increment := by
    rw [hcounter]
    split_ifs <;> omega
  constructor
  · intro h
    have hc := hcounted.mp h.counted
    exact ⟨hc, by rw [hc, h.reported]⟩
  · rintro ⟨hc, hreported⟩
    exact ⟨harg, by omega, httl, by omega, hcounted.mpr hc, by rw [hreported, hc]⟩

/-- An allowing reply comes from a completed phase 2. -/
theorem incrementAll_of_allowed {now : ℤ} {quotas : List (Quota κ)} {s : Store κ} {rest : List ℤ}
    (h : (luaCheckAndIncrement now quotas s).1 = .ok (1 :: rest)) :
    quotas.findIdx? (fun q => q.Exceeded now s) = none ∧ ∃ results t,
      incrementAll now quotas s = (.ok results, t) ∧ rest = -1 :: results ∧
        (luaCheckAndIncrement now quotas s).2 = t := by
  cases hindex : quotas.findIdx? fun q => q.Exceeded now s with
  | some i =>
    obtain ⟨rest', hrun⟩ := luaCheckAndIncrement_of_exceeded hindex
    rw [hrun] at h
    cases h
  | none =>
    refine ⟨rfl, ?_⟩
    rw [luaCheckAndIncrement_of_passed hindex] at h ⊢
    cases hall : incrementAll now quotas s with
    | mk reply t =>
      rw [hall] at h
      cases reply with
      | error text => cases h
      | ok results =>
        cases h
        exact ⟨results, t, rfl, rfl, rfl⟩

/-- The two comparisons stop at the same position wherever the script keeps its promise. -/
theorem AllOrNothing.findIdx?_eq {now : ℤ} {quotas : List (Quota κ)} {s : Store κ}
    (h : AllOrNothing now quotas s) :
    quotas.findIdx? (fun q => q.Exceeded now s) = quotas.findIdx? fun q => q.Violated now s := by
  cases hviolated : quotas.findIdx? fun q => q.Violated now s with
  | none =>
    obtain ⟨rest, hrun⟩ := h.allowed_iff.mpr (forall_not_iff_findIdx?.mpr hviolated)
    exact (incrementAll_of_allowed hrun).1
  | some j =>
    obtain ⟨rest, hrun⟩ := h.denied j hviolated
    cases hexceeded : quotas.findIdx? fun q => q.Exceeded now s with
    | none =>
      rw [luaCheckAndIncrement_of_passed hexceeded] at hrun
      cases hall : incrementAll now quotas s with
      | mk reply t =>
        rw [hall] at hrun
        cases reply with
        | error text => cases (Prod.mk.inj hrun).1
        | ok results => cases (Prod.mk.inj hrun).1
    | some i =>
      obtain ⟨rest', hrun'⟩ := luaCheckAndIncrement_of_exceeded hexceeded
      rw [hrun'] at hrun
      have hreply := Except.ok.inj (Prod.mk.inj hrun).1
      have hij : (i : ℤ) = j := (List.cons.inj (List.cons.inj hreply).2).1
      rw [Int.ofNat_inj.mp hij]

/-- The script keeps its promise exactly when the doubles compare right up to the first violated limit and,
where none is violated, every key is countable. -/
theorem allOrNothing_iff {now : ℤ} {quotas : List (Quota κ)} (hnodup : (quotas.map Quota.key).Nodup)
    {s : Store κ} :
    AllOrNothing now quotas s ↔ ComparesRight now quotas s ∧
      ((∀ q ∈ quotas, ¬ q.Violated now s) → ∀ q ∈ quotas, q.Countable now s) := by
  rw [comparesRight_iff]
  constructor
  · intro h
    refine ⟨h.findIdx?_eq, ?_⟩
    intro hnone q hq
    obtain ⟨rest, hrun⟩ := h.allowed_iff.mpr hnone
    obtain ⟨hreported, hcounted⟩ := h.allowed rest hrun
    obtain ⟨-, results, t, hall, rfl, hstore⟩ := incrementAll_of_allowed hrun
    obtain ⟨rfl, hcharge⟩ := charge_of_incrementAll hnodup hall
    rw [hstore] at hreported hcounted
    rw [List.map_cons, List.map_map, List.cons.injEq, List.map_inj_left] at hreported
    rw [countable_iff_of_charge (hcharge q hq).1 (hcharge q hq).2]
    exact ⟨hcounted q hq, hreported.2 q hq⟩
  · rintro ⟨hindex, hcountable⟩
    constructor
    · rw [forall_not_iff_findIdx?, ← hindex]
      constructor
      · rintro ⟨rest, hrun⟩
        exact (incrementAll_of_allowed hrun).1
      · intro hnone
        have hcount := hcountable (forall_not_iff_findIdx?.mpr (hindex.symm.trans hnone))
        obtain ⟨results, t, hall⟩ := incrementAll_of_charge hnodup fun q hq => ⟨_, (hcount q hq).charge⟩
        rw [luaCheckAndIncrement_of_passed hnone, hall]
        exact ⟨_, rfl⟩
    · intro rest hrun
      obtain ⟨hnone, results, t, hall, rfl, hstore⟩ := incrementAll_of_allowed hrun
      obtain ⟨rfl, hcharge⟩ := charge_of_incrementAll hnodup hall
      have hcount := hcountable (forall_not_iff_findIdx?.mpr (hindex.symm.trans hnone))
      have hboth : ∀ q ∈ quotas, t.counter now q.key = s.counter now q.key + q.increment ∧
          integerReply (q.remaining now s) = q.limit - t.counter now q.key := by
        intro q hq
        exact (countable_iff_of_charge (hcharge q hq).1 (hcharge q hq).2).mp (hcount q hq)
      rw [hstore, List.map_cons, List.map_map, List.cons.injEq, List.map_inj_left]
      exact ⟨⟨rfl, fun q hq => (hboth q hq).2⟩, fun q hq => (hboth q hq).1⟩
    · intro i hi
      rw [← hindex] at hi
      exact luaCheckAndIncrement_of_exceeded hi

/-- Two keys of which one has a counter: both are charged. -/
theorem small_allOrNothing :
    let quotas : List (Quota ℕ) := [⟨0, 10, 1, 120⟩, ⟨1, 1000, 250, 120⟩]
    let s : Store ℕ := fun k => if k = 0 then some ⟨9, none⟩ else none
    (quotas.map Quota.key).Nodup ∧ (∀ q ∈ quotas, q.Small 5 s) ∧ AllOrNothing 5 quotas s := by
  have hsmall : ∀ q ∈ ([⟨0, 10, 1, 120⟩, ⟨1, 1000, 250, 120⟩] : List (Quota ℕ)),
      q.Small 5 (fun k => if k = 0 then some ⟨9, none⟩ else none) := by
    rw [List.forall_mem_cons, List.forall_mem_singleton]
    constructor <;> constructor <;> decide
  exact ⟨by decide, hsmall, (allOrNothing_iff (by decide)).mpr
    ⟨comparesRight_of_small hsmall, fun _ q hq => (hsmall q hq).countable⟩⟩

/-- A sum beyond `2^53` is rounded down and passes its limit; and with no time to live the key that was
counted on is deleted. -/
theorem rounded_not_allOrNothing :
    let full : Store ℕ := fun _ => some ⟨9007199254740992, none⟩
    let rounded : Quota ℕ := ⟨0, 9007199254740992, 1, 60⟩
    let empty : Store ℕ := fun _ => none
    let timeless : Quota ℕ := ⟨0, 10, 1, 0⟩
    ¬ AllOrNothing 0 [rounded] full ∧ ¬ AllOrNothing 0 [timeless] empty := by
  intro full rounded empty timeless
  constructor
  · intro h
    have hreply : (luaCheckAndIncrement 0 [rounded] full).1 = .ok [1, -1, 0] := by decide +kernel
    have hviolated : rounded.Violated 0 full := by decide +kernel
    exact h.allowed_iff.mp ⟨_, hreply⟩ rounded (List.mem_singleton_self rounded) hviolated
  · intro h
    have hreply : (luaCheckAndIncrement 0 [timeless] empty).1 = .ok [1, -1, 9] := by decide +kernel
    have hdeleted : (luaCheckAndIncrement 0 [timeless] empty).2.counter 0 0 = 0 := by decide +kernel
    have hcounted := (h.allowed _ hreply).2 timeless (List.mem_singleton_self timeless)
    exact absurd (hdeleted.symm.trans hcounted) (by decide)

end SynapseGo.RateLimit
