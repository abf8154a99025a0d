import SynapseGo.RateLimit.Counters

/-! Token accounting under faults. A check that Redis failed allows the request with the same minute
key as one that counted, so its correction takes back an estimate that was never added. -/
namespace SynapseGo.RateLimit
open SynapseGo.Go SynapseGo.Concurrency SynapseGo.Redis Limiter

variable {ι : Type} [DecidableEq ι]

/-- The estimates of the requests in force that are not corrected, and the actual tokens of those
that are. -/
def tokensOwed (requests : ι → Request) (p : GoString) (m : ℤ) (log : List (Event ι)) : ℤ :=
  total (ledger requests (.tpm p m)) log

/-- After every operation the token counter of minute `m` is what is owed, and not negative. -/
def TokensExact (requests : ι → Request) (p : GoString) (m : ℤ) (log : List (Event ι)) : Prop :=
  ∀ a x b, log = a ++ x :: b → 0 ≤ x.post.counter x.env.redisNow (.tpm p m) ∧
    x.post.counter x.env.redisNow (.tpm p m) = tokensOwed requests p m (a ++ [x])

/-- Every estimate that counts is exact as a double, and every correction that takes effect is of a
request whose own increment did. -/
def CorrectsCounted (requests : ι → Request) (p : GoString) (m : ℤ) (log : List (Event ι)) : Prop :=
  ∀ n : Fin log.length,
    Faithful requests (.tpm p m) (log.get n) (history (log.get n).caller (log.take n))

instance (requests : ι → Request) (p : GoString) (m : ℤ) (log : List (Event ι)) :
    Decidable (CorrectsCounted requests p m log) := inferInstanceAs (Decidable (∀ _, _))

theorem correctsCounted_iff {requests : ι → Request} {p : GoString} {m : ℤ} {log : List (Event ι)} :
    CorrectsCounted requests p m log ↔
      ∀ a x b, log = a ++ x :: b → Faithful requests (.tpm p m) x (history x.caller a) :=
  forall_get_iff_split (P := fun a x => Faithful requests (.tpm p m) x (history x.caller a))

section
variable {l : Limiter} {requests : ι → Request} {p : GoString} {m : ℤ} {s₀ : Keys} {sched : List (ι × Env)}

/-- The token counter does not expire during the run. -/
def TokensLive (l : Limiter) (requests : ι → Request) (p : GoString) (m : ℤ) (s₀ : Keys)
    (sched : List (ι × Env)) : Prop :=
  ∀ x ∈ (world l requests s₀ sched).log, ∀ c ∈ x.pre (.tpm p m), c.alive x.env.redisNow = true

instance : Decidable (TokensLive l requests p m s₀ sched) := inferInstanceAs (Decidable (∀ x ∈ _, _))

section Step
variable {a b : List (Event ι)} {x : Event ι}

theorem TokensLive.countStep (hl : (world l requests s₀ sched).log = a ++ x :: b) :
    CountStep x (requests x.caller) (.tpm p m) (history x.caller a) := by
  have hx : x ∈ (world l requests s₀ sched).log := mem_of_split hl
  exact .of_tokens ((world_sound l requests s₀ sched).exec.valid hx) (requestOp_of_log hl)

theorem TokensLive.faithful_iff (hlive : TokensLive l requests p m s₀ sched)
    (htokens : NonnegTokens requests p) (hl : (world l requests s₀ sched).log = a ++ x :: b) :
    x.post.value (.tpm p m) - x.pre.value (.tpm p m) =
        ledgerChange requests (.tpm p m) x (history x.caller a) ↔
      Faithful requests (.tpm p m) x (history x.caller a) := by
  have hx : x ∈ (world l requests s₀ sched).log := mem_of_split hl
  refine ((TokensLive.countStep hl).ledgerStep (hlive x hx)).value_iff htokens ?_
  intro m' hm'
  exact (Key.tpm.inj hm').1.symm

theorem TokensLive.counter_post (hlive : TokensLive l requests p m s₀ sched)
    (hl : (world l requests s₀ sched).log = a ++ x :: b) :
    x.post.counter x.env.redisNow (.tpm p m) = x.post.value (.tpm p m) := by
  have hx : x ∈ (world l requests s₀ sched).log := mem_of_split hl
  exact Store.counter_eq_value ((TokensLive.countStep hl).alive_post (hlive x hx))

/-- What was exact after the operation before is exact now. -/
theorem TokensExact.pre (h : TokensExact requests p m (world l requests s₀ sched).log)
    (hlive : TokensLive l requests p m s₀ sched) (hs₀ : s₀ (.tpm p m) = none)
    (hl : (world l requests s₀ sched).log = a ++ x :: b) :
    x.pre.value (.tpm p m) = tokensOwed requests p m a := by
  have hexec := (world_sound l requests s₀ sched).exec
  rw [hl] at hexec
  have hpre := hexec.split.1
  rcases List.eq_nil_or_concat a with rfl | ⟨a', y, rfl⟩
  · rw [← hpre]
    unfold Store.value
    rw [hs₀]
    rfl
  · rw [List.concat_eq_append] at hl hpre ⊢
    rw [List.append_assoc, List.singleton_append] at hl
    obtain ⟨-, -, hpost⟩ := hpre.split
    rw [← hpost, ← hlive.counter_post hl]
    exact (h a' y (x :: b) hl).2

end Step

theorem TokensExact.correctsCounted (h : TokensExact requests p m (world l requests s₀ sched).log)
    (hlive : TokensLive l requests p m s₀ sched) (htokens : NonnegTokens requests p)
    (hs₀ : s₀ (.tpm p m) = none) : CorrectsCounted requests p m (world l requests s₀ sched).log := by
  rw [correctsCounted_iff]
  intro a x b hl
  apply (hlive.faithful_iff htokens hl).mp
  have hpre := h.pre hlive hs₀ hl
  have hpost := (h a x b hl).2
  rw [hlive.counter_post hl] at hpost
  unfold tokensOwed at hpre hpost
  rw [total_snoc (ledger_nil requests _)] at hpost
  unfold ledgerChange
  omega

theorem CorrectsCounted.tokensExact (h : CorrectsCounted requests p m (world l requests s₀ sched).log)
    (hlive : TokensLive l requests p m s₀ sched) (htokens : NonnegTokens requests p)
    (hs₀ : s₀ (.tpm p m) = none) : TokensExact requests p m (world l requests s₀ sched).log := by
  rw [correctsCounted_iff] at h
  intro a x b hl
  have hsum : x.post.value (.tpm p m) = tokensOwed requests p m (a ++ [x]) := by
    have hexec := (world_sound l requests s₀ sched).exec
    rw [hl] at hexec
    obtain ⟨hpre, hx, -⟩ := hexec.split
    have hchain : Exec handle s₀ (a ++ [x]) x.post := hpre.append ⟨rfl, hx, rfl⟩
    have hl' : (world l requests s₀ sched).log = (a ++ [x]) ++ b := by
      rw [hl, List.append_assoc, List.singleton_append]
    refine hchain.invariant_within (P := fun a s => s.value (.tpm p m) = tokensOwed requests p m a) hl' ?_ ?_
    · unfold Store.value
      rw [hs₀]
      rfl
    · intro a₁ y b₁ hl₁ _ hsum
      exact sum_snoc hsum ((hlive.faithful_iff htokens hl₁).mpr (h a₁ y _ hl₁))
  rw [hlive.counter_post hl, hsum]
  refine ⟨total_nonneg ?_, rfl⟩
  have hsub : a ++ [x] ⊆ (world l requests s₀ sched).log := by
    rw [hl]
    exact List.append_subset.mpr ⟨List.subset_append_left _ _, by simp⟩
  exact ledger_nonneg htokens hsub
    (List.mem_cons_of_mem _ List.mem_cons_self : Key.tpm p m ∈ minuteCounters p m)

end

/-- Whatever calls Redis fails, the token counter is exact in every state of a run if and only if no
request corrects what it has not added and every estimate that counts is exact as a double. -/
theorem tokensExact_iff_correctsCounted (l : Limiter) (requests : ι → Request) (p : GoString) (m : ℤ)
    (htokens : NonnegTokens requests p) (s₀ : Keys) (hs₀ : s₀ (.tpm p m) = none) (sched : List (ι × Env))
    (hlive : TokensLive l requests p m s₀ sched) :
    TokensExact requests p m (world l requests s₀ sched).log ↔
      CorrectsCounted requests p m (world l requests s₀ sched).log :=
  ⟨fun h => h.correctsCounted hlive htokens hs₀, fun h => h.tokensExact hlive htokens hs₀⟩

/-- Redis fails the acquisition of the first request and the correction of the second. -/
def tolerated : ℕ → Request := fun _ => ⟨sampleIdentity, ⟨10, 1000, 5⟩, 100, .track 10⟩

def toleratedSchedule : List (ℕ × Env) :=
  [(0, atSecond 7), (0, atSecond 7), (1, atSecond 7), (0, { atSecond 7 with fault := some [] }),
    (1, atSecond 7), (1, atSecond 7), (0, atSecond 8), (1, atSecond 8),
    (1, { atSecond 8 with fault := some [] })]

theorem tolerated_exact : CorrectsCounted tolerated (keyPrefix sampleIdentity) 0
      (world ⟨true⟩ tolerated (fun _ => none) toleratedSchedule).log ∧
    TokensExact tolerated (keyPrefix sampleIdentity) 0
      (world ⟨true⟩ tolerated (fun _ => none) toleratedSchedule).log :=
  ⟨by decide +kernel, (tokensExact_iff_correctsCounted ⟨true⟩ tolerated (keyPrefix sampleIdentity) 0
    (fun _ _ => by unfold tolerated; decide) (fun _ => none) rfl toleratedSchedule (by decide +kernel)).mpr
    (by decide +kernel)⟩

/-- Redis fails the check of a request, which is allowed and later corrected from 100 tokens to 10. -/
def uncounted : ℕ → Request := fun _ => ⟨sampleIdentity, ⟨10, 1000, 5⟩, 100, .track 10⟩

def uncountedSchedule : List (ℕ × Env) :=
  [(0, atSecond 7), (0, { atSecond 7 with fault := some [] }), (0, atSecond 8)]

theorem uncounted_not_exact :
    (world ⟨true⟩ uncounted (fun _ => none) uncountedSchedule).store.counter 8000
        (.tpm (keyPrefix sampleIdentity) 0) = -90 ∧
      ¬ TokensExact uncounted (keyPrefix sampleIdentity) 0
        (world ⟨true⟩ uncounted (fun _ => none) uncountedSchedule).log := by
  refine ⟨by decide +kernel, fun h => ?_⟩
  have hcounted := h.correctsCounted (by decide +kernel) (fun _ _ => by unfold uncounted; decide) rfl
  revert hcounted
  decide +kernel

end SynapseGo.RateLimit
