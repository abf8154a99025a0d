import SynapseGo.Concurrency.Accounting
import SynapseGo.RateLimit.System

/-! The concurrency counter of one identity. Each acquisition renews the expiry of the key, so the
key outlives every slot that is held for less than its time to live. -/
namespace SynapseGo.RateLimit
open SynapseGo.Go SynapseGo.Concurrency SynapseGo.Redis Limiter

/-- A slot of `p` was acquired. -/
def acquires (p : GoString) : Act → Bool
  | ⟨.concurrencyAcquire key _ _, reply⟩ => key = .conc p && reply = .ok 1
  | _ => false

/-- A release of `p` took effect. -/
def releases (p : GoString) : Act → Bool
  | ⟨.concurrencyRelease key, .ok _⟩ => key = .conc p
  | _ => false

/-- Whether a request with this history holds a slot, as a number. -/
def heldSlots (p : GoString) (es : List Act) : ℤ :=
  if es.any (acquires p) && !es.any (releases p) then 1 else 0

variable {ι : Type}

theorem heldSlots_nonneg (p : GoString) (es : List Act) : 0 ≤ heldSlots p es := by
  unfold heldSlots
  split_ifs <;> decide

theorem heldSlots_skip {p : GoString} {y : Act} (ha : acquires p y = false) (hr : releases p y = false)
    (es : List Act) : heldSlots p (es ++ [y]) = heldSlots p es := by
  unfold heldSlots
  rw [List.any_append, List.any_append, List.any_cons, List.any_cons, ha, hr]
  simp only [List.any_nil, Bool.or_false]

/-- Everything an operation can do to the slots of `p`, by its caller's history. -/
inductive SlotStep (p : GoString) (C : ℤ) (x : Event ι) (es : List Act) : Prop
  | other (hpost : x.post (.conc p) = x.pre (.conc p)) (hacq : acquires p x.act = false)
    (hheld : heldSlots p (es ++ [x.act]) = heldSlots p es)
  | acquired (hbefore : heldSlots p es = 0) (hafter : heldSlots p (es ++ [x.act]) = 1)
    (hroom : roundDouble (x.pre.counter x.env.redisNow (.conc p)) < roundDouble C)
    (hpost : x.post (.conc p) = some ⟨x.pre.counter x.env.redisNow (.conc p) + 1,
      some (x.env.redisNow + keyTTL * 1000)⟩)
  | released (hacq : acquires p x.act = false) (hbefore : heldSlots p es = 1)
    (hafter : heldSlots p (es ++ [x.act]) = 0)
    (hpost : roundDouble (x.pre.counter x.env.redisNow (.conc p)) ≤ 0 ∨
      x.post (.conc p) = some ⟨x.pre.counter x.env.redisNow (.conc p) - 1,
        (x.pre.live x.env.redisNow (.conc p)).bind Cell.expireAt⟩)

theorem SlotStep.skip {p : GoString} {C : ℤ} {x : Event ι} {y : Act} (hy : x.act = y)
    (hpost : x.post (.conc p) = x.pre (.conc p)) (hacq : acquires p y = false)
    (hrel : releases p y = false) (es : List Act) : SlotStep p C x es := by
  subst hy
  exact .other hpost hacq (heldSlots_skip hacq hrel es)

theorem SlotStep.of_acquire {p : GoString} {C : ℤ} {x : Event ι} (hx : x.Valid handle) {r : Request}
    (hlimit : r.owner = p → r.limits.concurrency.toInt = C) {t : ℤ} {result : List ℤ}
    {reply : Except GoString ℤ} (hy : x.act = r.acquireAct reply) :
    SlotStep p C x [clockAct t, r.checkAct t (.ok result)] := by
  by_cases hp : r.owner = p
  · rw [← hlimit hp]
    subst hp
    rcases Event.acquire hx hy with ⟨text, rfl, hpost⟩ | ⟨rfl, hpost⟩ | ⟨rfl, hroom, hpost⟩
    · exact .skip hy (by rw [hpost]) (by simp [acquires]) rfl _
    · exact .skip hy (by rw [hpost]) (by simp [acquires]) rfl _
    · refine .acquired rfl ?_ hroom (by rw [hpost, Function.update_self])
      rw [hy]
      simp [heldSlots, acquires, releases]
  · have hne : Key.conc p ≠ Key.conc r.owner := fun h => hp (Key.conc.inj h).symm
    have hacq : acquires p (r.acquireAct reply) = false := by simp [acquires, hp]
    rcases Event.acquire hx hy with ⟨_, -, hpost⟩ | ⟨-, hpost⟩ | ⟨-, -, hpost⟩
    · exact .skip hy (by rw [hpost]) hacq rfl _
    · exact .skip hy (by rw [hpost]) hacq rfl _
    · exact .skip hy (by rw [hpost, Function.update_of_ne hne]) hacq rfl _

theorem SlotStep.of_release {p : GoString} {C : ℤ} {x : Event ι} (hx : x.Valid handle) {r : Request} {t : ℤ}
    {result : List ℤ} {reply : Except GoString ℤ} (hy : x.act = r.releaseAct reply) :
    SlotStep p C x [clockAct t, r.checkAct t (.ok result), r.acquireAct (.ok 1)] := by
  by_cases hp : r.owner = p
  · subst hp
    have hbefore : heldSlots r.owner [clockAct t, r.checkAct t (.ok result), r.acquireAct (.ok 1)] = 1 := by
      simp [heldSlots, acquires, releases]
    rcases Event.release hx hy with ⟨text, rfl, hpost⟩ | ⟨hzero, rfl, hpost⟩ | ⟨rfl, hpost⟩
    · exact .skip hy (by rw [hpost]) rfl rfl _
    · refine .released (by rw [hy]; rfl) hbefore ?_ (Or.inl hzero)
      rw [hy]
      simp [heldSlots, acquires, releases]
    · refine .released (by rw [hy]; rfl) hbefore ?_ (Or.inr (by rw [hpost, Function.update_self]))
      rw [hy]
      simp [heldSlots, acquires, releases]
  · have hne : Key.conc p ≠ Key.conc r.owner := fun h => hp (Key.conc.inj h).symm
    have hrel : releases p (r.releaseAct reply) = false := by
      cases reply with
      | error text => rfl
      | ok v => simp [releases, hp]
    rcases Event.release hx hy with ⟨_, -, hpost⟩ | ⟨-, -, hpost⟩ | ⟨-, hpost⟩
    · exact .skip hy (by rw [hpost]) rfl hrel _
    · exact .skip hy (by rw [hpost]) rfl hrel _
    · exact .skip hy (by rw [hpost, Function.update_of_ne hne]) rfl hrel _

/-- Commands on the token and request counters leave the slots alone. -/
theorem SlotStep.of_count {p : GoString} {C : ℤ} {x : Event ι} (hx : x.Valid handle) {key : Key} {d : ℤ}
    {reply : Except GoString ℤ} (hy : x.act = ⟨.decrBy key d, reply⟩ ∨ x.act = ⟨.incrBy key d, reply⟩)
    (hkey : Key.conc p ≠ key) (es : List Act) : SlotStep p C x es := by
  rcases hy with hy | hy
  · rcases Event.decrBy hx hy with ⟨_, -, hpost⟩ | ⟨-, hpost⟩
    · exact .skip hy (by rw [hpost]) rfl rfl es
    · exact .skip hy (by rw [hpost, Function.update_of_ne hkey]) rfl rfl es
  · rcases Event.incrBy hx hy with ⟨_, -, hpost⟩ | ⟨-, hpost⟩
    · exact .skip hy (by rw [hpost]) rfl rfl es
    · exact .skip hy (by rw [hpost, Function.update_of_ne hkey]) rfl rfl es

theorem SlotStep.of_op {p : GoString} {C : ℤ} {x : Event ι} (hx : x.Valid handle) {r : Request}
    (hlimit : r.owner = p → r.limits.concurrency.toInt = C) {es : List Act}
    (hop : RequestOp r es x.act) : SlotStep p C x es := by
  generalize hy : x.act = y at hop
  cases hop with
  | pre h =>
    cases h with
    | clock t => exact .skip hy (by rw [Event.now hx hy]) rfl rfl _
    | check t reply => exact .skip hy (Event.check_frame hx hy (by simp [Request.counters])) rfl rfl _
    | reset t h t' => exact .skip hy (by rw [Event.now hx hy]) rfl rfl _
    | acquire t h reply => exact .of_acquire hx hlimit hy
    | rollbackRPM t h reply => exact .of_count hx (Or.inl hy) (by simp) _
    | rollbackTPM t h rpm reply => exact .of_count hx (Or.inl hy) (by simp) _
  | release t h reply => exact .of_release hx hy
  | correctUncounted hfin hne t text reply => exact .of_count hx (Or.inr hy) (by simp) _
  | correctUnslotted hfin hne t h h₀ h₁ reply => exact .of_count hx (Or.inr hy) (by simp) _
  | correctSlotted hfin hne t h released reply => exact .of_count hx (Or.inr hy) (by simp) _

variable [DecidableEq ι]

/-- The number of slots acquired and not yet released. -/
def outstanding (p : GoString) (log : List (Event ι)) : ℤ := total (fun _ => heldSlots p) log

/-- When the slots that are not yet released were acquired. -/
def heldSince (p : GoString) : List (Event ι) → List ℤ
  | [] => []
  | x :: log =>
    if acquires p x.act && log.all fun y => !(y.caller = x.caller && releases p y.act) then
      x.env.redisNow :: heldSince p log
    else heldSince p log

/-- At time `now` no slot has been held for as long as the key lives. -/
def Young (p : GoString) (log : List (Event ι)) (now : ℤ) : Prop :=
  ∀ τ ∈ heldSince p log, now < τ + keyTTL * 1000

/-- No slot was ever held for as long as the key lives, at any step or now. -/
def HeldBriefly (p : GoString) (log : List (Event ι)) (now : ℤ) : Prop :=
  (∀ n : Fin log.length, Young p (log.take n) (log.get n).env.redisNow) ∧ Young p log now

instance (p : GoString) (log : List (Event ι)) (now : ℤ) : Decidable (Young p log now) :=
  inferInstanceAs (Decidable (∀ τ ∈ heldSince p log, _))

instance (p : GoString) (log : List (Event ι)) (now : ℤ) : Decidable (HeldBriefly p log now) :=
  inferInstanceAs (Decidable (_ ∧ _))

/-- The server's clock never goes back. -/
def ServerMonotone (log : List (Event ι)) : Prop :=
  log.Pairwise fun x y => x.env.redisNow ≤ y.env.redisNow

instance (log : List (Event ι)) : Decidable (ServerMonotone log) :=
  inferInstanceAs (Decidable (log.Pairwise _))

theorem heldSince_snoc {p : GoString} {log : List (Event ι)} {x : Event ι} {τ : ℤ}
    (h : τ ∈ heldSince p (log ++ [x])) :
    τ ∈ heldSince p log ∨ acquires p x.act = true ∧ τ = x.env.redisNow := by
  induction log with
  | nil =>
    simp only [List.nil_append, heldSince, List.all_nil, Bool.and_true] at h
    split_ifs at h with ha
    · exact Or.inr ⟨ha, List.mem_singleton.mp h⟩
    · cases h
  | cons y log ih =>
    simp only [List.cons_append, heldSince, List.all_append, Bool.and_eq_true] at h ⊢
    split_ifs at h with hy
    · rw [if_pos ⟨hy.1, hy.2.1⟩]
      rcases List.mem_cons.mp h with rfl | h
      · exact Or.inl List.mem_cons_self
      · rcases ih h with h | h
        · exact Or.inl (List.mem_cons_of_mem _ h)
        · exact Or.inr h
    · rcases ih h with h | h
      · left
        split_ifs
        · exact List.mem_cons_of_mem _ h
        · exact h
      · exact Or.inr h

theorem heldSince_snoc_of_not_acquires {p : GoString} {log : List (Event ι)} {x : Event ι} {τ : ℤ}
    (hx : acquires p x.act = false) (h : τ ∈ heldSince p (log ++ [x])) : τ ∈ heldSince p log := by
  rcases heldSince_snoc h with h | ⟨hacq, -⟩
  · exact h
  · rw [hx] at hacq
    cases hacq

theorem mem_of_heldSince {p : GoString} {log : List (Event ι)} {τ : ℤ} (h : τ ∈ heldSince p log) :
    ∃ x ∈ log, x.env.redisNow = τ := by
  induction log with
  | nil => cases h
  | cons y log ih =>
    have hrest : τ ∈ heldSince p log → ∃ x ∈ y :: log, x.env.redisNow = τ := by
      intro hτ
      obtain ⟨x, hx, hxτ⟩ := ih hτ
      exact ⟨x, List.mem_cons_of_mem _ hx, hxτ⟩
    unfold heldSince at h
    split_ifs at h
    · rcases List.mem_cons.mp h with rfl | h
      · exact ⟨y, List.mem_cons_self, rfl⟩
      · exact hrest h
    · exact hrest h

/-- Every slot that counts was acquired at some time. -/
theorem exists_heldSince {p : GoString} {log : List (Event ι)} (h : outstanding p log ≠ 0) :
    ∃ τ, τ ∈ heldSince p log := by
  unfold outstanding total at h
  obtain ⟨i, -, hi⟩ := Finset.exists_ne_zero_of_sum_ne_zero h
  clear h
  induction log with
  | nil => simp [heldSlots] at hi
  | cons x log ih =>
    have hrest : heldSlots p (history i log) ≠ 0 → ∃ τ, τ ∈ heldSince p (x :: log) := by
      intro hne
      obtain ⟨τ, hτ⟩ := ih hne
      refine ⟨τ, ?_⟩
      unfold heldSince
      split_ifs
      · exact List.mem_cons_of_mem _ hτ
      · exact hτ
    by_cases hx : x.caller = i
    · subst hx
      rw [history_cons_self] at hi
      by_cases hold : (history x.caller log).any (acquires p) = true
      · apply hrest
        intro hzero
        simp_all [heldSlots]
      · have hnow : acquires p x.act = true ∧ (history x.caller log).any (releases p) = false := by
          simp_all [heldSlots]
        refine ⟨x.env.redisNow, ?_⟩
        unfold heldSince
        rw [if_pos]
        · exact List.mem_cons_self
        · rw [Bool.and_eq_true, List.all_eq_true]
          refine ⟨hnow.1, fun y hy => ?_⟩
          by_cases hc : y.caller = x.caller
          · have hmem : y.act ∈ history x.caller log := mem_history.mpr ⟨y, hy, hc, rfl⟩
            have := List.any_eq_false.mp hnow.2 y.act hmem
            simp [this]
          · simp [hc]
    · rw [history_cons_of_ne hx] at hi
      exact hrest hi

/-- The key counts the slots and expires after all of them are due. -/
structure SlotInv (p : GoString) (C : ℤ) (log : List (Event ι)) (s : Keys) : Prop where
  le : outstanding p log ≤ C
  cell : s (.conc p) = none ∧ outstanding p log = 0 ∨
    ∃ e, s (.conc p) = some ⟨outstanding p log, some e⟩ ∧ ∀ τ ∈ heldSince p log, τ + keyTTL * 1000 ≤ e

section
variable {p : GoString} {C : ℤ} {log : List (Event ι)} {s : Keys}

/-- While a slot is held the key is alive. -/
theorem SlotInv.live (h : SlotInv p C log s) {now : ℤ} (hy : Young p log now)
    (hne : outstanding p log ≠ 0) :
    ∃ e, s.live now (.conc p) = some ⟨outstanding p log, some e⟩ ∧
      ∀ τ ∈ heldSince p log, τ + keyTTL * 1000 ≤ e := by
  rcases h.cell with ⟨-, hzero⟩ | ⟨e, hcell, he⟩
  · exact absurd hzero hne
  · obtain ⟨τ, hτ⟩ := exists_heldSince hne
    have halive : now < e := lt_of_lt_of_le (hy τ hτ) (he τ hτ)
    exact ⟨e, Store.live_of_alive hcell (by simpa [Cell.alive] using halive), he⟩

theorem SlotInv.counter (h : SlotInv p C log s) {now : ℤ} (hy : Young p log now) :
    s.counter now (.conc p) = outstanding p log := by
  by_cases hzero : outstanding p log = 0
  · rw [hzero]
    rcases h.cell with ⟨hcell, -⟩ | ⟨e, hcell, -⟩
    · unfold Store.counter
      rw [Store.live_of_eq_none hcell]
      rfl
    · rw [hzero] at hcell
      unfold Store.counter Store.live
      rw [hcell, Option.filter_some]
      split_ifs <;> rfl
  · obtain ⟨e, hlive, -⟩ := h.live hy hzero
    unfold Store.counter
    rw [hlive]
    rfl

theorem outstanding_snoc (x : Event ι) : outstanding p (log ++ [x]) = outstanding p log +
    (heldSlots p (history x.caller log ++ [x.act]) - heldSlots p (history x.caller log)) :=
  total_snoc (fun _ => rfl) x

theorem SlotInv.init (hC : 0 ≤ C) (hs : s (.conc p) = none) : SlotInv p C ([] : List (Event ι)) s :=
  ⟨hC, Or.inl ⟨hs, rfl⟩⟩

theorem SlotInv.step {x : Event ι} (h : SlotInv p C log x.pre) (hy : Young p log x.env.redisNow)
    (hmono : ∀ y ∈ log, y.env.redisNow ≤ x.env.redisNow)
    (hstep : SlotStep p C x (history x.caller log)) : SlotInv p C (log ++ [x]) x.post := by
  have hcounter := h.counter hy
  have hsnoc : outstanding p (log ++ [x]) = _ := outstanding_snoc x
  cases hstep with
  | other hpost hacq hheld =>
    rw [hheld, sub_self, add_zero] at hsnoc
    refine ⟨by rw [hsnoc]; exact h.le, ?_⟩
    rw [hsnoc, hpost]
    rcases h.cell with hnone | ⟨e, hcell, he⟩
    · exact Or.inl hnone
    · exact Or.inr ⟨e, hcell, fun τ hτ => he τ (heldSince_snoc_of_not_acquires hacq hτ)⟩
  | acquired hbefore hafter hroom hpost =>
    rw [hbefore, hafter] at hsnoc
    rw [hcounter] at hroom hpost
    have hne : outstanding p log ≠ C := by
      intro heq
      rw [heq] at hroom
      exact lt_irrefl _ hroom
    have hle := h.le
    refine ⟨by omega, Or.inr ⟨x.env.redisNow + keyTTL * 1000, ?_, fun τ hτ => ?_⟩⟩
    · rw [hpost, hsnoc]
      rfl
    · have hτx : τ ≤ x.env.redisNow := by
        rcases heldSince_snoc hτ with hτ | ⟨-, rfl⟩
        · obtain ⟨y, hmem, rfl⟩ := mem_of_heldSince hτ
          exact hmono y hmem
        · exact le_rfl
      omega
  | released hacq hbefore hafter hpost =>
    rw [hbefore, hafter] at hsnoc
    have hone : heldSlots p (history x.caller log) ≤ outstanding p log :=
      le_total (fun _ => rfl) (fun _ => heldSlots_nonneg p _) x.caller
    rw [hbefore] at hone
    obtain ⟨e, hlive, he⟩ := h.live hy (by omega)
    have hle := h.le
    refine ⟨by omega, Or.inr ⟨e, ?_, fun τ hτ => ?_⟩⟩
    · rcases hpost with hzero | hpost
      · rw [hcounter] at hzero
        exact absurd (roundDouble_pos (show 0 < outstanding p log by omega)) (not_lt.mpr hzero)
      · rw [hpost, hcounter, hlive, hsnoc]
        rfl
    · exact he τ (heldSince_snoc_of_not_acquires hacq hτ)

end

theorem HeldBriefly.young {p : GoString} {log a b : List (Event ι)} {x : Event ι} {now : ℤ}
    (h : HeldBriefly p log now) (hl : log = a ++ x :: b) : Young p a x.env.redisNow :=
  (forall_get_iff_split (P := fun a x => Young p a x.env.redisNow)).mp h.1 a x b hl

/-- Two requests compete for one slot, and a third gets it after the release. -/
def contended : Config ℕ Command Reply Env Keys CheckResult :=
  world ⟨true⟩ (fun _ => ⟨sampleIdentity, ⟨10, 1000, 1⟩, 100, .release⟩) (fun _ => none)
    (([0, 1, 0, 1, 0, 1, 1, 1, 0, 2, 2, 2] : List ℕ).map fun i => (i, atSecond 7))

end SynapseGo.RateLimit
