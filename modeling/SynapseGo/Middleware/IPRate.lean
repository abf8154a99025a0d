import Mathlib.Data.List.Chain
import SynapseGo.Concurrency.Serial
import SynapseGo.Middleware.Auth

/-! `IPRateLimit` over the requests of one address. Every request, refused or not, is counted and moves
the expiry of the counter: the counter is the number of the last requests that are each less than a
minute after the one before. -/
namespace SynapseGo.Middleware.IPRate
open SynapseGo.Go SynapseGo.Concurrency SynapseGo.Redis

/-- A minute, in milliseconds. -/
def minute : ℤ := 60000

abbrev Responses : GoString → Type := fun _ => Response

/-- A whole request, at one time. -/
def request (rpm : ℤ) : Handler GoString Responses Env (Store GoString) := fun env ip s =>
  (ipRateLimit true rpm ip).run (handle env) s

abbrev Event := Entry Unit GoString Responses Env (Store GoString)

/-- The log of the requests of one address. -/
def run (rpm : ℤ) (ip : GoString) (s : Store GoString) (envs : List Env) : List Event :=
  serial (request rpm) s (envs.map fun env => (env, ip))

section Request
variable {rpm : ℤ} {env : Env} {ip : GoString} {s : Store GoString}

/-- What a request does when its commands succeed. -/
theorem request_eq (hf : env.fault = none) (hlo : 0 ≤ s.counter env.now (ipKey ip))
    (hhi : s.counter env.now (ipKey ip) + 1 < 2 ^ 63) :
    request rpm env ip s =
      (if s.counter env.now (ipKey ip) + 1 > rpm then .aborted 429 4029 (lit "rate limit exceeded")
        else .served env.status,
        Function.update s (ipKey ip)
          (some ⟨s.counter env.now (ipKey ip) + 1, some (env.now + minute)⟩)) := by
  have hincr : handle env (.incr (ipKey ip)) s = (.ok (s.counter env.now (ipKey ip) + 1),
      Function.update s (ipKey ip) (some ⟨s.counter env.now (ipKey ip) + 1,
        (s.live env.now (ipKey ip)).bind Cell.expireAt⟩)) := by
    rw [handle_incr hf]
    exact if_pos ⟨by omega, hhi⟩
  have hexpire : handle env (.expire (ipKey ip) 60) (Function.update s (ipKey ip)
      (some ⟨s.counter env.now (ipKey ip) + 1, (s.live env.now (ipKey ip)).bind Cell.expireAt⟩)) =
      (.ok 1, Function.update s (ipKey ip)
        (some ⟨s.counter env.now (ipKey ip) + 1, some (env.now + 60 * 1000)⟩)) := by
    rw [handle_expire hf]
    exact expire_incremented (by decide) s (ipKey ip) _
  unfold request ipRateLimit
  rw [if_neg (by decide), Prog.perform_bind, Prog.run_op, hincr, Prog.perform_bind, Prog.run_op, hexpire]
  unfold count minute
  dsimp only
  split_ifs <;> rfl

end Request

/-- The request `y` comes less than a minute after `x`. -/
def Near (x y : Event) : Prop := y.env.now < x.env.now + minute

/-- The last `n` requests of `log` and then `x`, each less than a minute after the one before. -/
def Streak (log : List Event) (x : Event) (n : ℕ) : Prop :=
  ∃ a m, log = a ++ m ∧ m.length = n ∧ (m ++ [x]).IsChain Near

/-- A refused request comes after at least `rpm` requests in the minute before it. -/
def RefusesExcess (rpm : ℤ) (log : List Event) : Prop :=
  ∀ a x b, log = a ++ x :: b → x.act.2.Refused →
    rpm ≤ a.countP fun y => x.env.now - minute < y.env.now ∧ y.env.now ≤ x.env.now

instance (rpm : ℤ) (log : List Event) : Decidable (RefusesExcess rpm log) :=
  decidable_of_iff _ (forall_get_iff_split (P := fun (a : List Event) (x : Event) => x.act.2.Refused →
    rpm ≤ a.countP fun y => x.env.now - minute < y.env.now ∧ y.env.now ≤ x.env.now))

/-- Requests that are each less than a minute after the one before, `rpm + 1` of them, all lie within a
minute. -/
def Paced (rpm : ℤ) (log : List Event) : Prop :=
  ∀ a m x b, log = a ++ (m ++ x :: b) → m.length = rpm → (m ++ [x]).IsChain Near → ∀ y ∈ m, Near y x

/-- A log of the requests of one address, with an absent counter at first and all commands succeeding. -/
structure Regular (rpm : ℤ) (ip : GoString) (log : List Event) : Prop where
  exec : ∃ s t, s (ipKey ip) = none ∧ Exec (request rpm) s log t
  ip_eq : ∀ x ∈ log, x.act.1 = ip
  clock : log.Pairwise fun x y => x.env.now ≤ y.env.now
  faultless : ∀ x ∈ log, x.env.fault = none
  counts : ∀ x ∈ log, x.pre.counter x.env.now (ipKey ip) + 1 < 2 ^ 63

section Streaks
variable {log a b m : List Event} {x z : Event} {n : ℕ}

theorem streak_zero : Streak log x 0 := ⟨log, [], (List.append_nil log).symm, rfl, .singleton x⟩

/-- A streak goes on exactly when its last request is near. -/
theorem streak_succ : Streak (log ++ [z]) x (n + 1) ↔ Near z x ∧ Streak log z n := by
  constructor
  · rintro ⟨a, m, hlog, hlen, hchain⟩
    obtain rfl | ⟨m, z', rfl⟩ := List.eq_nil_or_concat m
    · cases hlen
    · rw [List.concat_eq_append] at hlog hlen hchain
      rw [← List.append_assoc] at hlog
      obtain ⟨rfl, hz⟩ := List.append_inj' hlog rfl
      cases hz
      rw [List.append_assoc, List.singleton_append, List.isChain_append_cons_cons] at hchain
      refine ⟨hchain.2.1, a, m, rfl, ?_, hchain.1⟩
      rw [List.length_append, List.length_singleton] at hlen
      omega
  · rintro ⟨hnear, a, m, rfl, rfl, hchain⟩
    refine ⟨a, m ++ [z], List.append_assoc a m [z], ?_, ?_⟩
    · rw [List.length_append, List.length_singleton]
    · rw [List.append_assoc, List.singleton_append, List.isChain_append_cons_cons]
      exact ⟨hchain, hnear, .singleton x⟩

theorem not_streak_nil : ¬ Streak [] x (n + 1) := by
  rintro ⟨a, m, hlog, hlen, -⟩
  rw [(List.append_eq_nil_iff.mp hlog.symm).2] at hlen
  cases hlen

end Streaks

/-- The counter of the address after `log`. -/
def CounterInv (ip : GoString) (log : List Event) (s : Store GoString) : Prop :=
  (log = [] ∧ s (ipKey ip) = none) ∨
    ∃ a z c, log = a ++ [z] ∧ s (ipKey ip) = some ⟨c, some (z.env.now + minute)⟩ ∧
      ∀ n : ℕ, (n : ℤ) + 1 ≤ c ↔ Streak a z n

/-- What the next request finds is the length of its streak. -/
theorem CounterInv.le_counter_iff {ip : GoString} {log : List Event} {x : Event}
    (h : CounterInv ip log x.pre) (n : ℕ) :
    (n : ℤ) ≤ x.pre.counter x.env.now (ipKey ip) ↔ Streak log x n := by
  unfold Store.counter Store.live
  rcases h with ⟨rfl, hcell⟩ | ⟨a, z, c, rfl, hcell, hc⟩
  · rw [hcell]
    cases n with
    | zero => exact iff_of_true le_rfl streak_zero
    | succ n =>
      refine iff_of_false ?_ not_streak_nil
      simp only [Option.filter_none, Option.map_none, Option.getD_none]
      omega
  · have hone := (hc 0).mpr streak_zero
    rw [hcell, Option.filter_some]
    by_cases hnear : Near z x
    · rw [if_pos (by simpa [Cell.alive, Near] using hnear)]
      cases n with
      | zero =>
        refine iff_of_true ?_ streak_zero
        simp only [Option.map_some, Option.getD_some]
        omega
      | succ n =>
        rw [streak_succ, ← hc n]
        simp only [Option.map_some, Option.getD_some, hnear, true_and]
        omega
    · rw [if_neg (by simpa [Cell.alive, Near] using hnear)]
      cases n with
      | zero => exact iff_of_true le_rfl streak_zero
      | succ n =>
        refine iff_of_false ?_ fun h => hnear (streak_succ.mp h).1
        simp only [Option.map_none, Option.getD_none]
        omega

section Log
variable {rpm : ℤ} {ip : GoString} {log a b : List Event} {x : Event}

theorem Regular.step (hr : Regular rpm ip log) (hl : log = a ++ x :: b) (hx : x.Valid (request rpm))
    (h : CounterInv ip a x.pre) :
    (x.act.2.Refused ↔ rpm ≤ x.pre.counter x.env.now (ipKey ip)) ∧ CounterInv ip (a ++ [x]) x.post := by
  have hmem : x ∈ log := mem_of_split hl
  have hlo : 0 ≤ x.pre.counter x.env.now (ipKey ip) := (h.le_counter_iff 0).mpr streak_zero
  have hrun : request rpm x.env ip x.pre = (x.act.2, x.post) := by
    rw [← hr.ip_eq x hmem]
    exact hx
  rw [request_eq (hr.faultless x hmem) hlo (hr.counts x hmem)] at hrun
  obtain ⟨hreply, hpost⟩ := Prod.mk.inj hrun
  constructor
  · rw [← hreply]
    split_ifs with hmore
    · exact iff_of_true trivial (by omega)
    · exact iff_of_false id (by omega)
  · refine .inr ⟨a, x, _, rfl, by rw [← hpost, Function.update_self], ?_⟩
    intro n
    rw [← h.le_counter_iff n]
    omega

theorem Regular.counterInv (hr : Regular rpm ip log) (hl : log = a ++ x :: b) : CounterInv ip a x.pre := by
  obtain ⟨s, t, hs, hexec⟩ := hr.exec
  rw [hl] at hexec
  apply hexec.split.1.invariant_within (P := CounterInv ip) hl (.inl ⟨rfl, hs⟩)
  intro a' y b' hlog hy ih
  exact (hr.step hlog hy ih).2

/-- A request is refused exactly when the last `rpm` requests and it form a streak. -/
theorem Regular.refused_iff (hr : Regular rpm ip log) (hl : log = a ++ x :: b) {n : ℕ} (hn : n = rpm) :
    x.act.2.Refused ↔ Streak a x n := by
  obtain ⟨s, t, -, hexec⟩ := hr.exec
  rw [hl] at hexec
  have hinv := hr.counterInv hl
  rw [(hr.step hl hexec.split.2.1 hinv).1, ← hinv.le_counter_iff n, hn]

theorem Regular.le (hr : Regular rpm ip log) (hl : log = a ++ x :: b) : ∀ y ∈ a, y.env.now ≤ x.env.now := by
  have hclock := hr.clock
  rw [hl] at hclock
  intro y hy
  exact (List.pairwise_append.mp hclock).2.2 y hy x List.mem_cons_self

theorem Regular.paced (hr : Regular rpm ip log) (h : RefusesExcess rpm log) :
    Paced rpm log := by
  intro a m x b hl hlen hchain y hy
  rw [← List.append_assoc] at hl
  have hrefused : x.act.2.Refused := (hr.refused_iff hl hlen).mpr ⟨a, m, rfl, rfl, hchain⟩
  have hmany := h (a ++ m) x b hl hrefused
  by_contra hfar
  -- The requests up to `y` are too old, and fewer than `rpm` come after it.
  obtain ⟨m₁, m₂, rfl⟩ := List.append_of_mem hy
  unfold Near at hfar
  have hold : (a ++ m₁ ++ [y]).countP
      (fun z => x.env.now - minute < z.env.now ∧ z.env.now ≤ x.env.now) = 0 := by
    rw [List.countP_eq_zero]
    intro z hz
    have hzy : z.env.now ≤ y.env.now := by
      rcases List.mem_append.mp hz with hz | hz
      · exact hr.le (b := m₂ ++ x :: b) (by rw [hl]; simp) z hz
      · rw [List.mem_singleton.mp hz]
    simp only [decide_eq_true_eq]
    omega
  have hfew := List.countP_le_length (p := fun z : Event =>
    decide (x.env.now - minute < z.env.now ∧ z.env.now ≤ x.env.now)) (l := m₂)
  have hsplit : a ++ (m₁ ++ y :: m₂) = (a ++ m₁ ++ [y]) ++ m₂ := by simp
  rw [hsplit, List.countP_append, hold] at hmany
  rw [List.length_append, List.length_cons] at hlen
  omega

theorem Regular.refusesExcess (hr : Regular rpm ip log) (hrpm : 0 ≤ rpm) (h : Paced rpm log) :
    RefusesExcess rpm log := by
  intro a x b hl hrefused
  obtain ⟨n, rfl⟩ := Int.eq_ofNat_of_zero_le hrpm
  obtain ⟨a, m, rfl, rfl, hchain⟩ := (hr.refused_iff hl rfl).mp hrefused
  have hall : m.countP (fun y => x.env.now - minute < y.env.now ∧ y.env.now ≤ x.env.now) = m.length := by
    rw [List.countP_eq_length]
    intro y hy
    have hnear := h a m x b (by rw [hl, List.append_assoc]) rfl hchain y hy
    have hle := hr.le hl y (List.mem_append_right a hy)
    unfold Near at hnear
    simp only [decide_eq_true_eq]
    omega
  rw [List.countP_append, hall]
  omega

end Log

/-- With all commands succeeding and times that do not go back, the limiter refuses only a client that
made `rpm` requests in the minute before exactly when the requests are paced. -/
theorem refusesExcess_iff_paced (rpm : ℤ) (hrpm : 1 ≤ rpm) (ip : GoString) (s : Store GoString)
    (hs : s (ipKey ip) = none) (envs : List Env) (hclock : envs.Pairwise fun e e' => e.now ≤ e'.now)
    (hfault : ∀ e ∈ envs, e.fault = none)
    (hcounts : ∀ x ∈ run rpm ip s envs, x.pre.counter x.env.now (ipKey ip) + 1 < 2 ^ 63) :
    RefusesExcess rpm (run rpm ip s envs) ↔ Paced rpm (run rpm ip s envs) := by
  have hr : Regular rpm ip (run rpm ip s envs) := by
    constructor
    · exact ⟨s, _, hs, exec_serial _ _ _⟩
    · apply forall_serial (P := fun m : Env × GoString => m.2 = ip)
      intro m hm
      obtain ⟨e, -, rfl⟩ := List.mem_map.mp hm
      rfl
    · have htimes : (envs.map fun env => (env, ip)).Pairwise fun m m' => m.1.now ≤ m'.1.now :=
        List.pairwise_map.mpr hclock
      exact pairwise_serial htimes
    · apply forall_serial (P := fun m : Env × GoString => m.1.fault = none)
      intro m hm
      obtain ⟨e, he, rfl⟩ := List.mem_map.mp hm
      exact hfault e he
    · exact hcounts
  constructor
  · exact hr.paced
  · exact hr.refusesExcess (by omega)

/-- Requests at the given times, of a handler that answers 200. -/
def requestsAt (times : List ℤ) : List Env := times.map fun now => ⟨now, none, 200⟩

/-- Three requests in 20 seconds, with two allowed per minute. -/
theorem burst_refusesExcess :
    RefusesExcess 2 (run 2 (lit "192.0.2.1") (fun _ => none) (requestsAt [0, 10000, 20000])) ∧
      Paced 2 (run 2 (lit "192.0.2.1") (fun _ => none) (requestsAt [0, 10000, 20000])) := by
  have hexcess :
    RefusesExcess 2 (run 2 (lit "192.0.2.1") (fun _ => none) (requestsAt [0, 10000, 20000])) := by
    decide +kernel
  refine ⟨hexcess, (refusesExcess_iff_paced 2 (by decide) _ _ rfl _ ?_ ?_ ?_).mp hexcess⟩
  · decide +kernel
  · decide +kernel
  · decide +kernel

/-- A request every 40 seconds, with two allowed per minute: the third is refused. -/
theorem trickle_not_refusesExcess :
    ¬ RefusesExcess 2 (run 2 (lit "192.0.2.1") (fun _ => none) (requestsAt [0, 40000, 80000])) := by
  decide +kernel

end SynapseGo.Middleware.IPRate
