import Mathlib.Algebra.Order.Group.Unbundled.Int
import Mathlib.Data.Int.Notation
import Mathlib.Logic.Function.Basic
import SynapseGo.Go.Strings

/-! Redis keys that hold an owner's token for a time, with the three commands on them: set if absent,
and a script that deletes or extends a key only while it stores the given token. Each is one atomic
step; its reply may be lost after it was executed. Times are milliseconds. -/
namespace SynapseGo.Redis
open SynapseGo.Go

structure Lease where
  token : GoString
  expireAt : ℤ
  deriving DecidableEq, Repr

abbrev Leases := GoString → Option Lease

/-- The milliseconds that the client passes with `SET NX` for a positive duration. -/
def formatMs (d : Int64) : ℤ := if 0 < d ∧ d < 1000000 then 1 else (d / 1000000).toInt

namespace Leases
variable (now : ℤ) (key token : GoString) (ttl : ℤ) (s : Leases)

/-- What a command finds; an expired key is absent. -/
def live : Option Lease := (s key).filter fun c => now < c.expireAt

/-- `SET key token PX ttl NX`. -/
def setNX : Bool × Leases :=
  if (s.live now key).isSome then (false, s)
  else (true, Function.update s key (some ⟨token, now + ttl⟩))

/-- `if GET key == token then return DEL key else return 0`. -/
def compareDelete : ℤ × Leases :=
  if (s.live now key).map Lease.token = some token then (1, Function.update s key none) else (0, s)

/-- `if GET key == token then return PEXPIRE key ttl else return 0`, for a positive `ttl`. -/
def compareExpire : ℤ × Leases :=
  if (s.live now key).map Lease.token = some token then
    (1, Function.update s key (some ⟨token, now + ttl⟩))
  else (0, s)

variable {now key token ttl s}

theorem live_eq_some {c : Lease} : s.live now key = some c ↔ s key = some c ∧ now < c.expireAt := by
  unfold live
  rw [Option.filter_eq_some_iff, decide_eq_true_eq]

/-- `SET NX` succeeds exactly when the key is absent or expired. -/
theorem setNX_cases {r : Bool} {t : Leases} (h : s.setNX now key token ttl = (r, t)) :
    (r = false ∧ t = s ∧ ∃ c, s key = some c ∧ now < c.expireAt) ∨
      (r = true ∧ t = Function.update s key (some ⟨token, now + ttl⟩) ∧
        ∀ c, s key = some c → c.expireAt ≤ now) := by
  unfold setNX at h
  split_ifs at h with hlive
  · obtain ⟨rfl, rfl⟩ := Prod.mk.inj h
    obtain ⟨c, hc⟩ := Option.isSome_iff_exists.mp hlive
    exact .inl ⟨rfl, rfl, c, live_eq_some.mp hc⟩
  · obtain ⟨rfl, rfl⟩ := Prod.mk.inj h
    refine .inr ⟨rfl, rfl, ?_⟩
    intro c hc
    by_contra hlt
    have hsome : s.live now key = some c := live_eq_some.mpr ⟨hc, not_le.mp hlt⟩
    exact hlive (by rw [hsome]; rfl)

theorem holder_of_map (h : (s.live now key).map Lease.token = some token) :
    ∃ t, s key = some ⟨token, t⟩ ∧ now < t := by
  obtain ⟨c, hc, rfl⟩ := Option.map_eq_some_iff.mp h
  obtain ⟨hkey, hlt⟩ := live_eq_some.mp hc
  exact ⟨c.expireAt, hkey, hlt⟩

theorem compareDelete_cases {r : ℤ} {t : Leases} (h : s.compareDelete now key token = (r, t)) :
    (r = 0 ∧ t = s) ∨
      (r = 1 ∧ t = Function.update s key none ∧ ∃ e, s key = some ⟨token, e⟩ ∧ now < e) := by
  unfold compareDelete at h
  split_ifs at h with hmine
  · obtain ⟨rfl, rfl⟩ := Prod.mk.inj h
    exact .inr ⟨rfl, rfl, holder_of_map hmine⟩
  · obtain ⟨rfl, rfl⟩ := Prod.mk.inj h
    exact .inl ⟨rfl, rfl⟩

theorem compareExpire_cases {r : ℤ} {t : Leases} (h : s.compareExpire now key token ttl = (r, t)) :
    (r = 0 ∧ t = s) ∨ (r = 1 ∧ t = Function.update s key (some ⟨token, now + ttl⟩) ∧
      ∃ e, s key = some ⟨token, e⟩ ∧ now < e) := by
  unfold compareExpire at h
  split_ifs at h with hmine
  · obtain ⟨rfl, rfl⟩ := Prod.mk.inj h
    exact .inr ⟨rfl, rfl, holder_of_map hmine⟩
  · obtain ⟨rfl, rfl⟩ := Prod.mk.inj h
    exact .inl ⟨rfl, rfl⟩

end Leases

/-- A call that the client sees fail: Redis may have executed it all the same. -/
structure Fault where
  text : GoString
  executed : Bool

/-- What the client gets of a command whose result is `r`. -/
def answer {α σ : Type} (fault : Option Fault) (s : σ) (r : α × σ) : Except GoString α × σ :=
  match fault with
  | none => (.ok r.1, r.2)
  | some f => (.error f.text, if f.executed then r.2 else s)

/-- A command had no effect and failed, or it was executed and its reply is right or lost. -/
theorem answer_cases {α σ : Type} {fault : Option Fault} {s t : σ} {r : α × σ} {reply : Except GoString α}
    (h : answer fault s r = (reply, t)) :
    ((∃ text, reply = .error text) ∧ t = s) ∨ (t = r.2 ∧ ∀ a, reply = .ok a → a = r.1) := by
  unfold answer at h
  split at h
  · obtain ⟨rfl, rfl⟩ := Prod.mk.inj h
    refine .inr ⟨rfl, ?_⟩
    rintro a ha
    cases ha
    rfl
  · obtain ⟨rfl, rfl⟩ := Prod.mk.inj h
    split_ifs
    · exact .inr ⟨rfl, fun a ha => nomatch ha⟩
    · exact .inl ⟨⟨_, rfl⟩, rfl⟩

end SynapseGo.Redis
