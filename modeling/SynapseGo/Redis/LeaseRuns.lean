import SynapseGo.Concurrency.Interleaving
import SynapseGo.Redis.Lease

/-! Runs over keys that hold leases. Whatever else the calls of a run do, a lease leaves its key only with
time or by a delete in its own token's name, and what a key stores was put there by a `SET NX`. -/
namespace SynapseGo.Redis
open SynapseGo.Go SynapseGo.Concurrency

/-- An operation as the keys see it; a reply that the client lost is `none`. -/
inductive LeaseAct where
  | other
  | setNX (key token : GoString) (ttl : ℤ) (granted : Option Bool)
  | delete (key token : GoString) (deleted : Option Bool)

/-- What an operation at `now` does to the keys. -/
inductive LeaseStep (now : ℤ) (s t : Leases) : LeaseAct → Prop
  | other (ht : t = s) : LeaseStep now s t .other
  | refused {key token : GoString} {ttl : ℤ} {granted : Option Bool} (hgranted : granted ≠ some true)
    (hheld : granted = some false → ∃ c, s key = some c ∧ now < c.expireAt) (ht : t = s) :
    LeaseStep now s t (.setNX key token ttl granted)
  | set {key token : GoString} {ttl : ℤ} {granted : Option Bool} (hgranted : granted ≠ some false)
    (hfree : ∀ c, s key = some c → c.expireAt ≤ now)
    (ht : t = Function.update s key (some ⟨token, now + ttl⟩)) :
    LeaseStep now s t (.setNX key token ttl granted)
  | kept {key token : GoString} {deleted : Option Bool} (hdeleted : deleted ≠ some true)
    (hlost : deleted = some false → ∀ e, s key = some ⟨token, e⟩ → e ≤ now) (ht : t = s) :
    LeaseStep now s t (.delete key token deleted)
  | deleted {key token : GoString} {deleted : Option Bool} {e : ℤ} (hdeleted : deleted ≠ some false)
    (hmine : s key = some ⟨token, e⟩) (ht : t = Function.update s key none) :
    LeaseStep now s t (.delete key token deleted)

section Commands
variable {now ttl : ℤ} {key token : GoString} {s t : Leases} {fault : Option Fault}

theorem LeaseStep.of_setNX {reply : Except GoString Bool}
    (h : answer fault s (s.setNX now key token ttl) = (reply, t)) :
    LeaseStep now s t (.setNX key token ttl reply.toOption) := by
  generalize hr : s.setNX now key token ttl = r at h
  rcases answer_cases h with ⟨⟨text, rfl⟩, ht⟩ | ⟨ht, hreply⟩
  · exact .refused nofun nofun ht
  rcases Leases.setNX_cases hr with ⟨hfalse, hsame, hheld⟩ | ⟨htrue, hset, hfree⟩
  · refine .refused ?_ (fun _ => hheld) (ht.trans hsame)
    cases reply with
    | error text => nofun
    | ok granted =>
      rw [hreply granted rfl, hfalse]
      nofun
  · refine .set ?_ hfree (ht.trans hset)
    cases reply with
    | error text => nofun
    | ok granted =>
      rw [hreply granted rfl, htrue]
      nofun

/-- A script that finds its token deletes the key and says 1. -/
theorem LeaseStep.of_compareDelete {reply : Except GoString ℤ}
    (h : answer fault s (s.compareDelete now key token) = (reply, t)) :
    LeaseStep now s t (.delete key token (reply.toOption.map fun n => n = 1)) := by
  generalize hr : s.compareDelete now key token = r at h
  rcases answer_cases h with ⟨⟨text, rfl⟩, ht⟩ | ⟨ht, hreply⟩
  · exact .kept nofun nofun ht
  have hfound : r.1 = 0 → ∀ e, s key = some ⟨token, e⟩ → e ≤ now := by
    intro hzero e he
    by_contra hlt
    have hlive : s.live now key = some ⟨token, e⟩ := Leases.live_eq_some.mpr ⟨he, not_le.mp hlt⟩
    unfold Leases.compareDelete at hr
    rw [hlive, Option.map_some, if_pos rfl] at hr
    rw [← hr] at hzero
    cases hzero
  rcases Leases.compareDelete_cases hr with ⟨hzero, hsame⟩ | ⟨hone, hdelete, e, hmine, -⟩
  · refine .kept ?_ (fun _ => hfound hzero) (ht.trans hsame)
    cases reply with
    | error text => nofun
    | ok n =>
      rw [hreply n rfl, hzero]
      decide
  · refine .deleted ?_ hmine (ht.trans hdelete)
    cases reply with
    | error text => nofun
    | ok n =>
      rw [hreply n rfl, hone]
      decide

/-- A lease that has time left stays, unless its own token deletes it. -/
theorem LeaseStep.held {act : LeaseAct} {e : ℤ} (h : LeaseStep now s t act)
    (hs : s key = some ⟨token, e⟩) (hnow : now < e) (hact : ∀ r, act ≠ .delete key token r) :
    t key = some ⟨token, e⟩ := by
  cases h with
  | other ht => rw [ht, hs]
  | refused hgranted hheld ht => rw [ht, hs]
  | @set key' token' _ _ _ hfree ht =>
    have hne : key ≠ key' := by
      rintro rfl
      have hle : e ≤ now := hfree _ hs
      omega
    rw [ht, Function.update_of_ne hne, hs]
  | kept hdeleted hlost ht => rw [ht, hs]
  | @deleted key' token' r e' _ hmine ht =>
    have hne : key ≠ key' := by
      rintro rfl
      rw [hs] at hmine
      cases hmine
      exact hact r rfl
    rw [ht, Function.update_of_ne hne, hs]

/-- A lease that was not there was set, by an operation that was not refused. -/
theorem LeaseStep.appears {act : LeaseAct} {e : ℤ} (h : LeaseStep now s t act)
    (ht : t key = some ⟨token, e⟩) (hs : s key ≠ some ⟨token, e⟩) :
    ∃ ttl granted, act = .setNX key token ttl granted ∧ granted ≠ some false ∧ e = now + ttl := by
  cases h with
  | other hts => exact absurd (hts ▸ ht) hs
  | refused hgranted hheld hts => exact absurd (hts ▸ ht) hs
  | @set key' token' ttl granted hgranted hfree hts =>
    by_cases hkey : key = key'
    · subst hkey
      rw [hts, Function.update_self] at ht
      cases ht
      exact ⟨ttl, granted, rfl, hgranted, rfl⟩
    · rw [hts, Function.update_of_ne hkey] at ht
      exact absurd ht hs
  | kept hdeleted hlost hts => exact absurd (hts ▸ ht) hs
  | @deleted key' token' r e' hdeleted hmine hts =>
    by_cases hkey : key = key'
    · subst hkey
      rw [hts, Function.update_self] at ht
      cases ht
    · rw [hts, Function.update_of_ne hkey] at ht
      exact absurd ht hs

end Commands

/-- How the keys see the operations of a handler. -/
structure LeaseView {E : Type} {R : E → Type} {Env : Type} (h : Handler E R Env Leases) where
  clock : Env → ℤ
  act : (Σ e, R e) → LeaseAct
  step : ∀ {ι : Type} (x : Entry ι E R Env Leases), x.Valid h →
    LeaseStep (clock x.env) x.pre x.post (act x.act)

namespace LeaseView
variable {ι E : Type} {R : E → Type} {Env : Type} {h : Handler E R Env Leases} (v : LeaseView h)
  {s t : Leases} {a l : List (Entry ι E R Env Leases)} {x : Entry ι E R Env Leases} {key token : GoString}
    {ttl e : ℤ}

/-- A chain of operations within the time of a lease, none of which deletes it, leaves it in place. -/
theorem held (hl : Exec h s l t) (hs : s key = some ⟨token, e⟩) (htime : ∀ x ∈ l, v.clock x.env < e)
    (hact : ∀ x ∈ l, ∀ r, v.act x.act ≠ .delete key token r) : t key = some ⟨token, e⟩ := by
  apply hl.invariant _ hs
  intro x hx hvalid hpre
  exact (v.step x hvalid).held hpre (htime x hx) (hact x hx)

/-- A granted `SET NX` has found the key free and stores its own lease. -/
theorem granted (hx : x.Valid h) (hact : v.act x.act = .setNX key token ttl (some true)) :
    x.post key = some ⟨token, v.clock x.env + ttl⟩ ∧ ∀ c, x.pre key = some c →
    c.expireAt ≤ v.clock x.env := by
  have hstep := v.step x hx
  rw [hact] at hstep
  cases hstep with
  | refused hgranted => exact absurd rfl hgranted
  | set hgranted hfree ht =>
    rw [ht, Function.update_self]
    exact ⟨rfl, hfree⟩

/-- What a key stores at the end of a chain and not at its start was set within it. -/
theorem exists_set (hl : Exec h s l t) (hs : s key ≠ some ⟨token, e⟩) (ht : t key = some ⟨token, e⟩) :
    ∃ x ∈ l, ∃ ttl granted, v.act x.act = .setNX key token ttl granted ∧ granted ≠ some false ∧
      e = v.clock x.env + ttl := by
  obtain ⟨x, hx, hvalid, hpre, hpost⟩ :=
    hl.exists_leaving (P := fun s => s key ≠ some ⟨token, e⟩) hs (fun hne => hne ht)
  exact ⟨x, hx, (v.step x hvalid).appears (not_not.mp hpost) hpre⟩

end LeaseView
end SynapseGo.Redis
