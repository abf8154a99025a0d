import Mathlib.Algebra.Order.Group.Unbundled.Int
import Mathlib.Data.Int.Notation
import SynapseGo.Concurrency.Serial
import SynapseGo.Go.Strings

/-! `runtimeguard.LockManager`: locks within one process, each with an owner and a lease. An unlock
function remembers the key and the owner of its acquisition and nothing else, so that it releases
whatever lock of that owner it finds. -/
namespace SynapseGo.RuntimeGuard
open SynapseGo.Go SynapseGo.Concurrency

structure LockEntry where
  owner : GoString
  expiresAt : ℤ
  deriving DecidableEq, Repr

abbrev Locks := GoString → Option LockEntry

/-- What `TryLock` does at `now`; the key and the owner are trimmed already. -/
def tryLock (now : ℤ) (key owner : GoString) (ttl : ℤ) (locks : Locks) : Bool × Locks :=
  if key = [] ∨ owner = [] ∨ ttl ≤ 0 then (false, locks)
  else if ∃ current ∈ locks key, now < current.expiresAt ∧ current.owner ≠ owner then (false, locks)
  else (true, Function.update locks key (some ⟨owner, now + ttl⟩))

/-- What the unlock function of an acquisition does. -/
def unlock (key owner : GoString) (locks : Locks) : Locks :=
  if ∃ current ∈ locks key, current.owner = owner then Function.update locks key none else locks

/-- A call of `TryLock` that has returned, and whether its unlock function has been called. -/
structure Acquisition where
  key : GoString
  owner : GoString
  expiresAt : ℤ
  granted : Bool
  unlocked : Bool
  deriving DecidableEq, Repr

def Acquisition.Live (a : Acquisition) (t : ℤ) : Prop :=
  a.granted = true ∧ a.unlocked = false ∧ t < a.expiresAt

/-- The manager, and the calls of `TryLock` by number. -/
structure LockSystem where
  locks : Locks
  calls : ℕ
  acquisitions : ℕ → Option Acquisition

inductive LockOp where
  | tryLock (key owner : GoString) (ttl : ℤ)
  /-- A call of the unlock function that the `n`-th `TryLock` returned. -/
  | unlock (n : ℕ)

abbrev LockReply : LockOp → Type
  | .tryLock _ _ _ => Bool
  | .unlock _ => Unit

def lockHandle : Handler LockOp LockReply ℤ LockSystem
  | now, .tryLock key owner ttl, s =>
    let key := trimSpace key
    let owner := trimSpace owner
    let r := tryLock now key owner ttl s.locks
    (r.1, ⟨r.2, s.calls + 1,
      Function.update s.acquisitions s.calls (some ⟨key, owner, now + ttl, r.1, false⟩)⟩)
  | _, .unlock n, s =>
    match s.acquisitions n with
    | none => ((), s)
    | some a =>
      -- The function returned with a refusal does nothing.
      let locks := if a.granted then unlock a.key a.owner s.locks else s.locks
      ((), { s with
        locks := locks
        acquisitions := Function.update s.acquisitions n (some { a with unlocked := true }) })

abbrev LockEvent := Entry Unit LockOp LockReply ℤ LockSystem

def LockSystem.new : LockSystem := ⟨fun _ => none, 0, fun _ => none⟩

def lockRun (ops : List (ℤ × LockOp)) : List LockEvent := serial lockHandle .new ops

/-- No two owners have live acquisitions of one key at `t`. -/
def LockSystem.Exclusive (s : LockSystem) (t : ℤ) : Prop :=
  ∀ n m a b, s.acquisitions n = some a → s.acquisitions m = some b → a.Live t → b.Live t →
    a.key = b.key → a.owner = b.owner

/-- Nor do they at any time of a run. -/
def AlwaysExclusive (log : List LockEvent) : Prop := ∀ x ∈ log, ∀ t, x.env ≤ t → x.post.Exclusive t

/-- An unlock function is called only when its owner has no other live acquisition of the key, and an
owner that locks a key again does not shorten the lease of a live acquisition. -/
def Careful (x : LockEvent) : Prop :=
  match x.act.1 with
  | .tryLock key owner ttl => ∀ n a, x.pre.acquisitions n = some a → a.Live x.env →
      a.key = trimSpace key → a.owner = trimSpace owner → a.expiresAt ≤ x.env + ttl
  | .unlock n => ∀ a, x.pre.acquisitions n = some a → a.granted = true →
      ∀ m b, m ≠ n → x.pre.acquisitions m = some b → b.Live x.env → a.key = b.key → a.owner ≠ b.owner

theorem Acquisition.Live.mono {a : Acquisition} {t u : ℤ} (h : a.Live u) (htu : t ≤ u) : a.Live t := by
  obtain ⟨hgranted, hunlocked, hlt⟩ := h
  exact ⟨hgranted, hunlocked, by omega⟩

/-- Every live acquisition is backed by the entry of its key. -/
def LockSystem.Backed (s : LockSystem) (t : ℤ) : Prop :=
  ∀ n a, s.acquisitions n = some a → a.Live t →
    ∃ e, s.locks a.key = some e ∧ e.owner = a.owner ∧ a.expiresAt ≤ e.expiresAt

theorem LockSystem.Backed.mono {s : LockSystem} {t u : ℤ} (h : s.Backed t) (htu : t ≤ u) : s.Backed u := by
  intro n a ha hlive
  exact h n a ha (hlive.mono htu)

theorem LockSystem.Backed.exclusive {s : LockSystem} {t : ℤ} (h : s.Backed t) : s.Exclusive t := by
  intro n m a b ha hb hlive hlive' hkey
  obtain ⟨e, he, howner, -⟩ := h n a ha hlive
  obtain ⟨e', he', howner', -⟩ := h m b hb hlive'
  have hsame : some e = some e' := by rw [← he, ← he', hkey]
  rw [← howner, ← howner', Option.some.inj hsame]

/-- A refusal changes nothing; a grant finds no other owner's lease running. -/
theorem tryLock_cases {now ttl : ℤ} {key owner : GoString} {locks : Locks} {r : Bool} {locks' : Locks}
    (h : tryLock now key owner ttl locks = (r, locks')) :
    (r = false ∧ locks' = locks) ∨
      (r = true ∧ locks' = Function.update locks key (some ⟨owner, now + ttl⟩) ∧
        ∀ e, locks key = some e → now < e.expiresAt → e.owner = owner) := by
  unfold tryLock at h
  split_ifs at h with hargs hheld
  · obtain ⟨rfl, rfl⟩ := Prod.mk.inj h
    exact .inl ⟨rfl, rfl⟩
  · obtain ⟨rfl, rfl⟩ := Prod.mk.inj h
    exact .inl ⟨rfl, rfl⟩
  · obtain ⟨rfl, rfl⟩ := Prod.mk.inj h
    refine .inr ⟨rfl, rfl, ?_⟩
    intro e he hlt
    by_contra hne
    exact hheld ⟨e, he, hlt, hne⟩

theorem unlock_of_ne {key key' owner : GoString} {locks : Locks} (h : key' ≠ key) :
    unlock key owner locks key' = locks key' := by
  unfold unlock
  split_ifs
  · exact Function.update_of_ne h _ _
  · rfl

theorem unlock_of_owner_ne {key owner : GoString} {locks : Locks} {e : LockEntry} (he : locks key = some e)
    (hne : e.owner ≠ owner) : unlock key owner locks = locks := by
  unfold unlock
  rw [if_neg]
  rintro ⟨e', he', howner⟩
  rw [he] at he'
  cases he'
  exact hne howner

section Step
variable {s : LockSystem} {now : ℤ}

theorem LockSystem.Backed.tryLock {key owner : GoString} {ttl : ℤ} (h : s.Backed now)
    (hcare : ∀ n a, s.acquisitions n = some a → a.Live now → a.key = key → a.owner = owner →
      a.expiresAt ≤ now + ttl) {r : Bool} {locks' : Locks}
    (hr : RuntimeGuard.tryLock now key owner ttl s.locks = (r, locks')) :
    Backed ⟨locks', s.calls + 1,
      Function.update s.acquisitions s.calls (some ⟨key, owner, now + ttl, r, false⟩)⟩ now := by
  intro n a ha hlive
  dsimp only at ha ⊢
  by_cases hn : n = s.calls
  · subst hn
    rw [Function.update_self] at ha
    cases ha
    rcases tryLock_cases hr with ⟨hrefused, -⟩ | ⟨-, hlocks, -⟩
    · rw [hrefused] at hlive
      exact nomatch hlive.1
    · refine ⟨⟨owner, now + ttl⟩, ?_, rfl, le_rfl⟩
      rw [hlocks, Function.update_self]
  · rw [Function.update_of_ne hn] at ha
    obtain ⟨e, he, howner, hle⟩ := h n a ha hlive
    rcases tryLock_cases hr with ⟨-, hlocks⟩ | ⟨-, hlocks, hfree⟩
    · rw [hlocks]
      exact ⟨e, he, howner, hle⟩
    · by_cases hkey : a.key = key
      · -- The entry is still running, so that the lock was granted to the same owner.
        have hrunning : now < e.expiresAt := by
          have := hlive.2.2
          omega
        rw [hkey] at he
        have hsame : a.owner = owner := by rw [← howner, hfree e he hrunning]
        refine ⟨⟨owner, now + ttl⟩, ?_, hsame.symm, hcare n a ha hlive hkey hsame⟩
        rw [hlocks, hkey, Function.update_self]
      · refine ⟨e, ?_, howner, hle⟩
        rw [hlocks, Function.update_of_ne hkey, he]

theorem LockSystem.Backed.unlock {n : ℕ} {c : Acquisition} (h : s.Backed now)
    (hc : s.acquisitions n = some c)
    (hcare : c.granted = true → ∀ m b, m ≠ n → s.acquisitions m = some b → b.Live now → c.key = b.key →
      c.owner ≠ b.owner) :
    Backed { s with
      locks := if c.granted then RuntimeGuard.unlock c.key c.owner s.locks else s.locks
      acquisitions := Function.update s.acquisitions n (some { c with unlocked := true }) } now := by
  intro m a ha hlive
  dsimp only at ha ⊢
  by_cases hm : m = n
  · subst hm
    rw [Function.update_self] at ha
    cases ha
    exact nomatch hlive.2.1
  · rw [Function.update_of_ne hm] at ha
    obtain ⟨e, he, howner, hle⟩ := h m a ha hlive
    refine ⟨e, ?_, howner, hle⟩
    split_ifs with hgranted
    · by_cases hkey : c.key = a.key
      · have hne := hcare hgranted m a hm ha hlive hkey
        rw [hkey, unlock_of_owner_ne he (by rw [howner]; exact hne.symm), he]
      · rw [unlock_of_ne (Ne.symm hkey), he]
    · exact he

theorem LockSystem.Backed.step {x : LockEvent} (hx : x.Valid lockHandle) (hcare : Careful x)
    (h : x.pre.Backed x.env) : x.post.Backed x.env := by
  obtain ⟨op, reply, ha⟩ : ∃ op reply, x.act = ⟨op, reply⟩ := ⟨_, _, rfl⟩
  have hrun := hx.handle ha
  unfold Careful at hcare
  rw [ha] at hcare
  cases op with
  | tryLock key owner ttl =>
    obtain ⟨-, hpost⟩ := Prod.mk.inj hrun
    rw [← hpost]
    exact h.tryLock hcare rfl
  | unlock n =>
    unfold lockHandle at hrun
    dsimp only at hrun
    cases hn : x.pre.acquisitions n with
    | none =>
      rw [hn] at hrun
      rw [← (Prod.mk.inj hrun).2]
      exact h
    | some c =>
      rw [hn] at hrun
      rw [← (Prod.mk.inj hrun).2]
      exact h.unlock hn (hcare c hn)

end Step

/-- In every run with a clock that does not go back and in which every call is careful, at no time do two
owners have live acquisitions of one key. -/
theorem lockManager_exclusive (ops : List (ℤ × LockOp)) (hclock : ops.Pairwise fun m m' => m.1 ≤ m'.1)
    (hcare : ∀ x ∈ lockRun ops, Careful x) : AlwaysExclusive (lockRun ops) := by
  have hexec : Exec lockHandle .new (lockRun ops) _ := exec_serial lockHandle .new ops
  have hbacked : ∀ x ∈ lockRun ops, x.pre.Backed x.env := by
    apply hexec.timed_invariant (f := id) (P := fun t s => s.Backed t) (pairwise_serial hclock)
    · intro t u s htu h
      exact h.mono htu
    · intro x hx hvalid h
      exact h.step hvalid (hcare x hx)
    · intro x _ n a ha
      cases ha
  intro x hx t ht
  have hafter := (hbacked x hx).step (hexec.valid hx) (hcare x hx)
  exact (hafter.mono ht).exclusive

/-- One owner locks and unlocks, then another locks. -/
theorem handed_over_exclusive : AlwaysExclusive (lockRun [(0, .tryLock (lit "k") (lit "a") 100),
    (2, .unlock 0), (3, .tryLock (lit "k") (lit "b") 100)]) := by
  apply lockManager_exclusive _ (by decide)
  intro x hx
  rcases List.mem_cons.mp hx with rfl | hx
  · intro n a ha
    cases ha
  rcases List.mem_cons.mp hx with rfl | hx
  · intro a _ _ m b hm hb
    have hnone : some b = none := hb.symm.trans (Function.update_of_ne hm _ _)
    cases hnone
  rcases List.mem_singleton.mp hx with rfl
  intro n a ha hlive
  by_cases hn : n = 0
  · subst hn
    cases ha
    exact nomatch hlive.2.1
  · have hnone : some a = none :=
      ha.symm.trans ((Function.update_of_ne hn _ _).trans (Function.update_of_ne hn _ _))
    cases hnone

/-- The first unlock function is called once more after its owner has locked the key again: the second
acquisition loses the lock, and another owner gets it. -/
theorem repeated_unlock_not_exclusive : ¬ AlwaysExclusive (lockRun [(0, .tryLock (lit "k") (lit "a") 100),
    (1, .unlock 0), (2, .tryLock (lit "k") (lit "a") 100), (3, .unlock 0),
    (4, .tryLock (lit "k") (lit "b") 100)]) := by
  intro h
  have hlast := h _ (List.mem_of_getLast? rfl) 4 le_rfl
  have hsame := hlast 1 2 _ _ rfl rfl ⟨rfl, rfl, by decide⟩ ⟨rfl, rfl, by decide⟩ rfl
  exact absurd hsame (by decide)

end SynapseGo.RuntimeGuard
