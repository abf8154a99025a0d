import Mathlib.Logic.Function.Basic
import SynapseGo.Go.Strings
import SynapseGo.Redis.LuaNumber

/-! Redis as a store of integer keys with expiry times, and scripts over it. An expired key is
absent for every command. Times are milliseconds of the server's clock. -/
namespace SynapseGo.Redis
open SynapseGo.Go

structure Cell where
  value : ℤ
  expireAt : Option ℤ
  deriving DecidableEq, Repr

def Cell.alive (now : ℤ) (c : Cell) : Bool := c.expireAt.all fun t => now < t

abbrev Store (κ : Type) := κ → Option Cell

/-- A script: a failed command ends it, and the effects of the commands before it stay. -/
abbrev Script (κ : Type) := ExceptT GoString (StateM (Store κ))

variable {κ : Type} {α β : Type}

theorem Script.bind_apply (p : Script κ α) (f : α → Script κ β) (s : Store κ) :
    (p >>= f) s = match p s with
      | (.ok a, t) => f a t
      | (.error text, t) => (.error text, t) := by
  show (ExceptT.bind p f) s = _
  unfold ExceptT.bind ExceptT.mk
  show (ExceptT.bindCont f (p s).1) (p s).2 = _
  rcases p s with ⟨_ | a, t⟩ <;> rfl

namespace Store

def live (s : Store κ) (now : ℤ) (k : κ) : Option Cell := (s k).filter (Cell.alive now)

/-- What `GET` finds, an absent key as 0. -/
def counter (s : Store κ) (now : ℤ) (k : κ) : ℤ := ((s.live now k).map Cell.value).getD 0

theorem live_of_eq_none {s : Store κ} {k : κ} (h : s k = none) (now : ℤ) : s.live now k = none := by
  unfold live
  rw [h]
  rfl

theorem live_of_alive {s : Store κ} {now : ℤ} {k : κ} {c : Cell} (h : s k = some c)
    (hc : c.alive now = true) : s.live now k = some c := by
  unfold live
  rw [h, Option.filter_some, if_pos hc]

theorem eq_some_of_live {s : Store κ} {now : ℤ} {k : κ} {c : Cell} (h : s.live now k = some c) :
    s k = some c :=
  (Option.filter_eq_some_iff.mp h).1

theorem counter_congr {s t : Store κ} {now : ℤ} {k : κ} (h : s k = t k) :
    s.counter now k = t.counter now k := by
  unfold counter live
  rw [h]

/-- What the key holds, expired or not. -/
def value (s : Store κ) (k : κ) : ℤ := ((s k).map Cell.value).getD 0

theorem value_of_eq_some {s : Store κ} {k : κ} {c : Cell} (h : s k = some c) : s.value k = c.value := by
  unfold value
  rw [h]
  rfl

theorem value_congr {s t : Store κ} {k : κ} (h : s k = t k) : s.value k = t.value k := by
  unfold value
  rw [h]

/-- For a key that is absent or alive both readings agree. -/
theorem counter_eq_value {s : Store κ} {now : ℤ} {k : κ} (h : ∀ c ∈ s k, c.alive now = true) :
    s.counter now k = s.value k := by
  unfold counter live value
  cases hk : s k with
  | none => rfl
  | some c => rw [Option.filter_some, if_pos (h c hk)]

/-- Every key has an expiry time. -/
def Mortal (s : Store κ) : Prop := ∀ k, ∀ c ∈ s k, c.expireAt ≠ none

theorem Mortal.update [DecidableEq κ] {s : Store κ} (h : s.Mortal) {k : κ} {c : Option Cell}
    (hc : ∀ c' ∈ c, c'.expireAt ≠ none) : Mortal (Function.update s k c) := by
  intro k' c' hc'
  by_cases hk : k' = k
  · subst hk
    rw [Function.update_self] at hc'
    exact hc c' hc'
  · rw [Function.update_of_ne hk] at hc'
    exact h k' c' hc'

/-- A key that is alive keeps its expiry when only its value changes. -/
theorem Mortal.update_live [DecidableEq κ] {s : Store κ} (h : s.Mortal) {now : ℤ} {k : κ}
    (hk : s.live now k ≠ none) (v : ℤ) :
    Mortal (Function.update s k (some ⟨v, (s.live now k).bind Cell.expireAt⟩)) := by
  obtain ⟨c, hc⟩ := Option.ne_none_iff_exists'.mp hk
  have hs := eq_some_of_live hc
  apply h.update
  intro c' hc'
  cases hc'
  rw [hc]
  exact h k c hs

end Store

/-- What is incremented at `now` is alive then. -/
theorem alive_incremented (s : Store κ) (now : ℤ) (k : κ) (v : ℤ) :
    (Cell.mk v ((s.live now k).bind Cell.expireAt)).alive now = true := by
  unfold Store.live
  cases s k with
  | none => rfl
  | some c =>
    rw [Option.filter_some]
    split_ifs with hc
    · exact hc
    · rfl

/-- A Lua number as an integer argument, printed with `%.17g` as Redis 6 does: from `10^17` on it has an
exponent, and the command rejects it. -/
def integerArg (n : ℤ) : Script κ ℤ := fun s =>
  if n.natAbs < 10 ^ 17 then (.ok n, s)
  else (.error (lit "ERR value is not an integer or out of range"), s)

/-- A time to live that Lua and `EXPIRE` take as it is. -/
def ValidTTL (ttl : ℤ) : Prop := 0 < ttl ∧ ttl ≤ 2 ^ 53

instance (ttl : ℤ) : Decidable (ValidTTL ttl) := inferInstanceAs (Decidable (_ ∧ _))

theorem integerArg_of_lt {n : ℤ} (h : n.natAbs < 10 ^ 17) (s : Store κ) :
    integerArg n s = (.ok n, s) := if_pos h

/-- `GET key`, as a Lua number. -/
def getNumber (now : ℤ) (k : κ) : Script κ ℤ := fun s => (.ok (roundDouble (s.counter now k)), s)

/-- `GET key`; for a missing key the client reports an error. -/
def get (now : ℤ) (k : κ) : Script κ ℤ := fun s =>
  match s.live now k with
  | none => (.error (lit "redis: nil"), s)
  | some c => (.ok c.value, s)

/-- `PTTL key`: the milliseconds left, -1 without an expiry time and -2 without the key. -/
def pttl (now : ℤ) (k : κ) : Script κ ℤ := fun s =>
  match s.live now k with
  | none => (.ok (-2), s)
  | some c => (.ok ((c.expireAt.map fun t => t - now).getD (-1)), s)

variable [DecidableEq κ]

/-- `INCRBY key d`: an `int64` that does not wrap; the expiry time stays. -/
def incrBy (now : ℤ) (k : κ) (d : ℤ) : Script κ ℤ := fun s =>
  let v := s.counter now k + d
  if -2 ^ 63 ≤ v ∧ v < 2 ^ 63 then
    (.ok v, Function.update s k (some ⟨v, (s.live now k).bind Cell.expireAt⟩))
  else (.error (lit "ERR increment or decrement would overflow"), s)

/-- `DECRBY key d`; the least `int64` has no negative. -/
def decrBy (now : ℤ) (k : κ) (d : ℤ) : Script κ ℤ :=
  if d = -2 ^ 63 then throw (lit "ERR decrement would overflow") else incrBy now k (-d)

/-- `EXPIRE key ttl`, in seconds; a time that is not in the future deletes the key. -/
def expire (now : ℤ) (k : κ) (ttl : ℤ) : Script κ ℤ := fun s =>
  if ttl * 1000 < -2 ^ 63 ∨ 2 ^ 63 ≤ ttl * 1000 then
    (.error (lit "ERR invalid expire time in 'expire' command"), s)
  else
    match s.live now k with
    | none => (.ok 0, s)
    | some c =>
      if ttl ≤ 0 then (.ok 1, Function.update s k none)
      else (.ok 1, Function.update s k (some { c with expireAt := some (now + ttl * 1000) }))

/-- `DEL key`. -/
def del (now : ℤ) (k : κ) : Script κ ℤ := fun s =>
  (.ok (if (s.live now k).isSome then 1 else 0), Function.update s k none)

/-- `PEXPIRE key ttl`, in milliseconds. -/
def pexpire (now : ℤ) (k : κ) (ttl : ℤ) : Script κ ℤ := fun s =>
  match s.live now k with
  | none => (.ok 0, s)
  | some c =>
    if ttl ≤ 0 then (.ok 1, Function.update s k none)
    else (.ok 1, Function.update s k (some { c with expireAt := some (now + ttl) }))

/-- `INCRBY` followed by `EXPIRE`, as both scripts that count up have it. -/
def bump (now : ℤ) (k : κ) (d ttl : ℤ) : Script κ ℤ := do
  let v ← incrBy now k (← integerArg d)
  let _ ← expire now k (← integerArg ttl)
  return v

/-- An increment takes effect as a whole or not at all. -/
theorem incrBy_cases {now : ℤ} {k : κ} {d : ℤ} {s t : Store κ} {reply : Except GoString ℤ}
    (h : incrBy now k d s = (reply, t)) :
    (∃ text, reply = .error text ∧ t = s) ∨ (reply = .ok (s.counter now k + d) ∧
      t = Function.update s k (some ⟨s.counter now k + d, (s.live now k).bind Cell.expireAt⟩)) := by
  unfold incrBy at h
  dsimp only at h
  split_ifs at h
  · obtain ⟨rfl, rfl⟩ := Prod.mk.inj h
    exact Or.inr ⟨rfl, rfl⟩
  · obtain ⟨rfl, rfl⟩ := Prod.mk.inj h
    exact Or.inl ⟨_, rfl, rfl⟩

theorem lt_of_incrBy {now : ℤ} {k : κ} {d v : ℤ} {s t : Store κ} (h : incrBy now k d s = (.ok v, t)) :
    v < 2 ^ 63 := by
  unfold incrBy at h
  dsimp only at h
  split_ifs at h with hv
  · obtain ⟨hr, -⟩ := Prod.mk.inj h
    cases hr
    exact hv.2
  · cases (Prod.mk.inj h).1

/-- Only an overflow makes `DECRBY` fail. -/
theorem overflow_of_decrBy {now : ℤ} {k : κ} {d : ℤ} {s t : Store κ} {text : GoString}
    (h : decrBy now k d s = (.error text, t)) (hd : 0 ≤ d) :
    s.counter now k - d < -2 ^ 63 ∨ 2 ^ 63 ≤ s.counter now k - d := by
  unfold decrBy at h
  rw [if_neg (by omega)] at h
  unfold incrBy at h
  dsimp only at h
  split_ifs at h with hv
  · cases (Prod.mk.inj h).1
  · omega

theorem decrBy_cases {now : ℤ} {k : κ} {d : ℤ} {s t : Store κ} {reply : Except GoString ℤ}
    (h : decrBy now k d s = (reply, t)) :
    (∃ text, reply = .error text ∧ t = s) ∨ (reply = .ok (s.counter now k - d) ∧
      t = Function.update s k (some ⟨s.counter now k - d, (s.live now k).bind Cell.expireAt⟩)) := by
  unfold decrBy at h
  split_ifs at h
  · obtain ⟨rfl, rfl⟩ := Prod.mk.inj h
    exact Or.inl ⟨_, rfl, rfl⟩
  · exact incrBy_cases h

/-- With a time to live in the future, `EXPIRE` moves the expiry of a key that is alive and nothing else. -/
theorem expire_cases {now ttl : ℤ} (ht : ValidTTL ttl) {k : κ} {s t : Store κ} {reply : Except GoString ℤ}
    (h : expire now k ttl s = (reply, t)) :
    t = s ∨ ∃ c, s.live now k = some c ∧
      t = Function.update s k (some { c with expireAt := some (now + ttl * 1000) }) := by
  obtain ⟨hpos, hle⟩ := ht
  have hrange : ¬ (ttl * 1000 < -2 ^ 63 ∨ 2 ^ 63 ≤ ttl * 1000) := by omega
  unfold expire at h
  rw [if_neg hrange] at h
  cases hlive : s.live now k with
  | none =>
    rw [hlive] at h
    exact Or.inl (Prod.mk.inj h).2.symm
  | some c =>
    rw [hlive] at h
    dsimp only at h
    rw [if_neg (by omega)] at h
    exact Or.inr ⟨c, rfl, (Prod.mk.inj h).2.symm⟩

theorem expire_eq {now : ℤ} {k : κ} {ttl : ℤ} {s : Store κ} {c : Cell} (hc : c.alive now = true) :
    expire now k ttl (Function.update s k (some c)) =
      if ttl * 1000 < -2 ^ 63 ∨ 2 ^ 63 ≤ ttl * 1000 then
        (.error (lit "ERR invalid expire time in 'expire' command"), Function.update s k (some c))
      else if ttl ≤ 0 then (.ok 1, Function.update s k none)
      else (.ok 1, Function.update s k (some { c with expireAt := some (now + ttl * 1000) })) := by
  unfold expire
  rw [Store.live_of_alive (Function.update_self k _ s) hc]
  dsimp only
  rw [Function.update_idem, Function.update_idem]

theorem expire_incremented {now ttl : ℤ} (ht : ValidTTL ttl) (s : Store κ) (k : κ) (v : ℤ) :
    expire now k ttl (Function.update s k (some ⟨v, (s.live now k).bind Cell.expireAt⟩)) =
      (.ok 1, Function.update s k (some ⟨v, some (now + ttl * 1000)⟩)) := by
  obtain ⟨hpos, hle⟩ := ht
  rw [expire_eq (alive_incremented s now k v), if_neg (by omega), if_neg (by omega)]

theorem pexpire_incremented {now ttl : ℤ} (ht : 0 < ttl) (s : Store κ) (k : κ) (v : ℤ) :
    pexpire now k ttl (Function.update s k (some ⟨v, (s.live now k).bind Cell.expireAt⟩)) =
      (.ok 1, Function.update s k (some ⟨v, some (now + ttl)⟩)) := by
  unfold pexpire
  rw [Store.live_of_alive (Function.update_self k _ s) (alive_incremented s now k v)]
  dsimp only
  rw [if_neg (by omega), Function.update_idem]

/-- `INCRBY` and `EXPIRE` on the cell of one key: the reply, and what is left in the key. -/
def bumpCell (now d ttl : ℤ) (c : Option Cell) : Except GoString ℤ × Option Cell :=
  let live := c.filter (Cell.alive now)
  let v := (live.map Cell.value).getD 0 + d
  if ¬ d.natAbs < 10 ^ 17 then (.error (lit "ERR value is not an integer or out of range"), c)
  else if ¬ (-2 ^ 63 ≤ v ∧ v < 2 ^ 63) then (.error (lit "ERR increment or decrement would overflow"), c)
  else if ¬ ttl.natAbs < 10 ^ 17 then
    (.error (lit "ERR value is not an integer or out of range"), some ⟨v, live.bind Cell.expireAt⟩)
  else if ttl * 1000 < -2 ^ 63 ∨ 2 ^ 63 ≤ ttl * 1000 then
    (.error (lit "ERR invalid expire time in 'expire' command"), some ⟨v, live.bind Cell.expireAt⟩)
  else if ttl ≤ 0 then (.ok v, none)
  else (.ok v, some ⟨v, some (now + ttl * 1000)⟩)

/-- When both commands succeed. -/
theorem bumpCell_ok {now d ttl : ℤ} {c : Option Cell} {v : ℤ} (h : (bumpCell now d ttl c).1 = .ok v) :
    v = ((c.filter (Cell.alive now)).map Cell.value).getD 0 + d ∧ d.natAbs < 10 ^ 17 ∧
    (-2 ^ 63 ≤ v ∧ v < 2 ^ 63) ∧
      ttl.natAbs < 10 ^ 17 ∧ ¬ (ttl * 1000 < -2 ^ 63 ∨ 2 ^ 63 ≤ ttl * 1000) ∧
      (bumpCell now d ttl c).2 = if ttl ≤ 0 then none else some ⟨v, some (now + ttl * 1000)⟩ := by
  unfold bumpCell at h ⊢
  dsimp only at h ⊢
  split_ifs at h ⊢ with hd hv httl hrange hpos
  all_goals cases h
  all_goals exact ⟨rfl, hd, hv, httl, hrange, rfl⟩

theorem bumpCell_of_mem {now d ttl v : ℤ} {c : Option Cell}
    (hv : v = ((c.filter (Cell.alive now)).map Cell.value).getD 0 + d) (hd : d.natAbs < 10 ^ 17)
    (hrange : -2 ^ 63 ≤ v ∧ v < 2 ^ 63) (httl : ttl.natAbs < 10 ^ 17)
    (hexpire : ¬ (ttl * 1000 < -2 ^ 63 ∨ 2 ^ 63 ≤ ttl * 1000)) :
    bumpCell now d ttl c = (.ok v, if ttl ≤ 0 then none else some ⟨v, some (now + ttl * 1000)⟩) := by
  unfold bumpCell
  dsimp only
  rw [← hv, if_neg (not_not.mpr hd), if_neg (not_not.mpr hrange), if_neg (not_not.mpr httl), if_neg hexpire]
  split_ifs <;> rfl

/-- With a time to live in the future, a failed command has left the cell as it was. -/
theorem bumpCell_cases {now ttl : ℤ} (ht : ValidTTL ttl) (d : ℤ) (c : Option Cell) :
    let v := ((c.filter (Cell.alive now)).map Cell.value).getD 0 + d
    (∃ text, bumpCell now d ttl c = (.error text, c)) ∨
      bumpCell now d ttl c = (.ok v, some ⟨v, some (now + ttl * 1000)⟩) := by
  obtain ⟨hpos, hle⟩ := ht
  intro v
  by_cases hd : d.natAbs < 10 ^ 17
  · by_cases hv : -2 ^ 63 ≤ v ∧ v < 2 ^ 63
    · right
      rw [bumpCell_of_mem rfl hd hv (by omega) (by omega), if_neg (by omega)]
    · left
      refine ⟨lit "ERR increment or decrement would overflow", ?_⟩
      unfold bumpCell
      dsimp only
      rw [if_neg (not_not.mpr hd), if_pos hv]
  · left
    refine ⟨lit "ERR value is not an integer or out of range", ?_⟩
    unfold bumpCell
    dsimp only
    rw [if_pos hd]

/-- The two commands read and write the cell of their key only. -/
theorem bump_eq (now : ℤ) (k : κ) (d ttl : ℤ) (s : Store κ) :
    bump now k d ttl s =
    ((bumpCell now d ttl (s k)).1, Function.update s k (bumpCell now d ttl (s k)).2) := by
  have hlive : (s k).filter (Cell.alive now) = s.live now k := rfl
  have hcounter : ((s.live now k).map Cell.value).getD 0 = s.counter now k := rfl
  unfold bump bumpCell
  dsimp only
  rw [Script.bind_apply, hlive, hcounter]
  unfold integerArg
  by_cases hd : d.natAbs < 10 ^ 17
  · rw [if_pos hd, if_neg (not_not.mpr hd)]
    dsimp only
    rw [Script.bind_apply]
    unfold incrBy
    dsimp only
    by_cases hv : -2 ^ 63 ≤ s.counter now k + d ∧ s.counter now k + d < 2 ^ 63
    · rw [if_pos hv, if_neg (not_not.mpr hv)]
      dsimp only
      rw [Script.bind_apply]
      by_cases httl : ttl.natAbs < 10 ^ 17
      · rw [if_pos httl, if_neg (not_not.mpr httl)]
        dsimp only
        rw [Script.bind_apply, expire_eq (alive_incremented s now k (s.counter now k + d))]
        split_ifs <;> rfl
      · rw [if_neg httl, if_pos httl]
    · rw [if_neg hv, if_pos hv]
      dsimp only
      rw [Function.update_eq_self]
  · rw [if_neg hd, if_pos hd]
    dsimp only
    rw [Function.update_eq_self]

/-- Either nothing happened, or the key counts `d` more and expires `ttl` seconds from now. -/
theorem bump_cases {now ttl : ℤ} (ht : ValidTTL ttl) {k : κ} {d : ℤ} {s t : Store κ}
    {reply : Except GoString ℤ} (h : bump now k d ttl s = (reply, t)) :
    (∃ text, reply = .error text ∧ t = s) ∨ (reply = .ok (s.counter now k + d) ∧
      t = Function.update s k (some ⟨s.counter now k + d, some (now + ttl * 1000)⟩)) := by
  rw [bump_eq] at h
  rcases bumpCell_cases ht d (s k) with ⟨text, hcell⟩ | hcell
  · rw [hcell, Function.update_eq_self] at h
    obtain ⟨rfl, rfl⟩ := Prod.mk.inj h
    exact Or.inl ⟨_, rfl, rfl⟩
  · rw [hcell] at h
    obtain ⟨rfl, rfl⟩ := Prod.mk.inj h
    exact Or.inr ⟨rfl, rfl⟩

theorem bump_of_mem {now ttl : ℤ} (ht : ValidTTL ttl) {k : κ} {d : ℤ} {s : Store κ}
    (hd : d.natAbs < 10 ^ 17) (hlo : -2 ^ 63 ≤ s.counter now k + d) (hhi : s.counter now k + d < 2 ^ 63) :
    bump now k d ttl s = (.ok (s.counter now k + d),
      Function.update s k (some ⟨s.counter now k + d, some (now + ttl * 1000)⟩)) := by
  obtain ⟨hpos, hle⟩ := ht
  have hcell : bumpCell now d ttl (s k) =
      (.ok (s.counter now k + d), some ⟨s.counter now k + d, some (now + ttl * 1000)⟩) := by
    rw [bumpCell_of_mem rfl hd ⟨hlo, hhi⟩ (by omega) (by omega), if_neg (by omega)]
    rfl
  rw [bump_eq, hcell]

end SynapseGo.Redis
