import SynapseGo.Concurrency.Serial
import SynapseGo.Go.Strings
import SynapseGo.Go.Time

/-! `runtimeguard`: the fixed-window limiter in memory. Instants are nanoseconds, the zero `Time` being 0;
`Allow` is one atomic step under the mutex. -/
namespace SynapseGo.RuntimeGuard
open SynapseGo.Go SynapseGo.Concurrency

structure Decision where
  allowed : Bool
  remaining : ℤ
  retryAfter : Int64
  deriving DecidableEq

structure Bucket where
  windowStart : ℤ
  count : ℤ
  deriving DecidableEq, Repr

/-- The arguments of `Allow`. -/
structure AllowCall where
  key : GoString
  limit : ℤ
  window : Int64

/-- Arguments that both limiters refuse before they look at any state. -/
def AllowCall.Invalid (c : AllowCall) : Prop := trimSpace c.key = [] ∨ c.limit ≤ 0 ∨ c.window ≤ 0

instance (c : AllowCall) : Decidable c.Invalid := inferInstanceAs (Decidable (_ ∨ _ ∨ _))

abbrev Allows : AllowCall → Type := fun _ => Decision

namespace MemoryLimiter

/-- What `Allow` does to the bucket of its key. -/
def consume (now limit : ℤ) (window : Int64) (b : Bucket) : Decision × Bucket :=
  let b := if b.windowStart = 0 ∨ window ≤ subNanos now b.windowStart then ⟨now, 0⟩ else b
  if limit ≤ b.count then
    let retry := subNanos (b.windowStart + window.toInt) now
    let retry := if retry < 0 then 0 else retry
    (⟨false, 0, retry⟩, b)
  else (⟨true, limit - (b.count + 1), 0⟩, { b with count := b.count + 1 })

abbrev Buckets := GoString → Bucket

def allow : Handler AllowCall Allows ℤ Buckets := fun now c s =>
  let key := trimSpace c.key
  if c.Invalid then (⟨false, 0, c.window⟩, s)
  else
    let r := consume now c.limit c.window (s key)
    (r.1, Function.update s key r.2)

abbrev Event := Entry Unit AllowCall Allows ℤ Buckets

/-- The log of a sequence of calls, each with its reading of the clock, on a new limiter. -/
def run (calls : List (ℤ × AllowCall)) : List Event := serial allow (fun _ => ⟨0, 0⟩) calls

/-- `Allow` as a step of the bucket of its key. -/
def allowKey : Handler AllowCall Allows ℤ Bucket := fun now c b =>
  if c.Invalid then (⟨false, 0, c.window⟩, b) else consume now c.limit c.window b

theorem allow_local : Local allow (fun c => trimSpace c.key) allowKey := by
  intro now c s
  unfold allow allowKey
  dsimp only
  split_ifs with hc
  · rw [Function.update_eq_self]
  · rfl

section Consume
variable {now limit : ℤ} {window : Int64} {b : Bucket}

theorem consume_of_open (hlimit : 0 < limit) (hwindow : 0 < window)
    (hopen : b.windowStart = 0 ∨ window.toInt ≤ now - b.windowStart) :
    consume now limit window b = (⟨true, limit - 1, 0⟩, ⟨now, 1⟩) := by
  unfold consume
  rw [← le_subNanos hwindow] at hopen
  rw [if_pos hopen]
  exact if_neg (not_le.mpr hlimit)

theorem consume_of_room (hwindow : 0 < window) (hset : b.windowStart ≠ 0)
    (hnow : now - b.windowStart < window.toInt) (hroom : b.count < limit) :
    consume now limit window b = (⟨true, limit - (b.count + 1), 0⟩, ⟨b.windowStart, b.count + 1⟩) := by
  unfold consume
  rw [← not_le, ← le_subNanos hwindow] at hnow
  rw [if_neg (not_or.mpr ⟨hset, hnow⟩)]
  exact if_neg (not_le.mpr hroom)

/-- A refusal leaves the bucket, and reports what is left of its window as far as a duration reaches. -/
theorem consume_of_full (hwindow : 0 < window) (hset : b.windowStart ≠ 0)
    (hnow : now - b.windowStart < window.toInt) (hfull : limit ≤ b.count) :
    consume now limit window b = (⟨false, 0, subNanos (b.windowStart + window.toInt) now⟩, b) := by
  have hpos : ¬ subNanos (b.windowStart + window.toInt) now < 0 := by
    rw [Int64.lt_iff_toInt_lt, toInt_subNanos, Int64.toInt_zero]
    split_ifs <;> omega
  unfold consume
  rw [← not_le, ← le_subNanos hwindow] at hnow
  rw [if_neg (not_or.mpr ⟨hset, hnow⟩)]
  dsimp only
  rw [if_pos hfull, if_neg hpos]

end Consume

/-- What a call with positive arguments does: it opens a window, counts in the open one, or is refused
until that one ends. -/
inductive Consumes (now limit : ℤ) (window : Int64) (b : Bucket) (d : Decision) (b' : Bucket) : Prop
  | opens (hold : b.windowStart = 0 ∨ window.toInt ≤ now - b.windowStart)
    (hd : d = ⟨true, limit - 1, 0⟩) (hb : b' = ⟨now, 1⟩)
  | counts (hset : b.windowStart ≠ 0) (hnow : now - b.windowStart < window.toInt)
    (hroom : b.count < limit) (hd : d = ⟨true, limit - (b.count + 1), 0⟩)
    (hb : b' = ⟨b.windowStart, b.count + 1⟩)
  | refuses (hset : b.windowStart ≠ 0) (hnow : now - b.windowStart < window.toInt)
    (hfull : limit ≤ b.count) {retry : Int64} (hretry : retry.toInt = b.windowStart + window.toInt - now)
    (hd : d = ⟨false, 0, retry⟩) (hb : b' = b)

theorem consumes {now limit : ℤ} {window : Int64} {b : Bucket} (hlimit : 0 < limit)
    (hwindow : 0 < window) (hpast : b.windowStart = 0 ∨ b.windowStart ≤ now) :
    Consumes now limit window b (consume now limit window b).1 (consume now limit window b).2 := by
  by_cases hopen : b.windowStart = 0 ∨ window.toInt ≤ now - b.windowStart
  · rw [consume_of_open hlimit hwindow hopen]
    exact .opens hopen rfl rfl
  · rw [not_or, not_le] at hopen
    obtain ⟨hset, hnow⟩ := hopen
    have hle : b.windowStart ≤ now := hpast.resolve_left hset
    by_cases hfull : limit ≤ b.count
    · have hlt := Int64.toInt_lt window
      have hretry := toInt_subNanos_of_lt (t := b.windowStart + window.toInt) (u := now) (by omega) (by omega)
      rw [consume_of_full hwindow hset hnow hfull]
      exact .refuses hset hnow hfull hretry rfl rfl
    · rw [consume_of_room hwindow hset hnow (not_le.mp hfull)]
      exact .counts hset hnow (not_le.mp hfull) rfl rfl

end MemoryLimiter
end SynapseGo.RuntimeGuard
