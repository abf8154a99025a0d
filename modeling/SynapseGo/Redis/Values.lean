import Mathlib.Data.Int.Notation
import SynapseGo.Redis.Lease

/-! Redis keys that hold texts, with or without a time to live: `GET`, `SET` and `DEL`. Times are
milliseconds. -/
namespace SynapseGo.Redis
open SynapseGo.Go

structure Value where
  text : GoString
  expireAt : Option ℤ
  deriving DecidableEq, Repr

abbrev Values := GoString → Option Value

namespace Values
variable (now : ℤ) (key text : GoString) (s : Values)

/-- What a command finds; an expired key is absent. -/
def live : Option Value := (s key).filter fun c => c.expireAt.all fun e => now < e

def get : Option GoString := (s.live now key).map Value.text

/-- The expiry that the client asks for with `SET`: none for a duration of zero or less, except that a
duration of minus one keeps the expiry that is there. -/
def expiry (ttl : Int64) : Option ℤ :=
  if 0 < ttl then some (now + formatMs ttl)
  else if ttl = -1 then (s.live now key).bind Value.expireAt
  else none

def set (ttl : Int64) : Values := Function.update s key (some ⟨text, s.expiry now key ttl⟩)

def del : Values := Function.update s key none

variable {now key text s}

theorem get_eq_some (h : s.get now key = some text) :
    ∃ e, s key = some ⟨text, e⟩ ∧ ∀ t, e = some t → now < t := by
  obtain ⟨c, hc, rfl⟩ := Option.map_eq_some_iff.mp h
  unfold live at hc
  obtain ⟨hkey, htime⟩ := Option.filter_eq_some_iff.mp hc
  refine ⟨c.expireAt, hkey, ?_⟩
  intro t ht
  rw [ht] at htime
  simpa using htime

theorem expiry_of_pos {ttl : Int64} (h : 0 < ttl) : s.expiry now key ttl = some (now + formatMs ttl) := by
  unfold expiry
  rw [if_pos h]

end Values
end SynapseGo.Redis
