import Mathlib.Algebra.Group.Int.Defs
import Mathlib.Algebra.Group.Nat.Defs
import Mathlib.Data.Int.Notation
import SynapseGo.Go.Strings

/-! Claims as JSON objects, and tokens under an ideal signature: a token verifies with the key it
was signed with and with no other. Times are nanoseconds since the Unix epoch. -/
namespace SynapseGo.Auth
open SynapseGo.Go

/-- The `json` names of the claims. -/
inductive Field where
  | principalID
  | principalType
  | roleCodes
  | tokenVersion
  | tokenType
  | tenantID
  | tenantCode
  | actorPrincipalID
  | scope
  | iss
  | aud
  | exp
  | iat
  deriving DecidableEq, Repr

inductive Json where
  | null
  | number (n : ℤ)
  | string (s : GoString)
  | strings (l : List GoString)
  deriving DecidableEq, Repr

/-- The members of a JSON object. -/
abbrev Object := Field → Option Json

/-- Filling one field of a Go struct: an absent or null member leaves the zero value, a member of
another type is an error. -/
def Object.read {α : Type} (o : Object) (zero : α) (decode : Json → Option α) (f : Field) : Option α :=
  match o f with
  | none => some zero
  | some .null => some zero
  | some v => decode v

def asUint64 : Json → Option UInt64
  | .number n => if 0 ≤ n ∧ n < 2 ^ 64 then some (UInt64.ofNat n.toNat) else none
  | _ => none

def asInt : Json → Option Int64
  | .number n => if -2 ^ 63 ≤ n ∧ n < 2 ^ 63 then some (Int64.ofInt n) else none
  | _ => none

def asString : Json → Option GoString
  | .string s => some s
  | _ => none

def asStrings : Json → Option (List GoString)
  | .strings l => some l
  | _ => none

/-- `jwt.ClaimStrings` also accepts a single string. -/
def asClaimStrings : Json → Option (List GoString)
  | .string s => some [s]
  | .strings l => some l
  | _ => none

/-- `jwt.NumericDate`, in whole seconds. -/
def asNumericDate : Json → Option (Option ℤ)
  | .number n => some (some n)
  | _ => none

theorem Object.read_of_ne_null {α : Type} {o : Object} {zero : α} {decode : Json → Option α} {f : Field}
    {v : Json} (h : o f = some v) (hv : v ≠ .null) : o.read zero decode f = decode v := by
  unfold Object.read
  rw [h]
  cases v with
  | null => exact absurd rfl hv
  | number n => rfl
  | string s => rfl
  | strings l => rfl

@[simp] theorem asUint64_number (n : UInt64) : asUint64 (.number n.toNat) = some n := by
  have hn := n.toNat_lt
  simp only [asUint64]
  rw [if_pos (by omega)]
  simp

@[simp] theorem asInt_number (n : Int64) : asInt (.number n.toInt) = some n := by
  have hrange : -2 ^ 63 ≤ n.toInt ∧ n.toInt < 2 ^ 63 := ⟨n.le_toInt, n.toInt_lt⟩
  simp only [asInt, if_pos hrange, Int64.ofInt_toInt]

section
variable {o : Object} {f : Field}

theorem Object.read_uint64 {n : UInt64} (h : o f = some (.number n.toNat)) :
    o.read 0 asUint64 f = some n := by
  rw [Object.read_of_ne_null h (by simp), asUint64_number]

theorem Object.read_int {n : Int64} (h : o f = some (.number n.toInt)) : o.read 0 asInt f = some n := by
  rw [Object.read_of_ne_null h (by simp), asInt_number]

theorem Object.read_string {s : GoString} (h : o f = some (.string s)) : o.read [] asString f = some s := by
  rw [Object.read_of_ne_null h (by simp), asString]

end

/-- `jwt.RegisteredClaims`; no issuer of the package sets `sub`, `nbf` or `jti`. -/
structure RegisteredClaims where
  issuer : GoString
  audience : List GoString
  issuedAt : Option ℤ
  expiresAt : Option ℤ
  deriving DecidableEq, Repr

/-- All members are `omitempty`. -/
def RegisteredClaims.toJson (c : RegisteredClaims) : Object
  | .iss => if c.issuer = [] then none else some (.string c.issuer)
  | .aud => if c.audience = [] then none else some (.strings c.audience)
  | .exp => c.expiresAt.map .number
  | .iat => c.issuedAt.map .number
  | _ => none

def RegisteredClaims.ofJson (o : Object) : Option RegisteredClaims := do
  let issuer ← o.read [] asString .iss
  let audience ← o.read [] asClaimStrings .aud
  let issuedAt ← o.read none asNumericDate .iat
  let expiresAt ← o.read none asNumericDate .exp
  return ⟨issuer, audience, issuedAt, expiresAt⟩

/-- `jwt.NewNumericDate`. -/
def newNumericDate (t : ℤ) : Option ℤ := some (t / 10 ^ 9)

/-- A signed string under an ideal HMAC. -/
structure Token where
  key : GoString
  payload : Object

/-- `jwt.ParseWithClaims` with an HMAC key; without `exp` a token does not expire. -/
def parseWithClaims {α : Type} (ofJson : Object → Option α) (registered : α → RegisteredClaims)
    (key : GoString) (now : ℤ) (token : Token) : Option α :=
  if token.key ≠ key then none
  else match ofJson token.payload with
    | none => none
    | some claims =>
      if (registered claims).expiresAt.all fun t => now < t * 10 ^ 9 then some claims else none

/-- Registered claims are read back from any object that has them. -/
theorem RegisteredClaims.ofJson_eq_some {o : Object} {c : RegisteredClaims}
    (ho : ∀ f ∈ [Field.iss, .aud, .exp, .iat], o f = c.toJson f) : RegisteredClaims.ofJson o = some c := by
  obtain ⟨issuer, audience, issuedAt, expiresAt⟩ := c
  simp only [List.mem_cons, List.not_mem_nil, or_false, forall_eq_or_imp, forall_eq] at ho
  obtain ⟨hiss, haud, hexp, hiat⟩ := ho
  have hissuer : o.read [] asString .iss = some issuer := by
    by_cases h : issuer = [] <;> simp [Object.read, hiss, RegisteredClaims.toJson, h, asString]
  have haudience : o.read [] asClaimStrings .aud = some audience := by
    by_cases h : audience = [] <;> simp [Object.read, haud, RegisteredClaims.toJson, h, asClaimStrings]
  have hissued : o.read none asNumericDate .iat = some issuedAt := by
    cases issuedAt <;> simp [Object.read, hiat, RegisteredClaims.toJson, asNumericDate]
  have hexpires : o.read none asNumericDate .exp = some expiresAt := by
    cases expiresAt <;> simp [Object.read, hexp, RegisteredClaims.toJson, asNumericDate]
  simp [RegisteredClaims.ofJson, hissuer, haudience, hissued, hexpires]

/-- What a parsed token has shown: the key it was signed with, its payload, and that it is in time. -/
theorem parseWithClaims_eq_some {α : Type} {ofJson : Object → Option α} {registered : α → RegisteredClaims}
    {key : GoString} {now : ℤ} {token : Token} {claims : α} :
    parseWithClaims ofJson registered key now token = some claims ↔ token.key = key ∧
      ofJson token.payload = some claims ∧ ∀ t ∈ (registered claims).expiresAt, now < t * 10 ^ 9 := by
  unfold parseWithClaims
  by_cases hkey : token.key = key
  · cases hc : ofJson token.payload with
    | none => simp [hkey]
    | some c =>
      simp only [hkey, ne_eq, not_true_eq_false, if_false, Option.all_eq_true, decide_eq_true_eq,
        Option.ite_none_right_eq_some, Option.some.injEq, true_and]
      constructor
      · rintro ⟨ht, hc⟩
        subst hc
        exact ⟨rfl, ht⟩
      · rintro ⟨hc, ht⟩
        subst hc
        exact ⟨ht, rfl⟩
  · simp [hkey]

end SynapseGo.Auth
