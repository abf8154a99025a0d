import SynapseGo.Go.Strconv

/-! The request metadata of package `obs`: what a context carries, and its decimal texts. -/
namespace SynapseGo.Obs
open Go

/-- What the package binds under its private keys; no other package can bind them. -/
inductive Binding where
  | requestID (id : GoString)
  | tenantID (id : UInt64)
  | principalID (id : UInt64)
  deriving DecidableEq, Repr

namespace Binding

def requestID? : Binding → Option GoString
  | .requestID id => some id
  | _ => none

def tenantID? : Binding → Option UInt64
  | .tenantID id => some id
  | _ => none

def principalID? : Binding → Option UInt64
  | .principalID id => some id
  | _ => none

end Binding

/-- A context is known by the bindings made on the way to it, the latest first; `context.Background()`
has none. -/
abbrev Context := List Binding

def withRequestID (ctx : Context) (id : GoString) : Context := .requestID id :: ctx

def withTenantID (ctx : Context) (id : UInt64) : Context := .tenantID id :: ctx

def withPrincipalID (ctx : Context) (id : UInt64) : Context := .principalID id :: ctx

-- An empty request id hides an earlier one: `Value` finds the latest binding only.
def requestIDFromContext (ctx : Context) : Option GoString :=
  (ctx.findSome? Binding.requestID?).filter fun id => id ≠ []

def tenantIDFromContext (ctx : Context) : Option UInt64 := ctx.findSome? Binding.tenantID?

def principalIDFromContext (ctx : Context) : Option UInt64 := ctx.findSome? Binding.principalID?

def fieldRequestID : GoString := lit "request_id"

def fieldTenantID : GoString := lit "tenant_id"

def fieldPrincipalID : GoString := lit "principal_id"

/-- The loop of `uint64ToString`: digits go in front of position `pos` until nothing is left of `v`.
Writing in front of position 0 is the run-time panic of the source. -/
def writeDigits : ℕ → UInt64 → GoString → Option GoString
  | pos, v, buf =>
    if v = 0 then some (buf.drop pos)
    else
      match pos with
      | 0 => none
      | pos + 1 => writeDigits pos (v / 10) (buf.set pos (0x30 + v % 10).toUInt8)

def uint64ToString (v : UInt64) : Option GoString :=
  if v = 0 then some (lit "0") else writeDigits 20 v (List.replicate 20 0)

/-- The metadata for an outbox event, in the order in which the fields are written. -/
def requestMetadataFromContext (ctx : Context) : Option (List (GoString × GoString)) := do
  let tid ← (tenantIDFromContext ctx).mapM uint64ToString
  let pid ← (principalIDFromContext ctx).mapM uint64ToString
  some (((requestIDFromContext ctx).map (Prod.mk fieldRequestID)).toList ++
    (tid.map (Prod.mk fieldTenantID)).toList ++ (pid.map (Prod.mk fieldPrincipalID)).toList)

theorem writeDigits_zero (pos : ℕ) (buf : GoString) : writeDigits pos 0 buf = some (buf.drop pos) := by
  cases pos <;> rfl

theorem writeDigits_succ {pos : ℕ} {v : UInt64} {buf : GoString} (hv : v ≠ 0) :
    writeDigits (pos + 1) v buf = writeDigits pos (v / 10) (buf.set pos (0x30 + v % 10).toUInt8) := by
  rw [writeDigits, if_neg hv]

theorem digit_toUInt8 (v : UInt64) : (0x30 + v % 10).toUInt8 = (0x30 + v.toNat % 10).toUInt8 := by
  apply UInt8.toNat_inj.mp
  have hmod : v.toNat % 10 < 10 := Nat.mod_lt _ (by decide)
  simp only [UInt64.toNat_toUInt8, UInt64.toNat_add, UInt64.toNat_mod, Nat.toUInt8, UInt8.toNat_ofNat']
  change (48 + v.toNat % 10) % 2 ^ 64 % 2 ^ 8 = (48 + v.toNat % 10) % 2 ^ 8
  omega

/-- A position for each digit is enough: the numeral ends up in front of what was written before. -/
theorem writeDigits_eq {pos : ℕ} {v : UInt64} {buf : GoString} (hv : v ≠ 0) (hfit : v.toNat < 10 ^ pos)
    (hbuf : pos ≤ buf.length) : writeDigits pos v buf = some (formatNat v.toNat ++ buf.drop pos) := by
  have hpos : v.toNat ≠ 0 := by
    intro h
    exact hv (UInt64.toNat_inj.mp h)
  induction pos generalizing v buf with
  | zero =>
    rw [pow_zero] at hfit
    omega
  | succ pos ih =>
    have hrest : (v / 10).toNat = v.toNat / 10 := UInt64.toNat_div v 10
    have hwritten : (buf.set pos (0x30 + v % 10).toUInt8).drop pos =
        (0x30 + v.toNat % 10).toUInt8 :: buf.drop (pos + 1) := by
      have hlt : pos < (buf.set pos (0x30 + v % 10).toUInt8).length := by
        rw [List.length_set]
        omega
      rw [List.drop_eq_getElem_cons hlt, List.getElem_set_self, List.drop_set_of_lt (by omega), digit_toUInt8]
    rw [writeDigits_succ hv]
    by_cases hlast : v.toNat < 10
    · have hzero : v / 10 = 0 := UInt64.toNat_inj.mp (by rw [hrest, Nat.div_eq_of_lt hlast]; rfl)
      rw [hzero, writeDigits_zero, hwritten, formatNat_of_lt hlast, Nat.mod_eq_of_lt hlast]
      rfl
    · have hne : (v / 10).toNat ≠ 0 := by omega
      have hmore : v / 10 ≠ 0 := fun h => hne (by rw [h]; rfl)
      have hfits : (v / 10).toNat < 10 ^ pos := by
        rw [pow_succ] at hfit
        omega
      have hsplit : formatNat v.toNat = formatNat (v.toNat / 10) ++ [(0x30 + v.toNat % 10).toUInt8] :=
        formatNat_of_le (by omega)
      rw [ih hmore hfits (by rw [List.length_set]; omega) hne, hwritten, hrest, hsplit, List.append_assoc]
      rfl

theorem uint64ToString_eq (v : UInt64) : uint64ToString v = some (formatNat v.toNat) := by
  unfold uint64ToString
  split_ifs with hv
  · rw [hv]
    decide +kernel
  · have hfit : v.toNat < 10 ^ 20 := Nat.lt_trans v.toNat_lt (by decide)
    rw [writeDigits_eq hv hfit (by decide)]
    simp

/-- The numeral of `n` without sign or superfluous zeros. -/
structure Canonical (n : ℕ) (s : GoString) : Prop where
  digits : ∀ b ∈ s, 0x30 ≤ b.toNat ∧ b.toNat ≤ 0x39
  shortest : s.head? = some 0x30 → s = [0x30]
  value : parseDigits s = some n

theorem canonical_formatNat (n : ℕ) : Canonical n (formatNat n) where
  digits _ hb := formatNat_digit hb
  shortest h := by rw [formatNat_head h]; rfl
  value := parseDigits_formatNat n

theorem uint64ToString_roundTrip :
    (∀ v, ∃ s, uint64ToString v = some s ∧ Canonical v.toNat s ∧ parseUint64 s = some v) ∧
      Function.Injective uint64ToString := by
  refine ⟨fun v => ⟨_, uint64ToString_eq v, canonical_formatNat _, parseUint64_formatNat v⟩, ?_⟩
  intro v w h
  rw [uint64ToString_eq, uint64ToString_eq, Option.some.injEq] at h
  exact UInt64.toNat_inj.mp (formatNat_injective h)

example : uint64ToString 18446744073709551615 = some (lit "18446744073709551615") := by decide +kernel

/-- The metadata never panics, and holds exactly the fields that the context carries. -/
theorem requestMetadataFromContext_eq (ctx : Context) : requestMetadataFromContext ctx =
    some (((requestIDFromContext ctx).map (Prod.mk fieldRequestID)).toList ++
      ((tenantIDFromContext ctx).map fun id => (fieldTenantID, formatNat id.toNat)).toList ++
      ((principalIDFromContext ctx).map fun id => (fieldPrincipalID, formatNat id.toNat)).toList) := by
  have htext : ∀ o : Option UInt64, o.mapM uint64ToString = some (o.map fun id => formatNat id.toNat) := by
    intro o
    cases o with
    | none => rfl
    | some id => simp [uint64ToString_eq]
  simp only [requestMetadataFromContext, htext, Option.bind_eq_bind, Option.bind_some, Option.map_map]
  rfl

end SynapseGo.Obs
