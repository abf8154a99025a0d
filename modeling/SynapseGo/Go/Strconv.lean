import Mathlib.Data.Nat.Digits.Lemmas
import SynapseGo.Go.Strings

/-! Decimal and hexadecimal text, as packages `strconv`, `fmt` and `encoding/hex` have it. -/
namespace SynapseGo.Go

private def digitsValue : GoString → ℕ → Option ℕ
  | [], n => some n
  | b :: s, n => if 0x30 ≤ b ∧ b ≤ 0x39 then digitsValue s (n * 10 + (b.toNat - 0x30)) else none

/-- An unsigned decimal numeral: at least one digit and nothing else. -/
def parseDigits (s : GoString) : Option ℕ := if s = [] then none else digitsValue s 0

/-- `strconv.ParseInt(s, 10, 64)`; syntax and range errors are both `none`. -/
def parseInt64 (s : GoString) : Option Int64 := do
  let v ← match s with
    | 0x2D :: s => (parseDigits s).map fun n => -(n : ℤ)
    | 0x2B :: s => (parseDigits s).map fun n => (n : ℤ)
    | s => (parseDigits s).map fun n => (n : ℤ)
  if -2 ^ 63 ≤ v ∧ v < 2 ^ 63 then some (Int64.ofInt v) else none

/-- `strconv.ParseUint(s, 10, 64)`; syntax and range errors are both `none`. -/
def parseUint64 (s : GoString) : Option UInt64 := do
  let n ← parseDigits s
  if n < 2 ^ 64 then some n.toUInt64 else none

private def uintValueFrom : GoString → ℕ → ℕ
  | [], n => n
  | b :: s, n =>
    if 0x30 ≤ b ∧ b ≤ 0x39 then
      let n := n * 10 + (b.toNat - 0x30)
      if 2 ^ 64 ≤ n then 2 ^ 64 - 1 else uintValueFrom s n
    else 0

/-- The value that `strconv.ParseUint(s, 10, 64)` returns beside its error: zero for a syntax error, and
the greatest value as soon as the digits exceed it. -/
def uintValue (s : GoString) : UInt64 := (uintValueFrom s 0).toUInt64

def formatNat (n : ℕ) : GoString :=
  if n = 0 then [0x30] else (Nat.digits 10 n).reverse.map fun d => (0x30 + d).toUInt8

/-- `strconv.FormatInt(v, 10)`, also the `%d` verb. -/
def formatInt (v : ℤ) : GoString := if v < 0 then 0x2D :: formatNat v.natAbs else formatNat v.natAbs

private def digitByte (d : ℕ) : UInt8 := (0x30 + d).toUInt8

private theorem digitByte_toNat {d : ℕ} (h : d < 10) : (digitByte d).toNat = 0x30 + d := by
  unfold digitByte
  rw [Nat.toUInt8, UInt8.toNat_ofNat']
  omega

theorem formatNat_digit {n : ℕ} {b : UInt8} (h : b ∈ formatNat n) : 0x30 ≤ b.toNat ∧ b.toNat ≤ 0x39 := by
  unfold formatNat at h
  split_ifs at h with hn
  · rw [List.mem_singleton.mp h]
    decide
  · obtain ⟨d, hd, rfl⟩ := List.mem_map.mp h
    have hlt : d < 10 := Nat.digits_lt_base (by decide) (List.mem_reverse.mp hd)
    have := digitByte_toNat hlt
    unfold digitByte at this
    omega

/-- Reading big-endian digits back as a number. -/
private def ofBytes (s : GoString) : ℕ := s.foldl (fun n b => n * 10 + (b.toNat - 0x30)) 0

private theorem ofBytes_formatNat (n : ℕ) : ofBytes (formatNat n) = n := by
  unfold formatNat ofBytes
  split_ifs with hn
  · rw [hn]
    rfl
  · have hfold : ∀ L : List ℕ, (∀ d ∈ L, d < 10) →
        (L.reverse.map digitByte).foldl (fun n b => n * 10 + (b.toNat - 0x30)) 0 = Nat.ofDigits 10 L := by
      intro L hL
      induction L with
      | nil => rfl
      | cons d L ih =>
        rw [List.forall_mem_cons] at hL
        rw [List.reverse_cons, List.map_append, List.foldl_append, ih hL.2, Nat.ofDigits_cons]
        simp only [List.map_cons, List.map_nil, List.foldl_cons, List.foldl_nil, digitByte_toNat hL.1]
        omega
    have := hfold (Nat.digits 10 n) (fun d hd => Nat.digits_lt_base (by decide) hd)
    rw [Nat.ofDigits_digits] at this
    exact this

private theorem digitsValue_eq {s : GoString} (hs : ∀ b ∈ s, 0x30 ≤ b.toNat ∧ b.toNat ≤ 0x39) (n : ℕ) :
    digitsValue s n = some (s.foldl (fun n b => n * 10 + (b.toNat - 0x30)) n) := by
  induction s generalizing n with
  | nil => rfl
  | cons b s ih =>
    obtain ⟨hb, hs⟩ := List.forall_mem_cons.mp hs
    have hdigit : 0x30 ≤ b ∧ b ≤ 0x39 := hb
    rw [digitsValue, if_pos hdigit, ih hs, List.foldl_cons]

theorem formatNat_ne_nil (n : ℕ) : formatNat n ≠ [] := by
  unfold formatNat
  split_ifs with hn
  · simp
  · simpa [Nat.digits_eq_nil_iff_eq_zero] using hn

theorem parseDigits_formatNat (n : ℕ) : parseDigits (formatNat n) = some n := by
  have hvalue := digitsValue_eq (fun b hb => formatNat_digit (n := n) hb) 0
  have hback : (formatNat n).foldl (fun n b => n * 10 + (b.toNat - 0x30)) 0 = n := ofBytes_formatNat n
  rw [parseDigits, if_neg (formatNat_ne_nil n), hvalue, hback]

theorem parseUint64_formatNat (v : UInt64) : parseUint64 (formatNat v.toNat) = some v := by
  have hrange := v.toNat_lt
  simp [parseUint64, parseDigits_formatNat, hrange]

theorem formatNat_of_lt {n : ℕ} (h : n < 10) : formatNat n = [(0x30 + n).toUInt8] := by
  unfold formatNat
  split_ifs with hn
  · rw [hn]
    rfl
  · rw [Nat.digits_of_lt 10 n hn h]
    rfl

/-- The last digit comes behind the numeral of the rest. -/
theorem formatNat_of_le {n : ℕ} (h : 10 ≤ n) :
    formatNat n = formatNat (n / 10) ++ [(0x30 + n % 10).toUInt8] := by
  have hn : n ≠ 0 := by omega
  have hrest : n / 10 ≠ 0 := by omega
  have hdigits : Nat.digits 10 n = n % 10 :: Nat.digits 10 (n / 10) := Nat.digits_def' (by decide) (by omega)
  rw [formatNat, if_neg hn, formatNat, if_neg hrest, hdigits, List.reverse_cons, List.map_append]
  rfl

/-- Only zero is written with a leading zero. -/
theorem formatNat_head {n : ℕ} (h : (formatNat n).head? = some 0x30) : n = 0 := by
  induction n using Nat.strong_induction_on with
  | _ n ih =>
    by_cases hlt : n < 10
    · rw [formatNat_of_lt hlt, List.head?_cons, Option.some.injEq] at h
      have hbyte : (0x30 + n).toUInt8.toNat = 0x30 + n := digitByte_toNat hlt
      rw [h] at hbyte
      change 0x30 = 0x30 + n at hbyte
      omega
    · rw [formatNat_of_le (by omega), List.head?_append_of_ne_nil _ (formatNat_ne_nil _)] at h
      have hrest := ih (n / 10) (by omega) h
      omega

theorem formatNat_injective : Function.Injective formatNat := by
  intro m n h
  rw [← ofBytes_formatNat m, ← ofBytes_formatNat n, h]

/-- Decimal digits after zeros up to a width, as in the fields of a formatted time. -/
def padNat (width n : ℕ) : GoString :=
  List.replicate (width - (formatNat n).length) 0x30 ++ formatNat n

def padInt (width : ℕ) (v : ℤ) : GoString :=
  if v < 0 then 0x2D :: padNat width v.natAbs else padNat width v.natAbs

theorem padNat_digit {width n : ℕ} {b : UInt8} (h : b ∈ padNat width n) :
    0x30 ≤ b.toNat ∧ b.toNat ≤ 0x39 := by
  rcases List.mem_append.mp h with h | h
  · rw [List.eq_of_mem_replicate h]
    decide
  · exact formatNat_digit h

theorem length_formatNat_le {n width : ℕ} (hwidth : 0 < width) (h : n < 10 ^ width) :
    (formatNat n).length ≤ width := by
  unfold formatNat
  split_ifs
  · exact hwidth
  · rw [List.length_map, List.length_reverse]
    exact (Nat.digits_length_le_iff (by decide) n).mpr h

/-- A number that fits takes the width exactly. -/
theorem length_padNat {n width : ℕ} (hwidth : 0 < width) (h : n < 10 ^ width) :
    (padNat width n).length = width := by
  have hle := length_formatNat_le hwidth h
  rw [padNat, List.length_append, List.length_replicate]
  omega

theorem padNat_injective (width : ℕ) : Function.Injective (padNat width) := by
  have hzeros : ∀ k, ofBytes (List.replicate k 0x30) = 0 := by
    intro k
    induction k with
    | zero => rfl
    | succ k ih =>
      have hstep : ofBytes (List.replicate (k + 1) 0x30) = ofBytes (List.replicate k 0x30) := rfl
      rw [hstep, ih]
  have hvalue : ∀ n, ofBytes (padNat width n) = n := by
    intro n
    have h := ofBytes_formatNat n
    unfold ofBytes at h hzeros ⊢
    rw [padNat, List.foldl_append, hzeros, h]
  intro m n h
  rw [← hvalue m, ← hvalue n, h]

theorem padInt_char {width : ℕ} {v : ℤ} {b : UInt8} (h : b ∈ padInt width v) :
    b = 0x2D ∨ 0x30 ≤ b.toNat ∧ b.toNat ≤ 0x39 := by
  unfold padInt at h
  split_ifs at h
  · rcases List.mem_cons.mp h with h | h
    · exact Or.inl h
    · exact Or.inr (padNat_digit h)
  · exact Or.inr (padNat_digit h)

theorem padInt_of_nonneg {width : ℕ} {v : ℤ} (h0 : 0 ≤ v) : padInt width v = padNat width v.natAbs :=
  if_neg (not_lt.mpr h0)

theorem length_padInt {width : ℕ} {v : ℤ} (hwidth : 0 < width) (h0 : 0 ≤ v) (h : v < 10 ^ width) :
    (padInt width v).length = width := by
  have habs : (v.natAbs : ℤ) < ((10 ^ width : ℕ) : ℤ) := by
    rw [Int.natAbs_of_nonneg h0]
    exact_mod_cast h
  rw [padInt_of_nonneg h0]
  exact length_padNat hwidth (Int.ofNat_lt.mp habs)

theorem padInt_ne_nil (width : ℕ) (v : ℤ) : padInt width v ≠ [] := by
  unfold padInt padNat
  split_ifs
  · exact List.cons_ne_nil _ _
  · simp [formatNat_ne_nil]

/-- `%0<width>d`: unlike `padInt`, the sign counts towards the width. -/
def formatZero (width : ℕ) (v : ℤ) : GoString :=
  if v < 0 then 0x2D :: padNat (width - 1) v.natAbs else padNat width v.natAbs

private theorem padNat_ne_minus (width n : ℕ) (l : GoString) : padNat width n ≠ 0x2D :: l := by
  intro hn
  have hdigit := @padNat_digit width n 0x2D (by rw [hn]; exact List.mem_cons_self)
  revert hdigit
  decide

theorem padInt_injective (width : ℕ) : Function.Injective (padInt width) := by
  intro v w h
  unfold padInt at h
  split_ifs at h with hv hw hw
  · have habs := padNat_injective width (List.cons.inj h).2
    omega
  · exact absurd h.symm (padNat_ne_minus _ _ _)
  · exact absurd h (padNat_ne_minus _ _ _)
  · have habs := padNat_injective width h
    omega

theorem formatZero_injective (width : ℕ) : Function.Injective (formatZero width) := by
  intro v w h
  unfold formatZero at h
  split_ifs at h with hv hw hw
  · have habs := padNat_injective (width - 1) (List.cons.inj h).2
    omega
  · exact absurd h.symm (padNat_ne_minus _ _ _)
  · exact absurd h (padNat_ne_minus _ _ _)
  · have habs := padNat_injective width h
    omega

theorem formatInt_injective : Function.Injective formatInt := by
  intro v w h
  have hminus : ∀ n l, formatNat n ≠ 0x2D :: l := by
    intro n l hn
    have := formatNat_digit (n := n) (b := 0x2D) (by rw [hn]; exact List.mem_cons_self)
    revert this
    decide
  unfold formatInt at h
  split_ifs at h with hv hw hw
  · have := formatNat_injective (List.cons.inj h).2
    omega
  · exact absurd h.symm (hminus _ _)
  · exact absurd h (hminus _ _)
  · have := formatNat_injective h
    omega

theorem colon_notMem_formatInt (v : ℤ) : (0x3A : UInt8) ∉ formatInt v := by
  intro h
  have hdigit : (0x3A : UInt8) ∉ formatNat v.natAbs := by
    intro h
    have := formatNat_digit h
    revert this
    decide
  unfold formatInt at h
  split_ifs at h
  · rcases List.mem_cons.mp h with h | h
    · revert h
      decide
    · exact hdigit h
  · exact hdigit h

/-- A non-negative number is read back as it was printed. -/
theorem parseInt64_formatInt {v : Int64} (hv : 0 ≤ v.toInt) : parseInt64 (formatInt v.toInt) = some v := by
  have hlo := Int64.le_toInt v
  have hhi := Int64.toInt_lt v
  have hformat : formatInt v.toInt = formatNat v.toInt.natAbs := if_neg (by omega)
  have habs : ((v.toInt.natAbs : ℕ) : ℤ) = v.toInt := by omega
  have hparse := parseDigits_formatNat v.toInt.natAbs
  rw [hformat]
  unfold parseInt64
  -- a digit is neither of the signs, so the last branch of the match is taken
  split
  · next h =>
    have hdigit := formatNat_digit (n := v.toInt.natAbs) (b := 0x2D) (by rw [h]; exact List.mem_cons_self)
    exact absurd hdigit (by decide)
  · next h =>
    have hdigit := formatNat_digit (n := v.toInt.natAbs) (b := 0x2B) (by rw [h]; exact List.mem_cons_self)
    exact absurd hdigit (by decide)
  · have hrange : -2 ^ 63 ≤ v.toInt ∧ v.toInt < 2 ^ 63 := ⟨hlo, hhi⟩
    rw [hparse]
    simp only [Option.pure_def, Option.map_some, habs, Option.bind_eq_bind, Option.bind_some, if_pos hrange,
      Int64.ofInt_toInt]

private def hexDigit (n : ℕ) : UInt8 := (if n < 10 then 0x30 + n else 0x57 + n).toUInt8

/-- `hex.EncodeToString`. -/
def hexEncode (s : GoString) : GoString :=
  s.flatMap fun b => [hexDigit (b.toNat / 16), hexDigit (b.toNat % 16)]

/-- The value of one hexadecimal digit, in either case. -/
def hexValue (b : UInt8) : Option ℕ :=
  if 0x30 ≤ b ∧ b ≤ 0x39 then some (b.toNat - 0x30)
  else if 0x61 ≤ b ∧ b ≤ 0x66 then some (b.toNat - 0x57)
  else if 0x41 ≤ b ∧ b ≤ 0x46 then some (b.toNat - 0x37)
  else none

/-- `hex.DecodeString`; `none` for an odd length or a byte that is no digit. -/
def hexDecode : GoString → Option GoString
  | [] => some []
  | [_] => none
  | a :: b :: s => do
    let x ← hexValue a
    let y ← hexValue b
    let rest ← hexDecode s
    some ((x * 16 + y).toUInt8 :: rest)

private theorem hexValue_hexDigit : ∀ n < 16, hexValue (hexDigit n) = some n := by decide

theorem hexDecode_hexEncode (s : GoString) : hexDecode (hexEncode s) = some s := by
  induction s with
  | nil => rfl
  | cons b s ih =>
    have hb := b.toNat_lt
    have hhigh := hexValue_hexDigit (b.toNat / 16) (by omega)
    have hlow := hexValue_hexDigit (b.toNat % 16) (by omega)
    have hsum : b.toNat / 16 * 16 + b.toNat % 16 = b.toNat := by omega
    have hstep : hexEncode (b :: s) = hexDigit (b.toNat / 16) :: hexDigit (b.toNat % 16) :: hexEncode s := rfl
    rw [hstep, hexDecode, hhigh, hlow, ih]
    simp only [Option.bind_eq_bind, Option.bind_some, hsum, Nat.toUInt8, UInt8.ofNat_toNat]

theorem hexEncode_injective : Function.Injective hexEncode := by
  intro s t h
  have hs := hexDecode_hexEncode s
  rw [h, hexDecode_hexEncode] at hs
  exact (Option.some.inj hs).symm

theorem length_hexEncode (s : GoString) : (hexEncode s).length = 2 * s.length := by
  induction s with
  | nil => rfl
  | cons b s ih =>
    have hstep : hexEncode (b :: s) = hexDigit (b.toNat / 16) :: hexDigit (b.toNat % 16) :: hexEncode s := rfl
    rw [hstep, List.length_cons, List.length_cons, List.length_cons, ih]
    omega

theorem hexEncode_digit {s : GoString} {b : UInt8} (h : b ∈ hexEncode s) :
    0x30 ≤ b.toNat ∧ b.toNat ≤ 0x66 := by
  have hdigit : ∀ n < 16, 0x30 ≤ (hexDigit n).toNat ∧ (hexDigit n).toNat ≤ 0x66 := by decide
  obtain ⟨c, -, hb⟩ := List.mem_flatMap.mp h
  have hc := c.toNat_lt
  simp only [List.mem_cons, List.not_mem_nil, or_false] at hb
  rcases hb with rfl | rfl
  · exact hdigit _ (by omega)
  · exact hdigit _ (by omega)

theorem hexEncode_graphic {s : GoString} : ∀ b ∈ hexEncode s, graphic b = true := by
  intro b hb
  obtain ⟨hlo, hhi⟩ := hexEncode_digit hb
  exact graphic_of_toNat (by omega) (by omega)

end SynapseGo.Go
