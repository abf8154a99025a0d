import SynapseGo.Go.Strconv
import SynapseGo.Go.Time

/-! Time-based one-time passwords of package `crypto`, for any keyed digest of twenty bytes. -/
namespace SynapseGo.Crypto
open Go

/-- The value of a character of the base32 alphabet. -/
def base32Value (b : UInt8) : Option UInt8 :=
  if 0x41 ≤ b ∧ b ≤ 0x5A then some (b - 0x41)
  else if 0x32 ≤ b ∧ b ≤ 0x37 then some (b - 0x32 + 26)
  else none

/-- Up to eight 5-bit values packed into bytes. The switch of the decoder has no case for one, three or
six values and writes nothing for them. -/
def packQuantum (d : List UInt8) : GoString :=
  let v := fun i => d.getD i 0
  let bytes := [v 0 <<< 3 ||| v 1 >>> 2, v 1 <<< 6 ||| v 2 <<< 1 ||| v 3 >>> 4, v 3 <<< 4 ||| v 4 >>> 1,
    v 4 <<< 7 ||| v 5 <<< 2 ||| v 6 >>> 3, v 6 <<< 5 ||| v 7]
  match d.length with
  | 8 => bytes
  | 7 => bytes.take 4
  | 5 => bytes.take 3
  | 4 => bytes.take 2
  | 2 => bytes.take 1
  | _ => []

def packQuanta : List UInt8 → GoString
  | a :: b :: c :: d :: e :: f :: g :: h :: rest => packQuantum [a, b, c, d, e, f, g, h] ++ packQuanta rest
  | d => packQuantum d

/-- `base32.StdEncoding.WithPadding(base32.NoPadding).DecodeString` of a text without the byte 0xFF, which
the decoder would take for padding; line breaks are dropped first. -/
def decodeBase32 (s : GoString) : Option GoString :=
  ((s.filter fun b => b ≠ 0x0D ∧ b ≠ 0x0A).mapM base32Value).map packQuanta

/-- A digest of SHA-1's size. -/
structure Digest where
  bytes : GoString
  length_eq : bytes.length = 20

/-- `binary.BigEndian.PutUint64`. -/
def counterBytes (counter : UInt64) : GoString :=
  ([56, 48, 40, 32, 24, 16, 8, 0] : List UInt64).map fun shift => (counter >>> shift).toUInt8

/-- Dynamic truncation; an index outside the digest would be a run-time panic. -/
def truncate (sum : GoString) : Option UInt32 := do
  let offset := ((← sum[sum.length - 1]?) &&& 0x0F).toNat
  let b₀ ← sum[offset]?
  let b₁ ← sum[offset + 1]?
  let b₂ ← sum[offset + 2]?
  let b₃ ← sum[offset + 3]?
  some ((b₀.toUInt32 &&& 0x7F) <<< 24 ||| (b₁.toUInt32 &&& 0xFF) <<< 16 |||
    (b₂.toUInt32 &&& 0xFF) <<< 8 ||| b₃.toUInt32 &&& 0xFF)

section Totp
variable (mac : GoString → GoString → Digest) (U : CaseTables)

/-- The code of a counter under a decoded key. -/
def counterCode (key : GoString) (counter : UInt64) : Option GoString := do
  let bin ← truncate (mac key (counterBytes counter)).bytes
  some (padNat 6 (bin % 1000000).toNat)

/-- The key of a secret as a user may have typed it. -/
def decodeSecret (secret : GoString) : Option GoString := decodeBase32 (toUpper U (trimSpace secret))

def totpCode (secret : GoString) (now : Time) : Option GoString :=
  match decodeSecret U secret with
  | none => some []
  | some key => counterCode mac key (now.unix / 30).toUInt64

/-- The loop of `ValidateTOTP` from `offset` on, over `steps` more periods. -/
def validateFrom (secret code : GoString) (now : Time) : ℕ → ℤ → Option Bool
  | 0, _ => some false
  | steps + 1, offset => do
    let at' := now.add (Int64.ofInt offset * 30000000000)
    if (← totpCode mac U secret at') = code then some true
    else validateFrom secret code now steps (offset + 1)

def validateTOTP (secret code : GoString) (now : Time) (windowSteps : ℤ) : Option Bool :=
  let windowSteps := if windowSteps < 0 then 0 else windowSteps
  let code := trimSpace code
  if code = [] then some false
  else validateFrom mac U secret code now (2 * windowSteps + 1).toNat (-windowSteps)

/-- The index of dynamic truncation is at most 18. -/
theorem truncate_eq_some {sum : GoString} (h : sum.length = 20) : ∃ bin, truncate sum = some bin := by
  have hlast : sum.length - 1 < sum.length := by omega
  have hoffset : (sum[sum.length - 1] &&& 0x0F).toNat ≤ 15 := by
    rw [UInt8.toNat_and]
    exact Nat.and_le_right
  have hread : ∀ k < 4, ∃ b, sum[(sum[sum.length - 1] &&& 0x0F).toNat + k]? = some b := by
    intro k hk
    exact ⟨_, List.getElem?_eq_getElem (by omega)⟩
  obtain ⟨b₀, h₀⟩ := hread 0 (by decide)
  obtain ⟨b₁, h₁⟩ := hread 1 (by decide)
  obtain ⟨b₂, h₂⟩ := hread 2 (by decide)
  obtain ⟨b₃, h₃⟩ := hread 3 (by decide)
  rw [Nat.add_zero] at h₀
  unfold truncate
  rw [List.getElem?_eq_getElem hlast]
  simp only [Option.bind_eq_bind, Option.bind_some, h₀, h₁, h₂, h₃]
  exact ⟨_, rfl⟩

/-- Every counter has a code of six decimal digits. -/
theorem counterCode_digits (key : GoString) (counter : UInt64) :
    ∃ text, counterCode mac key counter = some text ∧ text.length = 6 ∧
      ∀ b ∈ text, 0x30 ≤ b.toNat ∧ b.toNat ≤ 0x39 := by
  obtain ⟨bin, hbin⟩ := truncate_eq_some (mac key (counterBytes counter)).length_eq
  have hlt : (bin % 1000000).toNat < 10 ^ 6 := by
    rw [UInt32.toNat_mod]
    exact Nat.mod_lt _ (by decide)
  refine ⟨padNat 6 (bin % 1000000).toNat, ?_, length_padNat (by decide) hlt, fun b hb => padNat_digit hb⟩
  rw [counterCode, hbin]
  rfl

theorem totpCode_of_none {secret : GoString} (h : decodeSecret U secret = none) (now : Time) :
    totpCode mac U secret now = some [] := by
  rw [totpCode, h]

theorem totpCode_of_some {secret key : GoString} (h : decodeSecret U secret = some key) (now : Time) :
    totpCode mac U secret now = counterCode mac key (now.unix / 30).toUInt64 := by
  rw [totpCode, h]

theorem totpCode_eq_some (secret : GoString) (now : Time) :
    ∃ text, totpCode mac U secret now = some text := by
  cases h : decodeSecret U secret with
  | none => exact ⟨[], totpCode_of_none mac U h now⟩
  | some key =>
    obtain ⟨text, htext, -⟩ := counterCode_digits mac key (now.unix / 30).toUInt64
    exact ⟨text, by rw [totpCode_of_some mac U h, htext]⟩

/-- The loop finds the code exactly when one of the instants it visits has it. -/
theorem validateFrom_spec (secret code : GoString) (now : Time) (steps : ℕ) (offset : ℤ) :
    ∃ accepted, validateFrom mac U secret code now steps offset = some accepted ∧
      (accepted = true ↔ ∃ k : ℕ, k < steps ∧
        totpCode mac U secret (now.add (Int64.ofInt (offset + k) * 30000000000)) = some code) := by
  induction steps generalizing offset with
  | zero => exact ⟨false, rfl, by simp⟩
  | succ steps ih =>
    obtain ⟨text, htext⟩ := totpCode_eq_some mac U secret (now.add (Int64.ofInt offset * 30000000000))
    unfold validateFrom
    simp only [htext, Option.bind_eq_bind, Option.bind_some]
    by_cases hcode : text = code
    · rw [if_pos hcode]
      refine ⟨true, rfl, iff_of_true rfl ⟨0, Nat.succ_pos steps, ?_⟩⟩
      rw [Int.natCast_zero, Int.add_zero, htext, hcode]
    · rw [if_neg hcode]
      obtain ⟨accepted, hloop, hiff⟩ := ih (offset + 1)
      refine ⟨accepted, hloop, hiff.trans ⟨?_, ?_⟩⟩
      · rintro ⟨k, hk, hfound⟩
        refine ⟨k + 1, by omega, ?_⟩
        rwa [Int.natCast_succ, Int.add_comm (k : ℤ), ← Int.add_assoc]
      · rintro ⟨k, hk, hfound⟩
        cases k with
        | zero =>
          rw [Int.natCast_zero, Int.add_zero, htext] at hfound
          exact absurd (Option.some.inj hfound) hcode
        | succ k =>
          refine ⟨k, by omega, ?_⟩
          rwa [Int.natCast_succ, Int.add_comm (k : ℤ), ← Int.add_assoc] at hfound

end Totp

section Window
variable {now : Time} {w offset : ℤ} (hfits : w * 30000000000 < 2 ^ 63) (hlo : -w ≤ offset) (hhi : offset ≤ w)
include hfits hlo hhi

theorem toInt_offset : (Int64.ofInt offset * 30000000000).toInt = 30 * offset * 10 ^ 9 := by
  have hperiod : (30000000000 : Int64).toInt = 30000000000 := by decide
  have hoffset : (Int64.ofInt offset).toInt = offset := Int64.toInt_ofInt_of_le (by omega) (by omega)
  have hexact : (offset * 30000000000).bmod (2 ^ 64) = offset * 30000000000 := by
    apply Int.bmod_eq_of_le <;> omega
  rw [Int64.toInt_mul, hoffset, hperiod, hexact]
  omega

/-- The counter of an instant of the window. -/
theorem counter_add (hstart : 30 * w ≤ now.unix.toInt)
    (hend : now.unix.toInt + 30 * w < 2 ^ 63 - 62135596800) :
    ((now.add (Int64.ofInt offset * 30000000000)).unix / 30).toUInt64 =
      (now.unix.toInt / 30 + offset).toNat.toUInt64 := by
  have hsec : now.sec.toInt = now.unix.toInt + 62135596800 := Time.toInt_sec (by omega) (by omega)
  have hmoved : (now.add (Int64.ofInt offset * 30000000000)).sec.toInt = now.sec.toInt + 30 * offset :=
    Time.add_sec (toInt_offset hfits hlo hhi) (by omega) (by omega)
  have hunix : (now.add (Int64.ofInt offset * 30000000000)).unix.toInt = now.unix.toInt + 30 * offset := by
    rw [Time.toInt_unix (by omega), hmoved, hsec]
    omega
  generalize now.add (Int64.ofInt offset * 30000000000) = moved at hunix ⊢
  have hthirty : (30 : Int64).toInt = 30 := by decide
  have hdiv : (moved.unix / 30).toInt = now.unix.toInt / 30 + offset := by
    have hexact : (now.unix.toInt / 30 + offset).bmod (2 ^ 64) = now.unix.toInt / 30 + offset := by
      apply Int.bmod_eq_of_le <;> omega
    have hquotient : (now.unix.toInt + 30 * offset) / 30 = now.unix.toInt / 30 + offset := by omega
    rw [Int64.toInt_div, hthirty, hunix, Int.tdiv_eq_ediv_of_nonneg (by omega), hquotient, hexact]
  have hpos : (0 : Int64) ≤ moved.unix / 30 := by
    rw [Int64.le_iff_toInt_le, hdiv, Int64.toInt_zero]
    omega
  apply UInt64.toNat_inj.mp
  rw [Int64.toNat_toUInt64_of_le hpos, Int64.toNatClampNeg, hdiv, Nat.toUInt64, UInt64.toNat_ofNat']
  omega

end Window

section Validate
variable (mac : GoString → GoString → Digest) (U : CaseTables)

theorem validateTOTP_of_none {secret : GoString} (h : decodeSecret U secret = none) (code : GoString)
    (now : Time) (windowSteps : ℤ) : validateTOTP mac U secret code now windowSteps = some false := by
  unfold validateTOTP
  dsimp only
  generalize (if windowSteps < 0 then 0 else windowSteps) = w
  split_ifs with hcode
  · rfl
  · obtain ⟨accepted, hloop, hiff⟩ :=
      validateFrom_spec mac U secret (trimSpace code) now (2 * w + 1).toNat (-w)
    have hnone : ¬ accepted = true := by
      rw [hiff]
      rintro ⟨k, -, hfound⟩
      rw [totpCode_of_none mac U h] at hfound
      exact hcode (Option.some.inj hfound).symm
    rw [hloop, Bool.eq_false_iff.mpr hnone]

/-- With a decodable secret the accepted codes are those of the counters around the present one. -/
theorem validateTOTP_of_some {secret key : GoString} (hkey : decodeSecret U secret = some key)
    (code : GoString)
    {now : Time} {w : ℤ} (hw : 0 ≤ w) (hfits : w * 30000000000 < 2 ^ 63) (hstart : 30 * w ≤ now.unix.toInt)
    (hend : now.unix.toInt + 30 * w < 2 ^ 63 - 62135596800) :
    ∃ accepted, validateTOTP mac U secret code now w = some accepted ∧
      (accepted = true ↔ ∃ c : ℕ, now.unix.toInt / 30 - w ≤ c ∧ c ≤ now.unix.toInt / 30 + w ∧
        counterCode mac key c.toUInt64 = some (trimSpace code)) := by
  unfold validateTOTP
  dsimp only
  rw [if_neg (show ¬ w < 0 by omega)]
  split_ifs with hcode
  · refine ⟨false, rfl, iff_of_false (by decide) ?_⟩
    rintro ⟨c, -, -, hc⟩
    obtain ⟨text, htext, hlength, -⟩ := counterCode_digits mac key c.toUInt64
    rw [htext, hcode, Option.some.injEq] at hc
    rw [hc] at hlength
    cases hlength
  · obtain ⟨accepted, hloop, hiff⟩ :=
      validateFrom_spec mac U secret (trimSpace code) now (2 * w + 1).toNat (-w)
    refine ⟨accepted, hloop, hiff.trans ⟨?_, ?_⟩⟩
    · rintro ⟨k, hk, hfound⟩
      refine ⟨(now.unix.toInt / 30 + (-w + k)).toNat, by omega, by omega, ?_⟩
      rw [totpCode_of_some mac U hkey, counter_add hfits (by omega) (by omega) hstart hend] at hfound
      exact hfound
    · rintro ⟨c, hlo, hhi, hc⟩
      have hcounter : (now.unix.toInt / 30 + (-w + ((c : ℤ) - now.unix.toInt / 30 + w).toNat)).toNat =
        c := by omega
      refine ⟨((c : ℤ) - now.unix.toInt / 30 + w).toNat, by omega, ?_⟩
      rw [totpCode_of_some mac U hkey, counter_add hfits (by omega) (by omega) hstart hend, hcounter]
      exact hc

/-- The window is exact as far as the instants in it can be represented: `t.Add` stays at the last second
that a `time.Time` can have. -/
theorem validateTOTP_exact :
    (∀ (secret key code : GoString) (now : Time) (w : ℤ), decodeSecret U secret = some key → 0 ≤ w →
      w * 30000000000 < 2 ^ 63 → 30 * w ≤ now.unix.toInt → now.unix.toInt + 30 * w ≤ 9223371974719179007 →
      ∃ accepted, validateTOTP mac U secret code now w = some accepted ∧
        (accepted = true ↔ ∃ c : ℕ, now.unix.toInt / 30 - w ≤ c ∧ c ≤ now.unix.toInt / 30 + w ∧
          counterCode mac key c.toUInt64 = some (trimSpace code))) ∧
    (∀ key counter, ∃ text, counterCode mac key counter = some text ∧ text.length = 6 ∧
      ∀ b ∈ text, 0x30 ≤ b.toNat ∧ b.toNat ≤ 0x39) ∧
    ∀ secret, decodeSecret U secret = none →
      ∀ code now w, validateTOTP mac U secret code now w = some false := by
  refine ⟨?_, counterCode_digits mac, fun secret => validateTOTP_of_none mac U⟩
  intro secret key code now w hkey hw hfits hstart hend
  exact validateTOTP_of_some mac U hkey code hw hfits hstart (by omega)

end Validate

/-- A digest that begins with the low half of the message, and the letters of ASCII only. -/
def sampleMac (_ message : GoString) : Digest :=
  ⟨(message.drop 4 ++ List.replicate 20 0).take 20, by simp⟩

def asciiCases : CaseTables := ⟨id, id⟩

/-- The code of the next period is accepted one period early. -/
theorem next_period_accepted :
    decodeSecret asciiCases (lit " gezdgnbv ") = some (lit "12345") ∧
      ∃ accepted, validateTOTP sampleMac asciiCases (lit " gezdgnbv ") (lit "666667 ")
        (Time.ofUnix 1999999980) 1 = some accepted ∧ accepted = true := by
  refine ⟨by decide +kernel, ?_⟩
  obtain ⟨accepted, hresult, hiff⟩ :=
    (validateTOTP_exact sampleMac asciiCases).1 (lit " gezdgnbv ") (lit "12345")
    (lit "666667 ") (Time.ofUnix 1999999980) 1 (by decide +kernel) (by decide) (by decide) (by decide)
    (by decide)
  exact ⟨accepted, hresult, hiff.mpr ⟨66666667, by decide, by decide, by decide +kernel⟩⟩

/-- At the last second of a `time.Time` the next period is not reached, and its code is refused. -/
theorem last_second_refused :
    let now : Time := ⟨Int64.maxValue, 0, by decide⟩
    now.unix.toInt = 9223371974719179007 ∧ now.unix.toInt / 30 + 1 = 307445732490639301 ∧
      decodeSecret asciiCases (lit "GEZDGNBV") = some (lit "12345") ∧
      counterCode sampleMac (lit "12345") 307445732490639301 = some (lit "621701") ∧
      validateTOTP sampleMac asciiCases (lit "GEZDGNBV") (lit "621701") now 1 = some false := by
  decide +kernel

end SynapseGo.Crypto
