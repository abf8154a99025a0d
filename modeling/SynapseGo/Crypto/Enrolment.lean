import Mathlib.Tactic.IntervalCases
import SynapseGo.Crypto.Totp

/-! From `GenerateTOTPSecret` to `ValidateTOTP`: the secret is shown to a user as base32 text, and what the
user types of it gives the key back. -/
namespace SynapseGo.Crypto
open Go

/-- The character of a 5-bit value. -/
def base32Char (v : UInt8) : UInt8 := if v < 26 then v + 0x41 else v - 26 + 0x32

/-- Up to five bytes as 5-bit values; the bits behind the last byte are zero. -/
def splitQuantum (b : List UInt8) : List UInt8 :=
  let v := fun i => b.getD i 0
  let values := [v 0 >>> 3, (v 0 <<< 2 ||| v 1 >>> 6) &&& 0x1F, v 1 >>> 1 &&& 0x1F,
    (v 1 <<< 4 ||| v 2 >>> 4) &&& 0x1F, (v 2 <<< 1 ||| v 3 >>> 7) &&& 0x1F, v 3 >>> 2 &&& 0x1F,
    (v 3 <<< 3 ||| v 4 >>> 5) &&& 0x1F, v 4 &&& 0x1F]
  match b.length with
  | 0 => []
  | 1 => values.take 2
  | 2 => values.take 4
  | 3 => values.take 5
  | 4 => values.take 7
  | _ => values

def splitQuanta : List UInt8 → List UInt8
  | a :: b :: c :: d :: e :: rest => splitQuantum [a, b, c, d, e] ++ splitQuanta rest
  | b => splitQuantum b

/-- `base32.StdEncoding.WithPadding(base32.NoPadding).EncodeToString`. -/
def encodeBase32 (s : GoString) : GoString := (splitQuanta s).map base32Char

/-- `strings.TrimRight` with a cutset of one byte. -/
def trimRight (s : GoString) (cut : UInt8) : GoString := (s.reverse.dropWhile (· == cut)).reverse

/-- `GenerateTOTPSecret`, with what `rand.Read` has made of the twenty bytes. -/
def generateTOTPSecret (read : Except GoString GoString) : Except GoString GoString :=
  match read with
  | .error err => .error err
  | .ok raw => .ok (trimRight (encodeBase32 raw) 0x3D)

section Bits
variable (a b c d e : UInt8)

theorem join_first : (a >>> 3) <<< 3 ||| ((a <<< 2 ||| b >>> 6) &&& 0x1F) >>> 2 = a := by
  apply UInt8.toBitVec_inj.mp
  ext i hi
  interval_cases i <;> simp

theorem join_second : ((a <<< 2 ||| b >>> 6) &&& 0x1F) <<< 6 ||| (b >>> 1 &&& 0x1F) <<< 1 |||
    ((b <<< 4 ||| c >>> 4) &&& 0x1F) >>> 4 = b := by
  apply UInt8.toBitVec_inj.mp
  ext i hi
  interval_cases i <;> simp

theorem join_third : ((b <<< 4 ||| c >>> 4) &&& 0x1F) <<< 4 ||| ((c <<< 1 ||| d >>> 7) &&& 0x1F) >>> 1 =
    c := by
  apply UInt8.toBitVec_inj.mp
  ext i hi
  interval_cases i <;> simp

theorem join_fourth : ((c <<< 1 ||| d >>> 7) &&& 0x1F) <<< 7 ||| (d >>> 2 &&& 0x1F) <<< 2 |||
    ((d <<< 3 ||| e >>> 5) &&& 0x1F) >>> 3 = d := by
  apply UInt8.toBitVec_inj.mp
  ext i hi
  interval_cases i <;> simp

theorem join_fifth : ((d <<< 3 ||| e >>> 5) &&& 0x1F) <<< 5 ||| e &&& 0x1F = e := by
  apply UInt8.toBitVec_inj.mp
  ext i hi
  interval_cases i <;> simp

end Bits

/-- A quantum is packed again from its values, whatever its length. -/
theorem packQuanta_splitQuanta (s : GoString) : packQuanta (splitQuanta s) = s := by
  induction s using splitQuanta.induct with
  | case1 a b c d e rest ih =>
    have hpack : packQuanta (splitQuanta (a :: b :: c :: d :: e :: rest)) =
        packQuantum (splitQuantum [a, b, c, d, e]) ++ packQuanta (splitQuanta rest) := rfl
    have hquantum : packQuantum (splitQuantum [a, b, c, d, e]) = [a, b, c, d, e] :=
      congrArg₂ List.cons (join_first a b) (congrArg₂ List.cons (join_second a b c)
        (congrArg₂ List.cons (join_third b c d) (congrArg₂ List.cons (join_fourth c d e)
          (congrArg₂ List.cons (join_fifth d e) rfl))))
    rw [hpack, ih, hquantum]
    rfl
  | case2 s hshort =>
    -- fewer than five bytes: zero stands for the first that is missing
    cases s with
    | nil => rfl
    | cons a s =>
      cases s with
      | nil => exact congrArg₂ List.cons (join_first a 0) rfl
      | cons b s =>
        cases s with
        | nil => exact congrArg₂ List.cons (join_first a b) (congrArg₂ List.cons (join_second a b 0) rfl)
        | cons c s =>
          cases s with
          | nil =>
            exact congrArg₂ List.cons (join_first a b) (congrArg₂ List.cons (join_second a b c)
              (congrArg₂ List.cons (join_third b c 0) rfl))
          | cons d s =>
            cases s with
            | nil =>
              exact congrArg₂ List.cons (join_first a b) (congrArg₂ List.cons (join_second a b c)
                (congrArg₂ List.cons (join_third b c d) (congrArg₂ List.cons (join_fourth c d 0) rfl)))
            | cons e s => exact absurd rfl (hshort a b c d e s)

theorem toNat_mask_lt (v : UInt8) : (v &&& 0x1F).toNat < 32 := by
  rw [UInt8.toNat_and]
  exact Nat.lt_succ_of_le Nat.and_le_right

theorem toNat_shift_lt (v : UInt8) : (v >>> 3).toNat < 32 := by
  have hv := v.toNat_lt
  have hshift : (v >>> 3).toNat = v.toNat / 8 := by
    rw [UInt8.toNat_shiftRight]
    exact Nat.shiftRight_eq_div_pow _ _
  omega

theorem splitQuantum_lt (b : List UInt8) : ∀ v ∈ splitQuantum b, v.toNat < 32 := by
  have hvalues : ∀ v ∈ [b.getD 0 0 >>> 3, (b.getD 0 0 <<< 2 ||| b.getD 1 0 >>> 6) &&& 0x1F,
    b.getD 1 0 >>> 1 &&& 0x1F,
      (b.getD 1 0 <<< 4 ||| b.getD 2 0 >>> 4) &&& 0x1F, (b.getD 2 0 <<< 1 ||| b.getD 3 0 >>> 7) &&& 0x1F,
      b.getD 3 0 >>> 2 &&& 0x1F, (b.getD 3 0 <<< 3 ||| b.getD 4 0 >>> 5) &&& 0x1F, b.getD 4 0 &&& 0x1F],
      v.toNat < 32 := by
    simp only [List.forall_mem_cons, toNat_mask_lt, toNat_shift_lt, true_and]
    exact nofun
  intro v hv
  unfold splitQuantum at hv
  dsimp only at hv
  split at hv
  · cases hv
  all_goals first
    | exact hvalues v (List.mem_of_mem_take hv)
    | exact hvalues v hv

theorem splitQuanta_lt (s : GoString) : ∀ v ∈ splitQuanta s, v.toNat < 32 := by
  induction s using splitQuanta.induct with
  | case1 a b c d e rest ih =>
    intro v hv
    cases List.mem_append.mp hv with
    | inl hfirst => exact splitQuantum_lt _ v hfirst
    | inr hrest => exact ih v hrest
  | case2 s hshort =>
    rw [splitQuanta]
    · exact splitQuantum_lt s
    · exact hshort

/-- The characters of the alphabet. -/
def IsBase32 (b : UInt8) : Prop := 0x41 ≤ b.toNat ∧ b.toNat ≤ 0x5A ∨ 0x32 ≤ b.toNat ∧ b.toNat ≤ 0x37

instance (b : UInt8) : Decidable (IsBase32 b) := inferInstanceAs (Decidable (_ ∨ _))

theorem base32Char_spec {v : UInt8} (h : v.toNat < 32) :
    base32Value (base32Char v) = some v ∧ IsBase32 (base32Char v) := by
  have hall : ∀ n < 32, base32Value (base32Char n.toUInt8) = some n.toUInt8 ∧
    IsBase32 (base32Char n.toUInt8) := by
    decide
  have hv := hall v.toNat h
  rwa [show v.toNat.toUInt8 = v from UInt8.ofNat_toNat] at hv

theorem isBase32_of_mem {s : GoString} {b : UInt8} (h : b ∈ encodeBase32 s) : IsBase32 b := by
  obtain ⟨v, hv, rfl⟩ := List.mem_map.mp h
  exact (base32Char_spec (splitQuanta_lt s v hv)).2

theorem mapM_base32Char {l : List UInt8} (h : ∀ v ∈ l, v.toNat < 32) :
    (l.map base32Char).mapM base32Value = some l := by
  induction l with
  | nil => rfl
  | cons v l ih =>
    obtain ⟨hv, hl⟩ := List.forall_mem_cons.mp h
    rw [List.map_cons, List.mapM_cons, (base32Char_spec hv).1, ih hl]
    rfl

/-- Every byte string is decoded from its encoding. -/
theorem decodeBase32_encodeBase32 (s : GoString) : decodeBase32 (encodeBase32 s) = some s := by
  have hnobreak : (encodeBase32 s).filter (fun b => b ≠ 0x0D ∧ b ≠ 0x0A) = encodeBase32 s := by
    rw [List.filter_eq_self]
    intro b hb
    have halphabet := isBase32_of_mem hb
    simp only [decide_eq_true_eq]
    constructor
    · intro heq
      subst heq
      exact absurd halphabet (by decide)
    · intro heq
      subst heq
      exact absurd halphabet (by decide)
  unfold decodeBase32
  rw [hnobreak, encodeBase32, mapM_base32Char (splitQuanta_lt s), Option.map_some, packQuanta_splitQuanta]

theorem trimRight_encodeBase32 (s : GoString) : trimRight (encodeBase32 s) 0x3D = encodeBase32 s := by
  unfold trimRight
  cases hrev : (encodeBase32 s).reverse with
  | nil => rw [← List.reverse_reverse (encodeBase32 s), hrev]; rfl
  | cons b l =>
    have hb : b ∈ encodeBase32 s := by
      rw [← List.mem_reverse, hrev]
      exact List.mem_cons_self
    have hne : (b == 0x3D) = false := by
      rw [beq_eq_false_iff_ne]
      intro heq
      subst heq
      exact absurd (isBase32_of_mem hb) (by decide)
    rw [List.dropWhile_cons_of_neg (by rw [hne]; decide), ← hrev, List.reverse_reverse]

/-- A character as a user may type it: letters in either case. -/
def SpelledAs (c s : UInt8) : Prop := c = s ∨ 0x41 ≤ s.toNat ∧ s.toNat ≤ 0x5A ∧ c = s + 0x20

instance (c s : UInt8) : Decidable (SpelledAs c s) := inferInstanceAs (Decidable (_ ∨ _))

/-- A text that a user takes from a secret: with white space around it, and in letters of either case. -/
def Typed (secret text : GoString) : Prop :=
  ∃ w t w', Blank w ∧ Blank w' ∧ text = w ++ t ++ w' ∧ List.Forall₂ SpelledAs t secret

theorem SpelledAs.toNat {c s : UInt8} (h : SpelledAs c s) :
    c.toNat = s.toNat ∨ 0x41 ≤ s.toNat ∧ s.toNat ≤ 0x5A ∧ c.toNat = s.toNat + 0x20 := by
  cases h with
  | inl hsame => exact .inl (congrArg UInt8.toNat hsame)
  | inr hlower =>
    obtain ⟨hlo, hhi, hc⟩ := hlower
    refine .inr ⟨hlo, hhi, ?_⟩
    have hadd := UInt8.toNat_add s 0x20
    rw [← hc] at hadd
    have hthirtytwo : (0x20 : UInt8).toNat = 32 := rfl
    omega

/-- The byte that `strings.ToUpper` puts for a byte of an ASCII text. -/
theorem SpelledAs.upper {c s : UInt8} (hs : IsBase32 s) (h : SpelledAs c s) :
    (if 0x61 ≤ c ∧ c ≤ 0x7A then c - 0x20 else c) = s := by
  have hsize : (0x61 : UInt8).toNat = 97 ∧ (0x7A : UInt8).toNat = 122 ∧ (0x20 : UInt8).toNat = 32 :=
    ⟨rfl, rfl, rfl⟩
  apply UInt8.toNat_inj.mp
  unfold IsBase32 at hs
  cases h.toNat with
  | inl hsame =>
    have hupper : ¬(0x61 ≤ c ∧ c ≤ 0x7A) := by
      rw [UInt8.le_iff_toNat_le, UInt8.le_iff_toNat_le]
      omega
    rw [if_neg hupper, hsame]
  | inr hlower =>
    obtain ⟨hlo, hhi, hc⟩ := hlower
    have hletter : 0x61 ≤ c ∧ c ≤ 0x7A := by
      rw [UInt8.le_iff_toNat_le, UInt8.le_iff_toNat_le]
      omega
    have hle : 0x20 ≤ c := by
      rw [UInt8.le_iff_toNat_le]
      omega
    rw [if_pos hletter, UInt8.toNat_sub_of_le _ _ hle]
    omega

theorem SpelledAs.graphic {c s : UInt8} (hs : IsBase32 s) (h : SpelledAs c s) : graphic c = true := by
  have hnat := h.toNat
  unfold IsBase32 at hs
  exact graphic_of_toNat (by omega) (by omega)

theorem lt_of_graphic {c : UInt8} (h : graphic c = true) : c < 0x80 := by
  unfold Go.graphic at h
  rw [Bool.and_eq_true, decide_eq_true_eq, decide_eq_true_eq, UInt8.lt_iff_toNat_lt] at h
  have hsize : (0x7F : UInt8).toNat = 127 ∧ (0x80 : UInt8).toNat = 128 := ⟨rfl, rfl⟩
  rw [UInt8.lt_iff_toNat_lt]
  omega

section Spelling
variable {t secret : GoString} (hsecret : ∀ b ∈ secret, IsBase32 b) (h : List.Forall₂ SpelledAs t secret)
include hsecret h

theorem graphic_of_spelled : ∀ c ∈ t, graphic c = true := by
  induction h with
  | nil => exact nofun
  | cons hc _ ih =>
    obtain ⟨hs, hrest⟩ := List.forall_mem_cons.mp hsecret
    exact List.forall_mem_cons.mpr ⟨hc.graphic hs, ih hrest⟩

theorem toUpper_spelled (U : CaseTables) : toUpper U t = secret := by
  have hascii : t.all (· < 0x80) = true := by
    rw [List.all_eq_true]
    intro c hc
    exact decide_eq_true (lt_of_graphic (graphic_of_spelled hsecret h c hc))
  unfold toUpper
  rw [if_pos hascii]
  clear hascii
  induction h with
  | nil => rfl
  | cons hc _ ih =>
    obtain ⟨hs, hrest⟩ := List.forall_mem_cons.mp hsecret
    rw [List.map_cons, hc.upper hs, ih hrest]

end Spelling

section Enrolment
variable (mac : GoString → GoString → Digest) (U : CaseTables) {raw secret text : GoString}

theorem generateTOTPSecret_eq (h : generateTOTPSecret (.ok raw) = .ok secret) :
    secret = encodeBase32 raw := by
  rw [← Except.ok.inj h, trimRight_encodeBase32]

theorem encodeBase32_ne_nil (hraw : raw ≠ []) : encodeBase32 raw ≠ [] := by
  intro hnil
  have hdecode := decodeBase32_encodeBase32 raw
  rw [hnil] at hdecode
  exact hraw (Option.some.inj hdecode).symm

/-- Whatever a user makes of the secret, the key is what was drawn. -/
theorem decodeSecret_typed (hraw : raw ≠ []) (h : generateTOTPSecret (.ok raw) = .ok secret)
    (htext : Typed secret text) :
    decodeSecret U text = some raw := by
  have hsecret := generateTOTPSecret_eq h
  subst hsecret
  obtain ⟨w, t, w', hw, hw', rfl, hspelled⟩ := htext
  have halphabet : ∀ b ∈ encodeBase32 raw, IsBase32 b := fun b hb => isBase32_of_mem hb
  have hne : t ≠ [] := by
    intro hnil
    subst hnil
    exact encodeBase32_ne_nil hraw (List.forall₂_nil_left_iff.mp hspelled)
  unfold decodeSecret
  rw [trimSpace_of_graphic hw hw' (graphic_of_spelled halphabet hspelled) hne,
    toUpper_spelled halphabet hspelled, decodeBase32_encodeBase32]

theorem typed_self (secret : GoString) : Typed secret secret := by
  refine ⟨[], secret, [], blank_nil, blank_nil, ?_, List.forall₂_same.mpr fun b _ => .inl rfl⟩
  rw [List.nil_append, List.append_nil]

/-- The counter of an instant after 1970. -/
theorem counter_unix {now : Time} (h : 0 ≤ now.unix.toInt) :
    (now.unix / 30).toUInt64 = (now.unix.toInt / 30).toNat.toUInt64 := by
  have hlt := now.unix.toInt_lt
  have hthirty : (30 : Int64).toInt = 30 := by decide
  have hdiv : (now.unix / 30).toInt = now.unix.toInt / 30 := by
    have hexact : (now.unix.toInt / 30).bmod (2 ^ 64) = now.unix.toInt / 30 := by
      apply Int.bmod_eq_of_le <;> omega
    rw [Int64.toInt_div, hthirty, Int.tdiv_eq_ediv_of_nonneg h, hexact]
  have hpos : (0 : Int64) ≤ now.unix / 30 := by
    rw [Int64.le_iff_toInt_le, hdiv, Int64.toInt_zero]
    omega
  apply UInt64.toNat_inj.mp
  rw [Int64.toNat_toUInt64_of_le hpos, Int64.toNatClampNeg, hdiv, Nat.toUInt64, UInt64.toNat_ofNat']
  omega

/-- A user who has enrolled gets in: the key is what was drawn, the device shows six digits for the secret it
was given, and the server accepts them for the secret as it was typed there, if the clocks are no more than
`w` periods apart. A code is accepted for no other reason than that it is the code of the drawn key in the
window. -/
theorem enrolled_code_accepted (hraw : raw.length = 20) (h : generateTOTPSecret (.ok raw) = .ok secret)
    (htext : Typed secret text) {now : Time} {w : ℤ} (hw : 0 ≤ w) (hfits : w * 30000000000 < 2 ^ 63)
    (hstart : 30 * w ≤ now.unix.toInt) (hend : now.unix.toInt + 30 * w < 2 ^ 63 - 62135596800) :
    decodeSecret U text = some raw ∧
    (∀ device : Time, |device.unix.toInt / 30 - now.unix.toInt / 30| ≤ w → ∃ code,
      totpCode mac U secret device = some code ∧ code.length = 6 ∧
        (∀ b ∈ code, 0x30 ≤ b.toNat ∧ b.toNat ≤ 0x39) ∧
        ∀ u u', Blank u → Blank u' → validateTOTP mac U text (u ++ code ++ u') now w = some true) ∧
    ∀ code, validateTOTP mac U text code now w = some true → ∃ c : ℕ, now.unix.toInt / 30 - w ≤ c ∧
      c ≤ now.unix.toInt / 30 + w ∧ counterCode mac raw c.toUInt64 = some (trimSpace code) := by
  have hne : raw ≠ [] := by
    intro hnil
    rw [hnil] at hraw
    cases hraw
  have hkey := decodeSecret_typed U hne h htext
  refine ⟨hkey, ?_, ?_⟩
  · intro device hskew
    rw [abs_le] at hskew
    have hdevice : 0 ≤ device.unix.toInt := by omega
    obtain ⟨code, hcode, hlength, hdigits⟩ :=
      counterCode_digits mac raw (device.unix.toInt / 30).toNat.toUInt64
    refine ⟨code, ?_, hlength, hdigits, ?_⟩
    · rw [totpCode_of_some mac U (decodeSecret_typed U hne h (typed_self secret)), counter_unix hdevice]
      exact hcode
    · intro u u' hu hu'
      have hcodene : code ≠ [] := by
        intro hnil
        rw [hnil] at hlength
        cases hlength
      have hgraphic : ∀ b ∈ code, graphic b = true := by
        intro b hb
        have hdigit := hdigits b hb
        exact graphic_of_toNat (by omega) (by omega)
      obtain ⟨accepted, hresult, hiff⟩ :=
        validateTOTP_of_some mac U hkey (u ++ code ++ u') hw hfits hstart hend
      rw [hresult, hiff.mpr]
      refine ⟨(device.unix.toInt / 30).toNat, by omega, by omega, ?_⟩
      rw [trimSpace_of_graphic hu hu' hgraphic hcodene]
      exact hcode
  · intro code haccepted
    obtain ⟨accepted, hresult, hiff⟩ := validateTOTP_of_some mac U hkey code hw hfits hstart hend
    rw [hresult] at haccepted
    exact hiff.mp (Option.some.inj haccepted)

end Enrolment

def sampleSecret : GoString := lit "GEZDGNBVGY3TQOJQGEZDGNBVGY3TQOJQ"

/-- The secret is typed in small letters, and the device is one period ahead of the server. -/
theorem sampleEnrolment_accepted :
    generateTOTPSecret (.ok (lit "12345678901234567890")) = .ok sampleSecret ∧
      ∃ code, totpCode sampleMac asciiCases sampleSecret (Time.ofUnix 2000000010) = some code ∧
        validateTOTP sampleMac asciiCases (lit "gezdgnbvgy3tqojqgezdgnbvgy3tqojq ") ([] ++ code ++ [])
          (Time.ofUnix 1999999980) 1 = some true := by
  have hsecret : generateTOTPSecret (.ok (lit "12345678901234567890")) = .ok sampleSecret := by decide +kernel
  have hstart : 30 * (1 : ℤ) ≤ (Time.ofUnix 1999999980).unix.toInt := by decide
  have hend : (Time.ofUnix 1999999980).unix.toInt + 30 * (1 : ℤ) < 2 ^ 63 - 62135596800 := by decide
  have htyped : Typed sampleSecret (lit "gezdgnbvgy3tqojqgezdgnbvgy3tqojq ") :=
    ⟨[], lit "gezdgnbvgy3tqojqgezdgnbvgy3tqojq", [0x20], blank_nil, ⟨[[0x20]], by decide, rfl⟩,
      rfl, by decide +kernel⟩
  have haccepted := (enrolled_code_accepted sampleMac asciiCases (by decide) hsecret htyped
    (by decide) (by decide) hstart hend).2.1 (Time.ofUnix 2000000010) (by decide)
  obtain ⟨code, hcode, -, -, hvalid⟩ := haccepted
  exact ⟨hsecret, code, hcode, hvalid [] [] blank_nil blank_nil⟩

end SynapseGo.Crypto
