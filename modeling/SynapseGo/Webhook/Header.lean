import SynapseGo.Crypto.Sha256
import SynapseGo.Go.Strconv
import SynapseGo.Go.Time

/-! Webhook signatures: the header `t=<unix>,v1=<hex>`, its parser, and the replay window of
`VerifyHeader`. -/
namespace SynapseGo.Webhook
open SynapseGo.Go

inductive Err where
  | invalidSecret
  | invalidSignature
  | timestampSkew
  deriving DecidableEq, Repr

def timestampPrefix : GoString := lit "t="

def signaturePrefix : GoString := lit "v1="

/-- A keyed digest; the package uses HMAC with SHA-256. -/
abbrev Mac := GoString → GoString → GoString

def computeSignature (mac : Mac) (secret : GoString) (timestamp : Int64) (payload : GoString) : GoString :=
  hexEncode (mac secret (formatInt timestamp.toInt ++ lit "." ++ payload))

def signHeader (mac : Mac) (secret : GoString) (timestamp : Time) (payload : GoString) :
    Except Err GoString :=
  if trimSpace secret = [] then .error .invalidSecret
  else
    let unix := timestamp.unix
    .ok (lit "t=" ++ formatInt unix.toInt ++ lit ",v1=" ++ computeSignature mac secret unix payload)

/-- One round of the loop in `ParseHeader`; a later part replaces an earlier one. -/
def parsePart (found : Int64 × GoString) (part : GoString) : Except Err (Int64 × GoString) :=
  let part := trimSpace part
  if hasPrefix part timestampPrefix then
    match parseInt64 (trimPrefix part timestampPrefix) with
    | none => .error .invalidSignature
    | some parsed => if parsed ≤ 0 then .error .invalidSignature else .ok (parsed, found.2)
  else if hasPrefix part signaturePrefix then .ok (found.1, trimPrefix part signaturePrefix)
  else .ok found

def parseHeader (header : GoString) : Except Err (Int64 × GoString) :=
  match (split header 0x2C).foldlM parsePart (0, []) with
  | .error e => .error e
  | .ok (timestamp, signature) =>
    if timestamp = 0 ∨ signature = [] then .error .invalidSignature
    else if hexDecode signature = none then .error .invalidSignature
    else .ok (timestamp, signature)

def absDuration (d : Int64) : Int64 := if d < 0 then -d else d

/-- `none` is the nil error. -/
def verifyHeader (mac : Mac) (secret header payload : GoString) (now : Time) (tolerance : Int64) :
    Option Err :=
  if trimSpace secret = [] then some .invalidSecret
  else match parseHeader header with
    | .error e => some e
    | .ok (timestamp, signature) =>
      if tolerance > 0 ∧ absDuration (now.sub (Time.ofUnix timestamp)) > tolerance then
        some .timestampSkew
      else if computeSignature mac secret timestamp payload ≠ signature then some .invalidSignature
      else none

/-- What an accepted header promises: its signature is right and its time is within the tolerance. -/
def Accepts (mac : Mac) (secret header payload : GoString) (now : Time) (tolerance : Int64) : Prop :=
  ∃ timestamp signature, parseHeader header = .ok (timestamp, signature) ∧
    signature = computeSignature mac secret timestamp payload ∧
    |now.unixNanos - timestamp.toInt * 10 ^ 9| ≤ tolerance.toInt

/-- The timestamps the skew check cannot reject: the difference saturates at the minimum, whose
absolute value is negative; it saturates at the maximum and the tolerance is the maximum; or
`time.Unix` wrapped to within the tolerance. -/
def Blind (now : Time) (timestamp tolerance : Int64) : Prop :=
  let d := now.unixNanos - (Time.ofUnix timestamp).unixNanos
  d ≤ -2 ^ 63 ∨
    (2 ^ 63 ≤ d ∧ tolerance.toInt = 2 ^ 63 - 1 ∧
      tolerance.toInt < |now.unixNanos - timestamp.toInt * 10 ^ 9|) ∨
    (Time.Wraps timestamp ∧ |d| ≤ tolerance.toInt)

instance (now : Time) (timestamp tolerance : Int64) : Decidable (Blind now timestamp tolerance) :=
  inferInstanceAs (Decidable (_ ∨ _ ∨ _))

theorem toInt_absDuration {d : Int64} (h : d.toInt ≠ -2 ^ 63) : (absDuration d).toInt = |d.toInt| := by
  have hlo := Int64.le_toInt d
  have hhi := Int64.toInt_lt d
  have hzero : (0 : Int64).toInt = 0 := by decide
  unfold absDuration
  split_ifs with hneg
  · rw [Int64.lt_iff_toInt_lt, hzero] at hneg
    rw [Int64.toInt_neg, abs_of_neg hneg]
    apply Int.bmod_eq_of_le <;> omega
  · rw [Int64.lt_iff_toInt_lt, hzero] at hneg
    rw [abs_of_nonneg (by omega)]

theorem absDuration_minValue : absDuration Int64.minValue = Int64.minValue := by decide

/-- When the skew check passes. -/
theorem absDuration_sub_le_iff {t u : Time} {tolerance : Int64} (htol : 0 < tolerance.toInt) :
    (absDuration (t.sub u)).toInt ≤ tolerance.toInt ↔
      t.unixNanos - u.unixNanos ≤ -2 ^ 63 ∨ |t.unixNanos - u.unixNanos| ≤ tolerance.toInt ∨
        (2 ^ 63 ≤ t.unixNanos - u.unixNanos ∧ tolerance.toInt = 2 ^ 63 - 1) := by
  have hsub := Time.toInt_sub t u
  have hmax := Int64.toInt_lt tolerance
  generalize t.unixNanos - u.unixNanos = d at hsub ⊢
  by_cases hlow : d ≤ -2 ^ 63
  · have hmin : (t.sub u).toInt = -2 ^ 63 := by
      rw [hsub]
      split_ifs <;> omega
    have hval : t.sub u = Int64.minValue := by
      rw [← Int64.toInt_inj, hmin, Int64.toInt_minValue]
    rw [hval, absDuration_minValue, Int64.toInt_minValue]
    constructor
    · exact fun _ => Or.inl hlow
    · intro _
      omega
  · have hne : (t.sub u).toInt ≠ -2 ^ 63 := by
      rw [hsub]
      split_ifs <;> omega
    rw [toInt_absDuration hne, hsub]
    split_ifs with h₁ h₂
    · omega
    · rw [abs_of_nonneg (by omega : (0 : ℤ) ≤ 2 ^ 63 - 1), abs_of_nonneg (by omega : 0 ≤ d)]
      omega
    · omega

theorem parsePart_nonneg {found parsed : Int64 × GoString} {part : GoString}
    (h : parsePart found part = .ok parsed) (hfound : 0 ≤ found.1) : 0 ≤ parsed.1 := by
  unfold parsePart at h
  dsimp only at h
  split_ifs at h with hts hsig
  · split at h
    · cases h
    · split_ifs at h with hle
      cases h
      rw [Int64.le_iff_toInt_le] at hle ⊢
      dsimp only
      omega
  · cases h
    exact hfound
  · cases h
    exact hfound

theorem foldlM_parsePart_nonneg {parts : List GoString} {found parsed : Int64 × GoString}
    (h : parts.foldlM parsePart found = .ok parsed) (hfound : 0 ≤ found.1) : 0 ≤ parsed.1 := by
  induction parts generalizing found with
  | nil =>
    cases h
    exact hfound
  | cons part parts ih =>
    rw [List.foldlM_cons] at h
    cases hp : parsePart found part with
    | error e =>
      rw [hp] at h
      cases h
    | ok next =>
      rw [hp] at h
      exact ih h (parsePart_nonneg hp hfound)

theorem parseHeader_pos {header signature : GoString} {timestamp : Int64}
    (h : parseHeader header = .ok (timestamp, signature)) : 0 < timestamp.toInt := by
  unfold parseHeader at h
  split at h
  · cases h
  · next hfold =>
    split_ifs at h with hzero
    cases h
    have hnonneg := foldlM_parsePart_nonneg hfold (by decide)
    rw [Int64.le_iff_toInt_le] at hnonneg
    have hne : timestamp.toInt ≠ 0 := fun h0 => hzero (Or.inl (Int64.toInt_inj.mp h0))
    have hz : (0 : Int64).toInt = 0 := by decide
    dsimp only at hnonneg
    omega

theorem verifyHeader_eq_none_iff {mac : Mac} {secret header payload : GoString} {now : Time}
    {tolerance : Int64} (htol : 0 < tolerance) :
    verifyHeader mac secret header payload now tolerance = none ↔
      trimSpace secret ≠ [] ∧ ∃ timestamp signature, parseHeader header = .ok (timestamp, signature) ∧
        signature = computeSignature mac secret timestamp payload ∧
        (absDuration (now.sub (Time.ofUnix timestamp))).toInt ≤ tolerance.toInt := by
  unfold verifyHeader
  split_ifs with hblank
  · simp [hblank]
  · cases hp : parseHeader header with
    | error e => simp
    | ok found =>
      obtain ⟨timestamp, signature⟩ := found
      have hpos : tolerance > 0 := htol
      by_cases hskew : absDuration (now.sub (Time.ofUnix timestamp)) > tolerance
      · have hgt : tolerance.toInt < (absDuration (now.sub (Time.ofUnix timestamp))).toInt :=
          Int64.lt_iff_toInt_lt.mp hskew
        simp [hpos, hskew, hblank, hgt]
      · have hle : (absDuration (now.sub (Time.ofUnix timestamp))).toInt ≤ tolerance.toInt := by
          have hnlt := mt Int64.lt_iff_toInt_lt.mpr hskew
          omega
        simp [hskew, hblank, hle, eq_comm]

/-- The exact distance and the one the check measures agree unless `time.Unix` wraps. -/
theorem sub_ofUnix_nanos (now : Time) {timestamp : Int64} (hpos : 0 < timestamp.toInt) :
    now.unixNanos - (Time.ofUnix timestamp).unixNanos = now.unixNanos - timestamp.toInt * 10 ^ 9 ∧
        ¬ Time.Wraps timestamp ∨
      now.unixNanos - (Time.ofUnix timestamp).unixNanos =
        now.unixNanos - timestamp.toInt * 10 ^ 9 + 2 ^ 64 * 10 ^ 9 ∧ Time.Wraps timestamp := by
  by_cases hw : Time.Wraps timestamp
  · refine Or.inr ⟨?_, hw⟩
    rw [Time.unixNanos_ofUnix_of_wraps hw]
    omega
  · refine Or.inl ⟨?_, hw⟩
    rw [Time.unixNanos_ofUnix hw hpos.le]

/-- A blind spot is never within the tolerance. -/
theorem Blind.lt_abs {now : Time} {timestamp tolerance : Int64} (h : Blind now timestamp tolerance)
    (hpos : 0 < timestamp.toInt) :
    tolerance.toInt < |now.unixNanos - timestamp.toInt * 10 ^ 9| := by
  have hmax := Int64.toInt_lt tolerance
  have hd := sub_ofUnix_nanos now hpos
  unfold Blind at h
  dsimp only at h
  generalize now.unixNanos - (Time.ofUnix timestamp).unixNanos = d at h hd
  generalize now.unixNanos - timestamp.toInt * 10 ^ 9 = e at h hd ⊢
  rcases h with h | ⟨-, -, h⟩ | ⟨hw, h⟩
  · rcases hd with ⟨hd, -⟩ | ⟨hd, -⟩
    · exact lt_of_lt_of_le (by omega : tolerance.toInt < -e) (neg_le_abs e)
    · exact lt_of_lt_of_le (by omega : tolerance.toInt < -e) (neg_le_abs e)
  · exact h
  · rcases hd with ⟨-, hw'⟩ | ⟨hd, -⟩
    · exact absurd hw hw'
    · have hle := (abs_le.mp h).2
      exact lt_of_lt_of_le (by omega : tolerance.toInt < -e) (neg_le_abs e)

/-- `VerifyHeader` keeps its promise exactly where the skew check is not blind. -/
theorem verifyHeader_sound_iff (mac : Mac) (secret header payload : GoString) (now : Time)
    {tolerance : Int64} (htol : 0 < tolerance) :
    (verifyHeader mac secret header payload now tolerance = none →
        Accepts mac secret header payload now tolerance) ↔
      ∀ timestamp signature, trimSpace secret ≠ [] → parseHeader header = .ok (timestamp, signature) →
        signature = computeSignature mac secret timestamp payload → ¬ Blind now timestamp tolerance := by
  have hpos : 0 < tolerance.toInt := Int64.lt_iff_toInt_lt.mp htol
  rw [verifyHeader_eq_none_iff htol]
  constructor
  · intro h timestamp signature hsecret hp hsig hblind
    have hpass : (absDuration (now.sub (Time.ofUnix timestamp))).toInt ≤ tolerance.toInt := by
      rw [absDuration_sub_le_iff hpos]
      rcases hblind with hlow | ⟨hhigh, htop, -⟩ | ⟨-, hnear⟩
      · exact Or.inl hlow
      · exact Or.inr (Or.inr ⟨hhigh, htop⟩)
      · exact Or.inr (Or.inl hnear)
    obtain ⟨timestamp', signature', hp', -, hle⟩ := h ⟨hsecret, timestamp, signature, hp, hsig, hpass⟩
    rw [hp] at hp'
    cases hp'
    have hlt := hblind.lt_abs (parseHeader_pos hp)
    omega
  · rintro h ⟨hsecret, timestamp, signature, hp, hsig, hpass⟩
    refine ⟨timestamp, signature, hp, hsig, ?_⟩
    have hblind := h timestamp signature hsecret hp hsig
    by_contra hfar
    rw [absDuration_sub_le_iff hpos] at hpass
    rcases hpass with hlow | hnear | ⟨hhigh, htop⟩
    · exact hblind (Or.inl hlow)
    · rcases sub_ofUnix_nanos now (parseHeader_pos hp) with ⟨hd, -⟩ | ⟨-, hw⟩
      · rw [hd] at hnear
        exact hfar hnear
      · exact hblind (Or.inr (Or.inr ⟨hw, hnear⟩))
    · exact hblind (Or.inr (Or.inl ⟨hhigh, htop, not_le.mp hfar⟩))

def sampleHeader : GoString :=
  lit "t=1777000000,v1=2d9c60d89eb83c900ae6960d14eb8bf2d4edd55db6c4bf9fd5a9e1ec1bb3cee7"

theorem sampleHeader_sound :
    verifyHeader Crypto.hmacSha256 (lit "secret") sampleHeader (lit "body") (.ofUnix 1777000060)
        300000000000 = none ∧
      Accepts Crypto.hmacSha256 (lit "secret") sampleHeader (lit "body") (.ofUnix 1777000060)
        300000000000 := by
  have hok : verifyHeader Crypto.hmacSha256 (lit "secret") sampleHeader (lit "body") (.ofUnix 1777000060)
      300000000000 = none := by decide +kernel
  have hparse : parseHeader sampleHeader = .ok (1777000000,
      lit "2d9c60d89eb83c900ae6960d14eb8bf2d4edd55db6c4bf9fd5a9e1ec1bb3cee7") := by decide +kernel
  refine ⟨hok, (verifyHeader_sound_iff _ _ _ _ _ (by decide)).mpr ?_ hok⟩
  intro timestamp signature _ hp _
  rw [hparse] at hp
  cases hp
  decide +kernel

/-- Signed for the year 2318 and presented in 2026, with a tolerance of five minutes. -/
def futureHeader : GoString :=
  lit "t=11000372037,v1=a6045e2823cf28a4ec0910e312909613f328a47b8d07807cc70407ce9e57d920"

theorem futureHeader_accepted :
    ¬ (verifyHeader Crypto.hmacSha256 (lit "secret") futureHeader (lit "body") (.ofUnix 1777000000)
        300000000000 = none →
      Accepts Crypto.hmacSha256 (lit "secret") futureHeader (lit "body") (.ofUnix 1777000000)
        300000000000) := by
  intro h
  have hok : verifyHeader Crypto.hmacSha256 (lit "secret") futureHeader (lit "body") (.ofUnix 1777000000)
      300000000000 = none := by decide +kernel
  have hparse : parseHeader futureHeader = .ok (11000372037,
      lit "a6045e2823cf28a4ec0910e312909613f328a47b8d07807cc70407ce9e57d920") := by decide +kernel
  obtain ⟨timestamp, signature, hp, -, hle⟩ := h hok
  rw [hparse] at hp
  cases hp
  revert hle
  decide +kernel

end SynapseGo.Webhook
