import SynapseGo.Go.Strings
import SynapseGo.Regex.Scan

/-! Package `pii`: the patterns, what replaces their matches, and `RedactString`. The patterns are over
bytes: a rune outside ASCII takes part in a match only where it folds to `s` or `k`. -/
namespace SynapseGo.Pii
open SynapseGo.Go SynapseGo.Regex

def letter (b : UInt8) : Bool := (65 ≤ b && b ≤ 90) || (97 ≤ b && b ≤ 122)

/-- `[0-9A-Za-z_]`. -/
def word (b : UInt8) : Bool := isDigit b || letter b || b == 95

/-- `\s`. -/
def space (b : UInt8) : Bool := b == 32 || b == 9 || b == 10 || b == 12 || b == 13

/-- `[\s\-]`. -/
def spaceOrDash (b : UInt8) : Bool := space b || b == 45

/-- `[_-]`. -/
def lowOrDash (b : UInt8) : Bool := b == 95 || b == 45

abbrev Pattern := Re UInt8

namespace Pattern

def cat : List Pattern → Pattern
  | [] => .eps
  | [r] => r
  | r :: rs => .seq r (cat rs)

/-- `\b`. -/
def wordB : Pattern := .bound word

def one (C : UInt8 → Bool) : Pattern := .rep C 1 (some 1)

def byte (b : UInt8) : Pattern := one (· == b)

def opt (C : UInt8 → Bool) : Pattern := .rep C 0 (some 1)

def times (C : UInt8 → Bool) (n : ℕ) : Pattern := .rep C n (some n)

def between (C : UInt8 → Bool) (lo hi : ℕ) : Pattern := .rep C lo (some hi)

def atLeast (C : UInt8 → Bool) (lo : ℕ) : Pattern := .rep C lo none

/-- A lower-case letter under `(?i)`, with the runes U+017F and U+212A that fold to `s` and `k`. -/
def folded (b : UInt8) : Pattern :=
  if b = 115 then .alt (one fun x => x == 115 || x == 83) (cat [byte 0xC5, byte 0xBF])
  else if b = 107 then .alt (one fun x => x == 107 || x == 75) (cat [byte 0xE2, byte 0x84, byte 0xAA])
  else one fun x => x == b || x == b - 32

end Pattern

open Pattern

def base64 (b : UInt8) : Bool := word b || b == 45

/-- `\beyJ[A-Za-z0-9_\-]{16,}\.[A-Za-z0-9_\-]{16,}\.[A-Za-z0-9_\-]{16,}\b` -/
def jwt : Pattern :=
  cat [wordB, byte 101, byte 121, byte 74, atLeast base64 16, byte 46, atLeast base64 16, byte 46,
    atLeast base64 16, wordB]

/-- `\b(?i:sk|pk|api[_-]?key)[_-][A-Za-z0-9_]{16,}\b` -/
def apiKey : Pattern :=
  cat [wordB,
    .alt (cat [folded 115, folded 107]) (.alt (cat [folded 112, folded 107])
      (cat [folded 97, folded 112, folded 105, opt lowOrDash, folded 107, folded 101, folded 121])),
    one lowOrDash, atLeast word 16, wordB]

/-- `\b\d{4}[\s\-]?\d{4}[\s\-]?\d{4}[\s\-]?\d{1,7}\b` -/
def bankCard : Pattern :=
  cat [wordB, times isDigit 4, opt spaceOrDash, times isDigit 4, opt spaceOrDash, times isDigit 4,
    opt spaceOrDash, between isDigit 1 7, wordB]

/-- `[A-Za-z0-9._%+\-]`. -/
def mailbox (b : UInt8) : Bool := letter b || isDigit b || b == 46 || b == 95 || b == 37 || b == 43 || b == 45

/-- `[A-Za-z0-9.\-]`. -/
def host (b : UInt8) : Bool := letter b || isDigit b || b == 46 || b == 45

/-- `\b[A-Za-z0-9._%+\-]+@[A-Za-z0-9.\-]+\.[A-Za-z]{2,}\b` -/
def email : Pattern :=
  cat [wordB, atLeast mailbox 1, byte 64, atLeast host 1, byte 46, atLeast letter 2, wordB]

/-- `\b(\d{1,3})\.(\d{1,3})\.(\d{1,3})\.(\d{1,3})\b` -/
def ipv4 : Pattern :=
  cat [wordB, between isDigit 1 3, byte 46, between isDigit 1 3, byte 46, between isDigit 1 3, byte 46,
    between isDigit 1 3, wordB]

/-- `(?:\+?7|8)[\s\-\(]?9\d{2}[\s\-\)]?\d{3}[\s\-]?\d{2}[\s\-]?\d{2}` -/
def ruPhone : Pattern :=
  cat [.alt (cat [opt (· == 43), byte 55]) (byte 56), opt (fun b => spaceOrDash b || b == 40), byte 57,
    times isDigit 2, opt (fun b => spaceOrDash b || b == 41), times isDigit 3, opt spaceOrDash,
      times isDigit 2,
    opt spaceOrDash, times isDigit 2]

/-- `\b\d{3}[\-\s]\d{3}[\-\s]\d{3}[\-\s]\d{2}\b` -/
def snils : Pattern :=
  cat [wordB, times isDigit 3, one spaceOrDash, times isDigit 3, one spaceOrDash, times isDigit 3,
    one spaceOrDash, times isDigit 2, wordB]

/-- `\b\d{10,12}\b` -/
def inn : Pattern := cat [wordB, between isDigit 10 12, wordB]

/-- `\b1[3-9]\d{9}\b` -/
def cnPhone : Pattern := cat [wordB, byte 49, one (fun b => 51 ≤ b && b ≤ 57), times isDigit 9, wordB]

/-- `\b\d{17}[\dXx]\b` -/
def cnID : Pattern := cat [wordB, times isDigit 17, one (fun b => isDigit b || b == 88 || b == 120), wordB]

def keepDigits (s : GoString) : GoString := s.filter isDigit

def redactEmail (m : GoString) : GoString :=
  match m.findIdx? (· == 64) with
  | none => lit "[REDACTED:EMAIL]"
  | some 0 => lit "[REDACTED:EMAIL]"
  | some i => m.take 1 ++ lit "***@" ++ m.drop (i + 1)

def redactBankCard (m : GoString) : GoString :=
  let digits := keepDigits m
  if digits.length < 13 ∨ 19 < digits.length then m
  else digits.take 4 ++ lit " **** **** " ++ digits.drop (digits.length - 4)

def redactIPv4 (m : GoString) : GoString :=
  match split m 46 with
  | [a, b, c, d] =>
    if [a, b, c, d].any fun part => part.length < 1 || 3 < part.length || part.any (!isDigit ·) then m
    else a ++ lit "." ++ b ++ lit ".*.*"
  | _ => m

def redactRUPhone (m : GoString) : GoString :=
  let digits := keepDigits m
  if digits.length < 11 then m
  else if digits.head? = some 56 ∧ digits.length = 11 ∨ digits.head? = some 55 ∧ 11 ≤ digits.length then
    lit "+7-" ++ (digits.drop 1).take 3 ++ lit "-***-**-" ++ digits.drop (digits.length - 2)
  else lit "+7-***-***-**-" ++ digits.drop (digits.length - 2)

def redactCNPhone (m : GoString) : GoString :=
  let digits := keepDigits m
  if digits.length ≠ 11 then m
  else digits.take 3 ++ lit "****" ++ digits.drop (digits.length - 4)

def redactINNCandidate (m : GoString) : GoString :=
  if m.length = 10 ∨ m.length = 12 then lit "[REDACTED:INN]" else m

structure Rule where
  pattern : Pattern
  apply : GoString → GoString

def jwtRule : Rule := ⟨jwt, fun _ => lit "[REDACTED:JWT]"⟩
def apiKeyRule : Rule := ⟨apiKey, fun _ => lit "[REDACTED:APIKEY]"⟩
def bankCardRule : Rule := ⟨bankCard, redactBankCard⟩
def emailRule : Rule := ⟨email, redactEmail⟩
def ipv4Rule : Rule := ⟨ipv4, redactIPv4⟩
def ruPhoneRule : Rule := ⟨ruPhone, redactRUPhone⟩
def snilsRule : Rule := ⟨snils, fun _ => lit "[REDACTED:SNILS]"⟩
def innRule : Rule := ⟨inn, redactINNCandidate⟩
def cnPhoneRule : Rule := ⟨cnPhone, redactCNPhone⟩
def cnIDRule : Rule := ⟨cnID, fun _ => lit "[REDACTED:CN_ID]"⟩

def universalRules : List Rule := [jwtRule, apiKeyRule, bankCardRule, emailRule, ipv4Rule]

def ruRules : List Rule := [ruPhoneRule, snilsRule, innRule]

def cnRules : List Rule := [cnPhoneRule, cnIDRule]

def applyRule (s : GoString) (rl : Rule) : GoString := rl.pattern.replaceAll rl.apply s

/-- The jurisdiction a hint names: its lower-case text up to the first `_` or `-` that is not its first
byte. -/
def jurisdiction (U : CaseTables) (languageOrJurisdiction : GoString) : GoString :=
  let hint := toLower U (trimSpace languageOrJurisdiction)
  match hint.findIdx? lowOrDash with
  | some (idx + 1) => hint.take (idx + 1)
  | _ => hint

/-- The rules that run before the universal ones; empty and unknown hints run all of them. -/
def jurisdictionRules (U : CaseTables) (languageOrJurisdiction : GoString) : List Rule :=
  let hint := jurisdiction U languageOrJurisdiction
  if hint = lit "ru" then ruRules
  else if hint = lit "cn" then cnRules
  else if hint = lit "en" then []
  else ruRules ++ cnRules

def redactString (U : CaseTables) (languageOrJurisdiction s : GoString) : GoString :=
  if s = [] then s
  else universalRules.foldl applyRule ((jurisdictionRules U languageOrJurisdiction).foldl applyRule s)

theorem foldl_universalRules (s : GoString) : universalRules.foldl applyRule s =
    applyRule (applyRule (applyRule (applyRule (applyRule s jwtRule) apiKeyRule) bankCardRule) emailRule)
      ipv4Rule := by
  simp only [universalRules, List.foldl_cons, List.foldl_nil]

end SynapseGo.Pii
