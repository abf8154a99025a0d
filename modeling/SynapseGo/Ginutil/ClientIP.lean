import Mathlib.Data.List.Basic
import SynapseGo.Go.Strings

/-! `ginutil.ClientIP`: the client's address out of the proxy headers. -/
namespace SynapseGo.Ginutil
open Go

/-- The fold class of a rune, by its lower-case ASCII letter if it has one: besides the ASCII letters, the
Kelvin sign folds to `k` and the long s to `s`. -/
def foldRune (r : ℕ) : ℕ :=
  if 0x41 ≤ r ∧ r ≤ 0x5A then r + 0x20 else if r = 0x212A then 0x6B else if r = 0x17F then 0x73 else r

/-- `strings.EqualFold(s, t)` for an ASCII text `t`. -/
def equalFold (s t : GoString) : Bool := (runes s).map foldRune = (runes t).map foldRune

/-- The host of `net.SplitHostPort`, or `none` for its errors. -/
def splitHostPort (hostport : GoString) : Option GoString := do
  let i := hostport.length - 1 - (← hostport.reverse.findIdx? (· = 0x3A))
  if hostport.head? = some 0x5B then
    -- The first `]` has to stand just before the last colon.
    let stop ← hostport.findIdx? (· = 0x5D)
    if stop + 1 ≠ i ∨ 0x5B ∈ hostport.drop 1 ∨ 0x5D ∈ hostport.drop (stop + 1) then none
    else some ((hostport.take stop).drop 1)
  else
    let host := hostport.take i
    if 0x3A ∈ host ∨ 0x5B ∈ hostport ∨ 0x5D ∈ hostport then none else some host

/-- `net.ParseIP` and `IP.IsPrivate` over addresses of type `α`. No address is written as the empty text
or as any spelling of "unknown". -/
structure Addresses (α : Type) where
  parseIP : GoString → Option α
  isPrivate : α → Bool
  parseIP_nil : parseIP [] = none
  parseIP_unknown : ∀ s, equalFold s (lit "unknown") = true → parseIP s = none

/-- What `ClientIP` reads of a request. -/
structure Request where
  header : GoString → GoString
  remoteAddr : GoString

def ipHeaders : List GoString :=
  [lit "X-Forwarded-For", lit "X-Real-IP", lit "Proxy-Client-IP", lit "WL-Proxy-Client-IP"]

section ClientIP
variable {α : Type} (net : Addresses α)

/-- The inner loop: the first address in one header value. -/
def firstIP : List GoString → Option GoString
  | [] => none
  | ip :: rest =>
    let ip := trimSpace ip
    if ip = [] ∨ equalFold ip (lit "unknown") = true then firstIP rest
    else if (net.parseIP ip).isSome then some ip
    else firstIP rest

/-- The outer loop: the first address in any of the headers. -/
def firstHeaderIP (req : Request) : List GoString → Option GoString
  | [] => none
  | header :: rest =>
    let val := req.header header
    if val = [] then firstHeaderIP req rest
    else
      match firstIP net (split val 0x2C) with
      | some ip => some ip
      | none => firstHeaderIP req rest

def clientIP (req : Request) : GoString :=
  match firstHeaderIP net req ipHeaders with
  | some ip => ip
  | none => (splitHostPort req.remoteAddr).getD req.remoteAddr

/-- The trimmed elements of the given headers, in header order and from left to right. -/
def elements (req : Request) (headers : List GoString) : List GoString :=
  headers.flatMap fun header => (split (req.header header) 0x2C).map trimSpace

/-- The element is an address that is not private. -/
def isPublic (e : GoString) : Bool := (net.parseIP e).any fun ip => !net.isPrivate ip

theorem firstIP_eq (l : List GoString) :
    firstIP net l = (l.map trimSpace).find? fun e => (net.parseIP e).isSome := by
  induction l with
  | nil => rfl
  | cons ip rest ih =>
    rw [List.map_cons, List.find?_cons]
    unfold firstIP
    dsimp only
    split_ifs with hskip hparse
    · have hnone : net.parseIP (trimSpace ip) = none := by
        rcases hskip with hnil | hunknown
        · rw [hnil]
          exact net.parseIP_nil
        · exact net.parseIP_unknown _ hunknown
      rw [hnone, ih]
      rfl
    · rw [hparse]
    · rw [Bool.eq_false_iff.mpr hparse, ih]

theorem firstHeaderIP_eq (req : Request) (headers : List GoString) :
    firstHeaderIP net req headers = (elements req headers).find? fun e => (net.parseIP e).isSome := by
  induction headers with
  | nil => rfl
  | cons header rest ih =>
    rw [elements, List.flatMap_cons, List.find?_append, ← firstIP_eq]
    unfold firstHeaderIP
    dsimp only
    split_ifs with hval
    · -- An empty value has one empty element, which is no address.
      have hempty : firstIP net (split [] 0x2C) = none := by
        have hsplit : (split [] 0x2C).map trimSpace = [[]] := by decide
        rw [firstIP_eq, hsplit]
        simp [net.parseIP_nil]
      rw [hval, hempty, ih]
      rfl
    · rw [← elements, ← ih]
      cases firstIP net (split (req.header header) 0x2C) <;> rfl

/-- The result is the first address of all elements, private or not. -/
theorem clientIP_eq (req : Request) : clientIP net req =
    ((elements req ipHeaders).find? fun e => (net.parseIP e).isSome).getD
      ((splitHostPort req.remoteAddr).getD req.remoteAddr) := by
  rw [clientIP, firstHeaderIP_eq]
  cases (elements req ipHeaders).find? fun e => (net.parseIP e).isSome <;> rfl

theorem isSome_of_isPublic {e : GoString} (h : isPublic net e = true) : (net.parseIP e).isSome = true := by
  unfold isPublic at h
  cases hparse : net.parseIP e with
  | none =>
    rw [hparse] at h
    cases h
  | some ip => rfl

/-- A public address is found exactly when no private one stands before it. -/
theorem clientIP_firstPublic_iff (req : Request) :
    (∀ e, (elements req ipHeaders).find? (isPublic net) = some e → clientIP net req = e) ↔
      ∀ before e after, elements req ipHeaders = before ++ e :: after → isPublic net e = true →
        (∀ x ∈ before, isPublic net x = false) → ∀ x ∈ before, net.parseIP x = none := by
  rw [clientIP_eq]
  constructor
  · intro h before e after hsplit he hbefore x hx
    have hfirst : (elements req ipHeaders).find? (isPublic net) = some e := by
      rw [List.find?_eq_some_iff_append]
      exact ⟨he, before, after, hsplit, fun y hy => by rw [hbefore y hy]; rfl⟩
    have hclient := h e hfirst
    cases hfind : before.find? fun e => (net.parseIP e).isSome with
    | none =>
      have hnot := List.find?_eq_none.mp hfind x hx
      simpa using hnot
    | some y =>
      rw [hsplit, List.find?_append, hfind] at hclient
      have hy : y = e := hclient
      have hmem := List.mem_of_find?_eq_some hfind
      rw [hy] at hmem
      rw [hbefore e hmem] at he
      cases he
  · intro h e hfirst
    obtain ⟨he, before, after, hsplit, hbefore⟩ := List.find?_eq_some_iff_append.mp hfirst
    have hnone : ∀ x ∈ before, net.parseIP x = none :=
      h before e after hsplit he fun x hx => by simpa using hbefore x hx
    have hparse := isSome_of_isPublic net he
    have hfind : (elements req ipHeaders).find? (fun e => (net.parseIP e).isSome) = some e := by
      rw [List.find?_eq_some_iff_append]
      exact ⟨hparse, before, after, hsplit, fun x hx => by rw [hnone x hx]; rfl⟩
    rw [hfind]
    rfl

end ClientIP

/-- Two addresses, one private and one public, as the texts that stand for them. -/
def twoAddresses : Addresses GoString where
  parseIP s := if s = lit "10.0.0.1" ∨ s = lit "203.0.113.5" then some s else none
  isPrivate s := s = lit "10.0.0.1"
  parseIP_nil := by decide
  parseIP_unknown := by
    intro s hs
    split_ifs with h
    · rcases h with rfl | rfl
      · revert hs
        decide +kernel
      · revert hs
        decide +kernel
    · rfl

/-- The nearest proxy lists itself first, and its private address is taken for the client's. -/
theorem private_first_returned :
    let req : Request :=
      ⟨fun h => if h = lit "X-Forwarded-For" then lit "10.0.0.1, 203.0.113.5" else [], lit "192.0.2.1:443"⟩
    (elements req ipHeaders).find? (isPublic twoAddresses) = some (lit "203.0.113.5") ∧
      clientIP twoAddresses req = lit "10.0.0.1" := by
  decide +kernel

end SynapseGo.Ginutil
