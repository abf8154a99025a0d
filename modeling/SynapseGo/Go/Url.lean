import SynapseGo.Go.Segments
import SynapseGo.Go.Strconv
import Mathlib.Data.List.TakeWhile

/-! The part of `net/url` that decides the escaped path of a reference. -/
namespace SynapseGo.Go

/-- `shouldEscape` for a path. -/
def shouldEscape (b : UInt8) : Bool :=
  !(0x61 ≤ b && b ≤ 0x7A || 0x41 ≤ b && b ≤ 0x5A || 0x30 ≤ b && b ≤ 0x39 ||
    [0x2D, 0x5F, 0x2E, 0x7E, 0x24, 0x26, 0x2B, 0x2C, 0x2F, 0x3A, 0x3B, 0x3D, 0x40].elem b)

/-- What `validEncoded` allows beside the bytes that are never escaped. -/
def allowedEncoded (b : UInt8) : Bool :=
  [0x21, 0x24, 0x26, 0x27, 0x28, 0x29, 0x2A, 0x2B, 0x2C, 0x3B, 0x3D, 0x3A, 0x40, 0x5B, 0x5D, 0x25].elem b ||
    !shouldEscape b

/-- `validEncoded` for a path. -/
def validEncoded (s : GoString) : Bool := s.all allowedEncoded

private def upperHex (n : ℕ) : UInt8 := (if n < 10 then 0x30 + n else 0x37 + n).toUInt8

private def escapeByte (b : UInt8) : GoString :=
  if shouldEscape b then [0x25, upperHex (b.toNat / 16), upperHex (b.toNat % 16)] else [b]

/-- `escape` for a path. -/
def escape (s : GoString) : GoString := s.flatMap escapeByte

/-- `unescape` for a path or a fragment, `none` where an escape is malformed. -/
def unescape : GoString → Option GoString
  | [] => some []
  | c :: s =>
    if c = 0x25 then
      match s with
      | a :: b :: s => do
        let x ← hexValue a
        let y ← hexValue b
        let rest ← unescape s
        some ((16 * x + y).toUInt8 :: rest)
      | _ => none
    else (unescape s).map (c :: ·)

/-- `url.URL`, as far as `EscapedPath` reads it. -/
structure URL where
  path : GoString
  rawPath : GoString
  deriving DecidableEq, Repr

/-- `URL.EscapedPath`. -/
def URL.escapedPath (u : URL) : GoString :=
  if u.rawPath ≠ [] && validEncoded u.rawPath && unescape u.rawPath = some u.path then u.rawPath
  else if u.path = [0x2A] then [0x2A]
  else escape u.path

/-- `URL.setPath`, on a URL without a path. -/
def setPath (p : GoString) : Option URL :=
  (unescape p).map fun path => ⟨path, if p = escape path then [] else p⟩

/-- The loop of `getScheme`, with the bytes `seen` behind it. -/
private def schemeLoop (rawURL : GoString) : GoString → GoString → Option (GoString × GoString)
  | _, [] => some ([], rawURL)
  | seen, c :: s =>
    if 0x61 ≤ c ∧ c ≤ 0x7A ∨ 0x41 ≤ c ∧ c ≤ 0x5A then schemeLoop rawURL (seen ++ [c]) s
    else if 0x30 ≤ c ∧ c ≤ 0x39 ∨ c = 0x2B ∨ c = 0x2D ∨ c = 0x2E then
      if seen = [] then some ([], rawURL) else schemeLoop rawURL (seen ++ [c]) s
    else if c = 0x3A then
      if seen = [] then none else some (seen, s)
    else some ([], rawURL)

/-- `getScheme`: the scheme and what follows its colon, `none` for a colon at the start. -/
def getScheme (rawURL : GoString) : Option (GoString × GoString) := schemeLoop rawURL [] rawURL

section
-- which authorities `parseAuthority` accepts, by scheme
variable (authority : GoString → GoString → Bool)

/-- `url.parse` behind the scheme and before the query. -/
def parseRest (scheme rest : GoString) : Option URL :=
  -- a rootless path behind a scheme is kept apart from the path
  if !hasPrefix rest [0x2F] && scheme ≠ [] then some ⟨[], []⟩
  else if !hasPrefix rest [0x2F] && (rest.takeWhile (· ≠ 0x2F)).elem 0x3A then none
  else if (scheme ≠ [] || !hasPrefix rest [0x2F, 0x2F, 0x2F]) && hasPrefix rest [0x2F, 0x2F] then
    if authority scheme ((rest.drop 2).takeWhile (· ≠ 0x2F)) then setPath ((rest.drop 2).dropWhile (· ≠ 0x2F))
    else none
  else setPath rest

/-- `url.parse`, for a reference. -/
def parseReference (rawURL : GoString) : Option URL :=
  if rawURL.any fun b => b < 0x20 || b = 0x7F then none
  else if rawURL = [0x2A] then some ⟨[0x2A], []⟩
  else (getScheme rawURL).bind fun r => parseRest authority r.1 (r.2.takeWhile (· ≠ 0x3F))

/-- `url.Parse`. -/
def parseURL (rawURL : GoString) : Option URL :=
  (parseReference authority (rawURL.takeWhile (· ≠ 0x23))).bind fun url =>
    if (rawURL.dropWhile (· ≠ 0x23)).drop 1 = [] then some url
    else (unescape ((rawURL.dropWhile (· ≠ 0x23)).drop 1)).map fun _ => url

end

private theorem hexValue_upperHex : ∀ n < 16, hexValue (upperHex n) = some n := by decide

private theorem allowed_upperHex : ∀ n < 16, allowedEncoded (upperHex n) = true := by decide

theorem unescape_cons {c : UInt8} (hc : c ≠ 0x25) (s : GoString) :
    unescape (c :: s) = (unescape s).map (c :: ·) := by
  conv_lhs => unfold unescape
  rw [if_neg hc]

theorem unescape_escape (s : GoString) : unescape (escape s) = some s := by
  induction s with
  | nil => rfl
  | cons b s ih =>
    have hstep : escape (b :: s) = escapeByte b ++ escape s := rfl
    rw [hstep, escapeByte]
    split_ifs with hb
    · have hlt := b.toNat_lt
      have hhigh := hexValue_upperHex (b.toNat / 16) (by omega)
      have hlow := hexValue_upperHex (b.toNat % 16) (by omega)
      have hvalue : (16 * (b.toNat / 16) + b.toNat % 16).toUInt8 = b := by
        rw [Nat.div_add_mod]
        exact UInt8.ofNat_toNat
      simp only [List.cons_append, List.nil_append, unescape, if_true, hhigh, hlow, ih, Option.bind_eq_bind,
        Option.bind_some, hvalue]
    · have hne : b ≠ 0x25 := by
        rintro rfl
        exact hb (by decide)
      rw [List.singleton_append, unescape_cons hne, ih]
      rfl

theorem validEncoded_escape (s : GoString) : validEncoded (escape s) = true := by
  induction s with
  | nil => rfl
  | cons b s ih =>
    have hstep : escape (b :: s) = escapeByte b ++ escape s := rfl
    rw [hstep, validEncoded, List.all_append, Bool.and_eq_true]
    refine ⟨?_, ih⟩
    rw [escapeByte]
    split_ifs with hb
    · have hlt := b.toNat_lt
      have hhigh := allowed_upperHex (b.toNat / 16) (by omega)
      have hlow := allowed_upperHex (b.toNat % 16) (by omega)
      have hpercent : allowedEncoded 0x25 = true := by decide
      simp only [List.all_cons, List.all_nil, hhigh, hlow, hpercent, Bool.and_self]
    · simp only [List.all_cons, List.all_nil, allowedEncoded, hb, Bool.not_false, Bool.or_true, Bool.and_self]

/-- An escaped path is well formed and stands for the path. -/
theorem URL.escapedPath_spec (u : URL) :
    validEncoded u.escapedPath = true ∧ unescape u.escapedPath = some u.path := by
  unfold URL.escapedPath
  split_ifs with hraw hstar
  · simp only [Bool.and_eq_true, decide_eq_true_eq] at hraw
    exact ⟨hraw.1.2, hraw.2⟩
  · rw [hstar]
    exact ⟨by decide, by decide⟩
  · exact ⟨validEncoded_escape u.path, unescape_escape u.path⟩

private theorem unescape_percent {s q : GoString} (h : unescape (0x25 :: s) = some q) :
    ∃ x y t r, s = x :: y :: t ∧ hexValue x ≠ none ∧ hexValue y ≠ none ∧ unescape t = some r := by
  cases s with
  | nil => cases h
  | cons x s =>
    cases s with
    | nil => cases h
    | cons y t =>
      have hstep : unescape (0x25 :: x :: y :: t) = (hexValue x).bind fun v => (hexValue y).bind fun w =>
          (unescape t).bind fun r => some ((16 * v + w).toUInt8 :: r) := rfl
      rw [hstep] at h
      obtain ⟨v, hv, h⟩ := Option.bind_eq_some_iff.mp h
      obtain ⟨w, hw, h⟩ := Option.bind_eq_some_iff.mp h
      obtain ⟨r, hr, -⟩ := Option.bind_eq_some_iff.mp h
      exact ⟨x, y, t, r, rfl, by simp [hv], by simp [hw], hr⟩

private theorem hexValue_slash : hexValue 0x2F = none := by decide

/-- No escape reaches over a slash. -/
theorem unescape_append_slash {a b q : GoString} (h : unescape (a ++ 0x2F :: b) = some q) :
    ∃ r, unescape (0x2F :: b) = some r := by
  induction hn : a.length using Nat.strongRecOn generalizing a q with
  | ind n ih =>
    cases a with
    | nil => exact ⟨q, h⟩
    | cons c a =>
      by_cases hc : c = 0x25
      · subst hc
        cases a with
        | nil =>
          obtain ⟨x, y, t, r, hs, hx, -⟩ := unescape_percent h
          cases hs
          exact absurd hexValue_slash hx
        | cons x a =>
          cases a with
          | nil =>
            obtain ⟨x', y, t, r, hs, -, hy, -⟩ := unescape_percent h
            cases hs
            exact absurd hexValue_slash hy
          | cons y a =>
            obtain ⟨x', y', t, r, hs, -, -, ht⟩ := unescape_percent h
            cases hs
            have hshort : a.length < n := by
              rw [← hn, List.length_cons, List.length_cons, List.length_cons]
              omega
            exact ih a.length hshort ht rfl
      · rw [List.cons_append, unescape_cons hc] at h
        obtain ⟨r, hr, -⟩ := Option.map_eq_some_iff.mp h
        exact ih a.length (by simp [← hn]) hr rfl

/-- A rooted path keeps its root, and its form if that is well formed. -/
theorem setPath_rooted {p : GoString} {u : URL} (h : setPath (0x2F :: p) = some u) :
    (∃ e, u.escapedPath = 0x2F :: e) ∧ (validEncoded (0x2F :: p) = true → u.escapedPath = 0x2F :: p) := by
  obtain ⟨path, hpath, rfl⟩ := Option.map_eq_some_iff.mp h
  obtain ⟨q, -, rfl⟩ : ∃ q, unescape p = some q ∧ 0x2F :: q = path := by
    rw [unescape_cons (by decide)] at hpath
    exact Option.map_eq_some_iff.mp hpath
  have hroot : escape (0x2F :: q) = 0x2F :: escape q := rfl
  have hstar : (0x2F :: q : GoString) ≠ [0x2A] := by simp
  unfold URL.escapedPath
  dsimp only
  rw [if_neg hstar]
  by_cases hdefault : 0x2F :: p = escape (0x2F :: q)
  · rw [if_pos hdefault]
    exact ⟨⟨escape q, rfl⟩, fun _ => hdefault.symm⟩
  · rw [if_neg hdefault, hpath]
    split_ifs with hraw
    · exact ⟨⟨p, rfl⟩, fun _ => rfl⟩
    · refine ⟨⟨escape q, rfl⟩, fun hvalid => absurd ?_ hraw⟩
      simp [hvalid]

/-- Escaped text is one graphic word, with no query and no fragment. -/
theorem allowedEncoded_spec {b : UInt8} (h : allowedEncoded b = true) :
    graphic b = true ∧ b ≠ 0x23 ∧ b ≠ 0x3F := by
  have hall : (List.range 256).all (fun n =>
      !allowedEncoded n.toUInt8 || (graphic n.toUInt8 && n.toUInt8 != 0x23 && n.toUInt8 != 0x3F)) = true := by
    decide +kernel
  have hb := List.all_eq_true.mp hall b.toNat (List.mem_range.mpr b.toNat_lt)
  have hback : b.toNat.toUInt8 = b := UInt8.ofNat_toNat
  rw [hback, h] at hb
  simpa [and_assoc] using hb

theorem validEncoded_iff {s : GoString} : validEncoded s = true ↔ ∀ b ∈ s, allowedEncoded b = true :=
  List.all_eq_true

theorem graphic_of_mem_encoded {s : GoString} (hs : validEncoded s = true) :
    ∀ b ∈ s, graphic b = true ∧ b ≠ 0x23 ∧ b ≠ 0x3F := by
  intro b hb
  exact allowedEncoded_spec (validEncoded_iff.mp hs b hb)

private theorem takeWhile_eq_self {s : GoString} {sep : UInt8} (h : ∀ b ∈ s, b ≠ sep) :
    s.takeWhile (· ≠ sep) = s := by
  rw [List.takeWhile_eq_self_iff]
  simpa using h

private theorem dropWhile_eq_nil {s : GoString} {sep : UInt8} (h : ∀ b ∈ s, b ≠ sep) :
    s.dropWhile (· ≠ sep) = [] := by
  rw [List.dropWhile_eq_nil_iff]
  simpa using h

theorem getScheme_rooted (s : GoString) : getScheme (0x2F :: s) = some ([], 0x2F :: s) := rfl

section
variable (authority : GoString → GoString → Bool)

private theorem parseReference_rooted {s : GoString} {u : URL}
    (h : parseReference authority (0x2F :: s) = some u) :
    parseRest authority [] (0x2F :: s.takeWhile (· ≠ 0x3F)) = some u := by
  unfold parseReference at h
  split_ifs at h with hctl hstar
  · cases hstar
  · exact h

theorem parseRest_single {s : GoString} (hs : hasPrefix s [0x2F] = false) :
    parseRest authority [] (0x2F :: s) = setPath (0x2F :: s) := by
  have hroot : hasPrefix (0x2F :: s) [0x2F] = true := rfl
  have hdouble : hasPrefix (0x2F :: s) [0x2F, 0x2F] = false := hs
  simp [parseRest, hroot, hdouble]

theorem parseRest_triple (s : GoString) :
    parseRest authority [] (0x2F :: 0x2F :: 0x2F :: s) = setPath (0x2F :: 0x2F :: 0x2F :: s) := rfl

theorem parseRest_double {host rest : GoString} (hhost : 0x2F ∉ host)
    (hrest : rest = [] ∨ ∃ r, rest = 0x2F :: r)
    (hone : host ≠ [] ∨ rest = []) : parseRest authority [] (0x2F :: 0x2F :: (host ++ rest)) =
      if authority [] host then setPath rest else none := by
  have hroot : hasPrefix (0x2F :: 0x2F :: (host ++ rest)) [0x2F] = true := rfl
  have hdouble : hasPrefix (0x2F :: 0x2F :: (host ++ rest)) [0x2F, 0x2F] = true := rfl
  have htriple : hasPrefix (0x2F :: 0x2F :: (host ++ rest)) [0x2F, 0x2F, 0x2F] = false := by
    cases host with
    | nil =>
      rw [hone.resolve_left (fun h => h rfl)]
      rfl
    | cons c host =>
      have hc : (0x2F : UInt8) ≠ c := List.ne_of_not_mem_cons hhost
      rw [Bool.eq_false_iff, ne_eq, hasPrefix_iff]
      simp [List.cons_prefix_cons, hc]
  have hkept : ∀ b ∈ host, decide (b ≠ 0x2F) = true := by
    intro b hb
    exact decide_eq_true (ne_of_mem_of_not_mem hb hhost)
  have htake : (host ++ rest).takeWhile (· ≠ 0x2F) = host := by
    rw [List.takeWhile_append_of_pos hkept]
    rcases hrest with rfl | ⟨r, rfl⟩
    · simp
    · simp
  have hdrop : (host ++ rest).dropWhile (· ≠ 0x2F) = rest := by
    rw [List.dropWhile_append_of_pos hkept]
    rcases hrest with rfl | ⟨r, rfl⟩
    · rfl
    · simp
  have hbehind : (0x2F :: 0x2F :: (host ++ rest)).drop 2 = host ++ rest := rfl
  unfold parseRest
  rw [hbehind, htake, hdrop, hroot, hdouble, htriple]
  rfl

/-- A path that begins with one slash is not taken for a host. -/
theorem parseURL_single {s : GoString} {u : URL} (hs : hasPrefix s [0x2F] = false)
    (h : parseURL authority (0x2F :: s) = some u) :
    ∃ p, setPath (0x2F :: p) = some u ∧ (validEncoded (0x2F :: s) = true → p = s) := by
  have htake : (0x2F :: s).takeWhile (· ≠ 0x23) = 0x2F :: s.takeWhile (· ≠ 0x23) := rfl
  obtain ⟨u', hparse, hfragment⟩ := Option.bind_eq_some_iff.mp h
  have hu : u' = u := by
    split_ifs at hfragment
    · exact Option.some.inj hfragment
    · obtain ⟨-, -, hu⟩ := Option.map_eq_some_iff.mp hfragment
      exact hu
  rw [htake, hu] at hparse
  have hsingle : hasPrefix ((s.takeWhile (· ≠ 0x23)).takeWhile (· ≠ 0x3F)) [0x2F] = false := by
    rw [Bool.eq_false_iff, ne_eq, hasPrefix_iff] at hs ⊢
    intro hslash
    exact hs ((hslash.trans (List.takeWhile_prefix _)).trans (List.takeWhile_prefix _))
  refine ⟨(s.takeWhile (· ≠ 0x23)).takeWhile (· ≠ 0x3F), ?_, ?_⟩
  · rw [← parseRest_single authority hsingle]
    exact parseReference_rooted authority hparse
  · intro hvalid
    have hbytes := List.forall_mem_of_forall_mem_cons (graphic_of_mem_encoded hvalid)
    rw [takeWhile_eq_self (fun b hb => (hbytes b hb).2.1), takeWhile_eq_self (fun b hb => (hbytes b hb).2.2)]

theorem parseURL_encoded {s : GoString} (hs : validEncoded (0x2F :: s) = true) :
    parseURL authority (0x2F :: s) = parseRest authority [] (0x2F :: s) := by
  have hbytes := graphic_of_mem_encoded hs
  have hctl : ((0x2F :: s).any fun b => b < 0x20 || b = 0x7F) = false := by
    rw [List.any_eq_false]
    intro b hb
    have hgraphic := (hbytes b hb).1
    simp only [graphic, Bool.and_eq_true, decide_eq_true_eq, UInt8.le_iff_toNat_le, UInt8.lt_iff_toNat_lt]
      at hgraphic
    simp only [Bool.or_eq_true, decide_eq_true_eq, UInt8.lt_iff_toNat_lt, ← UInt8.toNat_inj,
      UInt8.reduceToNat] at hgraphic ⊢
    omega
  have hfirst : (0x2F :: s).takeWhile (· ≠ 0x23) = 0x2F :: s :=
    takeWhile_eq_self fun b hb => (hbytes b hb).2.1
  have hfragment : (0x2F :: s).dropWhile (· ≠ 0x23) = [] := dropWhile_eq_nil fun b hb => (hbytes b hb).2.1
  have hquery : (0x2F :: s).takeWhile (· ≠ 0x3F) = 0x2F :: s :=
    takeWhile_eq_self fun b hb => (hbytes b hb).2.2
  have hstar : (0x2F :: s : GoString) ≠ [0x2A] := by simp
  rw [parseURL, hfirst, hfragment, List.drop_nil, parseReference, hctl, if_neg hstar, getScheme_rooted]
  simp only [Option.bind_some, hquery, Bool.false_eq_true, if_false, if_true, Option.bind_fun_some]

end

end SynapseGo.Go
