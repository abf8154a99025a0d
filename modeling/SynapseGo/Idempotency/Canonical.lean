import SynapseGo.Idempotency.RequestScope

/-! When normalizing a scope twice is normalizing it once. Tenant, principal, method and key always
are what they were; the path is read as a reference again, and may now be read in another way. -/
namespace SynapseGo.Idempotency
open SynapseGo.Go

section
variable (authority : GoString → GoString → Bool)

/-- The escaped path a text has as a reference, and nothing for a text that is none. -/
def escapedPathOf (path : GoString) : GoString := ((parseURL authority path).map URL.escapedPath).getD []

/-- A path that would itself be read as a host and a path on it. -/
def NamesHost (path : GoString) : Prop :=
  ∃ host rest, path = 0x2F :: 0x2F :: (host ++ 0x2F :: rest) ∧ host ≠ [] ∧ 0x2F ∉ host ∧
    authority [] host = true

/-- What a trimmed path has to be for its normal form to be read as itself. A text without a path of
its own, such as a query, is only kept if it has its root, is escaped already, or is no reference
behind a slash either. -/
def Canonical (path : GoString) : Prop :=
  if escapedPathOf authority path = [] then
    hasPrefix path [0x2F] = true ∨ validEncoded path = true ∨ parseURL authority (0x2F :: path) = none
  else ¬ NamesHost authority (escapedPathOf authority path)

private def rooted (path : GoString) : GoString := if hasPrefix path [0x2F] then path else 0x2F :: path

theorem escapedPathOf_of_some {path : GoString} {u : URL} (h : parseURL authority path = some u) :
    escapedPathOf authority path = u.escapedPath := by
  rw [escapedPathOf, h]
  rfl

theorem escapedPathOf_of_none {path : GoString} (h : parseURL authority path = none) :
    escapedPathOf authority path = [] := by
  rw [escapedPathOf, h]
  rfl

private theorem normalizePath_eq {path : GoString} (hne : trimSpace path ≠ []) :
    normalizePath authority path =
    rooted (if escapedPathOf authority (trimSpace path) = [] then trimSpace path
      else escapedPathOf authority (trimSpace path)) := by
  unfold normalizePath
  dsimp only
  rw [if_neg hne]
  cases h : parseURL authority (trimSpace path) with
  | none =>
    rw [escapedPathOf_of_none authority h]
    rfl
  | some u =>
    rw [escapedPathOf_of_some authority h]
    by_cases hu : u.escapedPath = []
    · simp [rooted, hu]
    · simp [rooted, hu]

private theorem normalizePath_of_nil {path : GoString} (htrim : trimSpace path = path) (hne : path ≠ [])
    (hescaped : escapedPathOf authority path = []) : normalizePath authority path = rooted path := by
  rw [normalizePath_eq authority (by rw [htrim]; exact hne), htrim, if_pos hescaped]

private theorem normalizePath_of_ne_nil {path : GoString} (htrim : trimSpace path = path) (hne : path ≠ [])
    (hescaped : escapedPathOf authority path ≠ []) :
    normalizePath authority path = rooted (escapedPathOf authority path) := by
  rw [normalizePath_eq authority (by rw [htrim]; exact hne), htrim, if_neg hescaped]

private theorem rooted_cons (s : GoString) : rooted (0x2F :: s) = 0x2F :: s := rfl

/-- Escaped text has no white space to trim. -/
private theorem trimSpace_encoded {s : GoString} (hs : validEncoded (0x2F :: s) = true) :
    trimSpace (0x2F :: s) = 0x2F :: s := by
  have hne : (0x2F :: s : GoString) ≠ [] := List.cons_ne_nil _ _
  have hlast := graphic_of_mem_encoded hs _ (List.getLast_mem hne)
  exact trimSpace_eq_self List.head?_cons (List.getLast?_eq_some_getLast hne) (by decide) hlast.1

/-- A root in front does not bring back white space. -/
private theorem trimSpace_rooted {s : GoString} (hs : trimSpace s = s) :
    trimSpace (0x2F :: s) = 0x2F :: s := by
  have hends := (trimSpace_spec s).2
  rw [hs] at hends
  have hslash : ∀ p ∈ spaces, ¬ p <+: 0x2F :: s := not_space_prefix_cons (by decide) s
  apply trimSpace_of_ends hslash
  intro p hp hsuf
  rcases List.suffix_cons_iff.mp hsuf with heq | hsuf
  · exact hslash p hp (by rw [heq])
  · exact hends.2 p hp hsuf

private theorem not_namesHost_single {s : GoString} (hs : hasPrefix s [0x2F] = false) :
    ¬ NamesHost authority (0x2F :: s) := by
  rintro ⟨host, rest, heq, -⟩
  rw [(List.cons.inj heq).2] at hs
  cases hs

private theorem not_namesHost_triple (s : GoString) : ¬ NamesHost authority (0x2F :: 0x2F :: 0x2F :: s) := by
  rintro ⟨host, rest, heq, hne, hhost, -⟩
  cases host with
  | nil => exact hne rfl
  | cons c host =>
    have hc : (0x2F : UInt8) = c := (List.cons.inj (List.cons.inj (List.cons.inj heq).2).2).1
    exact hhost (by rw [hc]; exact List.mem_cons_self)

private theorem namesHost_iff {host rest : GoString} (hne : host ≠ []) (hhost : 0x2F ∉ host) :
    NamesHost authority (0x2F :: 0x2F :: (host ++ 0x2F :: rest)) ↔ authority [] host = true := by
  constructor
  · rintro ⟨host', rest', heq, -, hhost', hauthority⟩
    have hsplit := append_sep_inj hhost hhost' (List.cons.inj (List.cons.inj heq).2).2
    rw [hsplit.1]
    exact hauthority
  · intro hauthority
    exact ⟨host, rest, rfl, hne, hhost, hauthority⟩

private theorem fixed_of_setPath {s q : GoString} (hs : validEncoded (0x2F :: s) = true)
    (hunescape : unescape (0x2F :: s) = some q)
    (hparse : parseRest authority [] (0x2F :: s) = setPath (0x2F :: s)) :
    normalizePath authority (0x2F :: s) = 0x2F :: s := by
  obtain ⟨u, hu⟩ : ∃ u, setPath (0x2F :: s) = some u := ⟨_, by rw [setPath, hunescape]; rfl⟩
  have hescaped : escapedPathOf authority (0x2F :: s) = 0x2F :: s := by
    rw [escapedPathOf_of_some authority (by rw [parseURL_encoded authority hs, hparse, hu])]
    exact (setPath_rooted hu).2 hs
  rw [normalizePath_of_ne_nil authority (trimSpace_encoded hs) (List.cons_ne_nil _ _)
    (by rw [hescaped]; exact List.cons_ne_nil _ _), hescaped, rooted_cons]

private theorem fixed_of_nil {s : GoString} (htrim : trimSpace (0x2F :: s) = 0x2F :: s)
    (hescaped : escapedPathOf authority (0x2F :: s) = []) :
    normalizePath authority (0x2F :: s) = 0x2F :: s := by
  rw [normalizePath_of_nil authority htrim (List.cons_ne_nil _ _) hescaped, rooted_cons]

private theorem eq_cons_of_hasPrefix {s : GoString} (h : hasPrefix s [0x2F] = true) : ∃ t, s = 0x2F :: t := by
  obtain ⟨t, ht⟩ := hasPrefix_iff.mp h
  exact ⟨t, ht.symm⟩

/-- A host alone has no path, and the text is kept. -/
private theorem fixed_host {host : GoString} (hs : validEncoded (0x2F :: 0x2F :: host) = true)
    (hhost : 0x2F ∉ host) :
    normalizePath authority (0x2F :: 0x2F :: host) = 0x2F :: 0x2F :: host := by
  have hdouble := parseRest_double authority hhost (Or.inl rfl) (Or.inr rfl)
  rw [List.append_nil, ← parseURL_encoded authority hs] at hdouble
  apply fixed_of_nil authority (trimSpace_encoded hs)
  rw [escapedPathOf, hdouble]
  split_ifs <;> rfl

/-- A host with a path on it is kept only if it is none to `net/url`. -/
private theorem fixed_host_path_iff {host rest q : GoString}
    (hs : validEncoded (0x2F :: 0x2F :: (host ++ 0x2F :: rest)) = true)
    (hunescape : unescape (0x2F :: 0x2F :: (host ++ 0x2F :: rest)) = some q) (hne : host ≠ [])
    (hhost : 0x2F ∉ host) :
    normalizePath authority (0x2F :: 0x2F :: (host ++ 0x2F :: rest)) =
      0x2F :: 0x2F :: (host ++ 0x2F :: rest) ↔ ¬ authority [] host = true := by
  have htrim := trimSpace_encoded hs
  have hparse := parseRest_double authority hhost (Or.inr ⟨rest, rfl⟩) (Or.inl hne)
  rw [← parseURL_encoded authority hs] at hparse
  by_cases hauthority : authority [] host = true
  · rw [if_pos hauthority] at hparse
    have hrest : validEncoded (0x2F :: rest) = true := by
      rw [validEncoded_iff] at hs ⊢
      intro b hb
      exact hs b (List.mem_cons_of_mem _ (List.mem_cons_of_mem _ (List.mem_append_right _ hb)))
    obtain ⟨r, hr⟩ := unescape_append_slash (a := 0x2F :: 0x2F :: host) hunescape
    obtain ⟨u, hu⟩ : ∃ u, setPath (0x2F :: rest) = some u := ⟨_, by rw [setPath, hr]; rfl⟩
    have hescaped : escapedPathOf authority (0x2F :: 0x2F :: (host ++ 0x2F :: rest)) = 0x2F :: rest := by
      rw [escapedPathOf_of_some authority (hparse.trans hu)]
      exact (setPath_rooted hu).2 hrest
    have hpath : normalizePath authority (0x2F :: 0x2F :: (host ++ 0x2F :: rest)) = 0x2F :: rest := by
      rw [normalizePath_of_ne_nil authority htrim (List.cons_ne_nil _ _)
        (by rw [hescaped]; exact List.cons_ne_nil _ _), hescaped, rooted_cons]
    rw [hpath]
    refine iff_of_false ?_ (fun hnot => hnot hauthority)
    intro heq
    have hlength := congrArg List.length heq
    simp only [List.length_cons, List.length_append] at hlength
    omega
  · rw [if_neg hauthority] at hparse
    exact iff_of_true (fixed_of_nil authority htrim (escapedPathOf_of_none authority hparse)) hauthority

/-- Behind two slashes, the text up to the next one is the host. -/
private theorem fixed_double_iff {t q : GoString} (hs : validEncoded (0x2F :: 0x2F :: t) = true)
    (hunescape : unescape (0x2F :: 0x2F :: t) = some q) (ht : hasPrefix t [0x2F] = false) :
    normalizePath authority (0x2F :: 0x2F :: t) = 0x2F :: 0x2F :: t ↔
      ¬ NamesHost authority (0x2F :: 0x2F :: t) := by
  cases hcut : cut t 0x2F with
  | none =>
    have hslash : 0x2F ∉ t := cut_eq_none.mp hcut
    refine iff_of_true (fixed_host authority hs hslash) ?_
    rintro ⟨host, rest, heq, -⟩
    rw [(List.cons.inj (List.cons.inj heq).2).2] at hslash
    exact hslash (by simp)
  | some r =>
    obtain ⟨host, rest⟩ := r
    obtain ⟨rfl, hhost⟩ := cut_eq_some.mp hcut
    have hne : host ≠ [] := by
      intro hnil
      rw [hnil] at ht
      cases ht
    rw [namesHost_iff authority hne hhost]
    exact fixed_host_path_iff authority hs hunescape hne hhost

/-- An escaped path is kept unless it names a host. -/
private theorem fixed_encoded_iff {s q : GoString} (hs : validEncoded (0x2F :: s) = true)
    (hunescape : unescape (0x2F :: s) = some q) :
    normalizePath authority (0x2F :: s) = 0x2F :: s ↔ ¬ NamesHost authority (0x2F :: s) := by
  by_cases hdouble : hasPrefix s [0x2F] = true
  · obtain ⟨t, rfl⟩ := eq_cons_of_hasPrefix hdouble
    by_cases htriple : hasPrefix t [0x2F] = true
    · obtain ⟨t, rfl⟩ := eq_cons_of_hasPrefix htriple
      exact iff_of_true (fixed_of_setPath authority hs hunescape (parseRest_triple authority t))
        (not_namesHost_triple authority t)
    · exact fixed_double_iff authority hs hunescape (Bool.eq_false_iff.mpr htriple)
  · have hsingle := Bool.eq_false_iff.mpr hdouble
    exact iff_of_true (fixed_of_setPath authority hs hunescape (parseRest_single authority hsingle))
      (not_namesHost_single authority hsingle)

private theorem validEncoded_rooted (s : GoString) : validEncoded (0x2F :: s) = validEncoded s := by
  have hslash : allowedEncoded 0x2F = true := by decide
  rw [validEncoded, List.all_cons, hslash, Bool.true_and]
  rfl

/-- A text that was no path of its own is kept behind its root if it is escaped or no reference. -/
private theorem fixed_single_iff {s : GoString} (htrim : trimSpace (0x2F :: s) = 0x2F :: s)
    (hs : hasPrefix s [0x2F] = false) : normalizePath authority (0x2F :: s) = 0x2F :: s ↔
      validEncoded s = true ∨ parseURL authority (0x2F :: s) = none := by
  cases hparse : parseURL authority (0x2F :: s) with
  | none =>
    exact iff_of_true (fixed_of_nil authority htrim (escapedPathOf_of_none authority hparse))
      (Or.inr rfl)
  | some u =>
    obtain ⟨p, hset, hp⟩ := parseURL_single authority hs hparse
    obtain ⟨⟨e, he⟩, hkept⟩ := setPath_rooted hset
    have hescaped := escapedPathOf_of_some authority hparse
    have hpath : normalizePath authority (0x2F :: s) = u.escapedPath := by
      rw [normalizePath_of_ne_nil authority htrim (List.cons_ne_nil _ _)
        (by rw [hescaped, he]; exact List.cons_ne_nil _ _), hescaped, he, rooted_cons]
    rw [hpath, ← validEncoded_rooted]
    constructor
    · intro heq
      left
      rw [← heq]
      exact u.escapedPath_spec.1
    · intro h
      have hvalid : validEncoded (0x2F :: s) = true := h.resolve_right (fun hnone => by cases hnone)
      have hps : p = s := hp hvalid
      rw [hps] at hkept
      exact hkept hvalid

/-- The fallback: the text itself, behind a slash if it has none. -/
private theorem fixed_text_iff {t : GoString} (htrim : trimSpace t = t)
    (hescaped : escapedPathOf authority t = []) :
    normalizePath authority (rooted t) = rooted t ↔
      hasPrefix t [0x2F] = true ∨ validEncoded t = true ∨ parseURL authority (0x2F :: t) = none := by
  by_cases hroot : hasPrefix t [0x2F] = true
  · obtain ⟨s, rfl⟩ := eq_cons_of_hasPrefix hroot
    rw [rooted_cons]
    exact iff_of_true (fixed_of_nil authority htrim hescaped) (Or.inl hroot)
  · have hadd : rooted t = 0x2F :: t := if_neg hroot
    rw [hadd, fixed_single_iff authority (trimSpace_rooted htrim) (Bool.eq_false_iff.mpr hroot)]
    simp only [hroot, Bool.false_eq_true, false_or]

/-- The escaped path, behind a slash if it has none. -/
private theorem fixed_escaped_iff (u : URL) :
    normalizePath authority (rooted u.escapedPath) = rooted u.escapedPath ↔
    ¬ NamesHost authority u.escapedPath := by
  obtain ⟨hvalid, hunescape⟩ := u.escapedPath_spec
  generalize u.escapedPath = e at hvalid hunescape ⊢
  by_cases hroot : hasPrefix e [0x2F] = true
  · obtain ⟨s, rfl⟩ := eq_cons_of_hasPrefix hroot
    rw [rooted_cons]
    exact fixed_encoded_iff authority hvalid hunescape
  · have hadd : rooted e = 0x2F :: e := if_neg hroot
    have hsingle := Bool.eq_false_iff.mpr hroot
    have hunescape' : unescape (0x2F :: e) = some (0x2F :: u.path) := by
      rw [unescape_cons (by decide), hunescape]
      rfl
    have hvalid' : validEncoded (0x2F :: e) = true := by
      rw [validEncoded_rooted]
      exact hvalid
    have hnot : ¬ NamesHost authority e := by
      rintro ⟨host, rest, rfl, -⟩
      cases hsingle
    rw [hadd, fixed_encoded_iff authority hvalid' hunescape']
    exact iff_of_true (not_namesHost_single authority hsingle) hnot

theorem normalizePath_fixed_iff {path : GoString} (hne : trimSpace path ≠ []) :
    normalizePath authority (normalizePath authority path) = normalizePath authority path ↔
      Canonical authority (trimSpace path) := by
  have htrim := trimSpace_trimSpace path
  rw [normalizePath_eq authority hne, Canonical]
  by_cases hescaped : escapedPathOf authority (trimSpace path) = []
  · rw [if_pos hescaped, if_pos hescaped]
    exact fixed_text_iff authority htrim hescaped
  · rw [if_neg hescaped, if_neg hescaped]
    obtain ⟨u, hu⟩ : ∃ u, parseURL authority (trimSpace path) = some u := by
      rw [← Option.ne_none_iff_exists']
      exact fun hnone => hescaped (escapedPathOf_of_none authority hnone)
    rw [escapedPathOf_of_some authority hu]
    exact fixed_escaped_iff authority u

end

theorem normalizeKey_eq_ok_iff {raw key : GoString} : normalizeKey raw = .ok key ↔
    key = trimSpace raw ∧ key ≠ [] ∧ key.length ≤ maxKeyLength ∧
      ∀ r ∈ runes key, isControl r = false ∧ r ∉ spaceRunes := by
  have hsize : (decide (trimSpace raw = []) || decide (maxKeyLength < (trimSpace raw).length)) = true ↔
      ¬ (trimSpace raw ≠ [] ∧ (trimSpace raw).length ≤ maxKeyLength) := by
    rw [Bool.or_eq_true, decide_eq_true_eq, decide_eq_true_eq, not_and_or, not_not, Nat.not_le]
  have hrunes : ((runes (trimSpace raw)).any fun r => isControl r || spaceRunes.elem r) = true ↔
      ¬ ∀ r ∈ runes (trimSpace raw), isControl r = false ∧ r ∉ spaceRunes := by
    simp [List.any_eq_true, imp_iff_not_or, not_or]
  unfold normalizeKey
  dsimp only
  rw [if_congr hsize rfl rfl, if_congr hrunes rfl rfl, ite_not, ite_not]
  constructor
  · intro h
    split_ifs at h with hlong hok
    cases h
    exact ⟨rfl, hlong.1, hlong.2, hok⟩
  · intro h
    obtain ⟨hkey, hne, hlong, hok⟩ := h
    rw [hkey] at hne hlong hok
    rw [if_pos ⟨hne, hlong⟩, if_pos hok, hkey]

theorem normalizeKey_fixed {raw key : GoString} (h : normalizeKey raw = .ok key) :
    normalizeKey key = .ok key := by
  rw [normalizeKey_eq_ok_iff] at h ⊢
  refine ⟨?_, h.2⟩
  rw [h.1, trimSpace_trimSpace]

section
variable (U : CaseTables) (authority : GoString → GoString → Bool)

theorem normalizeMethod_fixed {U : CaseTables} (hU : U.LawfulUpper) (method : GoString) :
    normalizeMethod U (normalizeMethod U method) = normalizeMethod U method := by
  have htrim := trimSpace_toUpper hU (trimSpace_trimSpace method)
  rw [normalizeMethod, normalizeMethod, htrim, toUpper_toUpper hU]

theorem normalizeScope_eq_ok_iff {s n : RequestScope} : normalizeScope U authority s = .ok n ↔
    normalizeKey s.key = .ok n.key ∧ (trimSpace s.tenantID = n.tenantID ∧ n.tenantID ≠ []) ∧
      (trimSpace s.principalID = n.principalID ∧ n.principalID ≠ []) ∧
      (normalizeMethod U s.method = n.method ∧ n.method ≠ []) ∧
      normalizePath authority s.path = n.path ∧ n.path ≠ [] := by
  unfold normalizeScope
  cases hkey : normalizeKey s.key with
  | error e => simp [bind, Except.bind]
  | ok key =>
    simp only [bind, Except.bind]
    constructor
    · intro h
      split_ifs at h with hempty
      cases h
      simp only [Bool.or_eq_true, decide_eq_true_eq, not_or] at hempty
      exact ⟨rfl, ⟨rfl, hempty.1.1.1⟩, ⟨rfl, hempty.1.1.2⟩, ⟨rfl, hempty.1.2⟩, rfl, hempty.2⟩
    · intro h
      obtain ⟨hkey, ⟨htenant, htenant'⟩, ⟨hprincipal, hprincipal'⟩, ⟨hmethod, hmethod'⟩, hpath, hpath'⟩ := h
      rw [htenant, hprincipal, hmethod, hpath, Except.ok.inj hkey]
      simp [htenant', hprincipal', hmethod', hpath']

/-- A scope is kept as it was normalized exactly if its path is canonical, and then has the storage key
of the scope it came from. -/
theorem normalizeScope_fixed_iff (sha256 : GoString → GoString) {s n : RequestScope} (hU : U.LawfulUpper)
    (hs : normalizeScope U authority s = .ok n) :
    (normalizeScope U authority n = .ok n ∧
      storageKey U authority sha256 n = storageKey U authority sha256 s) ↔
      Canonical authority (trimSpace s.path) := by
  obtain ⟨hkey, ⟨htenant, htenant'⟩, ⟨hprincipal, hprincipal'⟩, ⟨hmethod, hmethod'⟩, hpath, hpath'⟩ :=
    (normalizeScope_eq_ok_iff U authority).mp hs
  have hne : trimSpace s.path ≠ [] := by
    intro hnil
    apply hpath'
    rw [← hpath, normalizePath, hnil]
    rfl
  have hfixed : normalizeScope U authority n = .ok n ↔ normalizePath authority n.path = n.path := by
    rw [normalizeScope_eq_ok_iff]
    constructor
    · exact fun h => h.2.2.2.2.1
    · intro h
      refine ⟨normalizeKey_fixed hkey, ⟨?_, htenant'⟩, ⟨?_, hprincipal'⟩, ⟨?_, hmethod'⟩, h, hpath'⟩
      · rw [← htenant, trimSpace_trimSpace]
      · rw [← hprincipal, trimSpace_trimSpace]
      · rw [← hmethod, normalizeMethod_fixed hU]
  rw [← normalizePath_fixed_iff authority hne, hpath, ← hfixed]
  constructor
  · exact fun h => h.1
  · intro h
    refine ⟨h, ?_⟩
    rw [storageKey_of_ok U authority sha256 h, storageKey_of_ok U authority sha256 hs]

end

private def order (path : GoString) : RequestScope := ⟨lit "7", lit "u1", lit "POST", path, lit "k1"⟩

theorem normalizeScope_fixed_orders :
    normalizeScope ⟨id, id⟩ (fun _ _ => true) (order (lit " /v1/orders?dry=1 ")) =
    .ok (order (lit "/v1/orders")) ∧
      normalizeScope ⟨id, id⟩ (fun _ _ => true) (order (lit "/v1/orders")) = .ok (order (lit "/v1/orders")) ∧
      storageKey ⟨id, id⟩ (fun _ _ => true) Crypto.sha256 (order (lit "/v1/orders")) =
        storageKey ⟨id, id⟩ (fun _ _ => true) Crypto.sha256 (order (lit " /v1/orders?dry=1 ")) := by
  have hs : normalizeScope ⟨id, id⟩ (fun _ _ => true) (order (lit " /v1/orders?dry=1 ")) =
      .ok (order (lit "/v1/orders")) := by
    decide +kernel
  have hescaped : escapedPathOf (fun _ _ => true) (trimSpace (lit " /v1/orders?dry=1 ")) =
    lit "/v1/orders" := by
    decide +kernel
  have hcanonical : Canonical (fun _ _ => true) (trimSpace (lit " /v1/orders?dry=1 ")) := by
    rw [Canonical, hescaped, if_neg (by decide +kernel)]
    exact not_namesHost_single _ (by decide +kernel)
  exact ⟨hs, (normalizeScope_fixed_iff _ _ Crypto.sha256 lawfulUpper_ascii hs).mpr hcanonical⟩

/-- A query alone is first kept behind a slash and then cut off, under another storage key. -/
theorem query_not_fixed :
    normalizeScope ⟨id, id⟩ (fun _ _ => true) (order (lit "?q")) = .ok (order (lit "/?q")) ∧
      normalizeScope ⟨id, id⟩ (fun _ _ => true) (order (lit "/?q")) ≠ .ok (order (lit "/?q")) ∧
      storageKey ⟨id, id⟩ (fun _ _ => true) Crypto.sha256 (order (lit "/?q")) ≠
        storageKey ⟨id, id⟩ (fun _ _ => true) Crypto.sha256 (order (lit "?q")) := by
  have hs : normalizeScope ⟨id, id⟩ (fun _ _ => true) (order (lit "?q")) = .ok (order (lit "/?q")) := by
    decide +kernel
  have hagain : normalizeScope ⟨id, id⟩ (fun _ _ => true) (order (lit "/?q")) = .ok (order (lit "/")) := by
    decide +kernel
  refine ⟨hs, ?_, ?_⟩
  · rw [hagain]
    decide +kernel
  · rw [storageKey_of_ok _ _ _ hs, storageKey_of_ok _ _ _ hagain]
    decide +kernel

end SynapseGo.Idempotency
