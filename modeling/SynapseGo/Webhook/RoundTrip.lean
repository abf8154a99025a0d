import SynapseGo.Webhook.Header

/-! Signed headers verify, in whatever spelling; and a signature fixes the time and the payload it
was made for. -/
namespace SynapseGo.Webhook
open SynapseGo.Go

/-- The parts of a header that `ParseHeader` reads. -/
def Keyed (part : GoString) : Prop :=
  hasPrefix (trimSpace part) timestampPrefix = true ∨ hasPrefix (trimSpace part) signaturePrefix = true

/-- `parts'` is `parts` with white space around each part, and with further parts in between. -/
inductive Interleaved : List GoString → List GoString → Prop
  | nil : Interleaved [] []
  | keep {parts parts' : List GoString} (part w w' : GoString) (hw : Blank w) (hw' : Blank w')
    (h : Interleaved parts parts') : Interleaved (part :: parts) ((w ++ part ++ w') :: parts')
  | insert {parts parts' : List GoString} (part : GoString) (hp : ¬ Keyed part)
    (h : Interleaved parts parts') : Interleaved parts (part :: parts')

/-- The parts of `header`, in any order, padded and interleaved with parts that have no meaning. -/
def Respelled (header header' : GoString) : Prop :=
  ∃ parts, (split header 0x2C).Perm parts ∧ Interleaved parts (split header' 0x2C)

/-- A part as `SignHeader` writes it. -/
def Tight (part : GoString) : Prop :=
  ∃ b c, part.head? = some b ∧ part.getLast? = some c ∧ graphic b = true ∧ graphic c = true

theorem Tight.trimSpace_pad {part w w' : GoString} (h : Tight part) (hw : Blank w) (hw' : Blank w') :
    trimSpace (w ++ part ++ w') = part := by
  obtain ⟨b, c, hb, hc, hgb, hgc⟩ := h
  exact Go.trimSpace_pad hw hw' hb hc hgb hgc

theorem Tight.trimSpace {part : GoString} (h : Tight part) : trimSpace part = part := by
  obtain ⟨b, c, hb, hc, hgb, hgc⟩ := h
  exact trimSpace_eq_self hb hc hgb hgc

theorem parsePart_of_not_keyed {part : GoString} (h : ¬ Keyed part) (found : Int64 × GoString) :
    parsePart found part = .ok found := by
  unfold Keyed at h
  push Not at h
  unfold parsePart
  dsimp only
  rw [if_neg h.1, if_neg h.2]

/-- Padding and interleaving change nothing of what the loop finds. -/
theorem Interleaved.foldlM_eq {parts parts' : List GoString} (h : Interleaved parts parts')
    (ht : ∀ part ∈ parts, Tight part) (found : Int64 × GoString) :
    parts'.foldlM parsePart found = parts.foldlM parsePart found := by
  induction h generalizing found with
  | nil => rfl
  | keep part w w' hw hw' _ ih =>
    obtain ⟨hpart, hparts⟩ := List.forall_mem_cons.mp ht
    have hsame : parsePart found (w ++ part ++ w') = parsePart found part := by
      simp only [parsePart, hpart.trimSpace_pad hw hw', hpart.trimSpace]
    rw [List.foldlM_cons, List.foldlM_cons, hsame]
    exact bind_congr (ih hparts)
  | insert part hp _ ih =>
    rw [List.foldlM_cons, parsePart_of_not_keyed hp]
    exact ih ht found

/-- The two parts `SignHeader` writes. -/
def timestampPart (timestamp : Int64) : GoString := lit "t=" ++ formatInt timestamp.toInt

def signaturePart (signature : GoString) : GoString := lit "v1=" ++ signature

section
variable {timestamp : Int64} (hpos : 1 ≤ timestamp.toInt)
include hpos

theorem formatInt_digit {b : UInt8} (h : b ∈ formatInt timestamp.toInt) :
    0x30 ≤ b.toNat ∧ b.toNat ≤ 0x39 := by
  unfold formatInt at h
  rw [if_neg (by omega)] at h
  exact formatNat_digit h

theorem comma_notMem_timestampPart : (0x2C : UInt8) ∉ timestampPart timestamp := by
  intro h
  rcases List.mem_append.mp h with h | h
  · exact absurd h (by decide)
  · have hdigit := formatInt_digit hpos h
    exact absurd hdigit (by decide)

theorem timestampPart_tight : Tight (timestampPart timestamp) := by
  have hne : formatInt timestamp.toInt ≠ [] := by
    rw [formatInt, if_neg (by omega)]
    exact formatNat_ne_nil _
  have hlast := formatInt_digit hpos (List.getLast_mem hne)
  refine ⟨0x74, (formatInt timestamp.toInt).getLast hne, rfl, ?_, by decide, ?_⟩
  · rw [timestampPart, List.getLast?_append_of_ne_nil _ hne, List.getLast?_eq_some_getLast hne]
  · simp [graphic, UInt8.le_iff_toNat_le, UInt8.lt_iff_toNat_lt]
    omega

theorem parsePart_timestampPart (found : Int64 × GoString) :
    parsePart found (timestampPart timestamp) = .ok (timestamp, found.2) := by
  have hnot : ¬ timestamp ≤ 0 := by
    rw [Int64.le_iff_toInt_le, Int64.toInt_zero]
    omega
  have hprefix : hasPrefix (timestampPart timestamp) timestampPrefix = true := by
    simp [hasPrefix, timestampPart, timestampPrefix]
  have hdrop : trimPrefix (timestampPart timestamp) timestampPrefix = formatInt timestamp.toInt := by
    rw [trimPrefix, if_pos hprefix]
    rfl
  have hparse := parseInt64_formatInt (v := timestamp) (by omega)
  simp only [parsePart, (timestampPart_tight hpos).trimSpace, hprefix, if_true, hdrop, hparse, if_neg hnot]

end

theorem comma_notMem_signaturePart (digest : GoString) :
    (0x2C : UInt8) ∉ signaturePart (hexEncode digest) := by
  intro h
  rcases List.mem_append.mp h with h | h
  · exact absurd h (by decide)
  · have hdigit := hexEncode_digit h
    exact absurd hdigit (by decide)

theorem hexEncode_ne_nil {digest : GoString} (h : digest ≠ []) : hexEncode digest ≠ [] := by
  intro hnil
  exact h (hexEncode_injective hnil)

theorem signaturePart_tight {digest : GoString} (h : digest ≠ []) :
    Tight (signaturePart (hexEncode digest)) := by
  have hne := hexEncode_ne_nil h
  have hlast := hexEncode_digit (List.getLast_mem hne)
  refine ⟨0x76, (hexEncode digest).getLast hne, rfl, ?_, by decide, ?_⟩
  · rw [signaturePart, List.getLast?_append_of_ne_nil _ hne, List.getLast?_eq_some_getLast hne]
  · simp [graphic, UInt8.le_iff_toNat_le, UInt8.lt_iff_toNat_lt]
    omega

theorem parsePart_signaturePart {digest : GoString} (h : digest ≠ []) (found : Int64 × GoString) :
    parsePart found (signaturePart (hexEncode digest)) = .ok (found.1, hexEncode digest) := by
  have hother : hasPrefix (signaturePart (hexEncode digest)) timestampPrefix = false := by
    rfl
  have hprefix : hasPrefix (signaturePart (hexEncode digest)) signaturePrefix = true := by
    simp [hasPrefix, signaturePart, signaturePrefix]
  have hdrop : trimPrefix (signaturePart (hexEncode digest)) signaturePrefix = hexEncode digest := by
    rw [trimPrefix, if_pos hprefix]
    rfl
  simp only [parsePart, (signaturePart_tight h).trimSpace, hother, hprefix, hdrop, if_true, if_false,
    Bool.false_eq_true]

theorem foldlM_cons_ok {α β ε : Type} {f : β → α → Except ε β} {a : α} {b b' : β} {l : List α}
    (h : f b a = .ok b') :
    (a :: l).foldlM f b = l.foldlM f b' := by
  rw [List.foldlM_cons, h]
  rfl

/-- The two parts are found in either order. -/
theorem foldlM_parsePart_perm {timestamp : Int64} {digest : GoString} {parts : List GoString}
    (hpos : 1 ≤ timestamp.toInt) (hdigest : digest ≠ [])
    (hperm : [timestampPart timestamp, signaturePart (hexEncode digest)].Perm parts) :
    parts.foldlM parsePart (0, []) = .ok (timestamp, hexEncode digest) := by
  obtain ⟨x, y, rfl⟩ := List.length_eq_two.mp hperm.length_eq.symm
  have hx : x = timestampPart timestamp ∨ x = signaturePart (hexEncode digest) := by
    simpa using hperm.mem_iff.mpr List.mem_cons_self
  have hboth : [timestampPart timestamp, signaturePart (hexEncode digest)].foldlM parsePart (0, []) =
      .ok (timestamp, hexEncode digest) := by
    rw [foldlM_cons_ok (parsePart_timestampPart hpos _), foldlM_cons_ok (parsePart_signaturePart hdigest _)]
    rfl
  have hswapped : [signaturePart (hexEncode digest), timestampPart timestamp].foldlM parsePart (0, []) =
      .ok (timestamp, hexEncode digest) := by
    rw [foldlM_cons_ok (parsePart_signaturePart hdigest _), foldlM_cons_ok (parsePart_timestampPart hpos _)]
    rfl
  rcases hx with rfl | rfl
  · have hrest := List.singleton_perm_singleton.mp (List.perm_cons _ |>.mp hperm)
    rw [← hrest]
    exact hboth
  · have hrest := (List.Perm.swap _ _ _).trans hperm
    have hrest := List.singleton_perm_singleton.mp (List.perm_cons _ |>.mp hrest)
    rw [← hrest]
    exact hswapped

/-- Every spelling of a signed header parses to the time and the signature that were signed. -/
theorem parseHeader_respelled {header header' digest : GoString} {timestamp : Int64}
    (hpos : 1 ≤ timestamp.toInt) (hdigest : digest ≠ [])
    (hheader : split header 0x2C = [timestampPart timestamp, signaturePart (hexEncode digest)])
    (h : Respelled header header') : parseHeader header' = .ok (timestamp, hexEncode digest) := by
  obtain ⟨parts, hperm, hinter⟩ := h
  rw [hheader] at hperm
  have htight : ∀ part ∈ parts, Tight part := by
    intro part hpart
    have hmem : part = timestampPart timestamp ∨ part = signaturePart (hexEncode digest) := by
      simpa using hperm.mem_iff.mpr hpart
    rcases hmem with rfl | rfl
    · exact timestampPart_tight hpos
    · exact signaturePart_tight hdigest
  have hfold := hinter.foldlM_eq htight (0, [])
  rw [foldlM_parsePart_perm hpos hdigest hperm] at hfold
  have hzero : timestamp ≠ 0 := by
    rintro rfl
    exact absurd hpos (by decide)
  simp [parseHeader, hfold, hzero, hexEncode_ne_nil hdigest, hexDecode_hexEncode]

theorem split_signHeader {mac : Mac} {secret payload : GoString} {timestamp : Int64}
    (hpos : 1 ≤ timestamp.toInt) :
    split (lit "t=" ++ formatInt timestamp.toInt ++ lit ",v1=" ++
        computeSignature mac secret timestamp payload) 0x2C =
      [timestampPart timestamp, signaturePart (computeSignature mac secret timestamp payload)] := by
  have hparts : ∀ part ∈ [timestampPart timestamp,
      signaturePart (computeSignature mac secret timestamp payload)], (0x2C : UInt8) ∉ part := by
    simp only [List.mem_cons, List.not_mem_nil, or_false, forall_eq_or_imp, forall_eq]
    exact ⟨comma_notMem_timestampPart hpos, comma_notMem_signaturePart _⟩
  have hsplit := List.splitOn_intercalate 0x2C hparts (by simp)
  have hjoin : lit "t=" ++ formatInt timestamp.toInt ++ lit ",v1=" ++
      computeSignature mac secret timestamp payload = [0x2C].intercalate [timestampPart timestamp,
        signaturePart (computeSignature mac secret timestamp payload)] := by
    have hcomma : lit ",v1=" = 0x2C :: lit "v1=" := by decide
    simp [List.intercalate, timestampPart, signaturePart, hcomma]
  rw [hjoin]
  exact hsplit

theorem Respelled.refl {header : GoString} : Respelled header header := by
  refine ⟨split header 0x2C, List.Perm.refl _, ?_⟩
  induction split header 0x2C with
  | nil => exact .nil
  | cons part parts ih => simpa using Interleaved.keep part [] [] blank_nil blank_nil ih

/-- `now` is within the tolerance of `u` seconds, where the check is made at all; the difference
that it computes is a `Duration`. -/
def InWindow (now : Time) (u tolerance : Int64) : Prop :=
  tolerance ≤ 0 ∨ |now.unixNanos - u.toInt * 10 ^ 9| ≤ tolerance.toInt ∧
    -2 ^ 63 ≤ now.unixNanos - (Time.ofUnix u).unixNanos ∧ now.unixNanos - (Time.ofUnix u).unixNanos < 2 ^ 63

/-- Within the window the skew check passes. -/
theorem InWindow.not_skewed {now : Time} {u tolerance : Int64} (h : InWindow now u tolerance)
    (hpos : 1 ≤ u.toInt) :
    ¬ (tolerance > 0 ∧ absDuration (now.sub (Time.ofUnix u)) > tolerance) := by
  rintro ⟨htol, hskew⟩
  have htol : 0 < tolerance.toInt := by
    have h := Int64.lt_iff_toInt_lt.mp htol
    rwa [Int64.toInt_zero] at h
  have hskew := Int64.lt_iff_toInt_lt.mp hskew
  rcases h with hle | ⟨hnear, hlo, hhi⟩
  · rw [Int64.le_iff_toInt_le, Int64.toInt_zero] at hle
    omega
  · have hpass : (absDuration (now.sub (Time.ofUnix u))).toInt ≤ tolerance.toInt := by
      rw [absDuration_sub_le_iff htol]
      rcases sub_ofUnix_nanos now (by omega : 0 < u.toInt) with ⟨hd, -⟩ | ⟨hd, -⟩
      · rw [hd]
        exact Or.inr (Or.inl hnear)
      · have hmax := Int64.toInt_lt tolerance
        have hbound := (abs_le.mp hnear).1
        omega
    omega

/-- A dot ends the timestamp in the signed text: the digits before it contain none. -/
theorem signedText_injective {u u' : Int64} {payload payload' : GoString} (hu : 1 ≤ u.toInt)
    (hu' : 1 ≤ u'.toInt)
    (h : formatInt u.toInt ++ lit "." ++ payload = formatInt u'.toInt ++ lit "." ++ payload') :
    u = u' ∧ payload = payload' := by
  have hdot : ∀ {v : Int64}, 1 ≤ v.toInt → (0x2E : UInt8) ∉ formatInt v.toInt := by
    intro v hv hmem
    have hdigit := formatInt_digit hv hmem
    exact absurd hdigit (by decide)
  have hlit : lit "." = [0x2E] := by decide
  rw [hlit, List.append_assoc, List.append_assoc, List.singleton_append, List.singleton_append] at h
  obtain ⟨hformat, hpayload⟩ := append_sep_inj (hdot hu) (hdot hu') h
  exact ⟨Int64.toInt_inj.mp (formatInt_injective hformat), hpayload⟩

/-- Under an injective digest a signature belongs to one time and one payload. -/
theorem signature_fixes {mac : Mac} {secret payload payload' : GoString} {u u' : Int64}
    (hinj : Function.Injective (mac secret)) (hu : 1 ≤ u.toInt) (hu' : 1 ≤ u'.toInt)
    (h : computeSignature mac secret u' payload' = computeSignature mac secret u payload) :
    u' = u ∧ payload' = payload :=
  signedText_injective hu' hu (hinj (hexEncode_injective h))

theorem computeSignature_of_accepted {mac : Mac} {secret header payload signature : GoString} {now : Time}
    {u tolerance : Int64} (hparse : parseHeader header = .ok (u, signature))
    (h : verifyHeader mac secret header payload now tolerance = none) :
    computeSignature mac secret u payload = signature := by
  unfold verifyHeader at h
  rw [hparse] at h
  dsimp only at h
  split_ifs at h with hsecret hskew hsignature
  exact not_not.mp hsignature

/-- What `SignHeader` writes is accepted in every spelling, and its signature is accepted with no
other timestamp and for no other payload. -/
theorem signHeader_round_trip {mac : Mac} {secret : GoString} (payload : GoString) {timestamp now : Time}
    {tolerance : Int64} (hsecret : trimSpace secret ≠ []) (hdigest : ∀ message, mac secret message ≠ [])
    (hu : 1 ≤ timestamp.unix) (hnow : InWindow now timestamp.unix tolerance) :
    ∃ header, signHeader mac secret timestamp payload = .ok header ∧
      verifyHeader mac secret header payload now tolerance = none ∧
      (∀ header', Respelled header header' →
        verifyHeader mac secret header' payload now tolerance = none) ∧
      (Function.Injective (mac secret) → ∀ header' payload' now' tolerance' u',
        parseHeader header' = .ok (u', computeSignature mac secret timestamp.unix payload) →
        verifyHeader mac secret header' payload' now' tolerance' = none →
        u' = timestamp.unix ∧ payload' = payload) := by
  have hpos : 1 ≤ timestamp.unix.toInt := Int64.le_iff_toInt_le.mp hu
  have hsign : signHeader mac secret timestamp payload = .ok (lit "t=" ++ formatInt timestamp.unix.toInt ++
      lit ",v1=" ++ computeSignature mac secret timestamp.unix payload) := if_neg hsecret
  have haccept : ∀ header', Respelled (lit "t=" ++ formatInt timestamp.unix.toInt ++ lit ",v1=" ++
      computeSignature mac secret timestamp.unix payload) header' →
      verifyHeader mac secret header' payload now tolerance = none := by
    intro header' h
    have hparse := parseHeader_respelled hpos (hdigest _) (split_signHeader hpos) h
    have hskew := hnow.not_skewed hpos
    unfold verifyHeader
    rw [if_neg hsecret, hparse]
    dsimp only
    rw [if_neg hskew]
    exact if_neg fun hne => hne rfl
  refine ⟨_, hsign, haccept _ Respelled.refl, haccept, ?_⟩
  intro hinj header' payload' now' tolerance' u' hparse h
  have hpos' : 1 ≤ u'.toInt := parseHeader_pos hparse
  exact signature_fixes hinj hpos hpos' (computeSignature_of_accepted hparse h)

theorem hmacSha256_ne_nil (key message : GoString) : Crypto.hmacSha256 key message ≠ [] := by
  simp [Crypto.hmacSha256, Crypto.sha256, Crypto.wordBytes]

/-- A digest that is injective for lack of compression. -/
def plainMac : Mac := fun secret message => 0x21 :: (secret ++ message)

def sampleSignature : GoString := lit "2d9c60d89eb83c900ae6960d14eb8bf2d4edd55db6c4bf9fd5a9e1ec1bb3cee7"

/-- The sample header with its parts exchanged, padded, and with a foreign part between them. -/
def respelledHeader : GoString := lit " v1=" ++ sampleSignature ++ lit "\t,v0=00, t=1777000000"

theorem respelledHeader_respelled : Respelled sampleHeader respelledHeader := by
  have hspace : Blank (lit " ") := ⟨[lit " "], by decide +kernel, by decide +kernel⟩
  have htab : Blank (lit "\t") := ⟨[lit "\t"], by decide +kernel, by decide +kernel⟩
  have hforeign : ¬ Keyed (lit "v0=00") := by
    unfold Keyed
    decide +kernel
  have hsplit : split respelledHeader 0x2C =
      [lit " " ++ signaturePart sampleSignature ++ lit "\t", lit "v0=00",
        lit " " ++ timestampPart 1777000000 ++ []] := by decide +kernel
  have hparts : split sampleHeader 0x2C = [timestampPart 1777000000, signaturePart sampleSignature] := by
    decide +kernel
  refine ⟨[signaturePart sampleSignature, timestampPart 1777000000], ?_, ?_⟩
  · rw [hparts]
    exact List.Perm.swap _ _ _
  · rw [hsplit]
    exact .keep _ _ _ hspace htab (.insert _ hforeign (.keep _ _ _ hspace blank_nil .nil))

theorem respelledHeader_accepted :
    verifyHeader Crypto.hmacSha256 (lit "secret") respelledHeader (lit "body") (.ofUnix 1777000060)
      300000000000 = none ∧
    ∀ header' payload' now' tolerance' u',
      parseHeader header' = .ok (u', computeSignature plainMac (lit "secret") 1777000000 (lit "body")) →
      verifyHeader plainMac (lit "secret") header' payload' now' tolerance' = none →
      u' = 1777000000 ∧ payload' = lit "body" := by
  have hsecret : trimSpace (lit "secret") ≠ [] := by decide +kernel
  have hunix : (Time.ofUnix 1777000000).unix = 1777000000 := by decide +kernel
  have hu : 1 ≤ (Time.ofUnix 1777000000).unix := by decide +kernel
  have hnow : InWindow (.ofUnix 1777000060) (Time.ofUnix 1777000000).unix 300000000000 :=
    Or.inr (by decide +kernel)
  constructor
  · obtain ⟨header, hsign, -, haccept, -⟩ :=
      signHeader_round_trip (lit "body") hsecret (hmacSha256_ne_nil _) hu hnow
    have hsample : signHeader Crypto.hmacSha256 (lit "secret") (.ofUnix 1777000000) (lit "body") =
        .ok sampleHeader := by decide +kernel
    have hheader : sampleHeader = header := Except.ok.inj (hsample.symm.trans hsign)
    exact haccept respelledHeader (hheader ▸ respelledHeader_respelled)
  · have hinj : Function.Injective (plainMac (lit "secret")) := fun m m' h => by simpa [plainMac] using h
    have hdigest : ∀ message, plainMac (lit "secret") message ≠ [] := fun _ => List.cons_ne_nil _ _
    obtain ⟨-, -, -, -, hfixed⟩ := signHeader_round_trip (lit "body") hsecret hdigest hu hnow
    have hfixed := hfixed hinj
    rwa [hunix] at hfixed

end SynapseGo.Webhook
