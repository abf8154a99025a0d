import SynapseGo.Pii.Jurisdictions
import SynapseGo.Regex.Parts

/-! A second pass over a redacted text. The text that replaces a match has asterisks or brackets in it,
which no pattern holds, and what it shows of the match is too short for another one; so a text in separate
parts, each of which one rule replaces as a whole, is left alone by a second pass. -/
namespace SynapseGo.Pii
open SynapseGo.Go SynapseGo.Regex

/-- The rules that run under a hint, in order. -/
def runningRules (U : CaseTables) (languageOrJurisdiction : GoString) : List Rule :=
  jurisdictionRules U languageOrJurisdiction ++ universalRules

theorem fixed_nil {rules : List Rule} : Fixed rules [] := fun _ _ => Re.replaceAll_nil

theorem redactString_eq_foldl (U : CaseTables) (languageOrJurisdiction s : GoString) :
    redactString U languageOrJurisdiction s = (runningRules U languageOrJurisdiction).foldl applyRule s := by
  unfold redactString runningRules
  split
  next hs => rw [hs, fixed_nil.foldl]
  next => rw [List.foldl_append]

theorem running_mem_allRules (U : CaseTables) (languageOrJurisdiction : GoString) :
    ∀ rl ∈ runningRules U languageOrJurisdiction, rl ∈ allRules := by
  refine List.forall_mem_append.mpr ⟨fun rl hrl => ?_, universal_mem_allRules⟩
  rcases mem_allRules_of_jurisdiction hrl with hrl | hrl
  · exact ru_mem_allRules rl hrl
  · exact cn_mem_allRules rl hrl

/-- A change leaves a mark. -/
theorem marks_ne_zero {rl : Rule} {p : Option UInt8} {s s' m : GoString} (hrl : rl ∈ allRules)
    (h : rl.pattern.Replaced rl.apply p s s' m) (hstars : (rl.apply m).count 42 = 0)
    (hbrackets : (rl.apply m).count 93 = 0) : False := by
  rcases allRules_marks hrl h with hlabel | ⟨-, hmark⟩ | ⟨-, hmark⟩ | hmark
  · have hmarks := marks_of_mem_labels _ hlabel
    omega
  all_goals omega

/-- No pass undoes what another one did. -/
theorem fixed_of_foldl {rules : List Rule} {s : GoString} (hrules : ∀ rl ∈ rules, rl ∈ allRules)
    (h : rules.foldl applyRule s = s) : Fixed rules s := by
  rcases fixed_or_first rules s with hfixed | ⟨pre, rl, post, rfl, hpre, hne⟩
  · exact hfixed
  exfalso
  have hrl : rl ∈ allRules := hrules rl (by simp)
  have hpost : ∀ rl' ∈ post, rl' ∈ allRules := fun rl' hrl' => hrules rl' (by simp [hrl'])
  obtain ⟨m, hm⟩ := applyRule_ne hrl hne
  rw [List.foldl_append, hpre.foldl, List.foldl_cons] at h
  have hnone : ∀ b, (∀ rl ∈ allRules, rl.pattern.uses b = false) → (rl.apply m).count b = 0 := by
    intro b hb
    have hadd := hm.count_le b (hb rl hrl)
    have hlater := count_le_foldl (s := applyRule s rl) hpost hb
    rw [h] at hlater
    omega
  exact marks_ne_zero hrl hm (hnone 42 star_unused) (hnone 93 bracket_unused)

/-- A second pass leaves the text alone exactly if no rule finds anything to replace in it. -/
theorem redactString_redactString_iff (U : CaseTables) (languageOrJurisdiction s : GoString) :
    redactString U languageOrJurisdiction (redactString U languageOrJurisdiction s) =
        redactString U languageOrJurisdiction s ↔
      Fixed (runningRules U languageOrJurisdiction) (redactString U languageOrJurisdiction s) := by
  rw [redactString_eq_foldl U languageOrJurisdiction (redactString U languageOrJurisdiction s)]
  exact ⟨fixed_of_foldl (running_mem_allRules U languageOrJurisdiction), Fixed.foldl⟩

theorem alike_of_mem : ∀ rl ∈ allRules, rl.pattern.alike (some 42) none = true ∧
    rl.pattern.alike (some 64) none = true := by
  decide

theorem mem_allRules {rl : Rule} : rl ∈ allRules ↔ rl = ruPhoneRule ∨ rl = snilsRule ∨ rl = innRule ∨
    rl = cnPhoneRule ∨ rl = cnIDRule ∨ rl = jwtRule ∨ rl = apiKeyRule ∨ rl = bankCardRule ∨ rl = emailRule ∨
    rl = ipv4Rule := by
  simp only [allRules, ruRules, cnRules, universalRules, List.cons_append, List.nil_append, List.mem_cons,
    List.not_mem_nil, or_false]

theorem emailRule_or_uses {rl : Rule} (h : rl ∈ allRules) : rl = emailRule ∨ rl.pattern.uses 64 = false := by
  rcases mem_allRules.mp h with rfl | rfl | rfl | rfl | rfl | rfl | rfl | rfl | rfl | rfl
  on_goal 9 => exact .inl rfl
  all_goals exact .inr rfl

theorem minLength_of_mem {rl : Rule} (h : rl ∈ allRules) :
    rl = emailRule ∨ rl = ipv4Rule ∨ 10 ≤ rl.pattern.minLength := by
  rcases mem_allRules.mp h with rfl | rfl | rfl | rfl | rfl | rfl | rfl | rfl | rfl | rfl
  on_goal 9 => exact .inl rfl
  on_goal 9 => exact .inr (.inl rfl)
  all_goals exact .inr (.inr (by decide))

/-- Digits, and the signs that stand between them in a replacement. -/
def numeral (b : UInt8) : Bool := isDigit b || b == 32 || b == 43 || b == 45

theorem Digits.numeral {s : GoString} (h : Digits s) : s.all Pii.numeral = true :=
  List.all_eq_true.mpr fun b hb => by simp [Pii.numeral, h b hb]

section
variable {rules : List Rule} (hrules : ∀ rl ∈ rules, rl ∈ allRules) {u v s : GoString}
include hrules

theorem Fixed.star (hu : Fixed rules u) (hv : Fixed rules v) : Fixed rules (u ++ 42 :: v) := by
  intro rl hrl
  have hmem := hrules rl hrl
  have hsep : rl.pattern.Separates u.getLast? 42 v.head? :=
    Re.separates_of_unused (alike_of_mem rl hmem).1 (star_unused rl hmem)
  have hpass : applyRule (u ++ 42 :: v) rl = applyRule u rl ++ 42 :: applyRule v rl :=
    Re.replaceAll_separated (nullable_of_mem rl hmem) hsep
  rw [hpass, hu rl hrl, hv rl hrl]

theorem Fixed.stars (n : ℕ) (hu : Fixed rules u) (hv : Fixed rules v) :
    Fixed rules (u ++ (List.replicate (n + 1) 42 ++ v)) := by
  induction n generalizing u with
  | zero => exact hu.star hrules hv
  | succ n ih =>
    have hnext := ih (u := []) fixed_nil
    exact hu.star hrules hnext

/-- A short text with no `@` and no more than two dots. -/
theorem fixed_of_short (hlen : s.length ≤ 9) (hat : 64 ∉ s) (hdots : s.count 46 ≤ 2) : Fixed rules s := by
  intro rl hrl
  have hmem := hrules rl hrl
  refine Re.replaceAll_eq_self (nullable_of_mem rl hmem) fun u m t hs hm => ?_
  rcases minLength_of_mem hmem with rfl | rfl | hmin
  · obtain ⟨x, l, dom, rfl, -⟩ := email_shape hm
    exact hat (by simp [hs])
  · obtain ⟨a, b, c, d, rfl, -⟩ := ipv4_shape hm
    rw [hs] at hdots
    simp only [List.count_append, List.count_cons_self] at hdots
    omega
  · have hlong := hm.minLength_le
    rw [hs, List.length_append, List.length_append] at hlen
    omega

/-- A short text of digits and of signs between them. -/
theorem fixed_of_numeral (hlen : s.length ≤ 9) (hs : s.all numeral = true) : Fixed rules s := by
  have hnone : ∀ c, numeral c = false → c ∉ s := by
    intro c hc hmem
    rw [List.all_eq_true.mp hs c hmem] at hc
    cases hc
  have hdots := List.count_eq_zero.mpr (hnone 46 rfl)
  exact fixed_of_short hrules hlen (hnone 64 rfl) (by omega)

theorem fixed_cardText {a b : GoString} (ha : Digits a) (hb : Digits b) (hla : a.length = 4)
    (hlb : b.length = 4) :
    Fixed rules (a ++ (lit " **** **** " ++ b)) := by
  have hfront : Fixed rules (a ++ [32]) := fixed_of_numeral hrules (by simp [hla]) (by simp [ha.numeral]; rfl)
  have hback : Fixed rules ([32] ++ b) := fixed_of_numeral hrules (by simp [hlb]) (by simp [hb.numeral]; rfl)
  have hmiddle : Fixed rules [32] := fixed_of_numeral hrules (by decide) rfl
  have hall := hfront.stars hrules 3 (hmiddle.stars hrules 3 hback)
  rw [List.append_assoc] at hall
  exact hall

variable {p : Option UInt8} {m t : GoString}

theorem fixed_redactIPv4 (h : ipv4.Matches p m t) : Fixed rules (redactIPv4 m) := by
  obtain ⟨a, b, c, d, rfl, hoctets, -, -⟩ := ipv4_shape h
  obtain ⟨ha, -, hla⟩ := hoctets a (by simp)
  obtain ⟨hb, -, hlb⟩ := hoctets b (by simp)
  have hfront : Fixed rules (a ++ [46] ++ b ++ [46]) := by
    have hat : ∀ {s : GoString}, Digits s → 64 ∉ s := fun hs hmem => by cases hs 64 hmem
    refine fixed_of_short hrules ?_ ?_ ?_
    · simp only [List.length_append, List.length_singleton]
      omega
    · simp [hat ha, hat hb]
    · simp [ha.count_eq_zero (c := 46) rfl, hb.count_eq_zero (c := 46) rfl]
  have hdot : Fixed rules [46] := fixed_of_short hrules (by decide) (by decide) (by decide)
  have hall := hfront.star hrules (hdot.star hrules fixed_nil)
  rw [List.append_assoc] at hall
  rw [redactIPv4_eq hoctets]
  exact hall

theorem fixed_redactRUPhone (h : ruPhone.Matches p m t) : Fixed rules (redactRUPhone m) := by
  obtain ⟨a, b, heq, ha, hb, hla, hlb⟩ := redactRUPhone_eq h
  have hfront : Fixed rules (lit "+7-" ++ (a ++ [45])) := by
    have hcode : (lit "+7-").length = 3 ∧ (lit "+7-").all numeral = true := ⟨rfl, rfl⟩
    exact fixed_of_numeral hrules (by simp [hla, hcode.1]) (by simp [hcode.2, ha.numeral]; rfl)
  have hdash : Fixed rules [45] := fixed_of_numeral hrules (by decide) rfl
  have hback : Fixed rules ([45] ++ b) := fixed_of_numeral hrules (by simp [hlb]) (by simp [hb.numeral]; rfl)
  have hall := hfront.stars hrules 2 (hdash.stars hrules 1 hback)
  rw [List.append_assoc, List.append_assoc] at hall
  rw [heq]
  exact hall

theorem fixed_redactCNPhone (h : cnPhone.Matches p m t) : Fixed rules (redactCNPhone m) := by
  obtain ⟨-, -, hm, hlen⟩ := cnPhone_shape h
  have hshort : ∀ s : GoString, s ⊆ m → s.length ≤ 9 → Fixed rules s := fun s hs hle =>
    fixed_of_numeral hrules hle (Digits.numeral fun x hx => hm x (hs hx))
  have hfront := hshort (m.take 3) (List.take_subset 3 m) (by simp [hlen])
  have hback := hshort (m.drop 7) (List.drop_subset 7 m) (by simp [hlen])
  rw [redactCNPhone_eq hm hlen]
  exact hfront.stars hrules 3 hback

omit hrules in
/-- Where a pass leaves a text in two parts alone, it leaves the second part alone. -/
theorem applyRule_eq_self_of_append {rl : Rule} {c : UInt8} (hrl : rl ∈ allRules)
    (hsep : rl.pattern.Separates u.getLast? c v.head?) (h : applyRule (u ++ c :: v) rl = u ++ c :: v) :
    applyRule v rl = v := by
  by_contra hne
  obtain ⟨m, hm⟩ := applyRule_ne hrl hne
  have hpass : applyRule (u ++ c :: v) rl = applyRule u rl ++ c :: applyRule v rl :=
    Re.replaceAll_separated (nullable_of_mem rl hrl) hsep
  -- neither part loses an asterisk or a bracket, and the second one has more
  have hgrow : ∀ b, rl.pattern.uses b = false → (rl.apply m).count b = 0 := by
    intro b hb
    have hu : u.count b ≤ (applyRule u rl).count b := Re.count_le_count_replaceAll (nullable_of_mem rl hrl) hb
    have hv := hm.count_le b hb
    have hcount : (applyRule u rl ++ c :: applyRule v rl).count b = (u ++ c :: v).count b := by
      rw [← hpass, h]
    simp only [List.count_append, List.count_cons] at hcount
    omega
  exact marks_ne_zero hrl hm (hgrow 42 (star_unused rl hrl)) (hgrow 93 (bracket_unused rl hrl))

/-- An address that the mail rule alone changes. -/
theorem fixed_redactEmail (h : email.Matches p m t)
    (hothers : ∀ rl ∈ rules, rl = emailRule ∨ applyRule m rl = m) :
    Fixed rules (redactEmail m) := by
  obtain ⟨x, l, dom, rfl, hl, hdom, -, -⟩ := email_shape h
  have hx : x ≠ 64 := mailbox_ne_at (hl x List.mem_cons_self)
  have hfront : Fixed rules [x] := by
    refine fixed_of_short hrules (by simp) (by simpa using hx.symm) ?_
    have hcount := List.count_le_length (a := 46) (l := [x])
    rw [List.length_singleton] at hcount
    omega
  have hback : Fixed rules (64 :: dom) := by
    intro rl hrl
    have hmem := hrules rl hrl
    rcases emailRule_or_uses hmem with rfl | huses
    · -- there is no letter before the only at-sign
      refine Re.replaceAll_eq_self (by rfl) fun u m t heq hm => ?_
      obtain ⟨y, l', dom', rfl, hl', -⟩ := email_shape hm
      cases u with
      | nil =>
        obtain ⟨rfl, -⟩ := List.cons.inj heq
        exact mailbox_ne_at (hl' 64 List.mem_cons_self) rfl
      | cons b u =>
        obtain ⟨-, heq⟩ := List.cons.inj heq
        cases hdom 64 (by simp [heq])
    · have hsep : ∀ u : GoString, rl.pattern.Separates u.getLast? 64 dom.head? := fun u =>
        Re.separates_of_unused (alike_of_mem rl hmem).2 huses
      have hsame : applyRule ((x :: l) ++ 64 :: dom) rl = (x :: l) ++ 64 :: dom := by
        refine (hothers rl hrl).resolve_left ?_
        rintro rfl
        cases huses
      have hpass : applyRule ([] ++ 64 :: dom) rl = applyRule [] rl ++ 64 :: applyRule dom rl :=
        Re.replaceAll_separated (nullable_of_mem rl hmem) (hsep [])
      rw [applyRule_eq_self_of_append hmem (hsep _) hsame] at hpass
      exact hpass
  rw [redactEmail_eq hl]
  exact hfront.stars hrules 2 hback

end

theorem fixed_label : ∀ s ∈ labels, Fixed allRules s := by decide +kernel

/-- Whether a rule leaves a label. -/
theorem label_of_mem {rl : Rule} (h : rl ∈ allRules) :
    (∀ m, rl.apply m ≠ m → rl.apply m ∈ labels) ∨
      rl ∈ [ruPhoneRule, cnPhoneRule, bankCardRule, emailRule, ipv4Rule] := by
  rcases mem_allRules.mp h with rfl | rfl | rfl | rfl | rfl | rfl | rfl | rfl | rfl | rfl
  · exact .inr (by simp)
  · exact .inl fun _ _ => by simp [snilsRule, labels]
  · exact .inl fun m hm => by rw [show innRule.apply m = _ from redactINNCandidate_ne hm]; simp [labels]
  · exact .inr (by simp)
  · exact .inl fun _ _ => by simp [cnIDRule, labels]
  · exact .inl fun _ _ => by simp [jwtRule, labels]
  · exact .inl fun _ _ => by simp [apiKeyRule, labels]
  · exact .inr (by simp)
  · exact .inr (by simp)
  · exact .inr (by simp)

section
variable {rules : List Rule} (hrules : ∀ rl ∈ rules, rl ∈ allRules) {rl : Rule} {p : Option UInt8}
    {m t : GoString}
include hrules

/-- What replaces a match is left alone; an address, if the mail rule alone changes it. -/
theorem fixed_apply (hrl : rl ∈ allRules) (h : rl.pattern.Matches p m t) (hne : rl.apply m ≠ m)
    (hmail : rl = emailRule → ∀ rl' ∈ rules, rl' = emailRule ∨ applyRule m rl' = m) :
    Fixed rules (rl.apply m) := by
  rcases label_of_mem hrl with hlabel | hother
  · exact fun rl' hrl' => fixed_label _ (hlabel m hne) rl' (hrules rl' hrl')
  simp only [List.mem_cons, List.not_mem_nil, or_false] at hother
  rcases hother with rfl | rfl | rfl | rfl | rfl
  · exact fixed_redactRUPhone hrules h
  · exact fixed_redactCNPhone hrules h
  · obtain ⟨-, -, hlo, hhi⟩ := bankCard_shape h
    obtain ⟨a, b, heq, ha, hb, hla, hlb⟩ := redactBankCard_eq hlo hhi
    have hcard := fixed_cardText hrules ha hb hla hlb
    rwa [← heq] at hcard
  · exact fixed_redactEmail hrules h (hmail rfl)
  · exact fixed_redactIPv4 hrules h

end

/-- The patterns of the rules. -/
def Patterns (rules : List Rule) (r : Pattern) : Prop := ∃ rl ∈ rules, r = rl.pattern

/-- 91 is an opening bracket. -/
theorem ends_of_mem_labels : ∀ s ∈ labels, s.head? = some 91 ∧ s.getLast? = some 93 := by decide

theorem openBracket_unused : ∀ rl ∈ allRules, rl.pattern.uses 91 = false := by decide

section
variable {m t : GoString} {p : Option UInt8} {b : UInt8}

theorem head?_keepDigits (h : m.head? = some b) (hb : isDigit b = true) : (keepDigits m).head? = some b := by
  cases m with
  | nil => cases h
  | cons c m =>
    cases h
    simp [keepDigits, hb]

theorem getLast?_keepDigits (h : m.getLast? = some b) (hb : isDigit b = true) :
    (keepDigits m).getLast? = some b := by
  obtain ⟨m, rfl⟩ := List.getLast?_eq_some_iff.mp h
  simp [keepDigits, hb]

theorem last_of_drop {d s : GoString} {n : ℕ} (hn : n < d.length) :
    (s ++ d.drop n).getLast? = d.getLast? := by
  rw [List.getLast?_append, List.getLast?_drop, if_neg (by omega)]
  cases hd : d.getLast? with
  | none =>
    rw [List.getLast?_eq_none_iff.mp hd] at hn
    cases hn
  | some y => rfl

/-- A match has a first and a last letter. -/
theorem ends_of_matches {r : Pattern} (hr : r.nullable = false) (h : r.Matches p m t) :
    ∃ x y, m.head? = some x ∧ m.getLast? = some y ∧ r.first x = true ∧ r.last y = true := by
  have hm : m ≠ [] := by
    rintro rfl
    rw [h.nullable] at hr
    cases hr
  obtain ⟨x, hx⟩ := Option.isSome_iff_exists.mp (List.isSome_head?.mpr hm)
  obtain ⟨y, hy⟩ := Option.isSome_iff_exists.mp (List.getLast?_isSome.mpr hm)
  exact ⟨x, y, hx, hy, h.first hx, h.last hy⟩

theorem ends_redactBankCard (h : bankCard.Matches p m t) :
    (redactBankCard m).head? = m.head? ∧ (redactBankCard m).getLast? = m.getLast? := by
  obtain ⟨x, y, hx, hy, hfirst, hlast⟩ := ends_of_matches (by rfl) h
  have hxd : isDigit x = true := by
    simpa [bankCard, Pattern.cat, Pattern.wordB, Pattern.times, Re.first, Re.nullable] using hfirst
  have hyd : isDigit y = true := by
    simpa [bankCard, Pattern.cat, Pattern.wordB, Pattern.times, Pattern.between, Pattern.opt, Re.last,
      Re.nullable] using hlast
  obtain ⟨-, -, hlo, hhi⟩ := bankCard_shape h
  unfold redactBankCard
  rw [if_neg (by omega), last_of_drop (by omega), getLast?_keepDigits hy hyd, hx, hy, List.append_assoc,
    List.head?_append, List.head?_take, if_neg (by decide), head?_keepDigits hx hxd]
  exact ⟨rfl, rfl⟩

theorem ends_redactRUPhone (h : ruPhone.Matches p m t) :
    (redactRUPhone m).head? = some 43 ∧ (redactRUPhone m).getLast? = m.getLast? ∧
      (m.head? = some 43 ∨ m.head? = some 55 ∨ m.head? = some 56) := by
  obtain ⟨x, y, hx, hy, hfirst, hlast⟩ := ends_of_matches (by rfl) h
  have hxs : x = 43 ∨ x = 55 ∨ x = 56 := by
    simpa [ruPhone, Pattern.cat, Pattern.byte, Pattern.one, Pattern.opt, Re.first, Re.nullable, or_assoc]
      using hfirst
  have hyd : isDigit y = true := by
    simpa [ruPhone, Pattern.cat, Pattern.byte, Pattern.one, Pattern.times, Pattern.opt, Re.last,
      Re.nullable] using hlast
  obtain ⟨hlen, hcode⟩ := ruPhone_shape h
  have hpos : (keepDigits m).length - 2 < (keepDigits m).length := by omega
  unfold redactRUPhone
  rw [if_neg (by omega), if_pos (by rcases hcode with hc | hc <;> simp [hc, hlen]), last_of_drop hpos,
    getLast?_keepDigits hy hyd, hx, hy]
  exact ⟨rfl, rfl, by simpa using hxs⟩

theorem ends_redactCNPhone (h : cnPhone.Matches p m t) :
    (redactCNPhone m).head? = m.head? ∧ (redactCNPhone m).getLast? = m.getLast? := by
  obtain ⟨-, -, hm, hlen⟩ := cnPhone_shape h
  rw [redactCNPhone_eq hm hlen, ← List.append_assoc, last_of_drop (by omega), List.append_assoc,
    List.head?_append, List.head?_take, if_neg (by decide)]
  refine ⟨?_, rfl⟩
  cases m with
  | nil => cases hlen
  | cons x m => rfl

theorem ends_redactEmail (h : email.Matches p m t) :
    (redactEmail m).head? = m.head? ∧ (redactEmail m).getLast? = m.getLast? := by
  obtain ⟨x, l, dom, rfl, hl, -, hdom, -⟩ := email_shape h
  obtain ⟨dom, y, rfl⟩ := List.eq_nil_or_concat' dom |>.resolve_left hdom
  rw [redactEmail_eq hl]
  constructor
  · rfl
  · have hend : ∀ u : GoString, (u ++ (dom ++ [y])).getLast? = some y := fun u => by
      simp [List.getLast?_append]
    have hbefore := hend (x :: (l ++ [64]))
    rw [List.cons_append, List.append_assoc] at hbefore
    exact (hend (x :: lit "***@")).trans hbefore.symm

theorem ends_redactIPv4 (h : ipv4.Matches p m t) :
    (redactIPv4 m).head? = m.head? ∧ (redactIPv4 m).getLast? = some 42 := by
  obtain ⟨a, b, c, d, rfl, hoctets, -, -⟩ := ipv4_shape h
  have ha := (hoctets a (by simp)).ne_nil
  rw [redactIPv4_eq hoctets]
  constructor
  · cases a with
    | nil => exact absurd rfl ha
    | cons x a => rfl
  · rw [List.getLast?_append]
    rfl

end

theorem ruPhone_follows_plus (c : UInt8) : ruPhone.follows c 43 = false := by
  simp [ruPhone, Pattern.cat, Pattern.byte, Pattern.one, Pattern.opt, Pattern.times, Re.follows, Re.first,
    Re.last, Re.nullable, spaceOrDash, space, isDigit]

theorem email_follows_plus {c : UInt8} (h : email.follows c 43 = true) : mailbox c = true := by
  have hboth : mailbox c = true ∧ mailbox 43 = true := by
    simpa [email, Pattern.cat, Pattern.byte, Pattern.one, Pattern.atLeast, Pattern.wordB, Re.follows,
      Re.first, Re.last, Re.nullable, host, letter, isDigit] using h
  exact hboth.1

theorem email_follows_of_mailbox {c y : UInt8} (hc : mailbox c = true) (hy : mailbox y = true) :
    email.follows c y = true := by
  simp [email, Pattern.cat, Pattern.atLeast, Pattern.wordB, Re.follows, hc, hy]

/-- A pattern joins a plus to no letter to which it does not join a seven and an eight. -/
theorem follows_of_plus {rl : Rule} (hrl : rl ∈ allRules) {c : UInt8} (h : rl.pattern.follows c 43 = true) :
    rl.pattern.follows c 55 = true ∧ rl.pattern.follows c 56 = true := by
  have huses := (Re.uses_of_follows h).2
  rcases mem_allRules.mp hrl with rfl | hrl
  · rw [show ruPhoneRule.pattern.follows c 43 = false from ruPhone_follows_plus c] at h
    cases h
  · rcases hrl with rfl | rfl | rfl | rfl | rfl | rfl | rfl | rfl | rfl
    on_goal 8 =>
      have hc := email_follows_plus h
      exact ⟨email_follows_of_mailbox hc rfl, email_follows_of_mailbox hc rfl⟩
    all_goals cases huses

section
variable {rules : List Rule} (hrules : ∀ rl ∈ rules, rl ∈ allRules) {rl : Rule} {p : Option UInt8}
    {m t : GoString}
include hrules

/-- What replaces a match is joined to its neighbours by no pattern that does not join the match to them. -/
theorem kept_apply (hrl : rl ∈ allRules) (h : rl.pattern.Matches p m t) (hne : rl.apply m ≠ m) :
    Re.Kept (Patterns rules) m (rl.apply m) := by
  have hunused : ∀ c, (∀ rl ∈ allRules, rl.pattern.uses c = false) → ∀ r, Patterns rules r →
    r.uses c = false := by
    rintro c hc r ⟨rl', hrl', rfl⟩
    exact hc rl' (hrules rl' hrl')
  obtain ⟨x, y, hx, hy, -, -⟩ := ends_of_matches (nullable_of_mem rl hrl) h
  have hm : m ≠ [] := by
    rintro rfl
    cases hx
  have hnil : ∀ {s : GoString} {c : UInt8}, s.head? = some c → (m = [] ↔ s = []) := fun hs =>
    iff_of_false hm (by rintro rfl; cases hs)
  rcases label_of_mem hrl with hlabel | hother
  · obtain ⟨hfront, hback⟩ := ends_of_mem_labels _ (hlabel m hne)
    exact ⟨hnil hfront, .of_unused hfront (hunused 91 openBracket_unused),
      .of_unused hback (hunused 93 bracket_unused)⟩
  simp only [List.mem_cons, List.not_mem_nil, or_false] at hother
  rcases hother with rfl | rfl | rfl | rfl | rfl
  · obtain ⟨hfront, hback, hcode⟩ := ends_redactRUPhone h
    refine ⟨hnil hfront, ?_, .of_eq hback⟩
    rintro r ⟨rl', hrl', rfl⟩ c hc z hz
    rw [show ruPhoneRule.apply m = redactRUPhone m from rfl, hfront, Option.mem_some] at hz
    subst hz
    cases hfollows : rl'.pattern.follows c 43 with
    | false => rfl
    | true =>
      obtain ⟨hseven, height⟩ := follows_of_plus (hrules rl' hrl') hfollows
      rcases hcode with hcode | hcode | hcode
      · simpa [hfollows] using hc 43 hcode
      · simpa [hseven] using hc 55 hcode
      · simpa [height] using hc 56 hcode
  · obtain ⟨hfront, hback⟩ := ends_redactCNPhone h
    exact ⟨hnil (hfront.trans hx), .of_eq hfront, .of_eq hback⟩
  · obtain ⟨hfront, hback⟩ := ends_redactBankCard h
    exact ⟨hnil (hfront.trans hx), .of_eq hfront, .of_eq hback⟩
  · obtain ⟨hfront, hback⟩ := ends_redactEmail h
    exact ⟨hnil (hfront.trans hx), .of_eq hfront, .of_eq hback⟩
  · obtain ⟨hfront, hback⟩ := ends_redactIPv4 h
    exact ⟨hnil (hfront.trans hx), .of_eq hfront, .of_unused hback (hunused 42 star_unused)⟩

end

/-- A part that no rule changes, or that the first rule to change it matches as a whole. The mail rule shows a
domain, so the rules after it have to leave the part alone too. -/
inductive Settled (rules : List Rule) (s : GoString) : Prop
  | same (h : Fixed rules s)
  | whole (pre post : List Rule) (rl : Rule) (split : rules = pre ++ rl :: post) (before : Fixed pre s)
      (changes : rl.apply s ≠ s) (found : rl.pattern.find none s = some (s, []))
      (mail : rl = emailRule → Fixed post s)

/-- The text is made of settled parts with a byte between two of them over which no pattern that runs can
go. -/
def Separated (U : CaseTables) (languageOrJurisdiction s : GoString) : Prop :=
  Re.Parts (Patterns (runningRules U languageOrJurisdiction))
    (Settled (runningRules U languageOrJurisdiction)) s

/-- A part when the rules `later` are still to run: its text is final, or the replacement is to come. -/
inductive Stage (rules later : List Rule) (s : GoString) : Prop
  | final (h : Fixed rules s)
  | waiting (pre post : List Rule) (rl : Rule) (split : later = pre ++ rl :: post) (before : Fixed pre s)
      (found : rl.pattern.find none s = some (s, [])) (fixed : Fixed rules (rl.apply s))
      (kept : Re.Kept (Patterns rules) s (rl.apply s))

section
variable {rules later : List Rule} (hrules : ∀ rl ∈ rules, rl ∈ allRules) {rl : Rule} {s : GoString}
include hrules

theorem Settled.stage (h : Settled rules s) : Stage rules rules s := by
  cases h with
  | same h => exact .final h
  | whole pre post rl split before changes found mail =>
    have hrl : rl ∈ allRules := hrules rl (by simp [split])
    obtain ⟨-, hmatch⟩ := Re.find_eq_some found
    refine .waiting pre post rl split before found (fixed_apply hrules hrl hmatch changes ?_)
      (kept_apply hrules hrl hmatch changes)
    intro hmail rl' hrl'
    rw [split] at hrl'
    rcases List.mem_append.mp hrl' with hpre | hpost
    · exact .inr (before rl' hpre)
    · rcases List.mem_cons.mp hpost with rfl | hpost
      · exact .inl hmail
      · exact .inr (mail hmail rl' hpost)

theorem Stage.step (hrl : rl ∈ rules) (h : Stage rules (rl :: later) s) :
    Stage rules later (applyRule s rl) ∧ Re.Kept (Patterns rules) s (applyRule s rl) := by
  cases h with
  | final h =>
    rw [h rl hrl]
    exact ⟨.final h, .refl _ _⟩
  | waiting pre post rl' split before found fixed kept =>
    cases pre with
    | nil =>
      obtain ⟨rfl, rfl⟩ := List.cons.inj split
      have hs : s ≠ [] := by
        rintro rfl
        have hnull := nullable_of_mem rl (hrules rl hrl)
        rw [(Re.find_eq_some found).2.nullable] at hnull
        cases hnull
      have hpass : applyRule s rl = rl.apply s := Re.replaceAll_whole hs found
      rw [hpass]
      exact ⟨.final fixed, kept⟩
    | cons rl'' pre =>
      obtain ⟨rfl, hsplit⟩ := List.cons.inj split
      rw [before rl List.mem_cons_self]
      exact ⟨.waiting pre post rl' hsplit
        (fun x hx => before x (List.mem_cons_of_mem _ hx)) found fixed kept, .refl _ _⟩

/-- All passes over a text in parts. -/
theorem parts_foldl (hlater : ∀ rl ∈ later, rl ∈ rules)
    (h : Re.Parts (Patterns rules) (Stage rules later) s) :
    Re.Parts (Patterns rules) (Stage rules []) (later.foldl applyRule s) := by
  induction later generalizing s with
  | nil => exact h
  | cons rl later ih =>
    have hrl := hlater rl List.mem_cons_self
    have hpass := h.replaceAll ⟨rl, hrl, rfl⟩ (nullable_of_mem rl (hrules rl hrl)) fun p hp =>
      hp.step hrules hrl
    exact ih (fun x hx => hlater x (List.mem_cons_of_mem _ hx)) hpass.1

theorem fixed_of_parts (h : Re.Parts (Patterns rules) (Stage rules []) s) : Fixed rules s := by
  intro rl hrl
  refine h.replaceAll_eq_self ⟨rl, hrl, rfl⟩ (nullable_of_mem rl (hrules rl hrl)) fun p hp => ?_
  cases hp with
  | final hp => exact hp rl hrl
  | waiting pre post rl' split => simp at split

end

/-- No rule changes the redacted text, if the text was in separate parts. -/
theorem Separated.fixed {U : CaseTables} {languageOrJurisdiction s : GoString}
    (h : Separated U languageOrJurisdiction s) :
    Fixed (runningRules U languageOrJurisdiction) (redactString U languageOrJurisdiction s) := by
  have hrules := running_mem_allRules U languageOrJurisdiction
  have hstage := h.imp fun p hp => hp.stage hrules
  rw [redactString_eq_foldl]
  exact fixed_of_parts hrules (parts_foldl hrules (fun rl hrl => hrl) hstage)

end SynapseGo.Pii
