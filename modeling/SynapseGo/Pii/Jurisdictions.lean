import SynapseGo.Pii.Shapes

/-! What the rules of a jurisdiction do to a text that one universal rule replaces as a whole. Asterisks and
brackets are in no pattern, so a pass can only add them, and each change of a text adds some. -/
namespace SynapseGo.Pii
open SynapseGo.Go SynapseGo.Regex

def allRules : List Rule := ruRules ++ cnRules ++ universalRules

theorem nullable_of_mem : ∀ rl ∈ allRules, rl.pattern.nullable = false := by decide

/-- 42 is an asterisk. -/
theorem star_unused : ∀ rl ∈ allRules, rl.pattern.uses 42 = false := by decide

/-- 93 is a closing bracket. -/
theorem bracket_unused : ∀ rl ∈ allRules, rl.pattern.uses 93 = false := by decide

/-- The rules for Russia run. -/
def ruRuns (U : CaseTables) (languageOrJurisdiction : GoString) : Bool :=
  jurisdiction U languageOrJurisdiction ≠ lit "cn" ∧ jurisdiction U languageOrJurisdiction ≠ lit "en"

/-- The rules for China run. -/
def cnRuns (U : CaseTables) (languageOrJurisdiction : GoString) : Bool :=
  jurisdiction U languageOrJurisdiction ≠ lit "ru" ∧ jurisdiction U languageOrJurisdiction ≠ lit "en"

theorem jurisdictionRules_eq (U : CaseTables) (languageOrJurisdiction : GoString) :
    jurisdictionRules U languageOrJurisdiction =
      (if ruRuns U languageOrJurisdiction then ruRules else []) ++
        if cnRuns U languageOrJurisdiction then cnRules else [] := by
  unfold jurisdictionRules ruRuns cnRuns
  generalize jurisdiction U languageOrJurisdiction = hint
  dsimp only
  by_cases hru : hint = lit "ru"
  · subst hru
    rfl
  by_cases hcn : hint = lit "cn"
  · subst hcn
    rfl
  by_cases hen : hint = lit "en"
  · subst hen
    rfl
  simp [hru, hcn, hen]

theorem mem_allRules_of_jurisdiction {U : CaseTables} {languageOrJurisdiction : GoString} {rl : Rule}
    (h : rl ∈ jurisdictionRules U languageOrJurisdiction) : rl ∈ ruRules ∨ rl ∈ cnRules := by
  rw [jurisdictionRules_eq] at h
  rcases List.mem_append.mp h with h | h
  · split at h
    · exact .inl h
    · cases h
  · split at h
    · exact .inr h
    · cases h

/-- None of the rules changes the text. -/
def Fixed (rules : List Rule) (s : GoString) : Prop := ∀ rl ∈ rules, applyRule s rl = s

instance (rules : List Rule) (s : GoString) : Decidable (Fixed rules s) :=
  inferInstanceAs (Decidable (∀ rl ∈ rules, applyRule s rl = s))

section
variable {s : GoString} {rules : List Rule}

/-- No rule changes the text, or there is a first that does. -/
theorem fixed_or_first (rules : List Rule) (s : GoString) :
    Fixed rules s ∨ ∃ pre rl post, rules = pre ++ rl :: post ∧ Fixed pre s ∧ applyRule s rl ≠ s := by
  induction rules with
  | nil => exact .inl nofun
  | cons rl rules ih =>
    by_cases hrl : applyRule s rl = s
    · rcases ih with h | ⟨pre, rl', post, rfl, hpre, hne⟩
      · exact .inl (List.forall_mem_cons.mpr ⟨hrl, h⟩)
      · exact .inr ⟨rl :: pre, rl', post, rfl, List.forall_mem_cons.mpr ⟨hrl, hpre⟩, hne⟩
    · exact .inr ⟨[], rl, rules, rfl, nofun, hrl⟩

theorem Fixed.foldl (h : Fixed rules s) : rules.foldl applyRule s = s := by
  induction rules with
  | nil => rfl
  | cons rl rules ih =>
    rw [List.foldl_cons, h rl List.mem_cons_self]
    exact ih fun rl' hrl' => h rl' (List.mem_cons_of_mem _ hrl')

theorem foldl_if_eq_self {c : Bool} (h : c = true → Fixed rules s) :
    (if c then rules else []).foldl applyRule s = s := by
  cases c with
  | false => rfl
  | true => exact (h rfl).foldl

theorem count_le_foldl {c : UInt8} (hrules : ∀ rl ∈ rules, rl ∈ allRules)
    (hc : ∀ rl ∈ allRules, rl.pattern.uses c = false) :
    s.count c ≤ (rules.foldl applyRule s).count c := by
  induction rules generalizing s with
  | nil => exact Nat.le_refl _
  | cons rl rules ih =>
    have hmem := hrules rl List.mem_cons_self
    have hstep : s.count c ≤ (applyRule s rl).count c :=
      Re.count_le_count_replaceAll (nullable_of_mem rl hmem) (hc rl hmem)
    exact Nat.le_trans hstep (ih fun rl' hrl' => hrules rl' (List.mem_cons_of_mem _ hrl'))

end

/-- A text that a rule changes, with a match that shows it. -/
theorem applyRule_ne {rl : Rule} {s : GoString} (hrl : rl ∈ allRules) (h : applyRule s rl ≠ s) :
    ∃ m, rl.pattern.Replaced rl.apply none s (applyRule s rl) m :=
  (Re.replaceAll_cases (nullable_of_mem rl hrl) rl.apply s).resolve_left h

theorem count_le_append (a s b : GoString) (c : UInt8) : s.count c ≤ (a ++ (s ++ b)).count c := by
  rw [List.count_append, List.count_append]
  omega

theorem Digits.count_eq_zero {s : GoString} (hs : Digits s) {c : UInt8} (hc : isDigit c = false) :
    s.count c = 0 := by
  rw [List.count_eq_zero]
  intro hmem
  rw [hs c hmem] at hc
  cases hc

section
variable {p : Option UInt8} {m t : GoString}

theorem stars_redactRUPhone (h : ruPhone.Matches p m t) : 5 ≤ (redactRUPhone m).count 42 := by
  obtain ⟨a, b, heq, -⟩ := redactRUPhone_eq h
  rw [heq, ← List.append_assoc]
  exact count_le_append _ (lit "-***-**-") b 42

theorem stars_redactCNPhone (h : cnPhone.Matches p m t) : 4 ≤ (redactCNPhone m).count 42 := by
  obtain ⟨-, -, hm, hlen⟩ := cnPhone_shape h
  rw [redactCNPhone_eq hm hlen]
  exact count_le_append _ (lit "****") _ 42

theorem marks_cardText {a b : GoString} (ha : Digits a) (hb : Digits b) :
    (a ++ (lit " **** **** " ++ b)).count 42 = 8 ∧ (a ++ (lit " **** **** " ++ b)).count 93 = 0 := by
  simp only [List.count_append, ha.count_eq_zero (c := 42) rfl, hb.count_eq_zero (c := 42) rfl,
    ha.count_eq_zero (c := 93) rfl, hb.count_eq_zero (c := 93) rfl]
  decide

theorem marks_redactBankCard (h : bankCard.Matches p m t) :
    (redactBankCard m).count 42 = 8 ∧ (redactBankCard m).count 93 = 0 := by
  obtain ⟨-, -, hlo, hhi⟩ := bankCard_shape h
  obtain ⟨a, b, heq, ha, hb, -, -⟩ := redactBankCard_eq hlo hhi
  rw [heq]
  exact marks_cardText ha hb

theorem marks_redactEmail (h : email.Matches p m t) :
    (redactEmail m).count 42 = 3 ∧ (redactEmail m).count 93 = 0 := by
  obtain ⟨x, l, dom, rfl, hl, -, -, -⟩ := email_shape h
  have hnone : ∀ c, email.uses c = false → (x :: (l ++ 64 :: dom)).count c = 0 := fun c hc =>
    List.count_eq_zero.mpr fun hmem => by simp [h.uses hmem] at hc
  have hstar := hnone 42 rfl
  have hbracket := hnone 93 rfl
  have hlit : (lit "***@").count 42 = 3 ∧ (lit "***@").count 93 = 0 := by decide
  rw [redactEmail_eq hl]
  simp only [List.count_cons, List.count_append] at hstar hbracket ⊢
  omega

theorem marks_redactIPv4 (h : ipv4.Matches p m t) :
    (redactIPv4 m).count 42 = 2 ∧ (redactIPv4 m).count 93 = 0 := by
  obtain ⟨a, b, c, d, rfl, hoctets, -, -⟩ := ipv4_shape h
  have ha := (hoctets a (by simp)).1
  have hb := (hoctets b (by simp)).1
  rw [redactIPv4_eq hoctets]
  simp only [List.count_append, ha.count_eq_zero (c := 42) rfl, hb.count_eq_zero (c := 42) rfl,
    ha.count_eq_zero (c := 93) rfl, hb.count_eq_zero (c := 93) rfl]
  decide

theorem redactINNCandidate_ne (h : redactINNCandidate m ≠ m) :
    redactINNCandidate m = lit "[REDACTED:INN]" := by
  unfold redactINNCandidate at h ⊢
  split at h
  next hlen => rw [if_pos hlen]
  next => exact absurd rfl h

end

section
variable {rl : Rule} {p : Option UInt8} {s s' m : GoString}

/-- What a change by a rule for Russia leaves: five asterisks or more, or a label. -/
theorem ru_marks (hrl : rl ∈ ruRules) (h : rl.pattern.Replaced rl.apply p s s' m) :
    rl = ruPhoneRule ∧ 5 ≤ (rl.apply m).count 42 ∨
    rl.apply m ∈ [lit "[REDACTED:SNILS]", lit "[REDACTED:INN]"] := by
  obtain ⟨u, t, -, hm⟩ := h.found
  simp only [ruRules, List.mem_cons, List.not_mem_nil, or_false] at hrl
  rcases hrl with rfl | rfl | rfl
  · exact .inl ⟨rfl, stars_redactRUPhone hm⟩
  · exact .inr (by simp [snilsRule])
  · have hinn : innRule.apply m = lit "[REDACTED:INN]" := redactINNCandidate_ne h.ne
    exact .inr (by simp [hinn])

theorem cn_marks (hrl : rl ∈ cnRules) (h : rl.pattern.Replaced rl.apply p s s' m) :
    rl = cnPhoneRule ∧ 4 ≤ (rl.apply m).count 42 ∨ rl.apply m = lit "[REDACTED:CN_ID]" := by
  obtain ⟨u, t, -, hm⟩ := h.found
  simp only [cnRules, List.mem_cons, List.not_mem_nil, or_false] at hrl
  rcases hrl with rfl | rfl
  · exact .inl ⟨rfl, stars_redactCNPhone hm⟩
  · exact .inr rfl

/-- What a change by a universal rule leaves. -/
theorem universal_marks (hrl : rl ∈ universalRules) (h : rl.pattern.Matches p m s) :
    rl.apply m ∈ [lit "[REDACTED:JWT]", lit "[REDACTED:APIKEY]"] ∨
      rl = bankCardRule ∧ (rl.apply m).count 42 = 8 ∧ (rl.apply m).count 93 = 0 ∨
      (rl = emailRule ∨ rl = ipv4Rule) ∧ (rl.apply m).count 42 ∈ [2, 3] ∧ (rl.apply m).count 93 = 0 := by
  simp only [universalRules, List.mem_cons, List.not_mem_nil, or_false] at hrl
  rcases hrl with rfl | rfl | rfl | rfl | rfl
  · exact .inl (by simp [jwtRule])
  · exact .inl (by simp [apiKeyRule])
  · exact .inr (.inl ⟨rfl, marks_redactBankCard h⟩)
  · have hmarks := marks_redactEmail h
    exact .inr (.inr ⟨.inl rfl, by simp [emailRule, hmarks.1], hmarks.2⟩)
  · have hmarks := marks_redactIPv4 h
    exact .inr (.inr ⟨.inr rfl, by simp [ipv4Rule, hmarks.1], hmarks.2⟩)

end

/-- The texts that stand for a match as a whole. -/
def labels : List GoString :=
  [lit "[REDACTED:JWT]", lit "[REDACTED:APIKEY]", lit "[REDACTED:SNILS]", lit "[REDACTED:INN]",
    lit "[REDACTED:CN_ID]"]

theorem marks_of_mem_labels : ∀ s ∈ labels, s.count 42 = 0 ∧ s.count 93 = 1 := by decide

theorem ru_subset_labels : [lit "[REDACTED:SNILS]", lit "[REDACTED:INN]"] ⊆ labels := by decide

theorem universal_subset_labels : [lit "[REDACTED:JWT]", lit "[REDACTED:APIKEY]"] ⊆ labels := by decide

/-- No label shows in another. -/
theorem labels_isInfix : ∀ s ∈ labels, ∀ s' ∈ labels, s <:+: s' → s = s' := by decide

theorem allRules_cases {rl : Rule} (h : rl ∈ allRules) :
    rl ∈ ruRules ∨ rl ∈ cnRules ∨ rl ∈ universalRules := by
  simpa [allRules, or_assoc] using h

/-- Every change shows: by a label, or by asterisks. -/
theorem allRules_marks {rl : Rule} {p : Option UInt8} {s s' m : GoString} (hrl : rl ∈ allRules)
    (h : rl.pattern.Replaced rl.apply p s s' m) :
    rl.apply m ∈ labels ∨ (rl = emailRule ∨ rl = ipv4Rule) ∧ 2 ≤ (rl.apply m).count 42 ∨
      rl = cnPhoneRule ∧ 4 ≤ (rl.apply m).count 42 ∨ 5 ≤ (rl.apply m).count 42 := by
  rcases allRules_cases hrl with hrl | hrl | hrl
  · rcases ru_marks hrl h with ⟨-, hstars⟩ | hlabel
    · exact .inr (.inr (.inr hstars))
    · exact .inl (ru_subset_labels hlabel)
  · rcases cn_marks hrl h with hstars | hlabel
    · exact .inr (.inr (.inl hstars))
    · exact .inl (by simp [hlabel, labels])
  · obtain ⟨u, t, -, hm⟩ := h.found
    rcases universal_marks hrl hm with hlabel | ⟨-, hstars, -⟩ | ⟨hrl, hstars, -⟩
    · exact .inl (universal_subset_labels hlabel)
    · exact .inr (.inr (.inr (by omega)))
    · simp only [List.mem_cons, List.not_mem_nil, or_false] at hstars
      exact .inr (.inl ⟨hrl, by omega⟩)

/-- `j` is the first of the rules `js` that changes `k`; `post` and `later` run after it and end with `e`. -/
structure FirstChange (js later : List Rule) (k e : GoString) (j : Rule) (post : List Rule) (m : GoString) :
    Prop where
  split : ∃ pre, js = pre ++ j :: post
  replaced : j.pattern.Replaced j.apply none k (applyRule k j) m
  ends : (post ++ later).foldl applyRule (applyRule k j) = e

section
variable {js later post : List Rule} {k e m : GoString} {j : Rule}

theorem exists_firstChange (hjs : ∀ rl ∈ js, rl ∈ allRules)
    (he : later.foldl applyRule (js.foldl applyRule k) = e) :
    Fixed js k ∨ ∃ j post m, FirstChange js later k e j post m := by
  rcases fixed_or_first js k with h | ⟨pre, j, post, rfl, hpre, hne⟩
  · exact .inl h
  · obtain ⟨m, hm⟩ := applyRule_ne (hjs j (by simp)) hne
    refine .inr ⟨j, post, m, ⟨pre, rfl⟩, hm, ?_⟩
    rw [← he, List.foldl_append, List.foldl_append, hpre.foldl, List.foldl_cons]

theorem FirstChange.mem (h : FirstChange js later k e j post m) : j ∈ js := by
  obtain ⟨pre, rfl⟩ := h.split
  simp

variable (hrun : ∀ rl ∈ js ++ later, rl ∈ allRules) (h : FirstChange js later k e j post m)
include hrun h

theorem FirstChange.mem_allRules : j ∈ allRules := hrun j (List.mem_append_left _ h.mem)

theorem FirstChange.later_mem : ∀ rl ∈ post ++ later, rl ∈ allRules := by
  obtain ⟨pre, rfl⟩ := h.split
  intro rl hrl
  apply hrun
  simp only [List.mem_append, List.mem_cons] at hrl ⊢
  tauto

/-- What the first change adds is still there at the end. -/
theorem FirstChange.count_le {c : UInt8} (hc : ∀ rl ∈ allRules, rl.pattern.uses c = false) :
    (j.apply m).count c ≤ (applyRule k j).count c ∧ (applyRule k j).count c ≤ e.count c := by
  have hadd := h.replaced.count_le c (hc j (h.mem_allRules hrun))
  have hlater := count_le_foldl (s := applyRule k j) (h.later_mem hrun) hc
  rw [h.ends] at hlater
  omega

/-- The rules after the first change leave its text alone, or one of them adds to it. -/
theorem FirstChange.later_cases : applyRule k j = e ∨ ∃ rl ∈ post ++ later, ∃ m',
    rl.pattern.Replaced rl.apply none (applyRule k j) (applyRule (applyRule k j) rl) m' ∧
      ∀ c, (∀ rl ∈ allRules, rl.pattern.uses c = false) →
        (applyRule k j).count c + (rl.apply m').count c ≤ e.count c := by
  have hmem := h.later_mem hrun
  have hends := h.ends
  rcases fixed_or_first (post ++ later) (applyRule k j) with hall | ⟨pre, rl, post', heq, hpre, hne⟩
  · rw [hall.foldl] at hends
    exact .inl hends
  · have hrl : rl ∈ post ++ later := by simp [heq]
    obtain ⟨m', hm'⟩ := applyRule_ne (hmem rl hrl) hne
    refine .inr ⟨rl, hrl, m', hm', fun c hc => ?_⟩
    rw [heq, List.foldl_append, hpre.foldl, List.foldl_cons] at hends
    have hadd := hm'.count_le c (hc rl (hmem rl hrl))
    have hpost : ∀ rl' ∈ post', rl' ∈ allRules := fun rl' hrl' => hmem rl' (by simp [heq, hrl'])
    have hlater := count_le_foldl (s := applyRule (applyRule k j) rl) hpost hc
    rw [hends] at hlater
    omega

/-- A label at the end is that of the first change. -/
theorem FirstChange.apply_eq_of_label (he : e ∈ labels) : j.apply m = e := by
  have hmarks := marks_of_mem_labels e he
  have hstar := h.count_le hrun star_unused
  have hlabel : j.apply m ∈ labels := by
    rcases allRules_marks (h.mem_allRules hrun) h.replaced with hlabel | ⟨-, hj⟩ | ⟨-, hj⟩ | hj
    · exact hlabel
    all_goals omega
  apply labels_isInfix _ hlabel _ he
  rcases h.later_cases hrun with heq | ⟨rl, hrl, m', hm', hadd⟩
  · exact heq ▸ h.replaced.shown
  · have hbracket := h.count_le hrun bracket_unused
    have hstar' := hadd 42 star_unused
    have hbracket' := hadd 93 bracket_unused
    have hfirst := marks_of_mem_labels _ hlabel
    rcases allRules_marks (h.later_mem hrun rl hrl) hm' with hlabel' | ⟨-, hrl⟩ | ⟨-, hrl⟩ | hrl
    · have hsecond := marks_of_mem_labels _ hlabel'
      omega
    all_goals omega

/-- An end without brackets has no label in it, and all asterisks of the first change. -/
theorem FirstChange.stars_le (he : e.count 93 = 0) :
    j.apply m ∉ labels ∧ (j.apply m).count 42 ≤ e.count 42 := by
  have hstar := h.count_le hrun star_unused
  have hbracket := h.count_le hrun bracket_unused
  refine ⟨fun hlabel => ?_, by omega⟩
  have hmarks := marks_of_mem_labels _ hlabel
  omega

end

section
variable {p : Option UInt8} {m t a b : GoString} {c : UInt8}

theorem mem_redactRUPhone (h : ruPhone.Matches p m t) (hc : c ∈ redactRUPhone m) :
    isDigit c = true ∨ c ∈ lit "+7-***-**-" := by
  obtain ⟨x, y, heq, hx, hy, -, -⟩ := redactRUPhone_eq h
  rw [heq] at hc
  simp only [List.mem_append] at hc
  rcases hc with hc | hc | hc | hc
  · exact .inr (List.mem_append_left (lit "***-**-") hc)
  · exact .inl (hx c hc)
  · exact .inr (List.mem_append_right (lit "+7") hc)
  · exact .inl (hy c hc)

theorem mem_redactCNPhone (h : cnPhone.Matches p m t) (hc : c ∈ redactCNPhone m) :
    isDigit c = true ∨ c ∈ lit "****" := by
  obtain ⟨-, -, hm, hlen⟩ := cnPhone_shape h
  rw [redactCNPhone_eq hm hlen] at hc
  simp only [List.mem_append] at hc
  rcases hc with hc | hc | hc
  · exact .inl (hm c (List.mem_of_mem_take hc))
  · exact .inr hc
  · exact .inl (hm c (List.mem_of_mem_drop hc))

/-- In a text of the letters of a card number, replaced telephone numbers bring no sign of an address. -/
theorem mem_applyRule_phone {j : Rule} {k : GoString} (hj : j = ruPhoneRule ∨ j = cnPhoneRule)
    (hk : ∀ b ∈ k, bankCard.uses b = true) : ∀ c ∈ applyRule k j, c ≠ 64 ∧ c ≠ 46 := by
  have hsigns : ∀ c, c ∈ lit "+7-***-**-" ∨ c ∈ lit "****" → c ≠ 64 ∧ c ≠ 46 := by
    intro c hc
    constructor <;> rintro rfl <;> revert hc <;> decide
  have hdigit : ∀ c, isDigit c = true → c ≠ 64 ∧ c ≠ 46 := by
    intro c hc
    constructor <;> rintro rfl <;> cases hc
  intro c hc
  have hr : j.pattern.nullable = false := by
    rcases hj with rfl | rfl <;> rfl
  rcases Re.mem_replaceAll hr hc with hc | ⟨p, m, t, hm, hc⟩
  · have huses := hk c hc
    constructor <;> rintro rfl <;> cases huses
  · rcases hj with rfl | rfl
    · exact (mem_redactRUPhone hm hc).elim (hdigit c) fun hc => hsigns c (.inl hc)
    · exact (mem_redactCNPhone hm hc).elim (hdigit c) fun hc => hsigns c (.inr hc)

theorem not_isInfix_redactRUPhone (h : ruPhone.Matches p m t) (ha : Digits a) (hb : Digits b) :
    ¬redactRUPhone m <:+: a ++ (lit " **** **** " ++ b) := by
  intro hshown
  obtain ⟨x, y, heq, -⟩ := redactRUPhone_eq h
  have hplus : (43 : UInt8) ∈ a ++ (lit " **** **** " ++ b) :=
    hshown.subset (heq ▸ List.mem_append_left _ (by decide))
  simp only [List.mem_append] at hplus
  rcases hplus with hplus | hplus | hplus
  · cases ha 43 hplus
  · revert hplus
    decide
  · cases hb 43 hplus

/-- In a replaced card number no asterisk stands right after a digit. -/
theorem isChain_cardText (ha : Digits a) (hb : Digits b) :
    (a ++ (lit " **** **** " ++ b)).IsChain fun x y => isDigit x = true → y ≠ 42 := by
  have hdigits : ∀ {s : GoString}, Digits s → s.IsChain fun x y => isDigit x = true → y ≠ 42 := by
    intro s hs
    have hpairs : s.Pairwise fun x y => isDigit x = true → y ≠ 42 := by
      refine List.pairwise_of_forall_mem_list fun x _ y hy _ => ?_
      rintro rfl
      cases hs 42 hy
    exact hpairs.isChain
  refine List.isChain_append.mpr ⟨hdigits ha, List.isChain_append.mpr ⟨by decide, hdigits hb, ?_⟩, ?_⟩
  · intro x _ y hy _
    rintro rfl
    cases hb 42 (List.mem_of_mem_head? hy)
  · intro x _ y hy _
    cases hy
    decide

theorem not_isInfix_redactCNPhone (h : cnPhone.Matches p m t) (ha : Digits a) (hb : Digits b) :
    ¬redactCNPhone m <:+: a ++ (lit " **** **** " ++ b) := by
  intro hshown
  obtain ⟨-, -, hm, hlen⟩ := cnPhone_shape h
  obtain ⟨u, v, heq⟩ := hshown
  have hcard := isChain_cardText ha hb
  rw [← heq, redactCNPhone_eq hm hlen] at hcard
  have hchain := hcard.left_of_append.right_of_append
  have hne : m.take 3 ≠ [] := List.ne_nil_of_length_pos (by simp [hlen])
  obtain ⟨s, x, hs⟩ := List.eq_nil_or_concat' (m.take 3) |>.resolve_left hne
  have hx : isDigit x = true := hm x (List.mem_of_mem_take (i := 3) (by simp [hs]))
  exact (List.isChain_append.mp hchain).2.2 x (by simp [hs]) 42 rfl hx rfl

end

section
variable {js later post : List Rule} {k e m : GoString} {j : Rule}

/-- Where the card pass ends the text, a telephone number was not replaced before it. -/
theorem FirstChange.not_card (hrun : ∀ rl ∈ js ++ later, rl ∈ allRules)
    (h : FirstChange js later k e j post m)
    (hj : j = ruPhoneRule ∨ j = cnPhoneRule ∧ cnPhoneRule ∉ post ++ later)
    (hk : ∀ b ∈ k, bankCard.uses b = true)
    {a b : GoString} (he : e = a ++ (lit " **** **** " ++ b)) (ha : Digits a) (hb : Digits b) : False := by
  have hstars : e.count 42 = 8 ∧ e.count 93 = 0 := he ▸ marks_cardText ha hb
  have hfirst := h.count_le hrun star_unused
  obtain ⟨u, t, -, hm⟩ := h.replaced.found
  rcases h.later_cases hrun with heq | ⟨rl, hrl, m', hm', hadd⟩
  · have hshown := heq ▸ h.replaced.shown
    rcases hj with rfl | ⟨rfl, -⟩
    · exact not_isInfix_redactRUPhone hm ha hb (he ▸ hshown)
    · exact not_isInfix_redactCNPhone hm ha hb (he ▸ hshown)
  · -- a later change has asterisks left for an address only
    have hletters := mem_applyRule_phone (hj.imp id And.left) hk
    have hstar' := hadd 42 star_unused
    have hbracket' := hadd 93 bracket_unused
    obtain ⟨u', t', hs', hm''⟩ := hm'.found
    have hpart : ∀ c ∈ m', c ≠ 64 ∧ c ≠ 46 := fun c hc => hletters c (by simp [hs', hc])
    have hj' : j = ruPhoneRule ∧ 5 ≤ (j.apply m).count 42 ∨
        cnPhoneRule ∉ post ++ later ∧ 4 ≤ (j.apply m).count 42 := by
      rcases hj with rfl | ⟨rfl, hnot⟩
      · exact .inl ⟨rfl, stars_redactRUPhone hm⟩
      · exact .inr ⟨hnot, stars_redactCNPhone hm⟩
    rcases allRules_marks (h.later_mem hrun rl hrl) hm' with hlabel' | ⟨rfl | rfl, -⟩ | ⟨rfl, hmore⟩ | hmore
    · have hmarks := marks_of_mem_labels _ hlabel'
      omega
    · obtain ⟨x, l, dom, rfl, -⟩ := email_shape hm''
      exact (hpart 64 (by simp)).1 rfl
    · obtain ⟨x, y, z, w, rfl, -⟩ := ipv4_shape hm''
      exact (hpart 46 (by simp)).2 rfl
    · rcases hj' with ⟨-, hj'⟩ | ⟨hnot, -⟩
      · omega
      · exact hnot hrl
    · omega

end

/-- What can be left of a text that one universal rule replaces as a whole: a label, an address with few
asterisks, or the two ends of a card number. -/
def Outcome (whole : List GoString) (k e : GoString) : Prop :=
  e ∈ whole ∨ e.count 42 ≤ 3 ∧ e.count 93 = 0 ∨
    (∀ b ∈ k, bankCard.uses b = true) ∧ ∃ a b, e = a ++ (lit " **** **** " ++ b) ∧ Digits a ∧ Digits b

theorem universal_outcome {rl : Rule} {k : GoString} (hrl : rl ∈ universalRules)
    (h : rl.pattern.Matches none k []) :
    Outcome [lit "[REDACTED:JWT]", lit "[REDACTED:APIKEY]"] k (rl.apply k) := by
  rcases universal_marks hrl h with hlabel | ⟨rfl, -⟩ | ⟨-, hstars, hbrackets⟩
  · exact .inl hlabel
  · obtain ⟨-, -, hlo, hhi⟩ := bankCard_shape h
    obtain ⟨a, b, heq, ha, hb, -, -⟩ := redactBankCard_eq hlo hhi
    exact .inr (.inr ⟨fun b hb => h.uses hb, a, b, heq, ha, hb⟩)
  · simp only [List.mem_cons, List.not_mem_nil, or_false] at hstars
    exact .inr (.inl ⟨by omega, hbrackets⟩)

theorem ru_mem_allRules : ∀ rl ∈ ruRules, rl ∈ allRules :=
  fun _ h => List.mem_append_left _ (List.mem_append_left _ h)

theorem cn_mem_allRules : ∀ rl ∈ cnRules, rl ∈ allRules :=
  fun _ h => List.mem_append_left _ (List.mem_append_right _ h)

theorem universal_mem_allRules : ∀ rl ∈ universalRules, rl ∈ allRules := fun _ h => List.mem_append_right _ h

/-- A rule of a jurisdiction leaves a label, or it replaces telephone numbers. -/
theorem jurisdiction_marks {rl : Rule} {p : Option UInt8} {s s' m : GoString}
    (hrl : rl ∈ ruRules ∨ rl ∈ cnRules) (h : rl.pattern.Replaced rl.apply p s s' m) :
    rl.apply m ∈ labels ∨ (rl = ruPhoneRule ∨ rl = cnPhoneRule) ∧ 4 ≤ (rl.apply m).count 42 := by
  rcases hrl with hrl | hrl
  · rcases ru_marks hrl h with ⟨hrl, hstars⟩ | hlabel
    · exact .inr ⟨.inl hrl, by omega⟩
    · exact .inl (ru_subset_labels hlabel)
  · rcases cn_marks hrl h with ⟨hrl, hstars⟩ | hlabel
    · exact .inr ⟨.inr hrl, hstars⟩
    · exact .inl (by simp [hlabel, labels])

/-- An end that is not of their making shows that the rules of a jurisdiction changed nothing. -/
theorem unchanged_of_outcome {js later : List Rule} {k e : GoString} {whole : List GoString}
    (hjs : ∀ rl ∈ js, rl ∈ ruRules ∨ rl ∈ cnRules) (hrun : ∀ rl ∈ js ++ later, rl ∈ allRules)
    (hcn : ∀ pre post, js = pre ++ cnPhoneRule :: post → cnPhoneRule ∉ post ++ later)
    (hwhole : whole ⊆ labels)
    (hother : ∀ rl ∈ js, ∀ s s' m, rl.pattern.Replaced rl.apply none s s' m → rl.apply m ∉ whole)
    (he : later.foldl applyRule (js.foldl applyRule k) = e) (hout : Outcome whole k e) :
    Fixed js k := by
  rcases exists_firstChange (fun rl hrl => hrun rl (List.mem_append_left _ hrl)) he with h | ⟨j, post, m, h⟩
  · exact h
  exfalso
  have hmarks := jurisdiction_marks (hjs j h.mem) h.replaced
  rcases hout with hlabel | ⟨hstars, hbrackets⟩ | ⟨hk, a, b, heq, ha, hb⟩
  · have happly := h.apply_eq_of_label hrun (hwhole hlabel)
    exact hother j h.mem _ _ m h.replaced (happly ▸ hlabel)
  · obtain ⟨hlabel, hle⟩ := h.stars_le hrun hbrackets
    rcases hmarks with hj | ⟨-, hj⟩
    · exact hlabel hj
    · omega
  · have hcard := heq ▸ marks_cardText ha hb
    obtain ⟨hlabel, hle⟩ := h.stars_le hrun hcard.2
    rcases hmarks with hj | ⟨hj, -⟩
    · exact hlabel hj
    · refine h.not_card hrun (hj.imp id fun hj => ⟨hj, ?_⟩) hk heq ha hb
      obtain ⟨pre, hsplit⟩ := h.split
      exact hcn pre post (hj ▸ hsplit)

theorem ru_unchanged {later : List Rule} {k e : GoString} (hlater : ∀ rl ∈ later, rl ∈ allRules)
    (he : later.foldl applyRule (ruRules.foldl applyRule k) = e)
    (hout : Outcome [lit "[REDACTED:JWT]", lit "[REDACTED:APIKEY]", lit "[REDACTED:CN_ID]"] k e) :
    Fixed ruRules k := by
  refine unchanged_of_outcome (fun rl hrl => .inl hrl)
    (List.forall_mem_append.mpr ⟨ru_mem_allRules, hlater⟩) ?_
    (by decide) ?_ he hout
  · intro pre post heq
    have hmem : cnPhoneRule ∈ ruRules := by simp [heq]
    have hnot : ∀ rl ∈ ruRules, rl.pattern.uses 43 = true ∨ rl.pattern.minLength ≠ 11 := by decide
    exact absurd (hnot _ hmem) (by decide)
  · intro rl hrl s s' m h hmem
    rcases ru_marks hrl h with ⟨-, hstars⟩ | hlabel
    · have hnone := (marks_of_mem_labels _ ((by decide : _ ⊆ labels) hmem)).1
      omega
    · simp only [List.mem_cons, List.not_mem_nil, or_false] at hlabel
      rcases hlabel with hlabel | hlabel <;> rw [hlabel] at hmem <;> revert hmem <;> decide

theorem cn_unchanged {k e : GoString} (he : universalRules.foldl applyRule (cnRules.foldl applyRule k) = e)
    (hout : Outcome [lit "[REDACTED:JWT]", lit "[REDACTED:APIKEY]"] k e) : Fixed cnRules k := by
  refine unchanged_of_outcome (fun rl hrl => .inr hrl)
    (List.forall_mem_append.mpr ⟨cn_mem_allRules, universal_mem_allRules⟩) ?_ (by decide) ?_ he hout
  · intro pre post heq hmem
    have hnot : ∀ rl ∈ cnIDRule :: universalRules, rl.pattern.minLength ≠ 11 := by decide
    cases pre with
    | nil =>
      obtain ⟨-, rfl⟩ := List.cons.inj heq
      exact hnot _ hmem rfl
    | cons x pre =>
      obtain ⟨-, heq⟩ := List.cons.inj heq
      have hcnID : cnPhoneRule ∈ [cnIDRule] := by simp [heq]
      exact hnot _ (List.mem_append_left universalRules hcnID) rfl
  · intro rl hrl s s' m h hmem
    rcases cn_marks hrl h with ⟨-, hstars⟩ | hlabel
    · have hnone := (marks_of_mem_labels _ ((by decide : _ ⊆ labels) hmem)).1
      omega
    · rw [hlabel] at hmem
      revert hmem
      decide

/-- 17 digits and a digit or an X. -/
def IsIDNumber (k : GoString) : Prop :=
  k.length = 18 ∧ Digits (k.take 17) ∧ ∀ b ∈ k.drop 17, isDigit b = true ∨ b = 88

theorem IsIDNumber.word {k : GoString} (h : IsIDNumber k) {b : UInt8} (hb : b ∈ k) : word b = true := by
  rw [← List.take_append_drop 17 k] at hb
  rcases List.mem_append.mp hb with hb | hb
  · exact word_of_digit (h.2.1 b hb)
  · rcases h.2.2 b hb with hdigit | rfl
    · exact word_of_digit hdigit
    · rfl

/-- In a text of word bytes a match between boundaries is the whole text. -/
theorem eq_nil_of_boundaries {u m t : GoString} (hword : ∀ b ∈ u ++ (m ++ t), word b = true)
    (hu : (after none u).any word = false) (ht : t.head?.any word = false) : u = [] ∧ t = [] := by
  constructor
  · by_contra hne
    rw [after_eq_getLast? none hne] at hu
    obtain ⟨u, b, rfl⟩ := List.eq_nil_or_concat' u |>.resolve_left hne
    have hb := hword b (by simp)
    simp [hb] at hu
  · cases t with
    | nil => rfl
    | cons b t =>
      have hb := hword b (by simp)
      simp [hb] at ht

theorem IsIDNumber.cnPhone {k : GoString} (h : IsIDNumber k) : applyRule k cnPhoneRule = k := by
  refine Re.replaceAll_eq_self (by rfl) fun u m t hk hm => ?_
  obtain ⟨hu, ht, -, hlen⟩ := cnPhone_shape hm
  obtain ⟨rfl, rfl⟩ := eq_nil_of_boundaries (fun b hb => h.word (hk ▸ hb)) hu ht
  have hlen' := h.1
  simp [hk, hlen] at hlen'

theorem IsIDNumber.matches {k : GoString} (h : IsIDNumber k) : cnID.Matches none k [] := by
  have hlen := h.1
  have hhead : k.head?.any Pii.word = true := by
    cases k with
    | nil => cases hlen
    | cons b k => simp [h.word List.mem_cons_self]
  have hlast : (after (after none (k.take 17)) (k.drop 17)).any Pii.word = true := by
    have hne : k ≠ [] := List.ne_nil_of_length_pos (by omega)
    rw [← after_append, List.take_append_drop, after_eq_getLast? none hne]
    obtain ⟨k, b, rfl⟩ := List.eq_nil_or_concat' k |>.resolve_left hne
    simp [h.word (b := b) (by simp)]
  have hclass : ∀ b ∈ k.drop 17, (isDigit b || b == 88 || b == 120) = true := by
    intro b hb
    rcases h.2.2 b hb with hdigit | rfl
    · simp [hdigit]
    · rfl
  refine ⟨[], k, rfl, ⟨rfl, by simp [hhead]⟩, k.take 17, k.drop 17, (List.take_append_drop 17 k).symm,
    ⟨h.2.1, by simp [hlen], by simp [hlen]⟩, k.drop 17, [], (List.append_nil _).symm,
    ⟨hclass, by simp [hlen], by simp [hlen]⟩, rfl, ?_⟩
  rw [after_nil, hlast]
  exact Bool.false_ne_true.symm

theorem IsIDNumber.cnID {k : GoString} (h : IsIDNumber k) :
    applyRule k cnIDRule = lit "[REDACTED:CN_ID]" := by
  refine Re.replaceAll_whole (List.ne_nil_of_length_pos (by have := h.1; omega)) (Re.find_whole h.matches ?_)
  intro m t hk hm
  obtain ⟨-, ht, hlen⟩ := cnID_shape hm
  have hlen' := h.1
  rw [hk, List.length_append] at hlen'
  exact List.length_eq_zero_iff.mp (by omega)

/-- The replacement of the whole of `k` by a universal rule stands whatever the hint, but for a Chinese
identity number where the rules for China run. -/
def NotWeakened (U : CaseTables) (languageOrJurisdiction k : GoString) (rl : Rule) : Prop :=
  redactString U languageOrJurisdiction k = rl.apply k ∨
    cnRuns U languageOrJurisdiction = true ∧ IsIDNumber k ∧
      redactString U languageOrJurisdiction k = lit "[REDACTED:CN_ID]"

/-- No rule of a jurisdiction that runs changes `k`, but for the identity number. -/
def Untouched (U : CaseTables) (languageOrJurisdiction k : GoString) : Prop :=
  (ruRuns U languageOrJurisdiction = true → Fixed ruRules k) ∧
    (cnRuns U languageOrJurisdiction = true → IsIDNumber k ∨ Fixed cnRules k)

theorem redactString_eq (U : CaseTables) (languageOrJurisdiction : GoString) {k : GoString} (hk : k ≠ []) :
    redactString U languageOrJurisdiction k = ((if cnRuns U languageOrJurisdiction then cnRules else []) ++
      universalRules).foldl applyRule
        ((if ruRuns U languageOrJurisdiction then ruRules else []).foldl applyRule k) := by
  rw [redactString, if_neg hk, jurisdictionRules_eq, List.foldl_append, List.foldl_append]

theorem redactString_en (U : CaseTables) {k : GoString} (hk : k ≠ []) :
    redactString U (lit "en") k = universalRules.foldl applyRule k := by
  rw [redactString, if_neg hk]
  rfl

/-- The label of an identity number is no text of any universal rule. -/
theorem universalRules_idLabel :
    universalRules.foldl applyRule (lit "[REDACTED:CN_ID]") = lit "[REDACTED:CN_ID]" := by
  decide +kernel

theorem IsIDNumber.redacted {k : GoString} (h : IsIDNumber k) :
    (cnRules ++ universalRules).foldl applyRule k = lit "[REDACTED:CN_ID]" := by
  have hcn : cnRules.foldl applyRule k = applyRule (applyRule k cnPhoneRule) cnIDRule := rfl
  rw [List.foldl_append, hcn, h.cnPhone, h.cnID, universalRules_idLabel]

/-- Rules of a jurisdiction keep the replacement of a whole text exactly where none of them changes the
text. -/
theorem notWeakened_iff_untouched (U : CaseTables) (languageOrJurisdiction k : GoString) (rl : Rule)
    (hrl : rl ∈ universalRules) (hwhole : rl.pattern.find none k = some (k, []))
    (hen : redactString U (lit "en") k = rl.apply k) :
    NotWeakened U languageOrJurisdiction k rl ↔ Untouched U languageOrJurisdiction k := by
  obtain ⟨-, hmatch⟩ := Re.find_eq_some hwhole
  have hk : k ≠ [] := by
    rintro rfl
    have hnull := nullable_of_mem rl (universal_mem_allRules rl hrl)
    rw [hmatch.nullable] at hnull
    cases hnull
  have hout := universal_outcome hrl hmatch
  rw [redactString_en U hk] at hen
  have hcnRun : ∀ rl ∈ (if cnRuns U languageOrJurisdiction then cnRules else []) ++ universalRules,
      rl ∈ allRules := by
    refine List.forall_mem_append.mpr ⟨fun rl hrl => ?_, universal_mem_allRules⟩
    split at hrl
    · exact cn_mem_allRules rl hrl
    · cases hrl
  unfold NotWeakened Untouched
  rw [redactString_eq U languageOrJurisdiction hk]
  constructor
  · intro hres
    have hru : ruRuns U languageOrJurisdiction = true → Fixed ruRules k := by
      intro hruns
      rw [if_pos hruns] at hres
      rcases hres with hres | ⟨-, -, hres⟩
      · exact ru_unchanged hcnRun hres (hout.imp (List.mem_append_left [lit "[REDACTED:CN_ID]"]) id)
      · exact ru_unchanged hcnRun hres (.inl (by simp))
    refine ⟨hru, fun hruns => ?_⟩
    rw [foldl_if_eq_self hru, if_pos hruns, List.foldl_append] at hres
    rcases hres with hres | ⟨-, hid, -⟩
    · exact .inr (cn_unchanged hres hout)
    · exact .inl hid
  · rintro ⟨hru, hcn⟩
    rw [foldl_if_eq_self hru]
    by_cases hruns : cnRuns U languageOrJurisdiction = true
    · rw [if_pos hruns]
      rcases hcn hruns with hid | hsame
      · exact .inr ⟨hruns, hid, hid.redacted⟩
      · rw [List.foldl_append, hsame.foldl]
        exact .inl hen
    · rw [if_neg hruns]
      exact .inl hen

theorem ru_mail_notWeakened : NotWeakened ⟨id, id⟩ (lit "ru-RU") (lit "ops@example.com") emailRule :=
  (notWeakened_iff_untouched ⟨id, id⟩ (lit "ru-RU") (lit "ops@example.com") emailRule
    (by simp [universalRules])
    (by decide +kernel) (by decide +kernel)).mpr ⟨fun _ => by
      decide +kernel, fun h => absurd h (by decide +kernel)⟩

/-- A telephone number before the `@`: the rules for China cut it in two, and three more of its digits
stay. -/
theorem cn_mail_weakened :
    emailRule ∈ universalRules ∧ email.find none (lit "13812345678@qq.com") =
    some (lit "13812345678@qq.com", []) ∧
      redactString ⟨id, id⟩ (lit "en") (lit "13812345678@qq.com") = lit "1***@qq.com" ∧
      redactEmail (lit "13812345678@qq.com") = lit "1***@qq.com" ∧
      redactString ⟨id, id⟩ (lit "cn") (lit "13812345678@qq.com") = lit "138****5***@qq.com" ∧
      ¬NotWeakened ⟨id, id⟩ (lit "cn") (lit "13812345678@qq.com") emailRule := by
  have hcn : redactString ⟨id, id⟩ (lit "cn") (lit "13812345678@qq.com") = lit "138****5***@qq.com" := by
    decide +kernel
  have hmail : redactEmail (lit "13812345678@qq.com") = lit "1***@qq.com" := by decide +kernel
  refine ⟨by simp [universalRules], by decide +kernel, by decide +kernel, hmail, hcn, ?_⟩
  rintro (h | ⟨-, -, h⟩)
  · have heq := (hcn.symm.trans h).trans hmail
    revert heq
    decide
  · have heq := hcn.symm.trans h
    revert heq
    decide

end SynapseGo.Pii
