import SynapseGo.Pii.Idempotence
import SynapseGo.Regex.Cuts

/-! When a second pass over a redacted text changes nothing. The passes cut the text at the matches they
change. What a replacement leaves readable of a match stays next to the cut; a second pass finds something
exactly where such a rest, with the text beside it, reads as a match again. -/
namespace SynapseGo.Pii
open SynapseGo.Go SynapseGo.Regex

/-- An asterisk or a bracket. -/
def sign (b : UInt8) : Bool := b == 42 || b == 91 || b == 93

/-- What can be read of a replacement before its mask. -/
def readableFront (s : GoString) : GoString := s.takeWhile (!sign ·)

/-- What can be read of a replacement after its mask. -/
def readableBack (s : GoString) : GoString := (s.reverse.takeWhile (!sign ·)).reverse

def Rule.mask (rl : Rule) : Mask UInt8 where
  pattern := rl.pattern
  apply := rl.apply
  front m := readableFront (rl.apply m)
  back m := readableBack (rl.apply m)

/-- A text that no rule looks across. -/
def Screen (k : GoString) : Prop := ∀ rl ∈ allRules, rl.pattern.Barrier rl.apply k

/-- The asterisks and closing brackets of a text. -/
def signs (s : GoString) : ℕ := s.count 42 + s.count 93

theorem signs_append (a b : GoString) : signs (a ++ b) = signs a + signs b := by
  simp only [signs, List.count_append]
  omega

section
variable {a b k : GoString}

theorem readable_of_mask (ha : ∀ c ∈ a, sign c = false) (hb : ∀ c ∈ b, sign c = false)
    (hfirst : k.head?.any sign = true) (hlast : k.getLast?.any sign = true) :
    readableFront (a ++ (k ++ b)) = a ∧ readableBack (a ++ (k ++ b)) = b := by
  constructor
  · cases k with
    | nil => cases hfirst
    | cons c k =>
      have hc : sign c = true := hfirst
      unfold readableFront
      rw [List.takeWhile_append_of_pos (by simpa using ha), List.cons_append,
        List.takeWhile_cons_of_neg (by simp [hc]), List.append_nil]
  · rcases List.eq_nil_or_concat' k with rfl | ⟨k, c, rfl⟩
    · cases hfirst
    · have hc : sign c = true := by simpa using hlast
      unfold readableBack
      have hb' : ∀ c ∈ b.reverse, (!sign c) = true := by simpa using hb
      rw [List.reverse_append, List.reverse_append, List.reverse_append, List.append_assoc,
        List.takeWhile_append_of_pos hb', List.reverse_singleton, List.append_assoc, List.singleton_append,
        List.takeWhile_cons_of_neg (by simp [hc]), List.append_nil, List.reverse_reverse]

theorem alike_brackets : ∀ rl ∈ allRules,
    rl.pattern.alike (some 91) none = true ∧ rl.pattern.alike (some 93) none = true := by decide

theorem screen_star : Screen [42] := fun rl hrl =>
  Re.barrier_singleton (nullable_of_mem rl hrl) (alike_of_mem rl hrl).1 (star_unused rl hrl)

theorem Screen.append {k' w : GoString} (hk : Screen k) (hk' : Screen k') (hw : Fixed allRules w) :
    Screen (k ++ (w ++ k')) := fun rl hrl => (hk rl hrl).append (hk' rl hrl) (hw rl hrl)

theorem screen_stars (n : ℕ) : Screen (List.replicate (n + 1) 42) := by
  induction n with
  | zero => exact screen_star
  | succ n ih => exact screen_star.append ih fixed_nil

theorem fixed_space : Fixed allRules [32] := by decide +kernel

theorem fixed_dash : Fixed allRules [45] := by decide +kernel

theorem fixed_dot : Fixed allRules [46] := by decide +kernel

theorem screen_card : Screen (lit "**** ****") := (screen_stars 3).append (screen_stars 3) fixed_space

theorem screen_ruPhone : Screen (lit "***-**") := (screen_stars 2).append (screen_stars 1) fixed_dash

theorem screen_ipv4 : Screen (lit "*.*") := screen_star.append screen_star fixed_dot

/-- The text inside the brackets of a label. -/
theorem labels_inner : ∀ s ∈ labels, s = [91] ++ ((s.drop 1).dropLast ++ [93]) ∧
    Fixed allRules (s.drop 1).dropLast := by
  decide +kernel

theorem screen_label (h : k ∈ labels) : Screen k := by
  have hopen : Screen [91] := fun rl hrl =>
    Re.barrier_singleton (nullable_of_mem rl hrl) (alike_brackets rl hrl).1 (openBracket_unused rl hrl)
  have hclose : Screen [93] := fun rl hrl =>
    Re.barrier_singleton (nullable_of_mem rl hrl) (alike_brackets rl hrl).2 (bracket_unused rl hrl)
  obtain ⟨heq, hinner⟩ := labels_inner k h
  rw [heq]
  exact hopen.append hclose hinner

end

/-- What a rule makes of a match: something to read, a screen, and something to read. -/
def Masked (s : GoString) : Prop := ∃ k, Screen k ∧ s = readableFront s ++ (k ++ readableBack s)

section
variable {a b k s : GoString}

theorem masked_of_eq (hk : Screen k) (heq : s = a ++ (k ++ b)) (ha : ∀ c ∈ a, sign c = false)
    (hb : ∀ c ∈ b, sign c = false) (hfirst : k.head?.any sign = true) (hlast : k.getLast?.any sign = true) :
    Masked s := by
  obtain ⟨hfront, hback⟩ := readable_of_mask ha hb hfirst hlast
  refine ⟨k, hk, ?_⟩
  rw [heq, hfront, hback]

theorem masked_label (h : s ∈ labels) : Masked s := by
  have hends : ∀ s ∈ labels, s.head?.any sign = true ∧ s.getLast?.any sign = true := by decide
  exact masked_of_eq (a := []) (b := []) (screen_label h) (by simp) nofun nofun (hends s h).1 (hends s h).2

theorem Digits.unsigned (h : Digits s) : ∀ c ∈ s, sign c = false := by
  intro c hc
  have hdigit := h c hc
  simp only [sign, Bool.or_eq_false_iff, beq_eq_false_iff_ne]
  refine ⟨⟨?_, ?_⟩, ?_⟩ <;> rintro rfl <;> cases hdigit

theorem unsigned_of_all (h : s.all (!sign ·) = true) : ∀ c ∈ s, sign c = false := by
  intro c hc
  have hnot := List.all_eq_true.mp h c hc
  rwa [Bool.not_eq_true'] at hnot

/-- Digits with separators before or after them. -/
theorem unsigned_append (ha : ∀ c ∈ a, sign c = false) (hb : ∀ c ∈ b, sign c = false) :
    ∀ c ∈ a ++ b, sign c = false := List.forall_mem_append.mpr ⟨ha, hb⟩

end

section
variable {rl : Rule} {p : Option UInt8} {m t : GoString}

theorem masked_redactRUPhone (h : ruPhone.Matches p m t) : Masked (redactRUPhone m) := by
  obtain ⟨a, b, heq, ha, hb, -, -⟩ := redactRUPhone_eq h
  have hfront := unsigned_append (unsigned_append (a := lit "+7-") (unsigned_of_all rfl) ha.unsigned)
    (b := [45]) (unsigned_of_all rfl)
  have hback := unsigned_append (a := [45]) (unsigned_of_all rfl) hb.unsigned
  refine masked_of_eq screen_ruPhone ?_ hfront hback rfl rfl
  rw [heq, List.append_assoc, List.append_assoc]
  rfl

theorem masked_redactCNPhone (h : cnPhone.Matches p m t) : Masked (redactCNPhone m) := by
  obtain ⟨-, -, hm, hlen⟩ := cnPhone_shape h
  have hunsigned := hm.unsigned
  exact masked_of_eq (screen_stars 3) (redactCNPhone_eq hm hlen)
    (fun c hc => hunsigned c (List.mem_of_mem_take hc))
    (fun c hc => hunsigned c (List.mem_of_mem_drop hc)) rfl rfl

theorem masked_redactBankCard (h : bankCard.Matches p m t) : Masked (redactBankCard m) := by
  obtain ⟨-, -, hlo, hhi⟩ := bankCard_shape h
  obtain ⟨a, b, heq, ha, hb, -, -⟩ := redactBankCard_eq hlo hhi
  have hfront := unsigned_append ha.unsigned (b := [32]) (unsigned_of_all rfl)
  have hback := unsigned_append (a := [32]) (unsigned_of_all rfl) hb.unsigned
  refine masked_of_eq screen_card ?_ hfront hback rfl rfl
  rw [heq, List.append_assoc]
  rfl

theorem host_unsigned {c : UInt8} (h : host c = true) : sign c = false := by
  simp only [sign, Bool.or_eq_false_iff, beq_eq_false_iff_ne]
  refine ⟨⟨?_, ?_⟩, ?_⟩ <;> rintro rfl <;> cases h

theorem mailbox_unsigned {c : UInt8} (h : mailbox c = true) : sign c = false := by
  simp only [sign, Bool.or_eq_false_iff, beq_eq_false_iff_ne]
  refine ⟨⟨?_, ?_⟩, ?_⟩ <;> rintro rfl <;> cases h

theorem masked_redactEmail (h : email.Matches p m t) : Masked (redactEmail m) := by
  obtain ⟨x, l, dom, rfl, hl, hdom, -, -⟩ := email_shape h
  have hfront : ∀ c ∈ [x], sign c = false := by
    intro c hc
    rw [List.mem_singleton.mp hc]
    exact mailbox_unsigned (hl x List.mem_cons_self)
  have hback := unsigned_append (a := [64]) (unsigned_of_all rfl) fun c hc => host_unsigned (hdom c hc)
  exact masked_of_eq (screen_stars 2) (redactEmail_eq hl) hfront hback rfl rfl

theorem masked_redactIPv4 (h : ipv4.Matches p m t) : Masked (redactIPv4 m) := by
  obtain ⟨a, b, c, d, rfl, hoctets, -, -⟩ := ipv4_shape h
  have ha := (hoctets a (by simp)).1.unsigned
  have hb := (hoctets b (by simp)).1.unsigned
  have hfront :=
    unsigned_append (unsigned_append (unsigned_append ha (b := lit ".") (unsigned_of_all rfl)) hb)
    (b := lit ".") (unsigned_of_all rfl)
  refine masked_of_eq (b := []) screen_ipv4 ?_ hfront nofun rfl rfl
  have hmask : lit ".*.*" = lit "." ++ (lit "*.*" ++ []) := rfl
  rw [redactIPv4_eq hoctets, hmask, ← List.append_assoc]

/-- What replaces a match is masked, unless the rule leaves the match as it is. -/
theorem masked_apply (hrl : rl ∈ allRules) (h : rl.pattern.Matches p m t) (hne : rl.apply m ≠ m) :
    Masked (rl.apply m) := by
  rcases label_of_mem hrl with hlabel | hother
  · exact masked_label (hlabel m hne)
  simp only [List.mem_cons, List.not_mem_nil, or_false] at hother
  rcases hother with rfl | rfl | rfl | rfl | rfl
  · exact masked_redactRUPhone h
  · exact masked_redactCNPhone h
  · exact masked_redactBankCard h
  · exact masked_redactEmail h
  · exact masked_redactIPv4 h

theorem signs_eq_zero (hrl : rl ∈ allRules) (h : rl.pattern.Matches p m t) : signs m = 0 := by
  have hnone : ∀ c, rl.pattern.uses c = false → m.count c = 0 := fun c hc =>
    List.count_eq_zero.mpr fun hmem => by simp [h.uses hmem] at hc
  simp [signs, hnone 42 (star_unused rl hrl), hnone 93 (bracket_unused rl hrl)]

/-- The number rule alone leaves some of its matches as they are. -/
theorem signs_apply_pos (hrl : rl ∈ allRules) (h : rl.pattern.Matches p m t) :
    rl = innRule ∧ rl.apply m = m ∨ 0 < signs (rl.apply m) := by
  have hlabel : ∀ s ∈ labels, 0 < signs s := by decide
  rcases mem_allRules.mp hrl with rfl | rfl | rfl | rfl | rfl | rfl | rfl | rfl | rfl | rfl
  · exact .inr (by have hstars : 5 ≤ _ := stars_redactRUPhone h; unfold signs ruPhoneRule; dsimp only; omega)
  · exact .inr (hlabel _ (by simp [snilsRule, labels]))
  · by_cases hne : innRule.apply m = m
    · exact .inl ⟨rfl, hne⟩
    · refine .inr (hlabel _ ?_)
      rw [show innRule.apply m = _ from redactINNCandidate_ne hne]
      simp [labels]
  · exact .inr (by have hstars : 4 ≤ _ := stars_redactCNPhone h; unfold signs cnPhoneRule; dsimp only; omega)
  · exact .inr (hlabel _ (by simp [cnIDRule, labels]))
  · exact .inr (hlabel _ (by simp [jwtRule, labels]))
  · exact .inr (hlabel _ (by simp [apiKeyRule, labels]))
  · exact .inr (by have hmarks := marks_redactBankCard h; unfold signs bankCardRule; dsimp only; omega)
  · exact .inr (by have hmarks := marks_redactEmail h; unfold signs emailRule; dsimp only; omega)
  · exact .inr (by have hmarks := marks_redactIPv4 h; unfold signs ipv4Rule; dsimp only; omega)

theorem signs_lt_apply (hrl : rl ∈ allRules) (h : rl.pattern.Matches p m t) (hne : rl.apply m ≠ m) :
    signs m < signs (rl.apply m) := by
  rw [signs_eq_zero hrl h]
  exact (signs_apply_pos hrl h).resolve_left fun hsame => hne hsame.2

theorem inn_shape (h : inn.Matches p m t) :
    p.any word = false ∧ t.head?.any word = false ∧ Digits m ∧ m ≠ [] := by
  obtain ⟨_, _, rfl, ⟨rfl, hstart⟩, a, _, rfl, ⟨ha, hla, -⟩, rfl, hend⟩ := h
  have hne : a ≠ [] := List.ne_nil_of_length_pos (by omega)
  rw [List.append_assoc] at hstart
  refine ⟨boundary_before ha hne hstart, boundary_after ha hne hend, ?_, ?_⟩
  · rwa [List.append_nil, List.nil_append]
  · rwa [List.append_nil, List.nil_append]

/-- Two runs of digits between word boundaries that share a digit are one. -/
theorem inn_closed (ok : GoString → Prop) : inn.Closed ok := by
  intro p m t hm hok u m' t' heq hlen hm'
  obtain ⟨-, hend, hdigits, -⟩ := inn_shape hm
  obtain ⟨hstart', hend', hdigits', -⟩ := inn_shape hm'
  rcases List.append_eq_append_iff.mp heq with ⟨v, rfl, -⟩ | ⟨v, rfl, hrest⟩
  · rw [List.length_append] at hlen
    omega
  rcases List.eq_nil_or_concat' u with rfl | ⟨u, c, rfl⟩
  · -- the same start: neither run can be longer
    rw [List.nil_append] at hok hdigits
    rcases List.append_eq_append_iff.mp hrest with ⟨w, rfl, rfl⟩ | ⟨w, rfl, rfl⟩
    · cases w with
      | nil => rwa [List.append_nil] at hok
      | cons d w => simp [word_of_digit (hdigits d (by simp))] at hend'
    · cases w with
      | nil => rwa [List.append_nil]
      | cons d w => simp [word_of_digit (hdigits' d (by simp))] at hend
  · -- a start inside the first run has a digit before it
    have hc := word_of_digit (hdigits c (by simp))
    simp [after_append, hc] at hstart'

theorem closed_of_mem (hrl : rl ∈ allRules) : rl.pattern.Closed fun m => rl.apply m = m := by
  by_cases hinn : rl = innRule
  · rw [hinn]
    exact inn_closed _
  · -- no other rule leaves a match as it is
    intro p m t hm hok
    have hpos := (signs_apply_pos hrl hm).resolve_left fun hsame => hinn hsame.1
    rw [hok, signs_eq_zero hrl hm] at hpos
    exact absurd hpos (lt_irrefl 0)

theorem sound_mask (hrl : rl ∈ allRules) : rl.mask.Sound Screen signs where
  nullable := nullable_of_mem rl hrl
  closed := closed_of_mem hrl
  masked := fun _ _ _ h hne => masked_apply hrl h hne
  grows := fun _ _ _ h hne => signs_lt_apply hrl h hne
  barrier := fun _ hk => hk rl hrl

end

/-- The stretches into which the rules that run cut a text. -/
def stretches (U : CaseTables) (languageOrJurisdiction s : GoString) : List (List (UInt8 × Bool)) :=
  Mask.stretches ((runningRules U languageOrJurisdiction).map Rule.mask) [original s]

/-- No rule that runs has a match to change, in a stretch between two cuts, that holds or touches what a
replacement has put there or an end of the stretch. -/
def NothingRenewed (U : CaseTables) (languageOrJurisdiction s : GoString) : Prop :=
  ∀ x ∈ stretches U languageOrJurisdiction s, ∀ rl ∈ runningRules U languageOrJurisdiction,
    ¬ rl.mask.Renewed x

theorem fixed_redactString_iff (U : CaseTables) (languageOrJurisdiction s : GoString) :
    Fixed (runningRules U languageOrJurisdiction) (redactString U languageOrJurisdiction s) ↔
      NothingRenewed U languageOrJurisdiction s := by
  have hmem := running_mem_allRules U languageOrJurisdiction
  have hsound : ∀ M ∈ (runningRules U languageOrJurisdiction).map Rule.mask, M.Sound Screen signs := by
    intro M hM
    obtain ⟨rl, hrl, rfl⟩ := List.mem_map.mp hM
    exact sound_mask (hmem rl hrl)
  have hiff := Mask.passes_fixed_iff hsound signs_append s
  simp only [List.foldl_map, List.forall_mem_map] at hiff
  rw [redactString_eq_foldl]
  exact hiff

/-- Texts in separate parts, each of which one rule replaces as a whole, are such texts. -/
theorem Separated.nothingRenewed {U : CaseTables} {languageOrJurisdiction s : GoString}
    (h : Separated U languageOrJurisdiction s) : NothingRenewed U languageOrJurisdiction s :=
  (fixed_redactString_iff U languageOrJurisdiction s).mp h.fixed

end SynapseGo.Pii
