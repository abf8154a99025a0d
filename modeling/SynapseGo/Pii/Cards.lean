import SynapseGo.Pii.Shapes

/-! No full card number is left in a redacted text. An automaton reads a text and counts the digits since
the last byte that is no word byte; the card pass leaves it without a full count at any boundary, and the
passes after it do not bring one back. -/
namespace SynapseGo.Pii
open SynapseGo.Go SynapseGo.Regex

/-- A run of 13 to 19 digits with no word byte next to it. -/
def HasCardNumber (s : GoString) : Prop :=
  ∃ u d v, s = u ++ (d ++ v) ∧ Digits d ∧ 13 ≤ d.length ∧ d.length ≤ 19 ∧
    (∀ b ∈ u.getLast?, word b = false) ∧ ∀ b ∈ v.head?, word b = false

/-- The number of digits since a boundary, and none in a word that has another letter. -/
def count (st : Option ℕ) (b : UInt8) : Option ℕ :=
  if word b then if isDigit b then st.map (· + 1) else none else some 0

def full (st : Option ℕ) : Bool := st.any fun n => 13 ≤ n && n ≤ 19

/-- No boundary in the text, or at its end, is reached with a full count. -/
def Clear : Option ℕ → GoString → Prop
  | st, [] => full st = false
  | st, b :: s => (word b = false → full st = false) ∧ Clear (count st b) s

section
variable {st st' : Option ℕ} {s t d : GoString} {b : UInt8}

theorem count_of_not_word (h : word b = false) : count st b = some 0 := by simp [count, h]

theorem count_of_digit (h : isDigit b = true) : count st b = st.map (· + 1) := by
  simp [count, h, word_of_digit h]

theorem Clear.of_append (h : Clear st (s ++ t)) : Clear (s.foldl count st) t := by
  induction s generalizing st with
  | nil => exact h
  | cons b s ih => exact ih h.2

theorem foldl_count_digits (hd : Digits d) (n : ℕ) : d.foldl count (some n) = some (n + d.length) := by
  induction d generalizing n with
  | nil => rfl
  | cons b d ih =>
    rw [List.foldl_cons, count_of_digit (hd b List.mem_cons_self), Option.map_some,
      ih (fun x hx => hd x (List.mem_cons_of_mem _ hx)), List.length_cons]
    congr 1
    omega

/-- Reading digits asks nothing. -/
theorem clear_digits_append (hd : Digits d) {n : ℕ} (h : Clear (some (n + d.length)) s) :
    Clear (some n) (d ++ s) := by
  induction d generalizing n with
  | nil => exact h
  | cons b d ih =>
    have hb := hd b List.mem_cons_self
    refine ⟨fun hword => by simp [word_of_digit hb] at hword, ?_⟩
    rw [count_of_digit hb]
    apply ih fun x hx => hd x (List.mem_cons_of_mem _ hx)
    rw [List.length_cons] at h
    rwa [Nat.add_right_comm]

/-- Bytes outside words lead back to the beginning. -/
theorem clear_append_of_not_word (hs : ∀ b ∈ s, word b = false) (hne : s ≠ []) (hst : full st = false)
    (h : Clear (some 0) t) : Clear st (s ++ t) := by
  induction s generalizing st with
  | nil => exact absurd rfl hne
  | cons b s ih =>
    refine ⟨fun _ => hst, ?_⟩
    rw [count_of_not_word (hs b List.mem_cons_self)]
    cases s with
    | nil => exact h
    | cons c s => exact ih (fun x hx => hs x (List.mem_cons_of_mem _ hx)) (List.cons_ne_nil _ _) rfl

/-- At a boundary the count starts anew. -/
theorem Clear.at_boundary (hs : s.head?.any word = false) (hst : full st = false) (h : Clear st' s) :
    Clear st s := by
  cases s with
  | nil => exact hst
  | cons b s =>
    have hb : word b = false := by simpa using hs
    refine ⟨fun _ => hst, ?_⟩
    have hnext := h.2
    rwa [count_of_not_word hb] at hnext ⊢

theorem Clear.not_hasCardNumber (h : Clear (some 0) s) : ¬HasCardNumber s := by
  rintro ⟨u, d, v, rfl, hd, hlo, hhi, hu, hv⟩
  have hstart : u.foldl count (some 0) = some 0 := by
    rcases List.eq_nil_or_concat' u with rfl | ⟨u, b, rfl⟩
    · rfl
    · rw [List.foldl_append]
      exact count_of_not_word (hu b (by simp))
  have hend := h.of_append.of_append
  rw [hstart, foldl_count_digits hd, Nat.zero_add] at hend
  have hfull : full (some d.length) = true := by simp [full, hlo, hhi]
  cases v with
  | nil => exact absurd hend (by simp [Clear, hfull])
  | cons b v => simpa [hfull] using hend.1 (hv b rfl)

end

/-- The text after a pass, from a place in the middle on. -/
def rest (rl : Rule) (p : Option UInt8) (s : GoString) : GoString :=
  (rl.pattern.scan p 0 s).flatMap (Segment.text rl.apply)

section
variable {rl : Rule} {p : Option UInt8} {s m t : GoString} {a : UInt8}

theorem rest_cons (h : rl.pattern.find p (a :: s) = none) : rest rl p (a :: s) = a :: rest rl (some a) s := by
  rw [rest, Re.scan_cons_none h]
  rfl

theorem rest_append (hm : m ≠ []) (h : rl.pattern.find p (m ++ t) = some (m, t)) :
    rest rl p (m ++ t) = rl.apply m ++ rest rl (after p m) t := by
  rw [rest, Re.scan_some hm h]
  rfl

end

theorem any_after_digits {q : Option UInt8} {d : GoString} (hd : Digits d) (hne : d ≠ []) :
    (after q d).any word = true := by
  rw [after_eq_getLast? q hne]
  obtain ⟨d, b, rfl⟩ := List.eq_nil_or_concat' d |>.resolve_left hne
  simp [word_of_digit (hd b (by simp))]

/-- The count with which the card pass comes to `s`. The digits since a boundary are still there because no
match began with the first of them. -/
inductive Reached : Option UInt8 → GoString → Option ℕ → Prop
  | boundary {p s} (hp : p.any word = false) : Reached p s (some 0)
  | digits {q d s} (hd : Digits d) (hne : d ≠ []) (hq : q.any word = false)
      (hfind : bankCard.find q (d ++ s) = none) : Reached (after q d) s (some d.length)
  | within {p s} (hp : p.any word = true) : Reached p s none

namespace Reached
variable {p : Option UInt8} {s t m : GoString} {st : Option ℕ} {a : UInt8}

theorem not_full (h : Reached p s st) (hs : s.head?.any word = false) : full st = false := by
  cases h with
  | boundary hp => rfl
  | @digits q d _ hd hne hq hfind =>
    cases hfull : full (some d.length) with
    | false => rfl
    | true =>
      -- a full run between boundaries would have been a match
      simp only [full, Option.any_some, Bool.and_eq_true, decide_eq_true_eq] at hfull
      exact absurd (bankCard_of_digits hd hfull.1 hfull.2 hq hs) (Re.find_eq_none.mp hfind d s rfl)
  | within hp => rfl

theorem step (h : Reached p (a :: s) st) (hfind : bankCard.find p (a :: s) = none) :
    Reached (some a) s (count st a) := by
  unfold count
  by_cases hword : word a = true
  · rw [if_pos hword]
    by_cases hdigit : isDigit a = true
    · rw [if_pos hdigit]
      cases h with
      | boundary hp => exact digits (d := [a]) (by simpa [Digits] using hdigit) (by simp) hp hfind
      | @digits q d _ hd hne hq hfind =>
        have hd' : Digits (d ++ [a]) := by
          intro b hb
          rcases List.mem_append.mp hb with hb | hb
          · exact hd b hb
          · rwa [List.mem_singleton.mp hb]
        have hnext := digits (s := s) hd' (by simp) hq (by simpa using hfind)
        rw [after_append, List.length_append] at hnext
        exact hnext
      | within hp => exact within (by simpa using hword)
    · rw [if_neg hdigit]
      exact within (by simpa using hword)
  · rw [if_neg hword]
    exact boundary (by simpa using hword)

theorem eq_zero (h : Reached p s st) (hp : p.any word = false) : st = some 0 := by
  cases h with
  | boundary _ => rfl
  | digits hd hne _ _ =>
    rw [any_after_digits hd hne] at hp
    cases hp
  | within hword =>
    rw [hword] at hp
    cases hp

end Reached

theorem forall_not_word {s : GoString} (h : s.any word = false) : ∀ b ∈ s, word b = false := by
  simpa using h

/-- A byte with which no match begins is left where it is. -/
theorem head?_rest {rl : Rule} (hr : rl.pattern.nullable = false)
    (hfirst : ∀ b, word b = false → rl.pattern.first b = false) {p : Option UInt8} {t : GoString}
    (ht : t.head?.any word = false) : (rest rl p t).head?.any word = false := by
  cases t with
  | nil => rfl
  | cons b t =>
    rw [rest_cons (Re.find_none_of_first hr (hfirst b (by simpa using ht)))]
    simpa using ht

theorem digit_of_not_word {b : UInt8} (h : word b = false) : isDigit b = false := by
  simp only [word, Bool.or_eq_false_iff] at h
  exact h.1.1

theorem bankCard_first {b : UInt8} (h : word b = false) : bankCard.first b = false := by
  simp [bankCard, Pattern.cat, Pattern.wordB, Pattern.times, Re.first, Re.nullable, digit_of_not_word h]

theorem ipv4_first {b : UInt8} (h : word b = false) : ipv4.first b = false := by
  simp [ipv4, Pattern.cat, Pattern.wordB, Pattern.between, Re.first, Re.nullable, digit_of_not_word h]

theorem clear_bankCard (s : GoString) : Clear (some 0) (applyRule s bankCardRule) := by
  have hrun : ∀ st, Reached none s st → Clear st (rest bankCardRule none s) := by
    refine Re.scan_induct (r := bankCard) (by rfl)
      (motive := fun p s => ∀ st, Reached p s st → Clear st (rest bankCardRule p s)) ?_ ?_ ?_ none s
    · intro p st h
      exact h.not_full rfl
    · intro p a s hfind ih st h
      rw [rest_cons hfind]
      exact ⟨fun ha => h.not_full (by simpa using ha), ih _ (h.step hfind)⟩
    · intro p m t hm hfind hmatch ih st h
      obtain ⟨hp, ht, hlo, hhi⟩ := bankCard_shape hmatch
      obtain ⟨a, b, heq, ha, hb, hla, hlb⟩ := redactBankCard_eq hlo hhi
      have hnext : ∃ st', Reached (after p m) t st' := by
        cases hword : (after p m).any word with
        | false => exact ⟨_, .boundary hword⟩
        | true => exact ⟨_, .within hword⟩
      obtain ⟨st', hreached⟩ := hnext
      have htail : Clear (some 4) (rest bankCardRule (after p m) t) :=
        (ih st' hreached).at_boundary (head?_rest (by rfl) (fun _ => bankCard_first) ht) rfl
      have happly : bankCardRule.apply m = a ++ (lit " **** **** " ++ b) := heq
      rw [h.eq_zero hp, rest_append hm hfind, happly, List.append_assoc, List.append_assoc]
      apply clear_digits_append ha
      rw [hla]
      apply clear_append_of_not_word (forall_not_word rfl) (by decide) rfl
      apply clear_digits_append hb
      rw [hlb]
      exact htail
  exact hrun (some 0) (.boundary rfl)

/-- The count after a boundary is zero. -/
def Synced (p : Option UInt8) (st : Option ℕ) : Prop := p.any word = false → st = some 0

theorem synced_count (st : Option ℕ) (a : UInt8) : Synced (some a) (count st a) :=
  fun ha => count_of_not_word (by simpa using ha)

theorem synced_foldl {p : Option UInt8} {st : Option ℕ} {s : GoString} (hs : s ≠ []) :
    Synced (after p s) (s.foldl count st) := by
  obtain ⟨s, b, rfl⟩ := List.eq_nil_or_concat' s |>.resolve_left hs
  rw [after_append, List.foldl_append]
  exact synced_count _ b

/-- Text that is clear for every count it can be reached with may be put for another. -/
theorem Clear.append_congr {st : Option ℕ} {s t t' : GoString} (h : Clear st (s ++ t))
    (ht : Clear (s.foldl count st) t → Clear (s.foldl count st) t') : Clear st (s ++ t') := by
  induction s generalizing st with
  | nil => exact ht h
  | cons b s ih => exact ⟨h.1, ih h.2 ht⟩

/-- A pass keeps a text clear when each match, where it stands, is replaced by such a text. -/
theorem Clear.applyRule (rl : Rule) (hr : rl.pattern.nullable = false)
    (hmatch : ∀ p m t st, m ≠ [] → rl.pattern.Matches p m t → Synced p st → Clear st (m ++ t) →
      (∀ st', Synced (after p m) st' → Clear st' t → Clear st' (rest rl (after p m) t)) →
      Clear st (rl.apply m ++ rest rl (after p m) t)) {s : GoString} (h : Clear (some 0) s) :
    Clear (some 0) (applyRule s rl) := by
  refine Re.scan_induct hr (motive := fun p s => ∀ st, Synced p st → Clear st s → Clear st (rest rl p s))
    ?_ ?_ ?_ none s (some 0) (fun _ => rfl) h
  · intro p st _ h
    exact h
  · intro p a s hfind ih st _ h
    rw [rest_cons hfind]
    exact ⟨h.1, ih _ (synced_count st a) h.2⟩
  · intro p m t hm hfind hmatches ih st hst h
    rw [rest_append hm hfind]
    exact hmatch p m t st hm hmatches hst h ih

theorem Clear.email {s : GoString} (h : Clear (some 0) s) : Clear (some 0) (Pii.applyRule s emailRule) := by
  refine Clear.applyRule emailRule (by rfl) ?_ h
  intro p m t st _ hmatch hst h ih
  obtain ⟨x, l, dom, rfl, hl, -, hdom, hx⟩ := email_shape hmatch
  have hfull : full (count st x) = false := by
    cases hword : word x with
    | false => rw [count_of_not_word hword]; rfl
    | true =>
      -- the address begins a word
      rw [hst (by simpa [hword] using hx)]
      unfold count
      split_ifs <;> rfl
  have hstars : ∀ b ∈ lit "***@", word b = false := forall_not_word rfl
  have hafter : after p (x :: (l ++ 64 :: dom)) = after (some 64) dom := by
    rw [after_cons, after_append, after_cons]
  have hdomain : Clear (some 0) (dom ++ t) := by
    have h' : Clear st ((x :: (l ++ [64])) ++ (dom ++ t)) := by simpa using h
    have hend := h'.of_append
    rw [List.foldl_cons, List.foldl_append] at hend
    exact hend
  have happly : emailRule.apply (x :: (l ++ 64 :: dom)) = x :: (lit "***@" ++ dom) := redactEmail_eq hl
  rw [happly, List.cons_append, List.append_assoc]
  refine ⟨h.1, clear_append_of_not_word hstars (by decide) hfull (hdomain.append_congr fun ht => ?_)⟩
  exact ih _ (hafter ▸ synced_foldl hdom) ht

theorem Clear.ipv4 {s : GoString} (h : Clear (some 0) s) : Clear (some 0) (Pii.applyRule s ipv4Rule) := by
  refine Clear.applyRule ipv4Rule (by rfl) ?_ h
  intro p m t st hm hmatch hst h ih
  obtain ⟨a, b, c, d, rfl, hoctets, hp, ht⟩ := ipv4_shape hmatch
  have hst := hst hp
  subst hst
  have ha := hoctets a (by simp)
  have hb := hoctets b (by simp)
  have htail : Clear (some 0) (rest ipv4Rule (after p (a ++ 46 :: (b ++ 46 :: (c ++ 46 :: d)))) t) := by
    have hrest := ih _ (synced_foldl hm) h.of_append
    exact hrest.at_boundary (head?_rest (by rfl) (fun _ => ipv4_first) ht) rfl
  have hshort : ∀ {n : ℕ}, n ≤ 3 → full (some n) = false := by
    intro n hn
    simp only [full, Option.any_some, Bool.and_eq_false_iff, decide_eq_false_iff_not]
    omega
  have happly : ipv4Rule.apply (a ++ 46 :: (b ++ 46 :: (c ++ 46 :: d))) = _ := redactIPv4_eq hoctets
  rw [happly, List.append_assoc, List.append_assoc, List.append_assoc]
  apply clear_digits_append ha.1
  apply clear_append_of_not_word (forall_not_word rfl) (by decide) (hshort (by simpa using ha.2.2))
  apply clear_digits_append hb.1
  exact clear_append_of_not_word (forall_not_word rfl) (by decide) (hshort (by simpa using hb.2.2)) htail

/-- No run of 13 to 19 digits between boundaries is left, whatever the hint and the text. -/
theorem redactString_no_card (U : CaseTables) (languageOrJurisdiction s : GoString) :
    ¬HasCardNumber (redactString U languageOrJurisdiction s) := by
  unfold redactString
  split
  next hs =>
    rw [hs]
    exact Clear.not_hasCardNumber (s := []) rfl
  next =>
    rw [foldl_universalRules]
    exact (clear_bankCard _).email.ipv4.not_hasCardNumber

end SynapseGo.Pii
