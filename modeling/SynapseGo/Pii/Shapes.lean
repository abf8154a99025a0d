import SynapseGo.Pii.Rules

/-! The shape of a match of each pattern, and of what replaces it. -/
namespace SynapseGo.Pii
open SynapseGo.Go SynapseGo.Regex Pattern

/-- Letters that are all digits. -/
def Digits (s : GoString) : Prop := ∀ b ∈ s, isDigit b = true

theorem word_of_digit {b : UInt8} (h : isDigit b = true) : word b = true := by
  simp [word, h]

theorem Digits.keepDigits {s : GoString} (h : Digits s) : keepDigits s = s :=
  List.filter_eq_self.mpr h

theorem keepDigits_append (s t : GoString) : keepDigits (s ++ t) = keepDigits s ++ keepDigits t :=
  List.filter_append ..

theorem digits_keepDigits (s : GoString) : Digits (keepDigits s) :=
  fun _ hb => (List.mem_filter.mp hb).2

theorem digit_of_spaceOrDash {b : UInt8} (h : spaceOrDash b = true) : isDigit b = false := by
  simp only [spaceOrDash, space, Bool.or_eq_true, beq_iff_eq] at h
  rcases h with ((((rfl | rfl) | rfl) | rfl) | rfl) | rfl <;> rfl

/-- Separators between groups of digits. -/
theorem keepDigits_eq_nil {s : GoString} (h : ∀ b ∈ s, spaceOrDash b = true) : keepDigits s = [] :=
  List.filter_eq_nil_iff.mpr fun b hb => by simp [digit_of_spaceOrDash (h b hb)]

/-- A boundary before a digit. -/
theorem boundary_before {p : Option UInt8} {s t : GoString} (hs : Digits s) (hne : s ≠ [])
    (h : p.any word ≠ (s ++ t).head?.any word) : p.any word = false := by
  cases s with
  | nil => exact absurd rfl hne
  | cons b s => simpa [word_of_digit (hs b List.mem_cons_self)] using h

/-- A boundary after a digit. -/
theorem boundary_after {p : Option UInt8} {s t : GoString} (hs : Digits s) (hne : s ≠ [])
    (h : (after p s).any word ≠ t.head?.any word) : t.head?.any word = false := by
  rw [after_eq_getLast? p hne] at h
  obtain ⟨s, b, rfl⟩ := List.eq_nil_or_concat' s |>.resolve_left hne
  simpa [word_of_digit (hs b (by simp))] using h

section
variable {p : Option UInt8} {m t : GoString}

theorem eq_of_byte {b : UInt8} (h : (byte b).Matches p m t) : m = [b] := by
  obtain ⟨hb, hlo, hhi⟩ := h
  obtain ⟨x, rfl⟩ := List.length_eq_one_iff.mp (Nat.le_antisymm (hhi 1 rfl) hlo)
  rw [eq_of_beq (hb x List.mem_cons_self)]

theorem bankCard_shape (h : bankCard.Matches p m t) :
    p.any word = false ∧ t.head?.any word = false ∧ 13 ≤ (keepDigits m).length ∧
    (keepDigits m).length ≤ 19 := by
  obtain ⟨_, _, rfl, ⟨rfl, hstart⟩, a, _, rfl, ⟨ha, hla, hua⟩, x, _, rfl, ⟨hx, -, -⟩, b, _, rfl,
    ⟨hb, hlb, hub⟩,
    y, _, rfl, ⟨hy, -, -⟩, c, _, rfl, ⟨hc, hlc, huc⟩, z, _, rfl, ⟨hz, -, -⟩, d, _, rfl, ⟨hd, hld, hud⟩,
    rfl, hend⟩ := h
  have hua := hua 4 rfl
  have hub := hub 4 rfl
  have huc := huc 4 rfl
  have hud := hud 7 rfl
  rw [List.append_assoc] at hstart
  refine ⟨boundary_before ha (List.ne_nil_of_length_pos (by omega)) hstart,
    boundary_after hd (List.ne_nil_of_length_pos (by omega)) hend, ?_⟩
  simp only [List.nil_append, List.append_nil, keepDigits_append, Digits.keepDigits ha, Digits.keepDigits hb,
    Digits.keepDigits hc, Digits.keepDigits hd, keepDigits_eq_nil hx, keepDigits_eq_nil hy,
      keepDigits_eq_nil hz,
    List.length_append]
  omega

/-- A run of 13 to 19 digits between boundaries is a match. -/
theorem bankCard_of_digits (hm : Digits m) (hlo : 13 ≤ m.length) (hhi : m.length ≤ 19)
    (hp : p.any word = false) (ht : t.head?.any word = false) : bankCard.Matches p m t := by
  obtain ⟨a, b, c, d, rfl, hla, hlb, hlc⟩ : ∃ a b c d, m = a ++ (b ++ (c ++ d)) ∧ a.length = 4 ∧
      b.length = 4 ∧ c.length = 4 := by
    refine ⟨m.take 4, (m.drop 4).take 4, ((m.drop 4).drop 4).take 4, ((m.drop 4).drop 4).drop 4, ?_, ?_, ?_,
      ?_⟩
    · simp only [List.take_append_drop]
    all_goals
      simp only [List.length_take, List.length_drop]
      omega
  simp only [List.length_append] at hlo hhi
  have hda : Digits a := fun x hx => hm x (by simp [hx])
  have hdb : Digits b := fun x hx => hm x (by simp [hx])
  have hdc : Digits c := fun x hx => hm x (by simp [hx])
  have hdd : Digits d := fun x hx => hm x (by simp [hx])
  have hhead : (a ++ (b ++ (c ++ d)) ++ t).head?.any word = true := by
    cases a with
    | nil => cases hla
    | cons x a => simp [word_of_digit (hda x List.mem_cons_self)]
  have hlast : (after p (a ++ (b ++ (c ++ d)))).any word = true := by
    have hne : d ≠ [] := List.ne_nil_of_length_pos (by omega)
    obtain ⟨d, x, rfl⟩ := List.eq_nil_or_concat' d |>.resolve_left hne
    simp [after_append, word_of_digit (hdd x (by simp))]
  have hstart : p.any word ≠ (a ++ (b ++ (c ++ d)) ++ t).head?.any word := by
    rw [hp, hhead]
    exact Bool.false_ne_true
  refine ⟨[], _, rfl, ⟨rfl, hstart⟩, a, _, rfl, ⟨hda, by omega, by simp; omega⟩,
    [], _, rfl, ⟨nofun, by simp, by simp⟩, b, _, rfl, ⟨hdb, by omega, by simp; omega⟩,
    [], _, rfl, ⟨nofun, by simp, by simp⟩, c, _, rfl, ⟨hdc, by omega, by simp; omega⟩,
    [], _, rfl, ⟨nofun, by simp, by simp⟩, d, [], by simp, ⟨hdd, by omega, by simp; omega⟩, rfl, ?_⟩
  simp only [after_append, after_nil] at hlast ⊢
  simp [hlast, ht]

/-- A match of the card pattern as it is replaced: four digits, and four digits. -/
theorem redactBankCard_eq (hlo : 13 ≤ (keepDigits m).length) (hhi : (keepDigits m).length ≤ 19) :
    ∃ a b, redactBankCard m = a ++ (lit " **** **** " ++ b) ∧ Digits a ∧ Digits b ∧ a.length = 4 ∧
    b.length = 4 := by
  have hdigits := digits_keepDigits m
  refine ⟨(keepDigits m).take 4, (keepDigits m).drop ((keepDigits m).length - 4), ?_,
    fun x hx => hdigits x (List.mem_of_mem_take hx), fun x hx => hdigits x (List.mem_of_mem_drop hx), ?_, ?_⟩
  · unfold redactBankCard
    rw [if_neg (by omega), List.append_assoc]
  · rw [List.length_take]
    omega
  · rw [List.length_drop]
    omega

theorem email_shape (h : email.Matches p m t) :
    ∃ x l dom, m = x :: (l ++ 64 :: dom) ∧ (∀ b ∈ x :: l, mailbox b = true) ∧ (∀ b ∈ dom, host b = true) ∧
      dom ≠ [] ∧ p.any word ≠ word x := by
  obtain ⟨_, _, rfl, ⟨rfl, hstart⟩, l, _, rfl, ⟨hl, hll, -⟩, at_, _, rfl, hat, a, _, rfl, ⟨ha, -, -⟩,
    dot, _, rfl, hdot, b, _, rfl, ⟨hb, hlb, -⟩, rfl, -⟩ := h
  rw [eq_of_byte hat] at hstart ⊢
  rw [eq_of_byte hdot] at hstart ⊢
  cases l with
  | nil => cases hll
  | cons x l =>
    refine ⟨x, l, a ++ 46 :: b, by simp, hl, fun c hc => ?_, by simp, by simpa using hstart⟩
    rcases List.mem_append.mp hc with hc | hc
    · exact ha c hc
    · rcases List.mem_cons.mp hc with rfl | hc
      · rfl
      · simp [host, hb c hc]

theorem mailbox_ne_at {b : UInt8} (h : mailbox b = true) : b ≠ 64 := by
  rintro rfl
  cases h

theorem redactEmail_eq {x : UInt8} {l dom : GoString} (hl : ∀ b ∈ x :: l, mailbox b = true) :
    redactEmail (x :: (l ++ 64 :: dom)) = x :: (lit "***@" ++ dom) := by
  have hidx : (x :: (l ++ 64 :: dom)).findIdx? (· == 64) = some (l.length + 1) := by
    have hnone : (x :: l).findIdx? (· == 64) = none :=
      List.findIdx?_eq_none_iff.mpr fun b hb => by simpa using mailbox_ne_at (hl b hb)
    rw [← List.cons_append, List.findIdx?_append, hnone, Option.none_or, List.findIdx?_cons]
    simp
  unfold redactEmail
  rw [hidx]
  simp

/-- An octet of a dotted address. -/
def Octet (s : GoString) : Prop := Digits s ∧ 1 ≤ s.length ∧ s.length ≤ 3

theorem Octet.of_matches (h : (between isDigit 1 3).Matches p m t) : Octet m :=
  ⟨h.1, h.2.1, h.2.2 3 rfl⟩

theorem Octet.ne_nil {s : GoString} (h : Octet s) : s ≠ [] := List.ne_nil_of_length_pos h.2.1

theorem ipv4_shape (h : ipv4.Matches p m t) :
    ∃ a b c d, m = a ++ 46 :: (b ++ 46 :: (c ++ 46 :: d)) ∧ (∀ s ∈ [a, b, c, d], Octet s) ∧
      p.any word = false ∧ t.head?.any word = false := by
  obtain ⟨_, _, rfl, ⟨rfl, hstart⟩, a, _, rfl, ha, _, _, rfl, hx, b, _, rfl, hb, _, _, rfl, hy, c, _, rfl, hc,
    _, _, rfl, hz, d, _, rfl, hd, rfl, hend⟩ := h
  have ha := Octet.of_matches ha
  have hd := Octet.of_matches hd
  rw [eq_of_byte hx, eq_of_byte hy, eq_of_byte hz, List.append_assoc] at hstart
  refine ⟨a, b, c, d, ?_, ?_, boundary_before ha.1 ha.ne_nil hstart, boundary_after hd.1 hd.ne_nil hend⟩
  · rw [eq_of_byte hx, eq_of_byte hy, eq_of_byte hz]
    simp
  · simp only [List.forall_mem_cons]
    exact ⟨ha, Octet.of_matches hb, Octet.of_matches hc, hd, nofun⟩

theorem redactIPv4_eq {a b c d : GoString} (h : ∀ s ∈ [a, b, c, d], Octet s) :
    redactIPv4 (a ++ 46 :: (b ++ 46 :: (c ++ 46 :: d))) = a ++ lit "." ++ b ++ lit ".*.*" := by
  have hdot : ∀ s ∈ [a, b, c, d], (46 : UInt8) ∉ s := by
    intro s hs hmem
    have hdigit := (h s hs).1 46 hmem
    cases hdigit
  have hsplit : split (a ++ 46 :: (b ++ 46 :: (c ++ 46 :: d))) 46 = [a, b, c, d] := by
    have hjoin := List.splitOn_intercalate 46 hdot (List.cons_ne_nil _ _)
    simpa [split, List.intercalate] using hjoin
  have hfine : ([a, b, c, d].any fun part => part.length < 1 || 3 < part.length || part.any (!isDigit ·)) =
    false := by
    rw [List.any_eq_false]
    intro s hs
    obtain ⟨hdigits, hlo, hhi⟩ := h s hs
    simp only [Bool.or_eq_true, decide_eq_true_eq, List.any_eq_true, Bool.not_eq_true']
    rintro ((hlen | hlen) | ⟨x, hx, hnot⟩)
    · omega
    · omega
    · rw [hdigits x hx] at hnot
      cases hnot
  unfold redactIPv4
  simp only [hsplit, hfine]
  rfl

theorem keepDigits_of_opt {C : UInt8 → Bool} (hC : ∀ b, C b = true → isDigit b = false)
    (h : (opt C).Matches p m t) :
    keepDigits m = [] :=
  List.filter_eq_nil_iff.mpr fun b hb => by simp [hC b (h.1 b hb)]

/-- A Russian number has 11 digits, of which the first is 7 or 8. -/
theorem ruPhone_shape (h : ruPhone.Matches p m t) :
    (keepDigits m).length = 11 ∧ ((keepDigits m).head? = some 55 ∨ (keepDigits m).head? = some 56) := by
  obtain ⟨g, _, rfl, hg, x, _, rfl, hx, _, _, rfl, hnine, a, _, rfl, ⟨ha, hla, hua⟩, y, _, rfl, hy, b, _, rfl,
    ⟨hb, hlb, hub⟩, z, _, rfl, hz, c, _, rfl, ⟨hc, hlc, huc⟩, w, d, rfl, hw, ⟨hd, hld, hud⟩⟩ := h
  have hua := hua 2 rfl
  have hub := hub 3 rfl
  have huc := huc 2 rfl
  have hud := hud 2 rfl
  have hcode : keepDigits g = [55] ∨ keepDigits g = [56] := by
    rcases hg with ⟨plus, _, rfl, hplus, hseven⟩ | height
    · rw [eq_of_byte hseven, keepDigits_append, keepDigits_of_opt (by simp; decide) hplus]
      exact .inl rfl
    · rw [eq_of_byte height]
      exact .inr rfl
  have hopen : ∀ e : UInt8, isDigit e = false → ∀ b, (spaceOrDash b || b == e) = true →
    isDigit b = false := by
    intro e he b hb
    rcases Bool.or_eq_true_iff.mp hb with hb | hb
    · exact digit_of_spaceOrDash hb
    · rwa [eq_of_beq hb]
  have hnine' : keepDigits [57] = [57] := rfl
  have hdigits : keepDigits (g ++ (x ++ ([57] ++ (a ++ (y ++ (b ++ (z ++ (c ++ (w ++ d))))))))) =
      keepDigits g ++ (57 :: (a ++ (b ++ (c ++ d)))) := by
    simp only [keepDigits_append, keepDigits_of_opt (hopen 40 rfl) hx, keepDigits_of_opt (hopen 41 rfl) hy,
      keepDigits_of_opt (fun _ => digit_of_spaceOrDash) hz,
        keepDigits_of_opt (fun _ => digit_of_spaceOrDash) hw,
      Digits.keepDigits ha, Digits.keepDigits hb, Digits.keepDigits hc, Digits.keepDigits hd, hnine',
      List.nil_append]
    rfl
  rw [eq_of_byte hnine, hdigits]
  refine ⟨?_, hcode.imp (fun hg => by rw [hg]; rfl) fun hg => by rw [hg]; rfl⟩
  have hone : (keepDigits g).length = 1 := by
    rcases hcode with hg | hg <;> rw [hg] <;> rfl
  simp only [List.length_append, List.length_cons, hone]
  omega

theorem redactRUPhone_eq (h : ruPhone.Matches p m t) :
    ∃ a b, redactRUPhone m = lit "+7-" ++ (a ++ (lit "-***-**-" ++ b)) ∧ Digits a ∧ Digits b ∧ a.length = 3 ∧
      b.length = 2 := by
  obtain ⟨hlen, hcode⟩ := ruPhone_shape h
  have hdigits := digits_keepDigits m
  refine ⟨((keepDigits m).drop 1).take 3, (keepDigits m).drop ((keepDigits m).length - 2), ?_,
    fun x hx => hdigits x (List.mem_of_mem_drop (List.mem_of_mem_take hx)),
    fun x hx => hdigits x (List.mem_of_mem_drop hx), ?_, ?_⟩
  · unfold redactRUPhone
    rw [if_neg (by omega), if_pos (by rcases hcode with hc | hc <;> simp [hc, hlen]), List.append_assoc,
      List.append_assoc]
  · simp [hlen]
  · simp [hlen]

theorem cnPhone_shape (h : cnPhone.Matches p m t) :
    p.any word = false ∧ t.head?.any word = false ∧ Digits m ∧ m.length = 11 := by
  obtain ⟨_, _, rfl, ⟨rfl, hstart⟩, o, _, rfl, hone, x, _, rfl, ⟨hx, hlx, hux⟩, a, _, rfl, ⟨ha, hla, hua⟩,
    rfl, hend⟩ := h
  have hux := hux 1 rfl
  have hua := hua 9 rfl
  have ho : Digits o := by
    rw [eq_of_byte hone]
    exact fun b hb => by rw [List.mem_singleton.mp hb]; rfl
  have hx : Digits x := by
    intro b hb
    have hrange := hx b hb
    simp only [Bool.and_eq_true, decide_eq_true_eq] at hrange
    simp only [isDigit, Bool.and_eq_true, decide_eq_true_eq]
    exact ⟨UInt8.le_trans (by decide) hrange.1, hrange.2⟩
  have hlen : o.length = 1 := by
    rw [eq_of_byte hone]
    rfl
  rw [List.append_assoc] at hstart
  refine ⟨boundary_before ho (List.ne_nil_of_length_pos (by omega)) hstart,
    boundary_after ha (List.ne_nil_of_length_pos (by omega)) hend, fun b hb => ?_, ?_⟩
  · simp only [List.nil_append, List.append_nil, List.mem_append] at hb
    rcases hb with hb | hb | hb
    · exact ho b hb
    · exact hx b hb
    · exact ha b hb
  · simp only [List.nil_append, List.append_nil, List.length_append, hlen]
    omega

theorem redactCNPhone_eq (hm : Digits m) (hlen : m.length = 11) :
    redactCNPhone m = m.take 3 ++ (lit "****" ++ m.drop 7) := by
  unfold redactCNPhone
  rw [hm.keepDigits, if_neg (by omega), hlen, List.append_assoc]

theorem cnID_shape (h : cnID.Matches p m t) :
    p.any word = false ∧ t.head?.any word = false ∧ m.length = 18 := by
  obtain ⟨_, _, rfl, ⟨rfl, hstart⟩, a, _, rfl, ⟨ha, hla, hua⟩, x, _, rfl, ⟨hx, hlx, hux⟩, rfl, hend⟩ := h
  have hux := hux 1 rfl
  have hua := hua 17 rfl
  obtain ⟨b, rfl⟩ := List.length_eq_one_iff.mp (Nat.le_antisymm hux hlx)
  have hb : word b = true := by
    have hclass := hx b List.mem_cons_self
    simp only [Bool.or_eq_true, beq_iff_eq] at hclass
    rcases hclass with (hb | rfl) | rfl
    · exact word_of_digit hb
    · rfl
    · rfl
  rw [List.append_assoc] at hstart
  refine ⟨boundary_before ha (List.ne_nil_of_length_pos (by omega)) hstart, by simpa [hb] using hend, ?_⟩
  simp only [List.nil_append, List.append_nil, List.length_append, List.length_singleton]
  omega

end

end SynapseGo.Pii
