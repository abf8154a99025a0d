import SynapseGo.Go.Strings

/-! UTF-8: what package `unicode/utf8` decodes is what it encodes, and the case mappings of package
`strings` on top of it. -/
namespace SynapseGo.Go

/-- The code points that have an encoding of their own. -/
def Scalar (r : ℕ) : Prop := r < 0xD800 ∨ 0xE000 ≤ r ∧ r < 0x110000

private theorem toNat_toUInt8 {n : ℕ} (h : n < 256) : n.toUInt8.toNat = n := by
  rw [Nat.toUInt8, UInt8.toNat_ofNat']
  omega

private theorem toUInt8_eq {n : ℕ} {b : UInt8} (h : n = b.toNat) : n.toUInt8 = b := by
  rw [h, Nat.toUInt8, UInt8.ofNat_toNat]

private theorem continues_iff {b : UInt8} : continues b = true ↔ 0x80 ≤ b.toNat ∧ b.toNat ≤ 0xBF := by
  simp only [continues, Bool.and_eq_true, decide_eq_true_eq, UInt8.le_iff_toNat_le]
  rfl

/-- The second byte of an encoding, where the first one narrows its range. -/
private theorem narrowed_iff {x lo hi : ℕ} {l h c : UInt8} (hl : 0x80 ≤ l.toNat) (hh : h.toNat ≤ 0xBF) :
    (((if x = lo then l else 0x80) ≤ c && c ≤ (if x = hi then h else 0xBF)) = true) ↔
      (0x80 ≤ c.toNat ∧ c.toNat ≤ 0xBF) ∧ (x = lo → l.toNat ≤ c.toNat) ∧ (x = hi → c.toNat ≤ h.toNat) := by
  have h80 : (0x80 : UInt8).toNat = 0x80 := rfl
  have hBF : (0xBF : UInt8).toNat = 0xBF := rfl
  simp only [Bool.and_eq_true, decide_eq_true_eq, UInt8.le_iff_toNat_le, apply_ite UInt8.toNat, h80, hBF]
  split_ifs <;> omega

/-- Neither overlong encodings nor surrogates. -/
private theorem second_of_three_iff {x : ℕ} {c : UInt8} :
    (((if x = 0xE0 then 0xA0 else 0x80) ≤ c && c ≤ (if x = 0xED then 0x9F else 0xBF)) = true) ↔
      (0x80 ≤ c.toNat ∧ c.toNat ≤ 0xBF) ∧ (x = 0xE0 → 0xA0 ≤ c.toNat) ∧ (x = 0xED → c.toNat ≤ 0x9F) :=
  narrowed_iff (by decide) (by decide)

/-- Neither overlong encodings nor anything beyond the last code point. -/
private theorem second_of_four_iff {x : ℕ} {c : UInt8} :
    (((if x = 0xF0 then 0x90 else 0x80) ≤ c && c ≤ (if x = 0xF4 then 0x8F else 0xBF)) = true) ↔
      (0x80 ≤ c.toNat ∧ c.toNat ≤ 0xBF) ∧ (x = 0xF0 → 0x90 ≤ c.toNat) ∧ (x = 0xF4 → c.toNat ≤ 0x8F) :=
  narrowed_iff (by decide) (by decide)

section Encode
variable {r : ℕ}

private theorem encodeRune_one (h : r < 0x80) : encodeRune r = [r.toUInt8] := by
  rw [encodeRune, if_pos h]

private theorem encodeRune_two (h : 0x80 ≤ r ∧ r < 0x800) :
    encodeRune r = [(0xC0 + r / 64).toUInt8, (0x80 + r % 64).toUInt8] := by
  rw [encodeRune, if_neg (by omega), if_pos h.2]

private theorem encodeRune_three (h : 0x800 ≤ r ∧ r < 0x10000) (hr : Scalar r) :
    encodeRune r = [(0xE0 + r / 4096).toUInt8, (0x80 + r / 64 % 64).toUInt8, (0x80 + r % 64).toUInt8] := by
  unfold Scalar at hr
  rw [encodeRune, if_neg (by omega), if_neg (by omega), if_neg (by omega), if_pos h.2]

private theorem encodeRune_four (h : 0x10000 ≤ r) (hr : Scalar r) :
    encodeRune r = [(0xF0 + r / 262144).toUInt8, (0x80 + r / 4096 % 64).toUInt8, (0x80 + r / 64 % 64).toUInt8,
      (0x80 + r % 64).toUInt8] := by
  unfold Scalar at hr
  rw [encodeRune, if_neg (by omega), if_neg (by omega), if_neg (by omega), if_neg (by omega)]

end Encode

section Decode
variable {b c d e : UInt8} (s : GoString)

private theorem decodeRune_one (hb : b.toNat < 0x80) : decodeRune (b :: s) = (b.toNat, 1) := by
  simp only [decodeRune, if_pos hb]

private theorem decodeRune_two (hb : 0xC2 ≤ b.toNat ∧ b.toNat < 0xE0) (hc : continues c = true) :
    decodeRune (b :: c :: s) = ((b.toNat - 0xC0) * 64 + (c.toNat - 0x80), 2) := by
  simp only [decodeRune, hc, if_true]
  rw [if_neg (by omega), if_neg (by omega), if_pos (by omega)]

private theorem decodeRune_three (hb : 0xE0 ≤ b.toNat ∧ b.toNat < 0xF0)
    (hc : ((if b.toNat = 0xE0 then 0xA0 else 0x80) ≤ c && c ≤ (if b.toNat = 0xED then 0x9F else 0xBF)) = true)
    (hd : continues d = true) : decodeRune (b :: c :: d :: s) =
      ((b.toNat - 0xE0) * 4096 + (c.toNat - 0x80) * 64 + (d.toNat - 0x80), 3) := by
  simp only [decodeRune, hc, hd, Bool.and_true, if_true]
  rw [if_neg (by omega), if_neg (by omega), if_neg (by omega), if_pos (by omega)]

private theorem decodeRune_four (hb : 0xF0 ≤ b.toNat ∧ b.toNat < 0xF5)
    (hc : ((if b.toNat = 0xF0 then 0x90 else 0x80) ≤ c && c ≤ (if b.toNat = 0xF4 then 0x8F else 0xBF)) = true)
    (hd : continues d = true) (he : continues e = true) : decodeRune (b :: c :: d :: e :: s) =
      ((b.toNat - 0xF0) * 262144 + (c.toNat - 0x80) * 4096 + (d.toNat - 0x80) * 64 + (e.toNat - 0x80),
        4) := by
  simp only [decodeRune, hc, hd, he, Bool.and_true, if_true]
  rw [if_neg (by omega), if_neg (by omega), if_neg (by omega), if_neg (by omega), if_pos (by omega)]

end Decode

/-- Decoding undoes encoding. -/
theorem decodeRune_encodeRune {r : ℕ} (hr : Scalar r) (s : GoString) :
    decodeRune (encodeRune r ++ s) = (r, (encodeRune r).length) := by
  have hscalar := hr
  unfold Scalar at hscalar
  by_cases h1 : r < 0x80
  · have hb := toNat_toUInt8 (n := r) (by omega)
    rw [encodeRune_one h1, List.singleton_append, decodeRune_one s (by omega), hb]
    rfl
  by_cases h2 : r < 0x800
  · have hb := toNat_toUInt8 (n := 0xC0 + r / 64) (by omega)
    have hc := toNat_toUInt8 (n := 0x80 + r % 64) (by omega)
    rw [encodeRune_two ⟨by omega, h2⟩, List.cons_append, List.cons_append,
      decodeRune_two _ (by omega) (continues_iff.mpr (by omega)), hb, hc]
    simp only [List.length_cons, List.length_nil, Prod.mk.injEq, and_true]
    omega
  by_cases h3 : r < 0x10000
  · have hb := toNat_toUInt8 (n := 0xE0 + r / 4096) (by omega)
    have hc := toNat_toUInt8 (n := 0x80 + r / 64 % 64) (by omega)
    have hd := toNat_toUInt8 (n := 0x80 + r % 64) (by omega)
    have hsecond := (second_of_three_iff (x := (0xE0 + r / 4096).toUInt8.toNat)
      (c := (0x80 + r / 64 % 64).toUInt8)).mpr ⟨by omega, by omega, by omega⟩
    rw [encodeRune_three ⟨by omega, h3⟩ hr, List.cons_append, List.cons_append, List.cons_append,
      decodeRune_three _ (by omega) hsecond (continues_iff.mpr (by omega)), hb, hc, hd]
    simp only [List.length_cons, List.length_nil, Prod.mk.injEq, and_true]
    omega
  · have hb := toNat_toUInt8 (n := 0xF0 + r / 262144) (by omega)
    have hc := toNat_toUInt8 (n := 0x80 + r / 4096 % 64) (by omega)
    have hd := toNat_toUInt8 (n := 0x80 + r / 64 % 64) (by omega)
    have he := toNat_toUInt8 (n := 0x80 + r % 64) (by omega)
    have hsecond := (second_of_four_iff (x := (0xF0 + r / 262144).toUInt8.toNat)
      (c := (0x80 + r / 4096 % 64).toUInt8)).mpr ⟨by omega, by omega, by omega⟩
    rw [encodeRune_four (by omega) hr, List.cons_append, List.cons_append, List.cons_append, List.cons_append,
      decodeRune_four _ (by omega) hsecond (continues_iff.mpr (by omega)) (continues_iff.mpr (by omega)),
      hb, hc, hd, he]
    simp only [List.length_cons, List.length_nil, Prod.mk.injEq, and_true]
    omega

/-- The string begins with the encoding of a rune, or its first byte counts as `runeError`. -/
private def Decodes (s : GoString) : Prop :=
  decodeRune s = (runeError, 1) ∨ ∃ r t, Scalar r ∧ s = encodeRune r ++ t

private theorem decodes_two {b : UInt8} (hb : 0xC2 ≤ b.toNat ∧ b.toNat < 0xE0) (s : GoString) :
    Decodes (b :: s) := by
  have h1 : ¬ b.toNat < 0x80 := by omega
  have h2 : ¬ b.toNat < 0xC2 := by omega
  cases s with
  | nil =>
    left
    simp only [decodeRune, if_neg h1, if_neg h2, if_pos hb.2]
  | cons c s =>
    by_cases hc : continues c = true
    · right
      rw [continues_iff] at hc
      refine ⟨(b.toNat - 0xC0) * 64 + (c.toNat - 0x80), s, Or.inl (by omega), ?_⟩
      rw [encodeRune_two (by omega), toUInt8_eq (b := b) (by omega), toUInt8_eq (b := c) (by omega)]
      rfl
    · left
      simp only [decodeRune, if_neg h1, if_neg h2, if_pos hb.2, if_neg hc]

private theorem decodes_three {b : UInt8} (hb : 0xE0 ≤ b.toNat ∧ b.toNat < 0xF0) (s : GoString) :
    Decodes (b :: s) := by
  have h1 : ¬ b.toNat < 0x80 := by omega
  have h2 : ¬ b.toNat < 0xC2 := by omega
  have h3 : ¬ b.toNat < 0xE0 := by omega
  cases s with
  | nil =>
    left
    simp only [decodeRune, if_neg h1, if_neg h2, if_neg h3, if_pos hb.2]
  | cons c s =>
    cases s with
    | nil =>
      left
      simp only [decodeRune, if_neg h1, if_neg h2, if_neg h3, if_pos hb.2]
    | cons d s =>
      by_cases hc :
        ((if b.toNat = 0xE0 then 0xA0 else 0x80) ≤ c && c ≤ (if b.toNat = 0xED then 0x9F else 0xBF) &&
          continues d) = true
      · right
        rw [Bool.and_eq_true, second_of_three_iff, continues_iff] at hc
        have hr : Scalar ((b.toNat - 0xE0) * 4096 + (c.toNat - 0x80) * 64 + (d.toNat - 0x80)) := by
          unfold Scalar
          omega
        refine ⟨_, s, hr, ?_⟩
        rw [encodeRune_three (by omega) hr, toUInt8_eq (b := b) (by omega), toUInt8_eq (b := c) (by omega),
          toUInt8_eq (b := d) (by omega)]
        rfl
      · left
        simp only [decodeRune, if_neg h1, if_neg h2, if_neg h3, if_pos hb.2, if_neg hc]

private theorem decodes_four {b : UInt8} (hb : 0xF0 ≤ b.toNat ∧ b.toNat < 0xF5) (s : GoString) :
    Decodes (b :: s) := by
  have h1 : ¬ b.toNat < 0x80 := by omega
  have h2 : ¬ b.toNat < 0xC2 := by omega
  have h3 : ¬ b.toNat < 0xE0 := by omega
  have h4 : ¬ b.toNat < 0xF0 := by omega
  cases s with
  | nil =>
    left
    simp only [decodeRune, if_neg h1, if_neg h2, if_neg h3, if_neg h4, if_pos hb.2]
  | cons c s =>
    cases s with
    | nil =>
      left
      simp only [decodeRune, if_neg h1, if_neg h2, if_neg h3, if_neg h4, if_pos hb.2]
    | cons d s =>
      cases s with
      | nil =>
        left
        simp only [decodeRune, if_neg h1, if_neg h2, if_neg h3, if_neg h4, if_pos hb.2]
      | cons e s =>
        by_cases hc : ((if b.toNat = 0xF0 then 0x90 else 0x80) ≤ c &&
            c ≤ (if b.toNat = 0xF4 then 0x8F else 0xBF) && continues d && continues e) = true
        · right
          rw [Bool.and_eq_true, Bool.and_eq_true, second_of_four_iff, continues_iff, continues_iff] at hc
          have hr : Scalar ((b.toNat - 0xF0) * 262144 + (c.toNat - 0x80) * 4096 + (d.toNat - 0x80) * 64 +
              (e.toNat - 0x80)) := by
            unfold Scalar
            omega
          refine ⟨_, s, hr, ?_⟩
          rw [encodeRune_four (by omega) hr, toUInt8_eq (b := b) (by omega), toUInt8_eq (b := c) (by omega),
            toUInt8_eq (b := d) (by omega), toUInt8_eq (b := e) (by omega)]
          rfl
        · left
          simp only [decodeRune, if_neg h1, if_neg h2, if_neg h3, if_neg h4, if_pos hb.2, if_neg hc]

/-- What decodes as a rune is its encoding; all else is one byte that counts as `runeError`. -/
theorem decodeRune_cases (b : UInt8) (s : GoString) : decodeRune (b :: s) = (runeError, 1) ∨
    ∃ r t, Scalar r ∧ b :: s = encodeRune r ++ t := by
  by_cases h1 : b.toNat < 0x80
  · right
    refine ⟨b.toNat, s, Or.inl (by omega), ?_⟩
    rw [encodeRune_one h1, toUInt8_eq rfl, List.singleton_append]
  by_cases h2 : b.toNat < 0xC2
  · left
    simp only [decodeRune, if_neg h1, if_pos h2]
  by_cases h3 : b.toNat < 0xE0
  · exact decodes_two (by omega) s
  by_cases h4 : b.toNat < 0xF0
  · exact decodes_three (by omega) s
  by_cases h5 : b.toNat < 0xF5
  · exact decodes_four (by omega) s
  · left
    simp only [decodeRune, if_neg h1, if_neg h2, if_neg h3, if_neg h4, if_neg h5]

theorem encodeRune_ne_nil (r : ℕ) : encodeRune r ≠ [] := by
  unfold encodeRune
  split_ifs <;> simp

private theorem width_pos (b : UInt8) (s : GoString) : 0 < (decodeRune (b :: s)).2 := by
  rcases decodeRune_cases b s with h | ⟨r, t, hr, h⟩
  · rw [h]
    exact Nat.one_pos
  · rw [h, decodeRune_encodeRune hr]
    exact List.length_pos_iff.mpr (encodeRune_ne_nil r)

private theorem runesAux_eq {n : ℕ} {s : GoString} (hn : s.length ≤ n) : runesAux n s = runes s := by
  have hfuel : ∀ m n : ℕ, ∀ s : GoString, s.length ≤ m → s.length ≤ n → runesAux m s = runesAux n s := by
    intro m
    induction m with
    | zero =>
      intro n s hm _
      have hs : s = [] := List.eq_nil_of_length_eq_zero (by omega)
      subst hs
      cases n <;> rfl
    | succ m ih =>
      intro n s hm hn
      cases s with
      | nil => cases n <;> rfl
      | cons b s =>
        have hpos := width_pos b s
        rw [List.length_cons] at hm hn
        obtain ⟨n, rfl⟩ : ∃ k, n = k + 1 := ⟨n - 1, by omega⟩
        simp only [runesAux, List.cons.injEq, true_and]
        apply ih
        · rw [List.length_drop, List.length_cons]
          omega
        · rw [List.length_drop, List.length_cons]
          omega
  exact hfuel n s.length s hn (Nat.le_refl _)

private theorem runes_cons (b : UInt8) (s : GoString) :
    runes (b :: s) = (decodeRune (b :: s)).1 :: runes ((b :: s).drop (decodeRune (b :: s)).2) := by
  have hpos := width_pos b s
  have hlen : ((b :: s).drop (decodeRune (b :: s)).2).length ≤ s.length := by
    rw [List.length_drop, List.length_cons]
    omega
  have hstep : runes (b :: s) = (decodeRune (b :: s)).1 ::
    runesAux s.length ((b :: s).drop (decodeRune (b :: s)).2) :=
    rfl
  rw [hstep, runesAux_eq hlen]

/-- A rune is read together with its encoding. -/
theorem runes_encodeRune {r : ℕ} (hr : Scalar r) (s : GoString) :
    runes (encodeRune r ++ s) = r :: runes s := by
  have hdecode := decodeRune_encodeRune hr s
  obtain ⟨b, t, ht⟩ := List.exists_cons_of_ne_nil (encodeRune_ne_nil r)
  rw [ht, List.cons_append] at hdecode ⊢
  rw [runes_cons, hdecode, ← List.cons_append, List.drop_left]

theorem runes_bad {b : UInt8} {s : GoString} (h : decodeRune (b :: s) = (runeError, 1)) :
    runes (b :: s) = runeError :: runes s := by
  rw [runes_cons, h]
  rfl

/-- A string is read one rune or one ill-formed byte at a time. -/
theorem rune_induction {motive : GoString → Prop} (nil : motive [])
    (bad : ∀ b s, decodeRune (b :: s) = (runeError, 1) → motive s → motive (b :: s))
    (good : ∀ r s, Scalar r → motive s → motive (encodeRune r ++ s)) (s : GoString) : motive s := by
  induction hn : s.length using Nat.strongRecOn generalizing s with
  | ind n ih =>
    cases s with
    | nil => exact nil
    | cons b s =>
      rcases decodeRune_cases b s with h | ⟨r, t, hr, ht⟩
      · rw [List.length_cons] at hn
        exact bad b s h (ih s.length (by omega) s rfl)
      · have hpos : 0 < (encodeRune r).length := List.length_pos_iff.mpr (encodeRune_ne_nil r)
        rw [ht] at hn ⊢
        rw [List.length_append] at hn
        exact good r t hr (ih t.length (by omega) t rfl)

/-- Encodings differ in their first byte from all that may stand within one. -/
private theorem encodeRune_shape (r : ℕ) :
    ∃ b t, encodeRune r = b :: t ∧ continues b = false ∧ ∀ c ∈ t, continues c = true := by
  have hcont : ∀ n, continues (0x80 + n % 64).toUInt8 = true := by
    intro n
    rw [continues_iff, toNat_toUInt8 (by omega)]
    omega
  have hlead : ∀ n, n < 0x80 ∨ 0xC0 ≤ n ∧ n < 0x100 → continues n.toUInt8 = false := by
    intro n hn
    rw [Bool.eq_false_iff, ne_eq, continues_iff, toNat_toUInt8 (by omega)]
    omega
  unfold encodeRune
  split_ifs with h1 h2 h3 h4
  · exact ⟨_, _, rfl, hlead r (by omega), by simp⟩
  · exact ⟨_, _, rfl, hlead _ (by omega), List.forall_mem_singleton.mpr (hcont _)⟩
  · exact ⟨_, _, rfl, by decide,
      List.forall_mem_cons.mpr ⟨by decide, List.forall_mem_singleton.mpr (by decide)⟩⟩
  · exact ⟨_, _, rfl, hlead _ (by omega),
      List.forall_mem_cons.mpr ⟨hcont _, List.forall_mem_singleton.mpr (hcont _)⟩⟩
  · exact ⟨_, _, rfl, hlead _ (by omega),
      List.forall_mem_cons.mpr
        ⟨hcont _, List.forall_mem_cons.mpr ⟨hcont _, List.forall_mem_singleton.mpr (hcont _)⟩⟩⟩

/-- No encoding ends another one. -/
private theorem eq_of_encodeRune_suffix {q r : ℕ} (hq : Scalar q) (hr : Scalar r)
    (h : encodeRune q <:+ encodeRune r) : q = r := by
  obtain ⟨x, hx⟩ := h
  obtain ⟨b, t, hb, hfirst, -⟩ := encodeRune_shape q
  obtain ⟨c, u, hc, -, hrest⟩ := encodeRune_shape r
  cases x with
  | nil =>
    rw [List.nil_append] at hx
    have hdecode := decodeRune_encodeRune hq []
    rw [hx, decodeRune_encodeRune hr] at hdecode
    exact (Prod.mk.inj hdecode).1.symm
  | cons y x =>
    rw [hb, hc, List.cons_append] at hx
    have hmem : b ∈ u := by
      rw [← (List.cons.inj hx).2]
      simp
    rw [hrest b hmem] at hfirst
    cases hfirst

/-- The last rune of an encoded text is what it ends with. -/
private theorem getLast?_of_suffix {q : ℕ} {rs : List ℕ} (hq : Scalar q) (hrs : ∀ r ∈ rs, Scalar r)
    (h : encodeRune q <:+ rs.flatMap encodeRune) : rs.getLast? = some q := by
  rcases List.eq_nil_or_concat rs with rfl | ⟨rs', r, rfl⟩
  · exact absurd (List.suffix_nil.mp h) (encodeRune_ne_nil q)
  · rw [List.concat_eq_append] at hrs h ⊢
    have hr : Scalar r := hrs r (by simp)
    rw [List.flatMap_append, List.flatMap_cons, List.flatMap_nil, List.append_nil] at h
    have heq : q = r := by
      rcases List.suffix_or_suffix_of_suffix h (List.suffix_append _ (encodeRune r)) with hs | hs
      · exact eq_of_encodeRune_suffix hq hr hs
      · exact (eq_of_encodeRune_suffix hr hq hs).symm
    rw [heq]
    simp

theorem scalar_runeError : Scalar runeError := Or.inr (by decide)

theorem scalar_of_mem_runes {r : ℕ} {s : GoString} (h : r ∈ runes s) : Scalar r := by
  induction s using rune_induction with
  | nil => cases h
  | bad b s hbad ih =>
    rw [runes_bad hbad] at h
    rcases List.mem_cons.mp h with rfl | h
    · exact scalar_runeError
    · exact ih h
  | good q s hq ih =>
    rw [runes_encodeRune hq] at h
    rcases List.mem_cons.mp h with rfl | h
    · exact hq
    · exact ih h

private theorem space_ne_runeError {r : ℕ} (h : r ∈ spaceRunes) : r ≠ runeError := by
  rintro rfl
  revert h
  decide

theorem scalar_of_mem_spaceRunes {r : ℕ} (h : r ∈ spaceRunes) : Scalar r := by
  have hall : spaceRunes.all (· < 0xD800) = true := by decide
  exact Or.inl (of_decide_eq_true (List.all_eq_true.mp hall r h))

/-- White space that is read first stands first. -/
private theorem prefix_of_head {s : GoString} {r : ℕ} (hspace : r ∈ spaceRunes)
    (h : (runes s).head? = some r) : encodeRune r <+: s := by
  cases s using rune_induction with
  | nil => cases h
  | bad b s hbad =>
    rw [runes_bad hbad, List.head?_cons] at h
    exact absurd (Option.some.inj h).symm (space_ne_runeError hspace)
  | good q s hq =>
    rw [runes_encodeRune hq, List.head?_cons] at h
    cases h
    exact List.prefix_append _ _

private theorem suffix_of_getLast {s : GoString} {r : ℕ} (hspace : r ∈ spaceRunes)
    (h : (runes s).getLast? = some r) : encodeRune r <:+ s := by
  induction s using rune_induction with
  | nil => cases h
  | bad b s hbad ih =>
    rw [runes_bad hbad] at h
    cases hrest : runes s with
    | nil =>
      rw [hrest] at h
      exact absurd (Option.some.inj h).symm (space_ne_runeError hspace)
    | cons q rs =>
      rw [hrest, List.getLast?_cons_cons, ← hrest] at h
      exact (ih h).trans (List.suffix_cons b s)
  | good q s hq ih =>
    rw [runes_encodeRune hq] at h
    cases hrest : runes s with
    | nil =>
      have hs : s = [] := by
        cases s with
        | nil => rfl
        | cons b s =>
          rw [runes_cons] at hrest
          cases hrest
      rw [hrest] at h
      cases h
      rw [hs, List.append_nil]
      exact List.suffix_rfl
    | cons q' rs =>
      rw [hrest, List.getLast?_cons_cons, ← hrest] at h
      exact (ih h).trans (List.suffix_append _ s)

theorem runes_flatMap {rs : List ℕ} (hrs : ∀ r ∈ rs, Scalar r) : runes (rs.flatMap encodeRune) = rs := by
  induction rs with
  | nil => rfl
  | cons r rs ih =>
    obtain ⟨hr, hrs⟩ := List.forall_mem_cons.mp hrs
    rw [List.flatMap_cons, runes_encodeRune hr, ih hrs]

section Upper
variable (U : CaseTables)

/-- `unicode.ToUpper`. -/
def upperRune (r : ℕ) : ℕ := if r < 0x80 then (if 0x61 ≤ r ∧ r ≤ 0x7A then r - 0x20 else r) else U.toUpper r

/-- What is true of the tables of Unicode: upper case is mapped to itself and is a character, and no
character becomes white space. -/
structure CaseTables.LawfulUpper : Prop where
  scalar : ∀ r, Scalar r → Scalar (upperRune U r)
  idempotent : ∀ r, Scalar r → upperRune U (upperRune U r) = upperRune U r
  space : ∀ r, Scalar r → upperRune U r ∈ spaceRunes → r ∈ spaceRunes

private theorem encodeRune_ascii {b : UInt8} (hb : b < 0x80) : encodeRune b.toNat = [b] := by
  have hlt : b.toNat < 0x80 := hb
  rw [encodeRune_one hlt, toUInt8_eq rfl]

private theorem encodeRune_upperRune {b : UInt8} (hb : b < 0x80) :
    encodeRune (upperRune U b.toNat) = [if 0x61 ≤ b ∧ b ≤ 0x7A then b - 0x20 else b] := by
  have hlt : b.toNat < 0x80 := hb
  have hiff : (0x61 ≤ b ∧ b ≤ 0x7A) ↔ 0x61 ≤ b.toNat ∧ b.toNat ≤ 0x7A := Iff.rfl
  rw [upperRune, if_pos hlt]
  by_cases hlower : 0x61 ≤ b.toNat ∧ b.toNat ≤ 0x7A
  · have hle : (0x20 : UInt8) ≤ b := by
      rw [UInt8.le_iff_toNat_le]
      have h20 : (0x20 : UInt8).toNat = 0x20 := rfl
      omega
    have hsub : (b - 0x20).toNat = b.toNat - 0x20 := UInt8.toNat_sub_of_le b 0x20 hle
    have hsmall : b - 0x20 < 0x80 := by
      rw [UInt8.lt_iff_toNat_lt, hsub]
      have h80 : (0x80 : UInt8).toNat = 0x80 := rfl
      omega
    rw [if_pos hlower, if_pos (hiff.mpr hlower), ← hsub, encodeRune_ascii hsmall]
  · rw [if_neg hlower, if_neg (mt hiff.mp hlower), encodeRune_ascii hb]

/-- The bytewise treatment of ASCII strings is only faster. -/
theorem toUpper_eq (s : GoString) : toUpper U s = ((runes s).map (upperRune U)).flatMap encodeRune := by
  have hascii : ∀ s : GoString, s.all (· < 0x80) = true →
      s.map (fun b => if 0x61 ≤ b ∧ b ≤ 0x7A then b - 0x20 else b) =
        ((runes s).map (upperRune U)).flatMap encodeRune := by
    intro s hs
    induction s with
    | nil => rfl
    | cons b s ih =>
      simp only [List.all_cons, Bool.and_eq_true, decide_eq_true_eq] at hs
      have hlt : b.toNat < 0x80 := hs.1
      have hscalar : Scalar b.toNat := Or.inl (by omega)
      have hrunes : runes (b :: s) = b.toNat :: runes s := by
        rw [← runes_encodeRune hscalar, encodeRune_ascii hs.1, List.singleton_append]
      rw [hrunes, List.map_cons, List.map_cons, List.flatMap_cons, encodeRune_upperRune U hs.1, ih hs.2,
        List.singleton_append]
  unfold toUpper
  split_ifs with hall
  · exact hascii s hall
  · rw [List.flatMap_map]
    rfl

variable {U} (hU : U.LawfulUpper)
include hU

theorem toUpper_toUpper (s : GoString) : toUpper U (toUpper U s) = toUpper U s := by
  have hscalar : ∀ r ∈ (runes s).map (upperRune U), Scalar r := by
    intro r hr
    obtain ⟨q, hq, rfl⟩ := List.mem_map.mp hr
    exact hU.scalar q (scalar_of_mem_runes hq)
  rw [toUpper_eq U (toUpper U s), toUpper_eq U s, runes_flatMap hscalar, List.map_map]
  congr 1
  apply List.map_congr_left
  intro r hr
  exact hU.idempotent r (scalar_of_mem_runes hr)

/-- Upper case has no white space where there was none. -/
theorem trimSpace_toUpper {s : GoString} (hs : trimSpace s = s) : trimSpace (toUpper U s) = toUpper U s := by
  have hends := (trimSpace_spec s).2
  rw [hs] at hends
  have hscalar : ∀ r ∈ (runes s).map (upperRune U), Scalar r := by
    intro r hr
    obtain ⟨q, hq, rfl⟩ := List.mem_map.mp hr
    exact hU.scalar q (scalar_of_mem_runes hq)
  apply trimSpace_of_ends
  · intro p hp hpre
    obtain ⟨q, hq, rfl⟩ := List.mem_map.mp hp
    obtain ⟨t, ht⟩ := hpre
    have hrunes : (runes s).map (upperRune U) = q :: runes t := by
      rw [← runes_encodeRune (scalar_of_mem_spaceRunes hq), ht, toUpper_eq, runes_flatMap hscalar]
    obtain ⟨r, rs, hr, hupper, -⟩ := List.map_eq_cons_iff.mp hrunes
    have hmem : r ∈ runes s := by
      rw [hr]
      exact List.mem_cons_self
    have hspace : r ∈ spaceRunes := hU.space r (scalar_of_mem_runes hmem) (by rw [hupper]; exact hq)
    exact hends.1 _ (List.mem_map_of_mem hspace) (prefix_of_head hspace (by rw [hr]; rfl))
  · intro p hp hsuf
    obtain ⟨q, hq, rfl⟩ := List.mem_map.mp hp
    rw [toUpper_eq] at hsuf
    have hlast := getLast?_of_suffix (scalar_of_mem_spaceRunes hq) hscalar hsuf
    rw [List.getLast?_map] at hlast
    obtain ⟨r, hr, hupper⟩ := Option.map_eq_some_iff.mp hlast
    have hspace : r ∈ spaceRunes :=
      hU.space r (scalar_of_mem_runes (List.mem_of_getLast? hr)) (by rw [hupper]; exact hq)
    exact hends.2 _ (List.mem_map_of_mem hspace) (suffix_of_getLast hspace hr)

end Upper

/-- Tables that change nothing beyond ASCII satisfy the laws. -/
theorem lawfulUpper_ascii : CaseTables.LawfulUpper ⟨id, id⟩ where
  scalar r hr := by
    unfold upperRune
    split_ifs
    · exact Or.inl (by omega)
    · exact hr
    · exact hr
  idempotent r _ := by
    simp only [upperRune, id]
    split_ifs <;> omega
  space r _ h := by
    unfold upperRune at h
    split_ifs at h with hascii hlower
    · have hall : spaceRunes.all (fun r => r < 0x41 || 0x5A < r) = true := by decide
      have hnot := List.all_eq_true.mp hall _ h
      simp only [Bool.or_eq_true, decide_eq_true_eq] at hnot
      omega
    · exact h
    · exact h

end SynapseGo.Go
