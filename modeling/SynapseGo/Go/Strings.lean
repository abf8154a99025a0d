import Mathlib.Data.List.Basic

/-! Go strings as byte sequences, with the operations of packages `strings` and `unicode/utf8`
that the repository calls. -/
namespace SynapseGo.Go

abbrev GoString := List UInt8

/-- The bytes of a string literal. -/
def lit (s : String) : GoString := s.toUTF8.data.toList

/-- `unicode.ToUpper` and `unicode.ToLower` outside ASCII, where they are tables. -/
structure CaseTables where
  toUpper : ℕ → ℕ
  toLower : ℕ → ℕ

/-- An ASCII digit. -/
def isDigit (b : UInt8) : Bool := 0x30 ≤ b && b ≤ 0x39

theorem isDigit_iff {b : UInt8} : isDigit b = true ↔ 0x30 ≤ b.toNat ∧ b.toNat ≤ 0x39 := by
  rw [isDigit, Bool.and_eq_true, decide_eq_true_eq, decide_eq_true_eq, UInt8.le_iff_toNat_le,
    UInt8.le_iff_toNat_le]
  rfl

def runeError : ℕ := 0xFFFD

def continues (b : UInt8) : Bool := 0x80 ≤ b && b ≤ 0xBF

/-- `utf8.DecodeRuneInString`: the first rune and its width; ill-formed bytes give `runeError`, 1. -/
def decodeRune : GoString → ℕ × ℕ
  | [] => (runeError, 0)
  | b :: s =>
    let x := b.toNat
    if x < 0x80 then (x, 1)
    else if x < 0xC2 then (runeError, 1)
    else if x < 0xE0 then
      match s with
      | c :: _ => if continues c then ((x - 0xC0) * 64 + (c.toNat - 0x80), 2) else (runeError, 1)
      | [] => (runeError, 1)
    else if x < 0xF0 then
      match s with
      | c :: d :: _ =>
        if (if x = 0xE0 then 0xA0 else 0x80) ≤ c && c ≤ (if x = 0xED then 0x9F else 0xBF) && continues d then
          ((x - 0xE0) * 4096 + (c.toNat - 0x80) * 64 + (d.toNat - 0x80), 3)
        else (runeError, 1)
      | _ => (runeError, 1)
    else if x < 0xF5 then
      match s with
      | c :: d :: e :: _ =>
        if (if x = 0xF0 then 0x90 else 0x80) ≤ c && c ≤ (if x = 0xF4 then 0x8F else 0xBF) &&
            continues d && continues e then
          ((x - 0xF0) * 262144 + (c.toNat - 0x80) * 4096 + (d.toNat - 0x80) * 64 + (e.toNat - 0x80), 4)
        else (runeError, 1)
      | _ => (runeError, 1)
    else (runeError, 1)

def runesAux : ℕ → GoString → List ℕ
  | 0, _ => []
  | _, [] => []
  | n + 1, b :: s => (decodeRune (b :: s)).1 :: runesAux n ((b :: s).drop (decodeRune (b :: s)).2)

/-- The runes a `range` loop over the string visits; each consumes at least one byte. -/
def runes (s : GoString) : List ℕ := runesAux s.length s

/-- `utf8.AppendRune`; surrogates and values above U+10FFFF are written as `runeError`. -/
def encodeRune (r : ℕ) : GoString :=
  if r < 0x80 then [r.toUInt8]
  else if r < 0x800 then [(0xC0 + r / 64).toUInt8, (0x80 + r % 64).toUInt8]
  else if 0xD800 ≤ r ∧ r < 0xE000 ∨ 0x10FFFF < r then [0xEF, 0xBF, 0xBD]
  else if r < 0x10000 then
    [(0xE0 + r / 4096).toUInt8, (0x80 + r / 64 % 64).toUInt8, (0x80 + r % 64).toUInt8]
  else
    [(0xF0 + r / 262144).toUInt8, (0x80 + r / 4096 % 64).toUInt8, (0x80 + r / 64 % 64).toUInt8,
      (0x80 + r % 64).toUInt8]

/-- `strings.ToUpper`: ASCII strings bytewise, all others rune by rune. -/
def toUpper (U : CaseTables) (s : GoString) : GoString :=
  if s.all (· < 0x80) then s.map fun b => if 0x61 ≤ b ∧ b ≤ 0x7A then b - 0x20 else b
  else (runes s).flatMap fun r =>
    encodeRune (if r < 0x80 then (if 0x61 ≤ r ∧ r ≤ 0x7A then r - 0x20 else r) else U.toUpper r)

/-- `strings.ToLower`. -/
def toLower (U : CaseTables) (s : GoString) : GoString :=
  if s.all (· < 0x80) then s.map fun b => if 0x41 ≤ b ∧ b ≤ 0x5A then b + 0x20 else b
  else (runes s).flatMap fun r =>
    encodeRune (if r < 0x80 then (if 0x41 ≤ r ∧ r ≤ 0x5A then r + 0x20 else r) else U.toLower r)

/-- The runes with Unicode property White_Space, as `unicode.IsSpace` has them. -/
def spaceRunes : List ℕ :=
  [0x09, 0x0A, 0x0B, 0x0C, 0x0D, 0x20, 0x85, 0xA0, 0x1680, 0x2000, 0x2001, 0x2002, 0x2003, 0x2004,
    0x2005, 0x2006, 0x2007, 0x2008, 0x2009, 0x200A, 0x2028, 0x2029, 0x202F, 0x205F, 0x3000]

/-- Strip leading members of `seps` until none matches; `n` bounds the number of rounds. -/
private def stripStart (seps : List GoString) : ℕ → GoString → GoString
  | 0, s => s
  | n + 1, s =>
    match seps.find? (fun p => p.isPrefixOf s) with
    | some p => stripStart seps n (s.drop p.length)
    | none => s

/-- `strings.TrimSpace`. UTF-8 is self-synchronising, so the last rune is a space exactly when
the bytes end in the encoding of one. -/
def trimSpace (s : GoString) : GoString :=
  let spaces := spaceRunes.map encodeRune
  let s := stripStart spaces s.length s
  (stripStart (spaces.map List.reverse) s.length s.reverse).reverse

/-- The white-space runes as they stand in a string. -/
abbrev spaces : List GoString := spaceRunes.map encodeRune

/-- A sequence of white-space runes. -/
def Blank (s : GoString) : Prop :=
  ∃ l : List GoString, (∀ e ∈ l, e ∈ spaceRunes.map encodeRune) ∧ s = l.flatten

/-- Bytes that are characters of their own and no white space. -/
def graphic (b : UInt8) : Bool := 0x21 ≤ b && b < 0x7F

private theorem stripStart_eq_self {seps : List GoString} {s : GoString} (hs : ∀ p ∈ seps, ¬ p <+: s)
    (n : ℕ) : stripStart seps n s = s := by
  cases n with
  | zero => rfl
  | succ n =>
    have hfind : seps.find? (fun p => p.isPrefixOf s) = none := by simpa using hs
    simp only [stripStart, hfind]

/-- Separators of which none begins another are stripped one by one. -/
private theorem stripStart_flatten {seps l : List GoString} {s : GoString} {n : ℕ}
    (hfree : ∀ p ∈ seps, ∀ q ∈ seps, p <+: q → p = q) (hne : ∀ p ∈ seps, p ≠ [])
    (hl : ∀ e ∈ l, e ∈ seps) (hs : ∀ p ∈ seps, ¬ p <+: s) (hn : (l.flatten ++ s).length ≤ n) :
    stripStart seps n (l.flatten ++ s) = s := by
  induction l generalizing n with
  | nil => exact stripStart_eq_self hs n
  | cons e l ih =>
    obtain ⟨he, hl⟩ := List.forall_mem_cons.mp hl
    have hpos : 0 < e.length := List.length_pos_iff.mpr (hne e he)
    rw [List.flatten_cons, List.append_assoc] at hn ⊢
    rw [List.length_append] at hn
    obtain ⟨n, rfl⟩ : ∃ m, n = m + 1 := ⟨n - 1, by omega⟩
    have hfind : seps.find? (fun p => p.isPrefixOf (e ++ (l.flatten ++ s))) = some e := by
      cases hf : seps.find? (fun p => p.isPrefixOf (e ++ (l.flatten ++ s))) with
      | none =>
        have hnone := List.find?_eq_none.mp hf e he
        simp at hnone
      | some p =>
        have hp : p ∈ seps := List.mem_of_find?_eq_some hf
        have hpre : p <+: e ++ (l.flatten ++ s) := by simpa using List.find?_some hf
        rcases List.prefix_or_prefix_of_prefix hpre (List.prefix_append e _) with h | h
        · rw [hfree p hp e he h]
        · rw [hfree e he p hp h]
    simp only [stripStart, hfind, List.drop_left]
    exact ih hl (by omega)

/-- No white space begins where a graphic character stands. -/
private theorem not_prefix_of_graphic {seps : List GoString} {s : GoString} {x : UInt8}
    (hne : ∀ p ∈ seps, p ≠ []) (hhead : ∀ p ∈ seps, ∀ x ∈ p.head?, graphic x = false)
    (hs : s.head? = some x) (hx : graphic x = true) : ∀ p ∈ seps, ¬ p <+: s := by
  intro p hp hpre
  obtain ⟨y, q, rfl⟩ := List.exists_cons_of_ne_nil (hne p hp)
  obtain ⟨t, rfl⟩ := hpre
  have hxy : y = x := by simpa using hs
  have hy := hhead _ hp y rfl
  rw [hxy, hx] at hy
  cases hy

/-- What the stripping loop needs to know of the white-space runes, in either direction. -/
private def Strippable (seps : List GoString) : Prop :=
  (∀ p ∈ seps, ∀ q ∈ seps, p <+: q → p = q) ∧ (∀ p ∈ seps, p ≠ []) ∧
    ∀ p ∈ seps, ∀ x ∈ p.head?, graphic x = false

private theorem head_not_graphic {seps : List GoString}
    (h : (seps.all fun p => p.head?.all fun x => !graphic x) = true) :
    ∀ p ∈ seps, ∀ x ∈ p.head?, graphic x = false := by
  intro p hp x hx
  simpa using (Option.all_eq_true _ _).mp (List.all_eq_true.mp h p hp) x hx

private theorem strippable_spaces : Strippable (spaceRunes.map encodeRune) :=
  ⟨by decide +kernel, by decide +kernel, head_not_graphic (by decide +kernel)⟩

private theorem strippable_spaces_reverse : Strippable ((spaceRunes.map encodeRune).map List.reverse) :=
  ⟨by decide +kernel, by decide +kernel, head_not_graphic (by decide +kernel)⟩

theorem not_space_prefix_cons {b : UInt8} (hb : graphic b = true) (s : GoString) :
    ∀ p ∈ spaces, ¬ p <+: b :: s :=
  not_prefix_of_graphic strippable_spaces.2.1 strippable_spaces.2.2 rfl hb

private theorem Strippable.strip {seps l : List GoString} {s : GoString} {x : UInt8} (h : Strippable seps)
    (hl : ∀ e ∈ l, e ∈ seps) (hs : s.head? = some x) (hx : graphic x = true) {n : ℕ}
    (hn : (l.flatten ++ s).length ≤ n) : stripStart seps n (l.flatten ++ s) = s :=
  stripStart_flatten h.1 h.2.1 hl (not_prefix_of_graphic h.2.1 h.2.2 hs hx) hn

/-- Padding a string that begins and ends in graphic characters does not change what is left of it. -/
theorem trimSpace_pad {w w' p : GoString} (hw : Blank w) (hw' : Blank w') {b c : UInt8}
    (hb : p.head? = some b) (hc : p.getLast? = some c) (hgb : graphic b = true) (hgc : graphic c = true) :
    trimSpace (w ++ p ++ w') = p := by
  obtain ⟨l, hl, rfl⟩ := hw
  obtain ⟨l', hl', rfl⟩ := hw'
  have hleft : (p ++ l'.flatten).head? = some b := by simp [List.head?_append, hb]
  have hright : p.reverse.head? = some c := by simp [hc]
  have hrev : (p ++ l'.flatten).reverse = (l'.reverse.map List.reverse).flatten ++ p.reverse := by
    simp [List.reverse_flatten, List.map_reverse]
  have hlen : ((l'.reverse.map List.reverse).flatten ++ p.reverse).length ≤ (p ++ l'.flatten).length :=
    Nat.le_of_eq (by rw [← hrev, List.length_reverse])
  have hl'' : ∀ e ∈ l'.reverse.map List.reverse, e ∈ (spaceRunes.map encodeRune).map List.reverse := by
    intro e he
    obtain ⟨e', he', rfl⟩ := List.mem_map.mp he
    exact List.mem_map_of_mem (hl' e' (List.mem_reverse.mp he'))
  unfold trimSpace
  dsimp only
  rw [List.append_assoc, strippable_spaces.strip hl hleft hgb (Nat.le_refl _), hrev,
    strippable_spaces_reverse.strip hl'' hright hgc hlen, List.reverse_reverse]

theorem blank_nil : Blank [] := ⟨[], by simp, rfl⟩

theorem graphic_of_toNat {b : UInt8} (hlo : 0x21 ≤ b.toNat) (hhi : b.toNat < 0x7F) : graphic b = true := by
  unfold graphic
  rw [Bool.and_eq_true, decide_eq_true_eq, decide_eq_true_eq, UInt8.le_iff_toNat_le, UInt8.lt_iff_toNat_lt]
  exact ⟨hlo, hhi⟩

/-- White space around graphic characters is all that is trimmed. -/
theorem trimSpace_of_graphic {w t w' : GoString} (hw : Blank w) (hw' : Blank w')
    (ht : ∀ c ∈ t, graphic c = true) (hne : t ≠ []) : trimSpace (w ++ t ++ w') = t :=
  trimSpace_pad hw hw' (List.head?_eq_some_head hne) (List.getLast?_eq_some_getLast hne)
    (ht _ (List.head_mem hne)) (ht _ (List.getLast_mem hne))

/-- What `strings.TrimSpace` does not touch. -/
theorem trimSpace_eq_self {p : GoString} {b c : UInt8} (hb : p.head? = some b) (hc : p.getLast? = some c)
    (hgb : graphic b = true) (hgc : graphic c = true) : trimSpace p = p := by
  have h := trimSpace_pad blank_nil blank_nil hb hc hgb hgc
  simpa using h

/-- What is stripped is a sequence of separators, and none is left. -/
private theorem stripStart_spec {seps : List GoString} (hne : ∀ p ∈ seps, p ≠ []) {n : ℕ} {s : GoString}
    (hn : s.length ≤ n) : (∃ l : List GoString, (∀ e ∈ l, e ∈ seps) ∧ s = l.flatten ++ stripStart seps n s) ∧
      ∀ p ∈ seps, ¬ p <+: stripStart seps n s := by
  induction n generalizing s with
  | zero =>
    have hs : s = [] := List.eq_nil_of_length_eq_zero (by omega)
    subst hs
    refine ⟨⟨[], by simp, rfl⟩, fun p hp hpre => hne p hp ?_⟩
    exact List.prefix_nil.mp hpre
  | succ n ih =>
    cases hf : seps.find? (fun p => p.isPrefixOf s) with
    | none =>
      have hnone : ∀ p ∈ seps, ¬ p <+: s := by simpa using hf
      rw [stripStart_eq_self hnone]
      exact ⟨⟨[], by simp, rfl⟩, hnone⟩
    | some p =>
      have hp : p ∈ seps := List.mem_of_find?_eq_some hf
      have hpre : p <+: s := by simpa using List.find?_some hf
      obtain ⟨t, rfl⟩ := hpre
      have hpos : 0 < p.length := List.length_pos_iff.mpr (hne p hp)
      rw [List.length_append] at hn
      obtain ⟨⟨l, hl, ht⟩, hrest⟩ := ih (s := t) (by omega)
      simp only [stripStart, hf, List.drop_left]
      refine ⟨⟨p :: l, List.forall_mem_cons.mpr ⟨hp, hl⟩, ?_⟩, hrest⟩
      rw [List.flatten_cons, List.append_assoc, ← ht]

/-- `strings.TrimSpace` takes white space from both ends, and all of it. -/
theorem trimSpace_spec (s : GoString) : (∃ w w', Blank w ∧ Blank w' ∧ s = w ++ trimSpace s ++ w') ∧
    (∀ p ∈ spaces, ¬ p <+: trimSpace s) ∧ ∀ p ∈ spaces, ¬ p <:+ trimSpace s := by
  have hstart := stripStart_spec strippable_spaces.2.1 (Nat.le_refl s.length)
  obtain ⟨⟨l, hl, hs⟩, hfirst⟩ := hstart
  generalize ht : stripStart spaces s.length s = t at hs hfirst
  have hrev : t.reverse.length ≤ t.length := Nat.le_of_eq t.length_reverse
  obtain ⟨⟨l', hl', ht'⟩, hlast⟩ := stripStart_spec strippable_spaces_reverse.2.1 hrev
  have htrim : trimSpace s = (stripStart (spaces.map List.reverse) t.length t.reverse).reverse := by
    rw [← ht]
    rfl
  have hsplit : t = trimSpace s ++ l'.flatten.reverse := by
    have h := congrArg List.reverse ht'
    rw [List.reverse_reverse, List.reverse_append] at h
    rw [htrim]
    exact h
  refine ⟨⟨l.flatten, l'.flatten.reverse, ⟨l, hl, rfl⟩, ?_, ?_⟩, ?_, ?_⟩
  · refine ⟨l'.reverse.map List.reverse, ?_, ?_⟩
    · intro e he
      obtain ⟨e', he', rfl⟩ := List.mem_map.mp he
      obtain ⟨q, hq, hqe⟩ := List.mem_map.mp (hl' e' (List.mem_reverse.mp he'))
      rw [← hqe, List.reverse_reverse]
      exact hq
    · rw [List.reverse_flatten, List.map_reverse]
  · rw [List.append_assoc, ← hsplit]
    exact hs
  · intro p hp hpre
    apply hfirst p hp
    rw [hsplit]
    exact hpre.trans (List.prefix_append _ _)
  · intro p hp hsuf
    apply hlast p.reverse (List.mem_map_of_mem hp)
    have h := List.reverse_prefix.mpr hsuf
    rw [htrim, List.reverse_reverse] at h
    exact h

/-- What `strings.TrimSpace` does not touch, told by its ends. -/
theorem trimSpace_of_ends {s : GoString} (hfirst : ∀ p ∈ spaces, ¬ p <+: s)
    (hlast : ∀ p ∈ spaces, ¬ p <:+ s) :
    trimSpace s = s := by
  have hrev : ∀ p ∈ spaces.map List.reverse, ¬ p <+: s.reverse := by
    intro p hp hpre
    obtain ⟨q, hq, rfl⟩ := List.mem_map.mp hp
    exact hlast q hq (List.reverse_prefix.mp hpre)
  unfold trimSpace
  dsimp only
  rw [stripStart_eq_self hfirst, stripStart_eq_self hrev, List.reverse_reverse]

theorem trimSpace_trimSpace (s : GoString) : trimSpace (trimSpace s) = trimSpace s :=
  trimSpace_of_ends (trimSpace_spec s).2.1 (trimSpace_spec s).2.2

def hasPrefix (s p : GoString) : Bool := p.isPrefixOf s

/-- `strings.TrimPrefix`. -/
def trimPrefix (s p : GoString) : GoString := if hasPrefix s p then s.drop p.length else s

/-- `strings.Contains`. -/
def contains (s sub : GoString) : Bool := s.tails.any fun t => sub.isPrefixOf t

/-- The first separator of a string is at one place. -/
theorem append_sep_inj {sep : UInt8} {s t u v : GoString} (hs : sep ∉ s) (ht : sep ∉ t)
    (h : s ++ sep :: u = t ++ sep :: v) : s = t ∧ u = v := by
  induction s generalizing t with
  | nil =>
    cases t with
    | nil => simpa using h
    | cons c t =>
      have hc : sep = c := (List.cons.inj h).1
      exact absurd (List.mem_cons.mpr (Or.inl hc)) ht
  | cons b s ih =>
    cases t with
    | nil =>
      have hb : sep = b := (List.cons.inj h).1.symm
      exact absurd (List.mem_cons.mpr (Or.inl hb)) hs
    | cons c t =>
      simp only [List.cons_append, List.cons.injEq, List.mem_cons, not_or] at h hs ht
      obtain ⟨hst, huv⟩ := ih hs.2 ht.2 h.2
      exact ⟨by rw [h.1, hst], huv⟩

/-- `strings.Split` at a one-byte separator. -/
def split (s : GoString) (sep : UInt8) : List GoString := s.splitOn sep

end SynapseGo.Go
