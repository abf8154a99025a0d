import Mathlib.Data.List.Infix
import SynapseGo.Go.Strings

/-! Strings as sequences of segments between one-byte separators: `strings.Split` and
`strings.Join`, and the cuts the repository makes at the ends of a string. -/
namespace SynapseGo.Go

/-- `strings.Join`. -/
def join (parts : List GoString) (sep : GoString) : GoString := sep.intercalate parts

/-- `strings.HasSuffix`. -/
def hasSuffix (s p : GoString) : Bool := p.isSuffixOf s

/-- `strings.TrimSuffix`. -/
def trimSuffix (s p : GoString) : GoString := if hasSuffix s p then s.take (s.length - p.length) else s

/-- `strings.Trim` with a cutset of one byte. -/
def trim (s : GoString) (cut : UInt8) : GoString :=
  ((s.dropWhile (· == cut)).reverse.dropWhile (· == cut)).reverse

/-- `strings.Cut` at a one-byte separator, and slicing at what `strings.IndexByte` finds. -/
def cut (s : GoString) (sep : UInt8) : Option (GoString × GoString) :=
  match s with
  | [] => none
  | b :: s => if b = sep then some ([], s) else (cut s sep).map fun r => (b :: r.1, r.2)

theorem cut_eq_some {s a b : GoString} {sep : UInt8} :
    cut s sep = some (a, b) ↔ s = a ++ sep :: b ∧ sep ∉ a := by
  induction s generalizing a with
  | nil => simp [cut]
  | cons c s ih =>
    unfold cut
    split_ifs with hc
    · subst hc
      constructor
      · intro h
        cases h
        exact ⟨rfl, List.not_mem_nil⟩
      · rintro ⟨h, hnot⟩
        cases a with
        | nil =>
          cases h
          rfl
        | cons d a =>
          cases h
          exact absurd List.mem_cons_self hnot
    · constructor
      · intro h
        obtain ⟨⟨a', b'⟩, hcut, hab⟩ := Option.map_eq_some_iff.mp h
        cases hab
        obtain ⟨rfl, hnot⟩ := ih.mp hcut
        exact ⟨rfl, by simp [hnot, Ne.symm hc]⟩
      · rintro ⟨h, hnot⟩
        cases a with
        | nil => exact absurd (List.cons.inj h).1 hc
        | cons d a =>
          cases h
          have hcut := ih.mpr ⟨rfl, fun hmem => hnot (List.mem_cons_of_mem _ hmem)⟩
          rw [hcut]
          rfl

theorem cut_eq_none {s : GoString} {sep : UInt8} : cut s sep = none ↔ sep ∉ s := by
  constructor
  · intro h hmem
    obtain ⟨a, b, hs, hnot⟩ := List.eq_append_cons_of_mem hmem
    rw [cut_eq_some.mpr ⟨hs, hnot⟩] at h
    cases h
  · intro hnot
    cases h : cut s sep with
    | none => rfl
    | some r =>
      have hs := (cut_eq_some.mp h).1
      rw [hs] at hnot
      exact absurd (by simp) hnot

/-- A cut at the last separator. -/
def cutLast (s : GoString) (sep : UInt8) : Option (GoString × GoString) :=
  (cut s.reverse sep).map fun r => (r.2.reverse, r.1.reverse)

theorem cutLast_eq_some {s a b : GoString} {sep : UInt8} :
    cutLast s sep = some (a, b) ↔ s = a ++ sep :: b ∧ sep ∉ b := by
  have hrev : (s.reverse = b.reverse ++ sep :: a.reverse) ↔ s = a ++ sep :: b := by
    constructor
    · intro h
      have := congrArg List.reverse h
      simpa using this
    · intro h
      rw [h]
      simp
  unfold cutLast
  rw [← hrev, Option.map_eq_some_iff]
  constructor
  · rintro ⟨⟨x, y⟩, hcut, hxy⟩
    cases hxy
    obtain ⟨hs, hnot⟩ := cut_eq_some.mp hcut
    rw [List.reverse_reverse, List.reverse_reverse, List.mem_reverse]
    exact ⟨hs, hnot⟩
  · rintro ⟨hs, hnot⟩
    exact ⟨(b.reverse, a.reverse), cut_eq_some.mpr ⟨hs, by simpa using hnot⟩, by simp⟩

theorem hasPrefix_iff {s p : GoString} : hasPrefix s p = true ↔ p <+: s := List.isPrefixOf_iff_prefix

theorem hasSuffix_iff {s p : GoString} : hasSuffix s p = true ↔ p <:+ s := List.isSuffixOf_iff_suffix

theorem contains_iff {s p : GoString} : contains s p = true ↔ p <:+: s := by
  unfold contains
  rw [List.any_eq_true]
  constructor
  · rintro ⟨t, ht, hp⟩
    exact (List.isPrefixOf_iff_prefix.mp hp).isInfix.trans ((List.mem_tails t s).mp ht).isInfix
  · intro h
    obtain ⟨t, hp, ht⟩ := List.infix_iff_prefix_suffix.mp h
    exact ⟨t, (List.mem_tails t s).mpr ht, List.isPrefixOf_iff_prefix.mpr hp⟩

theorem contains_singleton (s : GoString) (b : UInt8) : contains s [b] = true ↔ b ∈ s := by
  induction s with
  | nil => simp [contains]
  | cons c s ih =>
    have hstep : contains (c :: s) [b] = ([b].isPrefixOf (c :: s) || contains s [b]) := by
      simp [contains, List.tails]
    rw [hstep, Bool.or_eq_true, ih]
    simp

theorem trimPrefix_append (s p : GoString) : trimPrefix (p ++ s) p = s := by
  have hp : hasPrefix (p ++ s) p = true := hasPrefix_iff.mpr (List.prefix_append p s)
  rw [trimPrefix, if_pos hp, List.drop_left]

theorem append_trimPrefix {s p : GoString} (h : hasPrefix s p = true) : p ++ trimPrefix s p = s := by
  obtain ⟨t, rfl⟩ := hasPrefix_iff.mp h
  rw [trimPrefix_append]

theorem trimSuffix_append (s p : GoString) : trimSuffix (s ++ p) p = s := by
  have hsuffix : hasSuffix (s ++ p) p = true := hasSuffix_iff.mpr (List.suffix_append s p)
  rw [trimSuffix, if_pos hsuffix, List.length_append, Nat.add_sub_cancel, List.take_left]

/-- No segment holds a separator. -/
theorem eq_false_of_mem_splitOnP {α : Type} {p : α → Bool} {xs seg : List α} (h : seg ∈ xs.splitOnP p) :
    ∀ x ∈ seg, p x = false := by
  induction xs generalizing seg with
  | nil => simp_all
  | cons y xs ih =>
    rw [List.splitOnP_cons_eq_if_modifyHead] at h
    split_ifs at h with hy
    · rcases List.mem_cons.mp h with rfl | h
      · simp
      · exact ih h
    · obtain ⟨seg₀, segs, hsegs⟩ := List.exists_cons_of_ne_nil (List.splitOnP_ne_nil p xs)
      rw [hsegs] at h ih
      rcases List.mem_cons.mp h with rfl | h
      · intro x hx
        rcases List.mem_cons.mp hx with rfl | hx
        · exact Bool.eq_false_iff.mpr hy
        · exact ih List.mem_cons_self x hx
      · exact ih (List.mem_cons_of_mem _ h)

section
variable (sep : UInt8)

theorem split_ne_nil (s : GoString) : split s sep ≠ [] := List.splitOn_ne_nil sep s

theorem join_split (s : GoString) : join (split s sep) [sep] = s := List.intercalate_splitOn sep

theorem split_join {parts : List GoString} (hsep : ∀ p ∈ parts, sep ∉ p) (hne : parts ≠ []) :
    split (join parts [sep]) sep = parts := List.splitOn_intercalate sep hsep hne

theorem split_append (s t : GoString) : split (s ++ sep :: t) sep = split s sep ++ split t sep :=
  List.splitOnP_append_cons s t (beq_self_eq_true sep)

theorem notMem_of_mem_split {s p : GoString} (h : p ∈ split s sep) : sep ∉ p := by
  intro hp
  have hsep := eq_false_of_mem_splitOnP h sep hp
  simp at hsep

end

theorem join_cons {s : GoString} {parts : List GoString} (sep : GoString) (h : parts ≠ []) :
    join (s :: parts) sep = s ++ sep ++ join parts sep := List.intercalate_cons_of_ne_nil h

theorem join_append {parts parts' : List GoString} (sep : GoString) (h : parts ≠ []) (h' : parts' ≠ []) :
    join (parts ++ parts') sep = join parts sep ++ sep ++ join parts' sep := by
  induction parts with
  | nil => exact absurd rfl h
  | cons s parts ih =>
    by_cases hparts : parts = []
    · subst hparts
      rw [List.singleton_append, join_cons sep h']
      simp [join]
    · rw [List.cons_append, join_cons sep (by simp [hparts]), ih hparts, join_cons sep hparts]
      simp only [List.append_assoc]

/-- A string continues another one at a separator, or is the same, exactly when its segments continue
those of the other. -/
theorem split_prefix_iff (sep : UInt8) {s t : GoString} :
    split s sep <+: split t sep ↔ t = s ∨ s ++ [sep] <+: t := by
  constructor
  · rintro ⟨rest, hrest⟩
    have ht : join (split s sep ++ rest) [sep] = t := by rw [hrest, join_split]
    by_cases hnil : rest = []
    · rw [hnil, List.append_nil, join_split] at ht
      exact Or.inl ht.symm
    · rw [join_append [sep] (split_ne_nil sep s) hnil, join_split] at ht
      exact Or.inr ⟨_, ht⟩
  · rintro (rfl | ⟨u, rfl⟩)
    · exact List.prefix_refl _
    · rw [List.append_assoc, List.singleton_append, split_append]
      exact List.prefix_append _ _

end SynapseGo.Go
