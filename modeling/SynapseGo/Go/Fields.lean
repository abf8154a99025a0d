import Mathlib.Data.List.Infix
import SynapseGo.Go.Segments

/-! `strings.Fields`: the runs of a string between white space. UTF-8 is self-synchronising, so
white space is found byte by byte. -/
namespace SynapseGo.Go

/-- The white-space rune a string begins with. -/
def leadingSpace (s : GoString) : Option GoString := spaces.find? fun p => p.isPrefixOf s

private def flush (field : GoString) : List GoString := if field = [] then [] else [field]

/-- The fields of the rest of a string, `skip` bytes of which belong to white space already seen. -/
private def fieldsFrom : ℕ → GoString → GoString → List GoString
  | _, field, [] => flush field
  | skip + 1, field, _ :: s => fieldsFrom skip field s
  | 0, field, b :: s =>
    match leadingSpace (b :: s) with
    | some p => flush field ++ fieldsFrom (p.length - 1) [] s
    | none => fieldsFrom 0 (field ++ [b]) s

/-- `strings.Fields`. -/
def fields (s : GoString) : List GoString := fieldsFrom 0 [] s

/-- A string without white space. -/
def Solid (s : GoString) : Prop := ∀ t ∈ s.tails, leadingSpace t = none

instance (s : GoString) : Decidable (Solid s) := inferInstanceAs (Decidable (∀ t ∈ _, _))

/-- What the scan needs to know of white space: a rune is not empty, none begins another one, and its
first byte is in no other place. -/
private theorem spaces_shape : (∀ p ∈ spaces, p ≠ []) ∧ (∀ p ∈ spaces, ∀ q ∈ spaces, p <+: q → p = q) ∧
    ∀ p ∈ spaces, ∀ q ∈ spaces, ∀ c ∈ p.head?, c ∉ q.tail := by
  have hfirst : (spaces.all fun p => spaces.all fun q => p.head?.all fun c => !q.tail.contains c) = true := by
    decide +kernel
  refine ⟨by decide +kernel, by decide +kernel, ?_⟩
  intro p hp q hq c hc
  have hpq := List.all_eq_true.mp (List.all_eq_true.mp hfirst p hp) q hq
  simpa using (Option.all_eq_true _ _).mp hpq c hc

theorem leadingSpace_eq_none {s : GoString} : leadingSpace s = none ↔ ∀ p ∈ spaces, ¬ p <+: s := by
  simp [leadingSpace]

theorem leadingSpace_append {p : GoString} (hp : p ∈ spaces) (s : GoString) :
    leadingSpace (p ++ s) = some p := by
  cases h : leadingSpace (p ++ s) with
  | none => exact absurd (List.prefix_append p s) (leadingSpace_eq_none.mp h p hp)
  | some q =>
    have hq : q ∈ spaces := List.mem_of_find?_eq_some h
    have hpre : q <+: p ++ s := by simpa using List.find?_some h
    rcases List.prefix_or_prefix_of_prefix hpre (List.prefix_append p s) with hqp | hpq
    · rw [spaces_shape.2.1 q hq p hp hqp]
    · rw [spaces_shape.2.1 p hp q hq hpq]

theorem exists_of_leadingSpace {s p : GoString} (h : leadingSpace s = some p) :
    p ∈ spaces ∧ ∃ t, s = p ++ t := by
  have hpre : p <+: s := by simpa using List.find?_some h
  obtain ⟨t, ht⟩ := hpre
  exact ⟨List.mem_of_find?_eq_some h, t, ht.symm⟩

/-- White space that begins within `a` ends within it, if a rune begins behind `a`. -/
theorem leadingSpace_boundary {a b p : GoString} (ha : a ≠ []) (hp : p ∈ spaces) :
    leadingSpace (a ++ (p ++ b)) = leadingSpace a := by
  cases h : leadingSpace (a ++ (p ++ b)) with
  | none =>
    symm
    rw [leadingSpace_eq_none] at h ⊢
    intro q hq hpre
    exact h q hq (hpre.trans (List.prefix_append _ _))
  | some q =>
    obtain ⟨hq, t, ht⟩ := exists_of_leadingSpace h
    rcases List.append_eq_append_iff.mp ht with ⟨m, hm, hrest⟩ | ⟨m, hm, -⟩
    · -- `q` would reach over the boundary
      cases m with
      | nil =>
        have hself := leadingSpace_append hq []
        rw [List.append_nil] at hm hself
        rw [← hm, hself]
      | cons c m =>
        obtain ⟨x, a', rfl⟩ := List.exists_cons_of_ne_nil ha
        obtain ⟨y, p', rfl⟩ := List.exists_cons_of_ne_nil (spaces_shape.1 p hp)
        have hc : y = c := (List.cons.inj hrest).1
        have htail : y ∈ q.tail := by
          rw [hm, hc]
          simp
        exact absurd htail (spaces_shape.2.2 _ hp q hq y rfl)
    · rw [hm, leadingSpace_append hq]

private theorem fieldsFrom_eq (skip : ℕ) (field s : GoString) :
    fieldsFrom skip field s = fieldsFrom 0 field (s.drop skip) := by
  induction skip generalizing s with
  | zero => rfl
  | succ skip ih =>
    cases s with
    | nil => rfl
    | cons b s => exact ih s

section Scan
variable {field s p : GoString}

private theorem fieldsFrom_space (hp : p ∈ spaces) :
    fieldsFrom 0 field (p ++ s) = flush field ++ fieldsFrom 0 [] s := by
  obtain ⟨x, p', rfl⟩ := List.exists_cons_of_ne_nil (spaces_shape.1 p hp)
  have hlead := leadingSpace_append hp s
  rw [List.cons_append] at hlead ⊢
  rw [fieldsFrom, hlead]
  dsimp only
  rw [fieldsFrom_eq, List.length_cons, Nat.add_sub_cancel, List.drop_left]

private theorem fieldsFrom_byte {b : UInt8} (h : leadingSpace (b :: s) = none) :
    fieldsFrom 0 field (b :: s) = fieldsFrom 0 (field ++ [b]) s := by
  rw [fieldsFrom, h]

end Scan

/-- The scan reads a white-space rune or a byte of a field at a time. -/
theorem scan_induction {motive : GoString → Prop} (nil : motive [])
    (space : ∀ p s, p ∈ spaces → motive s → motive (p ++ s))
    (byte : ∀ b s, leadingSpace (b :: s) = none → motive s → motive (b :: s)) (s : GoString) : motive s := by
  induction hn : s.length using Nat.strongRecOn generalizing s with
  | ind n ih =>
    cases s with
    | nil => exact nil
    | cons b s =>
      cases hlead : leadingSpace (b :: s) with
      | none =>
        rw [List.length_cons] at hn
        exact byte b s hlead (ih s.length (by omega) s rfl)
      | some p =>
        obtain ⟨hp, t, ht⟩ := exists_of_leadingSpace hlead
        have hpos : 0 < p.length := List.length_pos_iff.mpr (spaces_shape.1 p hp)
        rw [ht] at hn ⊢
        rw [List.length_append] at hn
        exact space p t hp (ih t.length (by omega) t rfl)

/-- White space separates what stands before it from what stands behind it. -/
private theorem fieldsFrom_append {p : GoString} (hp : p ∈ spaces) (a b field : GoString) :
    fieldsFrom 0 field (a ++ (p ++ b)) = fieldsFrom 0 field a ++ fieldsFrom 0 [] b := by
  induction a using scan_induction generalizing field with
  | nil => exact fieldsFrom_space hp
  | space q s hq ih =>
    rw [List.append_assoc, fieldsFrom_space hq, fieldsFrom_space hq, ih, List.append_assoc]
  | byte c s hlead ih =>
    have hlong : leadingSpace (c :: (s ++ (p ++ b))) = none := by
      rw [← List.cons_append, leadingSpace_boundary (List.cons_ne_nil c s) hp]
      exact hlead
    rw [List.cons_append, fieldsFrom_byte hlong, fieldsFrom_byte hlead, ih]

theorem fields_append {p : GoString} (hp : p ∈ spaces) (a b : GoString) :
    fields (a ++ (p ++ b)) = fields a ++ fields b := fieldsFrom_append hp a b []

theorem fields_nil : fields [] = [] := rfl

theorem fields_blank_append {w : GoString} (hw : Blank w) (s : GoString) : fields (w ++ s) = fields s := by
  obtain ⟨l, hl, rfl⟩ := hw
  induction l with
  | nil => rfl
  | cons p l ih =>
    obtain ⟨hp, hl⟩ := List.forall_mem_cons.mp hl
    have hfirst := fields_append hp [] (l.flatten ++ s)
    rw [List.flatten_cons, List.append_assoc]
    rw [List.nil_append, fields_nil, List.nil_append] at hfirst
    rw [hfirst, ih hl]

theorem fields_append_blank {w : GoString} (hw : Blank w) (s : GoString) : fields (s ++ w) = fields s := by
  obtain ⟨l, hl, rfl⟩ := hw
  cases l with
  | nil => rw [List.flatten_nil, List.append_nil]
  | cons p l =>
    obtain ⟨hp, hl⟩ := List.forall_mem_cons.mp hl
    have hrest : fields l.flatten = [] := by
      have hblank := fields_blank_append ⟨l, hl, rfl⟩ []
      rw [List.append_nil] at hblank
      exact hblank
    rw [List.flatten_cons, fields_append hp, hrest, List.append_nil]

theorem fields_trimSpace (s : GoString) : fields (trimSpace s) = fields s := by
  obtain ⟨⟨w, w', hw, hw', hs⟩, -⟩ := trimSpace_spec s
  conv_rhs => rw [hs]
  rw [fields_append_blank hw', fields_blank_append hw]

theorem Solid.tail {b : UInt8} {s : GoString} (h : Solid (b :: s)) : Solid s :=
  fun t ht => h t (by simp_all [List.tails])

theorem Solid.of_suffix {s t : GoString} (h : Solid s) (ht : t <:+ s) : Solid t := by
  intro u hu
  exact h u ((List.mem_tails _ _).mpr (((List.mem_tails _ _).mp hu).trans ht))

/-- There is nothing to trim where there is no white space. -/
theorem Solid.trimSpace_eq {s : GoString} (h : Solid s) : trimSpace s = s := by
  apply trimSpace_of_ends
  · exact leadingSpace_eq_none.mp (h s ((List.mem_tails _ _).mpr List.suffix_rfl))
  · intro p hp hsuf
    have hlead := h p ((List.mem_tails _ _).mpr hsuf)
    exact leadingSpace_eq_none.mp hlead p hp List.prefix_rfl

private theorem fieldsFrom_solid {s : GoString} (h : Solid s) (field : GoString) :
    fieldsFrom 0 field s = flush (field ++ s) := by
  induction s generalizing field with
  | nil =>
    rw [List.append_nil]
    rfl
  | cons b s ih =>
    have hlead : leadingSpace (b :: s) = none := h (b :: s) (by simp [List.tails])
    rw [fieldsFrom_byte hlead, ih h.tail, List.append_assoc, List.singleton_append]

/-- A string without white space is one field. -/
theorem fields_of_solid {s : GoString} (h : Solid s) (hne : s ≠ []) : fields s = [s] := by
  rw [fields, fieldsFrom_solid h, List.nil_append, flush, if_neg hne]

private theorem leadingSpace_nil : leadingSpace [] = none := by
  rw [leadingSpace_eq_none]
  intro p hp hpre
  exact spaces_shape.1 p hp (List.prefix_nil.mp hpre)

/-- No white space begins within `field` when `s` follows it. -/
private def Quiet (field s : GoString) : Prop := ∀ t, t <:+ field → t ≠ [] → leadingSpace (t ++ s) = none

private theorem Quiet.nil (s : GoString) : Quiet [] s :=
  fun _ ht hne => absurd (List.suffix_nil.mp ht) hne

private theorem Quiet.snoc {field s : GoString} {b : UInt8} (h : Quiet field (b :: s))
    (hb : leadingSpace (b :: s) = none) : Quiet (field ++ [b]) s := by
  intro t ht hne
  rcases List.suffix_concat_iff.mp ht with rfl | ⟨t', rfl, ht'⟩
  · exact absurd rfl hne
  · rw [List.append_assoc, List.singleton_append]
    cases t' with
    | nil => exact hb
    | cons c t' => exact h _ ht' (List.cons_ne_nil c t')

private theorem Quiet.solid {field s : GoString} (h : Quiet field s)
    (hs : ∀ t, t ≠ [] → leadingSpace (t ++ s) = leadingSpace t) : Solid field := by
  intro t ht
  cases t with
  | nil => exact leadingSpace_nil
  | cons c t =>
    rw [← hs _ (List.cons_ne_nil c t)]
    exact h _ ((List.mem_tails _ _).mp ht) (List.cons_ne_nil c t)

private theorem mem_flush {field f : GoString} (h : f ∈ flush field) : f = field ∧ f ≠ [] := by
  unfold flush at h
  split_ifs at h with hne
  · cases h
  · cases List.mem_singleton.mp h
    exact ⟨rfl, hne⟩

private theorem solid_of_mem_fieldsFrom {s field f : GoString} (hq : Quiet field s)
    (hf : f ∈ fieldsFrom 0 field s) : f ≠ [] ∧ Solid f := by
  induction s using scan_induction generalizing field with
  | nil =>
    obtain ⟨rfl, hne⟩ := mem_flush hf
    exact ⟨hne, hq.solid fun t _ => by rw [List.append_nil]⟩
  | space p s hp ih =>
    rw [fieldsFrom_space hp] at hf
    rcases List.mem_append.mp hf with hf | hf
    · obtain ⟨rfl, hne⟩ := mem_flush hf
      exact ⟨hne, hq.solid fun t ht => leadingSpace_boundary ht hp⟩
    · exact ih (Quiet.nil s) hf
  | byte b s hlead ih =>
    rw [fieldsFrom_byte hlead] at hf
    exact ih (hq.snoc hlead) hf

/-- Fields are not empty and hold no white space. -/
theorem solid_of_mem_fields {s f : GoString} (hf : f ∈ fields s) : f ≠ [] ∧ Solid f :=
  solid_of_mem_fieldsFrom (Quiet.nil s) hf

private theorem mem_fieldsFrom_iff {c : UInt8} (hc : ∀ p ∈ spaces, c ∉ p) (s field : GoString) :
    (∃ f ∈ fieldsFrom 0 field s, c ∈ f) ↔ c ∈ field ∨ c ∈ s := by
  have hflush : ∀ field : GoString, (∃ f ∈ flush field, c ∈ f) ↔ c ∈ field := by
    intro field
    unfold flush
    split_ifs with hne
    · simp [hne]
    · simp
  induction s using scan_induction generalizing field with
  | nil =>
    have hend : (∃ f ∈ fieldsFrom 0 field [], c ∈ f) ↔ c ∈ field := hflush field
    rw [hend]
    simp
  | space p s hp ih =>
    have hnot := hc p hp
    have hrest := ih []
    rw [fieldsFrom_space hp]
    simp only [List.mem_append, or_and_right, exists_or, hflush, hrest, List.not_mem_nil, false_or, hnot]
  | byte b s hlead ih =>
    have hrest := ih (field ++ [b])
    rw [fieldsFrom_byte hlead]
    simp only [hrest, List.mem_append, List.mem_cons, List.not_mem_nil, false_or, or_assoc]

/-- A character that is no white space is in a string if it is in one of its fields. -/
theorem mem_iff_mem_fields {c : UInt8} (hc : ∀ p ∈ spaces, c ∉ p) (s : GoString) :
    c ∈ s ↔ ∃ f ∈ fields s, c ∈ f := by
  rw [fields, mem_fieldsFrom_iff hc]
  simp

/-- The blank, which separates fields when they are joined. -/
theorem blank_mem_spaces : [0x20] ∈ spaces := by decide +kernel

private theorem eq_blank_of_mem : ∀ p ∈ spaces, (0x20 : UInt8) ∈ p → p = [0x20] := by decide +kernel

theorem Solid.blank_notMem {s : GoString} (h : Solid s) : (0x20 : UInt8) ∉ s := by
  intro hmem
  obtain ⟨a, b, rfl⟩ := List.append_of_mem hmem
  have hlead := h (0x20 :: b) ((List.mem_tails _ _).mpr (List.suffix_append a _))
  rw [← List.singleton_append, leadingSpace_append blank_mem_spaces] at hlead
  cases hlead

/-- Fields joined by single blanks are read back. -/
theorem fields_join {fs : List GoString} (hfs : ∀ f ∈ fs, f ≠ [] ∧ Solid f) :
    fields (join fs [0x20]) = fs := by
  induction fs with
  | nil => rfl
  | cons f fs ih =>
    obtain ⟨hf, hfs⟩ := List.forall_mem_cons.mp hfs
    by_cases hnil : fs = []
    · subst hnil
      have hone : join [f] [0x20] = f := by simp [join]
      rw [hone, fields_of_solid hf.2 hf.1]
    · rw [join_cons _ hnil, List.append_assoc, fields_append blank_mem_spaces, fields_of_solid hf.2 hf.1,
        ih hfs, List.singleton_append]

/-- No white space ends where a field does. -/
theorem not_suffix_of_solid {a f p : GoString} (hf : Solid f) (hne : f ≠ []) (hp : p ∈ spaces) :
    ¬ p <:+ a ++ 0x20 :: f := by
  intro hsuf
  have hlong : 0x20 :: f <:+ a ++ 0x20 :: f := List.suffix_append _ _
  rcases List.suffix_or_suffix_of_suffix hsuf hlong with h | h
  · rcases List.suffix_cons_iff.mp h with rfl | h
    · have hone := eq_blank_of_mem _ hp List.mem_cons_self
      exact hne (List.cons.inj hone).2
    · have hlead := hf p ((List.mem_tails _ _).mpr h)
      rw [← List.append_nil p, leadingSpace_append hp] at hlead
      cases hlead
  · have hone := eq_blank_of_mem p hp (h.subset List.mem_cons_self)
    rw [hone] at h
    have hlen := h.length_le
    have hpos := List.length_pos_iff.mpr hne
    simp only [List.length_cons, List.length_nil] at hlen
    omega

end SynapseGo.Go
