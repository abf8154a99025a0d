import SynapseGo.Go.Filepath
import SynapseGo.Go.Strconv
import SynapseGo.Go.Time

/-! Object keys of package `files`. Five normalised fields are joined by slashes; the key is read
back from its end, where the number of segments is fixed. -/
namespace SynapseGo.Files
open SynapseGo.Go

inductive Err where
  | invalidUpload
  | unsupportedType
  | invalidObjectKey
  deriving DecidableEq, Repr

structure ObjectKeyInput where
  nameSpace : GoString
  tenantID : GoString
  category : GoString
  contentType : GoString
  objectID : GoString
  now : Time

/-- A pattern of one character of a class and at most `max` characters of another. -/
def matchesName (first rest : UInt8 → Bool) (max : ℕ) : GoString → Bool
  | [] => false
  | b :: s => first b && s.all rest && s.length ≤ max

def isLower (b : UInt8) : Bool := 0x61 ≤ b && b ≤ 0x7A

def isUpper (b : UInt8) : Bool := 0x41 ≤ b && b ≤ 0x5A

/-- `^[a-z0-9][a-z0-9_-]{0,63}$`. -/
def categoryPattern : GoString → Bool :=
  matchesName (fun b => isLower b || isDigit b) (fun b => isLower b || isDigit b || b == 0x5F || b == 0x2D) 63

/-- `^[A-Za-z0-9][A-Za-z0-9_.-]{0,127}$`. -/
def tenantIDPattern : GoString → Bool :=
  matchesName (fun b => isUpper b || isLower b || isDigit b)
    (fun b => isUpper b || isLower b || isDigit b || b == 0x5F || b == 0x2E || b == 0x2D) 127

def normalizeCategory (U : CaseTables) (category : GoString) : Except Err GoString :=
  let category := toLower U (trimSpace category)
  if categoryPattern category then .ok category else .error .invalidUpload

/-- `mime.ParseMediaType`, of which only the media type is used; `none` where it fails. -/
abbrev ParseMediaType := GoString → Option GoString

def normalizeContentType (U : CaseTables) (mime : ParseMediaType) (contentType : GoString) : GoString :=
  match mime (trimSpace contentType) with
  | some parsed => toLower U parsed
  | none => toLower U (trimSpace contentType)

def extensions : List (GoString × GoString) :=
  [(lit "image/jpeg", lit ".jpg"), (lit "image/png", lit ".png"), (lit "image/webp", lit ".webp"),
    (lit "application/pdf", lit ".pdf"), (lit "text/csv", lit ".csv"), (lit "application/json", lit ".json")]

def extensionForContentType (U : CaseTables) (mime : ParseMediaType) (contentType : GoString) :
    Option GoString :=
  extensions.lookup (normalizeContentType U mime contentType)

def normalizeNamespace (U : CaseTables) (nameSpace : GoString) : Except Err GoString :=
  let nameSpace := trim (toLower U (trimSpace nameSpace)) 0x2F
  if nameSpace = [] then .ok (lit "files")
  else
    let cleaned := clean nameSpace
    if hasPrefix cleaned (lit "../") || cleaned = lit ".." || contains cleaned (lit "\\") then
      .error .invalidObjectKey
    else if (split cleaned 0x2F).all categoryPattern then .ok cleaned
    else .error .invalidObjectKey

/-- `Format("2006/01/02")`. -/
def formatDate (d : Time.Date) : GoString :=
  padInt 4 d.year ++ lit "/" ++ padInt 2 d.month ++ lit "/" ++ padInt 2 d.day

/-- `clock` is what `time.Now` returns. -/
def buildObjectKey (U : CaseTables) (mime : ParseMediaType) (clock : Time) (input : ObjectKeyInput) :
    Except Err GoString :=
  let tenantID := trimSpace input.tenantID
  let objectID := trimSpace input.objectID
  match normalizeCategory U input.category with
  | .error e => .error e
  | .ok category =>
    if !tenantIDPattern tenantID || objectID = [] || contains objectID (lit "/") ||
      contains objectID (lit "\\") then
      .error .invalidObjectKey
    else match normalizeNamespace U input.nameSpace with
      | .error e => .error e
      | .ok nameSpace =>
        match extensionForContentType U mime input.contentType with
        | none => .error .unsupportedType
        | some ext =>
          let now := if input.now.isZero then clock else input.now
          .ok (join [nameSpace, lit "tenants", tenantID, category, formatDate now.date, objectID ++ ext]
            (lit "/"))

/-- What a key is made of. -/
structure Parts where
  nameSpace : GoString
  tenantID : GoString
  category : GoString
  date : Time.Date
  objectID : GoString
  ext : GoString

def Parts.segments (p : Parts) : List GoString :=
  split p.nameSpace 0x2F ++ [lit "tenants", p.tenantID, p.category, padInt 4 p.date.year,
    padInt 2 p.date.month, padInt 2 p.date.day, p.objectID ++ p.ext]

/-- The key up to and including the slash after the tenant. -/
def Parts.tenantArea (p : Parts) : GoString := p.nameSpace ++ lit "/tenants/" ++ p.tenantID ++ lit "/"

/-- The normalised fields of an input. -/
structure PartsOf (U : CaseTables) (mime : ParseMediaType) (clock : Time) (input : ObjectKeyInput)
    (p : Parts) :
    Prop where
  nameSpace : normalizeNamespace U input.nameSpace = .ok p.nameSpace
  tenantID : trimSpace input.tenantID = p.tenantID
  category : normalizeCategory U input.category = .ok p.category
  date : (if input.now.isZero then clock else input.now).date = p.date
  objectID : trimSpace input.objectID = p.objectID
  ext : extensionForContentType U mime input.contentType = some p.ext

/-- The checks an accepted input has passed. -/
structure Parts.Checked (p : Parts) : Prop where
  nameSpace : ∀ seg ∈ split p.nameSpace 0x2F, categoryPattern seg = true
  tenantID : tenantIDPattern p.tenantID = true
  category : categoryPattern p.category = true
  objectID_ne : p.objectID ≠ []
  objectID_slash : 0x2F ∉ p.objectID
  ext : p.ext ∈ extensions.map Prod.snd

private theorem lit_slash : lit "/" = [0x2F] := by decide +kernel

theorem join_segments (p : Parts) : join p.segments [0x2F] =
    join [p.nameSpace, lit "tenants", p.tenantID, p.category, formatDate p.date, p.objectID ++ p.ext]
    (lit "/") := by
  rw [Parts.segments, join_append _ (split_ne_nil 0x2F _) (List.cons_ne_nil _ _), join_split, lit_slash,
    formatDate, lit_slash]
  simp [join, List.intercalate_cons_cons]

section Accepted
variable {U : CaseTables} {mime : ParseMediaType} {clock : Time} {input : ObjectKeyInput} {key : GoString}

theorem normalizeCategory_ok {category c : GoString} (h : normalizeCategory U category = .ok c) :
    categoryPattern c = true := by
  unfold normalizeCategory at h
  dsimp only at h
  split_ifs at h with hpattern
  cases h
  exact hpattern

theorem normalizeNamespace_ok {nameSpace n : GoString} (h : normalizeNamespace U nameSpace = .ok n) :
    ∀ seg ∈ split n 0x2F, categoryPattern seg = true := by
  unfold normalizeNamespace at h
  dsimp only at h
  split_ifs at h with hempty hescape hpattern
  · cases h
    decide +kernel
  · cases h
    exact List.all_eq_true.mp hpattern

theorem extension_mem {contentType ext : GoString}
    (h : extensionForContentType U mime contentType = some ext) :
    ext ∈ extensions.map Prod.snd := by
  obtain ⟨l₁, l₂, hl, -⟩ := List.lookup_eq_some_iff.mp h
  rw [hl]
  simp

/-- An accepted input, its fields and its key. -/
theorem partsOf_of_ok (h : buildObjectKey U mime clock input = .ok key) :
    ∃ p, PartsOf U mime clock input p ∧ p.Checked ∧ key = join p.segments [0x2F] := by
  unfold buildObjectKey at h
  dsimp only at h
  cases hcategory : normalizeCategory U input.category with
  | error e => simp [hcategory] at h
  | ok category =>
    simp only [hcategory] at h
    split at h
    · cases h
    · next hcheck =>
      cases hns : normalizeNamespace U input.nameSpace with
      | error e => simp [hns] at h
      | ok nameSpace =>
        cases hext : extensionForContentType U mime input.contentType with
        | none => simp [hns, hext] at h
        | some ext =>
          simp only [hns, hext, Except.ok.injEq] at h
          simp only [Bool.or_eq_true, not_or, Bool.not_eq_true', Bool.not_eq_false, decide_eq_true_eq,
            lit_slash, contains_singleton] at hcheck
          refine ⟨⟨nameSpace, trimSpace input.tenantID, category, _, trimSpace input.objectID, ext⟩,
            ⟨hns, rfl, hcategory, rfl, rfl, hext⟩, ?_, ?_⟩
          · exact ⟨normalizeNamespace_ok hns, hcheck.1.1.1, normalizeCategory_ok hcategory, hcheck.1.1.2,
              hcheck.1.2, extension_mem hext⟩
          · rw [join_segments]
            exact h.symm

end Accepted

section Segments

/-- A segment that begins with no dot is neither `.` nor `..`. -/
theorem component_of_head {b : UInt8} {s : GoString} (hb : b ≠ 0x2E) (hslash : 0x2F ∉ b :: s) :
    Component (b :: s) where
  ne_nil := List.cons_ne_nil b s
  ne_dot := by
    intro h
    have hdot : lit "." = [0x2E] := by decide +kernel
    rw [hdot] at h
    exact hb (List.cons.inj h).1
  ne_dotdot := by
    intro h
    have hdots : lit ".." = [0x2E, 0x2E] := by decide +kernel
    rw [hdots] at h
    exact hb (List.cons.inj h).1
  slash_notMem := hslash

/-- Names of classes without slash, whose first character is no dot. -/
theorem component_of_matchesName {first rest : UInt8 → Bool} {max : ℕ} {s : GoString}
    (h : matchesName first rest max s = true) (hdot : first 0x2E = false) (hfirst : first 0x2F = false)
    (hrest : rest 0x2F = false) : Component s := by
  cases s with
  | nil => cases h
  | cons b s =>
    simp only [matchesName, Bool.and_eq_true, List.all_eq_true] at h
    obtain ⟨⟨hb, hs⟩, -⟩ := h
    apply component_of_head
    · rintro rfl
      rw [hdot] at hb
      cases hb
    · intro hmem
      rcases List.mem_cons.mp hmem with rfl | hmem
      · rw [hfirst] at hb
        cases hb
      · have hslash := hs 0x2F hmem
        rw [hrest] at hslash
        cases hslash

theorem component_of_category {s : GoString} (h : categoryPattern s = true) : Component s :=
  component_of_matchesName h (by decide) (by decide) (by decide)

theorem component_of_tenantID {s : GoString} (h : tenantIDPattern s = true) : Component s :=
  component_of_matchesName h (by decide) (by decide) (by decide)

theorem component_padInt (width : ℕ) (v : ℤ) : Component (padInt width v) := by
  have hchar : ∀ b ∈ padInt width v, b ≠ 0x2E ∧ b ≠ 0x2F := by
    intro b hb
    rcases padInt_char hb with rfl | hdigit
    · decide
    · constructor
      · rintro rfl
        revert hdigit
        decide
      · rintro rfl
        revert hdigit
        decide
  cases h : padInt width v with
  | nil => exact absurd h (padInt_ne_nil width v)
  | cons b s =>
    rw [h] at hchar
    refine component_of_head (hchar b List.mem_cons_self).1 ?_
    exact fun hmem => (hchar 0x2F hmem).2 rfl

/-- An extension is a dot and characters that are neither dots nor slashes. -/
theorem extension_shape {ext : GoString} (h : ext ∈ extensions.map Prod.snd) :
    ∃ e, ext = 0x2E :: e ∧ 0x2E ∉ e ∧ 0x2F ∉ e ∧ 2 ≤ e.length := by
  have hall : (extensions.map Prod.snd).all (fun ext => ext.head? == some 0x2E && !ext.tail.contains 0x2E &&
      !ext.tail.contains 0x2F && 2 ≤ ext.tail.length) = true := by decide +kernel
  have hext := List.all_eq_true.mp hall ext h
  cases ext with
  | nil => cases hext
  | cons b e =>
    simp only [List.head?_cons, List.tail_cons, Bool.and_eq_true, beq_iff_eq, Option.some.injEq,
      Bool.not_eq_true', List.contains_eq_mem, decide_eq_false_iff_not] at hext
    exact ⟨e, by rw [hext.1.1.1], hext.1.1.2, hext.1.2, of_decide_eq_true hext.2⟩

/-- The extension makes the last segment too long to be `..`. -/
theorem Parts.Checked.component_object {p : Parts} (h : p.Checked) : Component (p.objectID ++ p.ext) := by
  obtain ⟨e, he, -, hslash, hlen⟩ := extension_shape h.ext
  have hlong : 3 ≤ (p.objectID ++ p.ext).length := by
    rw [he, List.length_append, List.length_cons]
    omega
  refine ⟨?_, ?_, ?_, ?_⟩
  · intro heq
    rw [heq] at hlong
    cases hlong
  · intro heq
    rw [heq] at hlong
    revert hlong
    decide +kernel
  · intro heq
    rw [heq] at hlong
    revert hlong
    decide +kernel
  · rw [he, List.mem_append, List.mem_cons]
    rintro (hmem | hmem | hmem)
    · exact h.objectID_slash hmem
    · revert hmem
      decide
    · exact hslash hmem

theorem Parts.Checked.component {p : Parts} (h : p.Checked) : ∀ seg ∈ p.segments, Component seg := by
  have htenants : Component (lit "tenants") := component_of_category (by decide +kernel)
  unfold Parts.segments
  rw [List.forall_mem_append]
  constructor
  · intro seg hseg
    exact component_of_category (h.nameSpace seg hseg)
  · simp only [List.forall_mem_cons]
    exact ⟨htenants, component_of_tenantID h.tenantID, component_of_category h.category, component_padInt _ _,
      component_padInt _ _, component_padInt _ _, h.component_object, by simp⟩

theorem Parts.segments_ne_nil (p : Parts) : p.segments ≠ [] := by simp [Parts.segments]

theorem Parts.Checked.split_key {p : Parts} (h : p.Checked) :
    split (join p.segments [0x2F]) 0x2F = p.segments :=
  split_join 0x2F (fun seg hseg => (h.component seg hseg).slash_notMem) p.segments_ne_nil

/-- The object id ends before the last dot. -/
theorem objectID_ext_inj {s s' ext ext' : GoString} (hext : ext ∈ extensions.map Prod.snd)
    (hext' : ext' ∈ extensions.map Prod.snd) (h : s ++ ext = s' ++ ext') : s = s' ∧ ext = ext' := by
  obtain ⟨e, rfl, hdot, -⟩ := extension_shape hext
  obtain ⟨e', rfl, hdot', -⟩ := extension_shape hext'
  have hreverse := congrArg List.reverse h
  simp only [List.reverse_append, List.reverse_cons, List.append_assoc, List.singleton_append] at hreverse
  have hparts := append_sep_inj (by simpa using hdot) (by simpa using hdot') hreverse
  rw [List.reverse_inj, List.reverse_inj] at hparts
  exact ⟨hparts.2, by rw [hparts.1]⟩

/-- The fields can be read off the segments. -/
theorem eq_of_segments_eq {p q : Parts} (hp : p.Checked) (hq : q.Checked) (h : p.segments = q.segments) :
    p = q := by
  obtain ⟨ns, tenantID, category, ⟨year, month, day⟩, objectID, ext⟩ := p
  obtain ⟨ns', tenantID', category', ⟨year', month', day'⟩, objectID', ext'⟩ := q
  obtain ⟨hns, hrest⟩ := List.append_inj' h rfl
  simp only [List.cons.injEq, true_and, and_true] at hrest
  obtain ⟨htenant, hcategory, hyear, hmonth, hday, hobject⟩ := hrest
  obtain ⟨hid, hext⟩ := objectID_ext_inj hp.ext hq.ext hobject
  have hname : ns = ns' := by rw [← join_split 0x2F ns, hns, join_split]
  cases hname
  cases htenant
  cases hcategory
  cases padInt_injective 4 hyear
  cases padInt_injective 2 hmonth
  cases padInt_injective 2 hday
  cases hid
  cases hext
  rfl

/-- The segments of a tenant's area. -/
def Parts.areaSegments (p : Parts) : List GoString := split p.nameSpace 0x2F ++ [lit "tenants", p.tenantID]

theorem tenantArea_eq (p : Parts) : p.tenantArea = join p.areaSegments [0x2F] ++ [0x2F] := by
  have htenants : lit "/tenants/" = [0x2F] ++ (lit "tenants" ++ [0x2F]) := by decide +kernel
  rw [Parts.areaSegments, join_append _ (split_ne_nil 0x2F _) (List.cons_ne_nil _ _), join_split,
    Parts.tenantArea, htenants, lit_slash]
  simp [join]

theorem tenantArea_prefix_key (p : Parts) : p.tenantArea <+: join p.segments [0x2F] := by
  have hsegments : p.segments = p.areaSegments ++ [p.category, padInt 4 p.date.year, padInt 2 p.date.month,
      padInt 2 p.date.day, p.objectID ++ p.ext] := by
    simp [Parts.segments, Parts.areaSegments]
  rw [tenantArea_eq, hsegments, join_append _ (by simp [Parts.areaSegments]) (List.cons_ne_nil _ _)]
  exact List.prefix_append _ _

/-- A key in the area of a tenant with the same namespace belongs to that tenant. -/
theorem tenantID_eq_of_area {p q : Parts} (hp : p.Checked) (hq : q.Checked) (hns : p.nameSpace = q.nameSpace)
    (h : p.tenantArea <+: join q.segments [0x2F]) : p.tenantID = q.tenantID := by
  have harea : split (join p.areaSegments [0x2F]) 0x2F = p.areaSegments := by
    apply split_join 0x2F _ (by simp [Parts.areaSegments])
    intro seg hseg
    refine (hp.component seg ?_).slash_notMem
    simp only [Parts.areaSegments, Parts.segments, List.mem_append, List.mem_cons, List.not_mem_nil,
      or_false] at hseg ⊢
    tauto
  rw [tenantArea_eq] at h
  have hsegments := (split_prefix_iff 0x2F).mpr (Or.inr h)
  rw [harea, hq.split_key, Parts.areaSegments, Parts.segments, hns, List.prefix_append_right_inj,
    List.cons_prefix_cons, List.cons_prefix_cons] at hsegments
  exact hsegments.2.1

end Segments

/-- Keys are well formed, determine the fields they are made of, and keep tenants apart. -/
def KeysSound (U : CaseTables) (mime : ParseMediaType) : Prop :=
  (∀ clock input key, buildObjectKey U mime clock input = .ok key →
    ∃ p, PartsOf U mime clock input p ∧ split key 0x2F = p.segments ∧
      ∀ seg ∈ p.segments, seg ≠ [] ∧ seg ≠ lit "." ∧ seg ≠ lit "..") ∧
  ∀ clock input key p clock' input' key' p',
    buildObjectKey U mime clock input = .ok key → PartsOf U mime clock input p →
    buildObjectKey U mime clock' input' = .ok key' → PartsOf U mime clock' input' p' →
      (key = key' → p = p') ∧
      (p.nameSpace = p'.nameSpace → p.tenantID ≠ p'.tenantID →
        p.tenantArea <+: key ∧ ¬ p.tenantArea <+: key')

theorem PartsOf.unique {U : CaseTables} {mime : ParseMediaType} {clock : Time} {input : ObjectKeyInput}
    {p q : Parts} (hp : PartsOf U mime clock input p) (hq : PartsOf U mime clock input q) : p = q := by
  obtain ⟨ns, tenantID, category, date, objectID, ext⟩ := p
  obtain ⟨ns', tenantID', category', date', objectID', ext'⟩ := q
  cases hp.nameSpace.symm.trans hq.nameSpace
  cases hp.tenantID.symm.trans hq.tenantID
  cases hp.category.symm.trans hq.category
  cases hp.date.symm.trans hq.date
  cases hp.objectID.symm.trans hq.objectID
  cases hp.ext.symm.trans hq.ext
  rfl

theorem objectKeys_sound (U : CaseTables) (mime : ParseMediaType) : KeysSound U mime := by
  constructor
  · intro clock input key h
    obtain ⟨p, hparts, hchecked, rfl⟩ := partsOf_of_ok h
    refine ⟨p, hparts, hchecked.split_key, ?_⟩
    intro seg hseg
    have hcomponent := hchecked.component seg hseg
    exact ⟨hcomponent.ne_nil, hcomponent.ne_dot, hcomponent.ne_dotdot⟩
  · intro clock input key p clock' input' key' p' h hp h' hp'
    obtain ⟨q, hq, hchecked, rfl⟩ := partsOf_of_ok h
    obtain ⟨q', hq', hchecked', rfl⟩ := partsOf_of_ok h'
    cases hp.unique hq
    cases hp'.unique hq'
    constructor
    · intro hkey
      apply eq_of_segments_eq hchecked hchecked'
      rw [← hchecked.split_key, hkey, hchecked'.split_key]
    · intro hns htenant
      refine ⟨tenantArea_prefix_key p, ?_⟩
      exact fun harea => htenant (tenantID_eq_of_area hchecked hchecked' hns harea)

-- The namespace may hold the word that separates it from the tenant.
example : buildObjectKey ⟨id, id⟩ some (Time.ofUnix 951782400)
    ⟨lit "/App//tenants/", lit " t1", lit "Avatar", lit "image/png", lit "..", ⟨0, 0, by decide⟩⟩ =
      .ok (lit "app/tenants/tenants/t1/avatar/2000/02/29/...png") := by decide +kernel

end SynapseGo.Files
