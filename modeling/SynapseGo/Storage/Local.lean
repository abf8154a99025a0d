import SynapseGo.Go.Filepath

/-! `storage.LocalStorage`: keys are confined to a base directory by a prefix test on cleaned paths. -/
namespace SynapseGo.Storage
open SynapseGo.Go

inductive Err where
  | escapesBase
  deriving DecidableEq, Repr

structure LocalStorage where
  basePath : GoString
  baseURL : GoString

/-- `filepath.Abs`; the working directory may be unknown. -/
def abs (getwd : Option GoString) (path : GoString) : Option GoString :=
  if isRooted path then some (clean path) else getwd.map fun wd => joinPath [wd, path]

def newLocal (getwd : Option GoString) (basePath baseURL : GoString) : LocalStorage where
  basePath := (abs getwd basePath).getD basePath
  baseURL := baseURL

def LocalStorage.safePath (s : LocalStorage) (key : GoString) : Except Err GoString :=
  let fullPath := joinPath [s.basePath, key]
  if !hasPrefix fullPath (s.basePath ++ [0x2F]) && fullPath ≠ s.basePath then .error .escapesBase
  else .ok fullPath

/-- The URL of a key, for as long as one likes. -/
def LocalStorage.presignedURL (s : LocalStorage) (key : GoString) : Except Err GoString := do
  let _ ← s.safePath key
  .ok (s.baseURL ++ 0x2F :: key)

/-- An absolute cleaned path. -/
structure Absolute (path : GoString) : Prop where
  rooted : isRooted path = true
  cleaned : clean path = path

/-- The cleaned path of a key. -/
def LocalStorage.target (s : LocalStorage) (key : GoString) : GoString := clean (s.basePath ++ 0x2F :: key)

/-- The key resolves to its cleaned path exactly if that is the base or lies below it name by name, and
every key without `..` resolves. -/
def LocalStorage.Confines (s : LocalStorage) (key : GoString) : Prop :=
  (∀ p, s.safePath key = .ok p ↔ p = s.target key ∧ components s.basePath <+: components p) ∧
    (lit ".." ∉ split key 0x2F → ∃ p, s.safePath key = .ok p)

/-- A cleaned absolute path is the root followed by its names. -/
theorem Absolute.eq {path : GoString} (h : Absolute path) :
    ∃ names, (∀ s ∈ names, Component s) ∧ path = 0x2F :: join names [0x2F] ∧
      cleanSegments true (split path 0x2F) = names := by
  refine ⟨_, components_cleanSegments path, ?_, rfl⟩
  rw [← clean_of_rooted h.rooted, h.cleaned]

theorem absolute_clean {path : GoString} (h : isRooted path = true) : Absolute (clean path) := by
  rw [clean_of_rooted h]
  exact ⟨isRooted_cons _, clean_rooted (components_cleanSegments path)⟩

/-- The base of a new storage is absolute and clean, if the working directory is absolute. -/
theorem absolute_newLocal {wd : GoString} (hwd : isRooted wd = true) (basePath baseURL : GoString) :
    Absolute (newLocal (some wd) basePath baseURL).basePath := by
  unfold newLocal abs
  dsimp only
  split_ifs with hroot
  · exact absolute_clean hroot
  · have hne : wd ≠ [] := by
      rintro rfl
      cases hwd
    have hjoin : isRooted (join [wd, basePath] [0x2F]) = true := by
      have hpre : [0x2F] <+: wd := hasPrefix_iff.mp hwd
      apply hasPrefix_iff.mpr
      rw [join_cons _ (List.cons_ne_nil _ _), List.append_assoc]
      exact hpre.trans (List.prefix_append _ _)
    rw [Option.map_some, Option.getD_some, joinPath, if_neg hne]
    exact absolute_clean hjoin

section
variable {s : LocalStorage} (key : GoString)

/-- The prefix test compares elements. -/
theorem safePath_eq_ok_iff (hne : s.basePath ≠ []) (p : GoString) :
    s.safePath key = .ok p ↔ p = s.target key ∧ split s.basePath 0x2F <+: split p 0x2F := by
  have htarget : joinPath [s.basePath, key] = s.target key := by
    rw [joinPath, if_neg hne]
    simp [LocalStorage.target, join]
  have htest : (!hasPrefix (s.target key) (s.basePath ++ [0x2F]) && s.target key ≠ s.basePath) = true ↔
      ¬ split s.basePath 0x2F <+: split (s.target key) 0x2F := by
    rw [split_prefix_iff, not_or, ← hasPrefix_iff]
    simp [and_comm]
  unfold LocalStorage.safePath
  rw [htarget]
  dsimp only
  by_cases hescapes : (!hasPrefix (s.target key) (s.basePath ++ [0x2F]) && s.target key ≠ s.basePath) = true
  · rw [if_pos hescapes]
    constructor
    · intro h
      cases h
    · rintro ⟨rfl, hsplit⟩
      exact absurd hsplit (htest.mp hescapes)
  · rw [if_neg hescapes]
    have hsplit := not_not.mp (mt htest.mpr hescapes)
    constructor
    · intro h
      cases h
      exact ⟨rfl, hsplit⟩
    · rintro ⟨rfl, -⟩
      rfl

/-- The names of the base come first on the way to the target, and `..` may take them back. -/
theorem target_eq (hbase : Absolute s.basePath) : ∃ names, (∀ c ∈ names, Component c) ∧
    s.target key = 0x2F :: join names [0x2F] ∧
    names.reverse = (split key 0x2F).foldl (cleanStep true) (components s.basePath).reverse := by
  obtain ⟨names, hnames, hpath, hclean⟩ := hbase.eq
  have hcomponents : components s.basePath = names := by rw [hpath, components_rooted hnames]
  have hroot : isRooted (s.basePath ++ 0x2F :: key) = true := by
    rw [hpath]
    exact isRooted_cons _
  refine ⟨_, components_cleanSegments _, clean_of_rooted hroot, ?_⟩
  rw [split_append, cleanSegments, List.reverse_reverse, List.foldl_append, hcomponents, ← hclean,
    cleanSegments, List.reverse_reverse]

/-- Under a base other than the root, the elements of paths compare like their names. -/
theorem split_rooted_prefix_iff {base names : List GoString} (hbase : ∀ c ∈ base, Component c)
    (hnames : ∀ c ∈ names, Component c) :
    split (0x2F :: join base [0x2F]) 0x2F <+: split (0x2F :: join names [0x2F]) 0x2F ↔
      if base = [] then names = [] else base <+: names := by
  rw [split_rooted hbase, split_rooted hnames, List.cons_prefix_cons]
  simp only [true_and]
  by_cases hb : base = []
  · rw [if_pos hb, if_pos hb]
    split_ifs with hn
    · simp [hn]
    · obtain ⟨c, names, rfl⟩ := List.exists_cons_of_ne_nil hn
      have hc := (hnames c List.mem_cons_self).ne_nil
      simp [List.cons_prefix_cons, Ne.symm hc]
  · rw [if_neg hb, if_neg hb]
    split_ifs with hn
    · obtain ⟨c, base, rfl⟩ := List.exists_cons_of_ne_nil hb
      have hc := (hbase c List.mem_cons_self).ne_nil
      simp [hn, List.cons_prefix_cons, hc]
    · rfl

private theorem components_root : components [0x2F] = [] := by decide +kernel

theorem rooted_eq_root_iff {names : List GoString} (hnames : ∀ c ∈ names, Component c) :
    0x2F :: join names [0x2F] = [0x2F] ↔ names = [] := by
  constructor
  · intro h
    rw [← components_rooted hnames, h, components_root]
  · rintro rfl
    rfl

/-- What `safePath` decides, in names: everything below a base other than the root, and the root. -/
theorem safePath_ok_iff_names (hbase : Absolute s.basePath) (p : GoString) : s.safePath key = .ok p ↔
    p = s.target key ∧
      if s.basePath = [0x2F] then p = [0x2F] else components s.basePath <+: components p := by
  obtain ⟨base, hbaseNames, hpath, -⟩ := hbase.eq
  obtain ⟨names, hnames, htarget, -⟩ := target_eq key hbase
  rw [safePath_eq_ok_iff key (by simp [hpath])]
  apply and_congr_right
  rintro rfl
  rw [htarget, hpath, split_rooted_prefix_iff hbaseNames hnames, components_rooted hbaseNames,
    components_rooted hnames]
  simp only [rooted_eq_root_iff hbaseNames, rooted_eq_root_iff hnames]

theorem components_prefix_of_no_dotdot (hbase : Absolute s.basePath) (hkey : lit ".." ∉ split key 0x2F) :
    components s.basePath <+: components (s.target key) := by
  obtain ⟨names, hnames, htarget, hfold⟩ := target_eq key hbase
  rw [htarget, components_rooted hnames, ← List.reverse_suffix, hfold]
  exact suffix_foldl_cleanStep hkey _

/-- Confinement is exact for every base but the root, below which nothing is accepted. -/
theorem confines_iff (hbase : Absolute s.basePath) :
    s.Confines key ↔ s.basePath ≠ [0x2F] ∨ s.target key = [0x2F] := by
  constructor
  · intro h
    by_contra hnot
    obtain ⟨hroot, htarget⟩ := not_or.mp hnot
    rw [not_not] at hroot
    have hok := (h.1 (s.target key)).mpr ⟨rfl, by rw [hroot, components_root]; exact List.nil_prefix⟩
    rw [safePath_ok_iff_names key hbase, if_pos hroot] at hok
    exact htarget hok.2
  · intro h
    by_cases hroot : s.basePath = [0x2F]
    · have htarget := h.resolve_left (not_not.mpr hroot)
      constructor
      · intro p
        rw [safePath_ok_iff_names key hbase, if_pos hroot, hroot, components_root]
        constructor
        · rintro ⟨hp, -⟩
          exact ⟨hp, List.nil_prefix⟩
        · rintro ⟨hp, -⟩
          exact ⟨hp, hp.trans htarget⟩
      · intro _
        refine ⟨s.target key, (safePath_ok_iff_names key hbase _).mpr ⟨rfl, ?_⟩⟩
        rw [if_pos hroot]
        exact htarget
    · constructor
      · intro p
        rw [safePath_ok_iff_names key hbase, if_neg hroot]
      · intro hkey
        refine ⟨s.target key, (safePath_ok_iff_names key hbase _).mpr ⟨rfl, ?_⟩⟩
        rw [if_neg hroot]
        exact components_prefix_of_no_dotdot key hbase hkey

/-- Under a base other than the root, URLs are handed out exactly for the keys below it. -/
theorem presignedURL_eq_ok_iff (hbase : Absolute s.basePath) (hroot : s.basePath ≠ [0x2F]) (url : GoString) :
    s.presignedURL key = .ok url ↔
      url = s.baseURL ++ 0x2F :: key ∧ components s.basePath <+: components (s.target key) := by
  have hsafe := safePath_ok_iff_names key hbase (s.target key)
  rw [if_neg hroot] at hsafe
  unfold LocalStorage.presignedURL
  cases hpath : s.safePath key with
  | error e =>
    rw [hpath] at hsafe
    have hnot : ¬ components s.basePath <+: components (s.target key) := by
      intro h
      cases hsafe.mpr ⟨rfl, h⟩
    simp [bind, Except.bind, hnot]
  | ok p =>
    obtain ⟨rfl, hp⟩ := (safePath_ok_iff_names key hbase p).mp hpath
    rw [if_neg hroot] at hp
    simp [bind, Except.bind, hp, eq_comm]

end

/-- A sibling directory with the name of the base as a prefix is outside of it. -/
theorem sibling_confined : (⟨lit "/srv/data", []⟩ : LocalStorage).Confines (lit "../data-old/x") :=
  (confines_iff (s := ⟨lit "/srv/data", []⟩) (lit "../data-old/x") ⟨by decide +kernel, by decide +kernel⟩).mpr
    (Or.inl (by decide +kernel))

/-- With the root as its base, a storage accepts no name. -/
theorem root_not_confines : ¬ (⟨lit "/", []⟩ : LocalStorage).Confines (lit "a") := by
  intro h
  have hok := (h.1 (lit "/a")).mpr (by decide +kernel)
  revert hok
  decide +kernel

end SynapseGo.Storage
