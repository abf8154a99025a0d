import SynapseGo.Go.Segments

/-! Package `path/filepath` on Unix: lexical cleaning and joining of slash-separated paths. -/
namespace SynapseGo.Go

/-- One path element against those kept so far, innermost first: empty elements and `.` go, and `..`
takes the element before it along, unless there is none or it is a `..` of its own. -/
def cleanStep (rooted : Bool) (done : List GoString) (seg : GoString) : List GoString :=
  if seg = [] ∨ seg = lit "." then done
  else if seg = lit ".." then
    match done with
    | [] => if rooted then [] else [seg]
    | last :: rest => if last = lit ".." then seg :: done else rest
  else seg :: done

def cleanSegments (rooted : Bool) (segs : List GoString) : List GoString :=
  (segs.foldl (cleanStep rooted) []).reverse

def isRooted (path : GoString) : Bool := hasPrefix path [0x2F]

/-- `filepath.Clean`. -/
def clean (path : GoString) : GoString :=
  let segs := cleanSegments (isRooted path) (split path 0x2F)
  if isRooted path then 0x2F :: join segs [0x2F]
  else if segs = [] then lit "." else join segs [0x2F]

/-- `filepath.Join`: empty leading elements are ignored. -/
def joinPath : List GoString → GoString
  | [] => []
  | elem :: elems => if elem = [] then joinPath elems else clean (join (elem :: elems) [0x2F])

/-- The names on a path. -/
def components (path : GoString) : List GoString := (split path 0x2F).filter (· ≠ [])

/-- An element that cleaning keeps in a rooted path. -/
structure Component (seg : GoString) : Prop where
  ne_nil : seg ≠ []
  ne_dot : seg ≠ lit "."
  ne_dotdot : seg ≠ lit ".."
  slash_notMem : 0x2F ∉ seg

theorem cleanStep_of_component {seg : GoString} (h : Component seg) (rooted : Bool) (done : List GoString) :
    cleanStep rooted done seg = seg :: done := by
  unfold cleanStep
  rw [if_neg (not_or.mpr ⟨h.ne_nil, h.ne_dot⟩), if_neg h.ne_dotdot]

private theorem components_cleanStep {done : List GoString} {seg : GoString} (hdone : ∀ s ∈ done, Component s)
    (hseg : 0x2F ∉ seg) : ∀ s ∈ cleanStep true done seg, Component s := by
  by_cases hskip : seg = [] ∨ seg = lit "."
  · unfold cleanStep
    rw [if_pos hskip]
    exact hdone
  · by_cases hdotdot : seg = lit ".."
    · unfold cleanStep
      rw [if_neg hskip, if_pos hdotdot]
      cases done with
      | nil => exact hdone
      | cons last rest =>
        have hlast : last ≠ lit ".." := (hdone last List.mem_cons_self).ne_dotdot
        simp only [if_neg hlast]
        exact fun s hs => hdone s (List.mem_cons_of_mem _ hs)
    · rw [not_or] at hskip
      have hname : Component seg := ⟨hskip.1, hskip.2, hdotdot, hseg⟩
      rw [cleanStep_of_component hname]
      exact List.forall_mem_cons.mpr ⟨hname, hdone⟩

private theorem components_foldl {segs done : List GoString} (hdone : ∀ s ∈ done, Component s)
    (hsegs : ∀ s ∈ segs, 0x2F ∉ s) : ∀ s ∈ segs.foldl (cleanStep true) done, Component s := by
  induction segs generalizing done with
  | nil => exact hdone
  | cons seg segs ih =>
    obtain ⟨hseg, hsegs⟩ := List.forall_mem_cons.mp hsegs
    exact ih (components_cleanStep hdone hseg) hsegs

/-- What is left of a rooted path are proper names. -/
theorem components_cleanSegments (path : GoString) :
    ∀ s ∈ cleanSegments true (split path 0x2F), Component s := by
  intro s hs
  refine components_foldl (by simp) ?_ s (List.mem_reverse.mp hs)
  exact fun seg hseg => notMem_of_mem_split 0x2F hseg

/-- Names are kept as they are. -/
theorem foldl_cleanStep_of_component {segs : List GoString} (hsegs : ∀ s ∈ segs, Component s)
    (done : List GoString) : segs.foldl (cleanStep true) done = segs.reverse ++ done := by
  induction segs generalizing done with
  | nil => rfl
  | cons seg segs ih =>
    obtain ⟨hseg, hsegs⟩ := List.forall_mem_cons.mp hsegs
    rw [List.foldl_cons, cleanStep_of_component hseg, ih hsegs, List.reverse_cons, List.append_assoc,
      List.singleton_append]

/-- Elements other than `..` only add to a path. -/
theorem suffix_foldl_cleanStep {segs : List GoString} (hsegs : lit ".." ∉ segs) (done : List GoString) :
    done <:+ segs.foldl (cleanStep true) done := by
  induction segs generalizing done with
  | nil => exact List.suffix_rfl
  | cons seg segs ih =>
    rw [List.mem_cons, not_or] at hsegs
    have hstep : done <:+ cleanStep true done seg := by
      unfold cleanStep
      rw [if_neg (Ne.symm hsegs.1)]
      split_ifs
      · exact List.suffix_rfl
      · exact List.suffix_cons seg done
    exact hstep.trans (ih hsegs.2 _)

section Rooted
variable {path : GoString} (hroot : isRooted path = true)
include hroot

theorem clean_of_rooted : clean path = 0x2F :: join (cleanSegments true (split path 0x2F)) [0x2F] := by
  unfold clean
  rw [hroot]
  rfl

end Rooted

theorem isRooted_cons (s : GoString) : isRooted (0x2F :: s) = true := by simp [isRooted, hasPrefix]

/-- The elements of a rooted path from its names. -/
theorem split_rooted {names : List GoString} (hnames : ∀ s ∈ names, Component s) :
    split (0x2F :: join names [0x2F]) 0x2F = [] :: (if names = [] then [[]] else names) := by
  have hsplit := split_append 0x2F [] (join names [0x2F])
  rw [List.nil_append] at hsplit
  rw [hsplit]
  split_ifs with hnil
  · rw [hnil]
    rfl
  · rw [split_join 0x2F (fun s hs => (hnames s hs).slash_notMem) hnil]
    rfl

theorem components_rooted {names : List GoString} (hnames : ∀ s ∈ names, Component s) :
    components (0x2F :: join names [0x2F]) = names := by
  unfold components
  rw [split_rooted hnames]
  split_ifs with hnil
  · rw [hnil]
    rfl
  · simp only [ne_eq, not_true_eq_false, decide_false, Bool.false_eq_true, not_false_eq_true,
      List.filter_cons_of_neg]
    rw [List.filter_eq_self]
    exact fun s hs => by simpa using (hnames s hs).ne_nil

/-- Cleaning a clean rooted path changes nothing. -/
theorem clean_rooted {names : List GoString} (hnames : ∀ s ∈ names, Component s) :
    clean (0x2F :: join names [0x2F]) = 0x2F :: join names [0x2F] := by
  have hempty : cleanStep true [] [] = [] := if_pos (Or.inl rfl)
  rw [clean_of_rooted (isRooted_cons _), split_rooted hnames, cleanSegments, List.foldl_cons, hempty]
  split_ifs with hnil
  · rw [hnil, List.foldl_cons, hempty]
    rfl
  · rw [foldl_cleanStep_of_component hnames, List.append_nil, List.reverse_reverse]

end SynapseGo.Go
