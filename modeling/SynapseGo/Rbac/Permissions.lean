import SynapseGo.Go.Segments

/-! Permission codes of package `rbac`. The code compares joined strings; what it decides is a
comparison of dot-separated segments. -/
namespace SynapseGo.Rbac
open SynapseGo.Go

inductive Err where
  | permissionDenied
  deriving DecidableEq, Repr

def permissionMatches (granted requested : GoString) : Bool :=
  let granted := trimSpace granted
  let requested := trimSpace requested
  if granted = [] ∨ requested = [] then false
  else if granted = lit "*" ∨ granted = requested then true
  else if hasSuffix granted (lit ".*") then
    let stem := trimSuffix granted (lit ".*")
    requested = stem || hasPrefix requested (stem ++ lit ".")
  else false

def isAllowed (granted : List GoString) (requested : GoString) : Bool :=
  granted.any fun code => permissionMatches code requested

/-- The forms a subject may have: a slice of codes, a `permissionCoder`, anything else. -/
inductive Subject where
  | codes (codes : List GoString)
  | coder (permissionCodes : List GoString)
  | other

def permissionCodes : Subject → List GoString
  | .codes codes => codes
  | .coder codes => codes
  | .other => []

def checkPermission (subject : Subject) (resource action : GoString) : Except Err Unit :=
  let resource := trim (trimSpace resource) 0x2E
  let action := trim (trimSpace action) 0x2E
  if resource = [] ∨ action = [] then .error .permissionDenied
  else
    let requested := resource ++ lit "." ++ action
    if requested = lit "." then .error .permissionDenied
    else if isAllowed (permissionCodes subject) requested then .ok ()
    else .error .permissionDenied

/-- The segments between dots. -/
def seg (s : GoString) : List GoString := split s 0x2E

/-- What a trimmed code grants. -/
def SegmentMatch (granted requested : GoString) : Prop :=
  granted ≠ [] ∧ requested ≠ [] ∧
    (granted = lit "*" ∨ granted = requested ∨ ∃ p, granted = p ++ lit ".*" ∧ seg p <+: seg requested)

/-- The suffix and prefix tests on joined strings compare whole segments. -/
theorem permissionMatches_iff (granted requested : GoString) :
    permissionMatches granted requested = true ↔ SegmentMatch (trimSpace granted) (trimSpace requested) := by
  unfold permissionMatches SegmentMatch
  generalize trimSpace granted = g
  generalize trimSpace requested = r
  dsimp only
  by_cases hempty : g = [] ∨ r = []
  · simp only [if_pos hempty, Bool.false_eq_true, false_iff, not_and]
    intro hg hr
    exact absurd hempty (by simp [hg, hr])
  · rw [if_neg hempty]
    rw [not_or] at hempty
    by_cases hexact : g = lit "*" ∨ g = r
    · simp only [if_pos hexact, true_iff]
      exact ⟨hempty.1, hempty.2, by tauto⟩
    · rw [if_neg hexact]
      rw [not_or] at hexact
      by_cases hwild : hasSuffix g (lit ".*") = true
      · obtain ⟨p, rfl⟩ := hasSuffix_iff.mp hwild
        have hstem : split p 0x2E <+: split r 0x2E ↔ r = p ∨ p ++ lit "." <+: r := split_prefix_iff 0x2E
        rw [if_pos hwild, trimSuffix_append]
        simp only [Bool.or_eq_true, decide_eq_true_eq, hasPrefix_iff, ← hstem]
        constructor
        · intro hseg
          exact ⟨hempty.1, hempty.2, Or.inr (Or.inr ⟨p, rfl, hseg⟩)⟩
        · rintro ⟨-, -, h | h | ⟨q, hq, hseg⟩⟩
          · exact absurd h hexact.1
          · exact absurd h hexact.2
          · rw [List.append_cancel_right hq]
            exact hseg
      · simp only [if_neg hwild, Bool.false_eq_true, false_iff]
        rintro ⟨-, -, h | h | ⟨q, hq, -⟩⟩
        · exact hexact.1 h
        · exact hexact.2 h
        · exact hwild (hasSuffix_iff.mpr ⟨q, hq.symm⟩)

/-- What `CheckPermission` asks for. -/
def request (resource action : GoString) : GoString :=
  trim (trimSpace resource) 0x2E ++ lit "." ++ trim (trimSpace action) 0x2E

theorem isAllowed_iff (granted : List GoString) (requested : GoString) : isAllowed granted requested = true ↔
    ∃ code ∈ granted, SegmentMatch (trimSpace code) (trimSpace requested) := by
  simp only [isAllowed, List.any_eq_true, permissionMatches_iff]

theorem checkPermission_iff (subject : Subject) (resource action : GoString) :
    checkPermission subject resource action = .ok () ↔
      trim (trimSpace resource) 0x2E ≠ [] ∧ trim (trimSpace action) 0x2E ≠ [] ∧
        ∃ code ∈ permissionCodes subject, SegmentMatch (trimSpace code)
          (trimSpace (request resource action)) := by
  rw [← isAllowed_iff]
  unfold checkPermission request
  generalize trim (trimSpace resource) 0x2E = res
  generalize trim (trimSpace action) 0x2E = act
  dsimp only
  by_cases hempty : res = [] ∨ act = []
  · rw [if_pos hempty]
    simp only [reduceCtorEq, false_iff]
    rintro ⟨hres, hact, -⟩
    exact hempty.elim hres hact
  · rw [if_neg hempty]
    rw [not_or] at hempty
    -- a request is longer than its dot
    have hdot : res ++ lit "." ++ act ≠ lit "." := by
      intro h
      have hlen := congrArg List.length h
      have hres := List.length_pos_iff.mpr hempty.1
      simp only [List.length_append] at hlen
      omega
    rw [if_neg hdot]
    split_ifs with hallowed
    · simp only [true_iff]
      exact ⟨hempty.1, hempty.2, hallowed⟩
    · simp only [false_iff]
      exact fun h => hallowed h.2.2

/-- More codes allow no less. -/
theorem checkPermission_mono {subject subject' : Subject}
    (h : permissionCodes subject ⊆ permissionCodes subject')
    {resource action : GoString} (hok : checkPermission subject resource action = .ok ()) :
    checkPermission subject' resource action = .ok () := by
  rw [checkPermission_iff] at hok ⊢
  obtain ⟨hres, hact, code, hcode, hmatch⟩ := hok
  exact ⟨hres, hact, code, h hcode, hmatch⟩

/-- There is one error only, so two checks agree when they allow the same. -/
theorem checkPermission_congr {subject subject' : Subject} {resource action : GoString}
    (h : checkPermission subject resource action = .ok () ↔
    checkPermission subject' resource action = .ok ()) :
    checkPermission subject resource action = checkPermission subject' resource action := by
  cases hl : checkPermission subject resource action with
  | ok u => exact (h.mp hl).symm
  | error e =>
    cases hr : checkPermission subject' resource action with
    | ok u =>
      rw [h.mpr hr] at hl
      cases hl
    | error e' =>
      cases e
      cases e'
      rfl

/-- Matching is by whole segments; a permission depends on the set of codes and grows with it. -/
theorem permissions_by_segments :
    (∀ granted requested, permissionMatches granted requested = true ↔
      SegmentMatch (trimSpace granted) (trimSpace requested)) ∧
    (∀ subject resource action, checkPermission subject resource action = .ok () ↔
      trim (trimSpace resource) 0x2E ≠ [] ∧ trim (trimSpace action) 0x2E ≠ [] ∧
        ∃ code ∈ permissionCodes subject, SegmentMatch (trimSpace code)
          (trimSpace (request resource action))) ∧
    (∀ subject subject', permissionCodes subject ⊆ permissionCodes subject' → ∀ resource action,
      checkPermission subject resource action = .ok () → checkPermission subject' resource action = .ok ()) ∧
    ∀ subject subject', (∀ code, code ∈ permissionCodes subject ↔ code ∈ permissionCodes subject') →
      ∀ resource action, checkPermission subject resource action =
        checkPermission subject' resource action := by
  refine ⟨permissionMatches_iff, checkPermission_iff, ?_, ?_⟩
  · intro subject subject' h resource action hok
    exact checkPermission_mono h hok
  · intro subject subject' h resource action
    apply checkPermission_congr
    constructor
    · exact checkPermission_mono fun code hcode => (h code).mp hcode
    · exact checkPermission_mono fun code hcode => (h code).mpr hcode

-- A wildcard does not reach into a segment.
example : permissionMatches (lit "cargo.*") (lit " cargo.parcel.read") = true ∧
    permissionMatches (lit "cargo.*") (lit "cargox.read") = false := by decide +kernel

end SynapseGo.Rbac
