import SynapseGo.Files.ObjectKey

/-! `UploadPolicy.Validate` and `Plan`: what an upload has to satisfy before it gets an object key. -/
namespace SynapseGo.Files
open SynapseGo.Go

def defaultMaxUploadSizeBytes : Int64 := 10485760

inductive UploadErr where
  | invalidUploadPolicy
  | other (e : Err)
  deriving DecidableEq, Repr

abbrev Visibility := GoString

def visibilityPrivate : Visibility := lit "private"

def visibilityPublic : Visibility := lit "public"

structure UploadPolicy where
  maxSizeBytes : Int64
  allowedTypes : List GoString
  allowedCategories : List GoString
  defaultVisibility : Visibility
  objectKeyNamespace : GoString

structure UploadRequest where
  tenantID : GoString
  category : GoString
  contentType : GoString
  sizeBytes : Int64
  objectID : GoString
  visibility : Visibility
  now : Time

structure Object where
  id : GoString
  tenantID : GoString
  objectKey : GoString
  contentType : GoString
  sizeBytes : Int64
  visibility : Visibility
  createdAt : Time

def normalizeCategoryOrEmpty (U : CaseTables) (category : GoString) : GoString :=
  match normalizeCategory U category with
  | .error _ => []
  | .ok normalized => normalized

def validateVisibility (visibility : Visibility) : Except UploadErr Unit :=
  if visibility = visibilityPrivate ∨ visibility = visibilityPublic then .ok ()
  else .error (.other .invalidUpload)

def containsNormalized (U : CaseTables) (mime : ParseMediaType) (values : List GoString) (want : GoString) :
    Bool :=
  values.any fun value => normalizeContentType U mime value = want || toLower U (trimSpace value) = want

namespace UploadPolicy

def maxSize (p : UploadPolicy) : Int64 :=
  if p.maxSizeBytes = 0 then defaultMaxUploadSizeBytes else p.maxSizeBytes

/-- The request decides, then the policy, then the default. -/
def visibility (p : UploadPolicy) (req : UploadRequest) : Visibility :=
  if req.visibility ≠ [] then req.visibility
  else if p.defaultVisibility ≠ [] then p.defaultVisibility
  else visibilityPrivate

def validate (U : CaseTables) (mime : ParseMediaType) (p : UploadPolicy) (req : UploadRequest) :
    Except UploadErr Unit :=
  if trimSpace req.tenantID = [] ∨ req.sizeBytes < 0 then .error (.other .invalidUpload)
  else
    match normalizeCategory U req.category with
    | .error e => .error (.other e)
    | .ok _ =>
      if p.maxSize < 0 ∨ p.allowedTypes = [] then .error .invalidUploadPolicy
      else if p.maxSize < req.sizeBytes then .error (.other .invalidUpload)
      else if !containsNormalized U mime p.allowedTypes (normalizeContentType U mime req.contentType) then
        .error (.other .unsupportedType)
      else if p.allowedCategories ≠ [] ∧
          !containsNormalized U mime p.allowedCategories (normalizeCategoryOrEmpty U req.category) then
        .error (.other .invalidUpload)
      else validateVisibility (p.visibility req)

/-- `clock` is what `time.Now` returns, and `uuid` what `uuid.NewString` does. -/
def plan (U : CaseTables) (mime : ParseMediaType) (clock : Time) (uuid : GoString) (p : UploadPolicy)
    (req : UploadRequest) : Except UploadErr Object :=
  match p.validate U mime req with
  | .error e => .error e
  | .ok _ =>
    let now := if req.now.isZero then clock else req.now
    let objectID := if trimSpace req.objectID = [] then uuid else trimSpace req.objectID
    match buildObjectKey U mime clock
        ⟨p.objectKeyNamespace, req.tenantID, req.category, req.contentType, objectID, now⟩ with
    | .error e => .error (.other e)
    | .ok key => .ok
        { id := objectID
          tenantID := trimSpace req.tenantID
          objectKey := key
          contentType := normalizeContentType U mime req.contentType
          sizeBytes := req.sizeBytes
          visibility := p.visibility req
          createdAt := now }

end UploadPolicy

/-- Keys that a plan has given out. -/
def Planned (key : GoString) : Prop :=
  ∃ U mime clock uuid, ∃ (p : UploadPolicy) (req : UploadRequest) (object : Object),
    p.plan U mime clock uuid req = .ok object ∧ object.objectKey = key

theorem Planned.parts {key : GoString} (h : Planned key) :
    ∃ p : Parts, p.Checked ∧ key = join p.segments [0x2F] := by
  obtain ⟨U, mime, clock, uuid, p, req, object, hplan, rfl⟩ := h
  unfold UploadPolicy.plan at hplan
  cases hvalid : p.validate U mime req with
  | error e =>
    rw [hvalid] at hplan
    cases hplan
  | ok _ =>
    rw [hvalid] at hplan
    dsimp only at hplan
    split at hplan
    · cases hplan
    · next key hkey =>
      cases hplan
      obtain ⟨parts, -, hchecked, heq⟩ := partsOf_of_ok hkey
      exact ⟨parts, hchecked, heq⟩

end SynapseGo.Files
