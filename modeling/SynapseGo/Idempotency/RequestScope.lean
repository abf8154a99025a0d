import SynapseGo.Crypto.Sha256
import SynapseGo.Go.Url
import SynapseGo.Go.Utf8

/-! Storage keys and request hashes of `idempotency.go`, over any `sha256`. -/
namespace SynapseGo.Idempotency
open SynapseGo.Go

structure RequestScope where
  tenantID : GoString
  principalID : GoString
  method : GoString
  path : GoString
  key : GoString
  deriving DecidableEq, Repr

/-- `ErrInvalidKey` and `ErrInvalidScope`. -/
inductive ScopeError
  | invalidKey
  | invalidScope
  deriving DecidableEq, Repr

def maxKeyLength : ℕ := 255

/-- `unicode.IsControl`. -/
def isControl (r : ℕ) : Bool := r < 0x20 || 0x7F ≤ r && r < 0xA0

def normalizeKey (raw : GoString) : Except ScopeError GoString :=
  let key := trimSpace raw
  if key = [] || maxKeyLength < key.length then .error .invalidKey
  else if (runes key).any fun r => isControl r || spaceRunes.elem r then .error .invalidKey
  else .ok key

def hashMark : GoString := lit "sha256:"

def trimHashPrefix (hash : GoString) : GoString := trimPrefix hash hashMark

/-- What `HashParts` writes to the hash for one part. -/
def frame (part : GoString) : GoString := formatInt part.length ++ 0x3A :: part ++ [0]

def stream (parts : List GoString) : GoString := parts.flatMap frame

section
variable (sha256 : GoString → GoString)

def bodyHash (body : GoString) : GoString := hashMark ++ hexEncode (sha256 body)

def hashParts (parts : List GoString) : GoString := hashMark ++ hexEncode (sha256 (stream parts))

end

section
variable (U : CaseTables) (authority : GoString → GoString → Bool)

def normalizeMethod (method : GoString) : GoString := toUpper U (trimSpace method)

def normalizePath (path : GoString) : GoString :=
  let path := trimSpace path
  if path = [] then []
  else
    -- `http.NewRequest` fails where `url.Parse` does
    let path := match parseURL authority path with
      | some url => if url.escapedPath ≠ [] then url.escapedPath else path
      | none => path
    if hasPrefix path [0x2F] then path else 0x2F :: path

def normalizeScope (scope : RequestScope) : Except ScopeError RequestScope := do
  let key ← normalizeKey scope.key
  let tenantID := trimSpace scope.tenantID
  let principalID := trimSpace scope.principalID
  let method := normalizeMethod U scope.method
  let path := normalizePath authority scope.path
  if tenantID = [] || principalID = [] || method = [] || path = [] then .error .invalidScope
  else .ok ⟨tenantID, principalID, method, path, key⟩

/-- The parts of a scope in the order they are hashed. -/
def RequestScope.parts (scope : RequestScope) : List GoString :=
  [scope.tenantID, scope.principalID, scope.method, scope.path, scope.key]

variable (sha256 : GoString → GoString)

def requestHash (method path body : GoString) : GoString :=
  hashParts sha256 [normalizeMethod U method, normalizePath authority path, bodyHash sha256 body]

def storageKey (scope : RequestScope) : Except ScopeError GoString := do
  let normalized ← normalizeScope U authority scope
  .ok (lit "idem:v1:" ++ trimHashPrefix (hashParts sha256 normalized.parts))

end

/-- The length in front of a part says where it ends, whatever the part holds. -/
theorem frame_append_inj {p p' s s' : GoString} (h : frame p ++ s = frame p' ++ s') : p = p' ∧ s = s' := by
  have hframe : ∀ p s : GoString, frame p ++ s = formatInt p.length ++ 0x3A :: (p ++ 0 :: s) := by
    intro p s
    simp [frame]
  rw [hframe, hframe] at h
  obtain ⟨hlength, hrest⟩ := append_sep_inj (colon_notMem_formatInt _) (colon_notMem_formatInt _) h
  have hlength : p.length = p'.length := Int.ofNat.inj (formatInt_injective hlength)
  obtain ⟨hpart, htail⟩ := List.append_inj hrest hlength
  exact ⟨hpart, (List.cons.inj htail).2⟩

theorem frame_ne_nil (p : GoString) : frame p ≠ [] := by
  simp [frame]

theorem stream_injective : Function.Injective stream := by
  intro parts
  induction parts with
  | nil =>
    intro parts' h
    cases parts' with
    | nil => rfl
    | cons p parts' =>
      have hnil := List.append_eq_nil_iff.mp h.symm
      exact absurd hnil.1 (frame_ne_nil p)
  | cons p parts ih =>
    intro parts' h
    cases parts' with
    | nil =>
      have hnil := List.append_eq_nil_iff.mp h
      exact absurd hnil.1 (frame_ne_nil p)
    | cons p' parts' =>
      obtain ⟨hpart, hrest⟩ := frame_append_inj h
      rw [hpart, ih hrest]

/-- The two texts are no collision of the hash. -/
def Separates (sha256 : GoString → GoString) (x y : GoString) : Prop := sha256 x = sha256 y → x = y

section
variable {sha256 : GoString → GoString}

theorem bodyHash_eq_iff {body body' : GoString} (hsep : Separates sha256 body body') :
    bodyHash sha256 body = bodyHash sha256 body' ↔ body = body' := by
  constructor
  · intro h
    exact hsep (hexEncode_injective (List.append_cancel_left h))
  · rintro rfl
    rfl

example : bodyHash Crypto.sha256 [] =
    lit "sha256:e3b0c44298fc1c149afbf4c8996fb92427ae41e4649b934ca495991b7852b855" := by
  decide +kernel

theorem hashParts_eq_iff {parts parts' : List GoString}
    (hsep : Separates sha256 (stream parts) (stream parts')) :
    hashParts sha256 parts = hashParts sha256 parts' ↔ parts = parts' := by
  constructor
  · intro h
    exact stream_injective (hsep (hexEncode_injective (List.append_cancel_left h)))
  · rintro rfl
    rfl

theorem trimHashPrefix_hashParts (parts : List GoString) :
    trimHashPrefix (hashParts sha256 parts) = hexEncode (sha256 (stream parts)) := by
  have hprefix : hasPrefix (hashParts sha256 parts) hashMark = true :=
    hasPrefix_iff.mpr (List.prefix_append _ _)
  rw [trimHashPrefix, trimPrefix, if_pos hprefix]
  exact List.drop_left

end

theorem RequestScope.parts_injective : Function.Injective RequestScope.parts := by
  intro s s' h
  cases s
  cases s'
  simpa [RequestScope.parts] using h

section
variable (U : CaseTables) (authority : GoString → GoString → Bool) (sha256 : GoString → GoString)

theorem storageKey_of_ok {s n : RequestScope} (h : normalizeScope U authority s = .ok n) :
    storageKey U authority sha256 s = .ok (lit "idem:v1:" ++ hexEncode (sha256 (stream n.parts))) := by
  rw [storageKey, h]
  show Except.ok (lit "idem:v1:" ++ trimHashPrefix (hashParts sha256 n.parts)) = _
  rw [trimHashPrefix_hashParts]

/-- The framing tells all lists of parts apart, so that storage keys and request hashes collide only
where the hash does. -/
theorem framing_faithful : Function.Injective stream ∧
    (∀ s s' n n', normalizeScope U authority s = .ok n → normalizeScope U authority s' = .ok n' →
      Separates sha256 (stream n.parts) (stream n'.parts) →
      (storageKey U authority sha256 s = storageKey U authority sha256 s' ↔ n = n')) ∧
    ∀ method method' path path' body body', Separates sha256 body body' →
      Separates sha256
        (stream [normalizeMethod U method, normalizePath authority path, bodyHash sha256 body])
        (stream [normalizeMethod U method', normalizePath authority path', bodyHash sha256 body']) →
      (requestHash U authority sha256 method path body = requestHash U authority sha256 method' path' body' ↔
        normalizeMethod U method = normalizeMethod U method' ∧
          normalizePath authority path = normalizePath authority path' ∧ body = body') := by
  refine ⟨stream_injective, ?_, ?_⟩
  · intro s s' n n' hs hs' hsep
    rw [storageKey_of_ok U authority sha256 hs, storageKey_of_ok U authority sha256 hs', Except.ok.injEq]
    constructor
    · intro h
      have hstream := hsep (hexEncode_injective (List.append_cancel_left h))
      exact RequestScope.parts_injective (stream_injective hstream)
    · rintro rfl
      rfl
  · intro method method' path path' body body' hbody hsep
    rw [requestHash, requestHash, hashParts_eq_iff hsep, List.cons.injEq, List.cons.injEq, List.cons.injEq,
      bodyHash_eq_iff hbody]
    simp

end

/-- Under SHA-256, tenant 12 with principal 3 is told from tenant 1 with principal 23. -/
theorem framing_faithful_digits :
    storageKey ⟨id, id⟩ (fun _ _ => true) Crypto.sha256 ⟨lit "12", lit "3", lit "get", lit "/a", lit "k"⟩ ≠
      storageKey ⟨id, id⟩ (fun _ _ => true) Crypto.sha256 ⟨lit "1", lit "23", lit "get", lit "/a",
        lit "k"⟩ := by
  have hs : normalizeScope ⟨id, id⟩ (fun _ _ => true) ⟨lit "12", lit "3", lit "get", lit "/a", lit "k"⟩ =
      .ok ⟨lit "12", lit "3", lit "GET", lit "/a", lit "k"⟩ := by
    decide +kernel
  have hs' : normalizeScope ⟨id, id⟩ (fun _ _ => true) ⟨lit "1", lit "23", lit "get", lit "/a", lit "k"⟩ =
      .ok ⟨lit "1", lit "23", lit "GET", lit "/a", lit "k"⟩ := by
    decide +kernel
  have hsep : Separates Crypto.sha256
      (stream (RequestScope.parts ⟨lit "12", lit "3", lit "GET", lit "/a", lit "k"⟩))
      (stream (RequestScope.parts ⟨lit "1", lit "23", lit "GET", lit "/a", lit "k"⟩)) := by
    intro h
    refine absurd h ?_
    decide +kernel
  have hiff := (framing_faithful ⟨id, id⟩ (fun _ _ => true) Crypto.sha256).2.1 _ _ _ _ hs hs' hsep
  intro h
  have hscope := hiff.mp h
  revert hscope
  decide +kernel

end SynapseGo.Idempotency
