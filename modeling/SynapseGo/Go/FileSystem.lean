import Mathlib.Data.List.Infix
import Mathlib.Logic.Function.Basic
import SynapseGo.Go.Strings

/-! A file system as `MkdirAll`, `Create`, `Write`, `Close` and `Remove` of package `os` see it. A file
outlives its name for those who have it open: the files that a path has had are numbered. -/
namespace SynapseGo.Go

/-- An absolute path by its names. -/
abbrev Names := List GoString

inductive Errno where
  | notDir
  | isDir
  | noEnt
  | notEmpty
  | io
  deriving DecidableEq, Repr

inductive Node where
  | absent
  | dir
  | file (n : ℕ)
  deriving DecidableEq, Repr

/-- What is at a path now, and all the files that have been there. -/
structure FileCell where
  node : Node
  files : ℕ
  contents : ℕ → GoString

namespace FileCell

/-- `O_CREATE|O_TRUNC`. -/
def create (c : FileCell) : Except Errno ℕ × FileCell :=
  match c.node with
  | .dir => (.error .isDir, c)
  | .file n => (.ok n, { c with contents := Function.update c.contents n [] })
  | .absent => (.ok c.files, ⟨.file c.files, c.files + 1, Function.update c.contents c.files []⟩)

/-- A write at an offset; what lies between the end of the file and the offset reads as zeros. -/
def write (c : FileCell) (n offset : ℕ) (data : GoString) : FileCell :=
  let old := c.contents n
  let new :=
    old.take offset ++ List.replicate (offset - old.length) 0 ++ data ++ old.drop (offset + data.length)
  { c with contents := Function.update c.contents n new }

/-- A file of which no more than `m` bytes have come to the disk. -/
def cutOff (c : FileCell) (n m : ℕ) : FileCell :=
  { c with contents := Function.update c.contents n ((c.contents n).take m) }

/-- `empty` says whether a directory has no entries. -/
def remove (c : FileCell) (empty : Bool) : Except Errno Unit × FileCell :=
  match c.node with
  | .absent => (.error .noEnt, c)
  | .file _ => (.ok (), { c with node := .absent })
  | .dir => if empty then (.ok (), { c with node := .absent }) else (.error .notEmpty, c)

variable {c : FileCell}

@[simp] theorem node_cutOff (n m : ℕ) : (c.cutOff n m).node = c.node := rfl

theorem contents_cutOff (n m : ℕ) : (c.cutOff n m).contents n = (c.contents n).take m :=
  Function.update_self _ _ _

@[simp] theorem node_write (n offset : ℕ) (data : GoString) : (c.write n offset data).node = c.node := rfl

theorem remove_of_not_dir (h : c.node ≠ .dir) (empty : Bool) : c.remove empty = c.remove true := by
  unfold remove
  cases hnode : c.node with
  | absent => rfl
  | file n => rfl
  | dir => exact absurd hnode h

theorem node_remove_of_not_dir (h : c.node ≠ .dir) (empty : Bool) : (c.remove empty).2.node = .absent := by
  unfold remove
  cases hnode : c.node with
  | absent => exact hnode
  | file n => rfl
  | dir => exact absurd hnode h

theorem node_create_of_not_dir (h : c.node ≠ .dir) : ∃ n, c.create.1 = .ok n ∧ c.create.2.node = .file n := by
  unfold create
  cases hnode : c.node with
  | absent => exact ⟨_, rfl, rfl⟩
  | file n => exact ⟨n, rfl, rfl⟩
  | dir => exact absurd hnode h

end FileCell

/-- The cells of all paths, and the paths where something has been made. -/
structure FileSystem where
  cell : Names → FileCell
  made : List Names

namespace FileSystem

def node (fs : FileSystem) (p : Names) : Node := (fs.cell p).node

def put (fs : FileSystem) (p : Names) (c : FileCell) : FileSystem :=
  ⟨Function.update fs.cell p c, p :: fs.made⟩

def isEmpty (fs : FileSystem) (p : Names) : Bool :=
  !fs.made.any fun q => q ≠ [] ∧ q.dropLast = p ∧ fs.node q ≠ .absent

/-- `os.MkdirAll` from a directory `done` that is there. -/
def mkdirAll (fs : FileSystem) (done : Names) : Names → Except Errno Unit × FileSystem
  | [] => (.ok (), fs)
  | name :: rest =>
    match fs.node (done ++ [name]) with
    | .file _ => (.error .notDir, fs)
    | .dir => fs.mkdirAll (done ++ [name]) rest
    | .absent =>
      (fs.put (done ++ [name]) { fs.cell (done ++ [name]) with node := .dir }).mkdirAll (done ++ [name]) rest

/-- Why a path cannot be followed, if so. -/
def walk (fs : FileSystem) (done : Names) : Names → Option Errno
  | [] => none
  | name :: rest =>
    match fs.node (done ++ [name]) with
    | .dir => fs.walk (done ++ [name]) rest
    | .file _ => some .notDir
    | .absent => some .noEnt

def create (fs : FileSystem) (p : Names) : Except Errno ℕ × FileSystem :=
  match fs.walk [] p.dropLast with
  | some e => (.error e, fs)
  | none => ((fs.cell p).create.1, fs.put p (fs.cell p).create.2)

def write (fs : FileSystem) (p : Names) (n offset : ℕ) (data : GoString) : FileSystem :=
  fs.put p ((fs.cell p).write n offset data)

def cutOff (fs : FileSystem) (p : Names) (n m : ℕ) : FileSystem := fs.put p ((fs.cell p).cutOff n m)

/-- `os.Remove`; the root cannot be removed. -/
def remove (fs : FileSystem) (p : Names) : Except Errno Unit × FileSystem :=
  if p = [] then (.error .notEmpty, fs)
  else
    match fs.walk [] p.dropLast with
    | some e => (.error e, fs)
    | none => (((fs.cell p).remove (fs.isEmpty p)).1, fs.put p ((fs.cell p).remove (fs.isEmpty p)).2)

/-- A path from `done` on, up to `done ++ rest` itself. -/
def OnTheWay (done rest q : Names) : Prop := ∃ r ≠ [], r <+: rest ∧ q = done ++ r

/-- All directories on the way to `p` are there, and `p` itself. -/
def Dirs (fs : FileSystem) (p : Names) : Prop := ∀ q, OnTheWay [] p q → fs.node q = .dir

/-- No file is on the way to `p`, nor at `p` itself. -/
def Clear (fs : FileSystem) (p : Names) : Prop := ∀ q, OnTheWay [] p q → ∀ n, fs.node q ≠ .file n

section
variable {fs : FileSystem} {p q done rest : Names}

@[simp] theorem cell_put_self (c : FileCell) : (fs.put p c).cell p = c := by
  unfold put
  exact Function.update_self p c fs.cell

theorem cell_write_self (n offset : ℕ) (data : GoString) :
    (fs.write p n offset data).cell p = (fs.cell p).write n offset data := cell_put_self _

theorem cell_cutOff_self (n m : ℕ) : (fs.cutOff p n m).cell p = (fs.cell p).cutOff n m := cell_put_self _

theorem cell_put_of_ne (h : q ≠ p) (c : FileCell) : (fs.put p c).cell q = fs.cell q := by
  unfold put
  exact Function.update_of_ne h c fs.cell

theorem node_put_of_ne (h : q ≠ p) (c : FileCell) : (fs.put p c).node q = fs.node q :=
  congrArg FileCell.node (cell_put_of_ne h c)

theorem not_onTheWay_nil : ¬ OnTheWay done [] q := by
  intro ⟨r, hr, hpre, _⟩
  exact hr (List.prefix_nil.mp hpre)

theorem onTheWay_cons {name : GoString} :
    OnTheWay done (name :: rest) q ↔ q = done ++ [name] ∨ OnTheWay (done ++ [name]) rest q := by
  constructor
  · intro ⟨r, hr, hpre, hq⟩
    cases r with
    | nil => exact absurd rfl hr
    | cons name' r =>
      obtain ⟨rfl, htail⟩ := List.cons_prefix_cons.mp hpre
      cases r with
      | nil => exact .inl hq
      | cons name'' r =>
        refine .inr ⟨name'' :: r, List.cons_ne_nil _ _, htail, ?_⟩
        rw [hq, List.append_assoc, List.singleton_append]
  · intro h
    rcases h with hq | ⟨r, -, hpre, hq⟩
    · exact ⟨[name], List.cons_ne_nil _ _, by simp, hq⟩
    · refine ⟨name :: r, List.cons_ne_nil _ _, List.cons_prefix_cons.mpr ⟨rfl, hpre⟩, ?_⟩
      rw [hq, List.append_assoc, List.singleton_append]

theorem OnTheWay.ne_done (h : OnTheWay done rest q) : q ≠ done := by
  obtain ⟨r, hr, -, hq⟩ := h
  intro hself
  rw [hself] at hq
  exact hr (List.self_eq_append_right.mp hq)

/-- A cell is left alone, or an absent one on the way has become a directory. -/
theorem mkdirAll_cell (fs : FileSystem) (done rest q : Names) : (fs.mkdirAll done rest).2.cell q = fs.cell q ∨
    fs.node q = .absent ∧ (fs.mkdirAll done rest).2.node q = .dir ∧ OnTheWay done rest q := by
  induction rest generalizing fs done with
  | nil => exact .inl rfl
  | cons name rest ih =>
    rw [onTheWay_cons]
    unfold mkdirAll
    cases hnode : fs.node (done ++ [name]) with
    | file n => exact .inl rfl
    | dir =>
      rcases ih fs (done ++ [name]) with hsame | ⟨habsent, hdir, hway⟩
      · exact .inl hsame
      · exact .inr ⟨habsent, hdir, .inr hway⟩
    | absent =>
      rcases ih (fs.put (done ++ [name]) { fs.cell (done ++ [name]) with node := .dir }) (done ++ [name])
        with hsame | ⟨habsent, hdir, hway⟩
      · by_cases hq : q = done ++ [name]
        · refine .inr ⟨by rw [hq, hnode], ?_, .inl hq⟩
          have hput := congrArg FileCell.node hsame
          rw [hq, cell_put_self] at hput
          rw [hq]
          exact hput
        · rw [cell_put_of_ne hq] at hsame
          exact .inl hsame
      · rw [node_put_of_ne hway.ne_done] at habsent
        exact .inr ⟨habsent, hdir, .inr hway⟩

theorem node_mkdirAll_of_dir (h : fs.node q = .dir) : (fs.mkdirAll done rest).2.node q = .dir := by
  rcases mkdirAll_cell fs done rest q with hsame | ⟨-, hdir, -⟩
  · exact (congrArg FileCell.node hsame).trans h
  · exact hdir

/-- With no file on the way, all the directories are there afterwards. -/
theorem mkdirAll_ok (h : ∀ q, OnTheWay done rest q → ∀ n, fs.node q ≠ .file n) :
    (fs.mkdirAll done rest).1 = .ok () ∧ ∀ q, OnTheWay done rest q →
    (fs.mkdirAll done rest).2.node q = .dir := by
  induction rest generalizing fs done with
  | nil => exact ⟨rfl, fun q hq => absurd hq not_onTheWay_nil⟩
  | cons name rest ih =>
    simp only [onTheWay_cons, forall_eq_or_imp] at h ⊢
    unfold mkdirAll
    cases hnode : fs.node (done ++ [name]) with
    | file n => exact absurd hnode (h.1 n)
    | dir =>
      obtain ⟨hok, hdirs⟩ := ih h.2
      exact ⟨hok, node_mkdirAll_of_dir hnode, hdirs⟩
    | absent =>
      have hclear : ∀ q, OnTheWay (done ++ [name]) rest q → ∀ n,
          (fs.put (done ++ [name]) { fs.cell (done ++ [name]) with node := .dir }).node q ≠ .file n := by
        intro q hq n
        rw [node_put_of_ne hq.ne_done]
        exact h.2 q hq n
      obtain ⟨hok, hdirs⟩ := ih hclear
      refine ⟨hok, node_mkdirAll_of_dir ?_, hdirs⟩
      unfold node
      rw [cell_put_self]

theorem walk_eq_none_iff : fs.walk done rest = none ↔ ∀ q, OnTheWay done rest q → fs.node q = .dir := by
  induction rest generalizing done with
  | nil => exact ⟨fun _ q hq => absurd hq not_onTheWay_nil, fun _ => rfl⟩
  | cons name rest ih =>
    simp only [onTheWay_cons, forall_eq_or_imp]
    unfold walk
    cases hnode : fs.node (done ++ [name]) with
    | dir => simp [ih]
    | file n => simp
    | absent => simp

theorem walk_of_clear (h : ∀ q, OnTheWay done rest q → ∀ n, fs.node q ≠ .file n) {e : Errno}
    (he : fs.walk done rest = some e) : e = .noEnt := by
  induction rest generalizing done with
  | nil => cases he
  | cons name rest ih =>
    simp only [onTheWay_cons, forall_eq_or_imp] at h
    unfold walk at he
    cases hnode : fs.node (done ++ [name]) with
    | file n => exact absurd hnode (h.1 n)
    | dir =>
      rw [hnode] at he
      exact ih h.2 he
    | absent =>
      rw [hnode] at he
      exact (Option.some.inj he).symm

end
end FileSystem
end SynapseGo.Go
