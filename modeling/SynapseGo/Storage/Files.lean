import SynapseGo.Concurrency.Purge
import SynapseGo.Go.FileSystem
import SynapseGo.Storage.Local

/-! `LocalStorage.Upload` and `Delete` on a file system, step by step. Where no object is a directory on
the way to another, on a disk where nothing else is in the way, every object is a cell of its own: making
directories, and the calls on other objects, make no difference. -/
namespace SynapseGo.Storage
open SynapseGo.Go SynapseGo.Concurrency

inductive Op where
  | mkdirAll (p : Names)
  | create (p : Names)
  | write (p : Names) (n offset : ℕ) (data : GoString)
  | close (p : Names) (n : ℕ)
  | remove (p : Names)

abbrev Reply : Op → Type
  | .mkdirAll _ => Except Errno Unit
  | .create _ => Except Errno ℕ
  | .write _ _ _ _ => Except Errno Unit
  | .close _ _ => Except Errno Unit
  | .remove _ => Except Errno Unit

/-- With a fault `n` the operation fails after its first `n` names or bytes; a `Close` that fails has got the
first `n` bytes of the file to the disk. -/
structure Env where
  fault : Option ℕ

def handle : Handler Op Reply Env FileSystem
  | env, .mkdirAll p, fs =>
    match env.fault with
    | none => fs.mkdirAll [] p
    | some n => (.error .io, (fs.mkdirAll [] (p.take n)).2)
  | env, .create p, fs =>
    match env.fault with
    | none => fs.create p
    | some _ => (.error .io, fs)
  | env, .write p n offset data, fs =>
    match env.fault with
    | none => (.ok (), fs.write p n offset data)
    | some m => (.error .io, fs.write p n offset (data.take m))
  | env, .close p n, fs =>
    match env.fault with
    | none => (.ok (), fs)
    | some m => (.error .io, fs.cutOff p n m)
  | env, .remove p, fs =>
    match env.fault with
    | none => fs.remove p
    | some _ => (.error .io, fs)

inductive UploadErr where
  | escapesBase
  | mkdir (e : Errno)
  | create (e : Errno)
  | read
  | write (e : Errno)
  | delete (e : Errno)
  deriving DecidableEq, Repr

/-- What a reader gives, and whether it ends with an error. -/
structure Source where
  chunks : List GoString
  fails : Bool
  deriving DecidableEq, Repr

/-- `io.Copy` to the open file, from the offset it has come to. -/
def copy (p : Names) (n : ℕ) (fails : Bool) (offset : ℕ) :
    List GoString → Prog Op Reply (Except UploadErr Unit)
  | [] => return if fails then .error .read else .ok ()
  | chunk :: chunks => do
    let written : Except Errno Unit ← Prog.perform (Op.write p n offset chunk)
    match written with
    | .error e => return .error (.write e)
    | .ok _ => copy p n fails (offset + chunk.length) chunks

/-- With the file open; the error of the deferred `Close` is discarded. -/
def copyAndClose (p : Names) (n : ℕ) (source : Source) : Prog Op Reply (Except UploadErr Unit) := do
  let copied ← copy p n source.fails 0 source.chunks
  let _ ← Prog.perform (Op.close p n)
  return copied

/-- From `os.Create` on. -/
def createAndCopy (p : Names) (source : Source) : Prog Op Reply (Except UploadErr Unit) := do
  let created : Except Errno ℕ ← Prog.perform (Op.create p)
  match created with
  | .error e => return .error (.create e)
  | .ok n => copyAndClose p n source

/-- What `Upload` does with the path it has resolved; `filepath.Dir` drops the last name. -/
def store (p : Names) (source : Source) : Prog Op Reply (Except UploadErr Unit) := do
  let made : Except Errno Unit ← Prog.perform (Op.mkdirAll p.dropLast)
  match made with
  | .error e => return .error (.mkdir e)
  | .ok _ => createAndCopy p source

/-- What `Delete` does with the path; a missing file is no error. -/
def discard (p : Names) : Prog Op Reply (Except UploadErr Unit) := do
  let removed : Except Errno Unit ← Prog.perform (Op.remove p)
  return match removed with
    | .ok _ => .ok ()
    | .error .noEnt => .ok ()
    | .error e => .error (.delete e)

inductive Call where
  | upload (key : GoString) (source : Source)
  | delete (key : GoString)
  deriving DecidableEq, Repr

def Call.key : Call → GoString
  | .upload key _ => key
  | .delete key => key

namespace LocalStorage

/-- `Upload`; on success it returns the URL of the key. -/
def upload (s : LocalStorage) (key : GoString) (source : Source) :
    Prog Op Reply (Except UploadErr GoString) :=
  match s.safePath key with
  | .error _ => return .error .escapesBase
  | .ok fullPath => do return (← store (components fullPath) source).map fun _ => s.baseURL ++ 0x2F :: key

/-- `Delete`, which returns no URL. -/
def delete (s : LocalStorage) (key : GoString) : Prog Op Reply (Except UploadErr GoString) :=
  match s.safePath key with
  | .error _ => return .error .escapesBase
  | .ok fullPath => do return (← discard (components fullPath)).map fun _ => []

def prog (s : LocalStorage) : Call → Prog Op Reply (Except UploadErr GoString)
  | .upload key source => s.upload key source
  | .delete key => s.delete key

/-- Where a schedule leads the calls. -/
def world {ι : Type} [DecidableEq ι] (s : LocalStorage) (calls : ι → Call) (fs : FileSystem)
    (sched : List (ι × Env)) : Config ι Op Reply Env FileSystem (Except UploadErr GoString) :=
  (Config.start (fun i => s.prog (calls i)) fs).run handle sched

end LocalStorage

/-- The same operations on one object alone. -/
def handleCell : Handler Op Reply Env FileCell
  | env, .mkdirAll _, c =>
    match env.fault with
    | none => (.ok (), c)
    | some _ => (.error .io, c)
  | env, .create _, c =>
    match env.fault with
    | none => c.create
    | some _ => (.error .io, c)
  | env, .write _ n offset data, c =>
    match env.fault with
    | none => (.ok (), c.write n offset data)
    | some m => (.error .io, c.write n offset (data.take m))
  | env, .close _ n, c =>
    match env.fault with
    | none => (.ok (), c)
    | some m => (.error .io, c.cutOff n m)
  | env, .remove _, c =>
    match env.fault with
    | none => c.remove true
    | some _ => (.error .io, c)

/-- A program that works on the object `p`; it makes the directories before it creates the file. -/
def Uses {α : Type} (p : Names) : Prog Op Reply α → Bool → Prop
  | .ret _, _ => True
  | .op (.mkdirAll q) k, made => q = p.dropLast ∧ (∀ e, Uses p (k (.error e)) made) ∧ Uses p (k (.ok ())) true
  | .op (.create q) k, made => q = p ∧ made = true ∧ ∀ r, Uses p (k r) made
  | .op (.write q _ _ _) k, made => q = p ∧ ∀ r, Uses p (k r) made
  | .op (.close q _) k, made => q = p ∧ ∀ r, Uses p (k r) made
  | .op (.remove q) k, made => q = p ∧ ∀ r, Uses p (k r) made

section Cells
variable (objects : Set Names)

/-- No object lies on the way to another. -/
def Unnested : Prop := ∀ p ∈ objects, p ≠ [] ∧ ∀ q ∈ objects, ¬ FileSystem.OnTheWay [] p.dropLast q

/-- Nothing is in the way of the objects: no directory at one, no file on the way to one. Every step keeps
it. -/
structure Ready (fs : FileSystem) : Prop where
  not_dir : ∀ p ∈ objects, fs.node p ≠ .dir
  clear : ∀ p ∈ objects, fs.Clear p.dropLast
  dirs : ∀ p ∈ objects, ∀ n, fs.node p = .file n → fs.Dirs p.dropLast

end Cells

/-- Directories stay. -/
def Extends (fs fs' : FileSystem) : Prop := ∀ q, fs.node q = .dir → fs'.node q = .dir

section Steps
variable {objects : Set Names} {fs fs' : FileSystem} {p : Names}

theorem Extends.dirs (h : Extends fs fs') {d : Names} (hd : fs.Dirs d) : fs'.Dirs d :=
  fun q hq => h q (hd q hq)

theorem dirs_iff_walk {d : Names} : fs.Dirs d ↔ fs.walk [] d = none := FileSystem.walk_eq_none_iff.symm

/-- What a step on `p` keeps, besides `p` itself. -/
structure Frame (objects : Set Names) (p : Names) (fs fs' : FileSystem) : Prop where
  ready : Ready objects fs'
  grows : Extends fs fs'
  others : ∀ q ∈ objects, q ≠ p → fs'.cell q = fs.cell q

/-- Making directories on the way to an object touches no object. -/
theorem frame_mkdirAll (hobjects : Unnested objects) (hready : Ready objects fs) (hp : p ∈ objects)
    {d : Names} (hd : d <+: p.dropLast) :
    Frame objects p fs (fs.mkdirAll [] d).2 ∧ (fs.mkdirAll [] d).2.cell p = fs.cell p := by
  have hcell : ∀ q ∈ objects, (fs.mkdirAll [] d).2.cell q = fs.cell q := by
    intro q hq
    rcases FileSystem.mkdirAll_cell fs [] d q with hsame | ⟨-, -, r, hr, hpre, hqr⟩
    · exact hsame
    · exact absurd ⟨r, hr, hpre.trans hd, hqr⟩ ((hobjects p hp).2 q hq)
  have hext : Extends fs (fs.mkdirAll [] d).2 := fun q hq => FileSystem.node_mkdirAll_of_dir hq
  have hnode : ∀ q ∈ objects, (fs.mkdirAll [] d).2.node q = fs.node q :=
    fun q hq => congrArg FileCell.node (hcell q hq)
  refine ⟨⟨⟨?_, ?_, ?_⟩, hext, fun q hq _ => hcell q hq⟩, hcell p hp⟩
  · intro q hq
    rw [hnode q hq]
    exact hready.not_dir q hq
  · intro q hq x hx n hfile
    rcases FileSystem.mkdirAll_cell fs [] d x with hsame | ⟨-, hdir, -⟩
    · exact hready.clear q hq x hx n ((congrArg FileCell.node hsame).symm.trans hfile)
    · rw [hdir] at hfile
      cases hfile
  · intro q hq n hfile
    rw [hnode q hq] at hfile
    exact hext.dirs (hready.dirs q hq n hfile)

/-- Anything but a directory may be put at an object whose directories are there. -/
theorem frame_put (hobjects : Unnested objects) (hready : Ready objects fs) (hp : p ∈ objects) {c : FileCell}
    (hnode : c.node ≠ .dir) (hdirs : ∀ n, c.node = .file n → fs.Dirs p.dropLast) :
    Frame objects p fs (fs.put p c) := by
  have hext : Extends fs (fs.put p c) := by
    intro q hq
    have hne : q ≠ p := by
      intro heq
      rw [heq] at hq
      exact hready.not_dir p hp hq
    rw [FileSystem.node_put_of_ne hne]
    exact hq
  refine ⟨⟨?_, ?_, ?_⟩, hext, fun q _ hne => FileSystem.cell_put_of_ne hne c⟩
  · intro q hq
    by_cases heq : q = p
    · rw [heq]
      unfold FileSystem.node
      rw [FileSystem.cell_put_self]
      exact hnode
    · rw [FileSystem.node_put_of_ne heq]
      exact hready.not_dir q hq
  · intro q hq x hx n
    have hne : x ≠ p := by
      intro heq
      rw [heq] at hx
      exact (hobjects q hq).2 p hp hx
    rw [FileSystem.node_put_of_ne hne]
    exact hready.clear q hq x hx n
  · intro q hq n hfile
    by_cases heq : q = p
    · rw [heq] at hfile ⊢
      unfold FileSystem.node at hfile
      rw [FileSystem.cell_put_self] at hfile
      exact hext.dirs (hdirs n hfile)
    · rw [FileSystem.node_put_of_ne heq] at hfile
      exact hext.dirs (hready.dirs q hq n hfile)

/-- Nothing happened. -/
theorem frame_refl (hready : Ready objects fs) : Frame objects p fs fs :=
  ⟨hready, fun _ h => h, fun _ _ _ => rfl⟩

theorem step_create (hobjects : Unnested objects) (hready : Ready objects fs) (hp : p ∈ objects)
    (hdirs : fs.Dirs p.dropLast) : (fs.cell p).create = ((fs.create p).1, (fs.create p).2.cell p) ∧
      Frame objects p fs (fs.create p).2 := by
  have hcreate : fs.create p = ((fs.cell p).create.1, fs.put p (fs.cell p).create.2) := by
    unfold FileSystem.create
    rw [dirs_iff_walk.mp hdirs]
  obtain ⟨n, -, hnode⟩ := FileCell.node_create_of_not_dir (hready.not_dir p hp)
  rw [hcreate]
  refine ⟨by rw [FileSystem.cell_put_self], frame_put hobjects hready hp ?_ fun _ _ => hdirs⟩
  rw [hnode]
  nofun

theorem step_write (hobjects : Unnested objects) (hready : Ready objects fs) (hp : p ∈ objects) (n offset : ℕ)
    (data : GoString) : Frame objects p fs (fs.write p n offset data) := by
  unfold FileSystem.write
  refine frame_put hobjects hready hp ?_ ?_
  · rw [FileCell.node_write]
    exact hready.not_dir p hp
  · rw [FileCell.node_write]
    exact hready.dirs p hp

theorem step_cutOff (hobjects : Unnested objects) (hready : Ready objects fs) (hp : p ∈ objects) (n m : ℕ) :
    Frame objects p fs (fs.cutOff p n m) := by
  unfold FileSystem.cutOff
  refine frame_put hobjects hready hp ?_ ?_
  · rw [FileCell.node_cutOff]
    exact hready.not_dir p hp
  · rw [FileCell.node_cutOff]
    exact hready.dirs p hp

theorem step_remove (hobjects : Unnested objects) (hready : Ready objects fs) (hp : p ∈ objects) :
    (fs.cell p).remove true = ((fs.remove p).1, (fs.remove p).2.cell p) ∧ Frame objects p fs
    (fs.remove p).2 := by
  have hnot := hready.not_dir p hp
  cases hwalk : fs.walk [] p.dropLast with
  | none =>
    have hremove : fs.remove p =
        (((fs.cell p).remove (fs.isEmpty p)).1, fs.put p ((fs.cell p).remove (fs.isEmpty p)).2) := by
      unfold FileSystem.remove
      rw [if_neg (hobjects p hp).1, hwalk]
    have habsent := FileCell.node_remove_of_not_dir hnot (fs.isEmpty p)
    rw [hremove]
    refine ⟨?_, frame_put hobjects hready hp ?_ ?_⟩
    · rw [FileSystem.cell_put_self, FileCell.remove_of_not_dir hnot (fs.isEmpty p)]
    · rw [habsent]
      nofun
    · rw [habsent]
      nofun
  | some e =>
    have hremove : fs.remove p = (.error e, fs) := by
      unfold FileSystem.remove
      rw [if_neg (hobjects p hp).1, hwalk]
    have he : e = .noEnt := FileSystem.walk_of_clear (hready.clear p hp) hwalk
    rw [hremove, he]
    refine ⟨?_, frame_refl hready⟩
    -- A file here would have its directories.
    unfold FileCell.remove
    cases hnode : (fs.cell p).node with
    | absent => rfl
    | dir => exact absurd hnode hnot
    | file n =>
      have hnone := dirs_iff_walk.mp (hready.dirs p hp n hnode)
      rw [hnone] at hwalk
      cases hwalk

/-- A program for the object `p`, as far as it has come. -/
def Works {α : Type} (p : Names) (fs : FileSystem) (prog : Prog Op Reply α) : Prop :=
  ∃ made, Uses p prog made ∧ (made = true → fs.Dirs p.dropLast)

/-- One step of a program for `p`: to `p` it is a step on its cell. -/
theorem Works.step {α : Type} (hobjects : Unnested objects) (hready : Ready objects fs) (hp : p ∈ objects)
    {e : Op} {k : Reply e → Prog Op Reply α} (hworks : Works p fs (.op e k)) (env : Env) :
    handleCell env e (fs.cell p) = ((handle env e fs).1, (handle env e fs).2.cell p) ∧
      Frame objects p fs (handle env e fs).2 ∧ Works p (handle env e fs).2 (k (handle env e fs).1) := by
  obtain ⟨made, huses, hmade⟩ := hworks
  obtain ⟨fault⟩ := env
  cases e with
  | mkdirAll q =>
    obtain ⟨rfl, herror, hok⟩ := huses
    cases fault with
    | none =>
      obtain ⟨hframe, hcell⟩ := frame_mkdirAll hobjects hready hp (List.prefix_refl _)
      obtain ⟨hreply, hdirs⟩ := FileSystem.mkdirAll_ok (hready.clear p hp)
      show (_, _) = ((fs.mkdirAll [] p.dropLast).1, (fs.mkdirAll [] p.dropLast).2.cell p) ∧ _ ∧
        Works p _ (k (fs.mkdirAll [] p.dropLast).1)
      rw [hreply, hcell]
      exact ⟨rfl, hframe, true, hok, fun _ => hdirs⟩
    | some n =>
      obtain ⟨hframe, hcell⟩ := frame_mkdirAll hobjects hready hp (List.take_prefix n _)
      show (_, _) = (_, (fs.mkdirAll [] (p.dropLast.take n)).2.cell p) ∧ _ ∧ _
      rw [hcell]
      exact ⟨rfl, hframe, made, herror _, fun h => hframe.grows.dirs (hmade h)⟩
  | create q =>
    obtain ⟨rfl, rfl, hnext⟩ := huses
    cases fault with
    | none =>
      obtain ⟨hcell, hframe⟩ := step_create hobjects hready hp (hmade rfl)
      exact ⟨hcell, hframe, true, hnext _, fun h => hframe.grows.dirs (hmade h)⟩
    | some n => exact ⟨rfl, frame_refl hready, true, hnext _, hmade⟩
  | write q n offset data =>
    obtain ⟨rfl, hnext⟩ := huses
    cases fault with
    | none =>
      have hframe := step_write hobjects hready hp n offset data
      refine ⟨?_, hframe, made, hnext _, fun h => hframe.grows.dirs (hmade h)⟩
      exact Prod.ext rfl (FileSystem.cell_write_self n offset data).symm
    | some m =>
      have hframe := step_write hobjects hready hp n offset (data.take m)
      refine ⟨?_, hframe, made, hnext _, fun h => hframe.grows.dirs (hmade h)⟩
      exact Prod.ext rfl (FileSystem.cell_write_self n offset (data.take m)).symm
  | close q n =>
    obtain ⟨rfl, hnext⟩ := huses
    cases fault with
    | none => exact ⟨rfl, frame_refl hready, made, hnext _, hmade⟩
    | some m =>
      have hframe := step_cutOff hobjects hready hp n m
      refine ⟨?_, hframe, made, hnext _, fun h => hframe.grows.dirs (hmade h)⟩
      exact Prod.ext rfl (FileSystem.cell_cutOff_self n m).symm
  | remove q =>
    obtain ⟨rfl, hnext⟩ := huses
    cases fault with
    | none =>
      obtain ⟨hcell, hframe⟩ := step_remove hobjects hready hp
      exact ⟨hcell, hframe, made, hnext _, fun h => hframe.grows.dirs (hmade h)⟩
    | some n => exact ⟨rfl, frame_refl hready, made, hnext _, hmade⟩

theorem Works.mono {α : Type} {prog : Prog Op Reply α} (hext : Extends fs fs') (h : Works p fs prog) :
    Works p fs' prog := by
  obtain ⟨made, huses, hmade⟩ := h
  exact ⟨made, huses, fun hm => hext.dirs (hmade hm)⟩

/-- Programs for `p` see its cell only, and programs for other objects do not touch it. -/
theorem objects_separated (α : Type) (hobjects : Unnested objects) (hp : p ∈ objects) :
    Separated handle handleCell (fun fs => fs.cell p) (Ready objects) Extends
      (fun fs (prog : Prog Op Reply α) => Works p fs prog)
      fun fs prog => ∃ q ∈ objects, q ≠ p ∧ Works q fs prog := by
  constructor
  case own_step =>
    intro env fs e k hready hworks
    obtain ⟨hcell, hframe, hnext⟩ := hworks.step hobjects hready hp env
    exact ⟨hcell, hframe.ready, hframe.grows, hnext⟩
  case other_step =>
    intro env fs e k hready ⟨q, hq, hne, hworks⟩
    obtain ⟨-, hframe, hnext⟩ := hworks.step hobjects hready hq env
    exact ⟨hframe.others p hp hne.symm, hframe.ready, hframe.grows, q, hq, hne, hnext⟩
  case own_stable => exact fun _ _ _ hext h => h.mono hext
  case other_stable => exact fun _ _ _ hext ⟨q, hq, hne, h⟩ => ⟨q, hq, hne, h.mono hext⟩

end Steps
end SynapseGo.Storage
