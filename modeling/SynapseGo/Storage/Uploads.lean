import SynapseGo.Files.Upload
import SynapseGo.Storage.Files

/-! Objects planned by `files.UploadPolicy` in a `storage.LocalStorage`. A planned key ends in a segment
with a dot, which no other segment in its place can have, so that no planned file is a directory for
another one. -/
namespace SynapseGo.Storage
open SynapseGo.Go SynapseGo.Concurrency
open SynapseGo.Files (Parts Planned)

section Segments

theorem dot_notMem_of_category {s : GoString} (h : Files.categoryPattern s = true) : 0x2E ∉ s := by
  cases s with
  | nil => cases h
  | cons b s =>
    simp only [Files.categoryPattern, Files.matchesName, Bool.and_eq_true, List.all_eq_true] at h
    obtain ⟨⟨hb, hs⟩, -⟩ := h
    intro hmem
    rcases List.mem_cons.mp hmem with rfl | hmem
    · revert hb
      decide
    · have hdot := hs 0x2E hmem
      revert hdot
      decide

theorem dot_notMem_padInt (width : ℕ) (v : ℤ) : 0x2E ∉ padInt width v := by
  intro hmem
  rcases padInt_char hmem with hdash | hdigit
  · revert hdash
    decide
  · revert hdigit
    decide

theorem padInt_ne_tenants (width : ℕ) (v : ℤ) : padInt width v ≠ lit "tenants" := by
  intro heq
  have hmem : (0x74 : UInt8) ∈ padInt width v := by
    rw [heq]
    decide +kernel
  rcases padInt_char hmem with hdash | hdigit
  · revert hdash
    decide
  · revert hdigit
    decide

theorem dot_mem_object {p : Parts} (h : p.Checked) : 0x2E ∈ p.objectID ++ p.ext := by
  obtain ⟨e, he, -⟩ := Files.extension_shape h.ext
  rw [he]
  simp

/-- Two lists of segments, one of which is part of the way along the other: the segment `o` with a dot
would have to be the tenant, and the one before it `tenants`. -/
theorem dotted_not_on_the_way {A Q rest : List GoString} {d o tenants tenant c y m d' : GoString}
    (hdot : 0x2E ∈ o) (hd : d ≠ tenants) (hQ : ∀ seg ∈ Q, 0x2E ∉ seg) (htenants : 0x2E ∉ tenants)
    (hc : 0x2E ∉ c) (hy : 0x2E ∉ y) (hm : 0x2E ∉ m) (hd' : 0x2E ∉ d') :
    A ++ d :: o :: rest ≠ Q ++ [tenants, tenant, c, y, m, d'] := by
  intro h
  rcases List.append_eq_append_iff.mp h with ⟨a, hQa, ha⟩ | ⟨a, -, ha⟩
  · rcases a with _ | ⟨x, _ | ⟨x', a⟩⟩
    · exact hd (List.cons.inj ha).1
    · obtain ⟨rfl, -⟩ := List.cons.inj (List.cons.inj ha).2
      exact htenants hdot
    · obtain ⟨rfl, -⟩ := List.cons.inj (List.cons.inj ha).2
      exact hQ o (by rw [hQa]; simp) hdot
  · -- The place of `o` on the way, from the tenant's category on.
    rcases a with _ | ⟨x₁, _ | ⟨x₂, _ | ⟨x₃, _ | ⟨x₄, _ | ⟨x₅, a⟩⟩⟩⟩⟩
    · exact hd (List.cons.inj ha).1.symm
    all_goals simp only [List.cons_append, List.nil_append, List.cons.injEq] at ha
    · obtain ⟨-, -, rfl, -⟩ := ha
      exact hc hdot
    · obtain ⟨-, -, -, rfl, -⟩ := ha
      exact hy hdot
    · obtain ⟨-, -, -, -, rfl, -⟩ := ha
      exact hm hdot
    · obtain ⟨-, -, -, -, -, rfl, -⟩ := ha
      exact hd' hdot
    · have hlen := congrArg List.length ha.2.2.2.2.2
      simp at hlen
      omega

/-- A planned file is never on the way to another one. -/
theorem segments_not_prefix {p q : Parts} (hp : p.Checked) (hq : q.Checked) :
    ¬ p.segments <+: q.segments.dropLast := by
  intro ⟨rest, hrest⟩
  have hq' : q.segments.dropLast = split q.nameSpace 0x2F ++ [lit "tenants", q.tenantID, q.category,
      padInt 4 q.date.year, padInt 2 q.date.month, padInt 2 q.date.day] := by
    unfold Parts.segments
    rw [List.dropLast_append_of_ne_nil (List.cons_ne_nil _ _)]
    rfl
  have hp' : p.segments ++ rest = (split p.nameSpace 0x2F ++ [lit "tenants", p.tenantID, p.category,
      padInt 4 p.date.year, padInt 2 p.date.month]) ++ padInt 2 p.date.day :: (p.objectID ++ p.ext) ::
        rest := by
    unfold Parts.segments
    simp
  rw [hp', hq'] at hrest
  exact dotted_not_on_the_way (dot_mem_object hp) (padInt_ne_tenants 2 _)
    (fun seg hseg => dot_notMem_of_category (hq.nameSpace seg hseg)) (by decide +kernel)
    (dot_notMem_of_category hq.category) (dot_notMem_padInt 4 _) (dot_notMem_padInt 2 _)
    (dot_notMem_padInt 2 _) hrest

end Segments

/-- The path of a key below the base. -/
def LocalStorage.path (s : LocalStorage) (key : GoString) : Names := components s.basePath ++ split key 0x2F

/-- The paths of all planned keys. -/
def LocalStorage.objects (s : LocalStorage) : Set Names := fun p => ∃ key, Planned key ∧ p = s.path key

section Paths
variable {s : LocalStorage} {key : GoString}

theorem path_of_parts {p : Parts} (hp : p.Checked) :
    s.path (join p.segments [0x2F]) = components s.basePath ++ p.segments := by
  unfold LocalStorage.path
  rw [hp.split_key]

theorem objects_unnested (s : LocalStorage) : Unnested s.objects := by
  intro p hp
  obtain ⟨key, hkey, rfl⟩ := hp
  obtain ⟨parts, hchecked, rfl⟩ := hkey.parts
  rw [path_of_parts hchecked]
  have hne := parts.segments_ne_nil
  refine ⟨List.append_ne_nil_of_right_ne_nil _ hne, ?_⟩
  intro q hq ⟨r, _, hpre, hqr⟩
  obtain ⟨key', hkey', rfl⟩ := hq
  obtain ⟨parts', hchecked', rfl⟩ := hkey'.parts
  rw [path_of_parts hchecked', List.nil_append] at hqr
  rw [← hqr, List.dropLast_append_of_ne_nil hne, List.prefix_append_right_inj] at hpre
  exact segments_not_prefix hchecked' hchecked hpre

/-- A planned key is accepted below every base but the root, and its path is what one expects. -/
theorem safePath_planned (hbase : Absolute s.basePath) (hroot : s.basePath ≠ [0x2F]) (hkey : Planned key) :
    ∃ fullPath, s.safePath key = .ok fullPath ∧ components fullPath = s.path key := by
  obtain ⟨parts, hchecked, rfl⟩ := hkey.parts
  obtain ⟨names, hnames, htarget, hfold⟩ := target_eq (join parts.segments [0x2F]) hbase
  rw [hchecked.split_key, foldl_cleanStep_of_component hchecked.component, ← List.reverse_append,
    List.reverse_inj] at hfold
  have hcomponents : components (s.target (join parts.segments [0x2F])) =
    components s.basePath ++ parts.segments := by
    rw [htarget, components_rooted hnames, hfold]
  refine ⟨s.target (join parts.segments [0x2F]), (safePath_ok_iff_names _ hbase _).mpr ⟨rfl, ?_⟩, ?_⟩
  · rw [if_neg hroot, hcomponents]
    exact List.prefix_append _ _
  · rw [hcomponents, path_of_parts hchecked]

theorem upload_planned (hbase : Absolute s.basePath) (hroot : s.basePath ≠ [0x2F]) (hkey : Planned key)
    (source : Source) : s.upload key source =
      (store (s.path key) source >>= fun r => .ret (r.map fun _ => s.baseURL ++ 0x2F :: key)) := by
  obtain ⟨fullPath, hsafe, hpath⟩ := safePath_planned hbase hroot hkey
  unfold LocalStorage.upload
  rw [hsafe, ← hpath]
  rfl

theorem delete_planned (hbase : Absolute s.basePath) (hroot : s.basePath ≠ [0x2F]) (hkey : Planned key) :
    s.delete key = (discard (s.path key) >>= fun r => .ret (r.map fun _ => [])) := by
  obtain ⟨fullPath, hsafe, hpath⟩ := safePath_planned hbase hroot hkey
  unfold LocalStorage.delete
  rw [hsafe, ← hpath]
  rfl

end Paths

section Uses
variable {α β : Type} {p : Names}

theorem Uses.bind {prog : Prog Op Reply α} {made : Bool} (h : Uses p prog made) {f : α → Prog Op Reply β}
    (hf : ∀ a made, Uses p (f a) made) : Uses p (prog >>= f) made := by
  induction prog generalizing made with
  | ret a => exact hf a made
  | op e k ih =>
    cases e with
    | mkdirAll q => exact ⟨h.1, fun e => ih _ (h.2.1 e), ih _ h.2.2⟩
    | create q => exact ⟨h.1, h.2.1, fun r => ih r (h.2.2 r)⟩
    | write q n offset data => exact ⟨h.1, fun r => ih r (h.2 r)⟩
    | close q n => exact ⟨h.1, fun r => ih r (h.2 r)⟩
    | remove q => exact ⟨h.1, fun r => ih r (h.2 r)⟩

theorem Uses.map {prog : Prog Op Reply α} {made : Bool} (h : Uses p prog made) (g : α → β) :
    Uses p (prog >>= fun a => .ret (g a)) made := h.bind fun _ _ => trivial

theorem uses_copy (n : ℕ) (fails : Bool) (offset : ℕ) (chunks : List GoString) (made : Bool) :
    Uses p (copy p n fails offset chunks) made := by
  induction chunks generalizing offset with
  | nil => trivial
  | cons chunk chunks ih =>
    refine ⟨rfl, fun r => ?_⟩
    cases r with
    | error e => trivial
    | ok _ => exact ih _

theorem uses_store (source : Source) : Uses p (store p source) false := by
  refine ⟨rfl, fun _ => trivial, rfl, rfl, fun r => ?_⟩
  cases r with
  | error e => trivial
  | ok n => exact (uses_copy n _ _ _ _).bind fun _ _ => ⟨rfl, fun _ => trivial⟩

theorem uses_discard : Uses p (discard p) false := ⟨rfl, fun _ => trivial⟩

/-- A call works on the object of its key. -/
theorem works_prog {s : LocalStorage} (hbase : Absolute s.basePath) (hroot : s.basePath ≠ [0x2F])
    {call : Call}
    (hkey : Planned call.key) (fs : FileSystem) : Works (s.path call.key) fs (s.prog call) := by
  refine ⟨false, ?_, nofun⟩
  cases call with
  | upload key source =>
    have hkey' : Planned key := hkey
    show Uses (s.path key) (s.upload key source) false
    rw [upload_planned hbase hroot hkey']
    exact (uses_store source).map _
  | delete key =>
    have hkey' : Planned key := hkey
    show Uses (s.path key) (s.delete key) false
    rw [delete_planned hbase hroot hkey']
    exact uses_discard.map _

end Uses

section Runs
variable {ι : Type} [DecidableEq ι] {s : LocalStorage} {calls : ι → Call} {fs : FileSystem} {key : GoString}

/-- The calls on one key, on nothing but its cell. -/
def LocalStorage.alone (s : LocalStorage) (calls : ι → Call) (c : FileCell) (key : GoString)
    (sched : List (ι × Env)) :
    Config ι Op Reply Env FileCell (Except UploadErr GoString) :=
  (Config.start (fun i => s.prog (calls i)) c).run handleCell (sched.filter fun m => (calls m.1).key = key)

theorem path_injective {key' : GoString} (h : s.path key = s.path key') : key = key' := by
  unfold LocalStorage.path at h
  have hsplit := List.append_cancel_left h
  rw [← join_split 0x2F key, hsplit, join_split]

theorem alone_purged (hbase : Absolute s.basePath) (hroot : s.basePath ≠ [0x2F])
    (hplanned : ∀ i, Planned (calls i).key) (hready : Ready s.objects fs) (hkey : Planned key)
    (sched : List (ι × Env)) :
    Config.Purged (fun fs => fs.cell (s.path key)) (fun i => (calls i).key = key) (Ready s.objects)
      (fun fs prog => Works (s.path key) fs prog) (fun fs prog => ∃ q ∈ s.objects, q ≠ s.path key ∧
        Works q fs prog)
      (s.world calls fs sched) (s.alone calls (fs.cell (s.path key)) key sched) := by
  have hown : ∀ i, decide ((calls i).key = key) = true → Works (s.path key) fs (s.prog (calls i)) := by
    intro i hi
    rw [← of_decide_eq_true hi]
    exact works_prog hbase hroot (hplanned i) fs
  have hother : ∀ i, decide ((calls i).key = key) = false →
      ∃ q ∈ s.objects, q ≠ s.path key ∧ Works q fs (s.prog (calls i)) := by
    intro i hi
    refine ⟨s.path (calls i).key, ⟨_, hplanned i, rfl⟩, ?_, works_prog hbase hroot (hplanned i) fs⟩
    exact fun heq => of_decide_eq_false hi (path_injective heq)
  exact Config.run_purge (objects_separated _ (objects_unnested s) ⟨key, hkey, rfl⟩) hready hown hother sched

/-- In every run of uploads and deletions of planned objects, with any I/O faults: the calls on one object
get the replies, and leave the file, of the same calls alone on a single cell. No call on another object
and no directory makes a difference. -/
theorem planned_objects_independent (s : LocalStorage) (hbase : Absolute s.basePath)
    (hroot : s.basePath ≠ [0x2F])
    (calls : ι → Call) (hplanned : ∀ i, Planned (calls i).key) (fs : FileSystem) (hready : Ready s.objects fs)
    (sched : List (ι × Env)) (key : GoString) (hkey : Planned key) :
    let w := s.world calls fs sched
    let alone := s.alone calls (fs.cell (s.path key)) key sched
    alone.store = w.store.cell (s.path key) ∧ (∀ i, (calls i).key = key → alone.calls i = w.calls i) ∧
      alone.log.map Entry.deed = (w.log.filter fun x => (calls x.caller).key = key).map Entry.deed := by
  have hpurged := alone_purged hbase hroot hplanned hready hkey sched
  refine ⟨hpurged.store, ?_, hpurged.deeds⟩
  intro i hi
  exact hpurged.calls i (decide_eq_true hi)

end Runs

section Stored
variable {ι : Type} {log : List (Entry ι Op Reply Env FileCell)} {c c' : FileCell} {p : Names}

section Replies
variable {env : Env} {n offset : ℕ} {data : GoString}

theorem write_replied (h : handleCell env (.write p n offset data) c = (.ok (), c')) :
    c' = c.write n offset data := by
  obtain ⟨fault⟩ := env
  cases fault with
  | none => exact (Prod.mk.inj h).2.symm
  | some m => exact nomatch (Prod.mk.inj h).1

/-- A file that could be opened is there, and empty. -/
theorem create_replied (h : handleCell env (.create p) c = (.ok n, c')) :
    c'.node = .file n ∧ c'.contents n = [] := by
  obtain ⟨fault⟩ := env
  cases fault with
  | some m => exact nomatch (Prod.mk.inj h).1
  | none =>
    have hcreate : c.create = (.ok n, c') := h
    unfold FileCell.create at hcreate
    cases hnode : c.node with
    | dir =>
      rw [hnode] at hcreate
      exact nomatch (Prod.mk.inj hcreate).1
    | file m =>
      rw [hnode] at hcreate
      cases hcreate
      exact ⟨rfl, Function.update_self _ _ _⟩
    | absent =>
      rw [hnode] at hcreate
      cases hcreate
      exact ⟨rfl, Function.update_self _ _ _⟩

/-- A close that fails may have lost the end of the file. -/
theorem close_replied {reply : Except Errno Unit} (h : handleCell env (.close p n) c = (reply, c')) :
    c'.node = c.node ∧ c'.contents n <+: c.contents n ∧ ((∃ e, reply = .error e) ∨ c' = c) := by
  obtain ⟨fault⟩ := env
  cases fault with
  | none =>
    have hsame : c = c' := (Prod.mk.inj h).2
    rw [hsame]
    exact ⟨rfl, List.prefix_refl _, .inr rfl⟩
  | some m =>
    obtain ⟨rfl, rfl⟩ := Prod.mk.inj h
    refine ⟨rfl, ?_, .inl ⟨_, rfl⟩⟩
    rw [FileCell.contents_cutOff]
    exact List.take_prefix m _

end Replies

/-- A write at the end of a file appends. -/
theorem contents_write_end (c : FileCell) (n : ℕ) (data : GoString) :
    (c.write n (c.contents n).length data).contents n = c.contents n ++ data := by
  unfold FileCell.write
  dsimp only
  rw [Function.update_self, List.take_length, Nat.sub_self, List.replicate_zero, List.append_nil,
    List.drop_eq_nil_of_le (Nat.le_add_right _ _), List.append_nil]

/-- The next operation of a call that runs alone. -/
theorem next_of_returns {α : Type} {e : Op} {k : Reply e → Prog Op Reply α} {a : α}
    (hexec : Exec handleCell c log c') (hret : (Prog.op e k).Returns (log.map Entry.act) a) :
    ∃ x log' reply, log = x :: log' ∧ x.act = ⟨e, reply⟩ ∧ handleCell x.env e c = (reply, x.post) ∧
      Exec handleCell x.post log' c' ∧ (k reply).Returns (log'.map Entry.act) a := by
  obtain ⟨reply, es, hes, hrest⟩ := Prog.returns_op.mp hret
  cases log with
  | nil => cases hes
  | cons x log =>
    obtain ⟨hact, rfl⟩ := List.cons.inj hes
    obtain ⟨rfl, hvalid, hexec⟩ := hexec
    exact ⟨x, log, reply, rfl, hact, hvalid.handle hact, hexec, hrest⟩

/-- The chunks that a successful copy has written, one after the other. -/
theorem copied {n : ℕ} {fails : Bool} {chunks : List GoString} (hexec : Exec handleCell c log c')
    (hret : (copy p n fails (c.contents n).length chunks).Returns (log.map Entry.act) (.ok ())) :
    c'.node = c.node ∧ c'.contents n = c.contents n ++ chunks.flatten ∧ fails = false := by
  induction chunks generalizing c log with
  | nil =>
    obtain ⟨hnil, hfails⟩ := Prog.returns_ret.mp hret
    rw [List.map_eq_nil_iff.mp hnil] at hexec
    cases hexec
    refine ⟨rfl, by simp, ?_⟩
    cases fails with
    | false => rfl
    | true => cases hfails
  | cons chunk chunks ih =>
    obtain ⟨x, log', reply, -, -, hrun, hexec', hrest⟩ := next_of_returns hexec hret
    cases reply with
    | error e => exact nomatch (Prog.returns_ret.mp hrest).2
    | ok _ =>
      have hpost := write_replied hrun
      have hcontents := contents_write_end c n chunk
      rw [← hpost] at hcontents
      have hlen : (c.contents n).length + chunk.length = (x.post.contents n).length := by
        rw [hcontents, List.length_append]
      have hcopy : (copy p n fails ((c.contents n).length + chunk.length) chunks).Returns
        (log'.map Entry.act) (.ok ()) :=
        hrest
      rw [hlen] at hcopy
      obtain ⟨hnode, hread, hfails⟩ := ih hexec' hcopy
      refine ⟨?_, ?_, hfails⟩
      · rw [hnode, hpost, FileCell.node_write]
      · rw [hread, hcontents, List.flatten_cons, List.append_assoc]

def closeFailed : (Σ op : Op, Reply op) → Bool
  | ⟨.close _ _, .error _⟩ => true
  | _ => false

/-- No `Close` in the log has failed. -/
def ClosedWell {σ : Type} (log : List (Entry ι Op Reply Env σ)) : Prop := ∀ x ∈ log, closeFailed x.act = false

/-- The end of an upload, whatever its result. -/
theorem closed {n : ℕ} {r r' : Except UploadErr Unit} (hexec : Exec handleCell c log c')
    (hret : (Prog.op (Op.close p n) fun _ => .ret r).Returns (log.map Entry.act) r') :
    r = r' ∧ c'.node = c.node ∧ c'.contents n <+: c.contents n ∧ (ClosedWell log → c' = c) := by
  obtain ⟨x, log', reply, rfl, hact, hrun, hexec', hrest⟩ := next_of_returns hexec hret
  obtain ⟨hnil, hr⟩ := Prog.returns_ret.mp hrest
  rw [List.map_eq_nil_iff.mp hnil] at hexec'
  have hpost : x.post = c' := hexec'
  rw [hpost] at hrun
  obtain ⟨hnode, hread, hlost⟩ := close_replied hrun
  refine ⟨hr, hnode, hread, ?_⟩
  intro hwell
  rcases hlost with ⟨e, rfl⟩ | hsame
  · have hfailed := hwell x List.mem_cons_self
    rw [hact] at hfailed
    cases hfailed
  · exact hsame

/-- The file that a successful upload has left, if nobody else was there. -/
theorem stored {source : Source} (hexec : Exec handleCell c log c')
    (hret : (store p source).Returns (log.map Entry.act) (.ok ())) :
    ∃ n, c'.node = .file n ∧ source.fails = false ∧ c'.contents n <+: source.chunks.flatten ∧
      (ClosedWell log → c'.contents n = source.chunks.flatten) := by
  obtain ⟨x, log₁, made, rfl, -, -, hexec₁, hret₁⟩ := next_of_returns hexec hret
  cases made with
  | error e => exact nomatch (Prog.returns_ret.mp hret₁).2
  | ok _ =>
    obtain ⟨y, log₂, created, rfl, -, hrun, hexec₂, hret₂⟩ := next_of_returns hexec₁ hret₁
    cases created with
    | error e => exact nomatch (Prog.returns_ret.mp hret₂).2
    | ok n =>
      obtain ⟨hnode, hempty⟩ := create_replied hrun
      have hopen : (copyAndClose p n source).Returns (log₂.map Entry.act) (.ok ()) := hret₂
      obtain ⟨r, es₁, es₂, hes, hcopy, hclose⟩ := Prog.returns_bind.mp hopen
      obtain ⟨l₁, l₂, rfl, rfl, rfl⟩ := List.map_eq_append_iff.mp hes
      obtain ⟨c₁, hexec₃, hexec₄⟩ := hexec₂.of_append
      obtain ⟨rfl, hnode₂, hread₂, hwell⟩ := closed hexec₄ hclose
      have hzero : 0 = (y.post.contents n).length := by rw [hempty, List.length_nil]
      rw [hzero] at hcopy
      obtain ⟨hnode₁, hread₁, hfails⟩ := copied hexec₃ hcopy
      rw [hempty, List.nil_append] at hread₁
      refine ⟨n, ?_, hfails, ?_, ?_⟩
      · rw [hnode₂, hnode₁, hnode]
      · rw [← hread₁]
        exact hread₂
      · intro hall
        rw [hwell fun z hz => hall z (by simp [hz]), hread₁]

end Stored

section Samples

/-- A disk with nothing on it. -/
def blank : FileSystem := ⟨fun _ => ⟨.absent, 0, fun _ => []⟩, []⟩

theorem ready_blank (objects : Set Names) : Ready objects blank := ⟨nofun, nofun, nofun⟩

theorem planned_of_plan {U : CaseTables} {mime : Files.ParseMediaType} {clock : Time} {uuid key : GoString}
    {policy : Files.UploadPolicy} {req : Files.UploadRequest}
    (h : (policy.plan U mime clock uuid req).toOption.map Files.Object.objectKey = some key) :
    Planned key := by
  cases hplan : policy.plan U mime clock uuid req with
  | error e =>
    rw [hplan] at h
    cases h
  | ok object =>
    rw [hplan] at h
    exact ⟨U, mime, clock, uuid, policy, req, object, hplan, Option.some.inj h⟩

def sampleStorage : LocalStorage := ⟨lit "/srv/data", lit "/static"⟩

theorem sampleStorage_base : Absolute sampleStorage.basePath := ⟨by decide +kernel, by decide +kernel⟩

def sampleKey (name : String) : GoString :=
  lit "files/tenants/t1/avatar/2000/02/29/" ++ lit name ++ lit ".png"

def samplePlan (name : String) : Except Files.UploadErr Files.Object :=
  Files.UploadPolicy.plan ⟨id, id⟩ some (Time.ofUnix 951782400) []
    ⟨0, [lit "image/png"], [], [], []⟩ ⟨lit "t1", lit "avatar", lit "image/png", 3, lit name, [],
      Time.ofUnix 951782400⟩

def sampleCalls : Bool → Call
  | false => .upload (sampleKey "a") ⟨[[1, 2], [3]], false⟩
  | true => .delete (sampleKey "b")

theorem sampleCalls_planned (i : Bool) : Planned (sampleCalls i).key := by
  cases i with
  | false =>
    exact planned_of_plan (by decide +kernel : (samplePlan "a").toOption.map _ = some (sampleKey "a"))
  | true => exact planned_of_plan (by decide +kernel : (samplePlan "b").toOption.map _ = some (sampleKey "b"))

/-- The deletion comes between the steps of the upload. -/
def sampleSchedule : List (Bool × Env) :=
  [(false, ⟨none⟩), (false, ⟨none⟩), (true, ⟨none⟩), (false, ⟨none⟩), (false, ⟨none⟩), (false, ⟨none⟩)]

end Samples

section Uploaded
variable {ι : Type} [DecidableEq ι]

theorem history_eq_map {ι : Type} [DecidableEq ι] {i : ι} {log : List (Entry ι Op Reply Env FileCell)}
    (h : ∀ x ∈ log, x.caller = i) : history i log = log.map Entry.act := by
  unfold history
  rw [List.filter_eq_self.mpr fun x hx => decide_eq_true (h x hx)]

/-- Where only `i` works on an object, every step on it is a step of `i`. -/
theorem deed_of_alone {s : LocalStorage} (hbase : Absolute s.basePath) (hroot : s.basePath ≠ [0x2F])
    {calls : ι → Call} (hplanned : ∀ i, Planned (calls i).key) {fs : FileSystem}
    (hready : Ready s.objects fs) {key : GoString} (hkey : Planned key) {i : ι}
    (honly : ∀ j ≠ i, (calls j).key ≠ key) {sched : List (ι × Env)}
    {x : Entry ι Op Reply Env FileCell} (hx : x ∈ (s.alone calls (fs.cell (s.path key)) key sched).log) :
    x.caller = i ∧ ∃ y ∈ (s.world calls fs sched).log, y.caller = i ∧ y.act = x.act := by
  have hpurged := alone_purged hbase hroot hplanned hready hkey sched
  have hdeed : x.deed ∈ (s.alone calls (fs.cell (s.path key)) key sched).log.map Entry.deed :=
    List.mem_map_of_mem hx
  rw [hpurged.deeds] at hdeed
  obtain ⟨y, hy, hsame⟩ := List.mem_map.mp hdeed
  obtain ⟨hylog, hykey⟩ := List.mem_filter.mp hy
  have hcaller : y.caller = i := by
    by_contra hne
    exact honly _ hne (of_decide_eq_true hykey)
  have hxy : y.caller = x.caller := congrArg Prod.fst hsame
  exact ⟨hxy.symm.trans hcaller, y, hylog, hcaller, congrArg Prod.snd hsame⟩

/-- In every run, with any I/O faults: when the upload of a planned object returns a URL, its file holds what
the reader gave and nothing else, whatever uploads and deletions of other objects came between its steps; if
its `Close` has failed, which the code does not look at, it may hold a first part only. -/
theorem upload_stored (s : LocalStorage) (hbase : Absolute s.basePath) (hroot : s.basePath ≠ [0x2F])
    (calls : ι → Call) (hplanned : ∀ i, Planned (calls i).key) (fs : FileSystem) (hready : Ready s.objects fs)
    (sched : List (ι × Env)) (i : ι) (key : GoString) (source : Source) (hcall : calls i = .upload key source)
    (honly : ∀ j ≠ i, (calls j).key ≠ key) (url : GoString)
    (hret : (s.world calls fs sched).Returned i (.ok url)) :
    url = s.baseURL ++ 0x2F :: key ∧ source.fails = false ∧
      ∃ n, ((s.world calls fs sched).store.cell (s.path key)).node = .file n ∧
        ((s.world calls fs sched).store.cell (s.path key)).contents n <+: source.chunks.flatten ∧
        (ClosedWell ((s.world calls fs sched).log.filter (·.caller = i)) →
          ((s.world calls fs sched).store.cell (s.path key)).contents n = source.chunks.flatten) := by
  have hi : (calls i).key = key := by
    rw [hcall]
    rfl
  have hkey : Planned key := hi ▸ hplanned i
  have hpurged := alone_purged hbase hroot hplanned hready hkey sched
  have hsound : (s.alone calls (fs.cell (s.path key)) key sched).Sound handleCell (fun i => s.prog (calls i))
      (fs.cell (s.path key)) := Config.run_sound _ _ _ _
  have hdeeds : ∀ x ∈ (s.alone calls (fs.cell (s.path key)) key sched).log,
      x.caller = i ∧ ∃ y ∈ (s.world calls fs sched).log, y.caller = i ∧ y.act = x.act :=
    fun x hx => deed_of_alone hbase hroot hplanned hready hkey honly hx
  have halone : (s.alone calls (fs.cell (s.path key)) key sched).Returned i (.ok url) := by
    unfold Config.Returned at hret ⊢
    rw [hpurged.calls i (decide_eq_true hi)]
    exact hret
  have hreturns := hsound.returns halone
  rw [history_eq_map fun x hx => (hdeeds x hx).1, hcall] at hreturns
  have hprog : s.prog (.upload key source) = s.upload key source := rfl
  rw [hprog, upload_planned hbase hroot hkey] at hreturns
  obtain ⟨r, es, es', hes, hstore, hlast⟩ := Prog.returns_bind.mp hreturns
  obtain ⟨rfl, hr⟩ := Prog.returns_ret.mp hlast
  rw [List.append_nil] at hes
  rw [← hes] at hstore
  cases r with
  | error e => cases hr
  | ok _ =>
    obtain ⟨n, hnode, hfails, hpart, hwhole⟩ := stored hsound.exec hstore
    rw [hpurged.store] at hnode hpart hwhole
    refine ⟨(Except.ok.inj hr).symm, hfails, n, hnode, hpart, ?_⟩
    intro hwell
    apply hwhole
    intro x hx
    obtain ⟨-, y, hy, hcaller, hsame⟩ := hdeeds x hx
    rw [← hsame]
    exact hwell y (List.mem_filter.mpr ⟨hy, decide_eq_true hcaller⟩)

end Uploaded

theorem sampleCalls_independent :
    (sampleStorage.alone sampleCalls (blank.cell (sampleStorage.path (sampleKey "a"))) (sampleKey "a")
      sampleSchedule).store =
      (sampleStorage.world sampleCalls blank sampleSchedule).store.cell
        (sampleStorage.path (sampleKey "a")) :=
  (planned_objects_independent sampleStorage sampleStorage_base
    (by decide +kernel) sampleCalls sampleCalls_planned blank
    (ready_blank _) sampleSchedule (sampleKey "a") (sampleCalls_planned false)).1

theorem sampleLog_closedWell :
    ClosedWell ((sampleStorage.world sampleCalls blank sampleSchedule).log.filter (·.caller = false)) := by
  unfold ClosedWell
  decide +kernel

theorem sampleUpload_stored :
    ∃ n, ((sampleStorage.world sampleCalls blank sampleSchedule).store.cell
        (sampleStorage.path (sampleKey "a"))).node = .file n ∧
      ((sampleStorage.world sampleCalls blank sampleSchedule).store.cell
        (sampleStorage.path (sampleKey "a"))).contents n = [1, 2, 3] := by
  obtain ⟨-, -, n, hnode, -, hcontents⟩ := upload_stored sampleStorage sampleStorage_base (by decide +kernel)
    sampleCalls sampleCalls_planned blank (ready_blank _) sampleSchedule false (sampleKey "a")
      ⟨[[1, 2], [3]], false⟩
    rfl (by intro j hj; cases j with | false => exact absurd rfl hj | true => decide +kernel)
    (lit "/static" ++ 0x2F :: sampleKey "a") (by decide +kernel)
  exact ⟨n, hnode, hcontents sampleLog_closedWell⟩

end SynapseGo.Storage
