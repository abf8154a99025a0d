import SynapseGo.Outbox.Memory

/-! The outbox over whole runs: a record is shown from its acceptance until it is marked, and never after. -/
namespace SynapseGo.Outbox
open SynapseGo.Go SynapseGo.Concurrency SynapseGo.Database

section Records
variable {ι : Type} {s t : MemoryStore} {l : List (Event ι)} {x : Event ι} {id : GoString}

/-- A record never leaves the store. -/
theorem present_of_exec (hl : Exec handle s l t) (hs : s.get id ≠ none) : t.get id ≠ none := by
  refine hl.invariant (P := fun s => s.get id ≠ none) ?_ hs
  intro x _ hx hpre
  rcases get_post_cases hx id with hsame | ⟨r, -, -, -, hpost⟩ | ⟨-, r, -, hpost⟩
  · rw [hsame]
    exact hpre
  · rw [hpost]
    exact Option.some_ne_none _
  · rw [hpost]
    exact Option.some_ne_none _

/-- A record that nobody marks stays as it is. -/
theorem get_of_unmarked (hl : Exec handle s l t) (hunmarked : ∀ z ∈ l, ¬ Marks z id) {r : OutboxRecord}
    (hs : s.get id = some r) : t.get id = some r := by
  refine hl.invariant (P := fun s => s.get id = some r) ?_ hs
  intro x hmem hx hpre
  rcases get_post_cases hx id with hsame | ⟨r', -, -, hfree, -⟩ | ⟨hmark, -⟩
  · rw [hsame]
    exact hpre
  · rw [hpre] at hfree
    cases hfree
  · exact absurd hmark (hunmarked x hmem)

/-- The record under the id has been dispatched. -/
def Dispatched (id : GoString) (s : MemoryStore) : Prop :=
  ∃ r, s.get id = some r ∧ r.dispatchedAt.isNone = false

theorem dispatched_of_exec (hl : Exec handle s l t) (hs : Dispatched id s) : Dispatched id t := by
  refine hl.invariant (P := Dispatched id) ?_ hs
  rintro x _ hx ⟨r, hr, hat⟩
  rcases get_post_cases hx id with hsame | ⟨r', -, -, hfree, -⟩ | ⟨-, r', -, hpost⟩
  · exact ⟨r, hsame.trans hr, hat⟩
  · rw [hr] at hfree
    cases hfree
  · exact ⟨_, hpost, rfl⟩

/-- Marking a record that is there succeeds. -/
theorem mark_of_present (hx : x.Valid handle) (hmark : Marks x id) (hpre : x.pre.get id ≠ none) :
    x.act = ⟨.markDispatched id, none⟩ ∧ Dispatched id x.post := by
  obtain ⟨i, env, ⟨op, reply⟩, pre, post⟩ := x
  change op = .markDispatched id at hmark
  subst hmark
  rcases MemoryStore.markDispatched_cases hx with ⟨-, hnone, -⟩ | ⟨r, rfl, -, hget⟩
  · exact absurd hnone hpre
  · refine ⟨rfl, r.dispatched env.now, ?_, rfl⟩
    rw [hget, if_pos rfl]

/-- Whoever marks a record that is there succeeds, and it stays dispatched. -/
theorem dispatched_of_marked (hl : Exec handle s l t) (hs : s.get id ≠ none) {z : Event ι} (hz : z ∈ l)
    (hmark : Marks z id) : z.act = ⟨.markDispatched id, none⟩ ∧ Dispatched id t := by
  obtain ⟨a, b, rfl⟩ := List.append_of_mem hz
  obtain ⟨hbefore, hvalid, hafter⟩ := hl.split
  obtain ⟨hact, hdone⟩ := mark_of_present hvalid hmark (present_of_exec hbefore hs)
  exact ⟨hact, dispatched_of_exec hafter hdone⟩

theorem accepts_get (hx : x.Valid handle) {r : OutboxRecord} (ha : Accepts x r) :
    x.pre.get r.id = none ∧ x.post.get r.id = some (r.filled x.env.now) := by
  have hhandle : MemoryStore.enqueue x.env.now (some r) x.pre = (none, x.post) := hx.handle ha
  rcases MemoryStore.enqueue_cases hhandle with ⟨e, herr, -⟩ | ⟨r', hr', -, hfree, hget⟩
  · cases herr
  · cases hr'
    refine ⟨hfree, ?_⟩
    rw [hget, if_pos rfl]

/-- A snapshot changes nothing, and has of each id what is pending of it. -/
theorem shows_filter (hx : x.Valid handle) {snapshot : List OutboxRecord} (hshows : Shows x snapshot)
    (id : GoString) :
    snapshot.filter (fun rec => rec.id = id) =
      ((x.pre.get id).filter fun rec => rec.dispatchedAt.isNone).toList := by
  have hhandle := hx.handle hshows
  have hsnapshot : MemoryStore.pending x.env.order x.pre = snapshot := (Prod.mk.inj hhandle).1
  have hperm : (snapshot.filter fun rec => rec.id = id).Perm
      ((x.pre.rows.filter fun rec => rec.id = id).filter fun rec => rec.dispatchedAt.isNone) := by
    rw [← hsnapshot, List.filter_comm]
    exact (x.env.order_perm _).filter _
  rw [Keyed.filter_key] at hperm
  cases hget : x.pre.get id with
  | none =>
    rw [hget] at hperm
    exact List.perm_nil.mp hperm
  | some r =>
    rw [hget] at hperm
    cases hat : r.dispatchedAt.isNone with
    | true =>
      rw [Option.filter_some, if_pos hat]
      rw [Option.toList_some, List.filter_singleton, hat] at hperm
      exact List.perm_singleton.mp hperm
    | false =>
      rw [Option.filter_some, if_neg (by simp [hat])]
      rw [Option.toList_some, List.filter_singleton, hat] at hperm
      exact List.perm_nil.mp hperm

theorem mem_snapshot (hx : x.Valid handle) {snapshot : List OutboxRecord} (hshows : Shows x snapshot)
    {rec : OutboxRecord} : rec ∈ snapshot ↔ rec ∈ x.pre.rows ∧ rec.dispatchedAt.isNone = true := by
  have hsnapshot : MemoryStore.pending x.env.order x.pre = snapshot := (Prod.mk.inj (hx.handle hshows)).1
  rw [← hsnapshot, MemoryStore.pending, (x.env.order_perm _).mem_iff, List.mem_filter]

end Records

section Calls

/-- Only an `Enqueue` call enqueues, and its own record. -/
theorem call_of_enqueue {call : Call} {es es' : List (Σ op, Reply op)} {rec : Option OutboxRecord}
    {err : Option OutboxError} {q : Prog Op Reply Outcome}
    (h : call.prog.Path (es ++ ⟨.enqueue rec, err⟩ :: es') q) : call = .enqueue rec := by
  have hloop : ∀ (l : List OutboxRecord) (es : List (Σ op, Reply op)),
      ¬ (dispatchAll l).Path (es ++ ⟨.enqueue rec, err⟩ :: es') q := by
    intro l
    induction l with
    | nil => exact fun es hpath => hpath.ret_split
    | cons r l ih =>
      intro es hpath
      rcases hpath.op_split with ⟨-, reply, hact⟩ | ⟨reply, es₁, -, hrest⟩
      · cases hact
      · cases reply with
        | some e => exact hrest.ret_split
        | none => exact ih es₁ hrest
  cases call with
  | enqueue rec' =>
    obtain ⟨-, reply, hact⟩ := Prog.Path.single_split h
    cases hact
    rfl
  | pending =>
    obtain ⟨-, reply, hact⟩ := Prog.Path.single_split h
    cases hact
  | markDispatched id =>
    obtain ⟨-, reply, hact⟩ := Prog.Path.single_split h
    cases hact
  | dispatch =>
    rcases Prog.Path.op_split h with ⟨-, reply, hact⟩ | ⟨reply, es₁, -, hrest⟩
    · cases hact
    · exact (hloop reply es₁ hrest).elim

/-- The loop of `Dispatch` ends with the error of one of its marks, or has marked every record. -/
theorem dispatchAll_returns {l : List OutboxRecord} {es : List (Σ op, Reply op)} {out : Outcome}
    (h : (dispatchAll l).Returns es out) :
    (∃ rec ∈ l, ∃ e : OutboxError, (⟨.markDispatched rec.id, some e⟩ : Σ op, Reply op) ∈ es) ∨
      (out = .done none ∧ ∀ rec ∈ l, (⟨.markDispatched rec.id, none⟩ : Σ op, Reply op) ∈ es) := by
  induction l generalizing es with
  | nil =>
    obtain ⟨-, rfl⟩ := Prog.returns_ret.mp h
    exact Or.inr ⟨rfl, by simp⟩
  | cons rec l ih =>
    obtain ⟨reply, es', rfl, hrest⟩ := Prog.returns_op.mp h
    cases reply with
    | some e => exact Or.inl ⟨rec, List.mem_cons_self, e, List.mem_cons_self⟩
    | none =>
      rcases ih hrest with ⟨rec', hrec', e, he⟩ | ⟨hout, hall⟩
      · exact Or.inl ⟨rec', List.mem_cons_of_mem _ hrec', e, List.mem_cons_of_mem _ he⟩
      · refine Or.inr ⟨hout, ?_⟩
        rw [List.forall_mem_cons]
        exact ⟨List.mem_cons_self, fun rec' hrec' => List.mem_cons_of_mem _ (hall rec' hrec')⟩

end Calls

section Runs
variable {ι : Type}

/-- No id is accepted twice. -/
def AcceptsOnce (log : List (Event ι)) : Prop :=
  log.Pairwise fun x y => ∀ r r', Accepts x r → Accepts y r' → r.id ≠ r'.id

/-- From its acceptance on, snapshots have a record once as it was enqueued until it is marked, and not
after that. -/
def ShownUntilMarked (log : List (Event ι)) : Prop :=
  ∀ a x m y b r snapshot, log = a ++ x :: (m ++ y :: b) → Accepts x r → Shows y snapshot →
    ((∀ z ∈ m, ¬ Marks z r.id) → snapshot.filter (fun rec => rec.id = r.id) = [r.filled x.env.now]) ∧
      ((∃ z ∈ m, Marks z r.id) → snapshot.filter (fun rec => rec.id = r.id) = [])

/-- A refused step leaves the store. -/
def RefusalsIdle (log : List (Event ι)) : Prop :=
  ∀ x ∈ log, ∀ e : OutboxError, (∃ rec, x.act = ⟨.enqueue rec, some e⟩) ∨
    (∃ id, x.act = ⟨.markDispatched id, some e⟩) → x.post = x.pre

variable {s t : MemoryStore} {log : List (Event ι)}

theorem acceptsOnce_of_exec (hl : Exec handle s log t) : AcceptsOnce log := by
  rw [AcceptsOnce, pairwise_iff_split]
  intro a x b hlog y hy r r' hx hy' hid
  obtain ⟨b₁, b₂, rfl⟩ := List.append_of_mem hy
  rw [hlog] at hl
  obtain ⟨-, hxv, hb⟩ := hl.split
  obtain ⟨hbetween, hyv, -⟩ := hb.split
  have hpresent : x.post.get r.id ≠ none := by
    rw [(accepts_get hxv hx).2]
    exact Option.some_ne_none _
  have hstill := present_of_exec hbetween hpresent
  rw [hid] at hstill
  exact hstill (accepts_get hyv hy').1

theorem shownUntilMarked_of_exec (hl : Exec handle s log t)
    (hnew : ∀ x ∈ log, ∀ r, Accepts x r → r.dispatchedAt = none) : ShownUntilMarked log := by
  intro a x m y b r snapshot hlog hx hy
  have hfresh : r.dispatchedAt = none := hnew x (mem_of_split hlog) r hx
  rw [hlog] at hl
  obtain ⟨-, hxv, hrest⟩ := hl.split
  obtain ⟨hm, hyv, -⟩ := hrest.split
  have hstored := (accepts_get hxv hx).2
  rw [shows_filter hyv hy]
  constructor
  · intro hunmarked
    rw [get_of_unmarked hm hunmarked hstored, Option.filter_some, if_pos (by simp [hfresh])]
    rfl
  · rintro ⟨z, hz, hmark⟩
    have hpresent : x.post.get r.id ≠ none := by
      rw [hstored]
      exact Option.some_ne_none _
    obtain ⟨-, r', hr', hat⟩ := dispatched_of_marked hm hpresent hz hmark
    rw [hr', Option.filter_some, if_neg (by simp [hat])]
    rfl

theorem refusalsIdle_of_exec (hl : Exec handle s log t) : RefusalsIdle log := by
  rintro x hx e (⟨rec, hact⟩ | ⟨id, hact⟩)
  · have hhandle : MemoryStore.enqueue x.env.now rec x.pre = (some e, x.post) := (hl.valid hx).handle hact
    rcases MemoryStore.enqueue_cases hhandle with ⟨-, -, hpost⟩ | ⟨r, -, hnone, -⟩
    · exact hpost
    · cases hnone
  · have hhandle : MemoryStore.markDispatched x.env.now id x.pre = (some e, x.post) :=
      (hl.valid hx).handle hact
    rcases MemoryStore.markDispatched_cases hhandle with ⟨-, -, hpost⟩ | ⟨r, hnone, -⟩
    · exact hpost
    · cases hnone

/-- A snapshot's record can be marked at any later time. -/
theorem mark_after_snapshot {x z : Event ι} {m : List (Event ι)} (hx : x.Valid handle)
    {snapshot : List OutboxRecord}
    (hshows : Shows x snapshot) {rec : OutboxRecord} (hrec : rec ∈ snapshot) (hm : Exec handle x.post m t)
    (hz : z ∈ m)
    (hmark : Marks z rec.id) : z.act = ⟨.markDispatched rec.id, none⟩ ∧ Dispatched rec.id t := by
  have hpost : x.pre = x.post := (Prod.mk.inj (hx.handle hshows)).2
  have hstored : x.post.get rec.id = some rec := by
    rw [← hpost, Keyed.get_eq_some]
    exact ⟨((mem_snapshot hx hshows).mp hrec).1, rfl⟩
  have hpresent : x.post.get rec.id ≠ none := by
    rw [hstored]
    exact Option.some_ne_none _
  exact dispatched_of_marked hm hpresent hz hmark

/-- Without a new record, whatever is pending was pending before. -/
theorem pending_of_exec (hl : Exec handle s log t) (hnone : ∀ z ∈ log, ∀ r, ¬ Accepts z r)
    {rec : OutboxRecord}
    (hrec : rec ∈ t.rows) (hpending : rec.dispatchedAt.isNone = true) : rec ∈ s.rows := by
  have hstep : ∀ z ∈ log, z.Valid handle →
      (∀ rec ∈ z.pre.rows, rec.dispatchedAt.isNone = true → rec ∈ s.rows) →
      ∀ rec ∈ z.post.rows, rec.dispatchedAt.isNone = true → rec ∈ s.rows := by
    intro z hz hzv hpre rec hrec hpending
    have hget : z.post.get rec.id = some rec := Keyed.get_eq_some.mpr ⟨hrec, rfl⟩
    rcases get_post_cases hzv rec.id with hsame | ⟨r, haccept, -⟩ | ⟨-, r, -, hpost⟩
    · rw [hsame] at hget
      exact hpre rec (Keyed.get_eq_some.mp hget).1 hpending
    · exact absurd haccept (hnone z hz r)
    · rw [hpost] at hget
      cases hget
      cases hpending
  exact hl.invariant (P := fun u => ∀ rec ∈ u.rows, rec.dispatchedAt.isNone = true → rec ∈ s.rows) hstep
    (fun rec hrec _ => hrec) rec hrec hpending

end Runs

section Dispatch
variable {ι : Type} [DecidableEq ι] {calls : ι → Call} {s : MemoryStore}
    {c : Config ι Op Reply Env MemoryStore Outcome}

/-- A `Dispatch` that has returned took a snapshot in its first step and has marked every record of it. -/
theorem dispatch_marks_all (hc : Config.Sound handle (fun i => (calls i).prog) s c) {i : ι}
    (hcall : calls i = .dispatch) {out : Outcome} (hout : c.Returned i out) {a m : List (Event ι)}
    {x : Event ι} (hlog : c.log = a ++ x :: m) (hcaller : x.caller = i) (hfirst : history i a = []) :
    out = .done none ∧ ∃ snapshot, Shows x snapshot ∧ ∀ rec ∈ snapshot, ∃ z ∈ m, Marks z rec.id := by
  have hreturns := hc.returns hout
  rw [hcall] at hreturns
  obtain ⟨snapshot, es, hes, hloop⟩ := Prog.returns_op.mp hreturns
  subst hcaller
  rw [hlog, history_append, hfirst, List.nil_append, history_cons_self] at hes
  obtain ⟨hact, hm⟩ := List.cons.inj hes
  have hexec := hc.exec
  rw [hlog] at hexec
  obtain ⟨-, hx, hexec⟩ := hexec.split
  rcases dispatchAll_returns hloop with ⟨rec, hrec, e, he⟩ | ⟨hdone, hall⟩
  · rw [← hm] at he
    obtain ⟨z, hz, -, hzact⟩ := mem_history.mp he
    have hmark : Marks z rec.id := by rw [Marks, hzact]
    have hok := (mark_after_snapshot hx hact hrec hexec hz hmark).1
    rw [hzact] at hok
    cases hok
  · refine ⟨hdone, snapshot, hact, ?_⟩
    intro rec hrec
    have hmem := hall rec hrec
    rw [← hm] at hmem
    obtain ⟨z, hz, -, hzact⟩ := mem_history.mp hmem
    exact ⟨z, hz, by rw [Marks, hzact]⟩

theorem dispatch_succeeds (hc : Config.Sound handle (fun i => (calls i).prog) s c) {i : ι}
    (hcall : calls i = .dispatch) {out : Outcome} (hout : c.Returned i out) : out = .done none := by
  have hreturns := hc.returns hout
  rw [hcall] at hreturns
  obtain ⟨snapshot, es, hes, -⟩ := Prog.returns_op.mp hreturns
  obtain ⟨a, x, b, hlog, hcaller, -, ha, -⟩ := exists_of_history_cons hes
  exact (dispatch_marks_all hc hcall hout hlog hcaller ha).1

theorem dispatch_leaves_nothing (hc : Config.Sound handle (fun i => (calls i).prog) s c) {i : ι}
    (hcall : calls i = .dispatch) {out : Outcome} (hout : c.Returned i out) {a m : List (Event ι)}
    {x : Event ι} (hlog : c.log = a ++ x :: m) (hcaller : x.caller = i) (hfirst : history i a = [])
    (hnone : ∀ z ∈ m, ∀ r, ¬ Accepts z r) :
    c.store.rows.filter (fun rec => rec.dispatchedAt.isNone) = [] := by
  obtain ⟨-, snapshot, hshows, hmarks⟩ := dispatch_marks_all hc hcall hout hlog hcaller hfirst
  have hexec := hc.exec
  rw [hlog] at hexec
  obtain ⟨-, hx, hexec⟩ := hexec.split
  have hpost : x.pre = x.post := (Prod.mk.inj (hx.handle hshows)).2
  rw [List.filter_eq_nil_iff]
  intro rec hrec hpending
  -- It was pending when the snapshot was taken, so it has been marked since.
  have hbefore : rec ∈ x.pre.rows := by
    rw [hpost]
    exact pending_of_exec hexec hnone hrec hpending
  have hsnapshot : rec ∈ snapshot := (mem_snapshot hx hshows).mpr ⟨hbefore, hpending⟩
  obtain ⟨z, hz, hmark⟩ := hmarks rec hsnapshot
  obtain ⟨-, r, hr, hat⟩ := mark_after_snapshot hx hshows hsnapshot hexec hz hmark
  rw [Keyed.get_eq_some.mpr ⟨hrec, rfl⟩] at hr
  cases hr
  rw [hat] at hpending
  cases hpending

end Dispatch

/-- For any calls of any clients in any order: no record is lost or repeated, refusals change nothing, and
`Dispatch` never fails and, if nothing is enqueued meanwhile, leaves nothing pending. -/
theorem outbox_neither_loses_nor_repeats {ι : Type} [DecidableEq ι] (calls : ι → Call)
    (hnew : ∀ i r, calls i = .enqueue (some r) → r.dispatchedAt = none) (s : MemoryStore)
    (sched : List (ι × Env)) :
    let c := (Config.start (fun i => (calls i).prog) s).run handle sched
    AcceptsOnce c.log ∧ ShownUntilMarked c.log ∧ RefusalsIdle c.log ∧
      (∀ i out, calls i = .dispatch → c.Returned i out → out = .done none) ∧
      ∀ i a x m, calls i = .dispatch → c.log = a ++ x :: m → x.caller = i → history i a = [] →
        (∃ out, c.Returned i out) → (∀ z ∈ m, ∀ r, ¬ Accepts z r) →
        c.store.rows.filter (fun rec => rec.dispatchedAt.isNone) = [] := by
  intro c
  have hc : Config.Sound handle (fun i => (calls i).prog) s c := Config.run_sound handle _ s sched
  have haccepted : ∀ x ∈ c.log, ∀ r, Accepts x r → r.dispatchedAt = none := by
    intro x hx r haccept
    obtain ⟨a, b, hlog⟩ := List.append_of_mem hx
    have hpath := hc.path_split hlog
    rw [haccept] at hpath
    exact hnew x.caller r (call_of_enqueue hpath)
  refine ⟨acceptsOnce_of_exec hc.exec, shownUntilMarked_of_exec hc.exec haccepted,
    refusalsIdle_of_exec hc.exec, fun i out hcall hout => dispatch_succeeds hc hcall hout, ?_⟩
  rintro i a x m hcall hlog hcaller hfirst ⟨out, hout⟩ hnone
  exact dispatch_leaves_nothing hc hcall hout hlog hcaller hfirst hnone

/-- One client enqueues a record and another dispatches. -/
def sampleCalls : Bool → Call
  | false => .enqueue (some ⟨lit "e1", lit "t1", [], lit "created", [], Time.ofUnix 0, none, 0⟩)
  | true => .dispatch

def sampleEnv : Env := ⟨Time.ofUnix 5, fun l => l, fun l => List.Perm.refl l⟩

theorem sample_dispatched :
    (∀ i r, sampleCalls i = .enqueue (some r) → r.dispatchedAt = none) ∧
      let c := (Config.start (fun i => (sampleCalls i).prog) newMemoryStore).run handle
        [(false, sampleEnv), (true, sampleEnv), (true, sampleEnv)]
      c.store.rows.length = 1 ∧ c.store.rows.filter (fun rec => rec.dispatchedAt.isNone) = [] := by
  have hnew : ∀ i r, sampleCalls i = .enqueue (some r) → r.dispatchedAt = none := by
    intro i r h
    cases i <;> cases h
    rfl
  obtain ⟨-, -, -, -, hleft⟩ := outbox_neither_loses_nor_repeats sampleCalls hnew newMemoryStore
    [(false, sampleEnv), (true, sampleEnv), (true, sampleEnv)]
  refine ⟨hnew, rfl, hleft true [_] _ [_] rfl rfl rfl rfl ⟨_, rfl⟩ ?_⟩
  intro z hz r haccept
  rw [List.mem_singleton.mp hz] at haccept
  cases haccept

end SynapseGo.Outbox
