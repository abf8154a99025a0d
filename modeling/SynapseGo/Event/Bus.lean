import SynapseGo.Concurrency.Interleaving
import SynapseGo.Go.Slices
import SynapseGo.Go.Strings

/-! `event.Bus`. The mutex makes each critical section one step. A publisher takes the slice of handlers
there and then reads its elements without the lock, while subscribers append to the same array. Calls
that a handler makes on the bus are further calls of the interleaving. -/
namespace SynapseGo.Event
open SynapseGo.Go SynapseGo.Concurrency

variable {η : Type}

inductive Op (η : Type) where
  /-- The critical section of `Subscribe`. -/
  | append (eventType : GoString) (handler : η)
  /-- The critical section of `Publish` and of `PublishAsync`. -/
  | load (eventType : GoString)
  | element (handlers : Slice) (i : ℕ)
  /-- `h(ctx, payload)`. -/
  | call (handler : η)
  /-- `go func(fn)`; a panic of the handler is recovered there. -/
  | spawn (handler : η)

/-- A call of a handler reports whether it panics. -/
abbrev Reply : Op η → Type
  | .append _ _ => Unit
  | .load _ => Slice
  | .element _ _ => η
  | .call _ => Bool
  | .spawn _ => Unit

/-- The capacity that the runtime gives to a new array, and whether a handler panics. -/
structure Env where
  newCap : ℕ
  panics : Bool

structure Bus (η : Type) where
  heap : Heap η
  handlers : GoString → Slice

def new : Bus η := ⟨[], fun _ => .empty⟩

def handle [Inhabited η] : Handler (Op η) Reply Env (Bus η)
  | env, .append eventType handler, b =>
    let appended := (b.handlers eventType).append b.heap env.newCap handler
    ((), ⟨appended.2, Function.update b.handlers eventType appended.1⟩)
  | _, .load eventType, b => (b.handlers eventType, b)
  | _, .element handlers i, b => ((b.heap.array handlers.array).getD i default, b)
  | env, .call _, b => (env.panics, b)
  | _, .spawn _, b => ((), b)

inductive Outcome where
  | done
  | panicked
  deriving DecidableEq, Repr

/-- The loop of `Publish` from index `i`, with `n` handlers to go. -/
def callFrom (handlers : Slice) (i : ℕ) : ℕ → Prog (Op η) Reply Outcome
  | 0 => return .done
  | n + 1 => do
    let h : η ← Prog.perform (Op.element handlers i)
    let panics : Bool ← Prog.perform (Op.call h)
    if panics then return .panicked
    else callFrom handlers (i + 1) n

/-- The loop of `PublishAsync`. -/
def spawnFrom (handlers : Slice) (i : ℕ) : ℕ → Prog (Op η) Reply Outcome
  | 0 => return .done
  | n + 1 => do
    let h : η ← Prog.perform (Op.element handlers i)
    let _ ← Prog.perform (Op.spawn h)
    spawnFrom handlers (i + 1) n

def subscribe (eventType : GoString) (handler : η) : Prog (Op η) Reply Outcome := do
  let _ ← Prog.perform (Op.append eventType handler)
  return .done

def publish (eventType : GoString) : Prog (Op η) Reply Outcome := do
  let handlers : Slice ← Prog.perform (Op.load eventType)
  callFrom handlers 0 handlers.len

def publishAsync (eventType : GoString) : Prog (Op η) Reply Outcome := do
  let handlers : Slice ← Prog.perform (Op.load eventType)
  spawnFrom handlers 0 handlers.len

inductive Call (η : Type) where
  | subscribe (eventType : GoString) (handler : η)
  | publish (eventType : GoString)
  | publishAsync (eventType : GoString)
  deriving DecidableEq, Repr

def Call.prog : Call η → Prog (Op η) Reply Outcome
  | .subscribe eventType handler => Event.subscribe eventType handler
  | .publish eventType => Event.publish eventType
  | .publishAsync eventType => Event.publishAsync eventType

/-- Where a schedule leads the calls on a new bus. -/
def world {ι : Type} [DecidableEq ι] [Inhabited η] (calls : ι → Call η) (sched : List (ι × Env)) :
    Config ι (Op η) Reply Env (Bus η) Outcome :=
  (Config.start (fun i => (calls i).prog) new).run handle sched

abbrev Act (η : Type) := Σ op : Op η, Reply op

abbrev Step (ι η : Type) := Concurrency.Entry ι (Op η) Reply Env (Bus η)

/-- The handler that an operation hands over to. -/
def dispatches : Act η → Option η
  | ⟨.call handler, _⟩ => some handler
  | ⟨.spawn handler, _⟩ => some handler
  | _ => none

/-- The handlers a publisher has handed over to, in order. -/
def dispatched (es : List (Act η)) : List η := es.filterMap dispatches

/-- The handler that an operation subscribes to the event. -/
def subscribes (eventType : GoString) : Act η → Option η
  | ⟨.append eventType' handler, _⟩ => if eventType' = eventType then some handler else none
  | _ => none

/-- The handlers subscribed to the event in a part of a run, in order. -/
def subscribers {ι : Type} (eventType : GoString) (a : List (Step ι η)) : List η :=
  a.filterMap fun x => subscribes eventType x.act

section Paths
variable {es : List (Act η)} {q : Prog (Op η) Reply Outcome} {handlers : Slice} {i n : ℕ} {l : List η}

/-- What the loops read is the list `l`, from index `i` on. -/
def Reads (es : List (Act η)) (handlers : Slice) (i : ℕ) (l : List η) : Prop :=
  ∀ k h, k < l.length → (⟨.element handlers (i + k), h⟩ : Act η) ∈ es → l[k]? = some h

theorem Reads.head {h h₀ : η} (hr : Reads (⟨.element handlers i, h⟩ :: es) handlers i (h₀ :: l)) :
    h₀ = h := by
  have hfirst := hr 0 h (Nat.zero_lt_succ _) List.mem_cons_self
  exact Option.some.inj hfirst

theorem Reads.next {h₀ : η} {y z : Act η} (hr : Reads (y :: z :: es) handlers i (h₀ :: l)) :
    Reads es handlers (i + 1) l := by
  intro k h hlt hmem
  have hk : i + 1 + k = i + (k + 1) := by omega
  rw [hk] at hmem
  have hnext := hr (k + 1) h (Nat.succ_lt_succ hlt) (List.mem_cons_of_mem y (List.mem_cons_of_mem z hmem))
  rwa [List.getElem?_cons_succ] at hnext

/-- A loop over the list `l`: it hands over to its members in order, and stops early only on a panic. -/
def Loops (es : List (Act η)) (q : Prog (Op η) Reply Outcome) (l : List η) : Prop :=
  dispatched es <+: l ∧ (q = .ret .done → dispatched es = l)

/-- One round that has handed over. -/
theorem Loops.round {h : η} {y z : Act η} (hy : dispatches y = none) (hz : dispatches z = some h)
    (hl : Loops es q l) :
    Loops (y :: z :: es) q (h :: l) := by
  have hcons : dispatched (y :: z :: es) = h :: dispatched es := by
    unfold dispatched
    rw [List.filterMap_cons_none hy, List.filterMap_cons_some hz]
  unfold Loops
  rw [hcons]
  refine ⟨List.cons_prefix_cons.mpr ⟨rfl, hl.1⟩, fun hq => ?_⟩
  rw [hl.2 hq]

/-- A round that has not come to its hand-over, or whose handler has panicked. -/
theorem Loops.stopped (hes : dispatched es <+: l) (hq : q ≠ .ret .done) : Loops es q l :=
  ⟨hes, fun h => absurd h hq⟩

theorem callFrom_loops (h : (callFrom handlers i n).Path es q) (hl : l.length = n)
    (hr : Reads es handlers i l) :
    Loops es q l := by
  induction n generalizing i es l with
  | zero =>
    rw [List.length_eq_zero_iff.mp hl]
    cases h
    exact ⟨List.nil_prefix, fun _ => rfl⟩
  | succ n ih =>
    cases l with
    | nil => cases hl
    | cons h₀ l =>
      have hl' : l.length = n := Nat.succ.inj hl
      cases h with
      | nil => exact .stopped List.nil_prefix nofun
      | cons h =>
        have hfirst := hr.head
        subst hfirst
        cases h with
        | nil => exact .stopped List.nil_prefix nofun
        | @cons _ _ panics _ _ h =>
          cases panics with
          | true =>
            cases h
            refine .stopped ?_ nofun
            show [h₀] <+: h₀ :: l
            exact List.cons_prefix_cons.mpr ⟨rfl, List.nil_prefix⟩
          | false => exact .round rfl rfl (ih h hl' hr.next)

theorem spawnFrom_loops (h : (spawnFrom handlers i n).Path es q) (hl : l.length = n)
    (hr : Reads es handlers i l) :
    Loops es q l := by
  induction n generalizing i es l with
  | zero =>
    rw [List.length_eq_zero_iff.mp hl]
    cases h
    exact ⟨List.nil_prefix, fun _ => rfl⟩
  | succ n ih =>
    cases l with
    | nil => cases hl
    | cons h₀ l =>
      have hl' : l.length = n := Nat.succ.inj hl
      cases h with
      | nil => exact .stopped List.nil_prefix nofun
      | cons h =>
        have hfirst := hr.head
        subst hfirst
        cases h with
        | nil => exact .stopped List.nil_prefix nofun
        | cons h => exact .round rfl rfl (ih h hl' hr.next)

end Paths

/-- A split of a longer run: within the shorter one, or at its last step. -/
theorem split_snoc {T : Type} {a a₁ a₂ : List T} {x y : T} (h : a ++ [x] = a₁ ++ y :: a₂) :
    (a₂ = [] ∧ a₁ = a ∧ y = x) ∨ ∃ a₃, a₂ = a₃ ++ [x] ∧ a = a₁ ++ y :: a₃ := by
  rcases List.eq_nil_or_concat' a₂ with rfl | ⟨a₃, z, rfl⟩
  · obtain ⟨rfl, hx⟩ := List.append_inj' h rfl
    exact .inl ⟨rfl, rfl, (List.cons.inj hx).1.symm⟩
  · rw [← List.cons_append, ← List.append_assoc] at h
    obtain ⟨rfl, hx⟩ := List.append_inj' h rfl
    rw [(List.cons.inj hx).1]
    exact .inr ⟨a₃, rfl, rfl⟩

section Runs
variable {ι : Type} {a : List (Step ι η)} {x : Step ι η}

theorem subscribers_snoc (eventType : GoString) :
    subscribers eventType (a ++ [x]) = subscribers eventType a ++ (subscribes eventType x.act).toList := by
  unfold subscribers
  rw [List.filterMap_append]
  cases h : subscribes eventType x.act with
  | none => simp [h]
  | some handler => simp [h]

/-- What is true of the arrays after the part `a` of a run. -/
structure Sharing (a : List (Step ι η)) (b : Bus η) : Prop where
  valid : ∀ eventType, (b.handlers eventType).Valid b.heap
  apart : ∀ eventType eventType', eventType ≠ eventType' →
    (b.handlers eventType).Apart (b.handlers eventType')
  current : ∀ eventType, (b.handlers eventType).read b.heap = subscribers eventType a
  /-- A slice that was handed out keeps its elements: no slice of the bus appends among them. -/
  loaded : ∀ a₁ y a₂ eventType handlers, a = a₁ ++ y :: a₂ → y.act = ⟨.load eventType, handlers⟩ →
    handlers.Valid b.heap ∧ (∀ eventType', (b.handlers eventType').Spares handlers) ∧
      handlers.read b.heap = subscribers eventType a₁

theorem sharing_new : Sharing ([] : List (Step ι η)) new := by
  constructor
  case valid => exact fun _ => Slice.valid_empty _
  case apart => exact fun _ _ _ h => absurd h (Nat.lt_irrefl 0)
  case current => exact fun _ => rfl
  case loaded =>
    intro a₁ y a₂ eventType handlers hnil
    exact absurd hnil (List.append_ne_nil_of_right_ne_nil a₁ (List.cons_ne_nil y a₂)).symm

/-- A step that subscribes nothing leaves the arrays alone; it may hand out a slice of the bus. -/
theorem Sharing.of_same (h : Sharing a x.pre) (hpost : x.post = x.pre)
    (hsub : ∀ eventType, subscribes eventType x.act = none)
    (hload : ∀ eventType handlers, x.act = ⟨.load eventType, handlers⟩ →
      handlers = x.pre.handlers eventType) :
    Sharing (a ++ [x]) x.post := by
  rw [hpost]
  constructor
  case valid => exact h.valid
  case apart => exact h.apart
  case current =>
    intro eventType
    rw [subscribers_snoc, hsub, Option.toList_none, List.append_nil]
    exact h.current eventType
  case loaded =>
    intro a₁ y a₂ eventType handlers ha hact
    rcases split_snoc ha with ⟨-, rfl, rfl⟩ | ⟨a₃, -, hshort⟩
    · rw [hload eventType handlers hact]
      refine ⟨h.valid eventType, fun eventType' => ?_, h.current eventType⟩
      by_cases heq : eventType' = eventType
      · rw [heq]
        exact Slice.spares_self _
      · exact (h.apart eventType' eventType heq).spares (h.valid eventType)
    · exact h.loaded a₁ y a₃ eventType handlers hshort hact

variable [Inhabited η]

theorem Sharing.append (h : Sharing a x.pre) {eventType : GoString} {handler : η}
    (hact : x.act = ⟨.append eventType handler, ()⟩)
    (hheap : x.post.heap = ((x.pre.handlers eventType).append x.pre.heap x.env.newCap handler).2)
    (hhandlers : x.post.handlers = Function.update x.pre.handlers eventType
      ((x.pre.handlers eventType).append x.pre.heap x.env.newCap handler).1) :
    Sharing (a ++ [x]) x.post := by
  have hown := h.valid eventType
  have hsub : ∀ eventType', subscribes eventType' x.act =
      if eventType = eventType' then some handler else none := by
    intro eventType'
    rw [hact]
    rfl
  constructor
  case valid =>
    intro eventType'
    rw [hheap, hhandlers]
    by_cases heq : eventType' = eventType
    · rw [heq, Function.update_self]
      exact hown.append_self.1
    · rw [Function.update_of_ne heq]
      exact ((h.valid eventType').append _ _ hown ((h.apart _ _ (Ne.symm heq)).spares (h.valid eventType'))).1
  case apart =>
    intro t t' hne
    rw [hhandlers]
    by_cases ht : t = eventType
    · subst ht
      rw [Function.update_self, Function.update_of_ne (Ne.symm hne)]
      exact (h.apart t t' hne).append (h.valid t')
    · rw [Function.update_of_ne ht]
      by_cases ht' : t' = eventType
      · subst ht'
        rw [Function.update_self]
        exact ((h.apart t' t (Ne.symm hne)).append (h.valid t)).symm
      · rw [Function.update_of_ne ht']
        exact h.apart t t' hne
  case current =>
    intro eventType'
    rw [hheap, hhandlers, subscribers_snoc, hsub, ← h.current eventType']
    by_cases heq : eventType' = eventType
    · subst heq
      rw [Function.update_self, if_pos rfl]
      exact hown.append_self.2
    · rw [Function.update_of_ne heq, if_neg (Ne.symm heq), Option.toList_none, List.append_nil]
      exact ((h.valid eventType').append _ _ hown ((h.apart _ _ (Ne.symm heq)).spares (h.valid eventType'))).2
  case loaded =>
    intro a₁ y a₂ t handlers ha hy
    rcases split_snoc ha with ⟨-, -, rfl⟩ | ⟨a₃, -, hshort⟩
    · rw [hact] at hy
      cases hy
    · obtain ⟨hvalid, hspares, hread⟩ := h.loaded a₁ y a₃ t handlers hshort hy
      have hkept := hvalid.append x.env.newCap handler hown (hspares eventType)
      rw [hheap, hhandlers]
      refine ⟨hkept.1, fun eventType' => ?_, hkept.2.trans hread⟩
      by_cases heq : eventType' = eventType
      · rw [heq, Function.update_self]
        exact (hspares eventType).append hvalid
      · rw [Function.update_of_ne heq]
        exact hspares eventType'

theorem Sharing.step (h : Sharing a x.pre) (hx : x.Valid handle) : Sharing (a ++ [x]) x.post := by
  obtain ⟨op, reply, hact⟩ : ∃ op reply, x.act = ⟨op, reply⟩ := ⟨_, _, rfl⟩
  have hrun := hx.handle hact
  cases op with
  | append eventType handler =>
    have hpost := (Prod.mk.inj hrun).2
    exact h.append hact (by rw [← hpost]) (by rw [← hpost])
  | load eventType =>
    obtain ⟨hreply, hpost⟩ := Prod.mk.inj hrun
    refine h.of_same hpost.symm (by rw [hact]; exact fun _ => rfl) ?_
    intro eventType' handlers hload
    cases hact.symm.trans hload
    exact hreply.symm
  | element handlers i =>
    refine h.of_same (Prod.mk.inj hrun).2.symm (by rw [hact]; exact fun _ => rfl) ?_
    intro eventType' handlers hload
    cases hact.symm.trans hload
  | call handler =>
    refine h.of_same (Prod.mk.inj hrun).2.symm (by rw [hact]; exact fun _ => rfl) ?_
    intro eventType' handlers hload
    cases hact.symm.trans hload
  | spawn handler =>
    refine h.of_same (Prod.mk.inj hrun).2.symm (by rw [hact]; exact fun _ => rfl) ?_
    intro eventType' handlers hload
    cases hact.symm.trans hload

variable [DecidableEq ι] {calls : ι → Call η} {w : Config ι (Op η) Reply Env (Bus η) Outcome}

theorem sharing_of_log (hw : w.Sound handle (fun i => (calls i).prog) new) {b : List (Step ι η)}
    (hl : w.log = a ++ x :: b) : Sharing a x.pre := by
  have hexec := hw.exec
  rw [hl] at hexec
  obtain ⟨ha, -, -⟩ := hexec.split
  apply ha.history_invariant (P := Sharing) sharing_new
  intro a x b _ hx h
  exact h.step hx

/-- A publisher reads the handlers that were subscribed when it took the lock, however many have been
subscribed since. -/
theorem reads_subscribers (hw : w.Sound handle (fun i => (calls i).prog) new) {b : List (Step ι η)}
    (hl : w.log = a ++ x :: b) {eventType : GoString} {handlers : Slice}
    (hact : x.act = ⟨.load eventType, handlers⟩) (i : ι) : (subscribers eventType a).length = handlers.len ∧
      Reads (history i b) handlers 0 (subscribers eventType a) := by
  have hlen : (subscribers eventType a).length = handlers.len := by
    have hnow := sharing_of_log hw hl
    have hvalid := hw.exec.valid (mem_of_split hl)
    rw [← (Prod.mk.inj (hvalid.handle hact)).1, ← hnow.current eventType]
    exact (hnow.valid eventType).length_read
  refine ⟨hlen, ?_⟩
  intro k h hlt hmem
  rw [Nat.zero_add] at hmem
  obtain ⟨y, hy, -, hread⟩ := mem_history.mp hmem
  obtain ⟨b₁, b₂, rfl⟩ := List.append_of_mem hy
  have hly : w.log = (a ++ x :: b₁) ++ y :: b₂ := by
    rw [hl]
    simp
  obtain ⟨hvalid, -, hkept⟩ := (sharing_of_log hw hly).loaded a x b₁ eventType handlers rfl hact
  have hreply := (Prod.mk.inj ((hw.exec.valid (mem_of_split hly)).handle hread)).1
  rw [← hkept, hvalid.getElem?_read (by omega)]
  exact congrArg some hreply

/-- What a publisher has done with the handlers. -/
structure Delivers (w : Config ι (Op η) Reply Env (Bus η) Outcome) (i : ι) (due : List η) : Prop where
  inOrder : dispatched (history i w.log) <+: due
  all : w.Returned i .done → dispatched (history i w.log) = due

/-- A call that takes the handlers and then loops over them. -/
theorem delivers_of_loop (hw : w.Sound handle (fun i => (calls i).prog) new) {i : ι} {eventType : GoString}
    {loop : Slice → Prog (Op η) Reply Outcome} (hprog : (calls i).prog = .op (.load eventType) loop)
    (hloop : ∀ handlers es q l, (loop handlers).Path es q → l.length = handlers.len →
      Reads es handlers 0 l → Loops es q l) (hstarted : history i w.log ≠ []) :
    ∃ a x b handlers, w.log = a ++ x :: b ∧ x.caller = i ∧ x.act = ⟨.load eventType, handlers⟩ ∧
      Delivers w i (subscribers eventType a) := by
  have hpath : (calls i).prog.Path (history i w.log) (w.calls i) := hw.path i
  rw [hprog] at hpath
  generalize hhist : history i w.log = es at hpath hstarted
  generalize hrest : w.calls i = rest at hpath
  cases hpath with
  | nil => exact absurd rfl hstarted
  | @cons _ _ handlers es _ hpath =>
    obtain ⟨a, x, b, hl, hcaller, hact, -, hb⟩ := exists_of_history_cons hhist
    obtain ⟨hlen, hreads⟩ := reads_subscribers hw hl hact i
    rw [hb] at hreads
    have hloops := hloop handlers es rest _ hpath hlen hreads
    have hdispatched : dispatched (history i w.log) = dispatched es := by
      rw [hhist]
      rfl
    refine ⟨a, x, b, handlers, hl, hcaller, hact, ?_⟩
    constructor
    · rw [hdispatched]
      exact hloops.1
    · intro hret
      rw [hdispatched]
      exact hloops.2 (hrest.symm.trans (Prog.result?_eq_some.mp hret))

/-- In every run: a publisher that has taken the lock hands the event over to the handlers subscribed
before that, in their order, to each once for every time it was subscribed; when it returns, to all
of them. -/
theorem publish_delivers (calls : ι → Call η) (sched : List (ι × Env)) (i : ι) (eventType : GoString)
    (hcall : calls i = .publish eventType ∨ calls i = .publishAsync eventType)
    (hstarted : history i (world calls sched).log ≠ []) :
    ∃ a x b handlers, (world calls sched).log = a ++ x :: b ∧ x.caller = i ∧
      x.act = ⟨.load eventType, handlers⟩ ∧ Delivers (world calls sched) i (subscribers eventType a) := by
  have hw : (world calls sched).Sound handle (fun i => (calls i).prog) new := Config.run_sound _ _ _ _
  rcases hcall with hcall | hcall
  · have hprog : (calls i).prog = .op (.load eventType) fun handlers => callFrom handlers 0 handlers.len := by
      rw [hcall]
      rfl
    exact delivers_of_loop hw hprog (fun _ _ _ _ h hl hr => callFrom_loops h hl hr) hstarted
  · have hprog : (calls i).prog = .op (.load eventType) fun handlers =>
      spawnFrom handlers 0 handlers.len := by
      rw [hcall]
      rfl
    exact delivers_of_loop hw hprog (fun _ _ _ _ h hl hr => spawnFrom_loops h hl hr) hstarted

end Runs

/-- Two handlers are subscribed before the publisher takes the lock, and a third one into the same array while
the publisher reads it. -/
def sampleCalls : ℕ → Call ℕ
  | 0 => .subscribe (lit "paid") 7
  | 1 => .subscribe (lit "paid") 8
  | 2 => .publish (lit "paid")
  | _ => .subscribe (lit "paid") 9

def sampleSchedule : List (ℕ × Env) := [0, 1, 2, 2, 3, 2, 2, 2].map fun i => (i, ⟨4, false⟩)

theorem sampleCalls_delivered :
    dispatched (history 2 (world sampleCalls sampleSchedule).log) = [7, 8] ∧
    ∃ a x b handlers, (world sampleCalls sampleSchedule).log = a ++ x :: b ∧ x.caller = 2 ∧
      x.act = ⟨.load (lit "paid"), handlers⟩ ∧
      Delivers (world sampleCalls sampleSchedule) 2 (subscribers (lit "paid") a) :=
  ⟨by decide +kernel, publish_delivers sampleCalls sampleSchedule 2 (lit "paid") (.inl rfl) nofun⟩

end SynapseGo.Event
