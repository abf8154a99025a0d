import SynapseGo.Idempotency.System

/-! The request hash of a record. `Restart` writes the column from the caller's value, guarded by
id and status only; the value it writes is always the one that is there. -/
namespace SynapseGo.Idempotency
open SynapseGo.Go SynapseGo.Concurrency

variable {ι : Type}

/-- The stored hash of an id is the same at any two moments of the run at which it has a row. -/
def HashesFixed (t₀ : Records) (log : List (Event ι)) : Prop :=
  ∀ a m b s s' id row row', log = a ++ (m ++ b) → Exec handle t₀ a s → Exec handle s m s' →
    s.byID id = some row → s'.byID id = some row' → row'.requestHash = row.requestHash

/-- A `Begin` that starts or replays hands out a record with the hash of its own request; no row
stored under that record's id, at any moment of the run, has another one. -/
def AnswersMatch [DecidableEq ι] (t₀ : Records) (requests : ι → Request) (c : World ι) : Prop :=
  ∀ i input result, requests i = .begin input → c.Returned i (.begun (.ok result)) →
    result.started = true ∨ result.replay = true →
    result.record.requestHash = trimSpace input.requestHash ∧
      ∀ a b s row, c.log = a ++ b → Exec handle t₀ a s → s.byID result.record.id = some row →
        row.requestHash = trimSpace input.requestHash

/-- Since `t₀` was at `s`, the id of no row was given to another hash. -/
private def Kept (t₀ : Records) (l : List (Event ι)) (t : Records) : Prop :=
  ∀ a m s id row, l = a ++ m → Exec handle t₀ a s → Exec handle s m t → s.byID id = some row →
    id < t.nextID ∧ ∀ row' ∈ t.byID id, row'.requestHash = row.requestHash

/-- At any two moments of a run, in either order, one id has one hash. -/
theorem HashesFixed.hash_eq {t₀ : Records} {log : List (Event ι)} (h : HashesFixed t₀ log)
    {a b a' b' : List (Event ι)} {s s' : Records} {id : ℕ} {row row' : Record} (hl : log = a ++ b)
    (hl' : log = a' ++ b')
    (ha : Exec handle t₀ a s) (ha' : Exec handle t₀ a' s') (hrow : s.byID id = some row)
    (hrow' : s'.byID id = some row') : row'.requestHash = row.requestHash := by
  rcases List.append_eq_append_iff.mp (hl.symm.trans hl') with ⟨m, rfl, -⟩ | ⟨m, rfl, -⟩
  · obtain ⟨u, hu, hm⟩ := ha'.of_append
    cases hu.unique ha
    rw [List.append_assoc] at hl'
    exact h a m b' s s' id row row' hl' ha hm hrow hrow'
  · obtain ⟨u, hu, hm⟩ := ha.of_append
    cases hu.unique ha'
    rw [List.append_assoc] at hl
    exact (h a' m b s' s id row' row hl ha' hm hrow' hrow).symm

section
variable [DecidableEq ι] {U : CaseTables} {requests : ι → Request} {t₀ : Records} {c : World ι}

/-- A restart repeats a read of its own call that found the hash it writes. -/
private theorem read_of_restart (hs : Config.Sound handle (fun i => (requests i).call U) t₀ c)
    {a b : List (Event ι)} {x : Event ι} (hl : c.log = a ++ x :: b) {id : ℕ} {hash : GoString}
    {running now : ℤ} (ha : x.act = ⟨.updateRestarted id hash running now, .ok ()⟩) :
    ∃ a₁ g a₂ record, a = a₁ ++ g :: a₂ ∧ g.pre.byID id = some record ∧ record.requestHash = hash := by
  have hop := requestOp_of_log hs hl
  rw [ha] at hop
  generalize requests x.caller = q at hop
  generalize hh : history x.caller a = es at hop
  cases hop with
  | begin hop =>
    cases hop with
    | restart es record r t n reply hhash =>
      obtain ⟨a₁, g, a₂, rfl, -, hg, -, -⟩ := exists_of_history_eq hh
      have hvalid : g.Valid handle := hs.exec.valid (by simp [hl])
      have hread := (Event.selectFirst hvalid hg).2 _ rfl
      exact ⟨a₁, g, a₂, record, rfl, Database.Table.byID_of_byKey hread, hhash⟩

private theorem Kept.step (hs : Config.Sound handle (fun i => (requests i).call U) t₀ c)
    {l b : List (Event ι)} {x : Event ι} (hl : c.log = l ++ x :: b) (hx : x.Valid handle)
    (h : Kept t₀ l x.pre) : Kept t₀ (l ++ [x]) x.post := by
  intro a m s id row hsplit ha hm hrow
  obtain rfl | ⟨m, y, rfl⟩ := List.eq_nil_or_concat' m
  · cases hm
    refine ⟨Database.Table.lt_nextID_of_byID hrow, fun row' hrow' => ?_⟩
    cases hrow.symm.trans hrow'
    rfl
  · rw [← List.append_assoc] at hsplit
    obtain ⟨rfl, hxy⟩ := List.append_inj' hsplit rfl
    cases hxy
    obtain ⟨hm, -, -⟩ := hm.split
    -- a restart is the only statement that writes a hash
    refine Event.row_invariant hx (fun r _ _ _ _ _ hr => hr) ?_ (h a m s id row rfl ha hm hrow)
    intro r hash running now hr hprogress hact hkept
    -- the read happened before, and what it found is still the hash of that id
    obtain ⟨a₁, g, a₂, record, hag, hg, rfl⟩ := read_of_restart hs hl hact
    have hexec := hs.exec
    rw [hl] at hexec
    have hpre : Exec handle t₀ (a ++ m) x.pre := hexec.split.1
    rw [hag] at hpre
    obtain ⟨hbefore, hgv, hafter⟩ := hpre.split
    have hsame := (h a₁ (g :: a₂) g.pre id record hag hbefore ⟨rfl, hgv, hafter⟩ hg).2 r hr
    exact hsame.symm.trans hkept

private theorem kept (hs : Config.Sound handle (fun i => (requests i).call U) t₀ c)
    {l b : List (Event ι)} (hl : c.log = l ++ b) {t : Records} (hexec : Exec handle t₀ l t) :
    Kept t₀ l t := by
  refine hexec.invariant_within (P := Kept t₀) hl ?_ fun a x b hsplit hx => Kept.step hs hsplit hx
  intro a m s id row hsplit ha hm hrow
  obtain ⟨rfl, rfl⟩ := List.append_eq_nil_iff.mp hsplit.symm
  cases hm
  refine ⟨Database.Table.lt_nextID_of_byID hrow, fun row' hrow' => ?_⟩
  cases hrow.symm.trans hrow'
  rfl

theorem hashesFixed (hs : Config.Sound handle (fun i => (requests i).call U) t₀ c) :
    HashesFixed t₀ c.log := by
  intro a m b s s' id row row' hl ha hm hrow hrow'
  rw [← List.append_assoc] at hl
  exact (kept hs hl (ha.append hm) a m s id row rfl ha hm hrow).2 row' hrow'

/-- A record that `Begin` hands out was read or created by the call, with the call's own hash. -/
theorem BeginCourse.origin {x : BeginInput} {es : List (Σ e, Reply e)} {result : BeginResult}
    (h : BeginCourse U x es (.ok result)) : result.record.requestHash = x.requestHash ∧
      ((∃ es₀ es₁ record, es = es₀ ++ ⟨.selectFirst x.scope, .ok (some record)⟩ :: es₁ ∧
          record.requestHash = x.requestHash ∧ record.id = result.record.id) ∨
        ∃ es₀ t, es = es₀ ++ [⟨.insert (x.record t), .ok result.record.id⟩]) := by
  have hdecision : ∀ {record es}, Decision record x.requestHash es (.ok result) →
      record.requestHash = x.requestHash ∧ record.id = result.record.id ∧
        result.record.requestHash = x.requestHash := by
    intro record es hd
    cases hd with
    | replay hh hs => exact ⟨hh, rfl, hh⟩
    | takeover r t n hh => exact ⟨hh, rfl, hh⟩
  cases h with
  | found record hd =>
    obtain ⟨hh, hid, hres⟩ := hdecision hd
    exact ⟨hres, Or.inl ⟨[], _, record, rfl, hh, hid⟩⟩
  | created t id => exact ⟨rfl, Or.inr ⟨[_, _], t, rfl⟩⟩
  | lost t text record hk hd =>
    obtain ⟨hh, hid, hres⟩ := hdecision hd
    exact ⟨hres, Or.inl ⟨[_, _, _], _, record, rfl, hh, hid⟩⟩

/-- At some moment of the run the record that a `Begin` handed out was stored with the call's hash. -/
private theorem stored_of_begun (hs : Config.Sound handle (fun i => (requests i).call U) t₀ c) {i : ι}
    {x : BeginInput} {result : BeginResult} (h : BeginCourse U x (history i c.log) (.ok result)) :
    ∃ a b s row, c.log = a ++ b ∧ Exec handle t₀ a s ∧ s.byID result.record.id = some row ∧
      row.requestHash = x.requestHash := by
  have hexec := hs.exec
  rcases h.origin.2 with ⟨es₀, es₁, record, hes, hh, hid⟩ | ⟨es₀, t, hes⟩
  · obtain ⟨a, g, b, hl, -, hg, -, -⟩ := exists_of_history_eq hes
    rw [hl] at hexec
    obtain ⟨ha, hv, -⟩ := hexec.split
    have hread := (Event.selectFirst hv hg).2 _ rfl
    exact ⟨a, g :: b, g.pre, record, hl, ha, hid ▸ Database.Table.byID_of_byKey hread, hh⟩
  · obtain ⟨a, g, b, hl, -, hg, -, -⟩ := exists_of_history_eq hes
    rw [hl] at hexec
    obtain ⟨ha, hv, -⟩ := hexec.split
    rcases Event.insert hv hg with ⟨_, herr, -⟩ | ⟨hk, hok, hpost⟩
    · cases herr
    · have hid := Except.ok.inj hok
      refine ⟨a ++ [g], b, g.post, { x.record t with id := g.pre.nextID }, by simp [hl],
        ha.append ⟨rfl, hv, rfl⟩, ?_, rfl⟩
      rw [hpost, Database.Table.byID_insert, if_pos hid]

theorem answersMatch (hs : Config.Sound handle (fun i => (requests i).call U) t₀ c) :
    AnswersMatch t₀ requests c := by
  intro i input result hq hret _
  have hreturns := hs.returns hret
  rw [hq] at hreturns
  obtain ⟨_, hout, hreturns⟩ := Request.returns_begin hreturns
  cases hout
  rcases BeginCourse.of_returns hreturns with ⟨-, -, hout⟩ | ⟨-, hcourse⟩
  · cases hout
  refine ⟨hcourse.origin.1, fun a b s row hl ha hrow => ?_⟩
  obtain ⟨a', b', s', row', hl', ha', hrow', hhash⟩ := stored_of_begun hs hcourse
  exact ((hashesFixed hs).hash_eq hl' hl ha' ha hrow' hrow).trans hhash

/-- Whatever the calls and their schedule, a record stays bound to the request that created it. -/
theorem record_bound_to_request (requests : ι → Request) (U : CaseTables) (t₀ : Records)
    (sched : List (ι × Env)) :
    let c := world U requests t₀ sched
    HashesFixed t₀ c.log ∧ AnswersMatch t₀ requests c := by
  intro c
  have hs := world_sound U requests t₀ sched
  exact ⟨hashesFixed hs, answersMatch hs⟩

end
end SynapseGo.Idempotency
