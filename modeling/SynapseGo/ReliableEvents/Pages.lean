import SynapseGo.ReliableEvents.Delivery
import SynapseGo.ReliableEvents.Marks

/-! `Service.List` page by page while the outbox is in use. Offsets count from the newest row, so that rows
which come in meanwhile push the others back and none of those is passed over. -/
namespace SynapseGo.ReliableEvents
open SynapseGo.Go SynapseGo.Concurrency

/-- What the list is ordered by. -/
abbrev Place := ℤ × ℕ

def Outbox.place (r : Outbox) : Place := (r.occurredAt, r.id)

/-- `occurred_at DESC, id DESC`. -/
def Newer (p q : Place) : Prop := q.1 < p.1 ∨ p.1 = q.1 ∧ q.2 ≤ p.2

instance : DecidableRel Newer := fun _ _ => inferInstanceAs (Decidable (_ ∨ _))

instance : Std.Total Newer where
  total p q := by
    unfold Newer
    omega

instance : IsTrans Place Newer where
  trans p q r := by
    unfold Newer
    omega

instance : Std.Antisymm Newer where
  antisymm p q hpq hqp := by
    unfold Newer at hpq hqp
    exact Prod.ext (by omega) (by omega)

/-- The places of all rows, in the order of the list. -/
def places (t : Outboxes) : List Place := (t.rows.map Outbox.place).insertionSort Newer

theorem map_place_listedRows (t : Outboxes) (limit offset : ℤ) :
    (listedRows t limit offset).map Outbox.place = ((places t).drop offset.toNat).take limit.toNat := by
  unfold listedRows places
  dsimp only
  rw [List.map_take, List.map_drop, List.map_insertionSort _ Newer]
  intro r _ r' _
  exact Iff.rfl

theorem mem_places {t : Outboxes} {r : Outbox} (h : r ∈ t.rows) : r.place ∈ places t :=
  (List.mem_insertionSort Newer).mpr (List.mem_map_of_mem h)

section Steps
variable {ι : Type} {x : MarkEvent ι}

/-- The statement stores a new row. -/
def Inserts (x : MarkEvent ι) : Prop := ∃ row id, x.act = ⟨.outbox (.insertOutbox row), .ok id⟩

theorem places_insert (t : Outboxes) (row : Outbox) (h : t.byKey row.eventID = none) :
    (places t).Sublist (places (t.insert row h)) := by
  apply List.sublist_insertionSort' (List.pairwise_insertionSort Newer _)
  have hperm := List.perm_insertionSort Newer (t.rows.map Outbox.place)
  have hrows : (t.insert row h).rows = t.rows ++ [schema.withID row t.nextID] := rfl
  rw [hrows, List.map_append]
  exact hperm.subperm.trans (List.sublist_append_left _ _).subperm

theorem places_update (t : Outboxes) (p : Outbox → Bool) {f : Outbox → Outbox} (hid : ∀ r, (f r).id = r.id)
    (hkey : ∀ r, (f r).eventID = r.eventID) (hplace : ∀ r, (f r).place = r.place) :
    places (t.update p f hid hkey) = places t := by
  have hrows : (t.update p f hid hkey).rows = t.rows.map fun r => if p r then f r else r := rfl
  have hsame : Outbox.place ∘ (fun r => if p r then f r else r) = Outbox.place := by
    funext r
    rw [Function.comp_apply]
    split_ifs
    · exact hplace r
    · rfl
  unfold places
  rw [hrows, List.map_map, hsame]

/-- What a statement does to the list. -/
theorem places_step (hx : x.Valid execute) : places x.post.outboxes = places x.pre.outboxes ∨
    Inserts x ∧ (places x.pre.outboxes).Sublist (places x.post.outboxes) := by
  obtain ⟨statement, reply, hact⟩ : ∃ statement reply, x.act = ⟨statement, reply⟩ := ⟨_, _, rfl⟩
  have hstep := hx.handle hact
  cases statement with
  | outbox sql =>
    -- the statement as one on the outbox alone
    have hreply : (handle x.env.toEnv sql x.pre.outboxes).1 = reply := congrArg Prod.fst hstep
    have hstore : (handle x.env.toEnv sql x.pre.outboxes).2 = x.post.outboxes :=
      congrArg (fun r => r.2.outboxes) hstep
    have hvalid : Entry.Valid handle
        (⟨x.caller, x.env.toEnv, ⟨sql, reply⟩, x.pre.outboxes, x.post.outboxes⟩ : Event ι) :=
          Prod.ext hreply hstore
    cases sql with
    | insertOutbox row =>
      cases Event.insertOutbox hvalid rfl with
      | inl hfault =>
        obtain ⟨_, -, hpost⟩ := hfault
        exact .inl (congrArg places hpost)
      | inr hdone =>
        obtain ⟨hfree, hid, hpost⟩ := hdone
        have hstored : x.post.outboxes = x.pre.outboxes.insert row hfree := hpost
        refine .inr ⟨⟨row, x.pre.outboxes.nextID, hact.trans (congrArg _ hid)⟩, ?_⟩
        rw [hstored]
        exact places_insert _ row hfree
    | fetchPending limit => exact .inl (congrArg places (Event.fetchPending hvalid rfl).1)
    | markSent id =>
      cases Event.markSent hvalid rfl with
      | inl hfault =>
        obtain ⟨_, -, hpost⟩ := hfault
        exact .inl (congrArg places hpost)
      | inr hdone => exact .inl ((congrArg places hdone.2).trans (places_update _ _ _ _ fun _ => rfl))
    | markFailed id =>
      cases Event.markFailed hvalid rfl with
      | inl hfault =>
        obtain ⟨_, -, hpost⟩ := hfault
        exact .inl (congrArg places hpost)
      | inr hdone => exact .inl ((congrArg places hdone.2).trans (places_update _ _ _ _ fun _ => rfl))
  | list limit offset =>
    cases Database.faulty_ok_cases hstep with
    | inl hfault =>
      obtain ⟨_, -, hpost⟩ := hfault
      exact .inl (by rw [hpost])
    | inr hdone => exact .inl (by rw [hdone.2])
  | insertProcessed row =>
    cases Database.faulty_guarded_cases hstep with
    | inl hfault =>
      obtain ⟨_, -, hpost⟩ := hfault
      exact .inl (by rw [hpost])
    | inr hdone =>
      obtain ⟨_, -, hpost⟩ := hdone
      exact .inl (by rw [hpost])
  | countProcessed consumerName eventID =>
    cases Database.faulty_ok_cases hstep with
    | inl hfault =>
      obtain ⟨_, -, hpost⟩ := hfault
      exact .inl (by rw [hpost])
    | inr hdone => exact .inl (by rw [hdone.2])
  | now => exact .inl (by rw [← (Prod.mk.inj hstep).2])
  | newEventID => exact .inl (by rw [← (Prod.mk.inj hstep).2])

theorem places_sublist {s t : Store} {l : List (MarkEvent ι)} (hl : Exec execute s l t) :
    (places s.outboxes).Sublist (places t.outboxes) := by
  refine hl.invariant (P := fun u => (places s.outboxes).Sublist (places u.outboxes)) ?_ (List.Sublist.refl _)
  intro x _ hx hpre
  cases places_step hx with
  | inl hsame =>
    rw [hsame]
    exact hpre
  | inr hgrown => exact hpre.trans hgrown.2

theorem places_eq {s t : Store} {l : List (MarkEvent ι)} (hl : Exec execute s l t)
    (hquiet : ∀ x ∈ l, ¬ Inserts x) :
    places t.outboxes = places s.outboxes := by
  refine hl.invariant (P := fun u => places u.outboxes = places s.outboxes) ?_ rfl
  intro x hx hvalid hpre
  cases places_step hvalid with
  | inl hsame => exact hsame.trans hpre
  | inr hgrown => exact absurd hgrown.1 (hquiet x hx)

end Steps

section Walks
variable {ι : Type}

/-- A walk through the pages of `limit` rows from `offset` on, up to the first that is not full. -/
inductive Walk (limit : ℤ) : ℤ → List (MarkEvent ι) → List (List Outbox) → Prop
  | last {offset : ℤ} {a b : List (MarkEvent ι)} {x : MarkEvent ι} {rows : List Outbox}
    (hcall : (Service.list limit offset).Returns [x.act] (.ok rows)) (hshort : (rows.length : ℤ) < limit) :
    Walk limit offset (a ++ x :: b) [rows]
  | page {offset : ℤ} {a b : List (MarkEvent ι)} {x : MarkEvent ι} {rows : List Outbox}
      {pages : List (List Outbox)}
    (hcall : (Service.list limit offset).Returns [x.act] (.ok rows))
    (hrest : Walk limit (offset + limit) b pages) :
    Walk limit offset (a ++ x :: b) (rows :: pages)

variable {limit offset : ℤ} (hlo : 1 ≤ limit) (hhi : limit ≤ 100)
include hlo hhi

theorem list_returns (hoffset : 0 ≤ offset) {y : Σ e, Answer e} {rows : List Outbox}
    (h : (Service.list limit offset).Returns [y] (.ok rows)) : y = ⟨.list limit offset, .ok rows⟩ := by
  have hlimit : Service.normalizeLimit limit = limit := if_neg (by omega)
  have hstart : (if offset < 0 then 0 else offset) = offset := if_neg (by omega)
  unfold Service.list at h
  rw [hlimit, hstart] at h
  obtain ⟨reply, es, heq, hrest⟩ := Prog.returns_op.mp h
  cases heq
  cases reply with
  | error text => exact nomatch (Prog.returns_ret.mp hrest).2
  | ok rows' => rw [Except.ok.inj (Prog.returns_ret.mp hrest).2]

/-- A page is a part of the list as it is at that moment. -/
theorem page_spec (hoffset : 0 ≤ offset) {x : MarkEvent ι} (hx : x.Valid execute) {rows : List Outbox}
    (h : (Service.list limit offset).Returns [x.act] (.ok rows)) : x.post = x.pre ∧
      rows.map Outbox.place = ((places x.pre.outboxes).drop offset.toNat).take limit.toNat := by
  cases Database.faulty_ok_cases (hx.handle (list_returns hlo hhi hoffset h)) with
  | inl hfault =>
    obtain ⟨_, hreply, -⟩ := hfault
    cases hreply
  | inr hdone =>
    refine ⟨hdone.2, ?_⟩
    rw [Except.ok.inj hdone.1]
    exact map_place_listedRows _ _ _

omit hhi in
/-- After a page that is not full there is nothing. -/
theorem drop_of_short {rows : List Outbox} {l : List Place}
    (hrows : rows.map Outbox.place = (l.drop offset.toNat).take limit.toNat)
    (hshort : (rows.length : ℤ) < limit) :
    rows.map Outbox.place = l.drop offset.toNat := by
  have hlength := congrArg List.length hrows
  rw [List.length_map, List.length_take] at hlength
  rw [hrows]
  exact List.take_of_length_le (by omega)

theorem Walk.covers {log : List (MarkEvent ι)} {pages : List (List Outbox)} (h : Walk limit offset log pages)
    (hoffset : 0 ≤ offset) {s t : Store} (hexec : Exec execute s log t) :
    ∀ p ∈ (places s.outboxes).drop offset.toNat, ∃ row ∈ pages.flatten, row.place = p := by
  induction h generalizing s with
  | @last offset a b x rows hcall hshort =>
    intro p hp
    obtain ⟨ha, hx, -⟩ := hexec.split
    obtain ⟨-, hrows⟩ := page_spec hlo hhi hoffset hx hcall
    have hlater := ((places_sublist ha).drop offset.toNat).subset hp
    rw [← drop_of_short hlo hrows hshort] at hlater
    obtain ⟨row, hrow, hplace⟩ := List.mem_map.mp hlater
    exact ⟨row, by simpa using hrow, hplace⟩
  | @page offset a b x rows pages hcall hrest ih =>
    intro p hp
    obtain ⟨ha, hx, hb⟩ := hexec.split
    obtain ⟨hpost, hrows⟩ := page_spec hlo hhi hoffset hx hcall
    have hlater := ((places_sublist ha).drop offset.toNat).subset hp
    rw [← List.take_append_drop limit.toNat ((places x.pre.outboxes).drop offset.toNat), ← hrows] at hlater
    cases List.mem_append.mp hlater with
    | inl hhere =>
      obtain ⟨row, hrow, hplace⟩ := List.mem_map.mp hhere
      exact ⟨row, by simp [hrow], hplace⟩
    | inr hbehind =>
      have hnext : (offset + limit).toNat = offset.toNat + limit.toNat := by omega
      rw [List.drop_drop, ← hnext, ← hpost] at hbehind
      obtain ⟨row, hrow, hplace⟩ := ih (by omega) hb p hbehind
      refine ⟨row, ?_, hplace⟩
      rw [List.flatten_cons]
      exact List.mem_append_right rows hrow

/-- Without new rows the pages are the list. -/
theorem Walk.exact {log : List (MarkEvent ι)} {pages : List (List Outbox)} (h : Walk limit offset log pages)
    (hoffset : 0 ≤ offset) {s t : Store} (hexec : Exec execute s log t) (hquiet : ∀ x ∈ log, ¬ Inserts x) :
    pages.flatten.map Outbox.place = (places s.outboxes).drop offset.toNat := by
  induction h generalizing s with
  | @last offset a b x rows hcall hshort =>
    obtain ⟨ha, hx, -⟩ := hexec.split
    obtain ⟨-, hrows⟩ := page_spec hlo hhi hoffset hx hcall
    rw [← places_eq ha fun y hy => hquiet y (List.mem_append_left _ hy)]
    rw [← drop_of_short hlo hrows hshort, List.flatten_singleton]
  | @page offset a b x rows pages hcall hrest ih =>
    obtain ⟨ha, hx, hb⟩ := hexec.split
    obtain ⟨hpost, hrows⟩ := page_spec hlo hhi hoffset hx hcall
    have hsame := places_eq ha fun y hy => hquiet y (List.mem_append_left _ hy)
    have hlater := ih (by omega) hb fun y hy => hquiet y (List.mem_append_right a (List.mem_cons_of_mem x hy))
    have hnext : (offset + limit).toNat = offset.toNat + limit.toNat := by omega
    rw [List.flatten_cons, List.map_append, hlater, hrows, hpost, hsame, hnext, ← List.drop_drop,
      List.take_append_drop]

end Walks

section Runs
variable {ι : Type} [DecidableEq ι] {α : Type}

/-- A run that goes on. -/
theorem exec_since (calls : ι → ServiceCall α) (s₀ : Store) (sched sched' : List (ι × Surroundings))
    {b : List (MarkEvent ι)} (hlog : ((Config.start calls s₀).run execute (sched ++ sched')).log =
      ((Config.start calls s₀).run execute sched).log ++ b) :
    Exec execute ((Config.start calls s₀).run execute sched).store b
      ((Config.start calls s₀).run execute (sched ++ sched')).store := by
  have hbefore := (Config.run_sound execute calls s₀ sched).exec
  have hwhole := (Config.run_sound execute calls s₀ (sched ++ sched')).exec
  rw [hlog] at hwhole
  obtain ⟨u, hfirst, hsecond⟩ := hwhole.of_append
  rw [hbefore.unique hfirst]
  exact hsecond

/-- Every row is on one of the pages; its status may have changed. -/
def Covered (rows : List Outbox) (pages : List (List Outbox)) : Prop :=
  ∀ row ∈ rows, ∃ row' ∈ pages.flatten, row'.id = row.id ∧ row'.occurredAt = row.occurredAt

/-- Pages that are the list: every row once, the newest first. -/
structure Listed (rows : List Outbox) (pages : List (List Outbox)) : Prop where
  once : (pages.flatten.map Outbox.id).Perm (rows.map Outbox.id)
  ordered : pages.flatten.Pairwise fun row row' => Newer row.place row'.place

theorem listed_of_places {t : Outboxes} {pages : List (List Outbox)}
    (h : pages.flatten.map Outbox.place = places t) : Listed t.rows pages := by
  have hperm : (pages.flatten.map Outbox.place).Perm (t.rows.map Outbox.place) := by
    rw [h]
    exact List.perm_insertionSort Newer _
  constructor
  · have hids := hperm.map Prod.snd
    rw [List.map_map, List.map_map] at hids
    exact hids
  · have hsorted : (pages.flatten.map Outbox.place).Pairwise Newer := by
      rw [h]
      exact List.pairwise_insertionSort Newer _
    exact List.pairwise_map.mp hsorted

/-- In every run of the service, a walk through the pages meets every row that was there when it began,
whatever is published and marked meanwhile; if nothing is published, it meets each exactly once. -/
theorem pages_cover (calls : ι → ServiceCall α) (s₀ : Store) (sched sched' : List (ι × Surroundings))
    {limit : ℤ} (hlo : 1 ≤ limit) (hhi : limit ≤ 100) {b : List (MarkEvent ι)}
    (hlog : ((Config.start calls s₀).run execute (sched ++ sched')).log =
      ((Config.start calls s₀).run execute sched).log ++ b) {pages :
        List (List Outbox)} (hwalk : Walk limit 0 b pages) :
    Covered ((Config.start calls s₀).run execute sched).store.outboxes.rows pages ∧
      ((∀ x ∈ b, ¬ Inserts x) →
        Listed ((Config.start calls s₀).run execute sched).store.outboxes.rows pages) := by
  have hexec := exec_since calls s₀ sched sched' hlog
  constructor
  · intro row hrow
    obtain ⟨row', hrow', hplace⟩ := hwalk.covers hlo hhi le_rfl hexec row.place (mem_places hrow)
    exact ⟨row', hrow', congrArg Prod.snd hplace, congrArg Prod.fst hplace⟩
  · intro hquiet
    exact listed_of_places (hwalk.exact hlo hhi le_rfl hexec hquiet)

end Runs

/-- One process reads pages of one row, another one publishes. -/
def sampleReaders : Bool → ServiceCall Unit
  | false => do
    let _ ← Service.list 1 0
    let _ ← Service.list 1 1
    let _ ← Service.list 1 2
    return ()
  | true => do
    let _ ← onOutbox (Repo.insertOutbox ⟨id, id⟩ { sampleRow with eventID := lit "e2", occurredAt := 5 })
    return ()

theorem sampleRow_free : (Database.Table.empty schema).byKey sampleRow.eventID = none := rfl

def sampleStore : Store :=
  ⟨(Database.Table.empty schema).insert sampleRow sampleRow_free, Database.Keyed.empty _⟩

/-- The new row comes after the first page, and the old one is read twice. -/
def sampleReading : List (Bool × Surroundings) := [false, true, false, false].map fun i => (i, marksAt 0 none)

def samplePages : List (List Outbox) := [[{ sampleRow with id := 1 }], [{ sampleRow with id := 1 }], []]

theorem sampleReaders_covered :
    Walk 1 0 ((Config.start sampleReaders sampleStore).run execute sampleReading).log samplePages ∧
      Covered sampleStore.outboxes.rows samplePages := by
  have hlog : ((Config.start sampleReaders sampleStore).run execute sampleReading).log =
      [] ++ _ :: ([_] ++ _ :: ([] ++ _ :: [])) := rfl
  have hwalk :
    Walk 1 0 ((Config.start sampleReaders sampleStore).run execute sampleReading).log samplePages := by
    rw [hlog]
    exact .page (.cons (.nil _)) (.page (.cons (.nil _)) (.last (.cons (.nil _)) (by decide)))
  exact ⟨hwalk, (pages_cover sampleReaders sampleStore [] sampleReading le_rfl (by decide) rfl hwalk).1⟩

end SynapseGo.ReliableEvents
