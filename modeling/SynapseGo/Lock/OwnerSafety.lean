import SynapseGo.Concurrency.Accounting
import SynapseGo.Lock.Distributed

/-! What a lock handle guarantees under any interleaving of calls, lost replies and expiries. A key is
changed only in its owner's name, and the flag of a handle is set by one `Release` at a time. -/
namespace SynapseGo.Lock
open SynapseGo.Go SynapseGo.Concurrency SynapseGo.Redis
variable {ι : Type}

/-- The key stores the token of the handle. -/
def Handle.Current (hd : Handle) (s : Leases) : Prop := ∃ e, s hd.fullKey = some ⟨hd.token, e⟩

/-- The step in which the `Acquire` of the handle got the key. -/
def Grants (hd : Handle) (x : Event ι) : Prop :=
  ∃ ttl, x.act = ⟨.setNX hd.fullKey hd.token ttl, .ok true⟩

/-- Call `i` is a `Release` or a `Renew` of the handle of call `h`. -/
def Calls.Uses (c : Calls ι) (i h : ι) : Prop := c.call i = .release h ∨ ∃ ttl, c.call i = .renew h ttl

/-- The contract of the handles in the run of `sched`; after a successful `Release`, a `Renew` with one
of the durations `renewing` reports it. -/
structure OwnerSafe [DecidableEq ι] (renewing : Int64 → Prop) (c : Calls ι) (s : Leases)
    (sched : List (ι × Env)) : Prop where
  others_kept : ∀ x ∈ (c.world s sched).log, ∀ h hd, c.Uses x.caller h → c.handleOf h = some hd →
    ∀ key lease, x.pre.keys key = some lease → lease.token ≠ hd.token → x.post.keys key = some lease
  acquired : ∀ i key ttl hd, c.call i = .acquire key ttl → (c.world s sched).Returned i (.acquired hd) →
    c.handleOf i = some hd ∧ ∃ x ∈ (c.world s sched).log, x.caller = i ∧ Grants hd x
  one_current : ∀ i j hd hd', i ≠ j → c.handleOf i = some hd → c.handleOf j = some hd' →
    hd'.fullKey = hd.fullKey → hd.Current (c.world s sched).store.keys →
    ¬ hd'.Current (c.world s sched).store.keys
  /-- Between two grants of a key the first lease is found expired, or deleted by its own `Release`. -/
  handed_over : ∀ a x m y b hd hd', (c.world s sched).log = a ++ x :: (m ++ y :: b) → Grants hd x →
    Grants hd' y → hd'.fullKey = hd.fullKey →
    ∃ z ∈ m ++ [y], ∃ e, z.pre.keys hd.fullKey = some ⟨hd.token, e⟩ ∧
      (e ≤ z.env.now ∨ (c.call z.caller = .release x.caller ∧ z.post.keys hd.fullKey = none))
  released_once : ∀ i j h, c.call i = .release h → c.call j = .release h →
    (c.world s sched).Returned i .done → (c.world s sched).Returned j .done → i = j
  /-- Call `i` has released the handle in the part `a` of the run, and call `j` starts later. -/
  released_after : ∀ a b i j h r, (c.world s sched).log = a ++ b → c.call i = .release h →
    (c.prog i).Returns (history i a) .done → history j a = [] →
    (c.call j = .release h ∨ ∃ ttl, c.call j = .renew h ttl ∧ renewing ttl) →
    (c.world s sched).Returned j r → r = .failed .alreadyReleased
  notOwner_kept : ∀ i h, c.Uses i h → (c.world s sched).Returned i (.failed .notOwner) →
    ∀ x ∈ (c.world s sched).log, x.caller = i → x.post.keys = x.pre.keys

section Handles
variable {c : Calls ι} {i h : ι} {hd : Handle} {es : List (Act ι)}

theorem token_of_handleOf (hhd : c.handleOf h = some hd) : c.token h = .ok hd.token := by
  unfold Calls.handleOf at hhd
  split at hhd
  · rename_i htoken
    cases hhd
    exact htoken
  · cases hhd

theorem Calls.Uses.of_release {h' : ι} (huse : c.Uses i h) (hcall : c.call i = .release h') : h' = h := by
  rcases huse with hrelease | ⟨ttl, hrenew⟩
  · rw [hcall] at hrelease
    cases hrelease
    rfl
  · rw [hcall] at hrenew
    cases hrenew

theorem Calls.Uses.of_renew {h' : ι} {ttl : Int64} (huse : c.Uses i h) (hcall : c.call i = .renew h' ttl) :
    h' = h := by
  rcases huse with hrelease | ⟨ttl', hrenew⟩
  · rw [hcall] at hrelease
    cases hrelease
  · rw [hcall] at hrenew
    cases hrenew
    rfl

/-- A script that a call on the handle issues carries the token of the handle. -/
theorem KeyStep.others_kept {now : ℤ} {s t : Leases} {y : Act ι} (hstep : KeyStep now s t y)
    (hop : CallOp c i es y) (huse : c.Uses i h) (hhd : c.handleOf h = some hd) {key : GoString}
    {lease : Lease} (hs : s key = some lease) (hne : lease.token ≠ hd.token) : t key = some lease := by
  -- A call on the handle that finds its own token in another key has found another key.
  have hother : ∀ {h' hd' key' e}, h' = h → c.handleOf h' = some hd' → s key' = some ⟨hd'.token, e⟩ →
      key ≠ key' := by
    rintro h' hd' key' e rfl hhd' hmine rfl
    rw [hhd] at hhd'
    rw [hs] at hmine
    cases hhd'
    cases hmine
    exact hne rfl
  cases hstep with
  | keep hy ht => rw [ht, hs]
  | set hfree ht =>
    cases hop with
    | setNX hcall htoken reply =>
      rcases huse with hrelease | ⟨ttl, hrenew⟩
      · rw [hcall] at hrelease
        cases hrelease
      · rw [hcall] at hrenew
        cases hrenew
  | delete hmine hreply ht =>
    cases hop with
    | unlock hcall hhd' reply =>
      rw [ht, Function.update_of_ne (hother (huse.of_release hcall) hhd' hmine), hs]
  | extend hmine hreply ht =>
    cases hop with
    | renew hcall hhd' ms reply =>
      rw [ht, Function.update_of_ne (hother (huse.of_renew hcall) hhd' hmine), hs]

theorem CallOp.of_unlock {key token : GoString} {reply : Except GoString ℤ}
    (hop : CallOp c i es ⟨.unlock key token, reply⟩) :
    ∃ h hd, c.call i = .release h ∧ c.handleOf h = some hd ∧ hd.token = token := by
  cases hop with
  | unlock hcall hhd reply => exact ⟨_, _, hcall, hhd, rfl⟩

theorem CallOp.of_setNX {key token : GoString} {ttl : ℤ} {reply : Except GoString Bool}
    (hop : CallOp c i es ⟨.setNX key token ttl, reply⟩) : es = [] ∧ c.token i = .ok token := by
  cases hop with
  | setNX hcall htoken reply => exact ⟨rfl, htoken⟩

theorem releaseEnds_of_call {r : Result} (hcall : c.call i = .release h) (hret : (c.prog i).Returns es r) :
    (c.handleOf h = none ∧ r = .failed .nilClient) ∨
      ∃ hd, c.handleOf h = some hd ∧ ReleaseEnds h hd es r := by
  unfold Calls.prog at hret
  rw [hcall] at hret
  dsimp only at hret
  cases hhd : c.handleOf h with
  | none =>
    rw [hhd] at hret
    exact .inl ⟨rfl, (Prog.returns_ret.mp hret).2.symm⟩
  | some hd =>
    rw [hhd] at hret
    exact .inr ⟨hd, rfl, .of_returns hret⟩

theorem renewEnds_of_call {ttl : Int64} {r : Result} (hcall : c.call i = .renew h ttl)
    (hret : (c.prog i).Returns es r) : (c.handleOf h = none ∧ r = .failed .nilClient) ∨
      ∃ hd, RenewEnds h hd ttl es r := by
  unfold Calls.prog at hret
  rw [hcall] at hret
  dsimp only at hret
  cases hhd : c.handleOf h with
  | none =>
    rw [hhd] at hret
    exact .inl ⟨rfl, (Prog.returns_ret.mp hret).2.symm⟩
  | some hd =>
    rw [hhd] at hret
    exact .inr ⟨hd, .of_returns hret⟩

/-- A `Release` returns nil only after the script has deleted the key. -/
theorem history_of_done (hcall : c.call i = .release h) (hret : (c.prog i).Returns es .done) :
    ∃ hd, c.handleOf h = some hd ∧
      es = [⟨.compareAndSwap h, true⟩, ⟨.unlock hd.fullKey hd.token, .ok 1⟩] := by
  rcases releaseEnds_of_call hcall hret with hnil | ⟨hd, hhd, hends⟩
  · cases hnil.2
  · cases hends with
    | done => exact ⟨hd, hhd, rfl⟩

end Handles

/-- Whether a call has set the flag of the handle of call `h` and has not reset it. -/
def holding [DecidableEq ι] (h : ι) : List (Act ι) → ℤ
  | ⟨.compareAndSwap h', swapped⟩ :: es => if swapped = true ∧ h' = h ∧ es.length ≤ 1 then 1 else 0
  | _ => 0

section Flags
variable [DecidableEq ι] {c : Calls ι} {a : List (Event ι)} {x : Event ι} {s : State ι}

theorem holding_nonneg (h : ι) (es : List (Act ι)) : 0 ≤ holding h es := by
  unfold holding
  split
  · split_ifs <;> decide
  · exact le_rfl

/-- The flag of a handle is set exactly while one call holds it. -/
def FlagInv (a : List (Event ι)) (s : State ι) : Prop :=
  ∀ h, total (fun _ => holding h) a = if s.released h then 1 else 0

/-- A step that changes no flag, of a call that holds a flag after it as before. -/
theorem FlagInv.keep (h : FlagInv a x.pre) (hflags : x.post.released = x.pre.released)
    (hsame : ∀ k, holding k (history x.caller a ++ [x.act]) = holding k (history x.caller a)) :
    FlagInv (a ++ [x]) x.post := by
  intro k
  have htotal : total (fun _ => holding k) (a ++ [x]) = total (fun _ => holding k) a := by
    rw [total_snoc (fun _ => rfl) x, hsame k, sub_self, add_zero]
  rw [htotal, hflags]
  exact h k

theorem FlagInv.swap {k : ι} {swapped : Bool} (h : FlagInv a x.pre) (hx : x.Valid handle)
    (hact : x.act = ⟨.compareAndSwap k, swapped⟩) (hhist : history x.caller a = []) :
    FlagInv (a ++ [x]) x.post := by
  obtain ⟨hswapped, -, hflags⟩ := compareAndSwap_cases (hx.handle hact)
  intro k'
  have htotal : total (fun _ => holding k') (a ++ [x]) =
      total (fun _ => holding k') a + if swapped = true ∧ k = k' then 1 else 0 := by
    rw [total_snoc (fun _ => rfl) x, hhist, hact]
    simp [holding]
  rw [htotal, h k', hflags]
  by_cases hk : k = k'
  · subst hk
    rw [Function.update_self, hswapped]
    cases x.pre.released k <;> simp
  · have hne : ¬ (swapped = true ∧ k = k') := fun hand => hk hand.2
    rw [Function.update_of_ne (Ne.symm hk), if_neg hne, add_zero]

theorem FlagInv.reset {k : ι} {y : Act ι} (h : FlagInv a x.pre) (hx : x.Valid handle)
    (hact : x.act = ⟨.reset k, ()⟩) (hhist : history x.caller a = [⟨.compareAndSwap k, true⟩, y]) :
    FlagInv (a ++ [x]) x.post := by
  have hflags : x.post.released = Function.update x.pre.released k false := by
    rw [← (Prod.mk.inj (hx.handle hact)).2]
  intro k'
  have htotal : total (fun _ => holding k') (a ++ [x]) =
      total (fun _ => holding k') a - if k = k' then 1 else 0 := by
    rw [total_snoc (fun _ => rfl) x, hhist, hact]
    simp [holding, sub_eq_add_neg]
  rw [htotal, hflags]
  by_cases hk : k = k'
  · subst hk
    -- The call itself holds the flag, and no other call does.
    have hself : holding k (history x.caller a) ≤ total (fun _ => holding k) a :=
      le_total (c := fun _ => holding k) (fun _ => rfl) (fun _ => holding_nonneg k _) x.caller
    have hone : holding k (history x.caller a) = 1 := by
      rw [hhist]
      simp [holding]
    have hflag := h k
    rw [Function.update_self, if_pos rfl, if_neg (by decide)]
    split_ifs at hflag <;> omega
  · rw [Function.update_of_ne (Ne.symm hk), if_neg hk, sub_zero]
    exact h k'

theorem FlagInv.step (h : FlagInv a x.pre) (hx : x.Valid handle)
    (hop : CallOp c x.caller (history x.caller a) x.act) : FlagInv (a ++ [x]) x.post := by
  generalize hhist : history x.caller a = es at hop
  generalize hact : x.act = y at hop
  cases hop with
  | setNX hcall htoken reply =>
    apply h.keep (onKeys_cases (hx.handle hact)).1
    intro k
    rw [hhist, hact]
    rfl
  | swap hcall hhd swapped => exact h.swap hx hact hhist
  | unlock hcall hhd reply =>
    apply h.keep (onKeys_cases (hx.handle hact)).1
    intro k
    rw [hhist, hact]
    simp [holding]
  | reset hcall hhd text => exact h.reset hx hact hhist
  | load hcall hhd released =>
    have hpost : x.pre = x.post := (Prod.mk.inj (hx.handle hact)).2
    apply h.keep (by rw [hpost])
    intro k
    rw [hhist, hact]
    rfl
  | renew hcall hhd ms reply =>
    apply h.keep (onKeys_cases (hx.handle hact)).1
    intro k
    rw [hhist, hact]
    rfl

/-- Two calls cannot hold the flag of one handle. -/
theorem FlagInv.unique (h : FlagInv a s) {i j k : ι} (hi : holding k (history i a) = 1)
    (hj : holding k (history j a) = 1) : i = j := by
  by_contra hne
  have hcard : (({i, j} : Finset ι).card : ℤ) ≤ total (fun _ => holding k) a := by
    apply card_le_total (c := fun _ => holding k) (fun _ => rfl) (fun _ => holding_nonneg k _)
    intro l hl
    rcases Finset.mem_insert.mp hl with rfl | hl
    · exact hi.ge
    · rw [Finset.mem_singleton.mp hl]
      exact hj.ge
  have hflag := h k
  rw [Finset.card_pair hne] at hcard
  split_ifs at hflag <;> omega

theorem FlagInv.set (h : FlagInv a s) {i k : ι} (hi : holding k (history i a) = 1) : s.released k = true := by
  have hle : holding k (history i a) ≤ total (fun _ => holding k) a :=
    le_total (c := fun _ => holding k) (fun _ => rfl) (fun _ => holding_nonneg k _) i
  have hflag := h k
  split_ifs at hflag with hset
  · exact hset
  · omega

end Flags

section Run
variable [DecidableEq ι] {c : Calls ι} {s : Leases} {w : Config ι (Op ι) Reply Env (State ι) Result}

theorem callOp_of_split (hw : w.Sound handle c.prog ⟨s, fun _ => false⟩) {a b : List (Event ι)} {x : Event ι}
    (hl : w.log = a ++ x :: b) : CallOp c x.caller (history x.caller a) x.act :=
  .of_path (hw.path_split hl)

theorem callOp_of_mem (hw : w.Sound handle c.prog ⟨s, fun _ => false⟩) {x : Event ι} (hx : x ∈ w.log) :
    ∃ es, CallOp c x.caller es x.act := by
  obtain ⟨a, b, hl⟩ := List.append_of_mem hx
  exact ⟨_, callOp_of_split hw hl⟩

theorem flagInv_of_exec (hw : w.Sound handle c.prog ⟨s, fun _ => false⟩) {l b : List (Event ι)}
    (hl : w.log = l ++ b) {u : State ι} (hexec : Exec handle ⟨s, fun _ => false⟩ l u) : FlagInv l u := by
  apply hexec.invariant_within (P := FlagInv) hl
  · intro h
    rfl
  · intro a x b' hlog hx ih
    exact ih.step hx (callOp_of_split hw hlog)

theorem Grants.current {hd : Handle} {x : Event ι} (hgrant : Grants hd x) (hx : x.Valid handle) :
    hd.Current x.post.keys := by
  obtain ⟨ttl, hact⟩ := hgrant
  have hstep := KeyStep.of_valid hx
  rw [hact] at hstep
  cases hstep with
  | keep hy ht => cases hy
  | set hfree ht => exact ⟨x.env.now + ttl, by rw [ht, Function.update_self]⟩

/-- The token of a handle leaves its key when it has expired, or by the script of its own `Release`. -/
theorem Handle.Current.leave {hd : Handle} {i : ι} {es : List (Act ι)} {z : Event ι}
    (hdist : c.DistinctTokens) (htoken : c.token i = .ok hd.token) (hz : z.Valid handle)
    (hop : CallOp c z.caller es z.act) (hpre : hd.Current z.pre.keys) (hpost : ¬ hd.Current z.post.keys) :
    ∃ e, z.pre.keys hd.fullKey = some ⟨hd.token, e⟩ ∧
      (e ≤ z.env.now ∨ (c.call z.caller = .release i ∧ z.post.keys hd.fullKey = none)) := by
  obtain ⟨e, he⟩ := hpre
  refine ⟨e, he, ?_⟩
  have hstays : z.post.keys hd.fullKey ≠ some ⟨hd.token, e⟩ := fun h => hpost ⟨e, h⟩
  -- A script that found its token in the key of the handle had the token of the handle.
  have htoken_of_mine : ∀ {key token e'}, hd.fullKey = key → z.pre.keys key = some ⟨token, e'⟩ →
      hd.token = token := by
    rintro key token e' rfl hmine
    rw [he] at hmine
    exact congrArg Lease.token (Option.some.inj hmine)
  have hstep := KeyStep.of_valid hz
  generalize hact : z.act = y at hop hstep
  cases hstep with
  | keep hy ht =>
    rw [ht] at hstays
    exact absurd he hstays
  | @set key token ttl reply hfree ht =>
    by_cases hkey : hd.fullKey = key
    · exact .inl (hfree _ (hkey ▸ he))
    · rw [ht, Function.update_of_ne hkey] at hstays
      exact absurd he hstays
  | @delete key token e' reply hmine hreply ht =>
    by_cases hkey : hd.fullKey = key
    · obtain ⟨h, hd', hcall, hhd', htoken'⟩ := hop.of_unlock
      have hsame : hd.token = token := htoken_of_mine hkey hmine
      have howner : h = i := by
        apply hdist h i hd.token _ htoken
        rw [token_of_handleOf hhd', htoken', hsame]
      refine .inr ⟨?_, ?_⟩
      · rw [hcall, howner]
      · rw [ht, hkey, Function.update_self]
    · rw [ht, Function.update_of_ne hkey] at hstays
      exact absurd he hstays
  | @extend key token ttl e' reply hmine hreply ht =>
    by_cases hkey : hd.fullKey = key
    · have hsame : hd.token = token := htoken_of_mine hkey hmine
      exact absurd ⟨z.env.now + ttl, by rw [ht, hkey, Function.update_self, hsame]⟩ hpost
    · rw [ht, Function.update_of_ne hkey] at hstays
      exact absurd he hstays

theorem handed_over_of_sound (hdist : c.DistinctTokens) (hw : w.Sound handle c.prog ⟨s, fun _ => false⟩)
    {a m b : List (Event ι)} {x y : Event ι} {hd hd' : Handle} (hl : w.log = a ++ x :: (m ++ y :: b))
    (hx : Grants hd x) (hy : Grants hd' y) (hkey : hd'.fullKey = hd.fullKey) :
    ∃ z ∈ m ++ [y], ∃ e, z.pre.keys hd.fullKey = some ⟨hd.token, e⟩ ∧
      (e ≤ z.env.now ∨ (c.call z.caller = .release x.caller ∧ z.post.keys hd.fullKey = none)) := by
  have hexec := hw.exec
  rw [hl] at hexec
  obtain ⟨-, hxv, hrest⟩ := hexec.split
  obtain ⟨hmid, hyv, -⟩ := hrest.split
  have hly : w.log = (a ++ x :: m) ++ y :: b := by rw [hl, List.append_assoc, List.cons_append]
  obtain ⟨ttl, hxact⟩ := hx
  obtain ⟨ttl', hyact⟩ := hy
  have hxop := callOp_of_split hw hl
  have hyop := callOp_of_split hw hly
  rw [hxact] at hxop
  rw [hyact] at hyop
  obtain ⟨-, hxtoken⟩ := hxop.of_setNX
  obtain ⟨hyfirst, hytoken⟩ := hyop.of_setNX
  -- One call acquires once, so that the second grant stores another token.
  have hne : hd.token ≠ hd'.token := by
    intro hsame
    rw [← hsame] at hytoken
    have hcaller := hdist _ _ _ hxtoken hytoken
    rw [← hcaller, history_append, history_cons_self] at hyfirst
    simp at hyfirst
  have hafter : ¬ hd.Current y.post.keys := by
    rintro ⟨e, he⟩
    obtain ⟨e', he'⟩ := Grants.current ⟨ttl', hyact⟩ hyv
    rw [hkey, he] at he'
    exact hne (congrArg Lease.token (Option.some.inj he'))
  have hchain : Exec handle x.post (m ++ [y]) y.post := hmid.append ⟨rfl, hyv, rfl⟩
  obtain ⟨z, hz, hzv, hpre, hpost⟩ :=
    hchain.exists_leaving (P := fun t => hd.Current t.keys) (Grants.current ⟨ttl, hxact⟩ hxv) hafter
  have hmem : z ∈ w.log := by
    rw [hl]
    apply List.mem_append_right
    apply List.mem_cons_of_mem
    rcases List.mem_append.mp hz with hz | hz
    · exact List.mem_append_left _ hz
    · rw [List.mem_singleton.mp hz]
      exact List.mem_append_right _ List.mem_cons_self
  obtain ⟨es, hzop⟩ := callOp_of_mem hw hmem
  exact ⟨z, hz, Handle.Current.leave hdist hxtoken hzv hzop hpre hpost⟩

theorem holding_of_done {i h : ι} {l : List (Event ι)} (hcall : c.call i = .release h)
    (hret : (c.prog i).Returns (history i l) .done) : holding h (history i l) = 1 := by
  obtain ⟨hd, -, hes⟩ := history_of_done hcall hret
  rw [hes]
  simp [holding]

/-- Once a `Release` has returned nil, the flag is set in every later state. -/
theorem released_of_done (hw : w.Sound handle c.prog ⟨s, fun _ => false⟩) {i h : ι}
    {a m b : List (Event ι)} {x : Event ι} (hl : w.log = a ++ (m ++ x :: b)) (hcall : c.call i = .release h)
    (hret : (c.prog i).Returns (history i a) .done) : x.pre.released h = true := by
  have hpath := hw.path i
  rw [hl, history_append, history_append] at hpath
  have hnone : history i m = [] := (List.append_eq_nil_iff.mp (hret.eq_of_path hpath).1).1
  have hl' : w.log = (a ++ m) ++ x :: b := by rw [hl, List.append_assoc]
  have hexec := hw.exec
  rw [hl'] at hexec
  have hinv := flagInv_of_exec hw hl' hexec.split.1
  apply hinv.set (i := i)
  rw [history_append, hnone, List.append_nil]
  exact holding_of_done hcall hret

/-- The first operation of a call that starts after a `Release` has returned nil finds the flag set. -/
theorem first_of_done (hw : w.Sound handle c.prog ⟨s, fun _ => false⟩) {i j h : ι} {a b : List (Event ι)}
    (hl : w.log = a ++ b) (hcall : c.call i = .release h) (hret : (c.prog i).Returns (history i a) .done)
    {y : Act ι} {es : List (Act ι)} (hes : history j b = y :: es) :
    ∃ x : Event ι, x.Valid handle ∧ x.act = y ∧ x.pre.released h = true := by
  obtain ⟨m, x, b', rfl, -, hact, -, -⟩ := exists_of_history_cons hes
  have hmem : x ∈ w.log := by
    rw [hl]
    exact List.mem_append_right _ (List.mem_append_right _ List.mem_cons_self)
  exact ⟨x, hw.exec.valid hmem, hact, released_of_done hw hl hcall hret⟩

theorem release_refused (hw : w.Sound handle c.prog ⟨s, fun _ => false⟩) {i j h : ι} {a b : List (Event ι)}
    {r : Result} (hl : w.log = a ++ b) (hcall : c.call i = .release h)
    (hret : (c.prog i).Returns (history i a) .done) (hj : c.call j = .release h)
    (hr : (c.prog j).Returns (history j b) r) : r = .failed .alreadyReleased := by
  have hswap : ∀ swapped es, history j b = ⟨.compareAndSwap h, swapped⟩ :: es → swapped = false := by
    intro swapped es hes
    obtain ⟨x, hx, hact, hset⟩ := first_of_done hw hl hcall hret hes
    have hreply := (compareAndSwap_cases (hx.handle hact)).1
    rw [hset] at hreply
    exact hreply
  obtain ⟨hd, hhd, -⟩ := history_of_done hcall hret
  rcases releaseEnds_of_call hj hr with ⟨hnone, -⟩ | ⟨hd', -, hends⟩
  · rw [hhd] at hnone
    cases hnone
  generalize hes : history j b = es at hends
  cases hends with
  | refused => rfl
  | error text => cases hswap true _ hes
  | notOwner hres => cases hswap true _ hes
  | done => cases hswap true _ hes

theorem renew_refused (hw : w.Sound handle c.prog ⟨s, fun _ => false⟩) {i j h : ι} {a b : List (Event ι)}
    {r : Result} (hl : w.log = a ++ b) (hcall : c.call i = .release h)
    (hret : (c.prog i).Returns (history i a) .done) {ttl : Int64} (hj : c.call j = .renew h ttl)
    (httl : 0 < ttl) (hr : (c.prog j).Returns (history j b) r) : r = .failed .alreadyReleased := by
  have hload : ∀ released es, history j b = ⟨.load h, released⟩ :: es → released = true := by
    intro released es hes
    obtain ⟨x, hx, hact, hset⟩ := first_of_done hw hl hcall hret hes
    have hreply : x.pre.released h = released := (Prod.mk.inj (hx.handle hact)).1
    rw [← hreply, hset]
  obtain ⟨hd, hhd, -⟩ := history_of_done hcall hret
  rcases renewEnds_of_call hj hr with ⟨hnone, -⟩ | ⟨hd', hends⟩
  · rw [hhd] at hnone
    cases hnone
  generalize hes : history j b = es at hends
  cases hends with
  | invalid hle => exact absurd hle (Int64.not_le.mpr httl)
  | refused => rfl
  | error ms text => cases hload false _ hes
  | notOwner ms hres => cases hload false _ hes
  | done ms => cases hload false _ hes

theorem keys_of_notOwner (hw : w.Sound handle c.prog ⟨s, fun _ => false⟩) {i h : ι} (huse : c.Uses i h)
    (hr : w.Returned i (.failed .notOwner)) {x : Event ι} (hx : x ∈ w.log) (hi : x.caller = i) :
    x.post.keys = x.pre.keys := by
  have hret := hw.returns hr
  have hmem : x.act ∈ history i w.log := mem_history.mpr ⟨x, hx, hi, rfl⟩
  have hstep := KeyStep.of_valid (hw.exec.valid hx)
  generalize history i w.log = es at hret hmem
  generalize x.act = y at hmem hstep
  rcases huse with hrelease | ⟨ttl, hrenew⟩
  · rcases releaseEnds_of_call hrelease hret with ⟨-, hnil⟩ | ⟨hd, -, hends⟩
    · cases hnil
    cases hends with
    | notOwner hres =>
      rcases List.mem_cons.mp hmem with rfl | hmem
      · cases hstep with
        | keep hy ht => exact ht
      · rw [List.mem_singleton.mp hmem] at hstep
        cases hstep with
        | keep hy ht => exact ht
        | delete hmine hreply ht => exact absurd (hreply _ rfl) hres
  · rcases renewEnds_of_call hrenew hret with ⟨-, hnil⟩ | ⟨hd, hends⟩
    · cases hnil
    cases hends with
    | notOwner ms hres =>
      rcases List.mem_cons.mp hmem with rfl | hmem
      · cases hstep with
        | keep hy ht => exact ht
      · rw [List.mem_singleton.mp hmem] at hstep
        cases hstep with
        | keep hy ht => exact ht
        | extend hmine hreply ht => exact absurd (hreply _ rfl) hres

theorem acquired_of_sound (hw : w.Sound handle c.prog ⟨s, fun _ => false⟩) {i : ι} {key : GoString}
    {ttl : Int64} {hd : Handle} (hcall : c.call i = .acquire key ttl) (hr : w.Returned i (.acquired hd)) :
    c.handleOf i = some hd ∧ ∃ x ∈ w.log, x.caller = i ∧ Grants hd x := by
  have hret := hw.returns hr
  unfold Calls.prog at hret
  rw [hcall] at hret
  obtain ⟨hclient, htoken, hkey, hes⟩ := granted_of_acquired hret
  constructor
  · unfold Calls.handleOf
    rw [hclient, hcall, htoken]
    show some (⟨c.keyPrefix i ++ key, hd.token⟩ : Handle) = some hd
    rw [← hkey]
  · have hmem : (⟨.setNX hd.fullKey hd.token (formatMs ttl), .ok true⟩ : Act ι) ∈ history i w.log := by
      rw [hes]
      exact List.mem_singleton_self _
    obtain ⟨x, hx, hi, hact⟩ := mem_history.mp hmem
    exact ⟨x, hx, hi, _, hact⟩

end Run

variable [DecidableEq ι]

/-- Whatever keys there are at first, whatever replies are lost and however the clocks run: if no two
calls generate one token, the handles are safe, except that a `Renew` with a duration that is not
positive is refused for that reason. -/
theorem distributed_ownerSafe (c : Calls ι) (hdist : c.DistinctTokens) (s : Leases)
    (sched : List (ι × Env)) : OwnerSafe (fun ttl => 0 < ttl) c s sched := by
  have hw : Config.Sound handle c.prog ⟨s, fun _ => false⟩ (c.world s sched) := Config.run_sound _ _ _ _
  constructor
  case others_kept =>
    intro x hx h hd huse hhd key lease hs hne
    obtain ⟨es, hop⟩ := callOp_of_mem hw hx
    exact (KeyStep.of_valid (hw.exec.valid hx)).others_kept hop huse hhd hs hne
  case acquired =>
    intro i key ttl hd hcall hr
    exact acquired_of_sound hw hcall hr
  case one_current =>
    rintro i j hd hd' hij hhd hhd' hkey ⟨e, he⟩ ⟨e', he'⟩
    rw [hkey, he] at he'
    have hsame : hd.token = hd'.token := congrArg Lease.token (Option.some.inj he')
    apply hij
    apply hdist i j hd.token (token_of_handleOf hhd)
    rw [hsame]
    exact token_of_handleOf hhd'
  case handed_over =>
    intro a x m y b hd hd' hl hx hy hkey
    exact handed_over_of_sound hdist hw hl hx hy hkey
  case released_once =>
    intro i j h hi hj hri hrj
    have hinv : FlagInv (c.world s sched).log (c.world s sched).store :=
      flagInv_of_exec hw (List.append_nil _).symm hw.exec
    exact hinv.unique (holding_of_done hi (hw.returns hri)) (holding_of_done hj (hw.returns hrj))
  case released_after =>
    intro a b i j h r hl hi hret hstart hj hr
    have hends := hw.returns hr
    rw [hl, history_append, hstart, List.nil_append] at hends
    rcases hj with hrelease | ⟨ttl, hrenew, httl⟩
    · exact release_refused hw hl hi hret hrelease hends
    · exact renew_refused hw hl hi hret hrenew httl hends
  case notOwner_kept =>
    intro i h huse hr x hx hi
    exact keys_of_notOwner hw huse hr hx hi

/-- An `Acquire`, the `Release` of its handle, and a `Renew` of it with duration 0. -/
def released : Calls ℕ where
  call
    | 0 => .acquire (lit "k") 1000000000
    | 1 => .release 0
    | _ => .renew 0 0
  client _ := true
  keyPrefix _ := lit "synapse:lock:"
  token i := .ok (List.replicate i 0x61)

def oneByOne : List (ℕ × Env) := [(0, ⟨0, none⟩), (1, ⟨5, none⟩), (1, ⟨6, none⟩)]

theorem released_ownerSafe : OwnerSafe (fun ttl => 0 < ttl) released (fun _ => none) oneByOne := by
  apply distributed_ownerSafe
  intro i j t hi hj
  have htoken : List.replicate i (0x61 : UInt8) = List.replicate j 0x61 := Except.ok.inj (hi.trans hj.symm)
  simpa using congrArg List.length htoken

/-- The `Renew` after the `Release` returns `ErrInvalidTTL`. -/
theorem invalid_renew_not_ownerSafe : ¬ OwnerSafe (fun _ => True) released (fun _ => none) oneByOne := by
  intro h
  have hw : Config.Sound handle released.prog ⟨fun _ => none, fun _ => false⟩
      (released.world (fun _ => none) oneByOne) := Config.run_sound _ _ _ _
  have hdone : (released.world (fun _ => none) oneByOne).Returned 1 .done := by decide +kernel
  have hinvalid : (released.world (fun _ => none) oneByOne).Returned 2 (.failed .invalidTTL) := by
    decide +kernel
  have hresult := h.released_after _ [] 1 2 0 _ (List.append_nil _).symm rfl (hw.returns hdone) rfl
    (.inr ⟨0, rfl, trivial⟩) hinvalid
  cases hresult

end SynapseGo.Lock
