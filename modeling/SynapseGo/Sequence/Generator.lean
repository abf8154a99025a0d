import SynapseGo.Concurrency.Interleaving
import SynapseGo.Go.Calendar
import SynapseGo.Go.Strconv
import SynapseGo.Redis.Lease
import SynapseGo.Redis.Store

/-! `Generator.Next`: numbers that Redis counts for each business and day. Identifiers are
unique because no counter expires while a call may still count in it. -/
namespace SynapseGo.Sequence
open SynapseGo.Go SynapseGo.Concurrency SynapseGo.Redis

/-- The local time zone. It goes back by 23 hours at most, so that a date lasts 47 hours at most. -/
structure Location where
  /-- Seconds east of UTC at a Unix second. -/
  offset : ℤ → ℤ
  steady : ∀ t u, t ≤ u → offset t - offset u ≤ 23 * 3600

namespace Location

/-- The Unix seconds that the wall clock shows at `now` milliseconds. -/
def seconds (loc : Location) (now : ℤ) : ℤ := now / 1000 + loc.offset (now / 1000)

def localTime (loc : Location) (now : ℤ) : Time := Time.ofUnix (Int64.ofInt (loc.seconds now))

end Location

/-- `Format("20060102")`. -/
def formatDate (d : Time.Date) : GoString := padInt 4 d.year ++ padInt 2 d.month ++ padInt 2 d.day

def Location.date (loc : Location) (now : ℤ) : GoString := formatDate (loc.localTime now).date

structure Generator where
  keyPrefix : GoString

def Generator.key (g : Generator) (bizPrefix date : GoString) : GoString :=
  g.keyPrefix ++ lit ":seq:" ++ bizPrefix ++ lit ":" ++ date

inductive Op where
  /-- `time.Now()`. -/
  | now
  | incr (key : GoString)
  | expire (key : GoString) (ttl : ℤ)
  deriving DecidableEq, Repr

abbrev Reply : Op → Type
  | .now => ℤ
  | .incr _ => Except GoString ℤ
  | .expire _ _ => Except GoString ℤ

/-- An operation with its reply. -/
abbrev Act := Σ op, Reply op

/-- Milliseconds of the clock that all processes and the server share, and a fault of the connection. -/
structure Env where
  now : ℤ
  fault : Option Fault

/-- What the client reports of a command: an error of the server and a fault are both its error. -/
def Env.result (env : Env) (s : Store GoString) (r : Except GoString ℤ × Store GoString) :
    Except GoString ℤ × Store GoString :=
  ((answer env.fault s r).1.bind id, (answer env.fault s r).2)

def handle : Handler Op Reply Env (Store GoString)
  | env, .now, s => (env.now, s)
  | env, .incr key, s => env.result s (incrBy env.now key 1 s)
  | env, .expire key ttl, s => env.result s (Redis.expire env.now key ttl s)

/-- `48*time.Hour`, in the seconds that the client sends. -/
def keyTTL : ℤ := 172800

def Generator.next (loc : Location) (g : Generator) (bizPrefix : GoString) :
    Prog Op Reply (Except GoString GoString) := do
  let now ← Prog.perform .now
  let date := loc.date now
  let key := g.key bizPrefix date
  match ← Prog.perform (Op.incr key) with
  | .error text => return .error (lit "sequence incr: " ++ text)
  | .ok seq =>
    -- The result of `Expire` is not looked at.
    let _ ← Prog.perform (.expire key keyTTL)
    return .ok (bizPrefix ++ date ++ formatZero 3 seq)

section Texts
variable {loc : Location} {t u : ℤ}

/-- The date at `t` has a year of four digits. -/
abbrev Location.Dated (loc : Location) (t : ℤ) : Prop := Calendar.FourDigit (loc.seconds t + 62135596800)

theorem Location.sec_localTime (ht : loc.Dated t) :
    (loc.localTime t).sec.toInt = loc.seconds t + 62135596800 := by
  obtain ⟨hlo, hhi⟩ := ht
  have hunix : (Int64.ofInt (loc.seconds t)).toInt = loc.seconds t :=
    Int64.toInt_ofInt_of_le (by omega) (by omega)
  have hexact : (loc.seconds t + 62135596800).bmod (2 ^ 64) = loc.seconds t + 62135596800 := by
    apply Int.bmod_eq_of_le <;> omega
  rw [Location.localTime, Time.ofUnix, Int64.toInt_add, hunix, Time.toInt_unixToInternal, hexact]

theorem Location.date_bounds (ht : loc.Dated t) :
    0 ≤ (loc.localTime t).date.year ∧ (loc.localTime t).date.year < 10 ^ 4 ∧
    0 ≤ (loc.localTime t).date.month ∧ (loc.localTime t).date.month < 10 ^ 2 ∧
    0 ≤ (loc.localTime t).date.day ∧ (loc.localTime t).date.day < 10 ^ 2 := by
  apply Calendar.date_bounds
  rw [Location.sec_localTime ht]
  exact ht

/-- The three fields of a date take their widths. -/
theorem Location.length_fields (ht : loc.Dated t) :
    (padInt 4 (loc.localTime t).date.year).length = 4 ∧ (padInt 2 (loc.localTime t).date.month).length = 2 ∧
    (padInt 2 (loc.localTime t).date.day).length = 2 := by
  obtain ⟨hy, hy', hm, hm', hd, hd'⟩ := Location.date_bounds ht
  exact ⟨length_padInt (by decide) hy hy', length_padInt (by decide) hm hm', length_padInt (by decide) hd hd'⟩

theorem Location.length_date (ht : loc.Dated t) : (loc.date t).length = 8 := by
  obtain ⟨hyear, hmonth, hday⟩ := Location.length_fields ht
  rw [Location.date, formatDate, List.length_append, List.length_append, hyear, hmonth, hday]

/-- A date begins with a digit, as no year is negative. -/
theorem Location.date_head (ht : loc.Dated t) : ∃ b l, loc.date t = b :: l ∧ isDigit b = true := by
  have hyear := (Location.date_bounds ht).1
  cases hpad : padInt 4 (loc.localTime t).date.year with
  | nil => exact absurd hpad (padInt_ne_nil _ _)
  | cons b l =>
    refine ⟨b, l ++ padInt 2 (loc.localTime t).date.month ++ padInt 2 (loc.localTime t).date.day, ?_, ?_⟩
    · rw [Location.date, formatDate, hpad, List.cons_append, List.cons_append]
    · have hmem : b ∈ padNat 4 (loc.localTime t).date.year.natAbs := by
        rw [← padInt_of_nonneg hyear, hpad]
        exact List.mem_cons_self
      exact isDigit_iff.mpr (padNat_digit hmem)

/-- Two instants with the same date lie less than 47 hours apart. -/
theorem Location.lt_of_date_eq (ht : loc.Dated t) (hu : loc.Dated u) (h : loc.date t = loc.date u) :
    u < t + 47 * 3600000 := by
  obtain ⟨hyt, hmt, hdt⟩ := Location.length_fields ht
  obtain ⟨hyu, hmu, hdu⟩ := Location.length_fields hu
  obtain ⟨hfront, hday⟩ := List.append_inj' h (hdt.trans hdu.symm)
  obtain ⟨hyear, hmonth⟩ := List.append_inj' hfront (hmt.trans hmu.symm)
  have hdate : (loc.localTime t).date = (loc.localTime u).date := by
    rw [Time.Date.mk.injEq]
    exact ⟨padInt_injective 4 hyear, padInt_injective 2 hmonth, padInt_injective 2 hday⟩
  have hdays := Calendar.day_eq_of_date_eq hdate
  rw [Location.sec_localTime ht, Location.sec_localTime hu] at hdays
  unfold Location.seconds at hdays
  by_cases hle : t / 1000 ≤ u / 1000
  · have hsteady := loc.steady _ _ hle
    omega
  · omega

/-- One generator has different counters for different dates. -/
theorem Generator.date_eq_of_key_eq {g : Generator} {biz biz' : GoString} (ht : loc.Dated t)
    (hu : loc.Dated u) (h : g.key biz (loc.date t) = g.key biz' (loc.date u)) : loc.date t = loc.date u :=
  (List.append_inj' h ((Location.length_date ht).trans (Location.length_date hu).symm)).2

/-- The identifier of a business whose name has no digit can be read back: the date begins at the
first digit and has eight, and the number is the rest. -/
theorem id_inj {biz biz' : GoString} {v v' : ℤ} (hbiz : ∀ b ∈ biz, isDigit b = false)
    (hbiz' : ∀ b ∈ biz', isDigit b = false) (ht : loc.Dated t) (hu : loc.Dated u)
    (h : biz ++ loc.date t ++ formatZero 3 v = biz' ++ loc.date u ++ formatZero 3 v') :
    biz = biz' ∧ loc.date t = loc.date u ∧ v = v' := by
  have hfront : ∀ {biz : GoString} {t : ℤ} (rest : GoString), (∀ b ∈ biz, isDigit b = false) → loc.Dated t →
      (biz ++ (loc.date t ++ rest)).takeWhile (fun b => !isDigit b) = biz := by
    intro biz t rest hbiz ht
    obtain ⟨b, l, hdate, hdigit⟩ := Location.date_head ht
    rw [List.takeWhile_append_of_pos (by simpa using hbiz), hdate, List.cons_append,
      List.takeWhile_cons_of_neg (by simp [hdigit]), List.append_nil]
  rw [List.append_assoc, List.append_assoc] at h
  have hsame : biz = biz' := by
    rw [← hfront (formatZero 3 v) hbiz ht, h, hfront (formatZero 3 v') hbiz' hu]
  subst hsame
  obtain ⟨hdate, hnumber⟩ := List.append_inj (List.append_cancel_left h)
    ((Location.length_date ht).trans (Location.length_date hu).symm)
  exact ⟨rfl, hdate, formatZero_injective 3 hnumber⟩

end Texts

/-- What a call does next, after it has read the clock at `t`. -/
inductive NextOp (loc : Location) (g : Generator) (biz : GoString) : List Act → Act → Prop
  | now (t : ℤ) : NextOp loc g biz [] ⟨.now, t⟩
  | incr (t : ℤ) (reply : Except GoString ℤ) :
    NextOp loc g biz [⟨.now, t⟩] ⟨.incr (g.key biz (loc.date t)), reply⟩
  | expire (t v : ℤ) (reply : Except GoString ℤ) :
    NextOp loc g biz [⟨.now, t⟩, ⟨.incr (g.key biz (loc.date t)), (.ok v : Except GoString ℤ)⟩]
      ⟨.expire (g.key biz (loc.date t)) keyTTL, reply⟩

theorem NextOp.of_path {loc : Location} {g : Generator} {biz : GoString} {es es' : List Act} {y : Act}
    {q : Prog Op Reply (Except GoString GoString)} (h : (g.next loc biz).Path (es ++ y :: es') q) :
    NextOp loc g biz es y := by
  unfold Generator.next at h
  rw [Prog.perform_bind] at h
  rcases h.op_split with ⟨rfl, t, rfl⟩ | ⟨t, es₁, rfl, h₁⟩
  · exact .now t
  dsimp only at h₁
  rw [Prog.perform_bind] at h₁
  rcases h₁.op_split with ⟨rfl, reply, rfl⟩ | ⟨reply, es₂, rfl, h₂⟩
  · exact .incr t reply
  cases reply with
  | error text => exact h₂.ret_split.elim
  | ok v =>
    dsimp only at h₂
    rw [Prog.perform_bind] at h₂
    obtain ⟨rfl, reply, rfl⟩ := h₂.single_split
    exact .expire t v reply

/-- A call that returned an identifier has counted, in the counter of the date it read. -/
theorem next_returns {loc : Location} {g : Generator} {biz id : GoString} {es : List Act}
    (h : (g.next loc biz).Returns es (.ok id)) : ∃ t v reply, id = biz ++ loc.date t ++ formatZero 3 v ∧
      es = [⟨.now, t⟩, ⟨.incr (g.key biz (loc.date t)), (.ok v : Except GoString ℤ)⟩,
        ⟨.expire (g.key biz (loc.date t)) keyTTL, reply⟩] := by
  unfold Generator.next at h
  rw [Prog.perform_bind, Prog.returns_op] at h
  obtain ⟨t, es₁, rfl, h₁⟩ := h
  dsimp only at h₁
  rw [Prog.perform_bind, Prog.returns_op] at h₁
  obtain ⟨reply, es₂, rfl, h₂⟩ := h₁
  cases reply with
  | error text =>
    obtain ⟨-, hid⟩ := Prog.returns_ret.mp h₂
    cases hid
  | ok v =>
    dsimp only at h₂
    rw [Prog.perform_bind, Prog.returns_op] at h₂
    obtain ⟨reply, es₃, rfl, h₃⟩ := h₂
    obtain ⟨rfl, hid⟩ := Prog.returns_ret.mp h₃
    cases hid
    exact ⟨t, v, reply, rfl, rfl⟩

section Steps
variable {ι : Type}

abbrev Event (ι : Type) := Entry ι Op Reply Env (Store GoString)

/-- No counter of the generator expires before every call that read its date has counted. -/
def Kept (loc : Location) (g : Generator) (s : Store GoString) : Prop :=
  ∀ biz t, loc.Dated t → ∀ c ∈ s (g.key biz (loc.date t)), ∀ e ∈ c.expireAt, t + 3600000 < e

/-- One step of a call for some business that read the clock at `t`, within an hour before it counts. -/
inductive Step (loc : Location) (g : Generator) (x : Event ι) : Prop
  | now {t : ℤ} (hact : x.act = ⟨.now, t⟩)
  | incr {biz : GoString} {t : ℤ} {reply : Except GoString ℤ} (hdated : loc.Dated t)
    (hact : x.act = ⟨.incr (g.key biz (loc.date t)), reply⟩) (hprompt : x.env.now ≤ t + 3600000)
  | expire {biz : GoString} {t : ℤ} {reply : Except GoString ℤ} (hdated : loc.Dated t)
    (hact : x.act = ⟨.expire (g.key biz (loc.date t)) keyTTL, reply⟩) (hafter : t ≤ x.env.now)

/-- A command had no effect and failed, or it was executed and its reply is right or lost. -/
theorem result_cases {env : Env} {s t : Store GoString} {r : Except GoString ℤ × Store GoString}
    {reply : Except GoString ℤ} (h : env.result s r = (reply, t)) :
    (t = s ∧ ∃ text, reply = .error text) ∨ (t = r.2 ∧ ∀ v, reply = .ok v → r.1 = .ok v) := by
  cases ha : answer env.fault s r with
  | mk a u =>
    unfold Env.result at h
    rw [ha] at h
    obtain ⟨rfl, rfl⟩ := Prod.mk.inj h
    rcases answer_cases ha with ⟨⟨text, rfl⟩, hsame⟩ | ⟨hdone, hreply⟩
    · exact Or.inl ⟨hsame, text, rfl⟩
    · refine Or.inr ⟨hdone, ?_⟩
      intro v hv
      cases a with
      | error text => cases hv
      | ok result => exact (hreply result rfl).symm.trans hv

theorem incr_cases {env : Env} {key : GoString} {s t : Store GoString} {reply : Except GoString ℤ}
    (h : handle env (.incr key) s = (reply, t)) :
    (t = s ∧ ∃ text, reply = .error text) ∨
      (t = Function.update s key
          (some ⟨s.counter env.now key + 1, (s.live env.now key).bind Cell.expireAt⟩) ∧
        ∀ v, reply = .ok v → v = s.counter env.now key + 1) := by
  rcases result_cases h with hfailed | ⟨hdone, hreply⟩
  · exact Or.inl hfailed
  · rcases incrBy_cases (Prod.eta (incrBy env.now key 1 s)).symm with ⟨text, hrefused, hsame⟩ |
      ⟨hvalue, hcounted⟩
    · refine Or.inl ⟨hdone.trans hsame, ?_⟩
      cases reply with
      | error text => exact ⟨text, rfl⟩
      | ok v => cases hrefused.symm.trans (hreply v rfl)
    · refine Or.inr ⟨hdone.trans hcounted, ?_⟩
      intro v hv
      exact (Except.ok.inj (hvalue.symm.trans (hreply v hv))).symm

theorem expire_store {env : Env} {key : GoString} {s t : Store GoString} {reply : Except GoString ℤ}
    (h : handle env (.expire key keyTTL) s = (reply, t)) :
    t = s ∨ ∃ c, s.live env.now key = some c ∧
      t = Function.update s key (some { c with expireAt := some (env.now + keyTTL * 1000) }) := by
  have httl : ValidTTL keyTTL := by decide
  rcases result_cases h with ⟨hsame, -⟩ | ⟨hdone, -⟩
  · exact Or.inl hsame
  · rw [hdone]
    exact expire_cases httl (Prod.eta _).symm

variable {loc : Location} {g : Generator} {x : Event ι}

/-- A call that counts within the hour finds the counter of its date alive, or none. -/
theorem Kept.counter_eq {s : Store GoString} (h : Kept loc g s) {biz : GoString} {t now : ℤ}
    (hdated : loc.Dated t) (hprompt : now ≤ t + 3600000) :
    s.counter now (g.key biz (loc.date t)) = s.value (g.key biz (loc.date t)) := by
  apply Store.counter_eq_value
  intro c hc
  have hlasting := h biz t hdated c hc
  cases he : c.expireAt with
  | none => simp [Cell.alive, he]
  | some e =>
    have hlt := hlasting e he
    have halive : now < e := by omega
    simp [Cell.alive, he, halive]

/-- What a step does to a key: nothing, or it counts in it, or it moves its expiry. -/
theorem Step.cell_cases (hstep : Step loc g x) (hx : x.Valid handle) (key : GoString) :
    x.post key = x.pre key ∨
    (∃ biz t, loc.Dated t ∧ key = g.key biz (loc.date t) ∧ x.env.now ≤ t + 3600000 ∧
      x.post key = some ⟨x.pre.counter x.env.now key + 1, (x.pre.live x.env.now key).bind Cell.expireAt⟩) ∨
    ∃ biz t c, loc.Dated t ∧ key = g.key biz (loc.date t) ∧ t ≤ x.env.now ∧ x.pre key = some c ∧
      x.post key = some { c with expireAt := some (x.env.now + keyTTL * 1000) } := by
  cases hstep with
  | now hact =>
    have hsame : x.pre = x.post := (Prod.mk.inj (hx.handle hact)).2
    exact Or.inl (congrFun hsame.symm key)
  | @incr biz t reply hdated hact hprompt =>
    rcases incr_cases (hx.handle hact) with ⟨hsame, -⟩ | ⟨hcounted, -⟩
    · exact Or.inl (congrFun hsame key)
    · by_cases hkey : key = g.key biz (loc.date t)
      · subst hkey
        exact Or.inr (Or.inl ⟨biz, t, hdated, rfl, hprompt, by rw [hcounted, Function.update_self]⟩)
      · exact Or.inl (by rw [hcounted, Function.update_of_ne hkey])
  | @expire biz t reply hdated hact hafter =>
    rcases expire_store (hx.handle hact) with hsame | ⟨c, hlive, hmoved⟩
    · exact Or.inl (congrFun hsame key)
    · by_cases hkey : key = g.key biz (loc.date t)
      · subst hkey
        have hold := Store.eq_some_of_live hlive
        exact Or.inr (Or.inr ⟨biz, t, c, hdated, rfl, hafter, hold, by rw [hmoved, Function.update_self]⟩)
      · exact Or.inl (by rw [hmoved, Function.update_of_ne hkey])

theorem Kept.step (h : Kept loc g x.pre) (hx : x.Valid handle) (hstep : Step loc g x) :
    Kept loc g x.post := by
  intro biz u hu c hc e he
  rcases hstep.cell_cases hx (g.key biz (loc.date u)) with hsame | ⟨-, t, -, -, -, hcounted⟩ |
    ⟨biz', t, c', hdated, hkey, hafter, -, hmoved⟩
  · rw [hsame] at hc
    exact h biz u hu c hc e he
  · -- An increment takes over the expiry time, if the key is alive.
    rw [hcounted] at hc
    cases hc
    obtain ⟨c', hlive, he'⟩ := Option.bind_eq_some_iff.mp he
    exact h biz u hu c' (Store.eq_some_of_live hlive) e he'
  · rw [hmoved] at hc
    cases hc
    cases he
    have hnear := Location.lt_of_date_eq hdated hu (Generator.date_eq_of_key_eq hu hdated hkey).symm
    unfold keyTTL
    omega

/-- An increment that was answered replies with what it leaves, one more than it found. -/
theorem incr_value (h : Kept loc g x.pre) (hx : x.Valid handle) (hstep : Step loc g x) {key : GoString}
    {v : ℤ} (hact : x.act = ⟨.incr key, (.ok v : Except GoString ℤ)⟩) :
    v = x.pre.value key + 1 ∧ x.post.value key = v := by
  cases hstep with
  | now hother =>
    rw [hother] at hact
    cases hact
  | expire hdated hother hafter =>
    rw [hother] at hact
    cases hact
  | incr hdated hsame hprompt =>
    have hkey := hact
    rw [hsame] at hkey
    cases hkey
    rcases incr_cases (hx.handle hact) with ⟨-, text, hreply⟩ | ⟨hcounted, hvalue⟩
    · cases hreply
    · have hv := hvalue v rfl
      rw [← h.counter_eq hdated hprompt]
      refine ⟨hv, ?_⟩
      rw [hcounted, Store.value_of_eq_some (Function.update_self _ _ _), hv]

/-- No step counts down. -/
theorem value_le (h : Kept loc g x.pre) (hx : x.Valid handle) (hstep : Step loc g x) (key : GoString) :
    x.pre.value key ≤ x.post.value key := by
  rcases hstep.cell_cases hx key with hsame | ⟨biz, t, hdated, rfl, hprompt, hcounted⟩ |
    ⟨biz, t, c, -, -, -, hold, hmoved⟩
  · rw [Store.value_congr hsame]
  · rw [Store.value_of_eq_some hcounted, h.counter_eq hdated hprompt]
    dsimp only
    omega
  · rw [Store.value_of_eq_some hmoved, Store.value_of_eq_some hold]

end Steps

section Runs
variable {ι : Type} [DecidableEq ι]

def Op.counts : Op → Bool
  | .incr _ => true
  | _ => false

/-- The clock does not go back, each call counts within one hour of its reading of the date, and the
dates have the eight digits of their format. -/
structure Timely (loc : Location) (log : List (Event ι)) : Prop where
  clock : log.Pairwise fun x y => x.env.now ≤ y.env.now
  prompt : ∀ x ∈ log, ∀ y ∈ log, x.caller = y.caller → x.act.1 = .now → y.act.1.counts = true →
    y.env.now ≤ x.env.now + 3600000
  dated : ∀ x ∈ log, x.act.1 = .now → loc.Dated x.env.now

/-- Any number of calls, each with its business. -/
def world (loc : Location) (g : Generator) (biz : ι → GoString) (s : Store GoString)
    (sched : List (ι × Env)) :
    Config ι Op Reply Env (Store GoString) (Except GoString GoString) :=
  (Config.start (fun i => g.next loc (biz i)) s).run handle sched

/-- No two calls have returned the same identifier. -/
def DistinctIDs (w : Config ι Op Reply Env (Store GoString) (Except GoString GoString)) : Prop :=
  ∀ i j id id', i ≠ j → w.Returned i (.ok id) → w.Returned j (.ok id') → id ≠ id'

variable {loc : Location} {g : Generator} {biz : ι → GoString} {s : Store GoString}
  {w : Config ι Op Reply Env (Store GoString) (Except GoString GoString)}

/-- The reading that a call acts on: an earlier step of its own. -/
theorem exists_reading (hexec : Exec handle s w.log w.store) (htimely : Timely loc w.log)
    {a b : List (Event ι)} {x : Event ι} (hl : w.log = a ++ x :: b) {t : ℤ}
    (hread : (⟨.now, t⟩ : Act) ∈ history x.caller a) :
    loc.Dated t ∧ t ≤ x.env.now ∧ (x.act.1.counts = true → x.env.now ≤ t + 3600000) := by
  obtain ⟨y, hy, hcaller, hact⟩ := mem_history.mp hread
  have hmem : y ∈ w.log := by
    rw [hl]
    exact List.mem_append_left _ hy
  have hx : x ∈ w.log := mem_of_split hl
  have hnow : y.env.now = t := (Prod.mk.inj ((hexec.valid hmem).handle hact)).1
  have hop : y.act.1 = .now := by rw [hact]
  have hclock := htimely.clock
  rw [hl] at hclock
  have hle := (List.pairwise_append.mp hclock).2.2 y hy x List.mem_cons_self
  rw [← hnow]
  exact ⟨htimely.dated y hmem hop, hle, htimely.prompt y hmem x hx hcaller hop⟩

theorem step_of_mem (hsound : w.Sound handle (fun i => g.next loc (biz i)) s) (htimely : Timely loc w.log)
    {x : Event ι} (hx : x ∈ w.log) : Step loc g x := by
  obtain ⟨a, b, hl⟩ := List.append_of_mem hx
  have hop := NextOp.of_path (hsound.path_split hl)
  have hread := @exists_reading ι _ loc s w hsound.exec htimely a b x hl
  generalize hhist : history x.caller a = es at hop hread
  generalize hact : x.act = y at hop hread
  cases hop with
  | now t => exact .now hact
  | incr t reply =>
    obtain ⟨hdated, -, hprompt⟩ := hread List.mem_cons_self
    exact .incr hdated hact (hprompt rfl)
  | expire t v reply =>
    obtain ⟨hdated, hafter, -⟩ := hread List.mem_cons_self
    exact .expire hdated hact hafter

/-- Along any part of a run the counters are kept and do not go down. -/
theorem run_kept (hsound : w.Sound handle (fun i => g.next loc (biz i)) s) (htimely : Timely loc w.log)
    {l : List (Event ι)} (hsub : ∀ x ∈ l, x ∈ w.log) {t u : Store GoString} (hexec : Exec handle t l u)
    (hkept : Kept loc g t) (key : GoString) : Kept loc g u ∧ t.value key ≤ u.value key := by
  refine hexec.invariant (P := fun u => Kept loc g u ∧ t.value key ≤ u.value key) ?_ ⟨hkept, le_rfl⟩
  intro x hx hvalid hpre
  have hstep := step_of_mem hsound htimely (hsub x hx)
  exact ⟨hpre.1.step hvalid hstep, hpre.2.trans (value_le hpre.1 hvalid hstep key)⟩

/-- Of two calls that count in the same counter the later gets the greater number. -/
theorem incr_lt (hsound : w.Sound handle (fun i => g.next loc (biz i)) s) (htimely : Timely loc w.log)
    (hkept : Kept loc g s) {a m b : List (Event ι)} {x y : Event ι} (hl : w.log = a ++ x :: (m ++ y :: b))
    {key : GoString} {v v' : ℤ} (hx : x.act = ⟨.incr key, (.ok v : Except GoString ℤ)⟩)
    (hy : y.act = ⟨.incr key, (.ok v' : Except GoString ℤ)⟩) : v < v' := by
  have hsub : ∀ z, z ∈ a ++ x :: (m ++ y :: b) → z ∈ w.log := fun z hz => hl ▸ hz
  have hexec := hsound.exec
  rw [hl] at hexec
  obtain ⟨hbefore, hxvalid, hrest⟩ := hexec.split
  obtain ⟨hbetween, hyvalid, -⟩ := hrest.split
  have hxkept := (run_kept hsound htimely (fun z hz => hsub z (by simp [hz])) hbefore hkept key).1
  have hxstep := step_of_mem hsound htimely (hsub x (by simp))
  obtain ⟨hykept, hle⟩ := run_kept hsound htimely (fun z hz => hsub z (by simp [hz])) hbetween
    (hxkept.step hxvalid hxstep) key
  have hystep := step_of_mem hsound htimely (hsub y (by simp))
  have hxvalue := (incr_value hxkept hxvalid hxstep hx).2
  have hyvalue := (incr_value hykept hyvalid hystep hy).1
  omega

/-- What a returned identifier says about the run. -/
theorem exists_incr (hsound : w.Sound handle (fun i => g.next loc (biz i)) s) (htimely : Timely loc w.log)
    {i : ι} {id : GoString} (hid : w.Returned i (.ok id)) : ∃ x ∈ w.log, ∃ t v, x.caller = i ∧ loc.Dated t ∧
      x.act = ⟨.incr (g.key (biz i) (loc.date t)), (.ok v : Except GoString ℤ)⟩ ∧
      id = biz i ++ loc.date t ++ formatZero 3 v := by
  obtain ⟨t, v, reply, hid, hhist⟩ := next_returns (hsound.returns hid)
  have hsplit : history i w.log = [(⟨.now, t⟩ : Act)] ++
      ⟨.incr (g.key (biz i) (loc.date t)), (.ok v : Except GoString ℤ)⟩ :: [⟨.expire _ keyTTL, reply⟩] :=
        hhist
  obtain ⟨a, x, b, hl, rfl, hact, hbefore, -⟩ := exists_of_history_eq hsplit
  have hx : x ∈ w.log := mem_of_split hl
  have hread : (⟨.now, t⟩ : Act) ∈ history x.caller a := by
    rw [hbefore]
    exact List.mem_cons_self
  exact ⟨x, hx, t, v, rfl, (exists_reading hsound.exec htimely hl hread).1, hact, hid⟩

/-- Generated identifiers are unique: in every interleaving of calls for businesses without digits in
their names, on a store that keeps the counters of the generator. -/
theorem next_distinctIDs (loc : Location) (g : Generator) (biz : ι → GoString)
    (hbiz : ∀ i, ∀ b ∈ biz i, isDigit b = false) (s : Store GoString) (hkept : Kept loc g s)
    (sched : List (ι × Env)) (htimely : Timely loc (world loc g biz s sched).log) :
    DistinctIDs (world loc g biz s sched) := by
  have hsound : Config.Sound handle (fun i => g.next loc (biz i)) s (world loc g biz s sched) :=
    Config.run_sound _ _ _ _
  intro i j id id' hij hi hj heq
  obtain ⟨x, hx, t, v, hxi, ht, hxact, hid⟩ := exists_incr hsound htimely hi
  obtain ⟨y, hy, u, v', hyj, hu, hyact, hid'⟩ := exists_incr hsound htimely hj
  rw [hid, hid'] at heq
  obtain ⟨hname, hdate, hnumber⟩ := id_inj (hbiz i) (hbiz j) ht hu heq
  -- Both have counted in the same counter and got the same number.
  rw [← hname, ← hdate, ← hnumber] at hyact
  rcases exists_split_of_mem hx hy with rfl | ⟨a, m, b, hl⟩ | ⟨a, m, b, hl⟩
  · exact hij (hxi.symm.trans hyj)
  · exact absurd (incr_lt hsound htimely hkept hl hxact hyact) (lt_irrefl v)
  · exact absurd (incr_lt hsound htimely hkept hl hyact hxact) (lt_irrefl v)

end Runs

def utc : Location := ⟨fun _ => 0, fun _ _ _ => by decide⟩

/-- Two calls at midnight of March 31, 2026: one reads the date before it and one after it. -/
def midnight : Config Bool Op Reply Env (Store GoString) (Except GoString GoString) :=
  world utc ⟨lit "cargo"⟩ (fun _ => lit "SH") (fun _ => none)
    ([(false, 1774915199999), (true, 1774915200000), (true, 1774915200001), (false, 1774915200002),
      (true, 1774915200003), (false, 1774915200004)].map fun m => (m.1, ⟨m.2, none⟩))

theorem midnight_distinctIDs : midnight.Returned false (.ok (lit "SH20260330001")) ∧
    midnight.Returned true (.ok (lit "SH20260331001")) ∧ DistinctIDs midnight := by
  have hall : (lit "SH").all (fun b => !isDigit b) = true := by decide +kernel
  have hname : ∀ b ∈ lit "SH", isDigit b = false := by
    intro b hb
    exact Bool.not_eq_true' (isDigit b) |>.mp (List.all_eq_true.mp hall b hb)
  refine ⟨by decide +kernel, by decide +kernel, ?_⟩
  exact next_distinctIDs utc ⟨lit "cargo"⟩ _ (fun _ => hname) _ (fun _ _ _ _ hc => by cases hc) _
    ⟨by decide +kernel, by decide +kernel, by decide +kernel⟩

end SynapseGo.Sequence
