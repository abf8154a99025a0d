import Mathlib.Data.List.TakeWhile
import SynapseGo.Go.Fields

/-! The cron guard. The zone is cut at the first blank of the expression, the schedule behind it is
split at any white space. -/
namespace SynapseGo.Job
open SynapseGo.Go

/-- The errors of `Normalize` with what their texts name. -/
inductive CronErr where
  | malformedPrefix
  | emptyPrefix
  | metachar (expr : GoString) (ch : UInt8)
  | sixFields (expr first : GoString)
  | fieldCount (expr : GoString) (count : ℕ)
  | noPrefix (expr : GoString)
  deriving DecidableEq, Repr

inductive CronSentinel where
  | sixField
  | quartzChar
  | missingTZ
  deriving DecidableEq, Repr

/-- The sentinel error that each of them wraps. -/
def CronErr.sentinel : CronErr → CronSentinel
  | .malformedPrefix => .missingTZ
  | .emptyPrefix => .missingTZ
  | .metachar _ _ => .quartzChar
  | .sixFields _ _ => .sixField
  | .fieldCount _ _ => .sixField
  | .noPrefix _ => .missingTZ

def tzPrefix : GoString := lit "CRON_TZ="

/-- `?`, `L`, `W` and `#`. -/
def metachars : List UInt8 := [0x3F, 0x4C, 0x57, 0x23]

/-- Whether the trimmed expression has a zone, and the schedule behind it. -/
def schedulePart (expr : GoString) : Except CronErr (Bool × GoString) :=
  if hasPrefix expr tzPrefix then
    match cut (expr.drop tzPrefix.length) 0x20 with
    | none => .error .malformedPrefix
    | some (zone, schedule) => if trimSpace zone = [] then .error .emptyPrefix else .ok (true, schedule)
  else .ok (false, expr)

def normalize (expr : GoString) : Except CronErr GoString := do
  let expr := trimSpace expr
  let (hasTZPrefix, schedule) ← schedulePart expr
  match metachars.find? fun ch => schedule.contains ch with
  | some ch => .error (.metachar expr ch)
  | none =>
    let fields := fields schedule
    if fields.length = 6 then .error (.sixFields expr (fields.headD []))
    else if fields.length ≠ 5 then .error (.fieldCount expr fields.length)
    else if !hasTZPrefix then .error (.noPrefix expr)
    else
      let tzPart := ((cut expr 0x20).map Prod.fst).getD []
      .ok (tzPart ++ lit " " ++ join fields (lit " "))

/-- Five fields that hold no metacharacter. -/
def Plain (fields : List GoString) : Prop := fields.length = 5 ∧ ∀ f ∈ fields, ∀ ch ∈ metachars, ch ∉ f

/-- The guard's reading: a zone up to the first blank, and five plain fields behind it. -/
structure CutAtBlank (expr zone : GoString) (fs : List GoString) : Prop where
  cut : ∃ schedule, trimSpace expr = tzPrefix ++ zone ++ 0x20 :: schedule ∧ fields schedule = fs
  blank : 0x20 ∉ zone
  zone : trimSpace zone ≠ []
  plain : Plain fs

/-- The grammar: six tokens between white space. -/
structure Grammar (expr zone : GoString) (fs : List GoString) : Prop where
  tokens : fields expr = (tzPrefix ++ zone) :: fs
  zone : zone ≠ []
  plain : Plain fs

/-- A zone and fields, joined by single blanks. -/
def joined (zone : GoString) (fs : List GoString) : GoString := join ((tzPrefix ++ zone) :: fs) [0x20]

private theorem graphic_notMem_spaces : ∀ ch ∈ metachars, ∀ p ∈ spaces, ch ∉ p := by decide +kernel

theorem contains_metachar_iff (schedule : GoString) :
    (metachars.find? fun ch => schedule.contains ch) = none ↔
      ∀ f ∈ fields schedule, ∀ ch ∈ metachars, ch ∉ f := by
  simp only [List.find?_eq_none, List.contains_iff_mem]
  constructor
  · intro h f hf ch hch hmem
    exact h ch hch ((mem_iff_mem_fields (graphic_notMem_spaces ch hch) schedule).mpr ⟨f, hf, hmem⟩)
  · intro h ch hch hmem
    obtain ⟨f, hf, hin⟩ := (mem_iff_mem_fields (graphic_notMem_spaces ch hch) schedule).mp hmem
    exact h f hf ch hch hin

theorem schedulePart_eq_true_iff {expr schedule : GoString} : schedulePart expr = .ok (true, schedule) ↔
    ∃ zone, expr = tzPrefix ++ zone ++ 0x20 :: schedule ∧ 0x20 ∉ zone ∧ trimSpace zone ≠ [] := by
  unfold schedulePart
  constructor
  · intro h
    split_ifs at h with hpre
    · obtain ⟨rest, rfl⟩ := hasPrefix_iff.mp hpre
      rw [List.drop_left] at h
      cases hcut : cut rest 0x20 with
      | none =>
        rw [hcut] at h
        cases h
      | some r =>
        rw [hcut] at h
        dsimp only at h
        split_ifs at h with hzone
        cases h
        obtain ⟨rfl, hblank⟩ := cut_eq_some.mp hcut
        exact ⟨r.1, by rw [List.append_assoc], hblank, hzone⟩
    · cases h
  · rintro ⟨zone, rfl, hblank, hzone⟩
    have hpre : hasPrefix (tzPrefix ++ zone ++ 0x20 :: schedule) tzPrefix = true := by
      rw [hasPrefix_iff, List.append_assoc]
      exact List.prefix_append _ _
    rw [if_pos hpre, List.append_assoc, List.drop_left, cut_eq_some.mpr ⟨rfl, hblank⟩]
    exact if_neg hzone

theorem Plain.ne_nil {fs : List GoString} (h : Plain fs) : fs ≠ [] := by
  intro hnil
  have hlen := h.1
  rw [hnil] at hlen
  cases hlen

theorem joined_eq (zone : GoString) {fs : List GoString} (hfs : fs ≠ []) :
    joined zone fs = tzPrefix ++ zone ++ 0x20 :: join fs [0x20] := by
  rw [joined, join_cons _ hfs, List.append_assoc, List.singleton_append]

theorem blank_notMem_tzPrefix : (0x20 : UInt8) ∉ tzPrefix := by decide +kernel

private theorem cut_zone {zone : GoString} (hblank : 0x20 ∉ zone) (s : GoString) :
    cut (tzPrefix ++ zone ++ 0x20 :: s) 0x20 = some (tzPrefix ++ zone, s) := by
  refine cut_eq_some.mpr ⟨rfl, fun h => ?_⟩
  exact (List.mem_append.mp h).elim blank_notMem_tzPrefix hblank

private theorem lit_blank : lit " " = [0x20] := by decide +kernel

/-- What `Normalize` accepts, and what it returns then. -/
theorem normalize_eq_ok_iff {expr n : GoString} :
    normalize expr = .ok n ↔ ∃ zone fs, CutAtBlank expr zone fs ∧ n = joined zone fs := by
  unfold normalize
  dsimp only
  constructor
  · intro h
    cases hpart : schedulePart (trimSpace expr) with
    | error e =>
      rw [hpart] at h
      cases h
    | ok part =>
      obtain ⟨hasTZPrefix, schedule⟩ := part
      rw [hpart] at h
      simp only [bind, Except.bind] at h
      cases hmeta : metachars.find? fun ch => schedule.contains ch with
      | some ch =>
        rw [hmeta] at h
        cases h
      | none =>
        rw [hmeta] at h
        dsimp only at h
        split_ifs at h with hsix hfive htz
        cases hasTZPrefix with
        | false => exact absurd rfl htz
        | true =>
          obtain ⟨zone, hexpr, hblank, hzone⟩ := schedulePart_eq_true_iff.mp hpart
          have hplain : Plain (fields schedule) :=
            ⟨not_not.mp hfive, (contains_metachar_iff schedule).mp hmeta⟩
          refine ⟨zone, fields schedule, ⟨⟨schedule, hexpr, rfl⟩, hblank, hzone, hplain⟩, ?_⟩
          rw [hexpr, cut_zone hblank] at h
          rw [joined_eq zone hplain.ne_nil, ← Except.ok.inj h, lit_blank]
          simp
  · rintro ⟨zone, fs, ⟨⟨schedule, hexpr, rfl⟩, hblank, hzone, hplain⟩, rfl⟩
    have hpart := schedulePart_eq_true_iff.mpr ⟨zone, hexpr, hblank, hzone⟩
    have hmeta := (contains_metachar_iff schedule).mpr hplain.2
    rw [hpart]
    simp only [bind, Except.bind, hmeta, hplain.1]
    rw [hexpr, cut_zone hblank, joined_eq zone hplain.ne_nil, lit_blank]
    simp

/-- What a sentinel error says about an expression. -/
def CronSentinel.Fault (expr : GoString) : CronSentinel → Prop
  | .missingTZ => ∀ schedule, schedulePart (trimSpace expr) ≠ .ok (true, schedule)
  | .quartzChar => ∃ tz schedule, schedulePart (trimSpace expr) = .ok (tz, schedule) ∧
      ∃ ch ∈ metachars, ch ∈ schedule
  | .sixField => ∃ tz schedule, schedulePart (trimSpace expr) = .ok (tz, schedule) ∧
      (fields schedule).length ≠ 5

private theorem sentinel_of_schedulePart {expr : GoString} {e : CronErr} (h : schedulePart expr = .error e) :
    e.sentinel = .missingTZ := by
  unfold schedulePart at h
  split_ifs at h
  split at h
  · cases h
    rfl
  · split_ifs at h
    cases h
    rfl

/-- Every refusal wraps the sentinel of a fault that the expression has. -/
theorem normalize_error {expr : GoString} {e : CronErr} (h : normalize expr = .error e) :
    e.sentinel.Fault expr := by
  unfold normalize at h
  dsimp only at h
  cases hpart : schedulePart (trimSpace expr) with
  | error e' =>
    rw [hpart] at h
    cases h
    rw [sentinel_of_schedulePart hpart]
    intro schedule hok
    rw [hpart] at hok
    cases hok
  | ok part =>
    obtain ⟨hasTZPrefix, schedule⟩ := part
    rw [hpart] at h
    simp only [bind, Except.bind] at h
    cases hmeta : metachars.find? fun ch => schedule.contains ch with
    | some ch =>
      rw [hmeta] at h
      cases h
      have hfound := List.find?_some hmeta
      exact ⟨hasTZPrefix, schedule, hpart, ch, List.mem_of_find?_eq_some hmeta,
        List.contains_iff_mem.mp hfound⟩
    | none =>
      rw [hmeta] at h
      dsimp only at h
      split_ifs at h with hsix hfive htz
      · cases h
        exact ⟨hasTZPrefix, schedule, hpart, by omega⟩
      · cases h
        exact ⟨hasTZPrefix, schedule, hpart, hfive⟩
      · cases h
        intro schedule' hok
        rw [hpart] at hok
        cases hok
        cases htz

section FixedPoint
variable {expr zone : GoString} {fs : List GoString}

theorem CutAtBlank.fields (h : CutAtBlank expr zone fs) : ∀ f ∈ fs, f ≠ [] ∧ Solid f := by
  obtain ⟨schedule, -, rfl⟩ := h.cut
  exact fun f hf => solid_of_mem_fields hf

/-- The output begins with a letter and ends with a field, so there is nothing to trim. -/
theorem trimSpace_joined (hfs : ∀ f ∈ fs, f ≠ [] ∧ Solid f) (hne : fs ≠ []) :
    trimSpace (joined zone fs) = joined zone fs := by
  obtain ⟨fs', f, rfl⟩ := (List.eq_nil_or_concat' fs).resolve_left hne
  have hlast : joined zone (fs' ++ [f]) = joined zone fs' ++ 0x20 :: f := by
    unfold joined
    rw [← List.cons_append, join_append _ (List.cons_ne_nil _ _) (List.cons_ne_nil _ _)]
    simp [join]
  have hf := hfs f (by simp)
  apply trimSpace_of_ends
  · intro p hp
    rw [joined_eq zone hne]
    exact not_space_prefix_cons (by decide) _ p hp
  · intro p hp
    rw [hlast]
    exact not_suffix_of_solid hf.2 hf.1 hp

/-- The output is cut and split as the input was. -/
theorem CutAtBlank.joined (h : CutAtBlank expr zone fs) : CutAtBlank (joined zone fs) zone fs where
  cut := by
    have hne := h.plain.ne_nil
    refine ⟨join fs [0x20], ?_, fields_join h.fields⟩
    rw [trimSpace_joined h.fields hne, joined_eq zone hne]
  blank := h.blank
  zone := h.zone
  plain := h.plain

end FixedPoint

/-- `Normalize` is a fixed point on its results, which are the zone as it stood and five plain fields
between single blanks. -/
theorem normalize_fixed {expr n : GoString} (h : normalize expr = .ok n) : normalize n = .ok n ∧
    ∃ zone fs, cut n 0x20 = some (zone, join fs [0x20]) ∧ Plain fs ∧ (∀ f ∈ fs, f ≠ [] ∧ Solid f) ∧
      (cut (trimSpace expr) 0x20).map Prod.fst = some zone := by
  obtain ⟨zone, fs, hcut, rfl⟩ := normalize_eq_ok_iff.mp h
  constructor
  · exact normalize_eq_ok_iff.mpr ⟨zone, fs, hcut.joined, rfl⟩
  · obtain ⟨schedule, hexpr, -⟩ := hcut.cut
    refine ⟨tzPrefix ++ zone, fs, ?_, hcut.plain, hcut.fields, ?_⟩
    · rw [joined_eq zone hcut.plain.ne_nil, cut_zone hcut.blank]
    · rw [hexpr, cut_zone hcut.blank, Option.map_some]

theorem normalize_fixed_spaces :
    normalize (lit "CRON_TZ=UTC  0  0  *  *  *") = .ok (lit "CRON_TZ=UTC 0 0 * * *") ∧
      normalize (lit "CRON_TZ=UTC 0 0 * * *") = .ok (lit "CRON_TZ=UTC 0 0 * * *") := by
  have h : normalize (lit "CRON_TZ=UTC  0  0  *  *  *") = .ok (lit "CRON_TZ=UTC 0 0 * * *") := by
    decide +kernel
  exact ⟨h, (normalize_fixed h).1⟩

section Grammar

/-- What stands before the first blank of the trimmed expression. -/
def firstWord (expr : GoString) : GoString := (trimSpace expr).takeWhile fun b => b != 0x20

/-- `Normalize` accepts the grammar, with the tokens joined by single blanks, and nothing else. -/
def FollowsGrammar (expr : GoString) : Prop :=
  ∀ n, normalize expr = .ok n ↔ ∃ zone fs, Grammar expr zone fs ∧ n = joined zone fs

variable {expr zone : GoString} {fs : List GoString}

private theorem takeWhile_blank {a : GoString} (ha : 0x20 ∉ a) (b : GoString) :
    (a ++ 0x20 :: b).takeWhile (fun c => c != 0x20) = a := by
  rw [List.takeWhile_append_of_pos]
  · simp
  · intro c hc
    simpa using ne_of_mem_of_not_mem hc ha

theorem CutAtBlank.firstWord_eq (h : CutAtBlank expr zone fs) : firstWord expr = tzPrefix ++ zone := by
  obtain ⟨schedule, hexpr, -⟩ := h.cut
  rw [firstWord, hexpr]
  apply takeWhile_blank
  exact fun hmem => (List.mem_append.mp hmem).elim blank_notMem_tzPrefix h.blank

theorem tzPrefix_append_ne_nil (zone : GoString) : tzPrefix ++ zone ≠ [] := by
  intro hnil
  have hprefix := (List.append_eq_nil_iff.mp hnil).1
  revert hprefix
  decide +kernel

theorem Grammar.solid (h : Grammar expr zone fs) : Solid (tzPrefix ++ zone) := by
  have hmem : tzPrefix ++ zone ∈ fields expr := by
    rw [h.tokens]
    exact List.mem_cons_self
  exact (solid_of_mem_fields hmem).2

/-- With no other white space in the first word, the guard's reading is that of the grammar. -/
theorem CutAtBlank.grammar (h : CutAtBlank expr zone fs) (hsolid : Solid (firstWord expr)) :
    Grammar expr zone fs where
  tokens := by
    obtain ⟨schedule, hexpr, rfl⟩ := h.cut
    rw [h.firstWord_eq] at hsolid
    rw [← fields_trimSpace, hexpr, ← List.singleton_append, fields_append blank_mem_spaces,
      fields_of_solid hsolid (tzPrefix_append_ne_nil zone), List.singleton_append]
  zone := by
    intro hnil
    apply h.zone
    rw [hnil]
    decide +kernel
  plain := h.plain

theorem Grammar.cutAtBlank (h : Grammar expr zone fs) (hsolid : Solid (firstWord expr)) :
    CutAtBlank expr zone fs := by
  have htokens : fields (trimSpace expr) = (tzPrefix ++ zone) :: fs := by rw [fields_trimSpace, h.tokens]
  have hlead : leadingSpace (trimSpace expr) = none := leadingSpace_eq_none.mpr (trimSpace_spec expr).2.1
  unfold firstWord at hsolid
  generalize htrim : trimSpace expr = e at htokens hlead hsolid
  by_cases hmem : (0x20 : UInt8) ∈ e
  · obtain ⟨word, schedule, rfl, hblank⟩ := List.eq_append_cons_of_mem hmem
    rw [takeWhile_blank hblank] at hsolid
    have hword : word ≠ [] := by
      intro hnil
      rw [hnil, List.nil_append, ← List.singleton_append, leadingSpace_append blank_mem_spaces] at hlead
      cases hlead
    rw [← List.singleton_append, fields_append blank_mem_spaces, fields_of_solid hsolid hword,
      List.singleton_append] at htokens
    obtain ⟨rfl, rfl⟩ := List.cons.inj htokens
    have hzone : Solid zone := hsolid.of_suffix (List.suffix_append _ _)
    refine ⟨⟨schedule, htrim, rfl⟩, hzone.blank_notMem, ?_, h.plain⟩
    rw [hzone.trimSpace_eq]
    exact h.zone
  · -- one word, so there are no fields
    have hall : e.takeWhile (fun b => b != 0x20) = e := by
      rw [List.takeWhile_eq_self_iff]
      intro b hb
      simpa using ne_of_mem_of_not_mem hb hmem
    have hne : e ≠ [] := by
      rintro rfl
      cases htokens
    rw [hall] at hsolid
    rw [fields_of_solid hsolid hne] at htokens
    exact absurd (List.cons.inj htokens).2.symm h.plain.ne_nil

/-- Equal outputs have equal first words. -/
theorem eq_of_joined_eq {zone' : GoString} {fs' : List GoString} (h : CutAtBlank expr zone fs)
    (h' : Grammar expr zone' fs') (heq : joined zone fs = joined zone' fs') :
    tzPrefix ++ zone = tzPrefix ++ zone' := by
  rw [joined_eq zone h.plain.ne_nil, joined_eq zone' h'.plain.ne_nil] at heq
  refine (append_sep_inj ?_ h'.solid.blank_notMem heq).1
  exact fun hmem => (List.mem_append.mp hmem).elim blank_notMem_tzPrefix h.blank

/-- The guard follows its grammar exactly where the first white space is a blank, or where neither
reading accepts. -/
theorem followsGrammar_iff (expr : GoString) : FollowsGrammar expr ↔
    Solid (firstWord expr) ∨ ∀ zone fs, ¬ CutAtBlank expr zone fs ∧ ¬ Grammar expr zone fs := by
  constructor
  · intro h
    by_contra hnot
    obtain ⟨hsolid, haccept⟩ := not_or.mp hnot
    -- the two readings would return different words before the blank
    have hboth : ∀ zone fs zone' fs', CutAtBlank expr zone fs → Grammar expr zone' fs' →
        joined zone fs = joined zone' fs' → False := by
      intro zone fs zone' fs' hcut hgrammar heq
      apply hsolid
      rw [hcut.firstWord_eq, eq_of_joined_eq hcut hgrammar heq]
      exact hgrammar.solid
    apply haccept
    intro zone fs
    constructor
    · intro hcut
      obtain ⟨zone', fs', hgrammar, heq⟩ := (h _).mp (normalize_eq_ok_iff.mpr ⟨zone, fs, hcut, rfl⟩)
      exact hboth zone fs zone' fs' hcut hgrammar heq
    · intro hgrammar
      obtain ⟨zone', fs', hcut, heq⟩ := normalize_eq_ok_iff.mp ((h _).mpr ⟨zone, fs, hgrammar, rfl⟩)
      exact hboth zone' fs' zone fs hcut hgrammar heq.symm
  · intro h n
    rw [normalize_eq_ok_iff]
    rcases h with hsolid | hneither
    · constructor
      · rintro ⟨zone, fs, hcut, hn⟩
        exact ⟨zone, fs, hcut.grammar hsolid, hn⟩
      · rintro ⟨zone, fs, hgrammar, hn⟩
        exact ⟨zone, fs, hgrammar.cutAtBlank hsolid, hn⟩
    · constructor
      · rintro ⟨zone, fs, hcut, -⟩
        exact absurd hcut (hneither zone fs).1
      · rintro ⟨zone, fs, hgrammar, -⟩
        exact absurd hgrammar (hneither zone fs).2

/-- A tab behind the zone hides the seconds field of a Quartz expression. -/
theorem tab_not_followsGrammar : ¬ FollowsGrammar (lit "CRON_TZ=UTC\t0 0 0 * * *") := by
  intro h
  obtain ⟨zone, fs, hgrammar, -⟩ := (h (lit "CRON_TZ=UTC\t0 0 0 * * *")).mp (by decide +kernel)
  have hcount : (fields (lit "CRON_TZ=UTC\t0 0 0 * * *")).length = 7 := by decide +kernel
  rw [hgrammar.tokens, List.length_cons, hgrammar.plain.1] at hcount
  cases hcount

end Grammar
end SynapseGo.Job
