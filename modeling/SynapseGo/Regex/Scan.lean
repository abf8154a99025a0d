import SynapseGo.Regex.Letters

/-! Replacing the matches of an expression in a text, and texts that fall apart at a letter which no match
can hold. The expressions are taken to match no empty text. -/
namespace SynapseGo.Regex
variable {α : Type}

/-- A piece of a scanned text: a letter outside all matches, or a match. -/
inductive Segment (α : Type) where
  | plain (a : α)
  | matched (m : List α)
  deriving DecidableEq, Repr

def Segment.text (f : List α → List α) : Segment α → List α
  | .plain a => [a]
  | .matched m => f m

namespace Re

/-- The non-overlapping matches from the left; `skip` counts the letters left over from a match. -/
def scan (r : Re α) : Option α → ℕ → List α → List (Segment α)
  | _, _, [] => []
  | _, skip + 1, a :: s => r.scan (some a) skip s
  | p, 0, a :: s =>
    match r.find p (a :: s) with
    | none => .plain a :: r.scan (some a) 0 s
    | some q => .matched q.1 :: r.scan (some a) (q.1.length - 1) s

/-- `ReplaceAllStringFunc`. -/
def replaceAll (r : Re α) (f : List α → List α) (s : List α) : List α :=
  (r.scan none 0 s).flatMap (Segment.text f)

/-- Two neighbours look alike to every word boundary of the expression. -/
def alike : Re α → Option α → Option α → Bool
  | .bound word, p, p' => p.any word = p'.any word
  | .seq a b, p, p' => a.alike p p' && b.alike p p'
  | .alt a b, p, p' => a.alike p p' && b.alike p p'
  | _, _, _ => true

/-- Between the neighbours `x` and `y`, no match can hold `c`, and no boundary notices it. -/
def Separates (r : Re α) (x : Option α) (c : α) (y : Option α) : Prop :=
  r.alike (some c) none = true ∧
    (r.last c = false ∧ (∀ y' ∈ y, r.follows c y' = false) ∨
      r.first c = false ∧ ∀ x' ∈ x, r.follows x' c = false)

instance (r : Re α) (x : Option α) (c : α) (y : Option α) : Decidable (r.Separates x c y) :=
  inferInstanceAs (Decidable (_ ∧ _))

section
variable {r : Re α} {p p' : Option α} {s u v m t : List α} {a c : α}

theorem scan_cons_none (h : r.find p (a :: s) = none) :
    r.scan p 0 (a :: s) = .plain a :: r.scan (some a) 0 s := by
  simp only [scan, h]

theorem find_none_of_first (hr : r.nullable = false) (ha : r.first a = false) : r.find p (a :: s) = none := by
  rw [find_eq_none]
  intro m t heq hm
  cases m with
  | nil => simp [hm.nullable] at hr
  | cons b m =>
    obtain ⟨rfl, -⟩ := List.cons.inj heq
    simp [hm.first (x := a) rfl] at ha

private theorem scan_skip (m t : List α) (p : Option α) :
    r.scan p m.length (m ++ t) = r.scan (after p m) 0 t := by
  induction m generalizing p with
  | nil => rfl
  | cons a m ih => exact ih (some a)

theorem scan_some (hm : m ≠ []) (h : r.find p (m ++ t) = some (m, t)) :
    r.scan p 0 (m ++ t) = .matched m :: r.scan (after p m) 0 t := by
  cases m with
  | nil => exact absurd rfl hm
  | cons a m =>
    rw [List.cons_append] at h ⊢
    simp only [scan, h, List.length_cons, Nat.add_sub_cancel]
    rw [scan_skip, after_cons]

/-- Induction along a scan: over a letter where no match begins, or over the match that does. -/
theorem scan_induct (hr : r.nullable = false) {motive : Option α → List α → Prop} (nil : ∀ p, motive p [])
    (plain : ∀ p a s, r.find p (a :: s) = none → motive (some a) s → motive p (a :: s))
    (matched : ∀ p m t, m ≠ [] → r.find p (m ++ t) = some (m, t) → r.Matches p m t → motive (after p m) t →
      motive p (m ++ t)) (p : Option α) (s : List α) : motive p s := by
  induction hn : s.length using Nat.strong_induction_on generalizing p s with
  | _ n ih =>
    cases s with
    | nil => exact nil p
    | cons a s =>
      cases hfind : r.find p (a :: s) with
      | none => exact plain p a s hfind (ih s.length (by simp [← hn]) (some a) s rfl)
      | some q =>
        obtain ⟨m, t⟩ := q
        obtain ⟨heq, hmatch⟩ := find_eq_some hfind
        have hm : m ≠ [] := by
          rintro rfl
          rw [hmatch.nullable] at hr
          cases hr
        have hlen := List.length_pos_iff.mpr hm
        rw [heq] at hfind hn ⊢
        rw [List.length_append] at hn
        exact matched p m t hm hfind hmatch (ih t.length (by omega) (after p m) t rfl)

theorem run_congr (h : r.alike p p' = true) : r.run p s = r.run p' s := by
  induction r generalizing p p' s with
  | eps => rfl
  | bound word =>
    simp only [alike, decide_eq_true_eq] at h
    simp only [run, h]
  | rep C lo hi => rfl
  | seq a b iha ihb =>
    simp only [alike, Bool.and_eq_true] at h
    simp only [run, iha h.1]
    congr 1
    funext q
    cases hq : q.1 with
    | nil => rw [after_nil, after_nil, ihb h.2]
    | cons x m => rfl
  | alt a b iha ihb =>
    simp only [alike, Bool.and_eq_true] at h
    simp only [run, iha h.1, ihb h.2]

theorem scan_congr (h : r.alike p p' = true) : r.scan p 0 s = r.scan p' 0 s := by
  cases s with
  | nil => rfl
  | cons a s => simp only [scan, find, run_congr h]

private theorem flatMap_filter_of_nil {β γ : Type} {l : List β} {g : β → List γ} {P : β → Bool}
    (h : ∀ b ∈ l, P b = false → g b = []) : (l.filter P).flatMap g = l.flatMap g := by
  induction l with
  | nil => rfl
  | cons b l ih =>
    have hl := ih fun b hb => h b (List.mem_cons_of_mem _ hb)
    cases hb : P b with
    | false => rw [List.filter_cons_of_neg (by simp [hb]), List.flatMap_cons, h b List.mem_cons_self hb, hl,
        List.nil_append]
    | true => rw [List.filter_cons_of_pos hb, List.flatMap_cons, List.flatMap_cons, hl]

private theorem length_snd_le {q : List α × List α} (hq : q ∈ r.run p s) : q.2.length ≤ s.length := by
  obtain ⟨rfl, -⟩ := mem_run.mp hq
  simp

private theorem greedy_append (C : α → Bool) (lo : ℕ) (hi : Option ℕ) (s v : List α) :
    (greedy C lo hi (s ++ v)).filter (fun q => v.length ≤ q.2.length) =
      (greedy C lo hi s).map fun q => (q.1, q.2 ++ v) := by
  induction s generalizing lo hi with
  | nil =>
    cases v with
    | nil => by_cases hlo : lo = 0 <;> simp [greedy, hlo]
    | cons a v =>
      -- what goes into `v` leaves less than `v`
      have hmore : (if hi ≠ some 0 ∧ C a then (greedy C (lo - 1) (hi.map (· - 1)) v).map
          (fun q => (a :: q.1, q.2)) else []).filter (fun q => v.length + 1 ≤ q.2.length) = [] := by
        refine List.filter_eq_nil_iff.mpr fun q hq => ?_
        split at hq
        · obtain ⟨q', hq', rfl⟩ := List.mem_map.mp hq
          have hle := length_snd_le (r := .rep C (lo - 1) (hi.map (· - 1))) (p := none) hq'
          have hlt : ¬v.length + 1 ≤ q'.2.length := by omega
          simpa using hlt
        · cases hq
      rw [List.nil_append, greedy, greedy, List.filter_append, List.length_cons, hmore]
      by_cases hlo : lo = 0 <;> simp [hlo]
  | cons a s ih =>
    have hmore : (if hi ≠ some 0 ∧ C a then (greedy C (lo - 1) (hi.map (· - 1)) (s ++ v)).map
          (fun q => (a :: q.1, q.2)) else []).filter (fun q => v.length ≤ q.2.length) =
        (if hi ≠ some 0 ∧ C a then (greedy C (lo - 1) (hi.map (· - 1)) s).map
          (fun q => (a :: q.1, q.2)) else []).map fun q => (q.1, q.2 ++ v) := by
      split
      · rw [List.filter_map, Function.comp_def, ih, List.map_map, List.map_map]
        rfl
      · rfl
    have hstop : (if lo = 0 then [(([] : List α), a :: (s ++ v))] else []).filter
        (fun q => v.length ≤ q.2.length) = (if lo = 0 then [([], a :: s)] else []).map fun q =>
          (q.1, q.2 ++ v) := by
      split
      · refine List.filter_eq_self.mpr fun q hq => ?_
        rw [List.mem_singleton.mp hq, decide_eq_true_eq, List.length_cons, List.length_append]
        omega
      · rfl
    rw [List.cons_append, greedy, greedy, List.filter_append, List.map_append, hmore, hstop]

/-- The matches that end before `v` are those in the text without it, in the same order. -/
theorem run_append (h : r.alike v.head? none = true) :
    (r.run p (s ++ v)).filter (fun q => v.length ≤ q.2.length) = (r.run p s).map fun q =>
    (q.1, q.2 ++ v) := by
  induction r generalizing p s with
  | eps => simp [run]
  | bound word =>
    simp only [alike, decide_eq_true_eq] at h
    have hhead : (s ++ v).head?.any word = s.head?.any word := by
      cases s with
      | nil => exact h
      | cons a s => rfl
    simp only [run, hhead]
    split <;> simp
  | rep C lo hi => exact greedy_append C lo hi s v
  | seq a b iha ihb =>
    simp only [alike, Bool.and_eq_true] at h
    simp only [run, List.filter_flatMap, List.map_flatMap]
    rw [← flatMap_filter_of_nil (P := fun q => v.length ≤ q.2.length), iha h.1, List.flatMap_map]
    · congr 1
      funext q
      rw [List.filter_map, Function.comp_def, ihb h.2, List.map_map, List.map_map]
      rfl
    · -- what a match of `a` has taken of `v` cannot be given back
      intro q _ hq
      rw [List.filter_eq_nil_iff]
      intro q' hq'
      obtain ⟨q'', hq'', rfl⟩ := List.mem_map.mp hq'
      have hle := length_snd_le hq''
      simp only [decide_eq_false_iff_not, decide_eq_true_eq] at hq ⊢
      omega
  | alt a b iha ihb =>
    simp only [alike, Bool.and_eq_true] at h
    simp only [run, List.filter_append, List.map_append, iha h.1, ihb h.2]

/-- A letter that no match can hold. -/
theorem separates_of_unused (halike : r.alike (some c) none = true) (hc : r.uses c = false) :
    r.Separates p c p' := by
  refine ⟨halike, .inl ⟨?_, fun y _ => (follows_of_unused hc y).1⟩⟩
  cases h : r.last c with
  | false => rfl
  | true => simp [uses_of_last h] at hc

/-- What separates does so with the text on the left cut off. -/
theorem Separates.of_append (h : r.Separates (u ++ s).getLast? c p) : r.Separates s.getLast? c p := by
  refine ⟨h.1, h.2.imp id fun hleft => ⟨hleft.1, fun x hx => hleft.2 x ?_⟩⟩
  rw [List.getLast?_append, hx]
  rfl

/-- A match that begins left of a separating letter ends there. -/
theorem Separates.length_le (h : r.Separates u.getLast? c v.head?) (hm : r.Matches p m t)
    (heq : u ++ c :: v = m ++ t) : (c :: v).length ≤ t.length := by
  rcases List.append_eq_append_iff.mp heq with ⟨m', rfl, hrest⟩ | ⟨t', rfl, rfl⟩
  · cases m' with
    | nil =>
      rw [hrest]
      exact Nat.le_refl _
    | cons c' m' =>
      -- otherwise the match holds the letter, with its neighbours if it goes on to them
      exfalso
      obtain ⟨rfl, rfl⟩ := List.cons.inj hrest
      have hchain := List.isChain_append.mp hm.isChain
      rcases h.2 with ⟨hlast, hnext⟩ | ⟨hfirst, hprev⟩
      · cases m' with
        | nil => simp [hm.last (x := c) (by simp)] at hlast
        | cons y m' =>
          have hpair := (List.isChain_cons_cons.mp hchain.2.1).1
          simp [hpair] at hnext
      · cases hu : u.getLast? with
        | none =>
          rw [List.getLast?_eq_none_iff] at hu
          subst hu
          simp [hm.first (x := c) rfl] at hfirst
        | some x =>
          have hpair := hchain.2.2 x hu c rfl
          simp [hprev x hu] at hpair
  · simp

theorem find_separated (h : r.Separates u.getLast? c v.head?) :
    r.find p (u ++ c :: v) = (r.find p u).map fun q => (q.1, q.2 ++ c :: v) := by
  have hall : (r.run p (u ++ c :: v)).filter (fun q => (c :: v).length ≤ q.2.length) =
      r.run p (u ++ c :: v) := by
    refine List.filter_eq_self.mpr fun q hq => ?_
    obtain ⟨heq, hm⟩ := mem_run.mp hq
    exact decide_eq_true (h.length_le hm heq)
  unfold find
  rw [← hall, run_append h.1, List.head?_map]

/-- A separating letter divides the scan. -/
theorem scan_separated (hr : r.nullable = false) (h : r.Separates u.getLast? c v.head?) :
    r.scan p 0 (u ++ c :: v) = r.scan p 0 u ++ .plain c :: r.scan none 0 v := by
  refine scan_induct hr (motive := fun p u => r.Separates u.getLast? c v.head? →
    r.scan p 0 (u ++ c :: v) = r.scan p 0 u ++ .plain c :: r.scan none 0 v) ?_ ?_ ?_ p u h
  · intro p h
    have hnone : r.find p (c :: v) = none := by
      rw [find_eq_none]
      intro m t heq hm
      have hlen := h.length_le hm heq
      have hm' : m = [] := by
        rw [heq, List.length_append] at hlen
        exact List.length_eq_zero_iff.mp (by omega)
      subst hm'
      rw [hm.nullable] at hr
      cases hr
    rw [List.nil_append, scan_cons_none hnone, scan_congr h.1]
    rfl
  · intro p a s hfind ih h
    have hnone : r.find p (a :: (s ++ c :: v)) = none := by
      rw [← List.cons_append, find_separated h, hfind]
      rfl
    rw [List.cons_append, scan_cons_none hnone, scan_cons_none hfind,
      ih (Separates.of_append (u := [a]) h), List.cons_append]
  · intro p m t hm hfind _ ih h
    have hsome : r.find p (m ++ (t ++ c :: v)) = some (m, t ++ c :: v) := by
      rw [← List.append_assoc, find_separated h, hfind]
      rfl
    rw [List.append_assoc, scan_some hm hsome, scan_some hm hfind, ih h.of_append, List.cons_append]

variable {f : List α → List α}

theorem replaceAll_separated (hr : r.nullable = false) (h : r.Separates u.getLast? c v.head?) :
    r.replaceAll f (u ++ c :: v) = r.replaceAll f u ++ c :: r.replaceAll f v := by
  unfold replaceAll
  rw [scan_separated hr h, List.flatMap_append, List.flatMap_cons]
  rfl

theorem replaceAll_nil : r.replaceAll f [] = [] := rfl

/-- A text that is one match. -/
theorem replaceAll_whole (hs : s ≠ []) (h : r.find none s = some (s, [])) : r.replaceAll f s = f s := by
  have hscan := scan_some (t := []) hs (by rwa [List.append_nil])
  rw [List.append_nil] at hscan
  rw [replaceAll, hscan]
  simp [scan, Segment.text]

/-- A text that is a match and none of whose fronts is one. -/
theorem find_whole (h : r.Matches p s []) (hfront : ∀ m t, s = m ++ t → r.Matches p m t → t = []) :
    r.find p s = some (s, []) := by
  cases hfind : r.find p s with
  | none => exact absurd h (find_eq_none.mp hfind s [] (List.append_nil s).symm)
  | some q =>
    obtain ⟨m, t⟩ := q
    obtain ⟨heq, hmatch⟩ := find_eq_some hfind
    obtain rfl := hfront m t heq hmatch
    rw [heq, List.append_nil]

/-- A replacement that shows in the new text. -/
structure Replaced [DecidableEq α] (r : Re α) (f : List α → List α) (p : Option α) (s s' m : List α) :
    Prop where
  found : ∃ u t, s = u ++ (m ++ t) ∧ r.Matches (after p u) m t
  ne : f m ≠ m
  shown : f m <:+: s'
  count_le : ∀ c, r.uses c = false → s.count c + (f m).count c ≤ s'.count c

/-- A text changes by replacements only, and letters that no match can hold are only added. -/
theorem replaceAll_cases [DecidableEq α] (hr : r.nullable = false) (f : List α → List α) (s : List α) :
    r.replaceAll f s = s ∨ ∃ m, r.Replaced f none s (r.replaceAll f s) m := by
  refine scan_induct hr (motive := fun p s => (r.scan p 0 s).flatMap (Segment.text f) = s ∨
    ∃ m, r.Replaced f p s ((r.scan p 0 s).flatMap (Segment.text f)) m) ?_ ?_ ?_ none s
  · intro p
    exact .inl rfl
  · intro p a s hfind ih
    rw [scan_cons_none hfind, List.flatMap_cons, Segment.text, List.singleton_append]
    rcases ih with heq | ⟨m, ⟨u, t, hs, hmatch⟩, hne, hshown, hcount⟩
    · exact .inl (congrArg _ heq)
    · refine .inr ⟨m, ⟨a :: u, t, by rw [hs]; rfl, hmatch⟩, hne, hshown.trans (List.suffix_cons ..).isInfix,
        fun c hc => ?_⟩
      have hle := hcount c hc
      simp only [List.count_cons]
      omega
  · intro p m t hm hfind hmatch ih
    rw [scan_some hm hfind, List.flatMap_cons, Segment.text]
    by_cases hne : f m = m
    · rw [hne]
      rcases ih with heq | ⟨m', ⟨u, t', ht, hmatch'⟩, hne', hshown, hcount⟩
      · exact .inl (congrArg _ heq)
      · refine .inr ⟨m', ⟨m ++ u, t', by rw [ht, List.append_assoc], by rwa [after_append]⟩, hne',
          hshown.trans (List.suffix_append ..).isInfix, fun c hc => ?_⟩
        have hle := hcount c hc
        simp only [List.count_append]
        omega
    · refine .inr ⟨m, ⟨[], t, rfl, hmatch⟩, hne, (List.prefix_append ..).isInfix, fun c hc => ?_⟩
      have hzero : m.count c = 0 := List.count_eq_zero.mpr fun hmem => by simp [hmatch.uses hmem] at hc
      have hrest : t.count c ≤ ((r.scan (after p m) 0 t).flatMap (Segment.text f)).count c := by
        rcases ih with heq | ⟨m', hm'⟩
        · rw [heq]
        · have hle := hm'.count_le c hc
          omega
      simp only [List.count_append]
      omega

theorem count_le_count_replaceAll [DecidableEq α] (hr : r.nullable = false) (hc : r.uses c = false) :
    s.count c ≤ (r.replaceAll f s).count c := by
  rcases replaceAll_cases hr f s with heq | ⟨m, hm⟩
  · rw [heq]
  · have hcount := hm.count_le c hc
    omega

/-- The letters of a replaced text were there before, or come with a replacement. -/
theorem mem_replaceAll (hr : r.nullable = false) (hc : c ∈ r.replaceAll f s) :
    c ∈ s ∨ ∃ p m t, r.Matches p m t ∧ c ∈ f m := by
  refine scan_induct hr (motive := fun p s => c ∈ (r.scan p 0 s).flatMap (Segment.text f) →
    c ∈ s ∨ ∃ p m t, r.Matches p m t ∧ c ∈ f m) ?_ ?_ ?_ none s hc
  · intro p hc
    cases hc
  · intro p a s hfind ih hc
    rw [scan_cons_none hfind, List.flatMap_cons] at hc
    rcases List.mem_append.mp hc with hc | hc
    · exact .inl (List.mem_singleton.mp hc ▸ List.mem_cons_self)
    · exact (ih hc).imp (List.mem_cons_of_mem a) id
  · intro p m t hm hfind hmatch ih hc
    rw [scan_some hm hfind, List.flatMap_cons] at hc
    rcases List.mem_append.mp hc with hc | hc
    · exact .inr ⟨p, m, t, hmatch, hc⟩
    · exact (ih hc).imp (List.mem_append_right m) id

/-- A text without a match stays as it is. -/
theorem replaceAll_eq_self [DecidableEq α] (hr : r.nullable = false)
    (h : ∀ u m t, s = u ++ (m ++ t) → ¬r.Matches (after none u) m t) : r.replaceAll f s = s := by
  rcases replaceAll_cases hr f s with heq | ⟨m, ⟨u, t, hs, hmatch⟩, -⟩
  · exact heq
  · exact absurd hmatch (h u m t hs)

end

end Re

end SynapseGo.Regex
