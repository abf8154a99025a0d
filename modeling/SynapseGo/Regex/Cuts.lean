import SynapseGo.Regex.Scan

/-! Passes over a text seen as cuts. A match that a pass changes cuts its text in two; what the replacement
leaves readable before and after its mask stays at the two sides. Letters carry a flag that tells those
which a replacement has put there from those of the text as it came. -/
namespace SynapseGo.Regex
variable {α β : Type}

theorem after_map (g : β → α) (p : Option β) (m : List β) :
    after (p.map g) (m.map g) = (after p m).map g := by
  induction m generalizing p with
  | nil => rfl
  | cons b m ih => exact ih (some b)

theorem after_of_getLast? {p : Option α} {m : List α} {a : α} (h : m.getLast? = some a) :
    after p m = some a := by
  rw [after_eq_getLast? p (by rintro rfl; cases h), h]

def Segment.map (g : β → α) : Segment β → Segment α
  | .plain b => .plain (g b)
  | .matched m => .matched (m.map g)

private theorem greedy_comap (g : β → α) (C : α → Bool) (lo : ℕ) (hi : Option ℕ) (s : List β) :
    (greedy (C ∘ g) lo hi s).map (fun q => (q.1.map g, q.2.map g)) = greedy C lo hi (s.map g) := by
  induction s generalizing lo hi with
  | nil =>
    rw [List.map_nil, greedy, greedy]
    split <;> rfl
  | cons b s ih =>
    rw [List.map_cons, greedy, greedy, List.map_append]
    congr 1
    · simp only [Function.comp_apply]
      split
      · rw [← ih, List.map_map, List.map_map]
        rfl
      · rfl
    · split <;> rfl

namespace Re

/-- The expression on letters that are read through `g`. -/
def comap (g : β → α) : Re α → Re β
  | .eps => .eps
  | .bound word => .bound (word ∘ g)
  | .rep C lo hi => .rep (C ∘ g) lo hi
  | .seq a b => .seq (a.comap g) (b.comap g)
  | .alt a b => .alt (a.comap g) (b.comap g)

section
variable {r : Re α} {g : β → α}

private theorem any_map (g : β → α) (word : α → Bool) (p : Option β) :
    (p.map g).any word = p.any (word ∘ g) := by
  cases p <;> rfl

theorem run_comap (p : Option β) (s : List β) :
    ((r.comap g).run p s).map (fun q => (q.1.map g, q.2.map g)) = r.run (p.map g) (s.map g) := by
  induction r generalizing p s with
  | eps => rfl
  | bound word =>
    simp only [comap, run, List.head?_map, any_map]
    split <;> rfl
  | rep C lo hi => exact greedy_comap g C lo hi s
  | seq a b iha ihb =>
    simp only [comap, run, ← iha, List.map_flatMap, List.flatMap_map, List.map_map, after_map, ← ihb]
    congr 1
    funext q
    congr 1
    funext q'
    simp
  | alt a b iha ihb => simp only [comap, run, List.map_append, iha, ihb]

theorem find_comap (p : Option β) (s : List β) :
    r.find (p.map g) (s.map g) = ((r.comap g).find p s).map fun q => (q.1.map g, q.2.map g) := by
  unfold find
  rw [← run_comap, List.head?_map]

theorem matches_comap {p : Option β} {m t : List β} :
    (r.comap g).Matches p m t ↔ r.Matches (p.map g) (m.map g) (t.map g) := by
  induction r generalizing p m t with
  | eps => simp [comap, Matches]
  | bound word => simp [comap, Matches, any_map]
  | rep C lo hi => simp [comap, Matches]
  | seq a b iha ihb =>
    simp only [comap, Matches, iha, ihb, List.map_append]
    constructor
    · rintro ⟨m₁, m₂, rfl, ha, hb⟩
      exact ⟨m₁.map g, m₂.map g, List.map_append, ha, by rwa [after_map]⟩
    · rintro ⟨_, _, heq, ha, hb⟩
      obtain ⟨m₁, m₂, rfl, rfl, rfl⟩ := List.map_eq_append_iff.mp heq
      exact ⟨m₁, m₂, rfl, ha, by rwa [after_map] at hb⟩
  | alt a b iha ihb => simp only [comap, Matches, iha, ihb]

theorem nullable_comap : (r.comap g).nullable = r.nullable := by
  induction r with
  | eps => rfl
  | bound word => rfl
  | rep C lo hi => rfl
  | seq a b iha ihb => simp only [comap, nullable, iha, ihb]
  | alt a b iha ihb => simp only [comap, nullable, iha, ihb]

theorem scan_comap (p : Option β) (n : ℕ) (s : List β) :
    r.scan (p.map g) n (s.map g) = ((r.comap g).scan p n s).map (Segment.map g) := by
  induction s generalizing p n with
  | nil => cases n <;> rfl
  | cons b s ih =>
    cases n with
    | succ n => exact ih (some b) n
    | zero =>
      have hfind := find_comap (r := r) (g := g) p (b :: s)
      rw [List.map_cons] at hfind ⊢
      simp only [scan, hfind]
      cases (r.comap g).find p (b :: s) with
      | none => exact congrArg _ (ih (some b) 0)
      | some q =>
        simp only [Option.map_some, List.length_map, List.map_cons]
        exact congrArg _ (ih (some b) (q.1.length - 1))

end

/-- A match looks at no more than the next letter of the text after it. -/
theorem Matches.congr_head {r : Re α} {p : Option α} {m t t' : List α} (h : r.Matches p m t)
    (ht : t.head? = t'.head?) : r.Matches p m t' := by
  induction r generalizing p m t t' with
  | eps => exact h
  | bound word => exact ⟨h.1, by rw [← ht]; exact h.2⟩
  | rep C lo hi => exact h
  | seq a b iha ihb =>
    obtain ⟨m₁, m₂, rfl, ha, hb⟩ := h
    have hnext : (m₂ ++ t).head? = (m₂ ++ t').head? := by
      rw [List.head?_append, List.head?_append, ht]
    exact ⟨m₁, m₂, rfl, iha ha hnext, ihb hb ht⟩
  | alt a b iha ihb => exact h.imp (iha · ht) (ihb · ht)

/-- Every match inside `w`, when `v` comes after it, is one of `ok`. -/
def Quiet (r : Re α) (ok : List α → Prop) (p : Option α) (w v : List α) : Prop :=
  ∀ u m t, w = u ++ (m ++ t) → r.Matches (after p u) m (t ++ v) → ok m

/-- A match that begins inside one of `ok` is one of `ok`. -/
def Closed (r : Re α) (ok : List α → Prop) : Prop :=
  ∀ p m t, r.Matches p m t → ok m → ∀ u m' t', m ++ t = u ++ (m' ++ t') → u.length < m.length →
    r.Matches (after p u) m' t' → ok m'

section
variable {r : Re α} {ok : List α → Prop} {p : Option α} {w v : List α}

theorem quiet_nil (hr : r.nullable = false) : r.Quiet ok p [] v := by
  intro u m t heq hm
  obtain ⟨rfl, rfl⟩ : m = [] ∧ t = [] := by simp_all
  rw [hm.nullable] at hr
  cases hr

theorem Quiet.plain {a : α} (h : r.find p (a :: (w ++ v)) = none) (hw : r.Quiet ok (some a) w v) :
    r.Quiet ok p (a :: w) v := by
  intro u m t heq hm
  cases u with
  | nil =>
    rw [find_eq_none] at h
    have hsplit : a :: (w ++ v) = m ++ (t ++ v) := by
      rw [← List.cons_append, heq, List.nil_append, List.append_assoc]
    exact absurd hm (h m (t ++ v) hsplit)
  | cons b u =>
    obtain ⟨rfl, hrest⟩ := List.cons.inj heq
    exact hw u m t hrest hm

theorem Quiet.matched (hc : r.Closed ok) {m : List α} (hm : r.Matches p m (w ++ v)) (hok : ok m)
    (hw : r.Quiet ok (after p m) w v) : r.Quiet ok p (m ++ w) v := by
  intro u m' t' heq hm'
  by_cases hlen : u.length < m.length
  · have hsplit : m ++ (w ++ v) = u ++ (m' ++ (t' ++ v)) := by
      rw [← List.append_assoc, heq, List.append_assoc, List.append_assoc]
    exact hc p m (w ++ v) hm hok u m' (t' ++ v) hsplit hlen hm'
  · rcases List.append_eq_append_iff.mp heq with ⟨u', rfl, hrest⟩ | ⟨m₂, rfl, hrest⟩
    · rw [after_append] at hm'
      exact hw u' m' t' hrest hm'
    · obtain rfl : m₂ = [] := by
        rw [List.length_append] at hlen
        exact List.length_eq_zero_iff.mp (by omega)
      rw [List.append_nil] at hw
      exact hw [] m' t' hrest.symm hm'

end

/-- A text that no pass looks across. -/
def Barrier (r : Re α) (f : List α → List α) (k : List α) : Prop :=
  ∀ u v, r.replaceAll f (u ++ (k ++ v)) = r.replaceAll f u ++ (k ++ r.replaceAll f v)

section
variable {r : Re α} {f : List α → List α} {k k' w : List α}

theorem barrier_singleton (hr : r.nullable = false) {c : α} (halike : r.alike (some c) none = true)
    (hc : r.uses c = false) : r.Barrier f [c] := fun _ _ =>
  replaceAll_separated hr (separates_of_unused halike hc)

/-- What a pass leaves alone between two barriers is part of a barrier. -/
theorem Barrier.append (hk : r.Barrier f k) (hk' : r.Barrier f k') (hw : r.replaceAll f w = w) :
    r.Barrier f (k ++ (w ++ k')) := by
  intro u v
  rw [List.append_assoc, List.append_assoc, hk, hk', hw, List.append_assoc, List.append_assoc]

end

end Re

/-- A rule of a pass: what replaces a match, and what stays readable of it before and after the mask. -/
structure Mask (α : Type) where
  pattern : Re α
  apply : List α → List α
  front : List α → List α
  back : List α → List α

/-- Flagged letters as they are read. -/
def letters (x : List (α × Bool)) : List α := x.map Prod.fst

/-- Letters that a replacement has put there. -/
def fresh (s : List α) : List (α × Bool) := s.map fun a => (a, true)

/-- The letters of a text as it comes. -/
def original (s : List α) : List (α × Bool) := s.map fun a => (a, false)

@[simp] theorem letters_fresh (s : List α) : letters (fresh s) = s := by
  simp [letters, fresh, Function.comp_def]

@[simp] theorem letters_original (s : List α) : letters (original s) = s := by
  simp [letters, original, Function.comp_def]

@[simp] theorem letters_append (x y : List (α × Bool)) : letters (x ++ y) = letters x ++ letters y :=
  List.map_append

/-- The match and both its neighbours are letters of the text as it came. -/
def Buried (u m t : List (α × Bool)) : Prop :=
  ∃ c d, u.getLast? = some c ∧ t.head? = some d ∧ ∀ e ∈ c :: (m ++ [d]), e.2 = false

/-- Untouched letters that follow fresh ones. -/
private theorem old_of_fresh_append {b : List α} {n y u t : List (α × Bool)} (hn : n ≠ [])
    (hold : ∀ e ∈ n, e.2 = false) (heq : fresh b ++ y = u ++ (n ++ t)) :
    ∃ u', u = fresh b ++ u' ∧ y = u' ++ (n ++ t) := by
  rcases List.append_eq_append_iff.mp heq with ⟨u', rfl, hy⟩ | ⟨b', hb, hy⟩
  · exact ⟨u', rfl, hy⟩
  · cases b' with
    | nil =>
      rw [List.append_nil] at hb
      exact ⟨[], by rw [hb, List.append_nil], hy.symm⟩
    | cons e b' =>
      exfalso
      have he : e ∈ fresh b := by simp [hb]
      obtain ⟨a, -, rfl⟩ := List.mem_map.mp he
      cases n with
      | nil => exact hn rfl
      | cons e' n =>
        obtain ⟨rfl, -⟩ := List.cons.inj hy
        cases hold (a, true) List.mem_cons_self

/-- Untouched letters that come before fresh ones. -/
private theorem old_of_append_fresh {a : List α} {n w u t : List (α × Bool)} (hn : n ≠ [])
    (hold : ∀ e ∈ n, e.2 = false) (heq : w ++ fresh a = u ++ (n ++ t)) : ∃ t', w = u ++ (n ++ t') := by
  rw [← List.append_assoc] at heq
  rcases List.append_eq_append_iff.mp heq with ⟨a', hu, ha⟩ | ⟨t', rfl, -⟩
  · obtain ⟨n, e, rfl⟩ := List.eq_nil_or_concat' n |>.resolve_left hn
    rcases List.eq_nil_or_concat' a' with rfl | ⟨a', e', rfl⟩
    · exact ⟨[], by rw [List.append_nil] at hu ⊢; exact hu.symm⟩
    · exfalso
      rw [← List.append_assoc, ← List.append_assoc] at hu
      obtain ⟨-, rfl⟩ := List.append_inj' hu rfl |>.imp_right (fun h => (List.cons.inj h).1)
      have he : e ∈ fresh a := by simp [ha]
      obtain ⟨x, -, rfl⟩ := List.mem_map.mp he
      cases hold (x, true) (by simp)
  · exact ⟨t', by rw [List.append_assoc]⟩

/-- A buried match of a piece lies in its middle, with the same neighbours. -/
private theorem Buried.of_piece {a b : List α} {w u m t : List (α × Bool)}
    (heq : fresh b ++ (w ++ fresh a) = u ++ (m ++ t)) (h : Buried u m t) :
    ∃ u' t', w = u' ++ (m ++ t') ∧ u'.getLast? = u.getLast? ∧ t'.head? = t.head? := by
  obtain ⟨c, d, hc, hd, hold⟩ := h
  obtain ⟨u, rfl⟩ := List.getLast?_eq_some_iff.mp hc
  obtain ⟨t, rfl⟩ := List.head?_eq_some_iff.mp hd
  have hsplit : (u ++ [c]) ++ (m ++ d :: t) = u ++ ((c :: (m ++ [d])) ++ t) := by simp
  rw [hsplit] at heq
  obtain ⟨u', rfl, hy⟩ := old_of_fresh_append (List.cons_ne_nil _ _) hold heq
  obtain ⟨t', rfl⟩ := old_of_append_fresh (List.cons_ne_nil _ _) hold hy
  exact ⟨u' ++ [c], d :: t', by simp, by simp, rfl⟩

namespace Mask
variable [DecidableEq α]

/-- The pieces of a scanned text: the first one, and those after each cut. -/
def pieces (M : Mask α) : List (Segment (α × Bool)) → List (α × Bool) × List (List (α × Bool))
  | [] => ([], [])
  | .plain c :: l => (c :: (M.pieces l).1, (M.pieces l).2)
  | .matched m :: l =>
    if M.apply (letters m) = letters m then (m ++ (M.pieces l).1, (M.pieces l).2)
    else (fresh (M.front (letters m)), (fresh (M.back (letters m)) ++ (M.pieces l).1) :: (M.pieces l).2)

/-- The pieces into which the matches that change cut a stretch of text. -/
def cut (M : Mask α) (x : List (α × Bool)) : List (List (α × Bool)) :=
  let q := M.pieces ((M.pattern.comap Prod.fst).scan none 0 x)
  q.1 :: q.2

/-- The stretches that are left when the rules have cut the text one after another. -/
def stretches (Ms : List (Mask α)) (xs : List (List (α × Bool))) : List (List (α × Bool)) :=
  Ms.foldl (fun xs M => xs.flatMap M.cut) xs

/-- One pass over a text. -/
def pass (M : Mask α) (s : List α) : List α := M.pattern.replaceAll M.apply s

/-- A match to change that holds or touches a letter which a replacement has put there, or an end of the
stretch. -/
def Renewed (M : Mask α) (x : List (α × Bool)) : Prop :=
  ∃ u m t, x = u ++ (m ++ t) ∧ (M.pattern.comap Prod.fst).Matches (after none u) m t ∧
    M.apply (letters m) ≠ letters m ∧ ¬ Buried u m t

/-- What the argument needs of a rule: `K` are the masks, and `size` counts signs that only masks have. -/
structure Sound (M : Mask α) (K : List α → Prop) (size : List α → ℕ) : Prop where
  nullable : M.pattern.nullable = false
  closed : M.pattern.Closed fun m => M.apply m = m
  masked : ∀ p m t, M.pattern.Matches p m t → M.apply m ≠ m →
    ∃ k, K k ∧ M.apply m = M.front m ++ (k ++ M.back m)
  grows : ∀ p m t, M.pattern.Matches p m t → M.apply m ≠ m → size m < size (M.apply m)
  barrier : ∀ k, K k → M.pattern.Barrier M.apply k

section
variable {M : Mask α} {K : List α → Prop} {size : List α → ℕ} {x z : List (α × Bool)} {s : List α}

/-- A pass that changes no match, or the signs become more. -/
private theorem quiet_or_grows (h : M.Sound K size) (hadd : ∀ a b, size (a ++ b) = size a + size b)
    (p : Option α) (s : List α) : let s' := (M.pattern.scan p 0 s).flatMap (Segment.text M.apply)
    size s ≤ size s' ∧ (M.pattern.Quiet (fun m => M.apply m = m) p s [] ∨ size s < size s') := by
  refine Re.scan_induct h.nullable (motive := fun p s =>
    let s' := (M.pattern.scan p 0 s).flatMap (Segment.text M.apply)
    size s ≤ size s' ∧ (M.pattern.Quiet (fun m => M.apply m = m) p s [] ∨ size s < size s')) ?_ ?_ ?_ p s
  · exact fun p => ⟨Nat.le_refl _, .inl (Re.quiet_nil h.nullable)⟩
  · intro p a s hfind ih
    have hsize : size (a :: s) = size [a] + size s := hadd [a] s
    simp only [Re.scan_cons_none hfind, List.flatMap_cons, Segment.text, hadd, hsize]
    refine ⟨by omega, ih.2.imp (fun hq => ?_) fun hlt => by omega⟩
    exact Re.Quiet.plain (by simpa using hfind) hq
  · intro p m t hm hfind hmatch ih
    simp only [Re.scan_some hm hfind, List.flatMap_cons, Segment.text, hadd]
    by_cases hsame : M.apply m = m
    · rw [hsame]
      refine ⟨by omega, ih.2.imp (fun hq => ?_) fun hlt => by omega⟩
      exact Re.Quiet.matched h.closed (by simpa using hmatch) hsame hq
    · have hgrows := h.grows p m t hmatch hsame
      exact ⟨by omega, .inr (by omega)⟩

theorem Sound.le_pass (h : M.Sound K size) (hadd : ∀ a b, size (a ++ b) = size a + size b) (s : List α) :
    size s ≤ size (M.pass s) := (quiet_or_grows h hadd none s).1

/-- A text that the pass leaves alone has no match to change. -/
theorem Sound.quiet_of_pass_eq (h : M.Sound K size) (hadd : ∀ a b, size (a ++ b) = size a + size b)
    (hs : M.pass s = s) : M.pattern.Quiet (fun m => M.apply m = m) none s [] := by
  rcases (quiet_or_grows h hadd none s).2 with hquiet | hlt
  · exact hquiet
  · have hlt : size s < size (M.pass s) := hlt
    rw [hs] at hlt
    exact absurd hlt (lt_irrefl _)

theorem Sound.pass_eq_self (h : M.Sound K size)
    (hnone : ∀ u m t, s = u ++ (m ++ t) → M.pattern.Matches (after none u) m t → M.apply m = m) :
    M.pass s = s := by
  rcases Re.replaceAll_cases h.nullable M.apply s with hsame | ⟨m, ⟨u, t, hs, hmatch⟩, hne, -⟩
  · exact hsame
  · exact absurd (hnone u m t hs hmatch) hne

theorem Sound.pass_lt (h : M.Sound K size) (hadd : ∀ a b, size (a ++ b) = size a + size b)
    (hs : M.pass s ≠ s) :
    size s < size (M.pass s) := by
  rcases (quiet_or_grows h hadd none s).2 with hquiet | hlt
  · exact absurd (h.pass_eq_self fun u m t hs hm => hquiet u m t hs (by rwa [List.append_nil])) hs
  · exact hlt

end

/-- A text is woven of stretches and the masks between them. -/
inductive Woven (K : List α → Prop) : List (List (α × Bool)) → List α → Prop
  | last (x : List (α × Bool)) : Woven K [x] (letters x)
  | cons (x : List (α × Bool)) {xs : List (List (α × Bool))} {k s : List α} (hk : K k) (hs : Woven K xs s) :
    Woven K (x :: xs) (letters x ++ (k ++ s))

section
variable {M : Mask α} {K : List α → Prop} {size : List α → ℕ} {x : List (α × Bool)}
  {xs ys : List (List (α × Bool))} {s t k : List α}

omit [DecidableEq α] in
theorem Woven.prepend (h : Woven K (x :: xs) s) (y : List (α × Bool)) :
    Woven K ((y ++ x) :: xs) (letters y ++ s) := by
  cases h with
  | last => simpa using Woven.last (K := K) (y ++ x)
  | cons _ hk hs => simpa using Woven.cons (y ++ x) hk hs

omit [DecidableEq α] in
theorem Woven.append (hs : Woven K xs s) (hk : K k) (ht : Woven K ys t) :
    Woven K (xs ++ ys) (s ++ (k ++ t)) := by
  induction hs with
  | last x => exact .cons x hk ht
  | cons x hk' _ ih =>
    rw [List.append_assoc, List.append_assoc]
    exact .cons x hk' ih

private theorem woven_pieces (h : M.Sound K size) (p : Option (α × Bool)) (x : List (α × Bool)) :
    let q := M.pieces ((M.pattern.comap Prod.fst).scan p 0 x)
    Woven K (q.1 :: q.2)
      ((M.pattern.scan (p.map Prod.fst) 0 (letters x)).flatMap (Segment.text M.apply)) := by
  have hnull : (M.pattern.comap (Prod.fst : α × Bool → α)).nullable = false := by
    rw [Re.nullable_comap]
    exact h.nullable
  unfold letters
  simp only [Re.scan_comap, List.flatMap_map]
  refine Re.scan_induct hnull (motive := fun p x =>
    let l := (M.pattern.comap Prod.fst).scan p 0 x
    Woven K ((M.pieces l).1 :: (M.pieces l).2) (l.flatMap fun g => (g.map Prod.fst).text M.apply))
    ?_ ?_ ?_ p x
  · exact fun p => .last []
  · intro p c s hfind ih
    simp only [Re.scan_cons_none hfind, pieces, List.flatMap_cons]
    exact ih.prepend [c]
  · intro p m t hm hfind hmatch ih
    simp only [Re.scan_some hm hfind, pieces, List.flatMap_cons, Segment.map, Segment.text]
    split
    next hsame =>
      have hsame : M.apply (m.map Prod.fst) = m.map Prod.fst := hsame
      rw [hsame]
      exact ih.prepend m
    next hne =>
      obtain ⟨k, hk, happly⟩ := h.masked _ _ _ (Re.matches_comap.mp hmatch) hne
      have hshown := ih.prepend (fresh (M.back (letters m)))
      rw [letters_fresh] at hshown
      have hall := Woven.cons (fresh (M.front (letters m))) hk hshown
      rw [letters_fresh, ← List.append_assoc k, ← List.append_assoc (M.front (letters m))] at hall
      have happly : M.apply (m.map Prod.fst) = M.front (letters m) ++ (k ++ M.back (letters m)) := happly
      rw [happly]
      exact hall

/-- One pass cuts every stretch for itself. -/
theorem Woven.pass (h : M.Sound K size) (hs : Woven K xs s) : Woven K (xs.flatMap M.cut) (M.pass s) := by
  induction hs with
  | last x =>
    rw [List.flatMap_singleton]
    exact woven_pieces h none x
  | @cons x xs k s hk _ ih =>
    have hpass : M.pass (letters x ++ (k ++ s)) = M.pass (letters x) ++ (k ++ M.pass s) := h.barrier k hk _ _
    rw [hpass, List.flatMap_cons]
    exact (woven_pieces h none x).append hk ih

/-- A pass leaves a text alone exactly if it does so with every stretch. -/
theorem Woven.pass_eq_iff (h : M.Sound K size) (hadd : ∀ a b, size (a ++ b) = size a + size b)
    (hs : Woven K xs s) : M.pass s = s ↔ ∀ x ∈ xs, M.pass (letters x) = letters x := by
  induction hs with
  | last x => simp
  | @cons x xs k s hk _ ih =>
    have hpass : M.pass (letters x ++ (k ++ s)) = M.pass (letters x) ++ (k ++ M.pass s) := h.barrier k hk _ _
    rw [hpass, List.forall_mem_cons, ← ih]
    constructor
    · intro heq
      -- neither side loses signs, so neither side gains any
      have hsize := congrArg size heq
      simp only [hadd] at hsize
      have hx := h.le_pass hadd (letters x)
      have hs := h.le_pass hadd s
      constructor
      · by_contra hne
        have hlt := h.pass_lt hadd hne
        omega
      · by_contra hne
        have hlt := h.pass_lt hadd hne
        omega
    · rintro ⟨hx, hs⟩
      rw [hx, hs]

end

/-- Every match that the rules of `done` would change is renewed. -/
private def Renews (done : List (Mask α)) (x : List (α × Bool)) : Prop :=
  ∀ M ∈ done, ∀ u m t, x = u ++ (m ++ t) → (M.pattern.comap Prod.fst).Matches (after none u) m t →
    M.apply (letters m) ≠ letters m → ¬ Buried u m t

section
variable {M : Mask α} {K : List α → Prop} {size : List α → ℕ} {x z : List (α × Bool)}
    {done Ms : List (Mask α)}

/-- The middle `w` of a piece is a part of the stretch in which the rule has changed nothing. -/
private def Spans (M : Mask α) (p : Option (α × Bool)) (x z : List (α × Bool)) : Prop :=
  ∃ b w a x₁ x₂, z = fresh b ++ (w ++ fresh a) ∧ x = x₁ ++ (w ++ x₂) ∧
    (M.pattern.comap Prod.fst).Quiet (fun m => M.apply (letters m) = letters m) (after p x₁) w x₂

omit [DecidableEq α] in
private theorem Spans.shift {p : Option (α × Bool)} {y : List (α × Bool)} (h : M.Spans (after p y) x z) :
    M.Spans p (y ++ x) z := by
  obtain ⟨b, w, a, x₁, x₂, hz, rfl, hquiet⟩ := h
  exact ⟨b, w, a, y ++ x₁, x₂, hz, by rw [List.append_assoc], by rwa [after_append]⟩

private theorem spans_pieces (h : M.Sound K size) (p : Option (α × Bool)) (x : List (α × Bool)) :
    let q := M.pieces ((M.pattern.comap Prod.fst).scan p 0 x)
    (∃ w a x₂, q.1 = w ++ fresh a ∧ x = w ++ x₂ ∧
      (M.pattern.comap Prod.fst).Quiet (fun m => M.apply (letters m) = letters m) p w x₂) ∧
    ∀ z ∈ q.2, M.Spans p x z := by
  have hnull : (M.pattern.comap (Prod.fst : α × Bool → α)).nullable = false := by
    rw [Re.nullable_comap]
    exact h.nullable
  have hclosed : (M.pattern.comap (Prod.fst : α × Bool → α)).Closed fun m => M.apply (letters m) =
    letters m := by
    intro p m t hm hok u m' t' heq hlen hm'
    have hmap := congrArg letters heq
    simp only [letters_append] at hmap
    rw [Re.matches_comap] at hm hm'
    rw [← after_map] at hm'
    exact h.closed _ _ _ hm hok _ _ _ hmap (by simpa [letters] using hlen) hm'
  refine Re.scan_induct hnull (motive := fun p x =>
    let q := M.pieces ((M.pattern.comap Prod.fst).scan p 0 x)
    (∃ w a x₂, q.1 = w ++ fresh a ∧ x = w ++ x₂ ∧
      (M.pattern.comap Prod.fst).Quiet (fun m => M.apply (letters m) = letters m) p w x₂) ∧
    ∀ z ∈ q.2, M.Spans p x z) ?_ ?_ ?_ p x
  · exact fun p => ⟨⟨[], [], [], rfl, rfl, Re.quiet_nil hnull⟩, nofun⟩
  · intro p c s hfind ⟨⟨w, a, x₂, hq, hs, hquiet⟩, hlater⟩
    simp only [Re.scan_cons_none hfind, pieces]
    refine ⟨⟨c :: w, a, x₂, by rw [hq, List.cons_append], by rw [hs, List.cons_append], ?_⟩, ?_⟩
    · exact .plain (by rwa [← hs]) hquiet
    · exact fun z hz => Spans.shift (y := [c]) (hlater z hz)
  · intro p m t hm hfind hmatch ⟨⟨w, a, x₂, hq, ht, hquiet⟩, hlater⟩
    simp only [Re.scan_some hm hfind, pieces]
    split
    next hsame =>
      refine ⟨⟨m ++ w, a, x₂, by rw [hq, List.append_assoc], by rw [ht, List.append_assoc], ?_⟩, ?_⟩
      · exact .matched hclosed (by rwa [← ht]) hsame hquiet
      · exact fun z hz => Spans.shift (hlater z hz)
    next hne =>
      refine ⟨⟨[], M.front (letters m), m ++ t, rfl, rfl, Re.quiet_nil hnull⟩, ?_⟩
      intro z hz
      rcases List.mem_cons.mp hz with rfl | hz
      · exact ⟨M.back (letters m), w, a, m, x₂, by rw [hq], by rw [ht], hquiet⟩
      · exact Spans.shift (hlater z hz)

private theorem spans_of_mem_cut (h : M.Sound K size) (hz : z ∈ M.cut x) : M.Spans none x z := by
  obtain ⟨⟨w, a, x₂, hq, hx, hquiet⟩, hlater⟩ := spans_pieces h none x
  rcases List.mem_cons.mp hz with rfl | hz
  · exact ⟨[], w, a, [], x₂, hq, hx, hquiet⟩
  · exact hlater z hz

/-- A cut leaves nothing to change but what it has touched: a buried match was in the stretch before. -/
private theorem Renews.cut (h : M.Sound K size) (hx : Renews done x) (hz : z ∈ M.cut x) :
    Renews (done ++ [M]) z := by
  obtain ⟨b, w, a, x₁, x₂, rfl, rfl, hquiet⟩ := spans_of_mem_cut h hz
  intro M' hM' u m t heq hmatch hne hburied
  obtain ⟨u', t', rfl, hlast, hhead⟩ := hburied.of_piece heq
  obtain ⟨c, d, hc, hd, hold⟩ := hburied
  have hprev : ∀ p (y : List (α × Bool)), after p (y ++ u') = after none u := by
    intro p y
    rw [after_append, after_of_getLast? (hlast.trans hc), after_of_getLast? hc]
  have hnext : (t' ++ x₂).head? = t.head? := by
    rw [List.head?_append, hhead, hd]
    rfl
  have hinside := hmatch.congr_head hnext.symm
  rcases List.mem_append.mp hM' with hdone | hlast'
  · refine hx M' hdone (x₁ ++ u') m (t' ++ x₂) (by simp) (by rwa [hprev]) hne ⟨c, d, ?_, ?_, hold⟩
    · rw [List.getLast?_append, hlast, hc]
      rfl
    · rw [hnext, hd]
  · cases List.mem_singleton.mp hlast'
    refine hne (hquiet u' m t' rfl ?_)
    have hsame := hprev none x₁
    rw [after_append] at hsame
    rwa [hsame]

private theorem renews_stretches (hMs : ∀ M ∈ Ms, M.Sound K size) {xs : List (List (α × Bool))}
    (hxs : ∀ x ∈ xs, Renews done x) : ∀ x ∈ stretches Ms xs, Renews (done ++ Ms) x := by
  induction Ms generalizing done xs with
  | nil => simpa [stretches] using hxs
  | cons M Ms ih =>
    have hM := hMs M List.mem_cons_self
    have hcut : ∀ z ∈ xs.flatMap M.cut, Renews (done ++ [M]) z := by
      intro z hz
      obtain ⟨x, hx, hz⟩ := List.mem_flatMap.mp hz
      exact (hxs x hx).cut hM hz
    have hall := ih (fun M' hM' => hMs M' (List.mem_cons_of_mem _ hM')) hcut
    rw [List.append_assoc] at hall
    exact hall

private theorem woven_stretches (hMs : ∀ M ∈ Ms, M.Sound K size) {xs : List (List (α × Bool))} {s : List α}
    (hs : Woven K xs s) : Woven K (stretches Ms xs) (Ms.foldl (fun s M => M.pass s) s) := by
  induction Ms generalizing xs s with
  | nil => exact hs
  | cons M Ms ih =>
    exact ih (fun M' hM' => hMs M' (List.mem_cons_of_mem _ hM')) (hs.pass (hMs M List.mem_cons_self))

/-- No rule changes what all of them have left of a text exactly if no stretch has a renewed match. -/
theorem passes_fixed_iff (hMs : ∀ M ∈ Ms, M.Sound K size) (hadd : ∀ a b, size (a ++ b) = size a + size b)
    (s : List α) : let s' := Ms.foldl (fun s M => M.pass s) s
    (∀ M ∈ Ms, M.pass s' = s') ↔ ∀ x ∈ stretches Ms [original s], ∀ M ∈ Ms, ¬ M.Renewed x := by
  intro s'
  have hwoven : Woven K (stretches Ms [original s]) s' := by
    refine woven_stretches hMs ?_
    have hone := Woven.last (K := K) (original s)
    rwa [letters_original] at hone
  have hrenews : ∀ x ∈ stretches Ms [original s], Renews ([] ++ Ms) x :=
    renews_stretches hMs fun _ _ => nofun
  constructor
  · rintro h x hx M hM ⟨u, m, t, rfl, hmatch, hne, -⟩
    have hfixed := ((hwoven.pass_eq_iff (hMs M hM) hadd).mp (h M hM)) _ hx
    have hquiet := (hMs M hM).quiet_of_pass_eq hadd hfixed
    rw [Re.matches_comap, ← after_map] at hmatch
    exact hne (hquiet (letters u) (letters m) (letters t) (by simp) (by rwa [List.append_nil]))
  · intro h M hM
    refine (hwoven.pass_eq_iff (hMs M hM) hadd).mpr fun x hx => (hMs M hM).pass_eq_self ?_
    intro u m t heq hmatch
    obtain ⟨u, y, rfl, rfl, hy⟩ := List.map_eq_append_iff.mp heq
    obtain ⟨m, t, rfl, rfl, rfl⟩ := List.map_eq_append_iff.mp hy
    by_contra hne
    have hmatch : (M.pattern.comap Prod.fst).Matches (after none u) m t := by
      rw [Re.matches_comap, ← after_map]
      exact hmatch
    exact h _ hx M hM ⟨u, m, t, rfl, hmatch, hne, hrenews _ hx M hM u m t rfl hmatch hne⟩

end
end Mask
end SynapseGo.Regex
