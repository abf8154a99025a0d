import SynapseGo.Cache.LRU

/-! Sequences of calls of `cache.LRU`: where a hit comes from, and which keys are kept. -/
namespace SynapseGo.Cache
open SynapseGo.Recency SynapseGo.Concurrency
variable {K V : Type}

/-- The calls that end the validity of an earlier value of `k`. -/
def Op.Resets (k : K) : Op K V → Prop
  | .get _ => False
  | .set k' _ => k' = k
  | .delete k' => k' = k
  | .purge => True

def Op.Removes : Op K V → Prop
  | .delete _ => True
  | .purge => True
  | _ => False

instance : (op : Op K V) → Decidable op.Removes
  | .get _ => isFalse id
  | .set _ _ => isFalse id
  | .delete _ => isTrue trivial
  | .purge => isTrue trivial

/-- A `Set`, or a `Get` that hit. -/
def touched : (op : Op K V) × op.Reply → Option K
  | ⟨.get k, some _⟩ => some k
  | ⟨.set k _, _⟩ => some k
  | _ => none

variable [DecidableEq K]

/-- The keys touched in a sequence of calls, in order. -/
def touches (C d : ℤ) (calls : List (ℤ × Op K V)) : List K :=
  (serial LRU.step (LRU.new C d) calls).filterMap fun x => touched x.act

namespace Listing
variable {C d now : ℤ} {l : List (Entry K V)} {en : Entry K V} {k : K} {v : V}

theorem mem_without : en ∈ without k l ↔ en ∈ l ∧ en.key ≠ k := by
  simp [without]

theorem get_eq_some (h : (get now k l).1 = some v) :
    ∃ en ∈ l, en.key = k ∧ en.value = v ∧ ¬(en.expiresAt ≠ 0 ∧ en.expiresAt < now) ∧
      (get now k l).2 = touch Entry.key en l := by
  unfold get at h ⊢
  cases hfind : l.find? (·.key = k) with
  | none => simp [hfind] at h
  | some en =>
    simp only [hfind] at h ⊢
    split at h
    · cases h
    next hexp =>
      refine ⟨en, List.mem_of_find?_eq_some hfind, of_decide_eq_true (List.find?_some hfind :),
        Option.some.inj h, hexp, ?_⟩
      rw [if_neg hexp]

theorem mem_get (h : en ∈ (get now k l).2) : en ∈ l := by
  unfold get at h
  split at h
  · exact h
  next en' hfind =>
    split at h
    · exact (mem_without.mp h).1
    · rcases List.mem_cons.mp h with rfl | h
      · exact List.mem_of_find?_eq_some hfind
      · exact (List.mem_filter.mp h).1

theorem mem_set (h : en ∈ set C d now k v l) :
    en = ⟨k, v, LRU.expiresAt d now⟩ ∨ (en ∈ l ∧ en.key ≠ k) := by
  rcases List.mem_cons.mp (List.mem_of_mem_take h) with rfl | h
  · exact .inl rfl
  · exact .inr (mem_without.mp h)

/-- An entry after a call was set by it, or was there before and the call left its key alone. -/
theorem mem_step {op : Op K V} (h : en ∈ (step C d now op l).2) :
    (op = .set en.key en.value ∧ en.expiresAt = LRU.expiresAt d now) ∨ (en ∈ l ∧ ¬op.Resets en.key) := by
  cases op with
  | get k => exact .inr ⟨mem_get h, id⟩
  | set k v =>
    rcases mem_set h with rfl | ⟨hen, hne⟩
    · exact .inl ⟨rfl, rfl⟩
    · exact .inr ⟨hen, Ne.symm hne⟩
  | delete k =>
    obtain ⟨hen, hne⟩ := mem_without.mp h
    exact .inr ⟨hen, Ne.symm hne⟩
  | purge => cases h

/-- Each entry is from the latest `Set` of its key, and nothing removed the key since. -/
theorem origin {calls : List (ℤ × Op K V)} (h : en ∈ final (step C d) [] calls) :
    ∃ a s b, calls = a ++ (s, .set en.key en.value) :: b ∧ en.expiresAt = LRU.expiresAt d s ∧
      ∀ m ∈ b, ¬m.2.Resets en.key := by
  induction calls using List.reverseRecOn with
  | nil => cases h
  | append_singleton calls m ih =>
    rw [final_snoc] at h
    rcases mem_step h with ⟨hop, hexp⟩ | ⟨hen, hkeep⟩
    · exact ⟨calls, m.1, [], by rw [← hop], hexp, nofun⟩
    · obtain ⟨a, s, b, rfl, hexp, hb⟩ := ih hen
      refine ⟨a, s, b ++ [m], by simp, hexp, fun m' hm' => ?_⟩
      rcases List.mem_append.mp hm' with hm' | hm'
      · exact hb m' hm'
      · rw [List.mem_singleton.mp hm']
        exact hkeep

theorem get_eq_none (h : (get now k l).1 = none) (hl : ∀ en ∈ l, en.expiresAt = 0) : (get now k l).2 = l := by
  unfold get at h ⊢
  cases hfind : l.find? (·.key = k) with
  | none => rfl
  | some en =>
    have hzero := hl en (List.mem_of_find?_eq_some hfind)
    simp [hfind, hzero] at h

/-- Without expiry and removal the list is the front of all touched keys. -/
theorem map_key_final (hd : d ≤ 0) {calls : List (ℤ × Op K V)} (hkeep : ∀ m ∈ calls, ¬m.2.Removes) :
    (final (step C d) [] calls).map Entry.key =
      (recent ((serial (step C d) [] calls).filterMap fun x => touched x.act)).take C.toNat := by
  induction calls using List.reverseRecOn with
  | nil => simp [final, serial, recent]
  | append_singleton calls m ih =>
    have hkeys := ih fun m hm => hkeep m (List.mem_append_left _ hm)
    have hzero : ∀ en ∈ final (step C d) [] calls, en.expiresAt = 0 := by
      intro en hen
      obtain ⟨-, s, -, -, hexp, -⟩ := origin hen
      rw [hexp, LRU.expiresAt, if_neg (by omega)]
    -- both kinds of touch put the key in front of what is kept
    have htouch :
      ∀ en : Entry K V, ((touch Entry.key en (final (step C d) [] calls)).take C.toNat).map Entry.key =
        (recent ((serial (step C d) [] calls).filterMap (fun x => touched x.act) ++ [en.key])).take
          C.toNat := by
      intro en
      rw [List.map_take, map_touch, hkeys, take_recent_snoc]
    rw [final_snoc, serial_append, List.filterMap_append]
    obtain ⟨now, op⟩ := m
    cases op with
    | get k =>
      cases hget : (get now k (final (step C d) [] calls)).1 with
      | none =>
        have hl := get_eq_none hget hzero
        simp only [serial, List.filterMap_cons, List.filterMap_nil, step, hget, touched, hl, List.append_nil]
        exact hkeys
      | some v =>
        obtain ⟨en, hen, rfl, -, -, hl⟩ := get_eq_some hget
        have hlen : (final (step C d) [] calls).length ≤ C.toNat := by
          rw [← List.length_map Entry.key, hkeys]
          exact List.length_take_le ..
        have hfront := htouch en
        rw [List.take_of_length_le (Nat.le_trans (length_touch_of_mem Entry.key hen rfl) hlen)] at hfront
        simp only [serial, List.filterMap_cons, List.filterMap_nil, step, hget, touched, hl]
        exact hfront
    | set k v =>
      exact htouch ⟨k, v, LRU.expiresAt d now⟩
    | delete k => exact absurd trivial (hkeep (now, .delete k) (by simp))
    | purge => exact absurd trivial (hkeep (now, .purge) (by simp))

end Listing

namespace LRU

theorem lists_final (C d : ℤ) (calls : List (ℤ × Op K V)) :
    (serial step (new C d) calls).map Concurrency.Entry.act =
        (serial (Listing.step C d) [] calls).map Concurrency.Entry.act ∧
      (final step (new C d) calls).Lists C d (final (Listing.step C d) [] calls) :=
  serial_simulates (step_refines C d) (lists_new C d) calls

omit [DecidableEq K] in
theorem Linked.isSome_items {c : LRU K V} (hc : c.Linked) (k : K) : (c.items k).isSome ↔ k ∈ c.keys := by
  unfold keys
  rw [List.mem_map]
  constructor
  · intro hk
    obtain ⟨el, hel⟩ := Option.isSome_iff_exists.mp hk
    obtain ⟨hmem, en, hen, hkey⟩ := hc.indexed k el hel
    exact ⟨en, List.mem_filterMap.mpr ⟨el, hmem, hen⟩, hkey⟩
  · rintro ⟨en, hmem, rfl⟩
    obtain ⟨el, hel, hen⟩ := List.mem_filterMap.mp hmem
    rw [hc.items_of_heap hel hen]
    rfl

/-- The cache over any sequence of calls: map and list agree within the capacity, a hit is the value
of the latest `Set` within its lifetime, and without expiry and removal exactly the most recently
touched keys are kept. -/
theorem final_specification {C : ℤ} (hC : 1 ≤ C) (d : ℤ) (calls : List (ℤ × Op K V))
    (hclock : ∀ m ∈ calls, 0 < m.1) :
    let c := final step (new C d) calls
    ((∀ k, (c.items k).isSome ↔ k ∈ c.keys) ∧ c.keys.Nodup ∧ c.keys.length = c.len ∧ c.len ≤ C) ∧
      (∀ now k v, (c.get now k).1 = some v → ∃ a s b, calls = a ++ (s, .set k v) :: b ∧
        (∀ m ∈ b, ¬m.2.Resets k) ∧ (0 < d → now ≤ s + d)) ∧
      (d = 0 → (∀ m ∈ calls, ¬m.2.Removes) → c.keys = (recent (touches C d calls)).take C.toNat) := by
  intro c
  obtain ⟨hacts, hlists⟩ := lists_final C d calls
  have hlinked := hlists.linked
  refine ⟨⟨hlinked.isSome_items, hlinked.nodup_keys, ?_, ?_⟩, fun now k v hget => ?_, fun hd hkeep => ?_⟩
  · rw [keys, List.length_map, hlinked.length_contents]
  · have hlen : c.len ≤ C.toNat := by
      rw [← hlinked.length_contents, hlists.contents]
      exact hlists.length_le
    omega
  · rw [(hlists.get now k).1] at hget
    obtain ⟨en, hen, rfl, rfl, hexp, -⟩ := Listing.get_eq_some hget
    obtain ⟨a, s, b, rfl, hat, hb⟩ := Listing.origin hen
    refine ⟨a, s, b, rfl, hb, fun hd => ?_⟩
    have hs : 0 < s := hclock (s, .set en.key en.value) (by simp)
    rw [hat, expiresAt, if_pos hd] at hexp
    omega
  · have htouches : touches C d calls =
        (serial (Listing.step C d) [] calls).filterMap fun x => touched x.act := by
      unfold touches
      rw [← Function.comp_def, ← List.filterMap_map, hacts, List.filterMap_map, Function.comp_def]
    rw [keys, hlists.contents, htouches]
    exact Listing.map_key_final (Int.le_of_eq hd) hkeep

/-- Two places, three keys: the one not touched again leaves. -/
theorem sample_specification :
    (final step (new 2 0) [(1, .set 1 10), (2, .set 2 20), (3, .get 1), (4, .set 3 30)] : LRU ℕ ℕ).keys =
      (recent (touches 2 0 [(1, .set 1 10), (2, .set 2 20), (3, .get 1), (4, Op.set 3 30)])).take 2 := by
  have h := final_specification (C := 2) (by decide) 0
    [(1, .set 1 10), (2, .set 2 20), (3, .get 1), (4, Op.set 3 30)] (by decide)
  exact h.2.2 rfl (by decide)

end LRU

end SynapseGo.Cache
