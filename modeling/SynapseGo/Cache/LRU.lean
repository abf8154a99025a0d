import Mathlib.Data.Int.Notation
import Mathlib.Logic.Function.Basic
import SynapseGo.Cache.Recency
import SynapseGo.Concurrency.Serial

/-! `cache.LRU`. The elements of the linked list live in a heap; the list holds their addresses from
front to back and the map holds one address per key, as the pointers of the source do. Times are
nanoseconds since the zero time. -/
namespace SynapseGo.Cache
open SynapseGo.Recency SynapseGo.Concurrency

/-- An expiry of zero means none. -/
structure Entry (K V : Type) where
  key : K
  value : V
  expiresAt : ℤ
  deriving DecidableEq, Repr

structure LRU (K V : Type) where
  capacity : ℤ
  ttl : ℤ
  ll : List ℕ
  items : K → Option ℕ
  heap : List (Entry K V)

inductive Op (K V : Type) where
  | get (key : K)
  | set (key : K) (value : V)
  | delete (key : K)
  | purge
  deriving DecidableEq, Repr

abbrev Op.Reply {K V : Type} : Op K V → Type
  | .get _ => Option V
  | _ => Unit

namespace LRU
variable {K V : Type}

def new (capacity ttl : ℤ) : LRU K V := ⟨capacity, ttl, [], fun _ => none, []⟩

/-- `list.MoveToFront`, which ignores an element that is not of the list. -/
def moveToFront (c : LRU K V) (el : ℕ) : LRU K V :=
  if el ∈ c.ll then { c with ll := el :: c.ll.erase el } else c

def len (c : LRU K V) : ℕ := c.ll.length

/-- `Purge`. -/
def purge (c : LRU K V) : LRU K V := { c with ll := [], items := fun _ => none }

/-- The expiry of an entry set at `now`. -/
def expiresAt (ttl now : ℤ) : ℤ := if 0 < ttl then now + ttl else 0

variable [DecidableEq K]

def removeElement (c : LRU K V) (el : ℕ) : LRU K V :=
  match c.heap[el]? with
  | none => c
  | some en => { c with ll := c.ll.erase el, items := Function.update c.items en.key none }

/-- `list.PushFront` of a new entry, with its key in the map. -/
def push (c : LRU K V) (en : Entry K V) : LRU K V :=
  { c with
    heap := c.heap ++ [en]
    ll := c.heap.length :: c.ll
    items := Function.update c.items en.key (some c.heap.length) }

-- In `get` and `set` an address without an entry stands for a nil pointer; `Linked` excludes it.

def get (c : LRU K V) (now : ℤ) (key : K) : Option V × LRU K V :=
  if c.capacity ≤ 0 then (none, c)
  else match c.items key with
    | none => (none, c)
    | some el => match c.heap[el]? with
      | none => (none, c)
      | some en =>
        if en.expiresAt ≠ 0 ∧ en.expiresAt < now then (none, c.removeElement el)
        else (some en.value, c.moveToFront el)

def set (c : LRU K V) (now : ℤ) (key : K) (value : V) : LRU K V :=
  if c.capacity ≤ 0 then c
  else
    match c.items key with
    | some el => match c.heap[el]? with
      | none => c
      | some en =>
        { c with
          heap := c.heap.set el { en with value := value, expiresAt := expiresAt c.ttl now } }.moveToFront el
    | none =>
      let c' := c.push ⟨key, value, expiresAt c.ttl now⟩
      if c.capacity < c'.ll.length then
        match c'.ll.getLast? with
        | none => c'
        | some back => c'.removeElement back
      else c'

def delete (c : LRU K V) (key : K) : LRU K V :=
  if c.capacity ≤ 0 then c
  else match c.items key with
    | none => c
    | some el => c.removeElement el

/-- One call, with the clock it reads. -/
def step : Handler (Op K V) Op.Reply ℤ (LRU K V)
  | now, .get k, c => c.get now k
  | now, .set k v, c => ((), c.set now k v)
  | _, .delete k, c => ((), c.delete k)
  | _, .purge, c => ((), c.purge)

/-- The map and the list refer to the same elements, one for each key. -/
structure Linked (c : LRU K V) : Prop where
  nodup : c.ll.Nodup
  deref : ∀ el ∈ c.ll, ∃ en, c.heap[el]? = some en ∧ c.items en.key = some el
  indexed : ∀ k el, c.items k = some el → el ∈ c.ll ∧ ∃ en, c.heap[el]? = some en ∧ en.key = k

/-- The entries in the order of the list. -/
def contents (c : LRU K V) : List (Entry K V) := c.ll.filterMap (c.heap[·]?)

def keys (c : LRU K V) : List K := c.contents.map Entry.key

end LRU

/-! The purpose of the cache: a list of entries, the most recently used first, cut at the capacity. -/
namespace Listing
variable {K V : Type} [DecidableEq K]

def without (k : K) (l : List (Entry K V)) : List (Entry K V) := l.filter (·.key ≠ k)

def get (now : ℤ) (k : K) (l : List (Entry K V)) : Option V × List (Entry K V) :=
  match l.find? (·.key = k) with
  | none => (none, l)
  | some en =>
    if en.expiresAt ≠ 0 ∧ en.expiresAt < now then (none, without k l)
    else (some en.value, touch Entry.key en l)

def set (capacity ttl now : ℤ) (k : K) (v : V) (l : List (Entry K V)) : List (Entry K V) :=
  (touch Entry.key ⟨k, v, LRU.expiresAt ttl now⟩ l).take capacity.toNat

def step (capacity ttl : ℤ) : Handler (Op K V) Op.Reply ℤ (List (Entry K V))
  | now, .get k, l => get now k l
  | now, .set k v, l => ((), set capacity ttl now k v l)
  | _, .delete k, l => ((), without k l)
  | _, .purge, _ => ((), [])

end Listing

namespace LRU
variable {K V : Type}

theorem linked_new (capacity ttl : ℤ) : (new capacity ttl : LRU K V).Linked :=
  ⟨List.nodup_nil, nofun, nofun⟩

section
variable {c : LRU K V} (hc : c.Linked) {el : ℕ} {en : Entry K V}
include hc

theorem Linked.items_of_heap (hel : el ∈ c.ll) (hen : c.heap[el]? = some en) : c.items en.key = some el := by
  obtain ⟨en', hen', hitems⟩ := hc.deref el hel
  rw [hen, Option.some.injEq] at hen'
  subst hen'
  exact hitems

theorem Linked.key_eq_iff {el' : ℕ} {en' : Entry K V} (hel : el ∈ c.ll) (hen : c.heap[el]? = some en)
    (hel' : el' ∈ c.ll) (hen' : c.heap[el']? = some en') : en'.key = en.key ↔ el' = el := by
  constructor
  · intro hkey
    have h := hc.items_of_heap hel' hen'
    rw [hkey, hc.items_of_heap hel hen] at h
    exact (Option.some.inj h).symm
  · rintro rfl
    rw [hen] at hen'
    rw [Option.some.inj hen']

theorem Linked.lt_length (hel : el ∈ c.ll) : el < c.heap.length := by
  obtain ⟨en, hen, -⟩ := hc.deref el hel
  exact (List.getElem?_eq_some_iff.mp hen).1

theorem Linked.length_contents : c.contents.length = c.len := by
  unfold contents len
  rw [List.filterMap_length_eq_length]
  intro el hel
  obtain ⟨en, hen, -⟩ := hc.deref el hel
  rw [hen]
  rfl

theorem Linked.nodup_keys : c.keys.Nodup := by
  unfold keys contents List.Nodup
  rw [List.pairwise_map, List.pairwise_filterMap]
  refine hc.nodup.imp_of_mem fun {el el'} hel hel' hne en hen en' hen' hkey => ?_
  exact hne ((hc.key_eq_iff hel' hen' hel hen).mp hkey)

/-- The element a key leads to, as the list shows it. -/
theorem Linked.find?_contents [DecidableEq K] (k : K) :
    c.contents.find? (·.key = k) = (c.items k).bind (c.heap[·]?) := by
  cases hk : c.items k with
  | none =>
    rw [Option.bind_none, List.find?_eq_none]
    intro en hen hkey
    obtain ⟨el, hel, hen⟩ := List.mem_filterMap.mp hen
    have hitems := hc.items_of_heap hel hen
    rw [of_decide_eq_true hkey, hk] at hitems
    cases hitems
  | some el =>
    obtain ⟨hel, en, hen, hkey⟩ := hc.indexed k el hk
    rw [Option.bind_some, hen]
    cases hfind : c.contents.find? (·.key = k) with
    | none =>
      rw [List.find?_eq_none] at hfind
      exact absurd (decide_eq_true hkey) (hfind en (List.mem_filterMap.mpr ⟨el, hel, hen⟩))
    | some en' =>
      obtain ⟨el', hel', hen'⟩ := List.mem_filterMap.mp (List.mem_of_find?_eq_some hfind)
      have hkey' : en'.key = k := of_decide_eq_true (List.find?_some hfind :)
      have hsame := (hc.key_eq_iff hel hen hel' hen').mp (hkey'.trans hkey.symm)
      rw [hsame, hen] at hen'
      exact hen'.symm

/-- Unlinking an element takes its entry out of the contents. -/
theorem Linked.contents_erase [DecidableEq K] (hel : el ∈ c.ll) (hen : c.heap[el]? = some en) :
    (c.ll.erase el).filterMap (c.heap[·]?) = Listing.without en.key c.contents := by
  unfold Listing.without contents
  rw [hc.nodup.erase_eq_filter, List.filterMap_filter, List.filter_filterMap]
  apply List.filterMap_congr
  intro el' hel'
  obtain ⟨en', hen', -⟩ := hc.deref el' hel'
  have hiff := hc.key_eq_iff hel hen hel' hen'
  by_cases heq : el' = el
  · rw [hen', Option.filter_some, if_neg (by simp [heq]), if_neg (by simp [hiff.mpr heq])]
  · rw [hen', Option.filter_some, if_pos (by simp [heq]), if_pos (by simp [mt hiff.mp heq])]

theorem Linked.perm {ll : List ℕ} (hp : ll.Perm c.ll) : { c with ll := ll }.Linked where
  nodup := hp.nodup_iff.mpr hc.nodup
  deref el hel := hc.deref el (hp.mem_iff.mp hel)
  indexed k el hk := by
    obtain ⟨hel, hen⟩ := hc.indexed k el hk
    exact ⟨hp.mem_iff.mpr hel, hen⟩

theorem Linked.moveToFront (el : ℕ) : (c.moveToFront el).Linked := by
  unfold LRU.moveToFront
  split
  next hel => exact hc.perm (List.perm_cons_erase hel).symm
  next => exact hc

theorem Linked.overwrite {en' : Entry K V} (hen : c.heap[el]? = some en) (hkey : en'.key = en.key) :
    { c with heap := c.heap.set el en' }.Linked := by
  have hset : ∀ {el' : ℕ} {en₁ : Entry K V}, c.heap[el']? = some en₁ →
      ∃ en₂ : Entry K V, (c.heap.set el en')[el']? = some en₂ ∧ en₂.key = en₁.key := by
    intro el' en₁ hen₁
    rw [List.getElem?_set]
    by_cases heq : el = el'
    · subst heq
      rw [hen, Option.some.injEq] at hen₁
      subst hen₁
      exact ⟨en', by simp [(List.getElem?_eq_some_iff.mp hen).1], hkey⟩
    · exact ⟨en₁, by simp [heq, hen₁], rfl⟩
  refine ⟨hc.nodup, fun el' hel' => ?_, fun k el' hk => ?_⟩
  · obtain ⟨en₁, hen₁, hitems⟩ := hc.deref el' hel'
    obtain ⟨en₂, hen₂, hkey₂⟩ := hset hen₁
    exact ⟨en₂, hen₂, hkey₂ ▸ hitems⟩
  · obtain ⟨hel', en₁, hen₁, hkey₁⟩ := hc.indexed k el' hk
    obtain ⟨en₂, hen₂, hkey₂⟩ := hset hen₁
    exact ⟨hel', en₂, hen₂, hkey₂.trans hkey₁⟩

variable [DecidableEq K]

theorem Linked.removeElement (hel : el ∈ c.ll) : (c.removeElement el).Linked := by
  obtain ⟨en, hen, hitems⟩ := hc.deref el hel
  simp only [LRU.removeElement, hen]
  refine ⟨hc.nodup.erase el, fun el' hel' => ?_, fun k el' hk => ?_⟩
  · obtain ⟨hne, hel'⟩ := hc.nodup.mem_erase_iff.mp hel'
    obtain ⟨en', hen', hitems'⟩ := hc.deref el' hel'
    have hkey : en'.key ≠ en.key := mt (hc.key_eq_iff hel hen hel' hen').mp hne
    exact ⟨en', hen', (Function.update_of_ne hkey ..).trans hitems'⟩
  · dsimp only at hk ⊢
    have hne : k ≠ en.key := by
      rintro rfl
      rw [Function.update_self] at hk
      cases hk
    rw [Function.update_of_ne hne] at hk
    obtain ⟨hel', en', hen', hkey⟩ := hc.indexed k el' hk
    refine ⟨hc.nodup.mem_erase_iff.mpr ⟨?_, hel'⟩, en', hen', hkey⟩
    exact mt (hc.key_eq_iff hel hen hel' hen').mpr (hkey ▸ hne)

theorem Linked.contents_removeElement (hel : el ∈ c.ll) (hen : c.heap[el]? = some en) :
    (c.removeElement el).contents = Listing.without en.key c.contents := by
  rw [← hc.contents_erase hel hen]
  simp only [LRU.removeElement, hen, contents]

theorem Linked.contents_moveToFront (hel : el ∈ c.ll) (hen : c.heap[el]? = some en) :
    (c.moveToFront el).contents = touch Entry.key en c.contents := by
  have hrest := hc.contents_erase hel hen
  simp only [LRU.moveToFront, if_pos hel, contents] at hrest ⊢
  rw [List.filterMap_cons_some hen, hrest]
  rfl

theorem Linked.contents_overwrite {en' : Entry K V} (hel : el ∈ c.ll) (hen : c.heap[el]? = some en)
    (hkey : en'.key = en.key) :
    ({ c with heap := c.heap.set el en' }.moveToFront el).contents = touch Entry.key en' c.contents := by
  have hlt : el < c.heap.length := (List.getElem?_eq_some_iff.mp hen).1
  have hother : (c.ll.erase el).filterMap ((c.heap.set el en')[·]?) =
      (c.ll.erase el).filterMap (c.heap[·]?) := by
    apply List.filterMap_congr
    intro el' hel'
    rw [List.getElem?_set_ne (Ne.symm (hc.nodup.mem_erase_iff.mp hel').1)]
  have hnew : (c.heap.set el en')[el]? = some en' := by rw [List.getElem?_set_self hlt]
  simp only [LRU.moveToFront, if_pos hel, contents]
  rw [List.filterMap_cons_some hnew, hother, hc.contents_erase hel hen, ← hkey]
  rfl

end

section
variable [DecidableEq K] {c : LRU K V} (hc : c.Linked) {en : Entry K V}
include hc

theorem Linked.contents_push : (c.push en).contents = en :: c.contents := by
  simp only [push, contents]
  rw [List.filterMap_cons_some (b := en) (by simp)]
  congr 1
  apply List.filterMap_congr
  intro el hel
  rw [List.getElem?_append_left (hc.lt_length hel)]

theorem Linked.push (hfree : c.items en.key = none) : (c.push en).Linked := by
  refine ⟨List.nodup_cons.mpr ⟨fun h => Nat.lt_irrefl _ (hc.lt_length h), hc.nodup⟩, fun el hel => ?_,
    fun k el hk => ?_⟩
  · rcases List.mem_cons.mp hel with rfl | hel
    · exact ⟨en, by simp [LRU.push], Function.update_self ..⟩
    · obtain ⟨en', hen', hitems⟩ := hc.deref el hel
      refine ⟨en', ?_, ?_⟩
      · exact (List.getElem?_append_left (hc.lt_length hel)).trans hen'
      · have hne : en'.key ≠ en.key := fun h => by simp [h, hfree] at hitems
        exact (Function.update_of_ne hne ..).trans hitems
  · simp only [LRU.push] at hk ⊢
    by_cases hkey : k = en.key
    · subst hkey
      rw [Function.update_self, Option.some.injEq] at hk
      subst hk
      exact ⟨List.mem_cons_self, en, by simp, rfl⟩
    · rw [Function.update_of_ne hkey] at hk
      obtain ⟨hel, en', hen', hkey'⟩ := hc.indexed k el hk
      refine ⟨List.mem_cons_of_mem _ hel, en', ?_, hkey'⟩
      exact (List.getElem?_append_left (hc.lt_length hel)).trans hen'

/-- Removing the last element of the list. -/
theorem Linked.contents_evict {back : ℕ} (hback : c.ll.getLast? = some back) :
    (c.removeElement back).contents = c.contents.dropLast := by
  obtain ⟨ll, hll⟩ := List.getLast?_eq_some_iff.mp hback
  obtain ⟨en, hen, -⟩ := hc.deref back (by simp [hll])
  have hnot : back ∉ ll := by
    have h := hc.nodup
    rw [hll] at h
    exact fun hmem => (List.nodup_append.mp h).2.2 _ hmem _ List.mem_cons_self rfl
  simp only [LRU.removeElement, hen, contents]
  rw [hll, List.erase_append_right _ hnot, List.filterMap_append, List.filterMap_append]
  simp [hen]

end

section
variable [DecidableEq K] (c : LRU K V) (el : ℕ) (en : Entry K V)

@[simp] theorem removeElement_capacity : (c.removeElement el).capacity = c.capacity := by
  unfold removeElement
  split <;> rfl

@[simp] theorem removeElement_ttl : (c.removeElement el).ttl = c.ttl := by
  unfold removeElement
  split <;> rfl

omit [DecidableEq K] in
@[simp] theorem moveToFront_capacity : (c.moveToFront el).capacity = c.capacity := by
  unfold moveToFront
  split <;> rfl

omit [DecidableEq K] in
@[simp] theorem moveToFront_ttl : (c.moveToFront el).ttl = c.ttl := by
  unfold moveToFront
  split <;> rfl

end

/-- The cache as the list it stands for. A disabled cache stands for the empty list. -/
structure Lists (C d : ℤ) (c : LRU K V) (l : List (Entry K V)) : Prop where
  linked : c.Linked
  capacity : c.capacity = C
  ttl : c.ttl = d
  contents : c.contents = l
  length_le : l.length ≤ C.toNat

theorem lists_new (C d : ℤ) : (new C d : LRU K V).Lists C d [] :=
  ⟨linked_new C d, rfl, rfl, rfl, Nat.zero_le _⟩

section
variable {C d : ℤ} {c : LRU K V} {l : List (Entry K V)} (h : c.Lists C d l)
include h

theorem Lists.eq_nil (hC : C ≤ 0) : l = [] := by
  have hlen := h.length_le
  rw [Int.toNat_of_nonpos hC] at hlen
  exact List.length_eq_zero_iff.mp (Nat.le_zero.mp hlen)

variable [DecidableEq K]

theorem Lists.without_of_items_none {k : K} (hk : c.items k = none) : Listing.without k l = l := by
  obtain ⟨hlinked, -, -, rfl, -⟩ := h
  have hfind := hlinked.find?_contents k
  rw [hk, Option.bind_none, List.find?_eq_none] at hfind
  exact List.filter_eq_self.mpr fun en hen => by simpa using hfind en hen

theorem Lists.removeElement {el : ℕ} {en : Entry K V} (hel : el ∈ c.ll) (hen : c.heap[el]? = some en) :
    (c.removeElement el).Lists C d (Listing.without en.key l) := by
  obtain ⟨hlinked, hcapacity, httl, rfl, hlen⟩ := h
  refine ⟨hlinked.removeElement hel, by simp [hcapacity], by simp [httl],
    hlinked.contents_removeElement hel hen, ?_⟩
  exact Nat.le_trans (List.length_filter_le ..) hlen

theorem Lists.get (now : ℤ) (k : K) :
    (c.get now k).1 = (Listing.get now k l).1 ∧ (c.get now k).2.Lists C d (Listing.get now k l).2 := by
  by_cases hC : C ≤ 0
  · have hnil := h.eq_nil hC
    subst hnil
    rw [LRU.get, h.capacity, if_pos hC]
    exact ⟨rfl, h⟩
  have hfind := h.linked.find?_contents k
  rw [h.contents] at hfind
  rw [LRU.get, h.capacity, if_neg hC, Listing.get, hfind]
  cases hk : c.items k with
  | none => exact ⟨rfl, h⟩
  | some el =>
    obtain ⟨hel, en, hen, rfl⟩ := h.linked.indexed k el hk
    simp only [Option.bind_some, hen]
    by_cases hexp : en.expiresAt ≠ 0 ∧ en.expiresAt < now
    · rw [if_pos hexp, if_pos hexp]
      exact ⟨rfl, h.removeElement hel hen⟩
    · rw [if_neg hexp, if_neg hexp]
      obtain ⟨hlinked, hcapacity, httl, rfl, hlen⟩ := h
      have hmem : en ∈ c.contents := List.mem_filterMap.mpr ⟨el, hel, hen⟩
      refine ⟨rfl, hlinked.moveToFront el, by simp [hcapacity], by simp [httl],
        hlinked.contents_moveToFront hel hen, ?_⟩
      exact Nat.le_trans (length_touch_of_mem Entry.key hmem rfl) hlen

/-- A new entry goes to the front, and the last one out when the list is over its capacity. -/
theorem Lists.set_new {now : ℤ} {k : K} {v : V} (hC : 0 < C) (hk : c.items k = none) :
    (c.set now k v).Lists C d (Listing.set C d now k v l) := by
  have hwithout : touch Entry.key ⟨k, v, expiresAt d now⟩ l = ⟨k, v, expiresAt d now⟩ :: l := by
    rw [touch]
    exact congrArg _ (h.without_of_items_none hk)
  obtain ⟨hlinked, rfl, rfl, rfl, hlen⟩ := h
  have hpush : (c.push ⟨k, v, expiresAt c.ttl now⟩).Linked := hlinked.push hk
  have hcontents : (c.push ⟨k, v, expiresAt c.ttl now⟩).contents = _ := hlinked.contents_push
  have hcount := hpush.length_contents
  rw [hcontents, List.length_cons] at hcount
  rw [LRU.set, if_neg (by omega), Listing.set, hwithout, ← hcontents]
  simp only [hk]
  split
  next hfull =>
    have hfull' : c.contents.length = c.capacity.toNat := by
      unfold len at hcount
      omega
    split
    next hback => exact absurd (List.getLast?_eq_none_iff.mp hback) (List.cons_ne_nil _ _)
    next back hback =>
      have hmem : back ∈ (c.push ⟨k, v, expiresAt c.ttl now⟩).ll := List.mem_of_getLast? hback
      refine ⟨hpush.removeElement hmem, by simp [push], by simp [push], ?_, List.length_take_le ..⟩
      rw [hpush.contents_evict hback, List.dropLast_eq_take, hcontents, List.length_cons, hfull',
        Nat.add_sub_cancel]
  next hroom =>
    refine ⟨hpush, rfl, rfl, ?_, List.length_take_le ..⟩
    rw [List.take_of_length_le]
    rw [hpush.length_contents]
    unfold len
    omega

theorem Lists.set (now : ℤ) (k : K) (v : V) : (c.set now k v).Lists C d (Listing.set C d now k v l) := by
  by_cases hC : C ≤ 0
  · have hset : Listing.set C d now k v l = [] := by rw [Listing.set, Int.toNat_of_nonpos hC, List.take_zero]
    have hnil := h.eq_nil hC
    subst hnil
    rw [LRU.set, h.capacity, if_pos hC, hset]
    exact h
  cases hk : c.items k with
  | none => exact h.set_new (by omega) hk
  | some el =>
    obtain ⟨hlinked, rfl, rfl, rfl, hlen⟩ := h
    obtain ⟨hel, en, hen, rfl⟩ := hlinked.indexed k el hk
    have hmem : en ∈ c.contents := List.mem_filterMap.mpr ⟨el, hel, hen⟩
    have hlen' := Nat.le_trans
      (length_touch_of_mem Entry.key (a := ⟨en.key, v, expiresAt c.ttl now⟩) hmem rfl) hlen
    rw [LRU.set, if_neg hC, Listing.set, List.take_of_length_le hlen']
    simp only [hk, hen]
    exact ⟨(hlinked.overwrite hen (by rfl)).moveToFront el, by simp, by simp,
      hlinked.contents_overwrite hel hen (by rfl), hlen'⟩

theorem Lists.delete (k : K) : (c.delete k).Lists C d (Listing.without k l) := by
  by_cases hC : C ≤ 0
  · have hnil := h.eq_nil hC
    subst hnil
    rw [LRU.delete, h.capacity, if_pos hC]
    exact h
  rw [LRU.delete, h.capacity, if_neg hC]
  cases hk : c.items k with
  | none =>
    rw [h.without_of_items_none hk]
    exact h
  | some el =>
    obtain ⟨hel, en, hen, rfl⟩ := h.linked.indexed k el hk
    exact h.removeElement hel hen

omit [DecidableEq K] in
theorem Lists.purge : c.purge.Lists C d [] :=
  ⟨⟨List.nodup_nil, nofun, nofun⟩, h.capacity, h.ttl, rfl, Nat.zero_le _⟩

end

/-- The pointer structure behaves as the list it stands for. -/
theorem step_refines [DecidableEq K] (C d now : ℤ) (op : Op K V) (c : LRU K V) (l : List (Entry K V))
    (h : c.Lists C d l) : (step now op c).1 = (Listing.step C d now op l).1 ∧
      (step now op c).2.Lists C d (Listing.step C d now op l).2 := by
  cases op with
  | get k => exact h.get now k
  | set k v => exact ⟨rfl, h.set now k v⟩
  | delete k => exact ⟨rfl, h.delete k⟩
  | purge => exact ⟨rfl, h.purge⟩

end LRU
end SynapseGo.Cache
