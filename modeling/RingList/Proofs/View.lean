import Mathlib.Data.List.Nodup
import RingList.Proofs.Ring

/-!
# Views

A `View` is a store seen from outside: its lists as strips, the next address, and the budgets,
hook state and events as they are. `Store.Shows` ties the two: every list of the view is a ring of
the heap, and no block is in two rings. The order of the lists in a view does not matter
(`Shows.perm`).

`Yields act v b v'` and `Stops act v e v'` say how an action ends from every store that shows `v`.
What an operation does is stated with them, and proved by opening its steps once.
-/

set_option autoImplicit false

namespace RingList

variable {η σ α β γ : Type}

namespace Heap

/-- The lists are rings of the heap, and no block is in two of them. -/
structure Shows (h : Heap η α) (lists : List (Addr × Strip η α)) : Prop where
  ring : ∀ p ∈ lists, h.IsRing p.1 p.2
  apart : (lists.flatMap Strip.blocks).Nodup

namespace Shows

variable {h h' : Heap η α} {rest lists lists' : List (Addr × Strip η α)}

theorem perm (hs : h.Shows lists) (hp : lists.Perm lists') : h.Shows lists' :=
  ⟨fun p hm => hs.ring p (hp.mem_iff.2 hm), (hp.flatMap_right _).nodup_iff.1 hs.apart⟩

theorem nil (h : Heap η α) : h.Shows ([] : List (Addr × Strip η α)) := ⟨by simp, by simp⟩

theorem head {l : Addr} {k : Strip η α} (hs : h.Shows ((l, k) :: rest)) : h.IsRing l k :=
  hs.ring (l, k) (by simp)

theorem tail {p : Addr × Strip η α} (hs : h.Shows (p :: rest)) : h.Shows rest :=
  ⟨fun q hq => hs.ring q (List.mem_cons_of_mem _ hq), hs.apart.sublist (by simp)⟩

theorem lt_size (hs : h.Shows lists) {a : Addr} (ha : a ∈ lists.flatMap Strip.blocks) :
    a < h.size := by
  obtain ⟨p, hp, ha⟩ := List.mem_flatMap.1 ha
  exact (hs.ring p hp).lt_size ha

theorem nodup_headers (hs : h.Shows lists) : (lists.map (·.1)).Nodup := by
  have hd := (List.nodup_flatMap.1 hs.apart).2
  refine List.pairwise_map.2 (hd.imp fun {p q} hpq he => ?_)
  exact hpq (List.mem_cons_self : p.1 ∈ Strip.blocks p) (he ▸ List.mem_cons_self)

/-- A change of the heap that leaves the blocks of all lists alone. -/
theorem frame (hs : h.Shows lists)
    (hf : ∀ a ∈ lists.flatMap Strip.blocks, h'.get? a = h.get? a) : h'.Shows lists :=
  ⟨fun p hp => (hs.ring p hp).congr fun a ha => hf a (List.mem_flatMap.2 ⟨p, hp, ha⟩), hs.apart⟩

/-- A block that is not handed out yet is in no list. -/
theorem not_mem_of_size_le (hs : h.Shows lists) {a : Addr} (ha : h.size ≤ a) :
    a ∉ lists.flatMap Strip.blocks :=
  fun hm => absurd (hs.lt_size hm) (Nat.not_lt.2 ha)

/-- **The frame rule**: the lists `old` are worked on and become `new`; the work changes no block of
the other lists and takes none of them in, so the lists `rest` stay what they are. -/
theorem replace (old new : List (Addr × Strip η α)) (hs : h.Shows (old ++ rest))
    (hr : ∀ p ∈ new, h'.IsRing p.1 p.2)
    (hnd : (new.flatMap Strip.blocks).Nodup)
    (hsub : ∀ a ∈ new.flatMap Strip.blocks,
      a ∈ old.flatMap Strip.blocks ∨ a ∉ rest.flatMap Strip.blocks)
    (hf : ∀ a ∈ rest.flatMap Strip.blocks, a ∉ old.flatMap Strip.blocks →
      h'.get? a = h.get? a) :
    h'.Shows (new ++ rest) := by
  have hap := hs.apart
  rw [List.flatMap_append] at hap
  obtain ⟨-, hrest, hdis⟩ := List.nodup_append.1 hap
  refine ⟨fun p hp => ?_, ?_⟩
  · rcases List.mem_append.1 hp with hp | hp
    · exact hr p hp
    · apply (hs.ring p (List.mem_append_right _ hp)).congr
      intro a ha
      have ha : a ∈ rest.flatMap Strip.blocks := List.mem_flatMap.2 ⟨p, hp, ha⟩
      exact hf a ha fun hm => hdis a hm a ha rfl
  · rw [List.flatMap_append]
    refine List.nodup_append.2 ⟨hnd, hrest, fun a ha b hb he => ?_⟩
    subst he
    rcases hsub a ha with hm | hm
    · exact hdis a hm a hb rfl
    · exact hm hb

/-- The frame rule for one list. -/
theorem replaceOne {l : Addr} {k k' : Strip η α} (hs : h.Shows ((l, k) :: rest))
    (hr : h'.IsRing l k') (hsub : ∀ a ∈ k'.nodes, a ∈ k.nodes ∨ a ∉ rest.flatMap Strip.blocks)
    (hf : ∀ a ∈ rest.flatMap Strip.blocks, a ∉ l :: k.nodes → h'.get? a = h.get? a) :
    h'.Shows ((l, k') :: rest) := by
  refine replace [(l, k)] [(l, k')] hs ?_ ?_ ?_ ?_
  · simpa using hr
  · simpa [Strip.blocks] using hr.nodup_blocks
  · intro a ha
    simp only [List.flatMap_cons, List.flatMap_nil, List.append_nil, Strip.blocks,
      List.mem_cons] at ha ⊢
    rcases ha with rfl | ha
    · exact .inl (.inl rfl)
    · exact (hsub a ha).imp_left .inr
  · simpa [Strip.blocks] using hf

end Shows

end Heap

/-- A store, seen from outside. -/
structure View (η σ α : Type) where
  lists : List (Addr × Strip η α)
  /-- The number of blocks handed out so far, which is the address that the next block gets. -/
  fresh : Nat
  budgets : Array (Option Nat)
  hookState : σ
  log : List (Event η α)

namespace View

/-- Whether an allocator serves the next request. -/
def serves (v : View η σ α) : Allocator → Bool
  | .global => decide (v.fresh < Heap.capacity)
  | .limited k => decide (v.fresh < Heap.capacity) && (v.budgets[k]?).any (· != some 0)

def budgetsAfter (v : View η σ α) : Allocator → Array (Option Nat)
  | .global => v.budgets
  | .limited k => v.budgets.modify k (·.map (· - 1))

def supply (v : View η σ α) (source : Allocator) (kind : BlockKind) : View η σ α :=
  { v with
    fresh := v.fresh + 1
    budgets := v.budgetsAfter source
    log := v.log ++ [.served source v.fresh kind] }

def note (v : View η σ α) (evs : List (Event η α)) : View η σ α := { v with log := v.log ++ evs }

def having (v : View η σ α) (lists : List (Addr × Strip η α)) : View η σ α := { v with lists }

section
variable (v : View η σ α) (lists lists' : List (Addr × Strip η α)) (evs evs' : List (Event η α))
  (source : Allocator) (kind : BlockKind)

@[simp] theorem having_self : v.having v.lists = v := rfl
@[simp] theorem having_having : (v.having lists).having lists' = v.having lists' := rfl
@[simp] theorem note_having : (v.note evs).having lists = (v.having lists).note evs := rfl
@[simp] theorem supply_having :
    (v.supply source kind).having lists = (v.having lists).supply source kind := rfl
@[simp] theorem having_lists : (v.having lists).lists = lists := rfl
@[simp] theorem having_fresh : (v.having lists).fresh = v.fresh := rfl
@[simp] theorem having_budgets : (v.having lists).budgets = v.budgets := rfl
@[simp] theorem having_hookState : (v.having lists).hookState = v.hookState := rfl
@[simp] theorem having_log : (v.having lists).log = v.log := rfl
@[simp] theorem note_lists : (v.note evs).lists = v.lists := rfl
@[simp] theorem note_fresh : (v.note evs).fresh = v.fresh := rfl
@[simp] theorem note_budgets : (v.note evs).budgets = v.budgets := rfl
@[simp] theorem note_hookState : (v.note evs).hookState = v.hookState := rfl
@[simp] theorem note_log : (v.note evs).log = v.log ++ evs := rfl
@[simp] theorem supply_lists : (v.supply source kind).lists = v.lists := rfl
@[simp] theorem supply_fresh : (v.supply source kind).fresh = v.fresh + 1 := rfl
@[simp] theorem supply_log :
    (v.supply source kind).log = v.log ++ [.served source v.fresh kind] := rfl
@[simp] theorem supply_hookState : (v.supply source kind).hookState = v.hookState := rfl

@[simp] theorem serves_having : (v.having lists).serves source = v.serves source := by
  cases source <;> rfl

@[simp] theorem note_nil : v.note [] = v := by simp [note]

@[simp] theorem note_note : (v.note evs).note evs' = v.note (evs ++ evs') := by simp [note]

end

end View

/-- What is seen of the store is the view. -/
structure Store.Shows (s : Store η σ α) (v : View η σ α) : Prop where
  lists : s.heap.Shows v.lists
  fresh : s.heap.size = v.fresh
  budgets : s.budgets = v.budgets
  hookState : s.hookState = v.hookState
  log : s.events.toList = v.log

namespace Store.Shows

variable {s : Store η σ α} {v : View η σ α}

theorem serves (hs : s.Shows v) (source : Allocator) : s.serves source = v.serves source := by
  cases source <;> simp [Store.serves, View.serves, Heap.hasRoom, hs.fresh, hs.budgets]

theorem budgetsAfter (hs : s.Shows v) (source : Allocator) :
    s.budgetsAfter source = v.budgetsAfter source := by
  cases source <;> simp [Store.budgetsAfter, View.budgetsAfter, hs.budgets]

theorem perm (hs : s.Shows v) {lists : List (Addr × Strip η α)} (hp : v.lists.Perm lists) :
    s.Shows (v.having lists) :=
  ⟨hs.lists.perm hp, hs.fresh, hs.budgets, hs.hookState, hs.log⟩

theorem log_event (hs : s.Shows v) (e : Event η α) : (s.log e).Shows (v.note [e]) :=
  ⟨hs.lists, hs.fresh, hs.budgets, hs.hookState, by simp [Store.log, View.note, hs.log]⟩

/-- A change of the heap alone. -/
theorem withHeap (hs : s.Shows v) {h : Heap η α} {lists : List (Addr × Strip η α)}
    (hh : h.Shows lists) (hsize : h.size = s.heap.size) :
    ({ s with heap := h } : Store η σ α).Shows (v.having lists) :=
  ⟨hh, hsize.trans hs.fresh, hs.budgets, hs.hookState, hs.log⟩

end Store.Shows

/-- From every store that shows `v` the action gives `b` and leaves a store that shows `v'`. -/
def Yields (act : Action η σ α β) (v : View η σ α) (b : β) (v' : View η σ α) : Prop :=
  ∀ s, s.Shows v → ∃ s', act s = .ok b s' ∧ s'.Shows v'

/-- From every store that shows `v` the action stops for the reason `e` and leaves a store that
shows `v'`. -/
def Stops (act : Action η σ α β) (v : View η σ α) (e : Stop) (v' : View η σ α) : Prop :=
  ∀ s, s.Shows v → ∃ s', act s = .error e s' ∧ s'.Shows v'

theorem Yields.bind {x : Action η σ α β} {f : β → Action η σ α γ} {v v' v'' : View η σ α} {b : β}
    {c : γ} (hx : Yields x v b v') (hf : Yields (f b) v' c v'') : Yields (x >>= f) v c v'' := by
  intro s hs
  obtain ⟨s', hx, hs'⟩ := hx s hs
  rw [bind_ok hx]
  exact hf s' hs'

theorem Yields.bind_stops {x : Action η σ α β} {f : β → Action η σ α γ} {v v' v'' : View η σ α}
    {b : β} {e : Stop} (hx : Yields x v b v') (hf : Stops (f b) v' e v'') :
    Stops (x >>= f) v e v'' := by
  intro s hs
  obtain ⟨s', hx, hs'⟩ := hx s hs
  rw [bind_ok hx]
  exact hf s' hs'

theorem Stops.bind {x : Action η σ α β} {f : β → Action η σ α γ} {v v' : View η σ α} {e : Stop}
    (hx : Stops x v e v') : Stops (x >>= f) v e v' := by
  intro s hs
  obtain ⟨s', hx, hs'⟩ := hx s hs
  exact ⟨s', bind_error hx, hs'⟩

theorem Yields.map {x : Action η σ α β} {v v' : View η σ α} {b : β} (f : β → γ)
    (hx : Yields x v b v') : Yields (f <$> x) v (f b) v' := by
  intro s hs
  obtain ⟨s', hx, hs'⟩ := hx s hs
  exact ⟨s', map_ok hx, hs'⟩

theorem yields_pure (b : β) (v : View η σ α) : Yields (pure b : Action η σ α β) v b v :=
  fun s hs => ⟨s, rfl, hs⟩

end RingList
