import Mathlib.Logic.Function.Iterate
import RingList.Proofs.Regions

/-!
# Turning a list

Rotating a list again and again shifts its nodes along the ring. Each rotation takes one node out and
in again, through the links that it finds in the header; that nothing is lost on the way shows after
as many rotations as there are nodes, when the world is the one from the beginning.

* `World.Turned`: what any number of rotations does to a list and to all the rest.
* `World.rotate_laws`: this holds of every list after every run.
-/

set_option autoImplicit false

namespace RingList

variable {η σ α β : Type} {B : Behaviour η σ α}

/-! ## Cyclic shifts -/

section
variable {xs : List β} {i j : Nat}

theorem getElem?_rotated (hi : i < xs.length) : (rotated xs)[(i + 1) % xs.length]? = xs[i]? := by
  rcases List.eq_nil_or_concat xs with rfl | ⟨ys, x, rfl⟩
  · cases hi
  · rw [List.concat_eq_append, rotated_concat]
    rw [List.concat_eq_append, List.length_append, List.length_singleton] at hi
    rw [List.length_append, List.length_singleton]
    rcases Nat.eq_or_lt_of_le (Nat.le_of_lt_succ hi) with rfl | hlt
    · simp
    · rw [Nat.mod_eq_of_lt (Nat.succ_lt_succ hlt), List.getElem?_cons_succ,
        List.getElem?_append_left hlt]

theorem iterate_rotated_perm (xs : List β) (j : Nat) : (rotated^[j] xs).Perm xs := by
  induction j with
  | zero => exact .refl _
  | succ j ih =>
    rw [Function.iterate_succ_apply']
    exact (rotated_perm _).trans ih

theorem length_iterate_rotated (xs : List β) (j : Nat) : (rotated^[j] xs).length = xs.length :=
  (iterate_rotated_perm xs j).length_eq

/-- **The member at position `i` comes to the position `i + j`,** counted around the list. -/
theorem getElem?_iterate_rotated (hi : i < xs.length) (j : Nat) :
    (rotated^[j] xs)[(i + j) % xs.length]? = xs[i]? := by
  induction j with
  | zero => exact congrArg (xs[·]?) (Nat.mod_eq_of_lt hi)
  | succ j ih =>
    have hlt : (i + j) % xs.length < (rotated^[j] xs).length := by
      rw [length_iterate_rotated]
      exact Nat.mod_lt _ (Nat.zero_lt_of_lt hi)
    have hstep := getElem?_rotated hlt
    rw [length_iterate_rotated, Nat.mod_add_mod, Nat.add_assoc] at hstep
    rw [Function.iterate_succ_apply', hstep, ih]

/-- After full turns everything is at its place again. -/
theorem iterate_rotated_of_dvd (h : xs.length ∣ j) : rotated^[j] xs = xs := by
  obtain ⟨m, rfl⟩ := h
  refine List.ext_getElem? fun i => ?_
  by_cases hi : i < xs.length
  · have hshift := getElem?_iterate_rotated hi (xs.length * m)
    rwa [Nat.add_mul_mod_self_left, Nat.mod_eq_of_lt hi] at hshift
  · have hle : xs.length ≤ i := Nat.le_of_not_lt hi
    rw [List.getElem?_eq_none hle, List.getElem?_eq_none ((length_iterate_rotated ..).symm ▸ hle)]

theorem iterate_rotated_of_length_le_one (h : xs.length ≤ 1) (j : Nat) : rotated^[j] xs = xs :=
  Function.iterate_fixed (rotated_of_length_le_one h) j

theorem map_rotated {γ : Type} (f : β → γ) (xs : List β) :
    (rotated xs).map f = rotated (xs.map f) := by
  rcases List.eq_nil_or_concat xs with rfl | ⟨ys, x, rfl⟩ <;> simp [rotated]

theorem map_iterate_rotated {γ : Type} (f : β → γ) (xs : List β) (j : Nat) :
    (rotated^[j] xs).map f = rotated^[j] (xs.map f) := by
  induction j generalizing xs with
  | zero => rfl
  | succ j ih => rw [Function.iterate_succ_apply, ih, map_rotated, Function.iterate_succ_apply]

end

/-! ## Rotations of a list -/

/-- The strip of a list that is rotated `j` times. -/
def Strip.turned (k : Strip η α) (j : Nat) : Strip η α := { k with entries := rotated^[j] k.entries }

/-- **What `j` rotations of the list `l` do**, from the world `w` to the world `w'`. -/
structure World.Turned (w : World η σ α) (l : Addr) (j : Nat) (w' : World η σ α) : Prop where
  /-- The node at position `i` comes to the position `i + j`, counted around the list. -/
  shift : ∀ i < w.count l, (w'.nodes l)[(i + j) % w.count l]? = (w.nodes l)[i]?
  /-- The list has as many nodes as before, and says so. Its links make up a ring, in both
  directions. -/
  length : w'.count l = w.count l ∧ w'.ListInvariant l (w.count l)
  /-- Every node keeps its value, and every header its length, its hooks and its allocator. -/
  contents : ∀ a, w'.store.heap.content? a = w.store.heap.content? a
  /-- No other block is touched. -/
  others : ∀ a ∉ l :: w.nodes l, w'.store.heap.get? a = w.store.heap.get? a
  /-- No block is requested or released, and no hook runs. -/
  quiet : w'.store.events = w.store.events ∧ w'.store.budgets = w.store.budgets ∧
    w'.store.hookState = w.store.hookState ∧ w'.store.heap.size = w.store.heap.size
  holdings : w'.holdings = w.holdings
  /-- Nothing changes if there are less than two nodes. -/
  still : w.count l ≤ 1 → w' = w
  /-- **After full turns every link is what it was.** -/
  full : w.count l ∣ j → w' = w

/-- Rotations change no content of a list. -/
theorem Heap.IsRing.content?_turned {h h' : Heap η α} {l a : Addr} {k : Strip η α} {j : Nat}
    (hr : h.IsRing l k) (hr' : h'.IsRing l (k.turned j)) (ha : a ∈ l :: k.nodes) :
    h'.content? a = h.content? a := by
  rcases List.mem_cons.1 ha with rfl | ha
  · have hrecord : (k.turned j).record = k.record :=
      congrArg (Record.mk · k.hooks k.allocator) (length_iterate_rotated ..)
    rw [hr.header, hr'.header, hrecord]
  · obtain ⟨e, he, rfl⟩ := List.mem_map.1 ha
    rw [hr.values e he, hr'.values e ((iterate_rotated_perm _ j).mem_iff.2 he)]

namespace World.Sound

variable {w : World η σ α} {v : View η σ α} {l : Addr} {k : Strip η α}
  {rest : List (Addr × Strip η α)}

/-- **One rotation.** -/
theorem perform_rotate (hw : w.Sound (v.having ((l, k) :: rest))) (hl : l ∈ w.holdings.lists) :
    ∃ s, w.perform B (.rotate l) = (.answered .done, ⟨s, w.holdings⟩) ∧
      World.Sound ⟨s, w.holdings⟩ (v.having ((l, k.turned 1) :: rest)) := by
  obtain ⟨s, hrun, hs⟩ := rotate_yields rfl hw.room w.store hw.shows
  have hact : (Op.rotate l).act B w.holdings w.store = .ok (.done, w.holdings) s := bind_ok hrun
  have hc : (Op.rotate l : Op η α).check w = .ok () := expectList_of_lists hl
  refine ⟨s, ?_, hs, hw.owners, hw.room⟩
  rw [World.perform_of_ok hc, World.proceed_of_ok hact]

/-- **Any number of rotations.** -/
theorem run_rotate (j : Nat) (hw : w.Sound (v.having ((l, k) :: rest))) (hl : l ∈ w.holdings.lists) :
    ∃ s, w.run B (.replicate j (.rotate l)) = (.replicate j (.answered .done), ⟨s, w.holdings⟩) ∧
      World.Sound ⟨s, w.holdings⟩ (v.having ((l, k.turned j) :: rest)) := by
  induction j generalizing w k with
  | zero => exact ⟨w.store, rfl, hw⟩
  | succ j ih =>
    obtain ⟨s₁, hstep, hw₁⟩ := hw.perform_rotate (B := B) hl
    obtain ⟨s, hrun, hs⟩ := ih hw₁ hl
    refine ⟨s, ?_, hs⟩
    rw [List.replicate_succ, World.run_cons, hstep, hrun]
    rfl

/-- Rotations touch no block of another list, and none that is in no list. -/
theorem get?_rotate {a : Addr} (j : Nat) (hw : w.Sound v) (hl : (l, k) ∈ v.lists)
    (ha : a ∉ Strip.region [(l, k)] v.fresh) :
    (w.run B (.replicate j (.rotate l))).2.store.heap.get? a = w.store.heap.get? a := by
  have hregion : w.store.heap.Region (Strip.region [(l, k)] v.fresh) := hw.region (by simpa using hl)
  have hsites : ∀ op ∈ List.replicate j (.rotate l : Op η α), ∀ b ∈ op.sites,
      b ∈ Strip.region [(l, k)] v.fresh := by
    intro op hop b hb
    rw [List.eq_of_mem_replicate hop] at hb
    obtain rfl : b = l := List.mem_singleton.1 hb
    exact .inl (by simp [Strip.blocks])
  exact (World.run_within hregion hsites).outside a ha

/-- **Two worlds that show a list before and after rotations**, and have the same blocks outside of
it. -/
theorem turned {w' : World η σ α} {j : Nat} (hw : w.Sound (v.having ((l, k) :: rest)))
    (hw' : w'.Sound (v.having ((l, k.turned j) :: rest))) (hheld : w'.holdings = w.holdings)
    (hout : ∀ a ∉ l :: k.nodes, w'.store.heap.get? a = w.store.heap.get? a) : w.Turned l j w' := by
  have hr : w.store.heap.IsRing l k := hw.ring List.mem_cons_self
  have hr' : w'.store.heap.IsRing l (k.turned j) := hw'.ring List.mem_cons_self
  have hnodes : w.nodes l = k.nodes := hr.nodes_eq
  have hnodes' : w'.nodes l = rotated^[j] k.nodes := hr'.nodes_eq.trans (map_iterate_rotated ..)
  have hlength : (k.turned j).entries.length = k.entries.length := length_iterate_rotated ..
  have hcount : w.count l = k.entries.length := hw.count_eq List.mem_cons_self
  -- a strip that is itself again is the same list with the same links
  have hsame (heq : rotated^[j] k.entries = k.entries) : w' = w := by
    have hturned : k.turned j = k := congrArg (fun es => { k with entries := es }) heq
    have hs := hw'.shows
    rw [hturned] at hs
    have hstore : w'.store = w.store := hw.shows.eq hs fun a ha => hout a fun hm =>
      ha (.inl (List.mem_flatMap.2 ⟨(l, k), List.mem_cons_self, hm⟩))
    obtain ⟨s, t⟩ := w
    obtain ⟨s', t'⟩ := w'
    exact congrArg₂ World.mk hstore hheld
  refine ⟨fun i hi => ?_, ⟨?_, ?_⟩, fun a => ?_, hnodes ▸ hout, ?_, hheld, fun hle => ?_,
    fun hdvd => ?_⟩
  · rw [hcount, ← k.nodes_length] at hi ⊢
    rw [hnodes, hnodes']
    exact getElem?_iterate_rotated hi j
  · rw [hcount, hw'.count_eq List.mem_cons_self, hlength]
  · rw [hcount, ← hlength]
    exact hw'.listInvariant List.mem_cons_self
  · by_cases ha : a ∈ l :: k.nodes
    · exact hr.content?_turned hr' ha
    · exact congrArg (Option.map _) (hout a ha)
  · exact ⟨Array.toList_inj.1 (hw'.shows.log.trans hw.shows.log.symm),
      hw'.shows.budgets.trans hw.shows.budgets.symm,
      hw'.shows.hookState.trans hw.shows.hookState.symm, hw'.shows.fresh.trans hw.shows.fresh.symm⟩
  · exact hsame (iterate_rotated_of_length_le_one (hcount ▸ hle) j)
  · exact hsame (iterate_rotated_of_dvd (hcount ▸ hdvd))

end World.Sound

/-- **Repeated rotation is a cyclic shift of the same nodes**, of every list after every run. -/
theorem World.rotate_laws {w : World η σ α} {budgets : Array (Option Nat)} {hookState : σ}
    {l : Addr} (hw : w.Reachable B budgets hookState) (hl : l ∈ w.holdings.lists) (j : Nat) :
    (w.run B (.replicate j (.rotate l))).1 = .replicate j (.answered .done) ∧
      w.Turned l j (w.run B (.replicate j (.rotate l))).2 := by
  obtain ⟨v, -, hs, -⟩ := hw.sound
  obtain ⟨k, rest, hp⟩ := hs.strip (owners_of_lists hl)
  have hs₀ : w.Sound (v.having ((l, k) :: rest)) := ⟨hs.perm hp, hs.map_owners hp, hs.room⟩
  obtain ⟨s, hrun, hs₁⟩ := hs₀.run_rotate (B := B) j hl
  have hout : ∀ a ∉ l :: k.nodes, s.heap.get? a = w.store.heap.get? a := by
    intro a ha
    by_cases hfresh : v.fresh ≤ a
    · rw [hs₁.shows.get?_of_le hfresh, hs.shows.get?_of_le hfresh]
    · have hregion : a ∉ Strip.region [(l, k)] v.fresh := by
        simpa [Strip.region, Strip.blocks, hfresh] using ha
      have hget := hs₀.get?_rotate (B := B) j List.mem_cons_self hregion
      rwa [hrun] at hget
  rw [hrun]
  exact ⟨rfl, hs₀.turned hs₁ rfl hout⟩

/-- Three nodes beside one that a panicking hook left behind: after four rotations the last one is the
first, and after three the world is the one from the beginning. -/
theorem World.rotate_laws_three :
    let B : Behaviour Unit Unit Nat := {
      dup _ _ x := (.returns (some x), ())
      free _ _ _ := (.panics, ())
      freeUnwinding _ _ _ := ()
      matching _ _ _ _ := (.returns false, ()) }
    let w := ((World.start #[] ()).run B [.create .global, .installHook 0 .free (), .addTail 0 5,
      .addTail 0 6, .clear 0, .addTail 0 7, .addTail 0 8, .addTail 0 9]).2
    (0 ∈ w.holdings.lists ∧ w.nodes 0 = [3, 4, 5] ∧ (w.store.heap.get? 2).isSome) ∧
      (w.run B (.replicate 4 (.rotate 0))).2.nodes 0 = [5, 3, 4] ∧
      w.Turned 0 4 (w.run B (.replicate 4 (.rotate 0))).2 ∧
      (w.run B (.replicate 3 (.rotate 0))).2 = w := by
  intro B w
  have hw : w.Reachable B #[] () := ⟨_, rfl⟩
  have hl : 0 ∈ w.holdings.lists := by decide +kernel
  have hthree : w.count 0 = 3 := by decide +kernel
  refine ⟨⟨hl, by decide +kernel, by decide +kernel⟩, by decide +kernel, (rotate_laws hw hl 4).2, ?_⟩
  exact (rotate_laws hw hl 3).2.full (hthree ▸ Nat.dvd_refl 3)

end RingList
