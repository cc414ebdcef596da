import RingList.Copy
import RingList.Proofs.Place
import RingList.Proofs.Teardown

/-!
# Copying

What `duplicate` does is a function of the view: `copying` follows the source's values and asks
for a node and then calls the hook for each of them, up to the first that is refused, not copied
or panicked at. A partial copy is destroyed like any other list (`duplicate_settles`). The source is
only read.
-/

set_option autoImplicit false

namespace RingList

variable {η σ α β : Type} {B : Behaviour η σ α} {s : Store η σ α} {v : View η σ α} {l copy : Addr}
  {k c : Strip η α} {rest : List (Addr × Strip η α)}

/-! ## One value -/

theorem callDup_run (B : Behaviour η σ α) (h : η) (x : α) (s : Store η σ α) :
    callDup B h x s =
      match (B.dup h s.hookState x).1 with
      | .returns b => .ok b ({ s with hookState := (B.dup h s.hookState x).2 }.log
          (.dup h x (.returns b)))
      | .panics => .error (.panicked .dup) ({ s with hookState := (B.dup h s.hookState x).2 }.log
          (.dup h x .panics)) := by
  unfold callDup
  cases hr : B.dup h s.hookState x with
  | mk reply σ' => cases reply <;> simp [run_bind, noteCall, hr, Reply.settle]

/-- A node is had and the hook is called: the node has no value yet and is in no list. -/
theorem callDup_shows (dup : η) (x : α) (hs : s.Shows v) :
    ∃ s', s'.Shows (v.heeding [.dup dup x (B.dup dup v.hookState x).1]
        (B.dup dup v.hookState x).2) ∧ s'.heap = s.heap ∧
      callDup B dup x s = match (B.dup dup v.hookState x).1 with
        | .returns b => .ok b s'
        | .panics => .error (.panicked .dup) s' := by
  refine ⟨_, hs.noteCall (.dup dup x (B.dup dup v.hookState x).1) (B.dup dup v.hookState x).2,
    rfl, ?_⟩
  rw [callDup_run, hs.hookState]
  cases (B.dup dup v.hookState x).1 <;> rfl

theorem copyValue_refused {dup : η} {x : α} (hm : (copy, c) ∈ v.lists)
    (hserve : v.serves c.allocator = false) :
    Stops (copyValue B dup copy x) v (.refused .node) (v.note [.refused c.allocator .node]) :=
  (record_yields hm).bind_stops (allocate_stops (.node none) hserve).bind

section
variable {dup : η} {x : α} (hv : v.lists = (copy, c) :: rest)
  (hserve : v.serves c.allocator = true)
include hv hserve

/-- The start of copying a value, when its node is served. -/
theorem copyValue_start (B : Behaviour η σ α) (dup : η) (x : α) (hs : s.Shows v) :
    ∃ s₁, s₁.Shows ((v.supply c.allocator .node).heeding
        [.dup dup x (B.dup dup v.hookState x).1] (B.dup dup v.hookState x).2) ∧
      s₁.heap.content? v.fresh = some (.node none) ∧
      copyValue B dup copy x s = match (B.dup dup v.hookState x).1 with
        | .returns (some w) => (do
            write v.fresh w
            attach copy (← prevOf copy) copy v.fresh) s₁
        | .returns none => (do
            release c.allocator v.fresh .node
            throw Stop.notCopied) s₁
        | .panics => .error (.panicked .dup) s₁ := by
  obtain ⟨s₀, halloc, hs₀, hheap₀⟩ := allocate_shows (.node none) hserve hs
  obtain ⟨s₁, hs₁, hheap₁, hcall⟩ := callDup_shows (B := B) dup x hs₀
  rw [View.supply_hookState] at hs₁ hcall
  refine ⟨s₁, hs₁, ?_, ?_⟩
  · simp [hheap₁, hheap₀, Heap.content?, Heap.get?_push, hs.fresh]
  · have hr := hs.lists.ring (copy, c) (hv ▸ List.mem_cons_self)
    unfold copyValue
    rw [bind_ok (record_run hr.header), Strip.record_allocator, bind_ok halloc]
    cases hd : (B.dup dup v.hookState x).1 with
    | panics => rw [hd] at hcall; exact bind_error hcall
    | returns b => rw [hd] at hcall; cases b <;> exact bind_ok hcall

/-- The copying hook panics: the node is neither in the copy nor given back. -/
theorem copyValue_panics (hd : (B.dup dup v.hookState x).1 = .panics) :
    Stops (copyValue B dup copy x) v (.panicked .dup)
      ((v.supply c.allocator .node).heeding [.dup dup x .panics] (B.dup dup v.hookState x).2) := by
  intro s hs
  obtain ⟨s₁, hs₁, -, hrun⟩ := copyValue_start hv hserve B dup x hs
  rw [hd] at hrun hs₁
  exact ⟨s₁, hrun, hs₁⟩

/-- The value is not copied: its node is given back. -/
theorem copyValue_fails (hd : (B.dup dup v.hookState x).1 = .returns none) :
    Stops (copyValue B dup copy x) v .notCopied
      ((v.supply c.allocator .node).heeding
        [.dup dup x (.returns none), .released c.allocator v.fresh .node]
        (B.dup dup v.hookState x).2) := by
  intro s hs
  obtain ⟨s₁, hs₁, hc, hrun⟩ := copyValue_start hv hserve B dup x hs
  rw [hd] at hrun hs₁
  have hout : v.fresh ∉ v.lists.flatMap Strip.blocks :=
    hs.lists.not_mem_of_size_le (Nat.le_of_eq hs.fresh)
  refine ⟨({ s₁ with heap := s₁.heap.erase v.fresh }).log (.released c.allocator v.fresh .node),
    ?_, ?_⟩
  · exact hrun.trans (bind_ok (releaseNode_run _ hc))
  · have hframe : (s₁.heap.erase v.fresh).Shows v.lists := hs₁.lists.frame fun b hb => by
      have hbf : b ≠ v.fresh := fun he => hout (he ▸ hb)
      rw [Heap.get?_erase, if_neg hbf]
    simpa [View.heeding, View.note, View.having] using
      (hs₁.withHeap hframe (by simp)).log_event (.released c.allocator v.fresh .node)

/-- The value is copied into the last node of the copy. -/
theorem copyValue_copies {w : α} (hd : (B.dup dup v.hookState x).1 = .returns (some w)) :
    Yields (copyValue B dup copy x) v ()
      (((v.supply c.allocator .node).heeding [.dup dup x (.returns (some w))]
        (B.dup dup v.hookState x).2).having
        ((copy, { c with entries := c.entries ++ [(v.fresh, w)] }) :: rest)) := by
  intro s hs
  obtain ⟨s₁, hs₁, hc, hrun⟩ := copyValue_start hv hserve B dup x hs
  rw [hd] at hrun hs₁
  have hout : v.fresh ∉ v.lists.flatMap Strip.blocks :=
    hs.lists.not_mem_of_size_le (Nat.le_of_eq hs.fresh)
  have hframe : (s₁.heap.fill v.fresh (.node (some w))).Shows v.lists :=
    hs₁.lists.frame fun b hb => Heap.get?_fill_other _ _ fun he => hout (he ▸ hb)
  have hs₂ := hs₁.withHeap hframe (by simp)
  have hprev := (hframe.ring (copy, c) (hv ▸ List.mem_cons_self)).prev?_header
  have hroom : v.fresh + 1 ≤ Heap.capacity := View.lt_capacity_of_serves hserve
  obtain ⟨s', hattach, hs'⟩ := attach_shows (x := w) c.entries [] hs₂ hv (by simp)
    (by simp [Heap.content?_fill, hc]) hout hroom
  refine ⟨s', hrun.trans ((bind_ok (write_run w hc)).trans ?_), hs'⟩
  exact (bind_ok (prevOf_run hprev)).trans hattach

end

/-! ## All values -/

/-- How the copying of values goes. -/
structure Copying (η σ α : Type) where
  /-- The view afterwards, but for the list that the copies are in. -/
  view : View η σ α
  copies : List (Addr × α)
  /-- Why it stopped before the last value, if it did. -/
  stop : Option Stop

/-- Copies values one after another into nodes from `source`. -/
def copying (B : Behaviour η σ α) (dup : η) (source : Allocator) (v : View η σ α) :
    List α → Copying η σ α
  | [] => ⟨v, [], none⟩
  | x :: xs =>
    if v.serves source then
      let called := (v.supply source .node).heeding [.dup dup x (B.dup dup v.hookState x).1]
        (B.dup dup v.hookState x).2
      match (B.dup dup v.hookState x).1 with
      | .returns (some w) =>
        let rest := copying B dup source called xs
        { rest with copies := (v.fresh, w) :: rest.copies }
      | .returns none => ⟨called.note [.released source v.fresh .node], [], some .notCopied⟩
      | .panics => ⟨called, [], some (.panicked .dup)⟩
    else ⟨v.note [.refused source .node], [], some (.refused .node)⟩

section
variable {dup : η} {source : Allocator} {x : α} {xs : List α}

theorem copying_of_refused (hserve : v.serves source = false) :
    copying B dup source v (x :: xs) =
      ⟨v.note [.refused source .node], [], some (.refused .node)⟩ := by
  simp [copying, hserve]

theorem copying_of_panics (hserve : v.serves source = true)
    (hd : (B.dup dup v.hookState x).1 = .panics) :
    copying B dup source v (x :: xs) =
      ⟨(v.supply source .node).heeding [.dup dup x .panics] (B.dup dup v.hookState x).2, [],
        some (.panicked .dup)⟩ := by
  simp [copying, hserve, hd]

theorem copying_of_fails (hserve : v.serves source = true)
    (hd : (B.dup dup v.hookState x).1 = .returns none) :
    copying B dup source v (x :: xs) =
      ⟨(v.supply source .node).heeding
        [.dup dup x (.returns none), .released source v.fresh .node] (B.dup dup v.hookState x).2,
        [], some .notCopied⟩ := by
  simp [copying, hserve, hd, View.note, View.heeding]

theorem copying_of_copies {w : α} (hserve : v.serves source = true)
    (hd : (B.dup dup v.hookState x).1 = .returns (some w)) :
    copying B dup source v (x :: xs) =
      let rest := copying B dup source ((v.supply source .node).heeding
        [.dup dup x (.returns (some w))] (B.dup dup v.hookState x).2) xs
      ⟨rest.view, (v.fresh, w) :: rest.copies, rest.stop⟩ := by
  simp [copying, hserve, hd]

end

/-- The copying reads the lists of the view nowhere. -/
theorem copying_having (dup : η) (source : Allocator) (lists : List (Addr × Strip η α)) :
    ∀ (xs : List α) (v : View η σ α), copying B dup source (v.having lists) xs =
      ⟨(copying B dup source v xs).view.having lists, (copying B dup source v xs).copies,
        (copying B dup source v xs).stop⟩ := by
  intro xs
  induction xs with
  | nil => exact fun _ => rfl
  | cons x xs ih =>
    intro v
    cases hserve : v.serves source with
    | false =>
      rw [copying_of_refused hserve, copying_of_refused (by simpa using hserve)]
      rfl
    | true =>
      have hserve' : (v.having lists).serves source = true := by simpa using hserve
      rcases hd : (B.dup dup v.hookState x).1 with (_ | w) | _
      · rw [copying_of_fails hserve hd, copying_of_fails hserve' hd]
        rfl
      · rw [copying_of_copies hserve hd, copying_of_copies hserve' hd]
        have ih := ih ((v.supply source .node).heeding [.dup dup x (.returns (some w))]
          (B.dup dup v.hookState x).2)
        exact congrArg
          (fun c : Copying η σ α => Copying.mk c.view ((v.fresh, w) :: c.copies) c.stop) ih
      · rw [copying_of_panics hserve hd, copying_of_panics hserve' hd]
        rfl

/-- A request is served only if there is room for the block. -/
theorem copying_room (dup : η) (source : Allocator) (xs : List α) {v : View η σ α}
    (hroom : v.fresh ≤ Heap.capacity) :
    (copying B dup source v xs).view.fresh ≤ Heap.capacity := by
  induction xs generalizing v with
  | nil => exact hroom
  | cons x xs ih =>
    cases hserve : v.serves source with
    | false =>
      rw [copying_of_refused hserve]
      exact hroom
    | true =>
      have hroom' : v.fresh + 1 ≤ Heap.capacity := View.lt_capacity_of_serves hserve
      rcases hd : (B.dup dup v.hookState x).1 with (_ | w) | _
      · rw [copying_of_fails hserve hd]
        exact hroom'
      · rw [copying_of_copies hserve hd]
        exact ih hroom'
      · rw [copying_of_panics hserve hd]
        exact hroom'

/-- **Copying what is left of the source.** -/
theorem copyValues_ends (dup : η) (back : Addr) (hm : (l, k) ∈ rest) :
    ∀ {ys xs : List (Addr × α)} {fuel : Nat} {v : View η σ α} {c : Strip η α},
      k.entries = xs ++ ys → v.lists = (copy, c) :: rest → ys.length < fuel →
      Ends (copyValues B dup copy fuel ⟨startOf l ys, back, ys.length⟩) v
        (copying B dup c.allocator v (ys.map (·.2))).stop
        ((copying B dup c.allocator v (ys.map (·.2))).view.having
          ((copy, { c with
            entries := c.entries ++ (copying B dup c.allocator v (ys.map (·.2))).copies }) :: rest))
  -- the source is `xs ++ ys`, and the iterator stands between the two
  | [], _, fuel + 1, v, c, _, hv, _ => by
    intro s hs
    refine ⟨s, by simp [copyValues, Iter.next, run_bind, copying, ending], ?_⟩
    simpa [copying, ← hv] using hs
  | (a, x) :: ys, xs, fuel + 1, v, c, hk, hv, hf => by
    have hml : (l, k) ∈ v.lists := hv ▸ List.mem_cons_of_mem _ hm
    unfold copyValues
    refine (next_yields hml hk back ys.length).bind_ends ?_
    cases hserve : v.serves c.allocator with
    | false =>
      simp only [List.map_cons, copying_of_refused hserve, List.append_nil, ← hv]
      exact (copyValue_refused (hv ▸ List.mem_cons_self) hserve).bind
    | true =>
      rcases hd : (B.dup dup v.hookState x).1 with (_ | w) | _
      · simp only [List.map_cons, copying_of_fails hserve hd, List.append_nil, ← hv]
        exact (copyValue_fails hv hserve hd).bind
      · have ih := copyValues_ends dup back hm
          (v := ((v.supply c.allocator .node).heeding [.dup dup x (.returns (some w))]
            (B.dup dup v.hookState x).2).having
            ((copy, { c with entries := c.entries ++ [(v.fresh, w)] }) :: rest))
          (show k.entries = (xs ++ [(a, x)]) ++ ys by simp [hk]) rfl
          (show ys.length < fuel by simpa using hf)
        simp only [List.map_cons, copying_of_copies hserve hd]
        simp only [copying_having, View.having_having, List.append_assoc] at ih
        exact (copyValue_copies hv hserve hd).bind_ends ih
      · simp only [List.map_cons, copying_of_panics hserve hd, List.append_nil, ← hv]
        exact (copyValue_panics hv hserve hd).bind

/-! ## Whole lists -/

/-- How a duplication goes. -/
structure Duplication (η σ α : Type) where
  view : View η σ α
  /-- Why there is no copy, if there is none. -/
  stop : Option Stop

/-- What duplicating a list does, with the name of a hook that copies its values if it has none: the
copy is the next block, and a partial copy is destroyed. -/
def duplicating (B : Behaviour η σ α) (v : View η σ α) (k : Strip η α) (fallback : η) :
    Duplication η σ α :=
  if v.serves k.allocator then
    let c := copying B (k.hooks.dup.getD fallback) k.allocator (v.supply k.allocator .header)
      k.values
    match c.stop with
    | none => ⟨c.view.having ((v.fresh, ⟨k.hooks, k.allocator, c.copies⟩) :: v.lists), none⟩
    | some e =>
      let t := teardown B e.course k.hooks k.allocator c.view.hookState c.copies
      ⟨(c.view.having v.lists).heeding (t.eventsWithHeader k.allocator v.fresh) t.hookState,
        some (t.stop.getD e)⟩
  else ⟨v.note [.refused k.allocator .header], some (.refused .header)⟩

section
variable {fallback : η}

/-- What is copied when a list is duplicated. -/
def copyingAll (B : Behaviour η σ α) (v : View η σ α) (k : Strip η α) (fallback : η) :
    Copying η σ α :=
  copying B (k.hooks.dup.getD fallback) k.allocator (v.supply k.allocator .header) k.values

theorem duplicating_of_refused (hserve : v.serves k.allocator = false) :
    duplicating B v k fallback =
      ⟨v.note [.refused k.allocator .header], some (.refused .header)⟩ := by
  simp [duplicating, hserve]

theorem duplicating_of_complete (hserve : v.serves k.allocator = true)
    (hstop : (copyingAll B v k fallback).stop = none) :
    duplicating B v k fallback =
      ⟨(copyingAll B v k fallback).view.having
        ((v.fresh, ⟨k.hooks, k.allocator, (copyingAll B v k fallback).copies⟩) :: v.lists),
        none⟩ := by
  unfold copyingAll at *
  simp [duplicating, hserve, hstop]

theorem duplicating_of_partial {e : Stop} (hserve : v.serves k.allocator = true)
    (hstop : (copyingAll B v k fallback).stop = some e) :
    duplicating B v k fallback =
      let c := copyingAll B v k fallback
      let t := teardown B e.course k.hooks k.allocator c.view.hookState c.copies
      ⟨(c.view.having v.lists).heeding (t.eventsWithHeader k.allocator v.fresh) t.hookState,
        some (t.stop.getD e)⟩ := by
  unfold copyingAll at *
  simp [duplicating, hserve, hstop]

end

/-- From every store that shows `v` the action gives `b` or stops, and leaves a store that shows
`v'`. -/
def Settles (act : Action η σ α β) (v : View η σ α) (b : β) :
    Option Stop → View η σ α → Prop
  | none, v' => Yields act v b v'
  | some e, v' => Stops act v e v'

theorem Ends.settles {act : Action η σ α Unit} {stop : Option Stop} {v' : View η σ α}
    (h : Ends act v stop v') : Settles act v () stop v' := by
  cases stop <;> exact h

theorem Yields.bind_settles {x : Action η σ α β} {γ : Type} {f : β → Action η σ α γ}
    {v v' v'' : View η σ α} {b : β} {c : γ} {stop : Option Stop} (hx : Yields x v b v')
    (hf : Settles (f b) v' c stop v'') : Settles (x >>= f) v c stop v'' := by
  cases stop with
  | none => exact hx.bind hf
  | some e => exact hx.bind_stops hf

theorem Ends.tryCatch_yields {x : Action η σ α Unit} {f : Stop → Action η σ α Unit}
    {v' : View η σ α} (hx : Ends x v none v') : Yields (tryCatch x f) v () v' := by
  intro s hs
  obtain ⟨s', hrun, hs'⟩ := hx s hs
  refine ⟨s', ?_, hs'⟩
  rw [run_tryCatch, hrun]
  rfl

theorem Ends.tryCatch_stops {x : Action η σ α Unit} {f : Stop → Action η σ α Unit} {e e' : Stop}
    {v' v'' : View η σ α} (hx : Ends x v (some e) v') (hf : Stops (f e) v' e' v'') :
    Stops (tryCatch x f) v e' v'' := by
  intro s hs
  obtain ⟨s₁, hrun, hs₁⟩ := hx s hs
  obtain ⟨s', hf, hs'⟩ := hf s₁ hs₁
  refine ⟨s', ?_, hs'⟩
  rw [run_tryCatch, hrun]
  exact hf

/-- An action that may stop, followed by a stop. -/
theorem Ends.bind_throw {x : Action η σ α Unit} {stop : Option Stop} {v' : View η σ α} (e : Stop)
    (hx : Ends x v stop v') :
    Stops (x >>= fun _ => throw e : Action η σ α β) v (stop.getD e) v' := by
  intro s hs
  obtain ⟨s', hrun, hs'⟩ := hx s hs
  refine ⟨s', ?_, hs'⟩
  cases stop with
  | none => exact bind_ok hrun
  | some e' => exact bind_error hrun

theorem iterStart_yields (hm : (l, k) ∈ v.lists) :
    Yields (Iter.start l) v ⟨startOf l k.entries, endOf l k.entries, k.entries.length⟩ v :=
  (nextOf_header_yields hm).bind ((prevOf_header_yields hm).bind
    ((length_yields hm).map (Iter.mk (startOf l k.entries) (endOf l k.entries))))

theorem copyAll_ends (copy : Addr) (dup : η) (hooks : Hooks η) (source : Allocator)
    (hm : (l, k) ∈ v.lists) :
    Ends (do
        let it ← Iter.start l
        copyValues B dup copy (it.remaining + 1) it)
      (v.having ((copy, ⟨hooks, source, []⟩) :: v.lists)) (copying B dup source v k.values).stop
      ((copying B dup source v k.values).view.having
        ((copy, ⟨hooks, source, (copying B dup source v k.values).copies⟩) :: v.lists)) := by
  have hstart := iterStart_yields (k := k)
    (v := v.having ((copy, ⟨hooks, source, []⟩) :: v.lists)) (List.mem_cons_of_mem _ hm)
  have hcopy := copyValues_ends (B := B) (c := ⟨hooks, source, []⟩) dup
    (endOf l k.entries) hm (List.nil_append _).symm
    (v := v.having ((copy, ⟨hooks, source, []⟩) :: v.lists)) rfl (Nat.lt_succ_self _)
  rw [copying_having] at hcopy
  exact hstart.bind_ends hcopy

/-- **A list is duplicated**, or the partial copy is destroyed. -/
theorem duplicate_settles {fallback : η} (hm : (l, k) ∈ v.lists) :
    Settles (duplicate B l fallback) v v.fresh (duplicating B v k fallback).stop
      (duplicating B v k fallback).view := by
  unfold duplicating duplicate
  cases hserve : v.serves k.allocator with
  | false => exact (record_yields hm).bind_stops (create_stops hserve).bind
  | true =>
    simp only [↓reduceIte]
    refine (record_yields hm).bind_settles ((create_yields hserve).bind_settles
      ((setHooks_yields k.hooks rfl).bind_settles ?_))
    have hcopy := copyAll_ends (B := B) (v := v.supply k.allocator .header) v.fresh
      (k.hooks.dup.getD fallback) k.hooks k.allocator hm
    generalize copying B (k.hooks.dup.getD fallback) k.allocator
      (v.supply k.allocator .header) k.values = c at hcopy ⊢
    cases hstop : c.stop with
    | none =>
      rw [hstop] at hcopy
      exact hcopy.tryCatch_yields.bind (yields_pure _ _)
    | some e =>
      rw [hstop] at hcopy
      have hdestroy : Ends (destroy B e.course v.fresh)
          (c.view.having ((v.fresh, ⟨k.hooks, k.allocator, c.copies⟩) :: v.lists)) _ _ :=
        destroy_ends rfl
      exact Stops.bind (hcopy.tryCatch_stops (by exact hdestroy.bind_throw e))

/-- What a duplication does to the lists: there is one more, or they are what they were. -/
theorem duplicating_lists (B : Behaviour η σ α) (v : View η σ α) (k : Strip η α) (fallback : η) :
    (∃ copies, (duplicating B v k fallback).stop = none ∧
      (duplicating B v k fallback).view.lists =
        (v.fresh, ⟨k.hooks, k.allocator, copies⟩) :: v.lists) ∨
    (∃ e, (duplicating B v k fallback).stop = some e ∧
      (duplicating B v k fallback).view.lists = v.lists) := by
  cases hserve : v.serves k.allocator with
  | false =>
    rw [duplicating_of_refused hserve]
    exact .inr ⟨_, rfl, rfl⟩
  | true =>
    cases hstop : (copyingAll B v k fallback).stop with
    | none =>
      rw [duplicating_of_complete hserve hstop]
      exact .inl ⟨_, rfl, rfl⟩
    | some e =>
      rw [duplicating_of_partial hserve hstop]
      exact .inr ⟨_, rfl, rfl⟩

theorem duplicating_room {fallback : η} (hroom : v.fresh ≤ Heap.capacity) :
    (duplicating B v k fallback).view.fresh ≤ Heap.capacity := by
  cases hserve : v.serves k.allocator with
  | false =>
    rw [duplicating_of_refused hserve]
    exact hroom
  | true =>
    have hroom' : v.fresh + 1 ≤ Heap.capacity := View.lt_capacity_of_serves hserve
    have hcopy : (copyingAll B v k fallback).view.fresh ≤ Heap.capacity :=
      copying_room _ _ _ hroom'
    cases hstop : (copyingAll B v k fallback).stop with
    | none =>
      rw [duplicating_of_complete hserve hstop]
      exact hcopy
    | some e =>
      rw [duplicating_of_partial hserve hstop]
      exact hcopy

end RingList
