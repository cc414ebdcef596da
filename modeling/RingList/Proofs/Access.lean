import RingList.Proofs.View
import RingList.Iteration

/-!
# Reading and writing in place

What the reads of a list answer, by its strip, what a step of a borrowed iterator yields
(`next_yields`, `nextBack_yields`), and what the writes that ask for no block leave behind: a new
value in a node (`exchange_yields`) and new hooks in a header (`setHooks_yields`).
-/

set_option autoImplicit false

namespace RingList

variable {η σ α β : Type} {v : View η σ α} {l : Addr} {k : Strip η α}
  {rest : List (Addr × Strip η α)}

/-! ## Handles -/

theorem handle_head {ns : List Addr} (hl : l ∉ ns) : handle l (ns.head?.getD l) = ns.head? := by
  cases ns with
  | nil => simp [handle]
  | cons a ns =>
    have hne : a ≠ l := fun he => hl (by simp [he])
    simp [handle, hne]

theorem handle_getLast {ns : List Addr} (hl : l ∉ ns) :
    handle l (ns.getLast?.getD l) = ns.getLast? := by
  cases hn : ns.getLast? with
  | none => simp [handle]
  | some a =>
    have hne : a ≠ l := fun he => hl (he ▸ List.mem_of_getLast? hn)
    simp [handle, hne]

/-! ## Reading -/

/-- The header of a list without nodes is followed by itself. -/
theorem isEmpty_run {s : Store η σ α} (hr : s.heap.IsRing l k) :
    isEmpty l s = .ok k.entries.isEmpty s := by
  have hiff : decide (k.nodes.head?.getD l = l) = k.entries.isEmpty := by
    cases hes : k.entries with
    | nil => simp [Strip.nodes, hes]
    | cons e es =>
      have hne : e.1 ≠ l := fun he => hr.header_not_mem (by simp [Strip.nodes, hes, he])
      simp [Strip.nodes, hes, hne]
  rw [← hiff]
  exact map_ok (f := fun a => decide (a = l)) (nextOf_run hr.next?_header)

section
variable (hm : (l, k) ∈ v.lists)
include hm

theorem nextOf_header_yields : Yields (nextOf l) v (k.nodes.head?.getD l) v := fun s hs =>
  ⟨s, nextOf_run (hs.lists.ring (l, k) hm).next?_header, hs⟩

theorem prevOf_header_yields : Yields (prevOf l) v (k.nodes.getLast?.getD l) v := fun s hs =>
  ⟨s, prevOf_run (hs.lists.ring (l, k) hm).prev?_header, hs⟩

theorem record_yields : Yields (record l) v k.record v := fun s hs =>
  ⟨s, record_run (hs.lists.ring (l, k) hm).header, hs⟩

theorem head_yields : Yields (head l) v k.nodes.head? v := by
  intro s hs
  have hr := hs.lists.ring (l, k) hm
  rw [← handle_head hr.header_not_mem]
  exact (nextOf_header_yields hm).map (handle l) s hs

theorem tail_yields : Yields (tail l) v k.nodes.getLast? v := by
  intro s hs
  have hr := hs.lists.ring (l, k) hm
  rw [← handle_getLast hr.header_not_mem]
  exact (prevOf_header_yields hm).map (handle l) s hs

theorem nextNode_yields {xs ys : List (Addr × α)} {a : Addr} {x : α}
    (hk : k.entries = xs ++ (a, x) :: ys) : Yields (nextNode l a) v (ys.map (·.1)).head? v := by
  intro s hs
  have hr := hs.lists.ring (l, k) hm
  have hnodes : k.nodes = xs.map (·.1) ++ a :: ys.map (·.1) := by simp [Strip.nodes, hk]
  have hl : l ∉ ys.map (·.1) := fun hm => hr.header_not_mem (by simp [hnodes, hm])
  rw [← handle_head hl]
  exact ⟨s, map_ok (nextOf_run (hr.next?_node hnodes)), hs⟩

theorem prevNode_yields {xs ys : List (Addr × α)} {a : Addr} {x : α}
    (hk : k.entries = xs ++ (a, x) :: ys) : Yields (prevNode l a) v (xs.map (·.1)).getLast? v := by
  intro s hs
  have hr := hs.lists.ring (l, k) hm
  have hnodes : k.nodes = xs.map (·.1) ++ a :: ys.map (·.1) := by simp [Strip.nodes, hk]
  have hl : l ∉ xs.map (·.1) := fun hm => hr.header_not_mem (by simp [hnodes, hm])
  rw [← handle_getLast hl]
  exact ⟨s, map_ok (prevOf_run (hr.prev?_node hnodes)), hs⟩

theorem length_yields : Yields (length l) v k.entries.length v :=
  (record_yields hm).map Record.length

theorem isEmpty_yields : Yields (isEmpty l) v k.entries.isEmpty v := fun s hs =>
  ⟨s, isEmpty_run (hs.lists.ring (l, k) hm), hs⟩

theorem hooks_yields : Yields (hooks l) v k.hooks v := (record_yields hm).map Record.hooks

theorem allocator_yields : Yields (allocator l) v k.allocator v :=
  (record_yields hm).map Record.allocator

theorem value_yields {a : Addr} {x : α} (ha : (a, x) ∈ k.entries) : Yields (value a) v x v :=
  fun s hs => ⟨s, value_run ((hs.lists.ring (l, k) hm).values (a, x) ha), hs⟩

/-- A borrowed iterator with its front at the node `a`. -/
theorem next_yields {xs ys : List (Addr × α)} {a : Addr} {x : α}
    (hk : k.entries = xs ++ (a, x) :: ys) (back : Addr) (n : Nat) :
    Yields (Iter.next ⟨a, back, n + 1⟩) v (some x, ⟨startOf l ys, back, n⟩) v := by
  intro s hs
  have hr := hs.lists.ring (l, k) hm
  have hn : s.heap.next? a = some (startOf l ys) := hr.next?_at hk
  have hc := hr.values (a, x) (by simp [hk])
  refine ⟨s, ?_, hs⟩
  unfold Iter.next
  simp only [Nat.add_one_ne_zero, ↓reduceIte]
  exact (bind_ok (nextOf_run hn)).trans (bind_ok (value_run hc))

/-- A borrowed iterator with its back at the node `a`. -/
theorem nextBack_yields {xs ys : List (Addr × α)} {a : Addr} {x : α}
    (hk : k.entries = xs ++ (a, x) :: ys) (front : Addr) (n : Nat) :
    Yields (Iter.nextBack ⟨front, a, n + 1⟩) v (some x, ⟨front, endOf l xs, n⟩) v := by
  intro s hs
  have hr := hs.lists.ring (l, k) hm
  have hp : s.heap.prev? a = some (endOf l xs) := hr.prev?_at hk
  have hc := hr.values (a, x) (by simp [hk])
  refine ⟨s, ?_, hs⟩
  unfold Iter.nextBack
  simp only [Nat.add_one_ne_zero, ↓reduceIte]
  exact (bind_ok (prevOf_run hp)).trans (bind_ok (value_run hc))

theorem front_yields : Yields (front l) v k.values.head? v := by
  refine (head_yields hm).bind ?_
  cases hes : k.entries with
  | nil => simpa [Strip.nodes, Strip.values, hes, valueAt] using yields_pure none v
  | cons e es =>
    simpa [Strip.nodes, Strip.values, hes, valueAt] using
      (value_yields hm (a := e.1) (x := e.2) (by simp [hes])).map some

theorem back_yields : Yields (back l) v k.values.getLast? v := by
  refine (tail_yields hm).bind ?_
  rcases List.eq_nil_or_concat k.entries with hes | ⟨es, e, hes⟩
  · simpa [Strip.nodes, Strip.values, hes, valueAt] using yields_pure none v
  · simpa [Strip.nodes, Strip.values, hes, valueAt] using
      (value_yields hm (a := e.1) (x := e.2) (by simp [hes])).map some

end

/-! ## Writing -/

/-- **A value is exchanged.** -/
theorem exchange_yields (xs ys : List (Addr × α)) {a : Addr} {x : α} (y : α)
    (hv : v.lists = (l, k) :: rest) (hk : k.entries = xs ++ (a, x) :: ys) :
    Yields (exchange a y) v x
      (v.having ((l, { k with entries := xs ++ (a, y) :: ys }) :: rest)) := by
  intro s hs
  have hlists := hs.lists
  rw [hv] at hlists
  have hr := hlists.head
  have hc := hr.values (a, x) (by simp [hk])
  have ham : a ∈ k.nodes := by simp [Strip.nodes, hk]
  refine ⟨{ s with heap := s.heap.fill a (.node (some y)) }, ?_, hs.withHeap ?_ (by simp)⟩
  · unfold exchange
    rw [bind_ok (value_run hc), bind_ok (write_run y hc)]
    rfl
  · refine hlists.replaceOne (hr.rewrite y hk) (fun b hb => .inl ?_) fun b _ hb => ?_
    · simpa [Strip.nodes, hk] using hb
    · exact Heap.get?_fill_other _ _ fun he => hb (by simp [he, ham])

theorem setFront_yields_nil {y : α} (hm : (l, k) ∈ v.lists) (hk : k.entries = []) :
    Yields (setFront l y) v none v := by
  refine (head_yields hm).bind ?_
  simpa [Strip.nodes, hk, exchangeAt] using yields_pure none v

theorem setBack_yields_nil {y : α} (hm : (l, k) ∈ v.lists) (hk : k.entries = []) :
    Yields (setBack l y) v none v := by
  refine (tail_yields hm).bind ?_
  simpa [Strip.nodes, hk, exchangeAt] using yields_pure none v

theorem setFront_yields_cons {a : Addr} {x y : α} {es : List (Addr × α)}
    (hv : v.lists = (l, k) :: rest) (hk : k.entries = (a, x) :: es) :
    Yields (setFront l y) v (some x)
      (v.having ((l, { k with entries := (a, y) :: es }) :: rest)) := by
  refine (head_yields (k := k) (by simp [hv])).bind ?_
  simpa [Strip.nodes, hk, exchangeAt] using
    (exchange_yields [] es y hv hk).map some

theorem setBack_yields_concat {a : Addr} {x y : α} {es : List (Addr × α)}
    (hv : v.lists = (l, k) :: rest) (hk : k.entries = es ++ [(a, x)]) :
    Yields (setBack l y) v (some x)
      (v.having ((l, { k with entries := es ++ [(a, y)] }) :: rest)) := by
  refine (tail_yields (k := k) (by simp [hv])).bind ?_
  simpa [Strip.nodes, hk, exchangeAt] using
    (exchange_yields es [] y hv hk).map some

/-- **The hooks of a list are replaced.** -/
theorem setHooks_yields (hs : Hooks η) (hv : v.lists = (l, k) :: rest) :
    Yields (setHooks l hs) v () (v.having ((l, { k with hooks := hs }) :: rest)) := by
  intro s hsh
  have hlists := hsh.lists
  rw [hv] at hlists
  have hr := hlists.head
  refine ⟨{ s with heap := s.heap.fill l (.header { k with hooks := hs }.record) }, ?_,
    hsh.withHeap ?_ (by simp)⟩
  · unfold setHooks
    rw [bind_ok (record_run hr.header)]
    exact setRecord_run _ hr.header
  · refine hlists.replaceOne (hr.setHooks hs) (fun b hb => .inl hb) fun b _ hb => ?_
    exact Heap.get?_fill_other _ _ fun he => hb (by simp [he])

/-- The hooks with one of them replaced. -/
def Hooks.set (hs : Hooks η) (h : η) : HookKind → Hooks η
  | .dup => { hs with dup := some h }
  | .free => { hs with free := some h }
  | .matching => { hs with matching := some h }

theorem installHook_yields (kind : HookKind) (h : η) (hv : v.lists = (l, k) :: rest) :
    Yields (installHook l kind h) v ()
      (v.having ((l, { k with hooks := k.hooks.set h kind }) :: rest)) := by
  refine (hooks_yields (k := k) (by simp [hv])).bind ?_
  cases kind <;> exact setHooks_yields _ hv

end RingList
