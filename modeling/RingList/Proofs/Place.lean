import RingList.Iteration
import RingList.Proofs.Relink

/-!
# Adding values

Every block that a list gets is asked for first, and nothing else is touched before the answer. A
served request shows in the view as `View.supply`; a refused one leaves the lists as they were
(`newNode_stops`, `create_stops`) and the offered value is dropped.

* `addHead_yields`, `addTail_yields`, `insertAfter_yields`, `insertBefore_yields`: one node with a
  fresh address at its place.
* `extend_yields`, `collect_yields`: a run of fresh nodes, when no request is refused.
-/

set_option autoImplicit false

namespace RingList

variable {η σ α β : Type} {s : Store η σ α} {v : View η σ α} {l : Addr} {k : Strip η α}
  {rest : List (Addr × Strip η α)} {source : Allocator}

/-! ## Requests -/

theorem Heap.Shows.push {h : Heap η α} {lists : List (Addr × Strip η α)} (hs : h.Shows lists)
    (c : Content η α) : (h.push c).Shows lists :=
  hs.frame fun a ha => by
    rw [Heap.get?_push, if_neg (Nat.ne_of_lt (hs.lt_size ha))]

theorem allocate_shows (c : Content η α) (hserve : v.serves source = true) (hs : s.Shows v) :
    ∃ s', allocate source c s = .ok v.fresh s' ∧ s'.Shows (v.supply source c.kind) ∧
      s'.heap = s.heap.push c := by
  refine ⟨({ s with budgets := s.budgetsAfter source, heap := s.heap.push c }.log
    (.served source s.heap.size c.kind)), ?_, ⟨hs.lists.push c, ?_, ?_, hs.hookState, ?_⟩, rfl⟩
  · rw [allocate_run, hs.serves, hserve, ← hs.fresh]
    rfl
  · simp [Store.log, View.supply, hs.fresh]
  · exact hs.budgetsAfter source
  · simp [Store.log, View.supply, hs.log, hs.fresh]

theorem allocate_stops (c : Content η α) (hserve : v.serves source = false) :
    Stops (allocate source c) v (.refused c.kind) (v.note [.refused source c.kind]) := by
  intro s hs
  refine ⟨s.log (.refused source c.kind), ?_, hs.log_event _⟩
  rw [allocate_run, hs.serves, hserve]
  rfl

/-! ## New lists -/

/-- **A new list** is empty and has no hooks. -/
theorem create_yields (hserve : v.serves source = true) :
    Yields (create source) v v.fresh
      ((v.supply source .header).having ((v.fresh, ⟨{}, source, []⟩) :: v.lists)) := by
  intro s hs
  obtain ⟨s', hrun, hs', hheap⟩ :=
    allocate_shows (.header { length := 0, hooks := {}, allocator := source }) hserve hs
  refine ⟨s', hrun, ⟨⟨?_, ?_⟩, hs'.fresh, hs'.budgets, hs'.hookState, hs'.log⟩⟩
  · intro p hp
    rcases List.mem_cons.1 hp with rfl | hp
    · rw [hheap, ← hs.fresh]
      exact Heap.IsRing.push s.heap {} source
    · exact hs'.lists.ring p hp
  · rw [View.having_lists, List.flatMap_cons]
    refine List.nodup_append.2 ⟨by simp [Strip.blocks, Strip.nodes], hs.lists.apart, ?_⟩
    rintro a ha b hb rfl
    obtain rfl : a = v.fresh := by simpa [Strip.blocks, Strip.nodes] using ha
    exact hs.lists.not_mem_of_size_le (Nat.le_of_eq hs.fresh) hb

theorem create_stops (hserve : v.serves source = false) :
    Stops (create source) v (.refused .header) (v.note [.refused source .header]) :=
  allocate_stops _ hserve

/-! ## New nodes -/

/-- A new node holds its value and is in no list yet. -/
theorem newNode_shows {x : α} (hm : (l, k) ∈ v.lists) (hserve : v.serves k.allocator = true)
    (hs : s.Shows v) :
    ∃ s', newNode l x s = .ok v.fresh s' ∧ s'.Shows (v.supply k.allocator .node) ∧
      s'.heap.content? v.fresh = some (.node (some x)) := by
  obtain ⟨s₁, hrun, hs₁, hheap⟩ := allocate_shows (.node none) hserve hs
  have hc : s₁.heap.content? v.fresh = some (.node none) := by
    simp [hheap, Heap.content?, Heap.get?_push, hs.fresh]
  have hout : ∀ a ∈ v.lists.flatMap Strip.blocks, a ≠ v.fresh := by
    rintro a ha rfl
    exact hs.lists.not_mem_of_size_le (Nat.le_of_eq hs.fresh) ha
  refine ⟨{ s₁ with heap := s₁.heap.fill v.fresh (.node (some x)) }, ?_, ?_, ?_⟩
  · unfold newNode
    rw [bind_ok (record_run (hs.lists.ring (l, k) hm).header)]
    have htry : (tryCatch (allocate k.record.allocator (.node none)) fun stop => do
        emit (.dropped x)
        throw stop : Action η σ α Addr) s = .ok v.fresh s₁ := by
      rw [run_tryCatch, Strip.record_allocator, hrun]
    rw [bind_ok htry, bind_ok (write_run x hc)]
    rfl
  · have hframe : (s₁.heap.fill v.fresh (.node (some x))).Shows v.lists :=
      hs₁.lists.frame fun a ha => Heap.get?_fill_other _ _ (hout a ha)
    exact hs₁.withHeap hframe (by simp)
  · simp [Heap.content?_fill, hc]

/-- **A refused node** leaves every list as it was, and the offered value is dropped. -/
theorem newNode_stops {x : α} (hm : (l, k) ∈ v.lists) (hserve : v.serves k.allocator = false) :
    Stops (newNode l x) v (.refused .node)
      (v.note [.refused k.allocator .node, .dropped x]) := by
  intro s hs
  obtain ⟨s₁, hrun, hs₁⟩ := allocate_stops (.node none) hserve s hs
  refine ⟨s₁.log (.dropped x), ?_, by simpa [Content.kind] using hs₁.log_event (.dropped x)⟩
  unfold newNode
  rw [bind_ok (record_run (hs.lists.ring (l, k) hm).header)]
  refine bind_error ?_
  rw [run_tryCatch, Strip.record_allocator, hrun]
  rfl

/-- **A value is added** between `xs` and `ys`, in a node with a fresh address. -/
theorem place_shows (xs ys : List (Addr × α)) (x : α)
    (hv : v.lists = (l, k) :: rest) (hk : k.entries = xs ++ ys)
    (hserve : v.serves k.allocator = true) (hs : s.Shows v) :
    ∃ s₁, newNode l x s = .ok v.fresh s₁ ∧ s₁.Shows (v.supply k.allocator .node) ∧
      ∃ s', attach l (endOf l xs) (startOf l ys) v.fresh s₁ = .ok () s' ∧
        s'.Shows ((v.supply k.allocator .node).having
          ((l, { k with entries := xs ++ (v.fresh, x) :: ys }) :: rest)) := by
  obtain ⟨s₁, hrun, hs₁, hc⟩ := newNode_shows (x := x) (hv ▸ List.mem_cons_self) hserve hs
  have hroom : v.fresh + 1 ≤ Heap.capacity := View.lt_capacity_of_serves hserve
  refine ⟨s₁, hrun, hs₁, attach_shows xs ys hs₁ hv hk hc ?_ hroom⟩
  exact hs.lists.not_mem_of_size_le (Nat.le_of_eq hs.fresh)

/-- The view after a value was added between `xs` and `ys`. -/
def View.placed (v : View η σ α) (l : Addr) (k : Strip η α) (rest : List (Addr × Strip η α))
    (xs : List (Addr × α)) (x : α) (ys : List (Addr × α)) : View η σ α :=
  (v.supply k.allocator .node).having ((l, { k with entries := xs ++ (v.fresh, x) :: ys }) :: rest)

theorem addHead_yields {x : α} (hv : v.lists = (l, k) :: rest)
    (hserve : v.serves k.allocator = true) :
    Yields (addHead l x) v v.fresh (v.placed l k rest [] x k.entries) := by
  intro s hs
  obtain ⟨s₁, hrun, hs₁, s', hattach, hs'⟩ :=
    place_shows [] k.entries x hv rfl hserve hs
  have hn := (hs₁.lists.ring (l, k) (by simp [hv])).next?_header
  refine ⟨s', ?_, hs'⟩
  unfold addHead
  rw [bind_ok hrun, bind_ok (nextOf_run hn)]
  exact bind_ok hattach

theorem addTail_yields {x : α} (hv : v.lists = (l, k) :: rest)
    (hserve : v.serves k.allocator = true) :
    Yields (addTail l x) v v.fresh (v.placed l k rest k.entries x []) := by
  intro s hs
  obtain ⟨s₁, hrun, hs₁, s', hattach, hs'⟩ :=
    place_shows k.entries [] x hv (by simp) hserve hs
  have hp := (hs₁.lists.ring (l, k) (by simp [hv])).prev?_header
  refine ⟨s', ?_, hs'⟩
  unfold addTail
  rw [bind_ok hrun, bind_ok (prevOf_run hp)]
  exact bind_ok hattach

theorem insertAfter_yields {xs ys : List (Addr × α)} {a : Addr} {x y : α}
    (hv : v.lists = (l, k) :: rest) (hk : k.entries = xs ++ (a, y) :: ys)
    (hserve : v.serves k.allocator = true) :
    Yields (insert l a x true) v v.fresh (v.placed l k rest (xs ++ [(a, y)]) x ys) := by
  intro s hs
  obtain ⟨s₁, hrun, hs₁, s', hattach, hs'⟩ :=
    place_shows (xs ++ [(a, y)]) ys x hv (by simp [hk]) hserve hs
  have hn : s₁.heap.next? a = some (startOf l ys) :=
    (hs₁.lists.ring (l, k) (by simp [hv])).next?_at hk
  have he : endOf l (xs ++ [(a, y)]) = a := by simp [endOf]
  rw [he] at hattach
  refine ⟨s', ?_, hs'⟩
  unfold insert
  rw [bind_ok hrun]
  simp only [↓reduceIte]
  rw [bind_ok (nextOf_run hn)]
  exact bind_ok hattach

theorem insertBefore_yields {xs ys : List (Addr × α)} {a : Addr} {x y : α}
    (hv : v.lists = (l, k) :: rest) (hk : k.entries = xs ++ (a, y) :: ys)
    (hserve : v.serves k.allocator = true) :
    Yields (insert l a x false) v v.fresh (v.placed l k rest xs x ((a, y) :: ys)) := by
  intro s hs
  obtain ⟨s₁, hrun, hs₁, s', hattach, hs'⟩ :=
    place_shows xs ((a, y) :: ys) x hv hk hserve hs
  have hp : s₁.heap.prev? a = some (endOf l xs) :=
    (hs₁.lists.ring (l, k) (by simp [hv])).prev?_at hk
  have he : startOf l ((a, y) :: ys) = a := by simp [startOf]
  rw [he] at hattach
  refine ⟨s', ?_, hs'⟩
  unfold insert
  rw [bind_ok hrun]
  simp only [Bool.false_eq_true, ↓reduceIte]
  rw [bind_ok (prevOf_run hp)]
  exact bind_ok hattach

/-! ## Many values at once -/

namespace View

def supplies (v : View η σ α) (source : Allocator) (n : Nat) : Bool :=
  decide (v.fresh + n ≤ Heap.capacity) && match source with
    | .global => true
    | .limited k => (v.budgets[k]?).any (·.all (n ≤ ·))

def supplyMany (v : View η σ α) (source : Allocator) : Nat → View η σ α
  | 0 => v
  | n + 1 => (v.supply source .node).supplyMany source n

theorem supplyMany_having (lists : List (Addr × Strip η α)) (n : Nat) :
    (v.having lists).supplyMany source n = (v.supplyMany source n).having lists := by
  induction n generalizing v with
  | zero => rfl
  | succ n ih => exact ih (v := v.supply source .node)

@[simp] theorem supplyMany_fresh (n : Nat) : (v.supplyMany source n).fresh = v.fresh + n := by
  induction n generalizing v with
  | zero => rfl
  | succ n ih =>
    have ih := ih (v := v.supply source .node)
    simp only [supplyMany, ih, supply_fresh]
    omega

/-- The events of `n` requests that are served with nodes, the first of them at `a`. -/
def servings (source : Allocator) (a n : Nat) : List (Event η α) :=
  (List.range' a n).map fun b => .served source b .node

@[simp] theorem supplyMany_log (n : Nat) :
    (v.supplyMany source n).log = v.log ++ servings source v.fresh n := by
  induction n generalizing v with
  | zero => exact (List.append_nil _).symm
  | succ n ih =>
    have ih := ih (v := v.supply source .node)
    simp only [supplyMany, ih, supply_log, supply_fresh, servings, List.range'_succ, List.map_cons,
      List.append_assoc, List.singleton_append]

@[simp] theorem supplyMany_lists (n : Nat) : (v.supplyMany source n).lists = v.lists := by
  induction n generalizing v with
  | zero => rfl
  | succ n ih => exact ih (v := v.supply source .node)

theorem room_of_supplies {n : Nat} (hs : v.supplies source n = true) :
    v.fresh + n ≤ Heap.capacity := by
  unfold supplies at hs
  simp only [Bool.and_eq_true, decide_eq_true_eq] at hs
  exact hs.1

theorem supplies_global {n : Nat} :
    v.supplies .global n = true ↔ v.fresh + n ≤ Heap.capacity := by
  simp [supplies]

theorem supplies_limited {i n : Nat} :
    v.supplies (.limited i) n = true ↔
      v.fresh + n ≤ Heap.capacity ∧ ∃ b, v.budgets[i]? = some b ∧ ∀ m ∈ b, n ≤ m := by
  cases hb : v.budgets[i]? with
  | none => simp [supplies, hb]
  | some b => cases b <;> simp [supplies, hb]

theorem serves_global : v.serves .global = true ↔ v.fresh < Heap.capacity := by simp [serves]

theorem serves_limited {i : Nat} :
    v.serves (.limited i) = true ↔
      v.fresh < Heap.capacity ∧ ∃ b, v.budgets[i]? = some b ∧ b ≠ some 0 := by
  cases hb : v.budgets[i]? <;> simp [serves, hb]

theorem serves_of_supplies {n : Nat} (hs : v.supplies source (n + 1) = true) :
    v.serves source = true := by
  cases source with
  | global =>
    rw [supplies_global] at hs
    exact serves_global.2 (by omega)
  | limited i =>
    obtain ⟨hroom, b, hb, hall⟩ := supplies_limited.1 hs
    refine serves_limited.2 ⟨by omega, b, hb, fun h0 => ?_⟩
    exact absurd (hall 0 h0) (by omega)

/-- What is left of the supply after one request. -/
theorem supplies_supply {n : Nat} (kind : BlockKind) (hs : v.supplies source (n + 1) = true) :
    (v.supply source kind).supplies source n = true := by
  cases source with
  | global =>
    rw [supplies_global] at hs
    refine supplies_global.2 ?_
    rw [supply_fresh]
    omega
  | limited i =>
    obtain ⟨hroom, b, hb, hall⟩ := supplies_limited.1 hs
    refine supplies_limited.2 ⟨by rw [supply_fresh]; omega, b.map (· - 1), ?_, ?_⟩
    · simp [supply, budgetsAfter, Array.getElem?_modify, hb]
    · rintro m hm
      obtain ⟨m', hm', rfl⟩ := Option.map_eq_some_iff.1 hm
      exact Nat.le_sub_one_of_lt (hall m' hm')

end View

theorem Store.Shows.supplies (hs : s.Shows v) (source : Allocator) (n : Nat) :
    s.supplies source n = v.supplies source n := by
  cases source <;> simp [Store.supplies, View.supplies, hs.fresh, hs.budgets]

/-- Values in nodes with addresses from `a` on. -/
def numbered (a : Addr) : List α → List (Addr × α)
  | [] => []
  | x :: xs => (a, x) :: numbered (a + 1) xs

@[simp] theorem numbered_nodes (a : Addr) (xs : List α) :
    (numbered a xs).map (·.1) = List.range' a xs.length := by
  induction xs generalizing a with
  | nil => rfl
  | cons x xs ih => exact congrArg (a :: ·) (ih (a + 1))

@[simp] theorem numbered_values (a : Addr) (xs : List α) : (numbered a xs).map (·.2) = xs := by
  induction xs generalizing a with
  | nil => rfl
  | cons x xs ih => exact congrArg (x :: ·) (ih (a + 1))

/-- **Values are added at the back**, each in a node with the next fresh address. -/
theorem extend_yields : ∀ (xs : List α) {v : View η σ α} {k : Strip η α},
    v.lists = (l, k) :: rest → v.supplies k.allocator xs.length = true →
    Yields (extend l xs) v () ((v.supplyMany k.allocator xs.length).having
      ((l, { k with entries := k.entries ++ numbered v.fresh xs }) :: rest))
  | [], v, k, hv, _ => by
    simpa [extend, View.supplyMany, numbered, ← hv] using yields_pure () v
  | x :: xs, v, k, hv, hs => by
    have ih := extend_yields xs (v := v.placed l k rest k.entries x [])
      (k := { k with entries := k.entries ++ [(v.fresh, x)] }) rfl (View.supplies_supply .node hs)
    simp only [View.placed, View.supplyMany_having, View.having_having, List.append_assoc] at ih
    exact (addTail_yields (x := x) hv (View.serves_of_supplies hs)).bind ih

/-- **A list of given values**, one request for its header and one for each value. -/
theorem collect_yields {xs : List α} (hs : v.supplies .global (xs.length + 1) = true) :
    Yields (do
      let l ← create .global
      extend l xs
      return l) v v.fresh (((v.supply .global .header).supplyMany .global xs.length).having
        ((v.fresh, ⟨{}, .global, numbered (v.fresh + 1) xs⟩) :: v.lists)) := by
  have hext := extend_yields xs (v := (v.supply .global .header).having
    ((v.fresh, ⟨{}, .global, []⟩) :: v.lists)) rfl (View.supplies_supply .header hs)
  rw [View.supplyMany_having, View.having_having] at hext
  exact (create_yields (View.serves_of_supplies hs)).bind (hext.bind (yields_pure _ _))

/-! ## Refused values -/

section
variable {x : α} (hm : (l, k) ∈ v.lists) (hserve : v.serves k.allocator = false)
include hm hserve

theorem addHead_stops :
    Stops (addHead l x) v (.refused .node) (v.note [.refused k.allocator .node, .dropped x]) :=
  (newNode_stops hm hserve).bind

theorem addTail_stops :
    Stops (addTail l x) v (.refused .node) (v.note [.refused k.allocator .node, .dropped x]) :=
  (newNode_stops hm hserve).bind

theorem insert_stops {a : Addr} {after : Bool} :
    Stops (insert l a x after) v (.refused .node)
      (v.note [.refused k.allocator .node, .dropped x]) :=
  (newNode_stops hm hserve).bind

end

end RingList
