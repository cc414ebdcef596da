import Mathlib.Logic.Equiv.Basic
import RingList.Proofs.CoupledRuns
import RingList.Proofs.Tracks

/-!
# Lists that are interchangeable

Two empty lists with the same hooks and the same allocator can take each other's place: whatever a
program does from now on, it is told the same if it uses the one wherever it would have used the other
one. So an empty list behaves as any other one, however it became empty.

* `World.Interchangeable`: what it means that lists can take each other's place.
* `World.Reachable.interchangeable`: empty lists with the same record can.
-/

set_option autoImplicit false

namespace RingList

variable {η σ α : Type} {B : Behaviour η σ α}

/-! ## Names exchanged -/

/-- The same world, for a program that calls the lists and nodes by other names. -/
def World.rename (π : Addr → Addr) (w : World η σ α) : World η σ α :=
  ⟨w.store, w.holdings.rename π⟩

/-- The second step is the first one, with other names: it ends in the same way, the same happens,
and all lists are the same afterwards. -/
structure Step.Renamed (π : Addr → Addr) (st st' : Step η σ α) : Prop where
  op : st'.op = st.op.rename π
  outcome : st'.outcome = st.outcome.rename π
  events : st'.events = st.events.map (Event.rename π)
  owners : st'.after.owners = st.after.owners.map π
  record : ∀ m ∈ st.after.owners,
    st'.after.store.heap.record? (π m) = st.after.store.heap.record? m
  entries : ∀ m ∈ st.after.owners, st'.after.store.heap.entries (π m) =
    (st.after.store.heap.entries m).map fun e => (π e.1, e.2)

/-- **The lists `l` and `c` are interchangeable**: in every run from here on the program can use each
of them in the place of the other one. -/
def World.Interchangeable (B : Behaviour η σ α) (w : World η σ α) (l c : Addr) : Prop :=
  ∀ ops : List (Op η α), List.Forall₂ (Step.Renamed (Equiv.swap l c)) (w.steps B ops)
    ((w.rename (Equiv.swap l c)).steps B (ops.map (Op.rename (Equiv.swap l c))))

/-! ## Two empty lists -/

/-- Two headers stand for each other, and the blocks of all lists are known. -/
def Coupling.swapping (v : View η σ α) {l c : Addr} (hl : l < v.fresh) (hc : c < v.fresh) :
    Coupling σ σ α α where
  addr := Equiv.swap l c
  value := id
  state := Eq
  known a := a ∈ v.lists.flatMap Strip.blocks ∨ v.fresh ≤ a
  fresh := v.fresh
  injective := (Equiv.swap l c).injective
  known_of_le := .inr
  addr_of_le ha := Equiv.swap_apply_of_ne_of_ne (Nat.ne_of_gt (Nat.lt_of_lt_of_le hl ha))
    (Nat.ne_of_gt (Nat.lt_of_lt_of_le hc ha))

section
variable {h : Heap η α} {l c a : Addr} {k : Strip η α}

/-- A block of a ring leads to blocks of the ring. -/
theorem Heap.IsRing.closed (hr : h.IsRing l k) (ha : a ∈ l :: k.nodes) {cell : Cell η α}
    (hcell : h.get? a = some cell) : cell.next ∈ l :: k.nodes ∧ cell.prev ∈ l :: k.nodes := by
  obtain ⟨⟨n, hn, hnext⟩, p, hp, hprev⟩ := hr.neighbours ha
  have hnext : some cell.next = some n := (congrArg (Option.map _) hcell).symm.trans hnext.1
  have hprev : some cell.prev = some p := (congrArg (Option.map _) hcell).symm.trans hprev.2
  obtain rfl := Option.some.inj hnext
  obtain rfl := Option.some.inj hprev
  exact ⟨hn, hp⟩

/-- The header of an empty ring leads to itself. -/
theorem Heap.IsRing.get?_empty (hr : h.IsRing l k) (hk : k.entries = []) :
    h.get? l = some ⟨l, l, .header k.record⟩ := by
  have hnodes : k.nodes = [] := by simp [Strip.nodes, hk]
  have hnext := hr.next?_header
  have hprev := hr.prev?_header
  rw [hnodes] at hnext hprev
  exact get?_of_parts hnext hprev hr.header

end

section
variable {w : World η σ α} {v : View η σ α} {l c : Addr} {k : Strip η α}

namespace World.Sound

theorem mem_blocks (hw : w.Sound v) {m a : Addr} (hm : m ∈ w.owners) (ha : a ∈ m :: w.nodes m) :
    a ∈ v.lists.flatMap Strip.blocks := by
  obtain ⟨k, hk⟩ := hw.mem_lists hm
  rw [hw.nodes_eq hk] at ha
  exact List.mem_flatMap.2 ⟨(m, k), hk, ha⟩

theorem lt_fresh (hw : w.Sound v) (hl : (l, k) ∈ v.lists) : l < v.fresh :=
  hw.shows.fresh ▸ (hw.ring hl).lt_size List.mem_cons_self

/-- A block that is there and is known is in a list. -/
theorem mem_of_known {a : Addr} {cell : Cell η α} (hw : w.Sound v)
    (ha : a ∈ v.lists.flatMap Strip.blocks ∨ v.fresh ≤ a)
    (hcell : w.store.heap.get? a = some cell) : ∃ m k, (m, k) ∈ v.lists ∧ a ∈ m :: k.nodes := by
  rcases ha with ha | ha
  · obtain ⟨⟨m, k⟩, hm, ha⟩ := List.mem_flatMap.1 ha
    exact ⟨m, k, hm, ha⟩
  · have hlt := Heap.lt_size_of_isSome (h := w.store.heap) (a := a) (by rw [hcell]; rfl)
    exact absurd (hw.shows.fresh ▸ hlt) (Nat.not_lt.2 ha)

/-- An empty list has no part in the links of another one. -/
theorem header_not_mem_blocks {m x a : Addr} {k' : Strip η α} (hw : w.Sound v)
    (hx : (x, k) ∈ v.lists) (hk : k.entries = []) (hm : (m, k') ∈ v.lists)
    (ha : a ∈ m :: k'.nodes) (hax : a ≠ x) : x ∉ m :: k'.nodes := by
  intro hmem
  obtain rfl := hw.eq_of_mem_blocks hx hm List.mem_cons_self hmem
  obtain rfl := (hw.ring hx).unique (hw.ring hm)
  have hnodes : k.nodes = [] := by simp [Strip.nodes, hk]
  rw [hnodes] at ha
  exact hax (List.mem_singleton.1 ha)

/-- A heap does not change when two empty lists with the same record stand for each other. -/
theorem coupled_swapping (hw : w.Sound v) (hl : (l, k) ∈ v.lists) (hc : (c, k) ∈ v.lists)
    (hk : k.entries = []) : w.store.heap.Coupled
      (.swapping v (hw.lt_fresh hl) (hw.lt_fresh hc)) w.store.heap := by
  refine ⟨rfl, Nat.le_of_eq hw.shows.fresh.symm, fun {a} ha => ?_, fun {a cell} ha hcell => ?_⟩
  · show w.store.heap.get? (Equiv.swap l c a) = _
    by_cases hal : a = l
    · rw [hal, Equiv.swap_apply_left, (hw.ring hl).get?_empty hk, (hw.ring hc).get?_empty hk]
      simp [Coupling.cell, Coupling.swapping, Content.map]
    by_cases hac : a = c
    · rw [hac, Equiv.swap_apply_right, (hw.ring hl).get?_empty hk, (hw.ring hc).get?_empty hk]
      simp [Coupling.cell, Coupling.swapping, Content.map]
    rw [Equiv.swap_apply_of_ne_of_ne hal hac]
    cases hcell : w.store.heap.get? a with
    | none => rfl
    | some cell =>
      -- a block of a third list leads to blocks of this list only
      obtain ⟨m, k', hm, ha⟩ := hw.mem_of_known ha hcell
      have hfix : ∀ {b}, b ∈ m :: k'.nodes → Equiv.swap l c b = b := fun hb =>
        Equiv.swap_apply_of_ne_of_ne
          (fun he => hw.header_not_mem_blocks hl hk hm ha hal (he ▸ hb))
          fun he => hw.header_not_mem_blocks hc hk hm ha hac (he ▸ hb)
      obtain ⟨hnext, hprev⟩ := (hw.ring hm).closed ha hcell
      simp [Coupling.cell, Coupling.swapping, hfix hnext, hfix hprev]
  · obtain ⟨m, k', hm, ha⟩ := hw.mem_of_known ha hcell
    obtain ⟨hnext, hprev⟩ := (hw.ring hm).closed ha hcell
    exact ⟨.inl (List.mem_flatMap.2 ⟨_, hm, hnext⟩), .inl (List.mem_flatMap.2 ⟨_, hm, hprev⟩)⟩

/-- A world is coupled with itself under other names, when two empty lists with the same record stand
for each other. -/
theorem coupled_rename (hw : w.Sound v) (h : w.OnTrack) (hl : (l, k) ∈ v.lists)
    (hc : (c, k) ∈ v.lists) (hk : k.entries = []) : w.Coupled
      (.swapping v (hw.lt_fresh hl) (hw.lt_fresh hc)) (w.rename (Equiv.swap l c)) where
  store := ⟨hw.coupled_swapping hl hc hk, rfl, rfl⟩
  holdings := {
    renamed := rfl
    lists := fun m hm => .inl (hw.mem_blocks (owners_of_lists hm) List.mem_cons_self)
    iterators := fun m hm => .inl (hw.mem_blocks (List.mem_append_right _ hm) List.mem_cons_self)
    seats := fun s hs hfresh => by
      have hown := owners_of_lists (h s hs hfresh).listed
      exact ⟨.inl (hw.mem_blocks hown List.mem_cons_self), fun a ha =>
        .inl (hw.mem_blocks hown (List.mem_cons_of_mem _ ((h s hs hfresh).next a ha).1))⟩ }

end World.Sound

/-- A step of coupled worlds is a step with other names, if the values stay. -/
theorem Step.Coupled.renamed {C : Coupling σ σ α α} {st st' : Step η σ α} (hvalue : C.value = id)
    (h : st.Coupled C st') : st.Renamed C.addr st' := by
  have hop : ∀ op : Op η α, C.op op = op.rename C.addr := fun op => by
    rw [Coupling.op, hvalue, Op.map_id]
  have houtcome : ∀ o : Outcome η α, C.outcome o = o.rename C.addr := fun o => by
    rw [Coupling.outcome, hvalue, Outcome.map_id]
  have hevent : ∀ e : Event η α, C.event e = e.rename C.addr := fun e => by
    rw [Coupling.event, hvalue, Event.map_id]
  refine ⟨h.op.trans (hop _), h.outcome.trans (houtcome _), ?_, ?_, fun m hm => ?_, fun m hm => ?_⟩
  · rw [h.events]
    exact List.map_congr_left fun e _ => hevent e
  · rw [World.owners, World.owners, h.after.holdings.renamed]
    simp [Holdings.owners, Holdings.rename]
  · exact h.after.store.heap.record? (h.after.known hm)
  · rw [h.after.store.heap.entries (h.after.known hm), hvalue]
    rfl

/-- **Empty lists with the same hooks and the same allocator are interchangeable**, whatever happened
to them before. -/
theorem World.Reachable.interchangeable {budgets : Array (Option Nat)} {hookState : σ} {r : Record η}
    (hw : w.Reachable B budgets hookState) (hl : l ∈ w.owners) (hc : c ∈ w.owners)
    (hr : w.store.heap.record? l = some r) (hr' : w.store.heap.record? c = some r)
    (hlength : r.length = 0) : w.Interchangeable B l c := by
  obtain ⟨v, -, hs, -⟩ := hw.sound
  obtain ⟨k, hk⟩ := hs.mem_lists hl
  obtain ⟨k', hk'⟩ := hs.mem_lists hc
  have hrecord : k.record = r := Option.some.inj ((hs.ring hk).record?_eq.symm.trans hr)
  have hrecord' : k'.record = r := Option.some.inj ((hs.ring hk').record?_eq.symm.trans hr')
  have hnil : ∀ {k : Strip η α}, k.record = r → k = ⟨r.hooks, r.allocator, []⟩ := by
    rintro ⟨hooks, allocator, es⟩ rfl
    obtain rfl : es = [] := List.eq_nil_of_length_eq_zero hlength
    rfl
  obtain rfl := hnil hrecord
  obtain rfl := hnil hrecord'
  intro ops
  have hops : (Coupling.swapping v (hs.lt_fresh hk) (hs.lt_fresh hk')).op =
      (Op.rename (Equiv.swap l c) : Op η α → Op η α) := by
    funext op
    exact congrArg _ op.map_id
  have hsteps := (hs.coupled_rename hw.onTrack hk hk' rfl).steps B.image_refl ops
  rw [hops] at hsteps
  exact hsteps.imp fun _ _ hst => hst.renamed rfl

end

end RingList
