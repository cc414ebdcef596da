import RingList.Proofs.Duplication
import RingList.Proofs.Seats
import RingList.Proofs.Sweep

/-!
# Iterators

Values of a list are taken from its two ends in three ways: a borrowed iterator walks along links that
stay what they are, an owning iterator pops values out of the list, and a cursor follows the links
in one direction. Along every word all three get what a sweep of the list's entries gets.

* `World.Sound.take_step`, `take_run`: an owning iterator yields what a sweep yields, and is left with
  what remains.
* `World.Sound.step_run`: the nodes that a cursor returns.
* `World.Lockstep`: the three ways agree on a word, and what becomes of the owning iterator.
* `World.iterators_agree`: they do after every run.
-/

set_option autoImplicit false

namespace RingList

variable {η σ α : Type} {B : Behaviour η σ α}

/-- The direction of a cursor that starts at an end. -/
def End.direction : End → Direction
  | .front => .forward
  | .back => .backward

theorem End.order_direction (e : End) (ns : List Addr) : e.direction.order ns = e.order ns := by
  cases e <;> rfl

/-- The step takes the next value out of the owning iterator `l` of a list with this allocator: `t`
is the value with its node, if there is one, and how many are left then. The node is given back, and
no value is destroyed. -/
structure Step.TakesOut (l : Addr) (source : Allocator) (st : Step η σ α)
    (t : Option (Addr × α) × Nat) : Prop where
  outcome : st.outcome = .answered (.value (t.1.map (·.2)))
  left : st.after.read (RingList.length l) = .ok t.2
  events : st.events = (t.1.map fun p => Event.released source p.1 .node).toList

namespace World

/-- Taking a value out leaves the program what it holds on to. -/
theorem holdings_take (w : World η σ α) (l : Addr) (e : End) :
    (w.perform B (.take l e)).2.holdings = w.holdings := by
  have hact : (Op.take l e : Op η α).act B w.holdings =
    pop l e >>= fun x => pure (.value x, w.holdings) := rfl
  unfold perform
  cases (Op.take l e : Op η α).check w with
  | error why => rfl
  | ok u => exact proceed_holdings (P := fun t => t = w.holdings) hact rfl fun _ => rfl

theorem perform_intoIter {w : World η σ α} {l : Addr} (hl : l ∈ w.holdings.lists) :
    w.perform B (.intoIter l) =
      (.answered (.iterator l), ⟨w.store, (w.holdings.endList l).addIterator l⟩) := by
  have hcheck : (Op.intoIter l : Op η α).check w = .ok () := expectList_of_lists hl
  rw [perform_of_ok hcheck]
  rfl

namespace Sound

variable {w : World η σ α} {v : View η σ α} {l : Addr} {k : Strip η α}

/-! ## Owning iterators -/

/-- **One step of an owning iterator** takes out the value at the end and leaves the others. -/
theorem take_step (hw : w.Sound v) (hl : (l, k) ∈ v.lists) (hit : l ∈ w.holdings.iterators)
    (e : End) : ∃ v', (w.perform B (.take l e)).2.Sound v' ∧
      (l, { k with entries := (e.take k.entries).2 }) ∈ v'.lists ∧
      (w.stepOf B (.take l e)).TakesOut l k.allocator
        ((e.take k.entries).1, (e.take k.entries).2.length) := by
  have hcheck : (Op.take l e : Op η α).check w = .ok () := expectIterator_of_iterators hit
  obtain ⟨v', hst⟩ := hw.step (B := B) (.take l e)
  have hw' : (w.perform B (.take l e)).2.Sound v' := hst.after
  rcases hst.effect.of_take with ⟨why, hwhy, -⟩ | ⟨k', hl', hnil, ho, rfl⟩ |
    ⟨k', rest, xs, a, x, ys, hp, ht, ho, rfl⟩
  · exact absurd hwhy (perform_ne_misused hcheck why)
  · obtain rfl := (hw.ring hl).unique (hw.ring hl')
    have hsame : (e.take k.entries) = (none, k.entries) := by rw [hnil, End.take_nil]
    rw [hsame]
    exact ⟨_, hw', hl, ho, hw'.read_eq (length_yields hl), hst.events_eq (by simp)⟩
  · obtain rfl := (hw.ring hl).unique (hw.ring (hp.mem_iff.2 List.mem_cons_self))
    have htake : e.take k.entries = (some (a, x), xs ++ ys) := by
      cases ht with
      | takeFront hes => rw [hes]; rfl
      | takeBack hes => rw [hes]; simp [End.take]
    have hleft := hw'.read_eq (length_yields (l := l) List.mem_cons_self)
    rw [htake]
    exact ⟨_, hw', List.mem_cons_self, ho, hleft, hst.events_eq rfl⟩

/-- **An owning iterator** yields along a word what a sweep of its entries yields, and is left with
what remains of them. -/
theorem take_run (word : List End) (hw : w.Sound v) (hl : (l, k) ∈ v.lists)
    (hit : l ∈ w.holdings.iterators) :
    List.Forall₂ (Step.TakesOut l k.allocator) (w.steps B (word.map (.take l)))
        (sweep word k.entries) ∧
      l ∈ (w.run B (word.map (.take l))).2.holdings.iterators ∧
      ∃ v', (w.run B (word.map (.take l))).2.Sound v' ∧
        (l, { k with entries := remains word k.entries }) ∈ v'.lists := by
  induction word generalizing w v k with
  | nil => exact ⟨.nil, hit, v, hw, hl⟩
  | cons e word ih =>
    obtain ⟨v', hw', hl', htakes⟩ := hw.take_step (B := B) hl hit e
    obtain ⟨hrest, hend⟩ := ih hw' hl' (holdings_take w l e ▸ hit)
    exact ⟨.cons htakes hrest, hend⟩

/-! ## Cursors -/

/-- **A cursor returns node after node** as long as its list stays what it is. -/
theorem step_run {c : Nat} {s : Seat} {xs ns ys : List Addr} (hw : w.Sound v)
    (hl : (s.cursor.header, k) ∈ v.lists) (hs : w.holdings.seats[c]? = some s)
    (hfresh : s.stale = false) (hk : s.cursor.direction.order k.nodes = xs ++ (ns ++ ys))
    (hnext : s.cursor.next = (ns ++ ys).head?) :
    (w.run B (List.replicate ns.length (.step c))).1 =
      ns.map fun a => .answered (.node (some a)) := by
  induction ns generalizing w v s xs with
  | nil => rfl
  | cons a ns ih =>
    obtain ⟨ho, hholds⟩ := hw.perform_step (B := B) hs hfresh (step_yields hl hk hnext)
    have hout : s.cursor.header ∉ (.step c : Op η α).targets := List.not_mem_nil
    obtain ⟨v', hw', hl'⟩ := hw.stays (B := B) hl hout
    have hlt := (Array.getElem?_eq_some_iff.1 hs).1
    let moved : Seat :=
      { s with cursor := { s.cursor with next := (ns ++ ys).head? }, last := some a }
    have hs' : (w.perform B (.step c)).2.holdings.seats[c]? = some moved := by
      rw [hholds]
      exact Array.getElem?_setIfInBounds_self_of_lt hlt
    have hk' : moved.cursor.direction.order k.nodes = (xs ++ [a]) ++ (ns ++ ys) := by
      simpa [moved] using hk
    rw [List.length_cons, List.replicate_succ, run_cons, ho]
    exact congrArg (_ :: ·) (ih (s := moved) hw' hl' hs' hfresh hk' rfl)

/-- The nodes that a new cursor returns, from its end of the list on. -/
theorem cursor_run {d : Direction} {ns : List Addr} (hw : w.Sound v) (hl : (l, k) ∈ v.lists)
    (hlists : l ∈ w.holdings.lists) (hns : ns <+: d.order k.nodes) :
    (w.run B (.cursor l d :: List.replicate ns.length (.step w.holdings.seats.size))).1 =
      .answered (.cursor w.holdings.seats.size) :: ns.map fun a => .answered (.node (some a)) := by
  have hcheck : (Op.cursor l d : Op η α).check w = .ok () := expectList_of_lists hlists
  obtain ⟨s', hrun⟩ := hw.perform_of_yields hcheck (Op.act_cursor d) (seat_yields hl d)
  have hout : l ∉ (.cursor l d : Op η α).targets := List.not_mem_nil
  obtain ⟨v', hw', hl'⟩ := hw.stays (B := B) hl hout
  obtain ⟨ys, hys⟩ := hns
  have hs : (w.perform B (.cursor l d)).2.holdings.seats[w.holdings.seats.size]? =
      some { cursor := ⟨(d.order k.nodes).head?, l, d⟩ } := by
    rw [hrun]
    exact Array.getElem?_push_size
  have hk : d.order k.nodes = [] ++ (ns ++ ys) := hys.symm
  have hsteps := hw'.step_run (B := B) hl' hs rfl hk (congrArg List.head? hk)
  rw [run_cons, hsteps, hrun]
  rfl

/-! ## New lists -/

/-- **A list is made of given values** if there is memory for it. -/
theorem collect_step {xs : List α} (hw : w.Sound v)
    (hs : w.store.supplies .global (xs.length + 1) = true) :
    (w.perform B (.collect xs)).1 = .answered (.list w.store.heap.size) ∧
      w.store.heap.size ∈ (w.perform B (.collect xs)).2.holdings.lists ∧
      ∃ v' es, (w.perform B (.collect xs)).2.Sound v' ∧ es.map (·.2) = xs ∧
        (w.store.heap.size, ⟨{}, .global, es⟩) ∈ v'.lists := by
  have hcheck : (Op.collect xs : Op η α).check w = .ok () := by simp [Op.check, expectSupply, hs]
  have hact : (Op.collect xs).act B w.holdings = (do
      let l ← RingList.create .global
      RingList.extend l xs
      return l) >>= fun l => pure (.list l, w.holdings.addList l) := by
    simp [Op.act]
  rw [hw.shows.supplies] at hs
  obtain ⟨s', hrun⟩ := hw.perform_of_yields hcheck hact (collect_yields hs)
  obtain ⟨v', hw', he⟩ := hw.perform (B := B) (.collect xs)
  rw [hw.shows.fresh]
  rcases he.of_collect with ⟨why, hwhy, -⟩ | ⟨-, rfl⟩
  · rw [hrun] at hwhy
    cases hwhy
  · refine ⟨by rw [hrun], ?_, _, numbered (v.fresh + 1) xs, hw', numbered_values _ _,
      List.mem_cons_self⟩
    rw [hrun]
    exact List.mem_append_right _ (List.mem_singleton_self _)

end Sound

/-! ## All three -/

/-- **Iterators and cursors in lockstep** along a word, on the list `l` of a program, which has the
record `r`: what they get is `taken`, and `rest` is left. -/
structure Lockstep (B : Behaviour η σ α) (w : World η σ α) (l : Addr) (r : Record η)
    (word : List End) (taken : List (Option (Addr × α) × Nat)) (rest : List (Addr × α)) : Prop where
  /-- A borrowed iterator yields the values, and knows how many are left. -/
  borrowed : (w.perform B (.iterate l word)).1 =
    .answered (.taken (taken.map fun t => (t.1.map (·.2), t.2)))
  /-- It finds them in these nodes. -/
  places : w.read (do (← Iter.start l).placesAlong word) =
    .ok (taken.map fun t => t.1.map (·.1))
  /-- The list may be given to an owning iterator. -/
  given : (w.perform B (.intoIter l)).1 = .answered (.iterator l)
  /-- That yields the same values out of the same nodes, and knows how many are left. -/
  owned : List.Forall₂ (Step.TakesOut l r.allocator)
    ((w.perform B (.intoIter l)).2.steps B (word.map (.take l))) taken
  /-- A cursor from an end of the list returns the nodes of the values that are yielded there. -/
  cursors : ∀ e : End, let handles := (yielded e word taken).map (·.1)
    (w.run B (.cursor l e.direction ::
      List.replicate handles.length (.step w.holdings.seats.size))).1 =
      .answered (.cursor w.holdings.seats.size) ::
        handles.map fun a => .answered (.node (some a))
  /-- What is left are the entries behind those from the front and before those from the back. -/
  positions : rest = ((w.store.heap.entries l).drop (yielded .front word taken).length).take
    ((w.store.heap.entries l).length - (yielded .front word taken).length -
      (yielded .back word taken).length)
  /-- No node of a yielded value is left. -/
  apart : ∀ e : End, ∀ p ∈ yielded e word taken, p.1 ∉ rest.map (·.1)
  /-- The owning iterator has a well-formed list of what is left, with the same hooks and the same
  allocator. -/
  left : let w' := (w.run B (.intoIter l :: word.map (.take l))).2
    l ∈ w'.holdings.iterators ∧ w'.ListInvariant l rest.length ∧
      w'.store.heap.entries l = rest ∧
      w'.store.heap.record? l = some { r with length := rest.length }
  /-- If it is dropped then, exactly what is left is destroyed, from the front on. -/
  dropped : let st := (w.run B (.intoIter l :: word.map (.take l))).2.stepOf B (.dropIter l)
    ∃ stop, st.outcome = .ofStop .done stop ∧
      Destruction r.hooks r.allocator l rest stop st.events

/-- **The iterators of a program agree.** -/
structure IteratorsAgree (B : Behaviour η σ α) (w : World η σ α) : Prop where
  /-- On every list and every word. -/
  lockstep : ∀ l ∈ w.holdings.lists, ∃ r, w.store.heap.record? l = some r ∧
    ∀ word, w.Lockstep B l r word (sweep word (w.store.heap.entries l))
      (remains word (w.store.heap.entries l))
  /-- A list that is made of given values gives them back, in order or in the reverse order, and then
  nothing. -/
  collected : ∀ (xs : List α) (e : End), w.store.supplies .global (xs.length + 1) = true →
    let l := w.store.heap.size
    (w.run B (.collect xs :: .intoIter l :: List.replicate (xs.length + 1) (.take l e))).1 =
      .answered (.list l) :: .answered (.iterator l) ::
        ((e.order xs).map (fun x => .answered (.value (some x))) ++ [.answered (.value none)])

namespace Sound

variable {w : World η σ α} {v : View η σ α} {l : Addr} {k : Strip η α}

/-- A list is given to an owning iterator as it is. -/
theorem intoIter_step (hw : w.Sound v) (hl : (l, k) ∈ v.lists) (hlists : l ∈ w.holdings.lists) :
    ∃ v', (w.perform B (.intoIter l)).2.Sound v' ∧ (l, k) ∈ v'.lists ∧
      l ∈ (w.perform B (.intoIter l)).2.holdings.iterators := by
  have hout : l ∉ (.intoIter l : Op η α).targets := List.not_mem_nil
  obtain ⟨v', hw', hl'⟩ := hw.stays (B := B) hl hout
  refine ⟨v', hw', hl', ?_⟩
  rw [perform_intoIter hlists]
  exact List.mem_append_right _ (List.mem_singleton_self l)

/-- A step that ends an owning iterator destroys its list. -/
theorem dropIter_step (hw : w.Sound v) (hl : (l, k) ∈ v.lists) (hit : l ∈ w.holdings.iterators) :
    ∃ stop, (w.stepOf B (.dropIter l)).outcome = .ofStop .done stop ∧
      Destruction k.hooks k.allocator l k.entries stop (w.stepOf B (.dropIter l)).events := by
  have hcheck : (Op.dropIter l : Op η α).check w = .ok () := expectIterator_of_iterators hit
  obtain ⟨v', hst⟩ := hw.step (B := B) (.dropIter l)
  rcases hst.effect.of_ends rfl with ⟨why, hwhy, -⟩ | ⟨k', rest, hp, ho, rfl⟩
  · exact absurd hwhy (perform_ne_misused hcheck why)
  · obtain rfl := (hw.ring hl).unique (hw.ring (hp.mem_iff.2 List.mem_cons_self))
    refine ⟨_, ho, ?_⟩
    rw [hst.events_eq rfl]
    exact destruction_teardown B .ordinary k.hooks k.allocator l k.entries v.hookState

theorem lockstep (hw : w.Sound v) (hl : (l, k) ∈ v.lists) (hlists : l ∈ w.holdings.lists)
    (word : List End) :
    w.Lockstep B l k.record word (sweep word k.entries) (remains word k.entries) := by
  have hentries : w.store.heap.entries l = k.entries := (hw.ring hl).entries_eq
  have hstart := Iter.at_start l k.entries
  obtain ⟨v₁, hw₁, hl₁, hit⟩ := hw.intoIter_step (B := B) hl hlists
  obtain ⟨htakes, hit', v₂, hw₂, hl₂⟩ := hw₁.take_run (B := B) word hl₁ hit
  refine ⟨?_, ?_, ?_, htakes, fun e => ?_, ?_, fun e p hp hmem => ?_, ?_, ?_⟩
  · have hcheck : (Op.iterate l word : Op η α).check w = .ok () := expectList_of_lists hlists
    have hact : (Op.iterate l word : Op η α).act B w.holdings =
      (do (← Iter.start l).along word) >>= fun ts => pure (.taken ts, w.holdings) := rfl
    obtain ⟨s', hrun⟩ := hw.perform_of_yields hcheck hact
      ((iterStart_yields hl).bind (along_yields hl word List.infix_rfl hstart))
    rw [hrun]
  · exact hw.read_eq ((iterStart_yields hl).bind
      (placesAlong_yields hl word List.infix_rfl hstart))
  · rw [perform_intoIter hlists]
  · refine hw.cursor_run hl hlists ?_
    rw [e.order_direction, Strip.nodes, ← e.map_order]
    exact (yielded_first e word k.entries).map _
  · rw [hentries]
    exact remains_eq word k.entries
  · exact not_mem_remains (hw.ring hl).nodup hp hmem
  · exact ⟨hit', hw₂.listInvariant hl₂, (hw₂.ring hl₂).entries_eq, (hw₂.ring hl₂).record?_eq⟩
  · exact hw₂.dropIter_step hl₂ hit'

/-- The outcomes of taking values out. -/
theorem outcomes_of_takesOut {source : Allocator} {sts : List (Step η σ α)}
    {ts : List (Option (Addr × α) × Nat)} (h : List.Forall₂ (Step.TakesOut l source) sts ts) :
    sts.map (·.outcome) = (ts.map (·.1)).map fun p => .answered (.value (p.map (·.2))) := by
  induction h with
  | nil => rfl
  | cons ht h ih => rw [List.map_cons, ih, ht.outcome]; rfl

/-- **Collected values come back.** -/
theorem collected {xs : List α} (hw : w.Sound v) (e : End)
    (hs : w.store.supplies .global (xs.length + 1) = true) :
    let l := w.store.heap.size
    (w.run B (.collect xs :: .intoIter l :: List.replicate (xs.length + 1) (.take l e))).1 =
      .answered (.list l) :: .answered (.iterator l) ::
        ((e.order xs).map (fun x => .answered (.value (some x))) ++ [.answered (.value none)]) := by
  intro l
  obtain ⟨ho, hlists, v₁, es, hw₁, rfl, hl₁⟩ := hw.collect_step (B := B) hs
  obtain ⟨v₂, hw₂, hl₂, hit⟩ := hw₁.intoIter_step (B := B) hl₁ hlists
  have hword : List.replicate ((es.map (·.2)).length + 1) (.take l e : Op η α) =
      (List.replicate (es.length + 1) e).map (.take l) := by simp
  obtain ⟨htakes, -⟩ := hw₂.take_run (B := B) (List.replicate (es.length + 1) e) hl₂ hit
  have houtcomes := outcomes_of_takesOut htakes
  rw [map_outcome_steps, sweep_all, ← hword] at houtcomes
  rw [run_cons, run_cons, houtcomes, ho, perform_intoIter hlists, ← e.map_order]
  simp [l]

end Sound

/-- **After every run the iterators agree.** -/
theorem iterators_agree (B : Behaviour η σ α) (budgets : Array (Option Nat)) (hookState : σ)
    (ops : List (Op η α)) : ((World.start budgets hookState).run B ops).2.IteratorsAgree B := by
  obtain ⟨v, hw, -⟩ := World.ledger_run B budgets hookState ops
  generalize ((World.start budgets hookState).run B ops).2 = w at hw ⊢
  refine ⟨fun l hlists => ?_, fun xs e hs => hw.collected e hs⟩
  obtain ⟨k, hl⟩ := hw.mem_lists (owners_of_lists hlists)
  refine ⟨k.record, (hw.ring hl).record?_eq, fun word => ?_⟩
  rw [(hw.ring hl).entries_eq]
  exact hw.lockstep hl hlists word

end World

end RingList
