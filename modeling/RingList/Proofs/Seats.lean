import RingList.Proofs.Holdings
import RingList.Proofs.Separation

/-!
# Cursors that a program holds on to

What the steps of a cursor yield, by the order in which the cursor meets the nodes of its list, and
what operations do to the cursors of a program.

* `follow_yields`: one link is followed in a direction; `step_yields`, `seat_yields`: so does a
  cursor.
* `World.Sound.perform_seat`: a cursor stays where it is unless the operation moves it.
* `World.Sound.perform_step`, `perform_cursor`, `perform_rewind`, `perform_clone`: how it is moved
  and made.
-/

set_option autoImplicit false

namespace RingList

variable {η σ α : Type} {B : Behaviour η σ α}

/-! ## The steps of a cursor -/

/-- The nodes in the order in which a cursor with this direction meets them. -/
def Direction.order : Direction → List Addr → List Addr
  | .forward, ns => ns
  | .backward, ns => ns.reverse

namespace Direction

variable (d : Direction) {ns ns' : List Addr} {a : Addr}

@[simp] theorem mem_order : a ∈ d.order ns ↔ a ∈ ns := by cases d <;> simp [order]

@[simp] theorem nodup_order : (d.order ns).Nodup ↔ ns.Nodup := by cases d <;> simp [order]

theorem order_filter (p : Addr → Bool) : (d.order ns).filter p = d.order (ns.filter p) := by
  cases d <;> simp [order]

end Direction

section
variable {v : View η σ α} {l a : Addr} {k : Strip η α} {xs ys : List Addr} {c : Cursor}

/-- **The link from the header** leads to the first node of the walk, or back to the header. -/
theorem follow_header_yields (hl : (l, k) ∈ v.lists) (d : Direction) :
    Yields (d.follow l) v ((d.order k.nodes).head?.getD l) v := by
  cases d with
  | forward => exact nextOf_header_yields hl
  | backward =>
    rw [Direction.order, List.head?_reverse]
    exact prevOf_header_yields hl

/-- **The link from a node** leads to the node behind it in the order of the walk, or to the
header. -/
theorem follow_yields {d : Direction} (hl : (l, k) ∈ v.lists)
    (hk : d.order k.nodes = xs ++ a :: ys) : Yields (d.follow a) v (ys.head?.getD l) v := by
  intro s hs
  have hr := hs.lists.ring (l, k) hl
  cases d with
  | forward => exact ⟨s, nextOf_run (hr.next?_node hk), hs⟩
  | backward =>
    have hk' : k.nodes = ys.reverse ++ a :: xs.reverse := by
      have hrev := congrArg List.reverse (show k.nodes.reverse = _ from hk)
      simpa using hrev
    have hp := hr.prev?_node hk'
    rw [List.getLast?_reverse] at hp
    exact ⟨s, prevOf_run hp, hs⟩

theorem handle_order {d : Direction} {ns : List Addr} (hout : l ∉ ns) (hk : d.order ns = xs ++ ys) :
    handle l (ys.head?.getD l) = ys.head? := by
  refine handle_head fun hm => hout ((d.mem_order).1 ?_)
  rw [hk]
  exact List.mem_append_right _ hm

/-- **A cursor starts** at the first node that it meets. -/
theorem seat_yields (hl : (l, k) ∈ v.lists) (d : Direction) :
    Yields (Cursor.seat l d) v ⟨(d.order k.nodes).head?, l, d⟩ v := by
  intro s hs
  have hout : l ∉ k.nodes := (hs.lists.ring (l, k) hl).header_not_mem
  have hnext : handle l ((d.order k.nodes).head?.getD l) = (d.order k.nodes).head? :=
    handle_order hout (List.nil_append _).symm
  rw [← hnext]
  exact (follow_header_yields hl d).map (fun a => Cursor.mk (handle l a) l d) s hs

/-- **A cursor moves** to the node that it meets behind the one that it returns. -/
theorem step_yields (hl : (c.header, k) ∈ v.lists)
    (hk : c.direction.order k.nodes = xs ++ a :: ys) (hnext : c.next = some a) :
    Yields c.step v (some a, { c with next := ys.head? }) v := by
  intro s hs
  have hout : c.header ∉ k.nodes := (hs.lists.ring (c.header, k) hl).header_not_mem
  have hk' : c.direction.order k.nodes = (xs ++ [a]) ++ ys := by simp [hk]
  have hnext' : handle c.header (ys.head?.getD c.header) = ys.head? := handle_order hout hk'
  unfold Cursor.step
  rw [hnext, ← hnext']
  exact (follow_yields hl hk).map (fun b => (some a, { c with next := handle c.header b })) s hs

/-- **A cursor moves past** the node that it returns, to another node of its list or to the end. -/
theorem step_yields_some {s : Store η σ α} (hs : s.Shows v) (hl : (c.header, k) ∈ v.lists)
    (ha : a ∈ k.nodes) (hnext : c.next = some a) : ∃ next,
      Yields c.step v (some a, { c with next }) v ∧ ∀ b ∈ next, b ∈ k.nodes ∧ b ≠ a := by
  obtain ⟨xs, ys, hsplit⟩ := List.append_of_mem ((c.direction.mem_order).2 ha)
  have hnd : (xs ++ a :: ys).Nodup :=
    hsplit ▸ c.direction.nodup_order.2 (hs.lists.ring (c.header, k) hl).nodup
  have hout : a ∉ ys := (List.nodup_cons.1 (List.nodup_append.1 hnd).2.1).1
  refine ⟨ys.head?, step_yields hl hsplit hnext, fun b hb => ?_⟩
  have hys : b ∈ ys := List.mem_of_mem_head? hb
  have hord : b ∈ c.direction.order k.nodes := hsplit ▸ by simp [hys]
  exact ⟨(c.direction.mem_order).1 hord, fun he => hout (he ▸ hys)⟩

/-- A cursor at the end stays there. -/
theorem step_yields_none (v : View η σ α) (hnext : c.next = none) : Yields c.step v (none, c) v := by
  intro s hs
  unfold Cursor.step
  rw [hnext]
  exact ⟨s, rfl, hs⟩

end

/-! ## Cursors that may still be used -/

section
variable {s : Seat} {t : Holdings} {l : Addr} {ns : List Addr}

/-- A cursor that is not stale after nodes left a list is what it was, and if it is on that list they
are all the node that it returned last. -/
theorem Seat.fresh_of_afterDeparture (h : (s.afterDeparture l ns).stale = false) :
    s.afterDeparture l ns = s ∧ (s.list = l → ∀ a ∈ ns, s.last = some a) := by
  unfold afterDeparture at *
  split at h
  · cases h
  · next hout =>
    refine ⟨if_neg hout, fun hl a ha => ?_⟩
    by_contra hne
    exact hout ⟨hl, List.any_eq_true.2 ⟨a, ha, by simpa using Ne.symm hne⟩⟩

theorem Seat.fresh_of_afterEnd (h : (s.afterEnd l).stale = false) :
    s.afterEnd l = s ∧ s.list ≠ l := by
  unfold afterEnd at *
  split at h
  · cases h
  · next hout => exact ⟨if_neg hout, hout⟩

theorem Holdings.fresh_of_depart (hs : s ∈ (t.depart l ns).seats) (hfresh : s.stale = false) :
    s ∈ t.seats ∧ (s.list = l → ∀ a ∈ ns, s.last = some a) := by
  obtain ⟨s₀, hs₀, rfl⟩ := Array.mem_map.1 hs
  obtain ⟨hsame, hlast⟩ := Seat.fresh_of_afterDeparture hfresh
  rw [hsame]
  exact ⟨hs₀, hlast⟩

theorem Holdings.fresh_of_endList (hs : s ∈ (t.endList l).seats) (hfresh : s.stale = false) :
    s ∈ t.seats ∧ s.list ≠ l := by
  obtain ⟨s₀, hs₀, rfl⟩ := Array.mem_map.1 hs
  obtain ⟨hsame, hne⟩ := Seat.fresh_of_afterEnd hfresh
  rw [hsame]
  exact ⟨hs₀, hne⟩

end

/-! ## Cursors that stay -/

namespace World

variable {w : World η σ α} {v : View η σ α} {op : Op η α}

/-- The cursor `c` is where the cursor `s` was before the operation. It is stale only if it was
before, if a node leaves its list that it did not return last, or if its list is named no more. -/
def KeepsSeat (w : World η σ α) (op : Op η α) (c : Nat) (s : Seat) (t : Holdings) : Prop :=
  ∃ s', t.seats[c]? = some s' ∧ s'.cursor = s.cursor ∧ s'.last = s.last ∧
    (s'.stale = true → s.stale = true ∨
      (∃ a ∈ op.leaving s.list (w.nodes s.list), some a ≠ s.last) ∨ s.list ∉ t.lists)

namespace KeepsSeat

variable {c : Nat} {s : Seat} {l : Addr}

theorem refl {t : Holdings} (hs : t.seats[c]? = some s) : w.KeepsSeat op c s t :=
  ⟨s, hs, rfl, rfl, .inl⟩

/-- The nodes `ns` go from the list `l`. -/
theorem departed {ns : List Addr} (hs : w.holdings.seats[c]? = some s)
    (hns : s.list = l → ∀ a ∈ ns, a ∈ op.leaving s.list (w.nodes s.list)) :
    w.KeepsSeat op c s (w.holdings.depart l ns) := by
  refine ⟨s.afterDeparture l ns, by simp [Holdings.depart, hs], ?_⟩
  unfold Seat.afterDeparture
  split
  · next h =>
    obtain ⟨a, ha, hne⟩ := List.any_eq_true.1 h.2
    exact ⟨rfl, rfl, fun _ => .inr (.inl ⟨a, hns h.1 a ha, by simpa using hne⟩)⟩
  · exact ⟨rfl, rfl, .inl⟩

/-- A list that is ended is named no more. -/
theorem ended (hs : w.holdings.seats[c]? = some s) (hnd : w.holdings.lists.Nodup) :
    w.KeepsSeat op c s (w.holdings.endList l) := by
  refine ⟨s.afterEnd l, by simp [Holdings.endList, hs], ?_⟩
  unfold Seat.afterEnd
  split
  · next h => exact ⟨rfl, rfl, fun _ => .inr (.inr (h ▸ hnd.not_mem_erase))⟩
  · exact ⟨rfl, rfl, .inl⟩

end KeepsSeat

namespace Sound

variable {c : Nat} {s : Seat} {l : Addr} {k : Strip η α}

theorem first?_eq (hw : w.Sound v) (hl : (l, k) ∈ v.lists) :
    w.store.heap.first? l = (w.nodes l).head? := by
  have hr := hw.ring hl
  rw [hw.nodes_eq hl, ← handle_head hr.header_not_mem]
  obtain ⟨cell, hcell, hnext⟩ := Option.map_eq_some_iff.1 hr.next?_header
  simp only [Heap.first?, hcell, Option.bind_some, hnext, handle]

theorem last?_eq (hw : w.Sound v) (hl : (l, k) ∈ v.lists) :
    w.store.heap.last? l = (w.nodes l).getLast? := by
  have hr := hw.ring hl
  rw [hw.nodes_eq hl, ← handle_getLast hr.header_not_mem]
  obtain ⟨cell, hcell, hprev⟩ := Option.map_eq_some_iff.1 hr.prev?_header
  simp only [Heap.last?, hcell, Option.bind_some, hprev, handle]

/-- A list that a program names no more is not named again. -/
theorem not_mem_lists (hw : w.Sound v) (hl : l ∈ w.owners) (hout : l ∉ w.holdings.lists) :
    l ∉ (w.perform B op).2.holdings.lists := by
  intro hmem
  rcases holds_perform B w op with he | ⟨-, h⟩
  · exact hout (he ▸ hmem)
  · rcases h.lists with hsub | hit
    · exact hout (hsub l hmem)
    · obtain ⟨v', hw', -⟩ := hw.perform (B := B) op
      have hl' : l ∈ (w.perform B op).2.holdings.iterators :=
        hit ▸ (List.mem_append.1 hl).resolve_left hout
      exact (List.nodup_append.1 hw'.nodup_owners).2.2 l hmem l hl' rfl

/-- **What an operation takes** leaves a cursor where it is. -/
theorem takes_seat (hw : w.Sound v) (hc : op.check w = .ok ())
    (hs : w.holdings.seats[c]? = some s) : w.KeepsSeat op c s (op.takes w) := by
  have hnd : w.holdings.lists.Nodup := (List.nodup_append.1 hw.nodup_owners).1
  cases op with
  | delete l a =>
    refine .departed (l := l) hs fun hl b hb => ?_
    simpa [Op.leaving, hl] using hb
  | popFront l =>
    obtain ⟨k, hk⟩ := hw.mem_lists (owners_of_expectList hc)
    refine .departed (l := l) hs fun hl b hb => ?_
    rw [hw.first?_eq hk] at hb
    simpa [Op.leaving, hl] using hb
  | popBack l =>
    obtain ⟨k, hk⟩ := hw.mem_lists (owners_of_expectList hc)
    refine .departed (l := l) hs fun hl b hb => ?_
    rw [hw.last?_eq hk] at hb
    simpa [Op.leaving, hl] using hb
  | clear l =>
    refine .departed (l := l) hs fun hl b hb => ?_
    simpa [Op.leaving, hl] using hb
  | join l m =>
    refine .departed (l := m) hs fun hl b hb => ?_
    simpa [Op.leaving, hl] using hb
  | destroy l => exact .ended hs hnd
  | intoIter l => exact .ended hs hnd
  | _ => exact .refl hs

/-- **A cursor stays where it is** unless the operation moves it. -/
theorem perform_seat (hw : w.Sound v) (hs : w.holdings.seats[c]? = some s)
    (hop : op.moves? = some c → ∃ why, (w.perform B op).1 = .misused why) :
    w.KeepsSeat op c s (w.perform B op).2.holdings := by
  by_cases hmoves : op.moves? = some c
  · obtain ⟨why, hwhy⟩ := hop hmoves
    rw [(perform_misused hwhy).2]
    exact .refl hs
  · rcases holds_perform B w op with he | ⟨hc, h⟩
    · rw [he]
      exact .refl hs
    · generalize (w.perform B op).2.holdings = t at h ⊢
      cases h with
      | taken => exact hw.takes_seat hc hs
      | listed l htakes => exact .refl hs
      | iterating hop =>
        subst hop
        exact hw.takes_seat hc hs
      | seated s₁ htakes =>
        refine .refl ?_
        obtain ⟨hlt, hget⟩ := Array.getElem?_eq_some_iff.1 hs
        simp only [Holdings.addSeat, Array.getElem?_push_lt hlt, hget]
      | @moved c' s₁ hop htakes =>
        have hne : c' ≠ c := fun he => hmoves (he ▸ hop)
        refine .refl ?_
        simp only [Holdings.setSeat, Array.getElem?_setIfInBounds_ne hne]
        exact hs

/-- An operation that is answered was checked. -/
theorem check_of_answered {a : Answer η α} (h : (w.perform B op).1 = .answered a) :
    op.check w = .ok () :=
  check_of_ne_misused fun why hwhy => by cases h.symm.trans hwhy

/-- An operation whose action yields something answers it. -/
theorem perform_of_yields {β : Type} {act : Action η σ α β} {answer : β → Answer η α}
    {hold : β → Holdings} {b : β} {v' : View η σ α} (hw : w.Sound v) (hc : op.check w = .ok ())
    (hact : op.act B (op.takes w) = act >>= fun b => pure (answer b, hold b))
    (hy : Yields act v b v') :
    ∃ s', w.perform B op = (.answered (answer b), ⟨s', hold b⟩) := by
  obtain ⟨s', hrun, -⟩ := hy w.store hw.shows
  refine ⟨s', ?_⟩
  rw [perform_of_ok hc]
  exact proceed_of_ok ((congrFun hact _).trans (bind_ok hrun))

/-- A cursor that is not stale may be used. -/
theorem expectFresh_eq {β : Type} {f : Seat → Except Misuse β}
    (hs : w.holdings.seats[c]? = some s) (hfresh : s.stale = false) :
    (w.expectFresh c >>= f) = f s := by
  have hc : w.expectFresh c = .ok s := by
    simp [expectFresh, expectCursor, hs, hfresh, bind, Except.bind]
  rw [hc]
  rfl

theorem fresh_of_expectFresh {β : Type} {f : Seat → Except Misuse β} {b : β}
    (hs : w.holdings.seats[c]? = some s) (h : w.expectFresh c >>= f = .ok b) :
    s.stale = false := by
  obtain ⟨s', hs', -⟩ := bind_ok_inv h
  simp only [expectFresh, expectCursor, hs, bind, Except.bind] at hs'
  split at hs'
  · cases hs'
  · next hstale => simpa using hstale

/-- **A program makes a cursor.** -/
theorem perform_cursor {d : Direction} (hw : w.Sound v)
    (h : (w.perform B (.cursor l d)).1 = .answered (.cursor c)) :
    l ∈ w.holdings.lists ∧ (w.perform B (.cursor l d)).2.holdings =
      w.holdings.addSeat { cursor := ⟨(d.order (w.nodes l)).head?, l, d⟩ } ∧
      c = w.holdings.seats.size := by
  have hc := check_of_answered h
  have hlists := lists_of_expectList hc
  obtain ⟨k, hl⟩ := hw.mem_lists (owners_of_lists hlists)
  obtain ⟨s', hrun⟩ := hw.perform_of_yields hc (Op.act_cursor d) (seat_yields hl d)
  rw [hrun] at h ⊢
  rw [hw.nodes_eq hl]
  cases h
  exact ⟨hlists, rfl, rfl⟩

/-- **A program seats a cursor again.** -/
theorem perform_rewind {d : Direction} (hw : w.Sound v)
    (h : (w.perform B (.rewind c l d)).1 = .answered .done) :
    l ∈ w.holdings.lists ∧ (w.perform B (.rewind c l d)).2.holdings =
      w.holdings.setSeat c { cursor := ⟨(d.order (w.nodes l)).head?, l, d⟩ } ∧
      c < w.holdings.seats.size := by
  have hc := check_of_answered h
  obtain ⟨_, hexp, hcur⟩ := bind_ok_inv hc
  obtain ⟨s, hs⟩ := seat_of_expectCursor hcur
  have hlists := lists_of_expectList hexp
  obtain ⟨k, hl⟩ := hw.mem_lists (owners_of_lists hlists)
  obtain ⟨s', hrun⟩ := hw.perform_of_yields hc (Op.act_rewind d) (seat_yields hl d)
  rw [hrun, hw.nodes_eq hl]
  exact ⟨hlists, rfl, (Array.getElem?_eq_some_iff.1 hs).1⟩

/-- **A cursor steps.** -/
theorem perform_step {node : Option Addr} {moved : Cursor} (hw : w.Sound v)
    (hs : w.holdings.seats[c]? = some s) (hfresh : s.stale = false)
    (hy : Yields s.cursor.step v (node, moved) v) :
    (w.perform B (.step c)).1 = .answered (.node node) ∧
      (w.perform B (.step c)).2.holdings =
        w.holdings.setSeat c { s with cursor := moved, last := node } := by
  have hc : (Op.step c : Op η α).check w = .ok () := expectFresh_eq hs hfresh
  obtain ⟨s', hrun⟩ := hw.perform_of_yields hc (Op.act_step hs) hy
  rw [hrun]
  exact ⟨rfl, rfl⟩

/-- **A program copies a cursor.** -/
theorem perform_clone {c' : Nat} (hw : w.Sound v) (hs : w.holdings.seats[c]? = some s)
    (h : (w.perform B (.cloneCursor c)).1 = .answered (.cursor c')) :
    (w.perform B (.cloneCursor c)).2.holdings = w.holdings.addSeat s ∧
      c' = w.holdings.seats.size := by
  obtain ⟨s', hrun⟩ := hw.perform_of_yields (check_of_answered h) (Op.act_cloneCursor hs)
    (yields_pure () v)
  rw [hrun] at h ⊢
  cases h
  exact ⟨rfl, rfl⟩

end Sound

end World

end RingList
