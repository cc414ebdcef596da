import Mathlib.Data.List.ReduceOption
import RingList.Proofs.Seats

/-!
# Walks along changing lists

A cursor is no part of its list, and holds the link that it follows next. It may be used as long as
every node that leaves the list is the one that it returned last. A `Trail` is what a cursor was
seated on and what happened since, and `Walks` are the cursors of all runs with their trails, as
long as a rule is kept.

* `Trail.Obeys`: the rule for cursors.
* `Seat.Guided`: what every operation preserves that obeys the rule.
* `Walks.along`: what holds along every walk.
* `Walks.safe`: the next step of a cursor returns a node of its list, or nothing.
-/

set_option autoImplicit false

namespace RingList

variable {η σ α : Type} {B : Behaviour η σ α}

/-! ## Trails -/

/-- What a cursor was seated on, and what happened since. -/
structure Trail where
  list : Addr
  direction : Direction
  /-- The nodes of the list when the cursor was seated. -/
  start : List Addr
  /-- What the steps since then returned. -/
  answers : List (Option Addr) := []
  /-- The nodes that came to the list since then. -/
  entered : List Addr := []
  /-- The nodes that left the list since then. -/
  left : List Addr := []
deriving DecidableEq

namespace Trail

/-- The nodes that the cursor returned. -/
def returned (t : Trail) : List Addr := t.answers.reduceOption

/-- The node that the cursor returned most recently. -/
def last (t : Trail) : Option Addr := t.returned.getLast?

/-- The trail after a step. -/
def answered (t : Trail) (node : Option Addr) : Trail := { t with answers := t.answers ++ [node] }

/-- The trail after the nodes `ns` of the list became `ns'`. -/
def changed (t : Trail) (ns ns' : List Addr) : Trail :=
  { t with
    entered := t.entered ++ ns'.filter (· ∉ ns)
    left := t.left ++ ns.filter (· ∉ ns') }

/-- **The rule for cursors**: the list stays, and a node that leaves it is the one that the cursor
returned most recently. -/
def Obeys (t : Trail) (st : Step η σ α) : Prop :=
  t.list ∈ st.after.owners ∧
    ∀ a ∈ st.before.nodes t.list, a ∉ st.after.nodes t.list → t.last = some a

variable (t : Trail)

@[simp] theorem returned_answered_some (a : Addr) :
    (t.answered (some a)).returned = t.returned ++ [a] := by
  simp [answered, returned, List.reduceOption_append]

@[simp] theorem returned_answered_none : (t.answered none).returned = t.returned := by
  simp [answered, returned, List.reduceOption_append]

@[simp] theorem last_answered_some (a : Addr) : (t.answered (some a)).last = some a := by
  simp [last]

end Trail

/-! ## Walks -/

/-- The world after a run from the start. -/
def World.Reachable (B : Behaviour η σ α) (budgets : Array (Option Nat)) (hookState : σ)
    (w : World η σ α) : Prop := ∃ ops, w = ((World.start budgets hookState).run B ops).2

/-- An operation as a step. -/
def World.stepOf (B : Behaviour η σ α) (w : World η σ α) (op : Op η α) : Step η σ α :=
  ⟨w, op, (w.perform B op).1, (w.perform B op).2⟩

theorem World.Sound.step {w : World η σ α} {v : View η σ α} (hw : w.Sound v) (op : Op η α) :
    ∃ v', (w.stepOf B op).Sound B v v' := by
  obtain ⟨v', hw', he⟩ := hw.perform (B := B) op
  exact ⟨v', hw, hw', he, rfl⟩

/-- **The cursors of all runs** with their trails, as long as every operation keeps to the rule that
does not move the cursor. `Walks … w c t` is the cursor `c` in the world `w`, whose trail is `t`. -/
inductive Walks (B : Behaviour η σ α) (budgets : Array (Option Nat)) (hookState : σ)
    (Rule : Trail → Step η σ α → Prop) : World η σ α → Nat → Trail → Prop
  | seated {w : World η σ α} {l : Addr} {d : Direction} {c : Nat}
      (hw : w.Reachable B budgets hookState)
      (h : (w.perform B (.cursor l d)).1 = .answered (.cursor c)) :
      Walks B budgets hookState Rule (w.perform B (.cursor l d)).2 c
        { list := l, direction := d, start := w.nodes l }
  | reseated {w : World η σ α} {l : Addr} {d : Direction} {c : Nat}
      (hw : w.Reachable B budgets hookState)
      (h : (w.perform B (.rewind c l d)).1 = .answered .done) :
      Walks B budgets hookState Rule (w.perform B (.rewind c l d)).2 c
        { list := l, direction := d, start := w.nodes l }
  /-- A copy of a cursor inherits the trail. -/
  | cloned {w : World η σ α} {c c' : Nat} {t : Trail} (hw : Walks B budgets hookState Rule w c t)
      (h : (w.perform B (.cloneCursor c)).1 = .answered (.cursor c')) :
      Walks B budgets hookState Rule (w.perform B (.cloneCursor c)).2 c' t
  | stepped {w : World η σ α} {c : Nat} {t : Trail} {node : Option Addr}
      (hw : Walks B budgets hookState Rule w c t)
      (h : (w.perform B (.step c)).1 = .answered (.node node)) :
      Walks B budgets hookState Rule (w.perform B (.step c)).2 c (t.answered node)
  /-- Any other operation, and any operation that is refused. -/
  | kept {w : World η σ α} {c : Nat} {t : Trail} (op : Op η α)
      (hw : Walks B budgets hookState Rule w c t)
      (hop : op.moves? = some c → ∃ why, (w.perform B op).1 = .misused why)
      (hrule : Rule t (w.stepOf B op)) :
      Walks B budgets hookState Rule (w.perform B op).2 c
        (t.changed (w.nodes t.list) ((w.perform B op).2.nodes t.list))

section
variable {budgets : Array (Option Nat)} {hookState : σ} {w : World η σ α}

theorem World.run_concat (B : Behaviour η σ α) (w : World η σ α) (ops : List (Op η α))
    (op : Op η α) : (w.run B (ops ++ [op])).2 = ((w.run B ops).2.perform B op).2 := by
  induction ops generalizing w with
  | nil => rfl
  | cons op' ops ih => exact ih (w.perform B op').2

theorem World.Reachable.perform (hw : w.Reachable B budgets hookState) (op : Op η α) :
    (w.perform B op).2.Reachable B budgets hookState := by
  obtain ⟨ops, rfl⟩ := hw
  exact ⟨ops ++ [op], (World.run_concat B _ ops op).symm⟩

/-- A step of a run begins in a world that is reachable, too. -/
theorem World.Reachable.of_mem_steps {st : Step η σ α} {ops : List (Op η α)}
    (hw : w.Reachable B budgets hookState) (hst : st ∈ w.steps B ops) :
    st.before.Reachable B budgets hookState ∧ st = st.before.stepOf B st.op := by
  induction ops generalizing w with
  | nil => cases hst
  | cons op ops ih =>
    rcases List.mem_cons.1 hst with rfl | hst
    · exact ⟨hw, rfl⟩
    · exact ih (hw.perform op) hst

/-- A reachable world shows a view, and its events are a ledger of the view's blocks. -/
theorem World.Reachable.sound (hw : w.Reachable B budgets hookState) :
    ∃ v lost, w.Sound v ∧ Ledger 0 [] v.log v.fresh (v.held ++ lost) := by
  obtain ⟨ops, rfl⟩ := hw
  obtain ⟨v, hw, lost, h, -⟩ := World.ledger_run B budgets hookState ops
  exact ⟨v, lost, hw, h⟩

theorem Walks.reachable {Rule : Trail → Step η σ α → Prop} {c : Nat} {t : Trail}
    (h : Walks B budgets hookState Rule w c t) : w.Reachable B budgets hookState := by
  induction h with
  | seated hw h => exact hw.perform _
  | reseated hw h => exact hw.perform _
  | cloned hw h ih => exact ih.perform _
  | stepped hw h ih => exact ih.perform _
  | kept op hw hop hrule ih => exact ih.perform _

end

/-! ## What the rule preserves -/

/-- **The cursor is guided along its list**: it belongs to the list, and its link is the end or
leads to a node of the list that it did not return last. -/
structure Seat.Guided (w : World η σ α) (s : Seat) (t : Trail) : Prop where
  header : s.cursor.header = t.list
  direction : s.cursor.direction = t.direction
  owned : t.list ∈ w.owners
  next : ∀ a, s.cursor.next = some a → a ∈ w.nodes t.list ∧ t.last ≠ some a
  ended : none ∈ t.answers → s.cursor.next = none
  last : none ∉ t.answers → s.last = t.last
  stale : s.stale = true → none ∈ t.answers ∨ t.list ∉ w.holdings.lists

section
variable {w : World η σ α} {v : View η σ α} {s : Seat} {t : Trail} {c : Nat} {l a : Addr}
  {k : Strip η α} {op : Op η α}

theorem World.Sound.nodup_nodes (hw : w.Sound v) (hl : l ∈ w.owners) : (w.nodes l).Nodup := by
  obtain ⟨k, hmem⟩ := hw.mem_lists hl
  rw [hw.nodes_eq hmem]
  exact (hw.ring hmem).nodup

/-- **What an operation does to a list** that it does not end, by its nodes before and after. -/
theorem World.Sound.moves (hw : w.Sound v) (hl : l ∈ w.owners)
    (hl' : l ∈ (w.perform B op).2.owners) :
    (w.perform B op).2 = w ∨ Moves v l op (w.nodes l) ((w.perform B op).2.nodes l) := by
  obtain ⟨v', hst⟩ := hw.step (B := B) op
  have hw' : (w.perform B op).2.Sound v' := hst.after
  obtain ⟨k, hl⟩ := hw.mem_lists hl
  obtain ⟨k', hl'⟩ := hw'.mem_lists hl'
  rw [hw.nodes_eq hl, hw'.nodes_eq hl']
  rcases hst.reshapes hl hl' with ⟨⟨why, hwhy⟩, -⟩ | hr
  · exact .inl (World.perform_misused hwhy).2
  · exact .inr hr.moves

namespace Seat.Guided

/-- A cursor on the nodes of a list that is just seated. -/
theorem seated (d : Direction) (hl : l ∈ w.owners) :
    Guided w { cursor := ⟨(d.order (w.nodes l)).head?, l, d⟩ }
      { list := l, direction := d, start := w.nodes l } where
  header := rfl
  direction := rfl
  owned := hl
  next a ha := ⟨(d.mem_order).1 (List.mem_of_mem_head? ha), nofun⟩
  ended h := absurd h List.not_mem_nil
  last _ := rfl
  stale h := by cases h

/-- **The step of a guided cursor** returns its link, and the cursor moves past it. -/
theorem yields (hw : w.Sound v) (h : s.Guided w t) : ∃ next,
    Yields s.cursor.step v (s.cursor.next, { s.cursor with next }) v ∧
      { s with cursor := { s.cursor with next }, last := s.cursor.next }.Guided w
        (t.answered s.cursor.next) := by
  obtain ⟨k, hk⟩ := hw.mem_lists h.owned
  have hl : (s.cursor.header, k) ∈ v.lists := h.header ▸ hk
  cases hnext : s.cursor.next with
  | none =>
    refine ⟨none, ?_, h.header, h.direction, h.owned, nofun, fun _ => rfl, fun hout => ?_, ?_⟩
    · have hcursor : { s.cursor with next := none } = s.cursor := by rw [← hnext]
      rw [hcursor]
      exact step_yields_none v hnext
    · exact absurd (List.mem_append_right _ (List.mem_singleton_self none)) hout
    · exact fun hs => (h.stale hs).imp_left fun hm => List.mem_append_left _ hm
  | some a =>
    have hnodes : w.nodes t.list = k.nodes := hw.nodes_eq hk
    have ha : a ∈ k.nodes := hnodes ▸ (h.next a hnext).1
    obtain ⟨next, hy, hpast⟩ := step_yields_some hw.shows hl ha hnext
    have hnotyet : none ∉ t.answers := fun hm => by simp [h.ended hm] at hnext
    refine ⟨next, hy, h.header, h.direction, h.owned, fun b hb => ?_, fun hm => ?_, fun _ => ?_,
      fun hs => ?_⟩
    · obtain ⟨hmem, hne⟩ := hpast b hb
      refine ⟨hnodes ▸ hmem, fun he => ?_⟩
      rw [Trail.last_answered_some] at he
      exact hne (Option.some.inj he).symm
    · rcases List.mem_append.1 hm with hm | hm
      · exact absurd hm hnotyet
      · simp at hm
    · exact (Trail.last_answered_some t a).symm
    · exact (h.stale hs).imp_left fun hm => List.mem_append_left _ hm

/-- **An operation that obeys the rule** leaves a guided cursor guided. -/
theorem kept (hw : w.Sound v) (h : s.Guided w t) (hs : w.holdings.seats[c]? = some s)
    (hop : op.moves? = some c → ∃ why, (w.perform B op).1 = .misused why)
    (hrule : t.Obeys (w.stepOf B op)) :
    ∃ s', (w.perform B op).2.holdings.seats[c]? = some s' ∧ s'.cursor = s.cursor ∧
      s'.Guided (w.perform B op).2
        (t.changed (w.nodes t.list) ((w.perform B op).2.nodes t.list)) := by
  have hown : t.list ∈ (w.perform B op).2.owners := hrule.1
  have hleft : ∀ a ∈ w.nodes t.list, a ∉ (w.perform B op).2.nodes t.list → t.last = some a :=
    hrule.2
  obtain ⟨s', hs', hcursor, hlast, hstale⟩ := hw.perform_seat (B := B) hs hop
  refine ⟨s', hs', hcursor, hcursor ▸ h.header, hcursor ▸ h.direction, hown, fun a ha => ?_,
    hcursor ▸ h.ended, fun hm => hlast.trans (h.last hm), fun hst => ?_⟩
  · -- the link would be the node returned last if it led to a node that left
    obtain ⟨hmem, hne⟩ := h.next a (hcursor ▸ ha)
    refine ⟨?_, hne⟩
    by_contra hout
    exact hne (hleft a hmem hout)
  · have hlist : s.list = t.list := h.header
    rw [hlist] at hstale
    rcases hstale hst with hst | ⟨a, ha, hne⟩ | hout
    · exact (h.stale hst).imp_right (hw.not_mem_lists h.owned)
    · rcases hw.moves h.owned hown with hsame | hm
      · rw [hsame] at hs' ⊢
        obtain rfl : s = s' := Option.some.inj (hs.symm.trans hs')
        exact h.stale hst
      · have hmem := hm.mem_of_leaving ha
        have hout := (hm.mem_leaving (hw.nodup_nodes h.owned) hmem).1 ha
        refine .inl ?_
        by_contra hnotyet
        exact hne ((hleft a hmem hout).symm.trans (h.last hnotyet).symm)
    · exact .inr hout

/-- An operation that works on no list. -/
theorem sameOf (hw : w.Sound v) (h : s.Guided w t) (hop : op.targets = [])
    (hlists : (w.perform B op).2.holdings.lists = w.holdings.lists) :
    s.Guided (w.perform B op).2 t := by
  have hsame := hw.sameList_perform (B := B) h.owned (hop ▸ List.not_mem_nil)
  exact ⟨h.header, h.direction, hsame.owned, hsame.nodes ▸ h.next, h.ended, h.last, hlists ▸ h.stale⟩

end Seat.Guided

/-- **What holds along every walk**: it holds where a cursor is seated, every step of the cursor
preserves it, and so does every other operation by the rule. The cursor is guided along its list if
the operations obey the rule for cursors. -/
theorem Walks.along {budgets : Array (Option Nat)} {hookState : σ}
    {Rule : Trail → Step η σ α → Prop} {P : World η σ α → Seat → Trail → Prop}
    (hobeys : ∀ {w : World η σ α} {v : View η σ α} {t : Trail} {op : Op η α}, w.Sound v →
      t.list ∈ w.owners → Rule t (w.stepOf B op) → t.Obeys (w.stepOf B op))
    (hseat : ∀ {w : World η σ α} {v : View η σ α} {l : Addr} (d : Direction), w.Sound v →
      l ∈ w.owners → P w { cursor := ⟨(d.order (w.nodes l)).head?, l, d⟩ }
        { list := l, direction := d, start := w.nodes l })
    (hstep : ∀ {w : World η σ α} {v : View η σ α} {s : Seat} {t : Trail} {next : Option Addr},
      w.Sound v → s.Guided w t → P w s t →
      Yields s.cursor.step v (s.cursor.next, { s.cursor with next }) v →
      P w { s with cursor := { s.cursor with next }, last := s.cursor.next }
        (t.answered s.cursor.next))
    (hsame : ∀ {w : World η σ α} {v : View η σ α} {s : Seat} {t : Trail} {op : Op η α}, w.Sound v →
      s.Guided w t → P w s t → op.targets = [] → P (w.perform B op).2 s t)
    (hkept : ∀ {w : World η σ α} {v : View η σ α} {s s' : Seat} {t : Trail} {op : Op η α},
      w.Sound v → s.Guided w t → P w s t → Rule t (w.stepOf B op) → s'.cursor = s.cursor →
      s'.Guided (w.perform B op).2
        (t.changed (w.nodes t.list) ((w.perform B op).2.nodes t.list)) →
      P (w.perform B op).2 s' (t.changed (w.nodes t.list) ((w.perform B op).2.nodes t.list)))
    (h : Walks B budgets hookState Rule w c t) :
    ∃ s, w.holdings.seats[c]? = some s ∧ s.Guided w t ∧ P w s t := by
  induction h with
  | @seated w l d c hw h =>
    obtain ⟨v, -, hw, -⟩ := hw.sound
    obtain ⟨hl, hholdings, rfl⟩ := hw.perform_cursor h
    have hl := World.owners_of_lists hl
    have hg := Seat.Guided.seated d hl
    refine ⟨_, ?_, hg.sameOf hw rfl (by rw [hholdings]; rfl), hsame hw hg (hseat d hw hl) rfl⟩
    rw [hholdings]
    exact Array.getElem?_push_size
  | @reseated w l d c hw h =>
    obtain ⟨v, -, hw, -⟩ := hw.sound
    obtain ⟨hl, hholdings, hlt⟩ := hw.perform_rewind h
    have hl := World.owners_of_lists hl
    have hg := Seat.Guided.seated d hl
    refine ⟨_, ?_, hg.sameOf hw rfl (by rw [hholdings]; rfl), hsame hw hg (hseat d hw hl) rfl⟩
    rw [hholdings]
    exact Array.getElem?_setIfInBounds_self_of_lt hlt
  | @cloned w c c' t hw h ih =>
    obtain ⟨v, -, hsound, -⟩ := hw.reachable.sound
    obtain ⟨s, hs, hg, hp⟩ := ih
    obtain ⟨hholdings, rfl⟩ := hsound.perform_clone hs h
    refine ⟨s, ?_, hg.sameOf hsound rfl (by rw [hholdings]; rfl), hsame hsound hg hp rfl⟩
    rw [hholdings]
    exact Array.getElem?_push_size
  | @stepped w c t node hw h ih =>
    obtain ⟨v, -, hsound, -⟩ := hw.reachable.sound
    obtain ⟨s, hs, hg, hp⟩ := ih
    have hfresh := World.Sound.fresh_of_expectFresh hs (World.Sound.check_of_answered h)
    obtain ⟨next, hy, hg'⟩ := hg.yields hsound
    obtain ⟨hans, hholdings⟩ := hsound.perform_step (B := B) hs hfresh hy
    obtain rfl : s.cursor.next = node := by simpa [hans] using h
    have hp' := hstep hsound hg hp hy
    refine ⟨_, ?_, hg'.sameOf hsound rfl (by rw [hholdings]; rfl), hsame hsound hg' hp' rfl⟩
    rw [hholdings]
    exact Array.getElem?_setIfInBounds_self_of_lt (Array.getElem?_eq_some_iff.1 hs).1
  | @kept w c t op hw hop hrule ih =>
    obtain ⟨v, -, hsound, -⟩ := hw.reachable.sound
    obtain ⟨s, hs, hg, hp⟩ := ih
    obtain ⟨s', hs', hcursor, hg'⟩ := hg.kept hsound hs hop (hobeys hsound hg.owned hrule)
    exact ⟨s', hs', hg', hkept hsound hg hp hrule hcursor hg'⟩

/-! ## The end of a walk -/

/-- The cursor is at the end. -/
def World.AtEnd (w : World η σ α) (c : Nat) : Prop :=
  ∃ s, w.holdings.seats[c]? = some s ∧ s.cursor.next = none

/-- A cursor leaves the end only if it is seated again. -/
theorem World.Sound.atEnd_perform (hw : w.Sound v) (h : w.AtEnd c)
    (hop : ∀ l d, op ≠ .rewind c l d) : (w.perform B op).2.AtEnd c := by
  obtain ⟨s, hs, hnext⟩ := h
  by_cases hmoves : op.moves? = some c
  · obtain rfl : op = .step c := by
      cases op with
      | step c' => exact congrArg _ (Option.some.inj hmoves)
      | rewind c' l d => exact absurd (congrArg (Op.rewind · l d) (Option.some.inj hmoves)) (hop l d)
      | _ => cases hmoves
    cases hstale : s.stale with
    | true =>
      have hcheck : (Op.step c : Op η α).check w = .error .staleCursor := by
        simp [Op.check, World.expectFresh, World.expectCursor, hs, hstale, bind, Except.bind]
      rw [World.perform_of_error hcheck]
      exact ⟨s, hs, hnext⟩
    | false =>
      obtain ⟨-, hholdings⟩ := hw.perform_step (B := B) hs hstale (step_yields_none v hnext)
      have hlt := (Array.getElem?_eq_some_iff.1 hs).1
      refine ⟨{ s with last := none }, ?_, hnext⟩
      rw [hholdings]
      exact Array.getElem?_setIfInBounds_self_of_lt hlt
  · obtain ⟨s', hs', hcursor, -⟩ := hw.perform_seat (B := B) hs fun h => absurd h hmoves
    exact ⟨s', hs', hcursor ▸ hnext⟩

theorem World.Sound.atEnd_run {ops : List (Op η α)} (hw : w.Sound v) (h : w.AtEnd c)
    (hops : ∀ op ∈ ops, ∀ l d, op ≠ .rewind c l d) :
    (w.run B ops).2.AtEnd c ∧ ∃ v', (w.run B ops).2.Sound v' := by
  induction ops generalizing w v with
  | nil => exact ⟨h, v, hw⟩
  | cons op ops ih =>
    obtain ⟨v', hw', -⟩ := hw.perform (B := B) op
    have h' := hw.atEnd_perform (B := B) h (hops op List.mem_cons_self)
    exact ih hw' h' fun op hm => hops op (List.mem_cons_of_mem _ hm)

/-- What a cursor at the end answers. -/
theorem World.Sound.answer_atEnd (hw : w.Sound v) (h : w.AtEnd c) :
    ∃ s, w.holdings.seats[c]? = some s ∧ w.read s.cursor.step = .ok (none, s.cursor) ∧
      ∀ a, (w.perform B (.step c)).1 = .answered a → a = .node none := by
  obtain ⟨s, hs, hnext⟩ := h
  have hy := step_yields_none v hnext
  refine ⟨s, hs, hw.read_eq hy, fun a ha => ?_⟩
  have hfresh := World.Sound.fresh_of_expectFresh hs (World.Sound.check_of_answered ha)
  rw [(hw.perform_step (B := B) hs hfresh hy).1] at ha
  cases ha
  rfl

/-! ## Safety -/

/-- **A cursor is safe**: it belongs to its list, and its step returns a node that is in this list,
or nothing for ever. -/
structure Seat.Safe (B : Behaviour η σ α) (w : World η σ α) (c : Nat) (s : Seat) (t : Trail) :
    Prop where
  header : s.cursor.header = t.list
  /-- The link leads to a node of the list that the cursor did not return last, or to the end. -/
  next : ∀ a, s.cursor.next = some a → a ∈ w.nodes t.list ∧ t.last ≠ some a
  /-- The node has not been given back. -/
  live : ∀ a, s.cursor.next = some a → (w.store.heap.get? a).isSome ∧
    ∀ target kind, .released target a kind ∉ w.store.events.toList
  /-- The node is no header, and in no other list. -/
  apart : ∀ a, s.cursor.next = some a →
    a ∉ w.owners ∧ ∀ m ∈ w.owners, m ≠ t.list → a ∉ w.nodes m
  /-- The step meets no dead block, returns the node, and moves on to a node of the list. -/
  step : ∃ moved, w.read s.cursor.step = .ok (s.cursor.next, moved) ∧ moved.header = t.list ∧
    ∀ b, moved.next = some b → b ∈ w.nodes t.list
  /-- This is what the program is answered. -/
  answered : s.stale = false → (w.perform B (.step c)).1 = .answered (.node s.cursor.next)
  /-- The program is refused the step only if the end was met, or if the list was handed to an
  owning iterator. -/
  fresh : s.stale = true → none ∈ t.answers ∨ t.list ∉ w.holdings.lists
  /-- Once the end is met, every step meets it, whatever happens, until the cursor is seated
  again. -/
  ended : none ∈ t.answers → ∀ ops, (∀ op ∈ ops, ∀ l d, op ≠ .rewind c l d) →
    ∃ s', (w.run B ops).2.holdings.seats[c]? = some s' ∧
      (w.run B ops).2.read s'.cursor.step = .ok (none, s'.cursor) ∧
      ∀ a, ((w.run B ops).2.perform B (.step c)).1 = .answered a → a = .node none

/-- **A cursor that is used by the rule is safe.** -/
theorem Walks.safe {budgets : Array (Option Nat)} {hookState : σ}
    (h : Walks B budgets hookState Trail.Obeys w c t) :
    ∃ s, w.holdings.seats[c]? = some s ∧ s.Safe B w c t := by
  obtain ⟨s, hs, hg, -⟩ := h.along (P := fun _ _ _ => True) (fun _ _ hrule => hrule)
    (fun _ _ _ => trivial) (fun _ _ _ _ => trivial) (fun _ _ _ _ => trivial)
    (fun _ _ _ _ _ _ => trivial)
  obtain ⟨v, lost, hw, hledger⟩ := h.reachable.sound
  obtain ⟨k, hl⟩ := hw.mem_lists hg.owned
  have hnodes := hw.nodes_eq hl
  obtain ⟨next, hy, hg'⟩ := hg.yields hw
  refine ⟨s, hs, hg.header, hg.next, fun a ha => ?_, fun a ha => ?_, ?_, fun hfresh => ?_, hg.stale,
    fun hend ops hops => ?_⟩
  · have hmem : a ∈ t.list :: k.nodes := List.mem_cons_of_mem _ (hnodes ▸ (hg.next a ha).1)
    refine ⟨(hw.ring hl).isSome_of_mem hmem, fun target kind => ?_⟩
    rw [hw.shows.log]
    refine hledger.not_released ?_ target kind
    rw [List.map_append]
    exact List.mem_append_left _ (mem_held_of_mem_blocks hl hmem)
  · have hmem : a ∈ k.nodes := hnodes ▸ (hg.next a ha).1
    have hout : ∀ m ∈ w.owners, m ≠ t.list → a ∉ m :: w.nodes m := by
      intro m hm hne
      obtain ⟨k', hk'⟩ := hw.mem_lists hm
      rw [hw.nodes_eq hk']
      exact fun ha' => hne (hw.eq_of_mem_blocks hk' hl ha' (List.mem_cons_of_mem _ hmem))
    refine ⟨fun hm => ?_, fun m hm hne ha => hout m hm hne (List.mem_cons_of_mem _ ha)⟩
    by_cases he : a = t.list
    · exact (hw.ring hl).header_not_mem (he ▸ hmem)
    · exact hout a hm he List.mem_cons_self
  · exact ⟨_, hw.read_eq hy, hg.header, fun b hb => (hg'.next b hb).1⟩
  · exact (hw.perform_step hs hfresh hy).1
  · obtain ⟨hat, v', hw'⟩ := hw.atEnd_run (B := B) ⟨s, hs, hg.ended hend⟩ hops
    exact hw'.answer_atEnd hat

end

/-- The node that was returned goes, others come, and the list is rotated. The cursor is still at
the second node. -/
theorem Walks.safe_of_deleting :
    let B : Behaviour Unit Unit Nat := ⟨fun _ s x => (.returns (some x), s),
      fun _ s _ => (.returns (), s), fun _ s _ => s, fun _ s x y => (.returns (x == y), s)⟩
    let w : World Unit Unit Nat := ((World.start #[] ()).run B [.collect [1, 2, 3], .collect [7]]).2
    let w₁ := (w.perform B (.cursor 0 .forward)).2
    let w₂ := (w₁.perform B (.step 0)).2
    let w₃ := (w₂.perform B (.delete 0 1)).2
    let w₄ := (w₃.perform B (.join 0 4)).2
    let w₅ := (w₄.perform B (.rotate 0)).2
    let t : Trail := ⟨0, .forward, [1, 2, 3], [some 1], [5], [1]⟩
    w₅.nodes 0 = [5, 2, 3] ∧ ∃ s, w₅.holdings.seats[0]? = some s ∧ s.Safe B w₅ 0 t := by
  intro B w w₁ w₂ w₃ w₄ w₅ t
  have hw : w.Reachable B #[] () := ⟨[.collect [1, 2, 3], .collect [7]], rfl⟩
  have h₁ : Walks B #[] () Trail.Obeys w₁ 0 ⟨0, .forward, w.nodes 0, [], [], []⟩ :=
    .seated hw (by decide +kernel)
  have a₂ : (w₁.perform B (.step 0)).1 = .answered (.node (some 1)) := by decide +kernel
  have h₂ := h₁.stepped a₂
  have h₃ := h₂.kept (.delete 0 1) nofun ⟨by decide +kernel, by decide +kernel⟩
  have h₄ := h₃.kept (.join 0 4) nofun ⟨by decide +kernel, by decide +kernel⟩
  have h₅ := h₄.kept (.rotate 0) nofun ⟨by decide +kernel, by decide +kernel⟩
  have hwalk : Walks B #[] () Trail.Obeys w₅ 0 t := by
    refine Eq.mp (congrArg (Walks B #[] () Trail.Obeys w₅ 0) ?_) h₅
    decide +kernel
  exact ⟨by decide +kernel, Walks.safe hwalk⟩

end RingList
