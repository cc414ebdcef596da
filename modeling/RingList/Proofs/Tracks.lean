import RingList.Proofs.Walks

/-!
# Cursors on track

A program is refused the use of a cursor whose list is gone or has lost a node that the cursor may be
at. Every other cursor is on track: its list is there, and its link is the end or leads to a node of
the list that is not the one returned last. No rule has to be kept for this, since the cursors that
it would fail for have become stale.

* `World.Sound.onTrack_perform`: every operation preserves it.
* `World.Reachable.onTrack`: it holds after every run.
-/

set_option autoImplicit false

namespace RingList

variable {η σ α : Type} {B : Behaviour η σ α}

/-- **A cursor is on track**: its list is there, and its link leads to a node of the list that it did
not return last, if it is not at the end. -/
structure Seat.OnTrack (w : World η σ α) (s : Seat) : Prop where
  listed : s.list ∈ w.holdings.lists
  next : ∀ a ∈ s.cursor.next, a ∈ w.nodes s.list ∧ s.last ≠ some a

/-- Every cursor that the program may use is on track. -/
def World.OnTrack (w : World η σ α) : Prop :=
  ∀ s ∈ w.holdings.seats, s.stale = false → s.OnTrack w

/-- The operation makes a cursor or moves one. -/
def Op.seats : Op η α → Bool
  | .cursor _ _ | .rewind _ _ _ | .step _ | .cloneCursor _ => true
  | _ => false

section
variable {w w' : World η σ α} {v : View η σ α} {op : Op η α} {s : Seat} {l : Addr} {k : Strip η α}

namespace Seat.OnTrack

/-- A list that has the same nodes. -/
theorem transfer (h : s.OnTrack w) (hlists : s.list ∈ w'.holdings.lists)
    (hnodes : w'.nodes s.list = w.nodes s.list) : s.OnTrack w' :=
  ⟨hlists, hnodes ▸ h.next⟩

/-- A cursor that is just seated. -/
theorem seated (d : Direction) (hlists : l ∈ w.holdings.lists) :
    Seat.OnTrack w { cursor := ⟨(d.order (w.nodes l)).head?, l, d⟩ } :=
  ⟨hlists, fun _ ha => ⟨(d.mem_order).1 (List.mem_of_mem_head? ha), nofun⟩⟩

/-- **The step of a cursor on track** returns its link, and the cursor stays on track. -/
theorem yields (hw : w.Sound v) (h : s.OnTrack w) : ∃ next,
    Yields s.cursor.step v (s.cursor.next, { s.cursor with next }) v ∧
      Seat.OnTrack w { s with cursor := { s.cursor with next }, last := s.cursor.next } := by
  obtain ⟨k, hk⟩ := hw.mem_lists (World.owners_of_lists h.listed)
  cases hnext : s.cursor.next with
  | none =>
    have hcursor : { s.cursor with next := none } = s.cursor := by rw [← hnext]
    refine ⟨none, ?_, h.listed, nofun⟩
    rw [hcursor]
    exact step_yields_none v hnext
  | some a =>
    have hnodes : w.nodes s.list = k.nodes := hw.nodes_eq hk
    have ha : a ∈ k.nodes := hnodes ▸ (h.next a hnext).1
    obtain ⟨next, hy, hpast⟩ := step_yields_some hw.shows hk ha hnext
    refine ⟨next, hy, h.listed, fun b hb => ⟨?_, fun he => ?_⟩⟩
    · exact hnodes ▸ (hpast b hb).1
    · exact (hpast b hb).2 (Option.some.inj he).symm

end Seat.OnTrack

namespace World

/-- What a program holds on to after an operation that seats no cursor. -/
theorem holdings_of_not_seats (hc : op.check w = .ok ()) (hop : op.seats = false) :
    (w.proceed B op).2.holdings.seats = (op.takes w).seats ∧
      ∀ m ∈ (op.takes w).lists, m ∈ (w.proceed B op).2.holdings.lists := by
  let P : Holdings → Prop := fun t =>
    t.seats = (op.takes w).seats ∧ ∀ m ∈ (op.takes w).lists, m ∈ t.lists
  have same : P (op.takes w) := ⟨rfl, fun _ hm => hm⟩
  have keeps : ∀ {β : Type} {act : Action η σ α β} {answer : β → Answer η α},
      op.act B (op.takes w) = Op.keeping (op.takes w) answer act → P (w.proceed B op).2.holdings :=
    fun hact => proceed_holdings hact same fun _ => same
  have lists : ∀ {act : Action η σ α Addr},
      op.act B (op.takes w) = (act >>= fun l => pure (.list l, (op.takes w).addList l)) →
      P (w.proceed B op).2.holdings := fun hact =>
    proceed_holdings hact same fun _ => ⟨rfl, fun _ hm => List.mem_append_left _ hm⟩
  cases op with
  | create source => exact lists rfl
  | collect xs =>
    have hact : (Op.collect xs).act B w.holdings = (do
        let l ← RingList.create .global
        RingList.extend l xs
        return l) >>= fun l => pure (.list l, w.holdings.addList l) := by
      simp [Op.act]
    exact lists hact
  | duplicate l fallback => exact lists rfl
  | intoIter l => exact ⟨rfl, fun _ hm => hm⟩
  | peek c =>
    obtain ⟨s, hs⟩ := seat_of_expectFresh hc
    exact proceed_holdings (Op.act_peek hs) same fun _ => same
  | direction c =>
    obtain ⟨s, hs⟩ := seat_of_expectCursor hc
    exact proceed_holdings (Op.act_direction hs) same fun _ => same
  | cursor _ _ | rewind _ _ _ | step _ | cloneCursor _ => cases hop
  | _ => exact keeps rfl

namespace Sound

/-- **A cursor that is not stale** after an operation took what it takes: the nodes that leave its
list are all the one that it returned last. -/
theorem fresh_of_takes (hw : w.Sound v) (hc : op.check w = .ok ()) (hs : s ∈ (op.takes w).seats)
    (hfresh : s.stale = false) (hl : s ∈ w.holdings.seats → s.list ∈ w.holdings.lists) :
    s ∈ w.holdings.seats ∧ s.list ∈ (op.takes w).lists ∧
      ∀ a ∈ op.leaving s.list (w.nodes s.list), s.last = some a := by
  -- nodes leave one list, and those that leave the list of the cursor are among them
  have departed : ∀ {m ns}, op.takes w = w.holdings.depart m ns →
      (∀ a ∈ op.leaving s.list (w.nodes s.list), s.list = m ∧ a ∈ ns) →
      s ∈ w.holdings.seats ∧ s.list ∈ (op.takes w).lists ∧
        ∀ a ∈ op.leaving s.list (w.nodes s.list), s.last = some a := by
    intro m ns htakes hleaving
    rw [htakes] at hs ⊢
    obtain ⟨hs, hlast⟩ := Holdings.fresh_of_depart hs hfresh
    refine ⟨hs, hl hs, fun a ha => ?_⟩
    obtain ⟨hm, ha⟩ := hleaving a ha
    exact hlast hm a ha
  have ended : ∀ {m}, op.takes w = w.holdings.endList m →
      op.leaving s.list (w.nodes s.list) = [] →
      s ∈ w.holdings.seats ∧ s.list ∈ (op.takes w).lists ∧
        ∀ a ∈ op.leaving s.list (w.nodes s.list), s.last = some a := by
    intro m htakes hleaving
    rw [htakes] at hs ⊢
    rw [hleaving]
    obtain ⟨hs, hne⟩ := Holdings.fresh_of_endList hs hfresh
    exact ⟨hs, (List.mem_erase_of_ne hne).2 (hl hs), fun _ ha => absurd ha List.not_mem_nil⟩
  have split : ∀ {m b : Addr} {ns : List Addr}, b ∈ (if m = s.list then ns else []) →
      s.list = m ∧ b ∈ ns := fun hb =>
    ⟨(List.mem_ite_nil_right.1 hb).1.symm, (List.mem_ite_nil_right.1 hb).2⟩
  cases op with
  | delete l a =>
    refine departed rfl fun b hb => ?_
    simp only [Op.leaving] at hb
    exact split hb
  | popFront l =>
    obtain ⟨k, hk⟩ := hw.mem_lists (owners_of_expectList hc)
    refine departed rfl fun b hb => ?_
    simp only [Op.leaving] at hb
    obtain ⟨rfl, hmem⟩ := split hb
    exact ⟨rfl, hw.first?_eq hk ▸ hmem⟩
  | popBack l =>
    obtain ⟨k, hk⟩ := hw.mem_lists (owners_of_expectList hc)
    refine departed rfl fun b hb => ?_
    simp only [Op.leaving] at hb
    obtain ⟨rfl, hmem⟩ := split hb
    exact ⟨rfl, hw.last?_eq hk ▸ hmem⟩
  | clear l | join _ l =>
    refine departed rfl fun b hb => ?_
    simp only [Op.leaving] at hb
    obtain ⟨rfl, hmem⟩ := split hb
    exact ⟨rfl, hmem⟩
  | destroy l => exact ended rfl rfl
  | intoIter l => exact ended rfl rfl
  | take it e =>
    -- an owning iterator has taken its list over, so no cursor of the list is left
    have hne : it ≠ s.list := fun he =>
      (List.nodup_append.1 hw.nodup_owners).2.2 s.list (hl hs) it
        (iterators_of_expectIterator hc) he.symm
    have hleaving : (Op.take it e : Op η α).leaving s.list (w.nodes s.list) = [] := by
      cases e <;> exact if_neg hne
    rw [hleaving]
    exact ⟨hs, hl hs, fun _ ha => absurd ha List.not_mem_nil⟩
  | _ => exact ⟨hs, hl hs, fun _ ha => absurd ha List.not_mem_nil⟩

/-- An operation that makes or moves a cursor changes no list. -/
theorem onTrack_seated {t : Holdings} (hw : w.Sound v) (hop : op.seats = true)
    (hholdings : (w.perform B op).2.holdings = t) (hlists : t.lists = w.holdings.lists)
    (hs : s.OnTrack w) : s.OnTrack (w.perform B op).2 := by
  have htargets : op.targets = [] := by
    cases op with
    | cursor _ _ | rewind _ _ _ | step _ | cloneCursor _ => rfl
    | _ => cases hop
  have hout : s.list ∉ op.targets := htargets ▸ List.not_mem_nil
  have hsame := hw.sameList_perform (B := B) (owners_of_lists hs.listed) hout
  exact hs.transfer (by rw [hholdings, hlists]; exact hs.listed) hsame.nodes

/-- A cursor is added. -/
theorem onTrack_added {s' : Seat} (hw : w.Sound v) (h : w.OnTrack) (hop : op.seats = true)
    (hholdings : (w.perform B op).2.holdings = w.holdings.addSeat s')
    (hs' : s'.stale = false → s'.OnTrack w) : (w.perform B op).2.OnTrack := by
  intro s hs hfresh
  refine hw.onTrack_seated hop hholdings rfl ?_
  rw [hholdings] at hs
  rcases Array.mem_push.1 hs with hs | rfl
  · exact h s hs hfresh
  · exact hs' hfresh

/-- A cursor comes in the place of another one. -/
theorem onTrack_moved {s' : Seat} {c : Nat} (hw : w.Sound v) (h : w.OnTrack)
    (hop : op.seats = true) (hholdings : (w.perform B op).2.holdings = w.holdings.setSeat c s')
    (hs' : s'.OnTrack w) : (w.perform B op).2.OnTrack := by
  intro s hs hfresh
  refine hw.onTrack_seated hop hholdings rfl ?_
  rw [hholdings] at hs
  rcases Array.mem_or_eq_of_mem_setIfInBounds hs with hs | rfl
  · exact h s hs hfresh
  · exact hs'

/-- Any other operation takes nothing that a cursor may be at which is not stale afterwards. -/
theorem onTrack_kept (hw : w.Sound v) (h : w.OnTrack) (hc : op.check w = .ok ())
    (hop : op.seats = false) : (w.perform B op).2.OnTrack := by
  intro s hs hfresh
  have hrun : w.perform B op = w.proceed B op := perform_of_ok hc
  obtain ⟨hseats, hlists⟩ := holdings_of_not_seats (B := B) hc hop
  rw [hrun, hseats] at hs
  obtain ⟨hs, hl, hlast⟩ := hw.fresh_of_takes hc hs hfresh fun hs => (h s hs hfresh).listed
  have hlisted : s.list ∈ (w.perform B op).2.holdings.lists := hrun ▸ hlists _ hl
  have hown : s.list ∈ w.owners := owners_of_lists (h s hs hfresh).listed
  refine ⟨hlisted, fun a ha => ?_⟩
  obtain ⟨hmem, hne⟩ := (h s hs hfresh).next a ha
  refine ⟨?_, hne⟩
  rcases hw.moves (B := B) hown (owners_of_lists hlisted) with hsame | hm
  · rw [hsame]
    exact hmem
  · by_contra hout
    exact hne (hlast a ((hm.mem_leaving (hw.nodup_nodes hown) hmem).2 hout))

/-- **Every operation** leaves the cursors that may be used on track. -/
theorem onTrack_perform (hw : w.Sound v) (h : w.OnTrack) (op : Op η α) :
    (w.perform B op).2.OnTrack := by
  cases hc : op.check w with
  | error why =>
    rw [perform_of_error hc]
    exact h
  | ok u =>
    cases op with
    | cursor l d =>
      have hlists := lists_of_expectList hc
      obtain ⟨k, hl⟩ := hw.mem_lists (owners_of_lists hlists)
      obtain ⟨s', hrun⟩ := hw.perform_of_yields (B := B) hc (Op.act_cursor d) (seat_yields hl d)
      refine hw.onTrack_added h rfl (congrArg (·.2.holdings) hrun) fun _ => ?_
      rw [← hw.nodes_eq hl]
      exact .seated d hlists
    | rewind c l d =>
      obtain ⟨_, hexp, -⟩ := bind_ok_inv hc
      have hlists := lists_of_expectList hexp
      obtain ⟨k, hl⟩ := hw.mem_lists (owners_of_lists hlists)
      obtain ⟨s', hrun⟩ := hw.perform_of_yields (B := B) hc (Op.act_rewind d) (seat_yields hl d)
      refine hw.onTrack_moved h rfl (congrArg (·.2.holdings) hrun) ?_
      rw [← hw.nodes_eq hl]
      exact .seated d hlists
    | step c =>
      obtain ⟨s, hs⟩ := seat_of_expectFresh hc
      have hfresh := fresh_of_expectFresh hs hc
      obtain ⟨next, hy, htrack⟩ := (h s (Array.mem_of_getElem? hs) hfresh).yields hw
      exact hw.onTrack_moved h rfl (hw.perform_step (B := B) hs hfresh hy).2 htrack
    | cloneCursor c =>
      obtain ⟨s, hs⟩ := seat_of_expectFresh hc
      obtain ⟨s', hrun⟩ := hw.perform_of_yields (B := B) hc (Op.act_cloneCursor hs)
        (yields_pure () v)
      exact hw.onTrack_added h rfl (congrArg (·.2.holdings) hrun) (h s (Array.mem_of_getElem? hs))
    | _ => exact hw.onTrack_kept h hc rfl

theorem onTrack_run {ops : List (Op η α)} (hw : w.Sound v) (h : w.OnTrack) :
    (w.run B ops).2.OnTrack := by
  induction ops generalizing w v with
  | nil => exact h
  | cons op ops ih =>
    obtain ⟨v', hw', -⟩ := hw.perform (B := B) op
    exact ih hw' (hw.onTrack_perform h op)

end Sound

/-- **After every run** the cursors that may be used are on track. -/
theorem Reachable.onTrack {budgets : Array (Option Nat)} {hookState : σ}
    (hw : w.Reachable B budgets hookState) : w.OnTrack := by
  obtain ⟨ops, rfl⟩ := hw
  exact (sound_start budgets hookState).onTrack_run fun s hs => absurd hs (Array.not_mem_empty s)

end World

end

end RingList
