import RingList.Proofs.Interchange
import RingList.Proofs.Iterators

/-!
# Destroying the values of a list

To empty a list, to destroy it, or to drop an owning iterator comes to the same: node after node, from
the front on, gives its block back and hands its value over, to the free hook or to be dropped. The
walk ends behind the last node, or at the first value at which the hook panics. The list was made
empty before, so that it can be used as any other empty list in both cases.

* `handovers`: what happens when values are handed over one after the other.
* `teardown_stop`, `teardown_events`: what a walk does, in these terms.
* `World.ClearLaws`, `World.clear_laws`: what emptying and destroying do to a list of a program.
-/

set_option autoImplicit false

namespace RingList

variable {η σ α : Type} {B : Behaviour η σ α}

/-! ## Handing values over -/

/-- What happens when values are handed over one after the other: calls of the free hook, whose state
is `s` at first, or drops if there is none. -/
def handovers (B : Behaviour η σ α) : Option η → σ → List α → List (Event η α)
  | none, _, xs => xs.map .dropped
  | some _, _, [] => []
  | some f, s, x :: xs => .free f x (B.free f s x).1 :: handovers B (some f) (B.free f s x).2 xs

/-- The position of the first value at which the free hook panics. It is the number of values if it
never does. -/
def firstPanic (B : Behaviour η σ α) (free : Option η) (s : σ) (xs : List α) : Nat :=
  (handovers B free s xs).findIdx Event.isPanic

/-- What destroying nodes does, from the front up to the one at position `k`: a block goes back to
`source`, then its value is handed over. -/
def destructions (source : Allocator) (es : List (Addr × α)) (handed : List (Event η α)) (k : Nat) :
    List (Event η α) :=
  ((es.zip handed).take (k + 1)).flatMap fun p => [.released source p.1.1 .node, p.2]

section
variable {hooks : Hooks η} {source : Allocator} {σ₀ : σ} {a : Addr} {x : α} {xs : List α}
  {es : List (Addr × α)}

theorem handovers_cons : handovers B hooks.free σ₀ (x :: xs) =
    (discarding B .ordinary hooks σ₀ x).event ::
      handovers B hooks.free (discarding B .ordinary hooks σ₀ x).hookState xs := by
  unfold discarding
  cases hooks.free <;> simp [handovers]

theorem firstPanic_of_panics (hd : (discarding B .ordinary hooks σ₀ x).reply = .panics) :
    firstPanic B hooks.free σ₀ (x :: xs) = 0 := by
  obtain ⟨f, -, he⟩ := discarding_panics hd
  simp [firstPanic, handovers_cons, he, List.findIdx_cons, Event.isPanic]

theorem firstPanic_of_returns {u : Unit}
    (hd : (discarding B .ordinary hooks σ₀ x).reply = .returns u) :
    firstPanic B hooks.free σ₀ (x :: xs) =
      firstPanic B hooks.free (discarding B .ordinary hooks σ₀ x).hookState xs + 1 := by
  simp [firstPanic, handovers_cons, isPanic_discarding hd, List.findIdx_cons]

theorem destructions_cons (e : Event η α) (handed : List (Event η α)) (k : Nat) :
    destructions source ((a, x) :: es) (e :: handed) k = .released source a .node :: e ::
      ((es.zip handed).take k).flatMap fun p => [.released source p.1.1 .node, p.2] := by
  simp [destructions]

/-! ## The walk -/

/-- **Why a walk stops**: a panic of the hook, or nothing. -/
theorem teardown_stop (hooks : Hooks η) (source : Allocator) (σ₀ : σ) (es : List (Addr × α)) :
    (teardown B .ordinary hooks source σ₀ es).stop =
      if firstPanic B hooks.free σ₀ (es.map (·.2)) < es.length then some (.panicked .free)
      else none := by
  induction es generalizing σ₀ with
  | nil => rfl
  | cons e es ih =>
    obtain ⟨a, x⟩ := e
    rw [List.map_cons, List.length_cons]
    cases hd : (discarding B .ordinary hooks σ₀ x).reply with
    | panics =>
      rw [firstPanic_of_panics hd, if_pos (Nat.succ_pos _), teardown_of_panics hd]
      rfl
    | returns u =>
      rw [firstPanic_of_returns hd, teardown_of_returns hd]
      simpa [Teardown.stop] using ih _

/-- **What happens along a walk**: every node up to the first panic gives its block back, and then its
value is handed over. -/
theorem teardown_events (hooks : Hooks η) (source : Allocator) (σ₀ : σ) (es : List (Addr × α)) :
    (teardown B .ordinary hooks source σ₀ es).events =
      destructions source es (handovers B hooks.free σ₀ (es.map (·.2)))
        (firstPanic B hooks.free σ₀ (es.map (·.2))) := by
  induction es generalizing σ₀ with
  | nil => rfl
  | cons e es ih =>
    obtain ⟨a, x⟩ := e
    rw [List.map_cons, handovers_cons, destructions_cons]
    cases hd : (discarding B .ordinary hooks σ₀ x).reply with
    | panics =>
      rw [firstPanic_of_panics hd, teardown_of_panics hd]
      rfl
    | returns u =>
      rw [firstPanic_of_returns hd, teardown_of_returns hd, ih]
      rfl

/-- The header goes back after the nodes, if no hook panics. -/
theorem eventsWithHeader_eq (t : Teardown η σ α) (source : Allocator) (l : Addr) :
    t.eventsWithHeader source l =
      t.events ++ if t.stop = none then [.released source l .header] else [] := by
  unfold Teardown.eventsWithHeader Teardown.stop
  cases t.left <;> simp

end

/-! ## Steps of a program -/

/-- **The step destroys the entries `es`** of a list with these hooks and this allocator, in order from
the front, up to the first value at which the free hook panics. If it never does, `header` happens
after that. -/
structure Step.Destroys (B : Behaviour η σ α) (hooks : Hooks η) (source : Allocator)
    (es : List (Addr × α)) (header : List (Event η α)) (st : Step η σ α) : Prop where
  /-- The panic goes on to the program. -/
  outcome : st.outcome =
    if firstPanic B hooks.free st.before.store.hookState (es.map (·.2)) < es.length
    then .stopped (.panicked .free) else .answered .done
  /-- Nothing is done to the entries behind the panic. -/
  events : st.events =
    destructions source es (handovers B hooks.free st.before.store.hookState (es.map (·.2)))
      (firstPanic B hooks.free st.before.store.hookState (es.map (·.2))) ++
    if firstPanic B hooks.free st.before.store.hookState (es.map (·.2)) < es.length
    then [] else header

/-- **The laws of emptying and destroying** the list `l` of a program, which has the record `r`. -/
structure World.ClearLaws (B : Behaviour η σ α) (w : World η σ α) (l : Addr) (r : Record η) :
    Prop where
  /-- The entries are as many as the record says, each in a node of its own. -/
  length : (w.store.heap.entries l).length = r.length
  nodup : ((w.store.heap.entries l).map (·.1)).Nodup
  /-- Emptying destroys the entries. -/
  cleared : (w.stepOf B (.clear l)).Destroys B r.hooks r.allocator (w.store.heap.entries l) []
  /-- The list is empty and well-formed then, whether or not the hook panicked, with the same hooks
  and the same allocator. -/
  emptied : let w' := (w.perform B (.clear l)).2
    l ∈ w'.holdings.lists ∧ w'.ListInvariant l 0 ∧ w'.store.heap.entries l = [] ∧
      w'.store.heap.record? l = some { r with length := 0 }
  /-- From then on it can be used as a list that is created and given these hooks. -/
  created : ∀ c, let w' := (w.perform B (.clear l)).2
    (w'.perform B (.create r.allocator)).1 = .answered (.list c) →
    (w'.run B [.create r.allocator, .setHooks c r.hooks]).2.Interchangeable B l c
  /-- As long as no operation works on it, it can be used as any empty list with this record. -/
  alike : ∀ ops c, let w' := ((w.perform B (.clear l)).2.run B ops).2
    (∀ op ∈ ops, l ∉ op.targets) → c ∈ w'.owners →
    w'.store.heap.record? c = some { r with length := 0 } → w'.Interchangeable B l c
  /-- Destroying the list destroys the entries, and then the header goes back unless the hook
  panicked. The program has no such list any more in both cases. -/
  destroyed : (w.stepOf B (.destroy l)).Destroys B r.hooks r.allocator (w.store.heap.entries l)
      [.released r.allocator l .header] ∧ l ∉ (w.perform B (.destroy l)).2.owners
  /-- Dropping an owning iterator does so with the entries that were not yielded. -/
  dropped : ∀ word : List End, let es := w.store.heap.entries l
    let w' := (w.run B (.intoIter l :: word.map (.take l))).2
    List.Forall₂ (Step.TakesOut l r.allocator)
        ((w.perform B (.intoIter l)).2.steps B (word.map (.take l))) (sweep word es) ∧
      es = yielded .front word (sweep word es) ++
        (remains word es ++ (yielded .back word (sweep word es)).reverse) ∧
      (w'.stepOf B (.dropIter l)).Destroys B r.hooks r.allocator (remains word es)
        [.released r.allocator l .header] ∧
      l ∉ (w'.perform B (.dropIter l)).2.owners

/-- A step destroys what the walk does that it consists of. -/
theorem Step.Destroys.of_teardown {st : Step η σ α} {k : Strip η α} {σ₀ : σ}
    {header : List (Event η α)} (hstate : st.before.store.hookState = σ₀)
    (houtcome : st.outcome =
      .ofStop .done (teardown B .ordinary k.hooks k.allocator σ₀ k.entries).stop)
    (hevents : st.events = (teardown B .ordinary k.hooks k.allocator σ₀ k.entries).events ++
      if (teardown B .ordinary k.hooks k.allocator σ₀ k.entries).stop = none then header else []) :
    st.Destroys B k.hooks k.allocator k.entries header := by
  rw [teardown_stop] at houtcome hevents
  rw [teardown_events] at hevents
  subst hstate
  constructor
  · rw [houtcome]
    split <;> rfl
  · rw [hevents]
    split <;> simp

namespace World

section
variable {w : World η σ α} {v : View η σ α} {op : Op η α} {l c : Addr} {k : Strip η α}
  {budgets : Array (Option Nat)} {hookState : σ}

namespace Sound

/-- **A list is emptied.** -/
theorem clear_step (hw : w.Sound v) (hl : (l, k) ∈ v.lists) (hlists : l ∈ w.holdings.lists) :
    (w.stepOf B (.clear l)).Destroys B k.hooks k.allocator k.entries [] ∧
      l ∈ (w.perform B (.clear l)).2.holdings.lists ∧
      ∃ v', (w.perform B (.clear l)).2.Sound v' ∧ (l, { k with entries := [] }) ∈ v'.lists := by
  have hcheck : (Op.clear l : Op η α).check w = .ok () := expectList_of_lists hlists
  have hstill : l ∈ (w.perform B (.clear l)).2.holdings.lists := by
    rw [perform_of_ok hcheck]
    exact (holdings_of_not_seats hcheck rfl).2 l hlists
  obtain ⟨v', hst⟩ := hw.step (B := B) (.clear l)
  rcases hst.effect.of_clear with ⟨why, hwhy, -⟩ | ⟨k', rest, hp, ho, rfl⟩
  · exact absurd hwhy (perform_ne_misused hcheck why)
  · obtain rfl := (hw.ring hl).unique (hw.ring (hp.mem_iff.2 List.mem_cons_self))
    refine ⟨.of_teardown hw.shows.hookState ho ?_, hstill, _, hst.after, List.mem_cons_self⟩
    rw [hst.events_eq rfl, ite_self, List.append_nil]

/-- **A list is destroyed** with its header. -/
theorem ends_step (hw : w.Sound v) (hl : (l, k) ∈ v.lists) (hop : op.ends? = some l)
    (hcheck : op.check w = .ok ()) :
    (w.stepOf B op).Destroys B k.hooks k.allocator k.entries [.released k.allocator l .header] ∧
      l ∉ (w.perform B op).2.owners := by
  obtain ⟨v', hst⟩ := hw.step (B := B) op
  rcases hst.effect.of_ends hop with ⟨why, hwhy, -⟩ | ⟨k', rest, hp, ho, rfl⟩
  · exact absurd hwhy (perform_ne_misused hcheck why)
  · obtain rfl := (hw.ring hl).unique (hw.ring (hp.mem_iff.2 List.mem_cons_self))
    refine ⟨.of_teardown hw.shows.hookState ho ?_, fun hmem => ?_⟩
    · rw [hst.events_eq rfl, eventsWithHeader_eq]
    · -- the headers of the other lists are other blocks
      have hnd := (hw.shows.lists.perm hp).nodup_headers
      have hafter : (w.perform B op).2.Sound _ := hst.after
      exact (List.nodup_cons.1 hnd).1 (hafter.owners.mem_iff.2 hmem)

/-- **A list that is created** and given hooks is another one, and empty. -/
theorem create_record {source : Allocator} (hs : Hooks η) (hw : w.Sound v)
    (h : (w.perform B (.create source)).1 = .answered (.list c)) :
    let w' := (w.run B [.create source, .setHooks c hs]).2
    c ∉ w.owners ∧ c ∈ w'.owners ∧ w'.store.heap.record? c = some ⟨0, hs, source⟩ := by
  intro w'
  have hc := check_of_answered h
  obtain ⟨v₁, hst₁⟩ := hw.step (B := B) (.create source)
  have hw₁ : (w.perform B (.create source)).2.Sound v₁ := hst₁.after
  have ho : (w.stepOf B (.create source)).outcome = .answered (.list c) := h
  rcases hst₁.effect.of_create with ⟨why, hwhy, -⟩ | ⟨hstop, -⟩ | ⟨hserve, hans, rfl⟩
  · cases ho.symm.trans hwhy
  · cases ho.symm.trans hstop
  obtain rfl : v.fresh = c := by simpa using hans.symm.trans ho
  have hlists : v.fresh ∈ (w.perform B (.create source)).2.holdings.lists := by
    have hact : (Op.create source : Op η α).act B w.holdings =
      RingList.create source >>= fun l => pure (.list l, w.holdings.addList l) := rfl
    obtain ⟨s', hrun⟩ := hw.perform_of_yields hc hact (create_yields hserve)
    rw [hrun]
    exact List.mem_append_right _ (List.mem_singleton_self _)
  have hcheck : (Op.setHooks v.fresh hs : Op η α).check (w.perform B (.create source)).2 = .ok () :=
    expectList_of_lists hlists
  obtain ⟨v₂, hst₂⟩ := hw₁.step (B := B) (.setHooks v.fresh hs)
  have hw₂ : w'.Sound v₂ := hst₂.after
  rcases hst₂.effect.of_setHooks with ⟨why, hwhy, -⟩ | ⟨k', rest, hp, rfl⟩
  · exact absurd hwhy (perform_ne_misused hcheck why)
  have hnew : (v.fresh, (⟨{}, source, []⟩ : Strip η α)) ∈ ((v.supply source .header).having
      ((v.fresh, ⟨{}, source, []⟩) :: v.lists)).lists := List.mem_cons_self
  obtain rfl := (hw₁.ring hnew).unique (hw₁.ring (hp.mem_iff.2 List.mem_cons_self))
  refine ⟨fun hm => ?_, hw₂.mem_owners List.mem_cons_self, (hw₂.ring List.mem_cons_self).record?_eq⟩
  obtain ⟨k, hk⟩ := hw.mem_lists hm
  exact Nat.lt_irrefl _ (hw.lt_fresh hk)

end Sound

theorem Reachable.run {ops : List (Op η α)} (hw : w.Reachable B budgets hookState) :
    (w.run B ops).2.Reachable B budgets hookState := by
  induction ops generalizing w with
  | nil => exact hw
  | cons op ops ih => exact ih (hw.perform op)

/-- **Emptying and destroying lists**, with a panic of the free hook at any value or none. -/
theorem clear_laws {r : Record η} (hw : w.Reachable B budgets hookState)
    (hl : l ∈ w.holdings.lists) (hr : w.store.heap.record? l = some r) : w.ClearLaws B l r := by
  obtain ⟨v, -, hs, -⟩ := hw.sound
  obtain ⟨k, hk⟩ := hs.mem_lists (owners_of_lists hl)
  obtain rfl : k.record = r := Option.some.inj ((hs.ring hk).record?_eq.symm.trans hr)
  have hentries : w.store.heap.entries l = k.entries := (hs.ring hk).entries_eq
  obtain ⟨hcleared, hstill, v₁, hs₁, hl₁⟩ := hs.clear_step (B := B) hk hl
  have hw₁ := hw.perform (.clear l)
  have halike : ∀ ops c, let w' := ((w.perform B (.clear l)).2.run B ops).2
      (∀ op ∈ ops, l ∉ op.targets) → c ∈ w'.owners →
      w'.store.heap.record? c = some { k.record with length := 0 } → w'.Interchangeable B l c := by
    intro ops c w' hops hc hrecord
    have hsame := hs₁.sameList_run (B := B) (hs₁.mem_owners hl₁) hops
    exact hw₁.run.interchangeable hsame.owned hc
      (hsame.record.trans (hs₁.ring hl₁).record?_eq) hrecord rfl
  refine ⟨?_, ?_, ?_, ?_, fun c h => ?_, halike, ?_, fun word => ?_⟩
  · rw [hentries]
    rfl
  · rw [hentries]
    exact (hs.ring hk).nodup
  · rw [hentries]
    exact hcleared
  · exact ⟨hstill, hs₁.listInvariant hl₁, (hs₁.ring hl₁).entries_eq, (hs₁.ring hl₁).record?_eq⟩
  · obtain ⟨hout, hc, hrecord⟩ := hs₁.create_record k.hooks h
    have hne : l ≠ c := fun he => hout (he ▸ hs₁.mem_owners hl₁)
    refine halike [.create k.allocator, .setHooks c k.hooks] c (fun op hop => ?_) hc hrecord
    rcases List.mem_cons.1 hop with rfl | hop
    · exact List.not_mem_nil
    · rw [List.mem_singleton.1 hop]
      exact fun hm => hne (List.mem_singleton.1 hm)
  · rw [hentries]
    exact hs.ends_step hk rfl (expectList_of_lists hl)
  · obtain ⟨v₂, hs₂, hl₂, hit⟩ := hs.intoIter_step (B := B) hk hl
    obtain ⟨htakes, hit', v₃, hs₃, hl₃⟩ := hs₂.take_run (B := B) word hl₂ hit
    have hcheck : (Op.dropIter l : Op η α).check
        ((w.perform B (.intoIter l)).2.run B (word.map (.take l))).2 = .ok () :=
      expectIterator_of_iterators hit'
    rw [hentries]
    exact ⟨htakes, eq_yielded_append word k.entries, hs₃.ends_step hl₃ rfl hcheck⟩

/-- The hook panics at the second one of three values: the third node is left alone, and the list
takes new values. -/
theorem clear_laws_panicking :
    let B : Behaviour Unit Nat Nat := {
      dup _ s x := (.returns (some x), s)
      free _ s _ := (if s = 1 then .panics else .returns (), s + 1)
      freeUnwinding _ s _ := s + 1
      matching _ s x key := (.returns (x == key), s) }
    let r : Record Unit := ⟨3, { free := some () }, .global⟩
    let w := ((World.start #[] 0).run B [.create .global, .setHooks 0 r.hooks, .addTail 0 7,
      .addTail 0 8, .addTail 0 9]).2
    (0 ∈ w.holdings.lists ∧ w.store.heap.record? 0 = some r) ∧
      (w.stepOf B (.clear 0)).events = [.released .global 1 .node, .free () 7 (.returns ()),
        .released .global 2 .node, .free () 8 .panics] ∧
      (w.run B [.clear 0, .length 0, .addTail 0 5, .front 0]).1 =
        [.stopped (.panicked .free), .answered (.count 0), .answered (.node (some 4)),
          .answered (.value (some 5))] ∧
      w.ClearLaws B 0 r := by
  intro B r w
  have hw : w.Reachable B #[] 0 := ⟨_, rfl⟩
  have hl : 0 ∈ w.holdings.lists := by decide +kernel
  have hr : w.store.heap.record? 0 = some r := by decide +kernel
  exact ⟨⟨hl, hr⟩, by decide +kernel, by decide +kernel, clear_laws hw hl hr⟩

end

end World

end RingList
