import RingList.Proofs.Simulation
import RingList.Proofs.Walks

/-!
# Coupled runs

A program does on a coupled world what it does on the first one, if it names the corresponding lists
and nodes and gives the images of the values. What it holds on to has to be known: its lists, its
owning iterators, and the places of its cursors, as long as they are not stale.

* `Op.check_coupled`, `Op.takes_coupled`, `Op.act_simulates`: what the program may ask for, what an
  operation takes from it, and the work of the operation.
* `World.Coupled.steps`: every run.
-/

set_option autoImplicit false

namespace RingList

variable {η σ τ α β γ δ : Type} {C : Coupling σ τ α β}

/-! ## What a program holds on to -/

/-- The list of a cursor and its link are known. -/
def Coupling.KnownSeat (C : Coupling σ τ α β) (s : Seat) : Prop :=
  C.known s.cursor.header ∧ ∀ a ∈ s.cursor.next, C.known a

namespace Seat

variable {π : Addr → Addr} {s : Seat}

theorem rename_afterDeparture (hπ : Function.Injective π) (l : Addr) (ns : List Addr) :
    (s.rename π).afterDeparture (π l) (ns.map π) = (s.afterDeparture l ns).rename π := by
  have hlist : (s.rename π).list = π l ↔ s.list = l := hπ.eq_iff
  have hany : (ns.map π).any (fun node => some node != (s.rename π).last) =
      ns.any fun node => some node != s.last := by
    rw [List.any_map]
    refine congrArg (List.any ns) (funext fun node => ?_)
    rw [Bool.eq_iff_iff]
    have hlast : some (π node) = s.last.map π ↔ some node = s.last :=
      (Option.map_injective hπ).eq_iff (a := some node)
    simpa [rename] using not_congr hlast
  unfold afterDeparture
  rw [hany]
  by_cases h : s.list = l ∧ ns.any (fun node => some node != s.last) = true
  · rw [if_pos h, if_pos ⟨hlist.2 h.1, h.2⟩]
    rfl
  · rw [if_neg h, if_neg fun h' => h ⟨hlist.1 h'.1, h'.2⟩]

theorem rename_afterEnd (hπ : Function.Injective π) (l : Addr) :
    (s.rename π).afterEnd (π l) = (s.afterEnd l).rename π := by
  have hlist : (s.rename π).list = π l ↔ s.list = l := hπ.eq_iff
  unfold afterEnd
  by_cases h : s.list = l
  · rw [if_pos h, if_pos (hlist.2 h)]
    rfl
  · rw [if_neg h, if_neg (mt hlist.1 h)]

end Seat

/-- The second program holds on to what stands for what the first one holds on to, which is known. -/
structure Holdings.Coupled (C : Coupling σ τ α β) (t t' : Holdings) : Prop where
  renamed : t' = t.rename C.addr
  lists : ∀ l ∈ t.lists, C.known l
  iterators : ∀ l ∈ t.iterators, C.known l
  seats : ∀ s ∈ t.seats, s.stale = false → C.KnownSeat s

namespace Holdings.Coupled

variable {t t' : Holdings} {l : Addr}

theorem erase_renamed (xs : List Addr) (l : Addr) :
    (xs.map C.addr).erase (C.addr l) = (xs.erase l).map C.addr := by
  rw [List.map_erase C.injective]

theorem depart (ht : t.Coupled C t') (l : Addr) (ns : List Addr) :
    (t.depart l ns).Coupled C (t'.depart (C.addr l) (ns.map C.addr)) := by
  refine ⟨?_, ht.lists, ht.iterators, fun s hs hfresh => ?_⟩
  · rw [ht.renamed]
    simp [Holdings.depart, Holdings.rename, Seat.rename_afterDeparture C.injective,
      Function.comp_def]
  · exact ht.seats s (Holdings.fresh_of_depart hs hfresh).1 hfresh

theorem endList (ht : t.Coupled C t') (l : Addr) :
    (t.endList l).Coupled C (t'.endList (C.addr l)) := by
  refine ⟨?_, fun m hm => ht.lists m (List.mem_of_mem_erase hm), ht.iterators,
    fun s hs hfresh => ?_⟩
  · rw [ht.renamed]
    simp [Holdings.endList, Holdings.rename, Seat.rename_afterEnd C.injective, Function.comp_def,
      erase_renamed]
  · exact ht.seats s (Holdings.fresh_of_endList hs hfresh).1 hfresh

theorem endIterator (ht : t.Coupled C t') (l : Addr) :
    (t.endIterator l).Coupled C (t'.endIterator (C.addr l)) := by
  refine ⟨?_, ht.lists, fun m hm => ht.iterators m (List.mem_of_mem_erase hm), ht.seats⟩
  rw [ht.renamed]
  simp [Holdings.endIterator, Holdings.rename, erase_renamed]

theorem addList (ht : t.Coupled C t') (hl : C.known l) :
    (t.addList l).Coupled C (t'.addList (C.addr l)) := by
  refine ⟨?_, fun m hm => ?_, ht.iterators, ht.seats⟩
  · rw [ht.renamed]
    simp [Holdings.addList, Holdings.rename]
  · rcases List.mem_append.1 hm with hm | hm
    · exact ht.lists m hm
    · exact List.mem_singleton.1 hm ▸ hl

theorem addIterator (ht : t.Coupled C t') (hl : C.known l) :
    (t.addIterator l).Coupled C (t'.addIterator (C.addr l)) := by
  refine ⟨?_, ht.lists, fun m hm => ?_, ht.seats⟩
  · rw [ht.renamed]
    simp [Holdings.addIterator, Holdings.rename]
  · rcases List.mem_append.1 hm with hm | hm
    · exact ht.iterators m hm
    · exact List.mem_singleton.1 hm ▸ hl

theorem addSeat (ht : t.Coupled C t') {s : Seat} (hs : C.KnownSeat s) :
    (t.addSeat s).Coupled C (t'.addSeat (s.rename C.addr)) := by
  refine ⟨?_, ht.lists, ht.iterators, fun s' hs' hfresh => ?_⟩
  · rw [ht.renamed]
    simp [Holdings.addSeat, Holdings.rename]
  · rcases Array.mem_push.1 hs' with hs' | rfl
    · exact ht.seats s' hs' hfresh
    · exact hs

theorem setSeat (ht : t.Coupled C t') (c : Nat) {s : Seat} (hs : C.KnownSeat s) :
    (t.setSeat c s).Coupled C (t'.setSeat c (s.rename C.addr)) := by
  refine ⟨?_, ht.lists, ht.iterators, fun s' hs' hfresh => ?_⟩
  · rw [ht.renamed]
    simp [Holdings.setSeat, Holdings.rename, Array.map_setIfInBounds]
  · rcases Array.mem_or_eq_of_mem_setIfInBounds hs' with hs' | rfl
    · exact ht.seats s' hs' hfresh
    · exact hs

theorem seat (ht : t.Coupled C t') {c : Nat} {s : Seat} (hs : t.seats[c]? = some s) :
    t'.seats[c]? = some (s.rename C.addr) := by
  rw [ht.renamed]
  simp [Holdings.rename, hs]

end Holdings.Coupled

/-! ## Worlds -/

/-- The stores are coupled, and what the programs hold on to. -/
structure World.Coupled (C : Coupling σ τ α β) (w : World η σ α) (w' : World η τ β) : Prop where
  store : w.store.Coupled C w'.store
  holdings : w.holdings.Coupled C w'.holdings

namespace World.Coupled

variable {w : World η σ α} {w' : World η τ β} (hw : w.Coupled C w') {l : Addr}
include hw

theorem known (hl : l ∈ w.owners) : C.known l :=
  (List.mem_append.1 hl).elim (hw.holdings.lists l) (hw.holdings.iterators l)

theorem nodes (hl : C.known l) :
    w'.nodes (C.addr l) = (w.nodes l).map C.addr ∧ ∀ a ∈ w.nodes l, C.known a :=
  hw.store.heap.nodes hl

/-! ### What a program may ask for -/

theorem contains_lists (l : Addr) :
    w'.holdings.lists.contains (C.addr l) = w.holdings.lists.contains l := by
  rw [hw.holdings.renamed, Bool.eq_iff_iff, List.contains_iff_mem, List.contains_iff_mem]
  exact List.mem_map_of_injective C.injective

theorem contains_iterators (l : Addr) :
    w'.holdings.iterators.contains (C.addr l) = w.holdings.iterators.contains l := by
  rw [hw.holdings.renamed, Bool.eq_iff_iff, List.contains_iff_mem, List.contains_iff_mem]
  exact List.mem_map_of_injective C.injective

theorem expectList (l : Addr) : w'.expectList (C.addr l) = w.expectList l := by
  unfold World.expectList
  rw [hw.contains_lists]

/-- What is asked of a list that the program names may use that it is known. -/
theorem expectList_bind {x x' : Except Misuse Unit} (hx : C.known l → x' = x) :
    (w'.expectList (C.addr l) >>= fun _ => x') = w.expectList l >>= fun _ => x := by
  rw [hw.expectList]
  cases h : w.expectList l with
  | error why => rfl
  | ok u => exact hx (hw.known (owners_of_expectList h))

theorem expectNode (l node : Addr) :
    w'.expectNode (C.addr l) (C.addr node) = w.expectNode l node :=
  hw.expectList_bind fun hl => by
    unfold World.holds
    rw [hw.store.heap.hasNode hl]

theorem expectIterator (it : Addr) : w'.expectIterator (C.addr it) = w.expectIterator it := by
  unfold World.expectIterator
  rw [hw.contains_iterators]

theorem expectCursor (c : Nat) :
    w'.expectCursor c = (w.expectCursor c).map (Seat.rename C.addr) := by
  unfold World.expectCursor
  rw [hw.holdings.renamed]
  simp only [Holdings.rename, Array.getElem?_map]
  cases w.holdings.seats[c]? <;> rfl

theorem expectFresh (c : Nat) :
    w'.expectFresh c = (w.expectFresh c).map (Seat.rename C.addr) := by
  unfold World.expectFresh
  rw [hw.expectCursor]
  cases w.expectCursor c with
  | error why => rfl
  | ok s =>
    show (if s.stale = true then _ else _) = Except.map _ (if s.stale = true then _ else _)
    cases s.stale <;> rfl

theorem expectSupply (source : Allocator) (n : Nat) :
    w'.expectSupply source n = w.expectSupply source n := by
  unfold World.expectSupply
  rw [hw.store.supplies]

theorem hasAllocator (source : Allocator) : w'.hasAllocator source = w.hasAllocator source := by
  cases source with
  | global => rfl
  | limited k => simp [World.hasAllocator, hw.store.budgets]

/-! ### What a check grants -/

/-- A list that an operation may name is known. -/
theorem known_of_expectList (h : w.expectList l = .ok ()) : C.known l :=
  hw.known (World.owners_of_expectList h)

theorem known_of_expectNode {a : Addr} (h : w.expectNode l a = .ok ()) :
    C.known l ∧ C.known a := by
  obtain ⟨hl, ha⟩ := World.holds_of_expectNode h
  have hknown := hw.known_of_expectList hl
  unfold World.holds at ha
  rw [Heap.hasNode_eq_contains, List.contains_iff_mem] at ha
  exact ⟨hknown, (hw.nodes hknown).2 a ha⟩

theorem known_of_expectIterator (h : w.expectIterator l = .ok ()) : C.known l :=
  hw.known (List.mem_append_right _ (World.iterators_of_expectIterator h))

theorem knownSeat {c : Nat} {s : Seat} (hs : w.holdings.seats[c]? = some s)
    (hfresh : s.stale = false) : C.KnownSeat s :=
  hw.holdings.seats s (Array.mem_of_getElem? hs) hfresh

/-- The next cursor has the same number in both programs. -/
theorem seats_size : w'.holdings.seats.size = w.holdings.seats.size := by
  simp [hw.holdings.renamed, Holdings.rename]

end World.Coupled

section
variable {w : World η σ α} {w' : World η τ β}

theorem bind_map_unit {β γ : Type} (f : β → γ) (x : Except Misuse β) :
    (x.map f >>= fun _ => pure ()) = (x >>= fun _ => pure () : Except Misuse Unit) := by
  cases x <;> rfl

theorem Op.check_coupled (hw : w.Coupled C w') (op : Op η α) :
    (C.op op).check w' = op.check w := by
  cases op with
  | create source => simp only [Coupling.op, Op.map, Op.rename, Op.check, hw.hasAllocator]
  | refill k budget => simp only [Coupling.op, Op.map, Op.rename, Op.check, hw.hasAllocator]
  | collect vs =>
    simp only [Coupling.op, Op.map, Op.rename, Op.check, hw.expectSupply, List.length_map]
  | extend l vs =>
    refine hw.expectList_bind fun hl => ?_
    rw [hw.store.heap.record? hl, hw.expectSupply, List.length_map]
  | join l m =>
    refine hw.expectList_bind fun _ => hw.expectList_bind fun _ => ?_
    simp only [C.addr_inj]
  | equal l m rel => exact hw.expectList_bind fun _ => hw.expectList m
  | index l i => exact hw.expectList_bind fun _ => rfl
  | rewind c l d =>
    refine hw.expectList_bind fun _ => ?_
    rw [hw.expectCursor]
    exact bind_map_unit _ _
  | direction c =>
    show (w'.expectCursor c >>= _) = _
    rw [hw.expectCursor]
    exact bind_map_unit _ _
  | step c | peek c | cloneCursor c =>
    show (w'.expectFresh c >>= _) = _
    rw [hw.expectFresh]
    exact bind_map_unit _ _
  | callDup h v | callFree h v | callMatching h v key => rfl
  | insert l node | delete l node | exchange l node | value l node | nextNode l node
  | prevNode l node => exact hw.expectNode l node
  | take it | dropIter it => exact hw.expectIterator it
  | _ => exact hw.expectList _

/-- **What an operation takes** from coupled programs. -/
theorem Op.takes_coupled (hw : w.Coupled C w') {op : Op η α} (hc : op.check w = .ok ()) :
    (op.takes w).Coupled C ((C.op op).takes w') := by
  cases op with
  | delete l node => exact hw.holdings.depart l [node]
  | popFront l =>
    have hfirst := hw.store.heap.first? (hw.known_of_expectList hc)
    have ht := hw.holdings.depart l (w.store.heap.first? l).toList
    rw [← Option.toList_map, ← hfirst] at ht
    exact ht
  | popBack l =>
    have hlast := hw.store.heap.last? (hw.known_of_expectList hc)
    have ht := hw.holdings.depart l (w.store.heap.last? l).toList
    rw [← Option.toList_map, ← hlast] at ht
    exact ht
  | clear l =>
    have ht := hw.holdings.depart l (w.nodes l)
    rw [← (hw.nodes (hw.known_of_expectList hc)).1] at ht
    exact ht
  | join l m =>
    obtain ⟨_, -, hc⟩ := bind_ok_inv hc
    obtain ⟨_, hm, -⟩ := bind_ok_inv hc
    have ht := hw.holdings.depart m (w.nodes m)
    rw [← (hw.nodes (hw.known_of_expectList hm)).1] at ht
    exact ht
  | destroy l | intoIter l => exact hw.holdings.endList l
  | dropIter it => exact hw.holdings.endIterator it
  | _ => exact hw.holdings

end

/-! ## The work of an operation -/

/-- Corresponding answers, and programs that hold on to what corresponds. -/
def Coupling.Answers (C : Coupling σ τ α β) (p : Answer η α × Holdings)
    (p' : Answer η β × Holdings) : Prop := p'.1 = C.answer p.1 ∧ p.2.Coupled C p'.2

section
variable {t t' : Holdings}

theorem keeping_simulates {Q : γ → δ → Prop} {act : Action η σ α γ} {act' : Action η τ β δ}
    {answer : γ → Answer η α} {answer' : δ → Answer η β} (ht : t.Coupled C t')
    (hact : Simulates C Q act act') (hanswer : ∀ b b', Q b b' → answer' b' = C.answer (answer b)) :
    Simulates C C.Answers (Op.keeping t answer act) (Op.keeping t' answer' act') :=
  hact.bind fun b b' hb => .pure ⟨hanswer b b' hb, ht⟩

theorem refill_simulates (k : Nat) (budget : Option Nat) :
    Simulates (η := η) C Eq (refill k budget) (refill k budget) :=
  .modify fun _ _ hs => .withBudgets hs (by rw [hs.budgets])

/-- A list that is made is added to what the program holds on to. -/
theorem adding_simulates {act : Action η σ α Addr} {act' : Action η τ β Addr} (ht : t.Coupled C t')
    (hact : Simulates C C.Addrs act act') : Simulates (η := η) C C.Answers
      (act >>= fun l => pure ((.list l : Answer η α), t.addList l))
      (act' >>= fun l => pure ((.list l : Answer η β), t'.addList l)) :=
  hact.bind fun _ _ ⟨hknown, he⟩ => .pure ⟨he ▸ rfl, he ▸ ht.addList hknown⟩

end

section
variable {B : Behaviour η σ α} {B' : Behaviour η τ β} {w : World η σ α} {w' : World η τ β}
  {op : Op η α}

/-- The work of an operation that reads one list. -/
theorem Op.act_simulates_reads (hw : w.Coupled C w') (hop : op.reads = true)
    (hc : op.check w = .ok ()) : Simulates C C.Answers (op.act B (op.takes w))
      ((C.op op).act B' ((C.op op).takes w')) := by
  have ht := Op.takes_coupled hw hc
  cases op with
  | head l =>
    exact keeping_simulates ht (head_simulates (hw.known_of_expectList hc))
      fun _ _ h => congrArg Answer.node h.2
  | tail l =>
    exact keeping_simulates ht (tail_simulates (hw.known_of_expectList hc))
      fun _ _ h => congrArg Answer.node h.2
  | front l =>
    exact keeping_simulates ht (front_simulates (hw.known_of_expectList hc))
      fun _ _ h => congrArg Answer.value h
  | back l =>
    exact keeping_simulates ht (back_simulates (hw.known_of_expectList hc))
      fun _ _ h => congrArg Answer.value h
  | length l =>
    exact keeping_simulates ht (length_simulates (hw.known_of_expectList hc))
      fun _ _ h => congrArg Answer.count h.symm
  | isEmpty l =>
    exact keeping_simulates ht (isEmpty_simulates (hw.known_of_expectList hc))
      fun _ _ h => congrArg Answer.truth h.symm
  | value l a =>
    exact keeping_simulates ht (value_simulates (hw.known_of_expectNode hc).2)
      fun _ _ h => congrArg (Answer.value ∘ some) h
  | nextNode l a =>
    exact keeping_simulates ht (nextNode_simulates l (hw.known_of_expectNode hc).2)
      fun _ _ h => congrArg Answer.node h.2
  | prevNode l a =>
    exact keeping_simulates ht (prevNode_simulates l (hw.known_of_expectNode hc).2)
      fun _ _ h => congrArg Answer.node h.2
  | hooks l =>
    exact keeping_simulates ht (hooks_simulates (hw.known_of_expectList hc))
      fun _ _ h => congrArg Answer.hooks h.symm
  | allocator l =>
    exact keeping_simulates ht (allocator_simulates (hw.known_of_expectList hc))
      fun _ _ h => congrArg Answer.allocator h.symm
  | _ => cases hop

/-- The work of a step of a cursor. -/
theorem Op.act_simulates_step {c : Nat} (hw : w.Coupled C w')
    (hc : (Op.step c : Op η α).check w = .ok ()) :
    Simulates C C.Answers ((Op.step c).act B w.holdings) ((Op.step c).act B' w'.holdings) := by
  obtain ⟨s, hs⟩ := World.seat_of_expectFresh hc
  obtain ⟨hheader, hnext⟩ := hw.knownSeat hs (World.Sound.fresh_of_expectFresh hs hc)
  rw [Op.act_step hs, Op.act_step (hw.holdings.seat hs)]
  refine (step_simulates ⟨hheader, hnext, rfl⟩).bind fun r r' h => ?_
  obtain ⟨⟨_, hnode⟩, hheader, hnext, hmoved⟩ := h
  obtain ⟨node, moved⟩ := r
  obtain ⟨node', moved'⟩ := r'
  dsimp only at hnode hheader hnext hmoved
  subst hnode hmoved
  exact .pure ⟨rfl, hw.holdings.setSeat c ⟨hheader, hnext⟩⟩

/-- The work of an operation that looks at lists, by position or by cursor. -/
theorem Op.act_simulates_looks (hw : w.Coupled C w') (hop : op.looks = true)
    (hc : op.check w = .ok ()) : Simulates C C.Answers (op.act B (op.takes w))
      ((C.op op).act B' ((C.op op).takes w')) := by
  have ht := Op.takes_coupled hw hc
  cases op with
  | index l i =>
    obtain ⟨_, hl, -⟩ := bind_ok_inv hc
    exact keeping_simulates ht (index_simulates (hw.known_of_expectList hl) i)
      fun _ _ h => congrArg Answer.node h.2
  | iterate l word =>
    exact keeping_simulates ht ((iterStart_simulates (hw.known_of_expectList hc)).bind
      fun _ _ hit => along_simulates word hit) fun _ _ h => congrArg Answer.taken h
  | cursor l d =>
    refine (seat_simulates (hw.known_of_expectList hc) d).bind fun c _ h => ?_
    obtain ⟨hheader, hnext, rfl⟩ := h
    exact .pure ⟨congrArg Answer.cursor hw.seats_size, ht.addSeat ⟨hheader, hnext⟩⟩
  | rewind c l d =>
    obtain ⟨_, hl, -⟩ := bind_ok_inv hc
    refine (seat_simulates (hw.known_of_expectList hl) d).bind fun start _ h => ?_
    obtain ⟨hheader, hnext, rfl⟩ := h
    exact .pure ⟨rfl, ht.setSeat c ⟨hheader, hnext⟩⟩
  | step c => exact Op.act_simulates_step hw hc
  | peek c =>
    obtain ⟨s, hs⟩ := World.seat_of_expectFresh hc
    show Simulates C C.Answers ((Op.peek c).act B w.holdings) ((Op.peek c).act B' w'.holdings)
    rw [Op.act_peek hs, Op.act_peek (hw.holdings.seat hs)]
    exact .pure ⟨rfl, ht⟩
  | direction c =>
    obtain ⟨s, hs⟩ := World.seat_of_expectCursor hc
    show Simulates C C.Answers ((Op.direction c).act B w.holdings)
      ((Op.direction c).act B' w'.holdings)
    rw [Op.act_direction hs, Op.act_direction (hw.holdings.seat hs)]
    exact .pure ⟨rfl, ht⟩
  | cloneCursor c =>
    obtain ⟨s, hs⟩ := World.seat_of_expectFresh hc
    have hseat := hw.knownSeat hs (World.Sound.fresh_of_expectFresh hs hc)
    show Simulates C C.Answers ((Op.cloneCursor c).act B w.holdings)
      ((Op.cloneCursor c).act B' w'.holdings)
    rw [Op.act_cloneCursor hs, Op.act_cloneCursor (hw.holdings.seat hs)]
    exact .pure ⟨congrArg Answer.cursor hw.seats_size, hw.holdings.addSeat hseat⟩
  | _ => cases hop

/-- The work of an operation that calls hooks for matching. -/
theorem Op.act_simulates_consults (hB : B.Image C.value C.state B') (hw : w.Coupled C w')
    (hop : op.consults = true) (hc : op.check w = .ok ()) :
    Simulates C C.Answers (op.act B (op.takes w)) ((C.op op).act B' ((C.op op).takes w')) := by
  have ht := Op.takes_coupled hw hc
  cases op with
  | search l key fallback =>
    exact keeping_simulates ht (search_simulates hB (hw.known_of_expectList hc) key fallback)
      fun _ _ h => congrArg Answer.node h.2
  | equal l m rel =>
    obtain ⟨_, hl, hm⟩ := bind_ok_inv hc
    exact keeping_simulates ht (equal_simulates hB (hw.known_of_expectList hl)
      (hw.known_of_expectList hm) rel) fun _ _ h => congrArg Answer.truth h.symm
  | callMatching h v key =>
    exact keeping_simulates ht (callMatching_simulates hB h v key)
      fun _ _ h => congrArg Answer.truth h.symm
  | _ => cases hop

/-- **The work of an operation** that the program may ask for. -/
theorem Op.act_simulates (hB : B.Image C.value C.state B') (hw : w.Coupled C w')
    (hc : op.check w = .ok ()) : Simulates C C.Answers (op.act B (op.takes w))
      ((C.op op).act B' ((C.op op).takes w')) := by
  have ht := Op.takes_coupled hw hc
  cases op with
  | create source => exact adding_simulates ht (create_simulates source)
  | collect vs =>
    refine (create_simulates .global).bind fun l _ h => ?_
    obtain ⟨hl, rfl⟩ := h
    exact (extend_simulates hl vs).bind fun _ _ _ => .pure ⟨rfl, ht.addList hl⟩
  | duplicate l fallback =>
    exact adding_simulates ht (duplicate_simulates hB (hw.known_of_expectList hc) fallback)
  | addHead l v =>
    exact keeping_simulates ht (addHead_simulates (hw.known_of_expectList hc) v)
      fun _ _ h => by rw [h.2]; rfl
  | addTail l v =>
    exact keeping_simulates ht (addTail_simulates (hw.known_of_expectList hc) v)
      fun _ _ h => by rw [h.2]; rfl
  | insert l anchor v after =>
    obtain ⟨hl, ha⟩ := hw.known_of_expectNode hc
    exact keeping_simulates ht (insert_simulates hl ha v after) fun _ _ h => by rw [h.2]; rfl
  | extend l vs =>
    obtain ⟨_, hl, -⟩ := bind_ok_inv hc
    exact keeping_simulates ht (extend_simulates (hw.known_of_expectList hl) vs) fun _ _ _ => rfl
  | delete l a =>
    obtain ⟨hl, ha⟩ := hw.known_of_expectNode hc
    exact keeping_simulates ht (delete_simulates hB hl ha) fun _ _ _ => rfl
  | popFront l =>
    exact keeping_simulates ht (popFront_simulates (hw.known_of_expectList hc))
      fun _ _ h => congrArg Answer.value h
  | popBack l =>
    exact keeping_simulates ht (popBack_simulates (hw.known_of_expectList hc))
      fun _ _ h => congrArg Answer.value h
  | clear l =>
    exact keeping_simulates ht (clear_simulates hB .ordinary (hw.known_of_expectList hc))
      fun _ _ _ => rfl
  | destroy l =>
    exact keeping_simulates ht (destroy_simulates hB .ordinary (hw.known_of_expectList hc))
      fun _ _ _ => rfl
  | rotate l =>
    exact keeping_simulates ht (rotate_simulates (hw.known_of_expectList hc)) fun _ _ _ => rfl
  | join l m =>
    obtain ⟨_, hl, hc⟩ := bind_ok_inv hc
    obtain ⟨_, hm, -⟩ := bind_ok_inv hc
    exact keeping_simulates ht (join_simulates (hw.known_of_expectList hl)
      (hw.known_of_expectList hm)) fun _ _ _ => rfl
  | exchange l a v =>
    exact keeping_simulates ht (exchange_simulates (hw.known_of_expectNode hc).2 v)
      fun _ _ h => congrArg (Answer.value ∘ some) h
  | setFront l v =>
    exact keeping_simulates ht (setFront_simulates (hw.known_of_expectList hc) v)
      fun _ _ h => congrArg Answer.value h
  | setBack l v =>
    exact keeping_simulates ht (setBack_simulates (hw.known_of_expectList hc) v)
      fun _ _ h => congrArg Answer.value h
  | installHook l kind h =>
    exact keeping_simulates ht (installHook_simulates (hw.known_of_expectList hc) kind h)
      fun _ _ _ => rfl
  | setHooks l hs =>
    exact keeping_simulates ht (setHooks_simulates (hw.known_of_expectList hc) hs)
      fun _ _ _ => rfl
  | callDup h v =>
    exact keeping_simulates ht (callDup_simulates hB h v) fun _ _ h => congrArg Answer.value h
  | callFree h v => exact keeping_simulates ht (callFree_simulates hB h v) fun _ _ _ => rfl
  | intoIter l => exact .pure ⟨rfl, ht.addIterator (hw.known_of_expectList hc)⟩
  | take it e =>
    exact keeping_simulates ht (pop_simulates (hw.known_of_expectIterator hc) e)
      fun _ _ h => congrArg Answer.value h
  | dropIter it =>
    exact keeping_simulates ht (destroy_simulates hB .ordinary (hw.known_of_expectIterator hc))
      fun _ _ _ => rfl
  | refill k budget => exact keeping_simulates ht (refill_simulates k budget) fun _ _ _ => rfl
  | search l key fallback | equal l m rel | callMatching h v key =>
    exact Op.act_simulates_consults hB hw rfl hc
  | index l i | iterate l word | cursor l d | rewind c l d | step c | peek c | direction c
  | cloneCursor c => exact Op.act_simulates_looks hw rfl hc
  | _ => exact Op.act_simulates_reads hw rfl hc

/-! ## Runs -/

/-- **A step between coupled worlds**: it ends in the corresponding way, and what happens corresponds
event by event. -/
structure Step.Coupled (C : Coupling σ τ α β) (st : Step η σ α) (st' : Step η τ β) : Prop where
  op : st'.op = C.op st.op
  outcome : st'.outcome = C.outcome st.outcome
  events : st'.events = st.events.map C.event
  before : st.before.Coupled C st'.before
  after : st.after.Coupled C st'.after

theorem World.Coupled.proceed (hB : B.Image C.value C.state B') (hw : w.Coupled C w')
    (hc : op.check w = .ok ()) : (w'.proceed B' (C.op op)).1 = C.outcome (w.proceed B op).1 ∧
      Advance C w.store w'.store (w.proceed B op).2.store (w'.proceed B' (C.op op)).2.store ∧
      (w.proceed B op).2.holdings.Coupled C (w'.proceed B' (C.op op)).2.holdings := by
  have hact := Op.act_simulates hB hw hc w.store w'.store hw.store
  have ht := Op.takes_coupled hw hc
  simp only [World.proceed]
  generalize op.act B (op.takes w) w.store = r at hact ⊢
  generalize (C.op op).act B' ((C.op op).takes w') w'.store = r' at hact ⊢
  cases hact with
  | @ok b b' s s' hb h => exact ⟨congrArg Outcome.answered hb.1, h, hb.2⟩
  | error h => exact ⟨rfl, h, ht⟩

theorem World.Coupled.perform (hB : B.Image C.value C.state B') (hw : w.Coupled C w')
    (op : Op η α) : (w'.perform B' (C.op op)).1 = C.outcome (w.perform B op).1 ∧
      Advance C w.store w'.store (w.perform B op).2.store (w'.perform B' (C.op op)).2.store ∧
      (w.perform B op).2.holdings.Coupled C (w'.perform B' (C.op op)).2.holdings := by
  unfold World.perform
  rw [Op.check_coupled hw]
  cases hc : op.check w with
  | error why => exact ⟨rfl, .refl hw.store, hw.holdings⟩
  | ok u => exact hw.proceed hB hc

theorem World.Coupled.step (hB : B.Image C.value C.state B') (hw : w.Coupled C w') (op : Op η α) :
    (w.stepOf B op).Coupled C (w'.stepOf B' (C.op op)) := by
  obtain ⟨houtcome, hadvance, hholdings⟩ := hw.perform hB op
  refine ⟨rfl, houtcome, ?_, hw, hadvance.coupled, hholdings⟩
  obtain ⟨evs, hevs, hevs'⟩ := hadvance.events
  have hnew : (w.stepOf B op).events = evs := by
    show (w.perform B op).2.store.events.toList.drop w.store.events.size = evs
    rw [hevs]
    simp
  have hnew' : (w'.stepOf B' (C.op op)).events = evs.map C.event := by
    show (w'.perform B' (C.op op)).2.store.events.toList.drop w'.store.events.size = _
    rw [hevs']
    simp
  rw [hnew, hnew']

/-- **Coupled worlds stay coupled** along every run. -/
theorem World.Coupled.steps (hB : B.Image C.value C.state B') (ops : List (Op η α))
    {w : World η σ α} {w' : World η τ β} (hw : w.Coupled C w') :
    List.Forall₂ (Step.Coupled C) (w.steps B ops) (w'.steps B' (ops.map C.op)) := by
  induction ops generalizing w w' with
  | nil => exact .nil
  | cons op ops ih =>
    have hstep := hw.step hB op
    exact .cons hstep (ih hstep.after)

end

end RingList
