import RingList.Proofs.Frame

/-!
# Worlds and their views

A world is *sound* for a view if its store shows the view and the lists of the view are those that
the program owns, its lists and its owning iterators.

* `World.Sound.perform`: from a sound world every operation ends, with an effect on the view, in a
  world that is sound for the view after it.
-/

set_option autoImplicit false

namespace RingList

variable {η σ α β : Type} {B : Behaviour η σ α} {w : World η σ α} {v v₀ v' : View η σ α}
  {op : Op η α} {l m : Addr} {k : Strip η α} {rest : List (Addr × Strip η α)}

/-- The lists that a program owns: those it names and those in owning iterators. -/
def Holdings.owners (t : Holdings) : List Addr := t.lists ++ t.iterators

def World.owners (w : World η σ α) : List Addr := w.holdings.owners

@[simp] theorem Holdings.owners_depart (t : Holdings) (l : Addr) (ns : List Addr) :
    (t.depart l ns).owners = t.owners := rfl

/-- The world shows the view, and its lists are the program's. -/
structure World.Sound (w : World η σ α) (v : View η σ α) : Prop where
  shows : w.store.Shows v
  owners : (v.lists.map (·.1)).Perm w.owners
  room : v.fresh ≤ Heap.capacity

/-- The operation ends, with an effect on the view, in a world that is sound for the view after
it. -/
def World.Refines (B : Behaviour η σ α) (w : World η σ α) (v : View η σ α) (op : Op η α) : Prop :=
  ∃ v', (w.proceed B op).2.Sound v' ∧ Effect B v op (w.proceed B op).1 v'

theorem World.proceed_of_ok {a : Answer η α} {t : Holdings} {s : Store η σ α}
    (hrun : op.act B (op.takes w) w.store = .ok (a, t) s) :
    w.proceed B op = (.answered a, ⟨s, t⟩) := by
  simp only [World.proceed, hrun]

theorem World.proceed_of_error {e : Stop} {s : Store η σ α}
    (hrun : op.act B (op.takes w) w.store = .error e s) :
    w.proceed B op = (.stopped e, ⟨s, op.takes w⟩) := by
  simp only [World.proceed, hrun]

theorem World.perform_of_ok (hc : op.check w = .ok ()) : w.perform B op = w.proceed B op := by
  unfold World.perform
  rw [hc]

theorem World.perform_of_error {why : Misuse} (hc : op.check w = .error why) :
    w.perform B op = (.misused why, w) := by
  unfold World.perform
  rw [hc]

/-- An operation that is not refused is one that the program may ask for. -/
theorem World.check_of_ne_misused (h : ∀ why, (w.perform B op).1 ≠ .misused why) :
    op.check w = .ok () := by
  cases hc : op.check w with
  | error why => exact absurd (congrArg Prod.fst (World.perform_of_error hc)) (h why)
  | ok u => rfl

theorem World.perform_misused {why : Misuse} (h : (w.perform B op).1 = .misused why) :
    op.check w = .error why ∧ (w.perform B op).2 = w := by
  unfold World.perform at h ⊢
  cases hc : op.check w with
  | error why' =>
    rw [hc] at h
    cases h
    exact ⟨rfl, rfl⟩
  | ok u =>
    rw [hc] at h
    simp only [World.proceed] at h
    split at h <;> cases h

/-- An operation that the program may ask for is not refused. -/
theorem World.perform_ne_misused (hc : op.check w = .ok ()) (why : Misuse) :
    (w.perform B op).1 ≠ .misused why := by
  intro h
  have hc' := (World.perform_misused h).1
  rw [hc] at hc'
  cases hc'

theorem bind_ok_inv {ε δ γ : Type} {x : Except ε δ} {f : δ → Except ε γ} {c : γ}
    (h : x >>= f = .ok c) : ∃ b, x = .ok b ∧ f b = .ok c := by
  cases x with
  | error e => cases h
  | ok b => exact ⟨b, rfl, h⟩

theorem bind_error_inv {ε β γ : Type} {x : Except ε β} {f : β → Except ε γ} {e : ε}
    (h : x >>= f = .error e) : x = .error e ∨ ∃ b, x = .ok b ∧ f b = .error e := by
  cases x with
  | error e' =>
    cases h
    exact .inl rfl
  | ok b => exact .inr ⟨b, rfl, h⟩

namespace World.Sound

/-! ## From actions to operations -/

/-- **From an action to its operation**: what the action does on the view is the operation's
effect. -/
theorem refines {act : Action η σ α β} {answer : β → Answer η α} {hold : β → Holdings} {b : β}
    {stop : Option Stop} (hs : w.store.Shows v₀)
    (hact : op.act B (op.takes w) = act >>= fun b => pure (answer b, hold b))
    (hend : Settles act v₀ b stop v') (hroom : v'.fresh ≤ Heap.capacity)
    (hok : stop = none → (v'.lists.map (·.1)).Perm (hold b).owners)
    (hstop : stop ≠ none → (v'.lists.map (·.1)).Perm (op.takes w).owners)
    (he : Effect B v op (.ofStop (answer b) stop) v') : w.Refines B v op := by
  unfold World.Refines
  cases stop with
  | none =>
    obtain ⟨s', hrun, hs'⟩ := hend w.store hs
    rw [proceed_of_ok ((congrFun hact _).trans (bind_ok hrun))]
    exact ⟨v', ⟨hs', hok rfl, hroom⟩, he⟩
  | some e =>
    obtain ⟨s', hrun, hs'⟩ := hend w.store hs
    rw [proceed_of_error ((congrFun hact _).trans (bind_error hrun))]
    exact ⟨v', ⟨hs', hstop (by simp), hroom⟩, he⟩

section
variable {act : Action η σ α β} {answer : β → Answer η α} {b : β} (hs : w.store.Shows v₀)
  (hact : op.act B (op.takes w) = Op.keeping (op.takes w) answer act)
include hs hact

theorem settling {stop : Option Stop} (hend : Settles act v₀ b stop v')
    (he : Effect B v op (.ofStop (answer b) stop) v') (hroom : v'.fresh ≤ Heap.capacity)
    (howners : (v'.lists.map (·.1)).Perm (op.takes w).owners) : w.Refines B v op :=
  refines hs hact hend hroom (fun _ => howners) (fun _ => howners) he

theorem answering (hend : Yields act v₀ b v') (he : Effect B v op (.answered (answer b)) v')
    (hroom : v'.fresh ≤ Heap.capacity) (howners : (v'.lists.map (·.1)).Perm (op.takes w).owners) :
    w.Refines B v op :=
  settling hs hact (show Settles act v₀ b none v' from hend) he hroom howners

theorem stopping {e : Stop} (hend : Stops act v₀ e v') (he : Effect B v op (.stopped e) v')
    (hroom : v'.fresh ≤ Heap.capacity) (howners : (v'.lists.map (·.1)).Perm (op.takes w).owners) :
    w.Refines B v op := by
  obtain ⟨s', hrun, hs'⟩ := hend w.store hs
  unfold World.Refines
  rw [proceed_of_error ((congrFun hact _).trans (bind_error hrun))]
  exact ⟨v', ⟨hs', howners, hroom⟩, he⟩

end

/-! ## What the program owns -/

section
variable (hw : w.Sound v)
include hw

theorem map_owners {lists : List (Addr × Strip η α)} (hp : v.lists.Perm lists) :
    (lists.map (·.1)).Perm w.owners := (hp.symm.map _).trans hw.owners

theorem perm {lists : List (Addr × Strip η α)} (hp : v.lists.Perm lists) :
    w.store.Shows (v.having lists) := hw.shows.perm hp

/-- Every list that the program owns is in the view. -/
theorem mem_lists (hl : l ∈ w.owners) : ∃ k, (l, k) ∈ v.lists := by
  obtain ⟨⟨l', k⟩, hm, rfl⟩ := List.mem_map.1 (hw.owners.mem_iff.2 hl)
  exact ⟨k, hm⟩

theorem strip (hl : l ∈ w.owners) : ∃ k rest, v.lists.Perm ((l, k) :: rest) := by
  obtain ⟨k, hm⟩ := hw.mem_lists hl
  obtain ⟨xs, ys, hxy⟩ := List.append_of_mem hm
  exact ⟨k, xs ++ ys, hxy ▸ List.perm_middle⟩

theorem strips (hl : l ∈ w.owners) (hm : m ∈ w.owners) (hlm : l ≠ m) :
    ∃ k k' rest, v.lists.Perm ((l, k) :: (m, k') :: rest) := by
  obtain ⟨k, rest, hp⟩ := hw.strip hl
  obtain ⟨⟨m', k'⟩, hmem, rfl⟩ := List.mem_map.1 (hw.owners.mem_iff.2 hm)
  have hmem : (m', k') ∈ rest := by
    refine List.mem_of_ne_of_mem (fun he => hlm ?_) (hp.mem_iff.1 hmem)
    exact (Prod.mk.inj he).1.symm
  obtain ⟨xs, ys, hxy⟩ := List.append_of_mem hmem
  exact ⟨k, k', xs ++ ys, hp.trans (.cons _ (hxy ▸ List.perm_middle))⟩

theorem ring (hl : (l, k) ∈ v.lists) : w.store.heap.IsRing l k := hw.shows.lists.ring (l, k) hl

/-- There are fewer nodes in a list than there can be blocks. -/
theorem length_lt (hl : (l, k) ∈ v.lists) : k.entries.length < Heap.capacity :=
  (hw.shows.length_lt hl).trans_le hw.room

/-- A read of the program's answers what it yields on the view. -/
theorem read_eq {act : Action η σ α β} {b : β} {v' : View η σ α} (hy : Yields act v b v') :
    w.read act = .ok b := by
  obtain ⟨s, hrun, -⟩ := hy w.store hw.shows
  simp only [World.read, hrun]

theorem mem_of_holds (hl : (l, k) ∈ v.lists) {a : Addr} (ha : w.holds l a = true) :
    ∃ xs x ys, k.entries = xs ++ (a, x) :: ys := by
  have ha : a ∈ k.nodes := (hw.ring hl).hasNode_iff.1 ha
  obtain ⟨⟨a', x⟩, hm, rfl⟩ := List.mem_map.1 ha
  obtain ⟨xs, ys, hxy⟩ := List.append_of_mem hm
  exact ⟨xs, x, ys, hxy⟩

end

/-! ## Operations that keep the lists -/

theorem refines_reading {a : Answer η α} (hw : w.Sound v) (hl : (l, k) ∈ v.lists)
    (hr : Reading l k.entries op a) : w.Refines B v op := by
  have he := Effect.read (B := B) hl hr
  cases hr with
  | head => exact answering hw.shows rfl (head_yields hl) he hw.room hw.owners
  | tail => exact answering hw.shows rfl (tail_yields hl) he hw.room hw.owners
  | front => exact answering hw.shows rfl (front_yields hl) he hw.room hw.owners
  | back => exact answering hw.shows rfl (back_yields hl) he hw.room hw.owners
  | length => exact answering hw.shows rfl (length_yields hl) he hw.room hw.owners
  | isEmpty => exact answering hw.shows rfl (isEmpty_yields hl) he hw.room hw.owners
  | value hes =>
    exact answering hw.shows rfl (value_yields hl (hes ▸ by simp)) he hw.room hw.owners
  | nextNode hes => exact answering hw.shows rfl (nextNode_yields hl hes) he hw.room hw.owners
  | prevNode hes => exact answering hw.shows rfl (prevNode_yields hl hes) he hw.room hw.owners

/-- An operation that keeps the whole store. -/
theorem refines_looking {act : Action η σ α β} {answer : β → Answer η α} {hold : β → Holdings}
    (hw : w.Sound v) (hop : op.looks = true)
    (hact : op.act B (op.takes w) = act >>= fun b => pure (answer b, hold b))
    (htakes : (op.takes w).owners = w.owners) (hhold : ∀ b, (hold b).owners = w.owners)
    (hkeeps : Keeps Eq act) : w.Refines B v op := by
  have hstore := hkeeps w.store
  unfold World.Refines
  cases hrun : act w.store with
  | ok b s =>
    obtain rfl : w.store = s := by simpa [hrun, leaves] using hstore
    rw [proceed_of_ok ((congrFun hact _).trans (bind_ok hrun))]
    exact ⟨v, ⟨hw.shows, hw.owners.trans (.of_eq (hhold b).symm), hw.room⟩, .looked hop _⟩
  | error e s =>
    obtain rfl : w.store = s := by simpa [hrun, leaves] using hstore
    rw [proceed_of_error ((congrFun hact _).trans (bind_error hrun))]
    exact ⟨v, ⟨hw.shows, hw.owners.trans (.of_eq htakes.symm), hw.room⟩, .looked hop _⟩

/-- An operation that calls hooks for matching. -/
theorem refines_consulting {act : Action η σ α β} {answer : β → Answer η α} (hw : w.Sound v)
    (hop : op.consults = true) (hact : op.act B (op.takes w) = Op.keeping (op.takes w) answer act)
    (htakes : (op.takes w).owners = w.owners) (hkeeps : Keeps Consulted act) :
    w.Refines B v op := by
  obtain ⟨evs, hevs, hs⟩ := (hkeeps w.store).shows hw.shows
  have howners := hw.owners.trans (.of_eq htakes.symm)
  unfold World.Refines
  cases hrun : act w.store with
  | ok b s =>
    rw [hrun] at hs
    rw [proceed_of_ok ((congrFun hact _).trans (bind_ok hrun))]
    exact ⟨_, ⟨hs, howners, hw.room⟩, .consulted hop _ hevs _⟩
  | error e s =>
    rw [hrun] at hs
    rw [proceed_of_error ((congrFun hact _).trans (bind_error hrun))]
    exact ⟨_, ⟨hs, howners, hw.room⟩, .consulted hop _ hevs _⟩

/-! ## Operations on one list -/

section
variable {xs ys : List (Addr × α)} {a : Addr} {x y : α}

theorem refines_placing (hw : w.Sound v) (hl : v.lists.Perm ((l, k) :: rest))
    (hp : Placing l k.entries op xs x ys) : w.Refines B v op := by
  have hs := hw.perm hl
  have hm : (l, k) ∈ v.lists := hl.mem_iff.2 (by simp)
  cases hserve : v.serves k.allocator with
  | false =>
    have he := Effect.notPlaced (B := B) hm hp hserve
    cases hp with
    | head => exact stopping hw.shows rfl (addHead_stops hm hserve) he hw.room hw.owners
    | tail => exact stopping hw.shows rfl (addTail_stops hm hserve) he hw.room hw.owners
    | after => exact stopping hw.shows rfl (insert_stops hm hserve) he hw.room hw.owners
    | before => exact stopping hw.shows rfl (insert_stops hm hserve) he hw.room hw.owners
  | true =>
    have he := Effect.placed (B := B) hl hp hserve
    have hroom : v.fresh + 1 ≤ Heap.capacity := View.lt_capacity_of_serves hserve
    have howners := hw.map_owners hl
    have hserve' : (v.having ((l, k) :: rest)).serves k.allocator = true := by simpa using hserve
    cases hp with
    | head => exact answering hs rfl (addHead_yields rfl hserve') he hroom howners
    | tail => exact answering hs rfl (addTail_yields rfl hserve') he hroom howners
    | after _ hes => exact answering hs rfl (insertAfter_yields rfl hes hserve') he hroom howners
    | before _ hes => exact answering hs rfl (insertBefore_yields rfl hes hserve') he hroom howners

theorem refines_writing (hw : w.Sound v) (hl : v.lists.Perm ((l, k) :: rest))
    (hwr : Writing l k.entries op xs a x y ys) : w.Refines B v op := by
  have hs := hw.perm hl
  have howners := hw.map_owners hl
  have he := Effect.written (B := B) hl hwr
  cases hwr with
  | exchange _ hes => exact answering hs rfl (exchange_yields _ _ _ rfl hes) he hw.room howners
  | front _ hes => exact answering hs rfl (setFront_yields_cons rfl hes) he hw.room howners
  | back _ hes => exact answering hs rfl (setBack_yields_concat rfl hes) he hw.room howners

theorem refines_taking (hw : w.Sound v) (hl : v.lists.Perm ((l, k) :: rest))
    (ht : Taking l k.entries op xs a x ys) : w.Refines B v op := by
  have hs := hw.perm hl
  have howners := hw.map_owners hl
  have he := Effect.taken (B := B) hl ht
  cases ht with
  | popFront hes => exact answering hs rfl (popFront_yields_cons rfl hes) he hw.room howners
  | popBack hes =>
    rw [List.append_nil] at he
    exact answering hs rfl (popBack_yields_concat rfl hes) he hw.room howners
  | takeFront hes => exact answering hs rfl (popFront_yields_cons rfl hes) he hw.room howners
  | takeBack hes =>
    rw [List.append_nil] at he
    exact answering hs rfl (popBack_yields_concat rfl hes) he hw.room howners

theorem refines_missing (hw : w.Sound v) (hl : (l, k) ∈ v.lists) (hk : k.entries = [])
    (hm : Missing l op) : w.Refines B v op := by
  have he := Effect.missed (B := B) hl hk hm
  cases hm with
  | popFront =>
    exact answering hw.shows rfl (popFront_yields_nil hl hk) he hw.room hw.owners
  | popBack => exact answering hw.shows rfl (popBack_yields_nil hl hk) he hw.room hw.owners
  | take e =>
    cases e with
    | front => exact answering hw.shows rfl (popFront_yields_nil hl hk) he hw.room hw.owners
    | back => exact answering hw.shows rfl (popBack_yields_nil hl hk) he hw.room hw.owners
  | setFront => exact answering hw.shows rfl (setFront_yields_nil hl hk) he hw.room hw.owners
  | setBack => exact answering hw.shows rfl (setBack_yields_nil hl hk) he hw.room hw.owners

theorem refines_delete (hw : w.Sound v) (hl : v.lists.Perm ((l, k) :: rest))
    (hk : k.entries = xs ++ (a, x) :: ys) : w.Refines B v (.delete l a) := by
  have howners := hw.map_owners hl
  exact settling (hw.perm hl) rfl (delete_ends rfl hk).settles (.deleted hl hk) hw.room howners

end

theorem refines_extend {xs : List α} (hw : w.Sound v) (hl : v.lists.Perm ((l, k) :: rest))
    (hs : v.supplies k.allocator xs.length = true) : w.Refines B v (.extend l xs) := by
  have hs' : (v.having ((l, k) :: rest)).supplies k.allocator xs.length = true := hs
  have hext := extend_yields xs rfl hs'
  rw [View.supplyMany_having, View.having_having] at hext
  have hroom : (v.supplyMany k.allocator xs.length).fresh ≤ Heap.capacity := by
    rw [View.supplyMany_fresh]
    exact View.room_of_supplies hs
  have howners := hw.map_owners hl
  exact answering (hw.perm hl) rfl hext (.extended hl hs) hroom howners

theorem refines_rotate (hw : w.Sound v) (hl : v.lists.Perm ((l, k) :: rest)) :
    w.Refines B v (.rotate l) := by
  have howners := hw.map_owners hl
  exact answering (hw.perm hl) rfl (rotate_yields rfl hw.room) (.rotated hl) hw.room howners

theorem refines_join {k' : Strip η α} (hw : w.Sound v)
    (hl : v.lists.Perm ((l, k) :: (m, k') :: rest)) : w.Refines B v (.join l m) := by
  have howners := hw.map_owners hl
  exact answering (hw.perm hl) rfl (join_yields rfl hw.room) (.joined hl) hw.room howners

theorem refines_setHooks (hs : Hooks η) (hw : w.Sound v) (hl : v.lists.Perm ((l, k) :: rest)) :
    w.Refines B v (.setHooks l hs) := by
  have howners := hw.map_owners hl
  exact answering (hw.perm hl) rfl (setHooks_yields hs rfl) (.rehooked hl (.inl rfl)) hw.room
    howners

theorem refines_installHook (kind : HookKind) (h : η) (hw : w.Sound v)
    (hl : v.lists.Perm ((l, k) :: rest)) : w.Refines B v (.installHook l kind h) := by
  have howners := hw.map_owners hl
  exact answering (hw.perm hl) rfl (installHook_yields kind h rfl)
    (.rehooked hl (.inr ⟨kind, h, rfl, rfl⟩)) hw.room howners

theorem refines_clear (hw : w.Sound v) (hl : v.lists.Perm ((l, k) :: rest)) :
    w.Refines B v (.clear l) := by
  have howners := hw.map_owners hl
  exact settling (hw.perm hl) rfl (clear_ends rfl).settles (.cleared hl) hw.room howners

/-! ## Lists that come and go -/

theorem owners_endList {t : Holdings} (hl : l ∈ t.lists) :
    t.owners.Perm (l :: (t.endList l).owners) :=
  (List.perm_cons_erase hl).append_right _

theorem owners_endIterator {t : Holdings} (hl : l ∈ t.iterators) :
    t.owners.Perm (l :: (t.endIterator l).owners) :=
  ((List.perm_cons_erase hl).append_left _).trans List.perm_middle

theorem owners_addList (t : Holdings) (l : Addr) : (t.addList l).owners.Perm (l :: t.owners) := by
  simp [Holdings.owners, Holdings.addList]

theorem refines_destroy (hw : w.Sound v) (hlists : l ∈ w.holdings.lists)
    (hl : v.lists.Perm ((l, k) :: rest)) : w.Refines B v (.destroy l) := by
  have howners := (hw.map_owners hl).trans (owners_endList hlists)
  exact settling (hw.perm hl) rfl (destroy_ends rfl).settles (.destroyed rfl hl) hw.room
    howners.cons_inv

theorem refines_dropIter (hw : w.Sound v) (hit : l ∈ w.holdings.iterators)
    (hl : v.lists.Perm ((l, k) :: rest)) : w.Refines B v (.dropIter l) := by
  have howners := (hw.map_owners hl).trans (owners_endIterator hit)
  exact settling (hw.perm hl) rfl (destroy_ends rfl).settles (.destroyed rfl hl) hw.room
    howners.cons_inv

theorem refines_intoIter (hw : w.Sound v) (hlists : l ∈ w.holdings.lists) :
    w.Refines B v (.intoIter l) := by
  have howners : w.owners.Perm ((w.holdings.endList l).addIterator l).owners := by
    refine (owners_endList hlists).trans ?_
    simpa [Holdings.owners, Holdings.addIterator] using
      (List.perm_append_singleton l ((w.holdings.endList l).owners)).symm
  exact ⟨v, ⟨hw.shows, hw.owners.trans howners, hw.room⟩, .owned l⟩

theorem refines_create (source : Allocator) (hw : w.Sound v) : w.Refines B v (.create source) := by
  have hact : (Op.create source).act B w.holdings =
      RingList.create source >>= fun l => pure (.list l, w.holdings.addList l) := rfl
  cases hserve : v.serves source with
  | false =>
    have hend : Settles (RingList.create source) v 0 (some (.refused .header)) _ :=
      create_stops hserve
    exact refines hw.shows hact hend hw.room (by simp) (fun _ => hw.owners) (.notCreated hserve)
  | true =>
    have hroom : v.fresh + 1 ≤ Heap.capacity := View.lt_capacity_of_serves hserve
    have howners := (hw.owners.cons v.fresh).trans (owners_addList w.holdings v.fresh).symm
    have hend : Settles (RingList.create source) v v.fresh none _ := create_yields hserve
    exact refines hw.shows hact hend hroom (fun _ => howners) (by simp) (.created hserve)

theorem refines_collect (xs : List α) (hw : w.Sound v)
    (hs : v.supplies .global (xs.length + 1) = true) : w.Refines B v (.collect xs) := by
  have hact : (Op.collect xs).act B w.holdings = (do
      let l ← RingList.create .global
      RingList.extend l xs
      return l) >>= fun l => pure (.list l, w.holdings.addList l) := by
    simp [Op.act]
  have hroom : ((v.supply .global .header).supplyMany .global xs.length).fresh ≤ Heap.capacity := by
    have := View.room_of_supplies hs
    rw [View.supplyMany_fresh, View.supply_fresh]
    omega
  have howners := (hw.owners.cons v.fresh).trans (owners_addList w.holdings v.fresh).symm
  have hend : Settles _ v v.fresh none _ := collect_yields hs
  exact refines hw.shows hact hend hroom (fun _ => howners) (by simp) (.collected hs)

theorem refines_duplicate (fallback : η) (hw : w.Sound v) (hl : (l, k) ∈ v.lists) :
    w.Refines B v (.duplicate l fallback) := by
  have hact : (Op.duplicate l fallback).act B w.holdings =
      RingList.duplicate B l fallback >>= fun l => pure (.list l, w.holdings.addList l) := rfl
  refine refines hw.shows hact (duplicate_settles hl) (duplicating_room hw.room)
    (fun hnone => ?_) (fun hsome => ?_) (.duplicated fallback hl)
  · rcases duplicating_lists B v k fallback with
      ⟨copies, -, hlists⟩ | ⟨e, hstop, -⟩
    · rw [hlists]
      exact (hw.owners.cons v.fresh).trans (owners_addList w.holdings v.fresh).symm
    · simp [hnone] at hstop
  · rcases duplicating_lists B v k fallback with
      ⟨copies, hstop, -⟩ | ⟨e, -, hlists⟩
    · exact absurd hstop hsome
    · rw [hlists]
      exact hw.owners

/-! ## Operations outside of lists -/

theorem refines_callDup (h : η) (x : α) (hw : w.Sound v) : w.Refines B v (.callDup h x) := by
  obtain ⟨s', hs', -, hrun⟩ := callDup_shows (B := B) h x hw.shows
  have he := Effect.calledDup (B := B) (v := v) h x
  unfold World.Refines
  cases hd : (B.dup h v.hookState x).1 with
  | returns b =>
    rw [hd] at hrun hs' he
    have hrun' : (Op.callDup h x).act B w.holdings w.store = .ok (.value b, w.holdings) s' :=
      bind_ok hrun
    rw [proceed_of_ok hrun']
    exact ⟨_, ⟨hs', hw.owners, hw.room⟩, he _⟩
  | panics =>
    rw [hd] at hrun hs' he
    have hrun' : (Op.callDup h x).act B w.holdings w.store = .error (.panicked .dup) s' :=
      bind_error hrun
    rw [proceed_of_error hrun']
    exact ⟨_, ⟨hs', hw.owners, hw.room⟩, he _⟩

theorem refines_callFree (h : η) (x : α) (hw : w.Sound v) : w.Refines B v (.callFree h x) :=
  settling hw.shows rfl (callFree_ends B h x v).settles (.calledFree h x _) hw.room hw.owners

theorem refines_refill (i : Nat) (budget : Option Nat) (hw : w.Sound v) :
    w.Refines B v (.refill i budget) := by
  have hs : ({ w.store with budgets := w.store.budgets.setIfInBounds i budget } : Store η σ α).Shows
      { v with budgets := v.budgets.setIfInBounds i budget } :=
    ⟨hw.shows.lists, hw.shows.fresh, by rw [hw.shows.budgets], hw.shows.hookState, hw.shows.log⟩
  exact ⟨_, ⟨hs, hw.owners, hw.room⟩, .refilled i budget⟩

end World.Sound

/-! ## What a program may name -/

namespace World

theorem lists_of_expectList (h : w.expectList l = .ok ()) : l ∈ w.holdings.lists := by
  unfold World.expectList at h
  split at h
  · next hl => simpa using hl
  · cases h

theorem expectList_of_lists (h : l ∈ w.holdings.lists) : w.expectList l = .ok () := by
  simp [World.expectList, h]

theorem expectIterator_of_iterators (h : l ∈ w.holdings.iterators) :
    w.expectIterator l = .ok () := by
  simp [World.expectIterator, h]

theorem owners_of_lists (h : l ∈ w.holdings.lists) : l ∈ w.owners := List.mem_append_left _ h

theorem owners_of_expectList (h : w.expectList l = .ok ()) : l ∈ w.owners :=
  owners_of_lists (lists_of_expectList h)

theorem iterators_of_expectIterator (h : w.expectIterator l = .ok ()) :
    l ∈ w.holdings.iterators := by
  unfold World.expectIterator at h
  split at h
  · next hl => simpa using hl
  · cases h

theorem holds_of_expectNode {a : Addr} (h : w.expectNode l a = .ok ()) :
    w.expectList l = .ok () ∧ w.holds l a = true := by
  obtain ⟨_, hl, h⟩ := bind_ok_inv h
  refine ⟨hl, ?_⟩
  split at h
  · next ha => exact ha
  · cases h

theorem seat_of_expectCursor {c : Nat} {β : Type} {f : Seat → Except Misuse β} {b : β}
    (h : w.expectCursor c >>= f = .ok b) : ∃ s, w.holdings.seats[c]? = some s := by
  obtain ⟨s, hs, -⟩ := bind_ok_inv h
  unfold World.expectCursor at hs
  split at hs
  · next s' hs' => exact ⟨s', hs'⟩
  · cases hs

theorem seat_of_expectFresh {c : Nat} {β : Type} {f : Seat → Except Misuse β} {b : β}
    (h : w.expectFresh c >>= f = .ok b) : ∃ s, w.holdings.seats[c]? = some s := by
  obtain ⟨s, hs, -⟩ := bind_ok_inv h
  exact seat_of_expectCursor hs

end World

theorem Holdings.withSeat_eq {t : Holdings} {c : Nat} {s : Seat} {f : Seat → Action η σ α β}
    (hs : t.seats[c]? = some s) : t.withSeat c f = f s := by
  unfold Holdings.withSeat
  rw [hs]

/-! ## Actions on cursors -/

namespace Op

variable {t : Holdings} {c : Nat} {s : Seat}

theorem act_cursor (d : Direction) : (Op.cursor l d : Op η α).act B t = Cursor.seat l d >>=
    fun start => pure (.cursor t.seats.size, t.addSeat { cursor := start }) := rfl

theorem act_rewind (d : Direction) : (Op.rewind c l d : Op η α).act B t = Cursor.seat l d >>=
    fun start => pure (.done, t.setSeat c { cursor := start }) := rfl

theorem act_step (hs : t.seats[c]? = some s) : (Op.step c : Op η α).act B t = s.cursor.step >>=
    fun r => pure (.node r.1, t.setSeat c { s with cursor := r.2, last := r.1 }) :=
  Holdings.withSeat_eq hs

theorem act_peek (hs : t.seats[c]? = some s) : (Op.peek c : Op η α).act B t =
    (pure () : Action η σ α Unit) >>= fun _ => pure (.node s.cursor.next, t) :=
  Holdings.withSeat_eq hs

theorem act_direction (hs : t.seats[c]? = some s) : (Op.direction c : Op η α).act B t =
    (pure () : Action η σ α Unit) >>= fun _ => pure (.direction s.cursor.direction, t) :=
  Holdings.withSeat_eq hs

theorem act_cloneCursor (hs : t.seats[c]? = some s) : (Op.cloneCursor c : Op η α).act B t =
    (pure () : Action η σ α Unit) >>= fun _ => pure (.cursor t.seats.size, t.addSeat s) :=
  Holdings.withSeat_eq hs

end Op

namespace World.Sound

/-! ## All operations -/

/-- A node that the program may name is in a list that has a strip. -/
theorem strip_of_expectNode (hw : w.Sound v) {a : Addr} (h : w.expectNode l a = .ok ()) :
    ∃ k rest xs x ys, v.lists.Perm ((l, k) :: rest) ∧ k.entries = xs ++ (a, x) :: ys := by
  obtain ⟨hl, ha⟩ := holds_of_expectNode h
  obtain ⟨k, rest, hp⟩ := hw.strip (owners_of_expectList hl)
  obtain ⟨xs, x, ys, hk⟩ := hw.mem_of_holds (k := k) (hp.mem_iff.2 (by simp)) ha
  exact ⟨k, rest, xs, x, ys, hp, hk⟩

theorem supplies_of_expectSupply (hw : w.Sound v) {source : Allocator} {n : Nat}
    (h : w.expectSupply source n = .ok ()) : v.supplies source n = true := by
  unfold World.expectSupply at h
  split at h
  · next hs => rwa [hw.shows.supplies] at hs
  · cases h

theorem strip_of_expectList (hw : w.Sound v) (h : w.expectList l = .ok ()) :
    ∃ k rest, v.lists.Perm ((l, k) :: rest) ∧ (l, k) ∈ v.lists := by
  obtain ⟨k, rest, hp⟩ := hw.strip (owners_of_expectList h)
  exact ⟨k, rest, hp, hp.mem_iff.2 (by simp)⟩

/-- An operation on the front of a list finds nothing there or the first value. -/
theorem refines_atFront (hw : w.Sound v) (hm : (l, k) ∈ v.lists) (hmiss : Missing l op)
    (hsome : ∀ {a x es}, k.entries = (a, x) :: es → w.Refines B v op) : w.Refines B v op := by
  rcases hk : k.entries with _ | ⟨⟨a, x⟩, es⟩
  · exact refines_missing hw hm hk hmiss
  · exact hsome hk

theorem refines_atBack (hw : w.Sound v) (hm : (l, k) ∈ v.lists) (hmiss : Missing l op)
    (hsome : ∀ {es a x}, k.entries = es ++ [(a, x)] → w.Refines B v op) : w.Refines B v op := by
  rcases List.eq_nil_or_concat k.entries with hk | ⟨es, ⟨a, x⟩, hk⟩
  · exact refines_missing hw hm hk hmiss
  · exact hsome (by simpa using hk)

/-- **Operations that read a list.** -/
theorem refines_reads (hw : w.Sound v) (hop : op.reads = true) (hc : op.check w = .ok ()) :
    w.Refines B v op := by
  cases op with
  | head l =>
    obtain ⟨k, rest, -, hm⟩ := strip_of_expectList hw hc
    exact refines_reading hw hm .head
  | tail l =>
    obtain ⟨k, rest, -, hm⟩ := strip_of_expectList hw hc
    exact refines_reading hw hm .tail
  | front l =>
    obtain ⟨k, rest, -, hm⟩ := strip_of_expectList hw hc
    exact refines_reading hw hm .front
  | back l =>
    obtain ⟨k, rest, -, hm⟩ := strip_of_expectList hw hc
    exact refines_reading hw hm .back
  | length l =>
    obtain ⟨k, rest, -, hm⟩ := strip_of_expectList hw hc
    exact refines_reading hw hm .length
  | isEmpty l =>
    obtain ⟨k, rest, -, hm⟩ := strip_of_expectList hw hc
    exact refines_reading hw hm .isEmpty
  | value l a =>
    obtain ⟨k, rest, xs, x, ys, hp, hk⟩ := strip_of_expectNode hw hc
    exact refines_reading hw (hp.mem_iff.2 (by simp)) (.value hk)
  | nextNode l a =>
    obtain ⟨k, rest, xs, x, ys, hp, hk⟩ := strip_of_expectNode hw hc
    exact refines_reading hw (hp.mem_iff.2 (by simp)) (.nextNode hk)
  | prevNode l a =>
    obtain ⟨k, rest, xs, x, ys, hp, hk⟩ := strip_of_expectNode hw hc
    exact refines_reading hw (hp.mem_iff.2 (by simp)) (.prevNode hk)
  | hooks l =>
    obtain ⟨k, rest, -, hm⟩ := strip_of_expectList hw hc
    exact answering hw.shows rfl (hooks_yields hm) (.readHooks hm) hw.room hw.owners
  | allocator l =>
    obtain ⟨k, rest, -, hm⟩ := strip_of_expectList hw hc
    exact answering hw.shows rfl (allocator_yields hm) (.readAllocator hm) hw.room hw.owners
  | _ => cases hop

/-- **Operations that look** at lists, by position or by cursor. -/
theorem refines_looks (hw : w.Sound v) (hop : op.looks = true) (hc : op.check w = .ok ()) :
    w.Refines B v op := by
  cases op with
  | index l i => exact refines_looking hw rfl rfl rfl (fun _ => rfl) (index_keeps l i)
  | iterate l word =>
    exact refines_looking hw rfl rfl rfl (fun _ => rfl)
      ((iterStart_keeps l).bind fun it => along_keeps word it)
  | cursor l d => exact refines_looking hw rfl rfl rfl (fun _ => rfl) (seat_keeps l d)
  | rewind c l d => exact refines_looking hw rfl rfl rfl (fun _ => rfl) (seat_keeps l d)
  | step c =>
    obtain ⟨s, hs⟩ := seat_of_expectFresh hc
    exact refines_looking hw rfl (Op.act_step hs) rfl (fun _ => rfl) (step_keeps s.cursor)
  | peek c =>
    obtain ⟨s, hs⟩ := seat_of_expectFresh hc
    exact refines_looking hw rfl (Op.act_peek hs) rfl (fun _ => rfl) (.pure ())
  | direction c =>
    obtain ⟨s, hs⟩ := seat_of_expectCursor hc
    exact refines_looking hw rfl (Op.act_direction hs) rfl (fun _ => rfl) (.pure ())
  | cloneCursor c =>
    obtain ⟨s, hs⟩ := seat_of_expectFresh hc
    exact refines_looking hw rfl (Op.act_cloneCursor hs) rfl (fun _ => rfl) (.pure ())
  | _ => cases hop

/-- **Operations that call hooks for matching.** -/
theorem refines_consults (hw : w.Sound v) (hop : op.consults = true) : w.Refines B v op := by
  cases op with
  | search l key fallback =>
    exact refines_consulting hw rfl rfl rfl (search_keeps B l key fallback)
  | equal l m rel => exact refines_consulting hw rfl rfl rfl (equal_keeps B l m rel)
  | callMatching h x key => exact refines_consulting hw rfl rfl rfl (callMatching_keeps B h x key)
  | _ => cases hop

theorem refines_take (hw : w.Sound v) (e : End) (hc : w.expectIterator l = .ok ()) :
    w.Refines B v (.take l e) := by
  obtain ⟨k, rest, hp⟩ := hw.strip (List.mem_append_right _ (iterators_of_expectIterator hc))
  have hm : (l, k) ∈ v.lists := hp.mem_iff.2 (by simp)
  cases e with
  | front => exact refines_atFront hw hm (.take .front) fun hk => refines_taking hw hp (.takeFront hk)
  | back => exact refines_atBack hw hm (.take .back) fun hk => refines_taking hw hp (.takeBack hk)

/-- Two lists that a program may join are different ones. -/
theorem strips_of_join (hw : w.Sound v) (hc : (Op.join l m : Op η α).check w = .ok ()) :
    ∃ k k' rest, v.lists.Perm ((l, k) :: (m, k') :: rest) := by
  obtain ⟨_, hl, hc⟩ := bind_ok_inv hc
  obtain ⟨_, hm, hc⟩ := bind_ok_inv hc
  have hlm : l ≠ m := fun he => by simp [he] at hc
  exact hw.strips (owners_of_expectList hl) (owners_of_expectList hm) hlm

/-- **Operations that the check lets pass.** -/
theorem refines_op (hw : w.Sound v) (hc : op.check w = .ok ()) : w.Refines B v op := by
  cases op with
  | create source => exact refines_create source hw
  | collect xs => exact refines_collect xs hw (supplies_of_expectSupply hw hc)
  | duplicate l fallback =>
    obtain ⟨k, rest, -, hm⟩ := strip_of_expectList hw hc
    exact refines_duplicate fallback hw hm
  | addHead l x =>
    obtain ⟨k, rest, hp, -⟩ := strip_of_expectList hw hc
    exact refines_placing hw hp (.head x)
  | addTail l x =>
    obtain ⟨k, rest, hp, -⟩ := strip_of_expectList hw hc
    exact refines_placing hw hp (.tail x)
  | insert l a x after =>
    obtain ⟨k, rest, xs, y, ys, hp, hk⟩ := strip_of_expectNode hw hc
    cases after with
    | true => exact refines_placing hw hp (.after x hk)
    | false => exact refines_placing hw hp (.before x hk)
  | extend l xs =>
    obtain ⟨_, hl, hs⟩ := bind_ok_inv hc
    obtain ⟨k, rest, hp, hm⟩ := strip_of_expectList hw hl
    rw [(hw.ring hm).record?_eq] at hs
    exact refines_extend hw hp (supplies_of_expectSupply hw hs)
  | delete l a =>
    obtain ⟨k, rest, xs, x, ys, hp, hk⟩ := strip_of_expectNode hw hc
    exact refines_delete hw hp hk
  | popFront l =>
    obtain ⟨k, rest, hp, hm⟩ := strip_of_expectList hw hc
    exact refines_atFront hw hm .popFront fun hk => refines_taking hw hp (.popFront hk)
  | popBack l =>
    obtain ⟨k, rest, hp, hm⟩ := strip_of_expectList hw hc
    exact refines_atBack hw hm .popBack fun hk => refines_taking hw hp (.popBack hk)
  | take l e => exact refines_take hw e hc
  | clear l =>
    obtain ⟨k, rest, hp, -⟩ := strip_of_expectList hw hc
    exact refines_clear hw hp
  | destroy l =>
    obtain ⟨k, rest, hp, -⟩ := strip_of_expectList hw hc
    exact refines_destroy hw (lists_of_expectList hc) hp
  | dropIter l =>
    have hit := iterators_of_expectIterator hc
    obtain ⟨k, rest, hp⟩ := hw.strip (List.mem_append_right _ hit)
    exact refines_dropIter hw hit hp
  | intoIter l => exact refines_intoIter hw (lists_of_expectList hc)
  | rotate l =>
    obtain ⟨k, rest, hp, -⟩ := strip_of_expectList hw hc
    exact refines_rotate hw hp
  | join l m =>
    obtain ⟨k, k', rest, hp⟩ := strips_of_join hw hc
    exact refines_join hw hp
  | exchange l a y =>
    obtain ⟨k, rest, xs, x, ys, hp, hk⟩ := strip_of_expectNode hw hc
    exact refines_writing hw hp (.exchange y hk)
  | setFront l y =>
    obtain ⟨k, rest, hp, hm⟩ := strip_of_expectList hw hc
    exact refines_atFront hw hm (.setFront y) fun hk => refines_writing hw hp (.front y hk)
  | setBack l y =>
    obtain ⟨k, rest, hp, hm⟩ := strip_of_expectList hw hc
    exact refines_atBack hw hm (.setBack y) fun hk => refines_writing hw hp (.back y hk)
  | installHook l kind h =>
    obtain ⟨k, rest, hp, -⟩ := strip_of_expectList hw hc
    exact refines_installHook kind h hw hp
  | setHooks l hs =>
    obtain ⟨k, rest, hp, -⟩ := strip_of_expectList hw hc
    exact refines_setHooks hs hw hp
  | callDup h x => exact refines_callDup h x hw
  | callFree h x => exact refines_callFree h x hw
  | refill i budget => exact refines_refill i budget hw
  | search l key fallback | equal l m rel | callMatching h x key => exact refines_consults hw rfl
  | index l i | iterate l word | cursor l d | rewind c l d | step c | peek c | direction c
  | cloneCursor c => exact refines_looks hw rfl hc
  | _ => exact refines_reads hw rfl hc

/-- **Every operation has its effect.** -/
theorem perform (hw : w.Sound v) (op : Op η α) :
    ∃ v', (w.perform B op).2.Sound v' ∧ Effect B v op (w.perform B op).1 v' := by
  unfold World.perform
  cases hc : op.check w with
  | error why => exact ⟨v, hw, .misused op why⟩
  | ok u => exact refines_op hw hc

end World.Sound

/-! ## The start -/

def View.start (budgets : Array (Option Nat)) (hookState : σ) : View η σ α :=
  ⟨[], 0, budgets, hookState, []⟩

theorem World.sound_start (budgets : Array (Option Nat)) (hookState : σ) :
    (World.start budgets hookState : World η σ α).Sound (View.start budgets hookState) :=
  ⟨⟨.nil _, rfl, rfl, rfl, rfl⟩, .nil, Nat.zero_le _⟩

end RingList
