import RingList.Proofs.Consulting
import RingList.Proofs.Refusals
import RingList.Proofs.Regions

/-!
# Adding and taking back

Every operation that adds a value finds the two neighbours of the new node in its own way, and either
of them can be the header. Where two operations mean the same place they do the same. Taking the node
out again, in whatever way, leaves all blocks as they were.

* `addHead_eq_insert`, `addTail_eq_insert`, `insert_eq_insert`: the ways to the same place.
* `World.Restored`: a list is what it was, and so is every block.
* `World.undo_laws`: the ways to add agree, and taking back the node restores the heap.
-/

set_option autoImplicit false

namespace RingList

variable {η σ α β γ : Type} {B : Behaviour η σ α}

/-! ## Ways to the same place -/

section
variable {s : Store η σ α} {v : View η σ α} {l a b : Addr} {k : Strip η α} {x y z : α}
  {xs ys : List (Addr × α)}

/-- **What follows a new node** starts from a store in which all lists are as before, if it is reached
at all. -/
theorem newNode_bind_congr {f g : Addr → Action η σ α β} (hs : s.Shows v) (hm : (l, k) ∈ v.lists)
    (h : ∀ s', s'.Shows (v.supply k.allocator .node) → f v.fresh s' = g v.fresh s') :
    (newNode l x >>= f) s = (newNode l x >>= g) s := by
  cases hserve : v.serves k.allocator with
  | false =>
    obtain ⟨s', hrun, -⟩ := newNode_stops hm hserve s hs
    rw [bind_error hrun, bind_error hrun]
  | true =>
    obtain ⟨s', hrun, hs', -⟩ := newNode_shows hm hserve hs
    rw [bind_ok hrun, bind_ok hrun]
    exact h s' hs'

/-- Adding at the front is adding before the first node. -/
theorem addHead_eq_insert (hs : s.Shows v) (hm : (l, k) ∈ v.lists) (hk : k.entries = (a, y) :: ys) :
    addHead l x s = insert l a x false s := by
  refine newNode_bind_congr hs hm fun s' hs' => ?_
  have hr := hs'.lists.ring (l, k) hm
  have hn : s'.heap.next? l = some a := by simpa [Strip.nodes, hk] using hr.next?_header
  have hp : s'.heap.prev? a = some l := hr.prev?_at (show k.entries = [] ++ (a, y) :: ys from hk)
  simp only [Bool.false_eq_true, ↓reduceIte]
  rw [bind_ok (nextOf_run hn), bind_ok (prevOf_run hp)]

/-- Adding at the back is adding after the last node. -/
theorem addTail_eq_insert (hs : s.Shows v) (hm : (l, k) ∈ v.lists)
    (hk : k.entries = xs ++ [(a, y)]) : addTail l x s = insert l a x true s := by
  refine newNode_bind_congr hs hm fun s' hs' => ?_
  have hr := hs'.lists.ring (l, k) hm
  have hp : s'.heap.prev? l = some a := by simpa [Strip.nodes, hk] using hr.prev?_header
  have hn : s'.heap.next? a = some l := hr.next?_at hk
  simp only [↓reduceIte]
  rw [bind_ok (prevOf_run hp), bind_ok (nextOf_run hn)]

/-- Adding after a node is adding before the next one. -/
theorem insert_eq_insert (hs : s.Shows v) (hm : (l, k) ∈ v.lists)
    (hk : k.entries = xs ++ (a, y) :: (b, z) :: ys) :
    insert l a x true s = insert l b x false s := by
  refine newNode_bind_congr hs hm fun s' hs' => ?_
  have hr := hs'.lists.ring (l, k) hm
  have hk' : k.entries = (xs ++ [(a, y)]) ++ (b, z) :: ys := by simp [hk]
  have hn : s'.heap.next? a = some b := hr.next?_at hk
  have hp : s'.heap.prev? b = some a := by simpa [endOf] using hr.prev?_at hk'
  simp only [Bool.false_eq_true, ↓reduceIte]
  rw [bind_ok (nextOf_run hn), bind_ok (prevOf_run hp)]

end

/-! ## A node that is taken out is gone -/

theorem bind_eq_ok {x : Action η σ α β} {f : β → Action η σ α γ} {s s' : Store η σ α} {c : γ}
    (h : (x >>= f) s = .ok c s') : ∃ b s₁, x s = .ok b s₁ ∧ f b s₁ = .ok c s' := by
  rw [run_bind] at h
  cases hx : x s with
  | error e s₁ =>
    rw [hx] at h
    cases h
  | ok b s₁ =>
    rw [hx] at h
    exact ⟨b, s₁, rfl, h⟩

theorem detach_erases {s s' : Store η σ α} {l a : Addr} {x : α} (h : detach l a s = .ok x s') :
    s'.heap.get? a = none := by
  obtain ⟨_, _, -, h⟩ := bind_eq_ok h
  obtain ⟨_, _, -, h⟩ := bind_eq_ok h
  obtain ⟨r, _, -, h⟩ := bind_eq_ok h
  obtain ⟨_, _, hrelease, h⟩ := bind_eq_ok h
  cases h
  obtain ⟨_, _, -, hrelease⟩ := bind_eq_ok hrelease
  cases hrelease
  exact (Heap.get?_erase ..).trans (if_pos rfl)

/-- Whatever becomes of the value, the node's block is gone. -/
theorem delete_erases {s : Store η σ α} {v : View η σ α} {l a : Addr} {k : Strip η α}
    {rest : List (Addr × Strip η α)} {xs ys : List (Addr × α)} {x : α} (hs : s.Shows v)
    (hv : v.lists = (l, k) :: rest) (hk : k.entries = xs ++ (a, x) :: ys) :
    (leaves (delete B l a s)).heap.get? a = none := by
  obtain ⟨s', hrun, hs'⟩ := detach_yields xs ys hv hk s hs
  obtain ⟨s'', hhooks, -⟩ := hooks_yields (l := l) (k := { k with entries := xs ++ ys })
    (by simp) s' hs'
  have hsame : s' = s'' := by simpa [hhooks, leaves] using hooks_keeps l s'
  unfold delete
  rw [bind_ok hrun, bind_ok hhooks, ← hsame, discard_run, leaves_ending]
  exact (detach_erases hrun : s'.heap.get? a = none)

/-- So it is after the first node was popped. -/
theorem popFront_erases {s : Store η σ α} {v : View η σ α} {l a : Addr} {k : Strip η α}
    {rest : List (Addr × Strip η α)} {es : List (Addr × α)} {x : α} (hs : s.Shows v)
    (hv : v.lists = (l, k) :: rest) (hk : k.entries = (a, x) :: es) :
    (leaves (popFront l s)).heap.get? a = none := by
  have hr := hs.lists.ring (l, k) (by simp [hv])
  have hn : s.heap.next? l = some a := by simpa [Strip.nodes, hk] using hr.next?_header
  have hsome : k.entries.isEmpty = false := by simp [hk]
  obtain ⟨s', hrun, -⟩ := detach_yields [] es hv hk s hs
  unfold popFront
  rw [bind_ok (isEmpty_run hr), if_neg (by simp [hsome]), bind_ok (nextOf_run hn), map_ok hrun]
  exact detach_erases hrun

/-- And after the last node was popped. -/
theorem popBack_erases {s : Store η σ α} {v : View η σ α} {l a : Addr} {k : Strip η α}
    {rest : List (Addr × Strip η α)} {es : List (Addr × α)} {x : α} (hs : s.Shows v)
    (hv : v.lists = (l, k) :: rest) (hk : k.entries = es ++ [(a, x)]) :
    (leaves (popBack l s)).heap.get? a = none := by
  have hr := hs.lists.ring (l, k) (by simp [hv])
  have hp : s.heap.prev? l = some a := by simpa [Strip.nodes, hk] using hr.prev?_header
  have hsome : k.entries.isEmpty = false := by simp [hk]
  obtain ⟨s', hrun, -⟩ := detach_yields es [] hv hk s hs
  unfold popBack
  rw [bind_ok (isEmpty_run hr), if_neg (by simp [hsome]), bind_ok (prevOf_run hp), map_ok hrun]
  exact detach_erases hrun

/-! ## Lists restored -/

/-- **The list `l` is what it was, and so is every block** of the heap: `w'` has the same blocks with
the same links and contents at all addresses, and the program owns the same lists. -/
structure World.Restored (w : World η σ α) (l : Addr) (w' : World η σ α) : Prop where
  blocks : ∀ a, w'.store.heap.get? a = w.store.heap.get? a
  nodes : w'.nodes l = w.nodes l
  length : w'.ListInvariant l (w.count l)
  owned : w'.holdings.lists = w.holdings.lists ∧ w'.holdings.iterators = w.holdings.iterators

/-- What an offer does that is answered. -/
theorem Effect.of_offers {v v' : View η σ α} {op : Op η α} {o : Outcome η α} {l : Addr} {x : α}
    {a : Answer η α} (hop : op.Offers l x) (he : Effect B v op o v') (ho : o = .answered a) :
    ∃ k rest xs ys, v.lists.Perm ((l, k) :: rest) ∧ Placing l k.entries op xs x ys ∧
      a = .node (some v.fresh) ∧ v' = v.placed l k rest xs x ys := by
  cases he with
  | @placed op m k rest xs ys y hl hp hserve =>
    obtain ⟨rfl, rfl⟩ : m = l ∧ y = x := by cases hop <;> cases hp <;> exact ⟨rfl, rfl⟩
    exact ⟨k, rest, xs, ys, hl, hp, (Outcome.answered.inj ho).symm, rfl⟩
  | misused => cases ho
  | notPlaced => cases ho
  | looked h => cases hop <;> cases h
  | consulted h => cases hop <;> cases h
  | read hl hr => cases hop <;> cases hr
  | written hl hw => cases hop <;> cases hw
  | missed hl hk hm => cases hop <;> cases hm
  | rehooked hl h => rcases h with rfl | ⟨_, _, rfl, -⟩ <;> cases hop
  | taken hl ht => cases hop <;> cases ht
  | destroyed h => cases hop <;> cases h
  | _ => cases hop

/-- Two operations that do the same work. -/
theorem World.perform_congr {w : World η σ α} {op op' : Op η α} (hc : op.check w = .ok ())
    (hc' : op'.check w = .ok ()) (htakes : op.takes w = op'.takes w)
    (hact : op.act B (op.takes w) w.store = op'.act B (op'.takes w) w.store) :
    w.perform B op = w.perform B op' := by
  rw [perform_of_ok hc, perform_of_ok hc']
  simp only [World.proceed]
  rw [hact, htakes]

theorem keeping_congr {t : Holdings} {answer : β → Answer η α} {act act' : Action η σ α β}
    {s : Store η σ α} (h : act s = act' s) :
    Op.keeping t answer act s = Op.keeping t answer act' s := by
  unfold Op.keeping
  rw [run_bind, run_bind, h]

namespace World.Sound

variable {w w₁ w₂ : World η σ α} {v v₂ : View η σ α} {l a b n : Addr} {k : Strip η α} {x : α}
  {op : Op η α} {rest : List (Addr × Strip η α)} {xs ys : List (Addr × α)}

/-- A node of a list may be named. -/
theorem expectNode_of_mem (hw : w.Sound v) (hl : l ∈ w.holdings.lists) (hm : (l, k) ∈ v.lists)
    (ha : a ∈ k.nodes) : w.expectNode l a = .ok () := by
  unfold World.expectNode
  rw [expectList_of_lists hl]
  exact if_pos ((hw.ring hm).hasNode_iff.2 ha)

/-- **A value that was taken in.** -/
theorem offered (hw : w.Sound v) (hop : op.Offers l x)
    (h : (w.perform B op).1 = .answered (.node (some n))) :
    ∃ k rest xs ys, v.lists.Perm ((l, k) :: rest) ∧ Placing l k.entries op xs x ys ∧ n = v.fresh ∧
      (w.perform B op).2.Sound (v.placed l k rest xs x ys) ∧
      (w.perform B op).2.holdings = w.holdings ∧ l ∈ w.holdings.lists ∧
      Heap.Within (Strip.region v.lists v.fresh) w.store.heap (w.perform B op).2.store.heap := by
  obtain ⟨v', hw', he⟩ := hw.perform (B := B) op
  obtain ⟨k, rest, xs, ys, hp, hplacing, hn, rfl⟩ := he.of_offers hop h
  have hc := check_of_answered h
  have hl : l ∈ w.holdings.lists := by
    cases hop with
    | head => exact lists_of_expectList hc
    | tail => exact lists_of_expectList hc
    | insert a after => exact lists_of_expectList (holds_of_expectNode hc).1
  have hheld : (w.perform B op).2.holdings = w.holdings := by
    cases hop <;> rw [perform_keeping hc rfl] <;> rfl
  -- the list, and the node that the value is put next to
  have hblock : ∀ {a}, a ∈ l :: w.nodes l → a ∈ v.lists.flatMap Strip.blocks :=
    hw.mem_blocks (owners_of_lists hl)
  have hsites : ∀ a ∈ op.sites, a ∈ v.lists.flatMap Strip.blocks := by
    intro a ha
    cases hop with
    | head => exact hblock (List.mem_singleton.1 ha ▸ List.mem_cons_self)
    | tail => exact hblock (List.mem_singleton.1 ha ▸ List.mem_cons_self)
    | insert b after =>
      have hb := (holds_of_expectNode hc).2
      rw [World.holds, Heap.hasNode_eq_contains, List.contains_iff_mem] at hb
      rcases List.mem_cons.1 ha with rfl | ha
      · exact hblock (List.mem_cons_of_mem _ hb)
      · exact hblock (List.mem_singleton.1 ha ▸ List.mem_cons_self)
  refine ⟨k, rest, xs, ys, hp, hplacing, ?_, hw', hheld, hl, ?_⟩
  · simpa using hn
  · exact World.perform_within (hw.region fun _ hp => hp) fun a ha => .inl (hsites a ha)

/-- **A node is put in and taken out again.** -/
theorem restored (hw : w.Sound v) (hp : v.lists.Perm ((l, k) :: rest)) (hw₂ : w₂.Sound v₂)
    (hlists : v₂.lists = (l, k) :: rest) (hfresh : v₂.fresh = v.fresh + 1)
    (hgone : w₂.store.heap.get? v.fresh = none)
    (hin : Heap.Within (Strip.region v.lists v.fresh) w.store.heap w₂.store.heap)
    (hheld : w₂.holdings.lists = w.holdings.lists ∧ w₂.holdings.iterators = w.holdings.iterators) :
    w.Restored l w₂ := by
  have hl : (l, k) ∈ v.lists := hp.mem_iff.2 List.mem_cons_self
  have hl₂ : (l, k) ∈ v₂.lists := hlists ▸ List.mem_cons_self
  refine ⟨fun a => ?_, ?_, ?_, hheld⟩
  · by_cases ha : a ∈ Strip.region v.lists v.fresh
    · rcases ha with ha | ha
      · obtain ⟨p, hm, ha⟩ := List.mem_flatMap.1 ha
        exact (hw.ring hm).get?_eq (hw₂.ring (hlists ▸ hp.mem_iff.1 hm)) ha
      · rw [hw.shows.get?_of_le ha]
        rcases Nat.eq_or_lt_of_le ha with rfl | hlt
        · exact hgone
        · exact hw₂.shows.get?_of_le (hfresh ▸ hlt)
    · exact hin.outside a ha
  · rw [hw₂.nodes_eq hl₂, hw.nodes_eq hl]
  · rw [hw.count_eq hl]
    exact hw₂.listInvariant hl₂

end World.Sound

/-! ## The laws of adding and taking back -/

/-- **The ways to add a value** to the list `l` with the record `r`, and to take it back. -/
structure World.Undoing (B : Behaviour η σ α) (w : World η σ α) (l : Addr) (r : Record η) : Prop where
  /-- On a list that is not empty, adding at the front is adding before the head. -/
  head : ∀ x, w.nodes l ≠ [] → ∃ a, (w.perform B (.head l)).1 = .answered (.node (some a)) ∧
    w.perform B (.addHead l x) = w.perform B (.insert l a x false)
  /-- Adding at the back is adding after the tail. -/
  tail : ∀ x, w.nodes l ≠ [] → ∃ a, (w.perform B (.tail l)).1 = .answered (.node (some a)) ∧
    w.perform B (.addTail l x) = w.perform B (.insert l a x true)
  /-- Adding after any other node than the tail is adding before the next one. -/
  between : ∀ x, ∀ a ∈ w.nodes l, (w.perform B (.tail l)).1 ≠ .answered (.node (some a)) →
    ∃ b, (w.perform B (.nextNode l a)).1 = .answered (.node (some b)) ∧
      w.perform B (.insert l a x true) = w.perform B (.insert l b x false)
  /-- A value that is offered is taken into a new block, unless the allocator refuses it. -/
  taken : ∀ op x, op.Offers l x → op.check w = .ok () → w.store.serves r.allocator = true →
    w.store.heap.get? w.store.heap.size = none ∧
      (w.perform B op).1 = .answered (.node (some w.store.heap.size)) ∧
      (w.stepOf B op).events = [.served r.allocator w.store.heap.size .node]
  /-- **Deleting the node just added** restores the list and every block, wherever it was added and
  whatever the free hook does. The block goes back, and the hook gets exactly the value. -/
  deleted : ∀ op x n, op.Offers l x → (w.perform B op).1 = .answered (.node (some n)) →
    let w₁ := (w.perform B op).2
    w.Restored l (w₁.perform B (.delete l n)).2 ∧
      (∀ f, r.hooks.free = some f → let reply := (B.free f w.store.hookState x).1
        (w₁.stepOf B (.delete l n)).outcome = .ofStop .done (reply.stop .free) ∧
        (w₁.stepOf B (.delete l n)).events =
          [.released r.allocator n .node, .free f x reply]) ∧
      (r.hooks.free = none → (w₁.stepOf B (.delete l n)).outcome = .answered .done ∧
        (w₁.stepOf B (.delete l n)).events = [.released r.allocator n .node, .dropped x])
  /-- **Popping the node just added at the front** restores everything as well. It gives exactly the
  value back, and no hook is called. -/
  poppedFront : ∀ x n, (w.perform B (.addHead l x)).1 = .answered (.node (some n)) →
    let w₁ := (w.perform B (.addHead l x)).2
    w.Restored l (w₁.perform B (.popFront l)).2 ∧
      (w₁.stepOf B (.popFront l)).outcome = .answered (.value (some x)) ∧
      (w₁.stepOf B (.popFront l)).events = [.released r.allocator n .node] ∧
      (w₁.perform B (.popFront l)).2.store.hookState = w.store.hookState
  /-- So does popping the node just added at the back. -/
  poppedBack : ∀ x n, (w.perform B (.addTail l x)).1 = .answered (.node (some n)) →
    let w₁ := (w.perform B (.addTail l x)).2
    w.Restored l (w₁.perform B (.popBack l)).2 ∧
      (w₁.stepOf B (.popBack l)).outcome = .answered (.value (some x)) ∧
      (w₁.stepOf B (.popBack l)).events = [.released r.allocator n .node] ∧
      (w₁.perform B (.popBack l)).2.store.hookState = w.store.hookState

namespace World.Sound

variable {w : World η σ α} {v : View η σ α} {l a n : Addr} {k : Strip η α} {x : α} {op : Op η α}

/-! ### The ways to add -/

theorem head_insert (x : α) (hw : w.Sound v) (hl : l ∈ w.holdings.lists) (hm : (l, k) ∈ v.lists)
    (hne : w.nodes l ≠ []) : ∃ a, (w.perform B (.head l)).1 = .answered (.node (some a)) ∧
      w.perform B (.addHead l x) = w.perform B (.insert l a x false) := by
  rw [hw.nodes_eq hm] at hne
  cases hk : k.entries with
  | nil => exact absurd (List.map_eq_nil_iff.2 hk) hne
  | cons e es =>
    obtain ⟨a, y⟩ := e
    have ha : a ∈ k.nodes := by simp [Strip.nodes, hk]
    have hc : (Op.head l : Op η α).check w = .ok () := expectList_of_lists hl
    have hc' : (Op.insert l a x false : Op η α).check w = .ok () := hw.expectNode_of_mem hl hm ha
    obtain ⟨s, hhead⟩ := hw.perform_of_yields (B := B) hc rfl (head_yields hm)
    refine ⟨a, ?_, World.perform_congr (expectList_of_lists hl) hc' rfl ?_⟩
    · rw [hhead]
      simp [Strip.nodes, hk]
    · exact keeping_congr (addHead_eq_insert hw.shows hm hk)

theorem tail_insert (x : α) (hw : w.Sound v) (hl : l ∈ w.holdings.lists) (hm : (l, k) ∈ v.lists)
    (hne : w.nodes l ≠ []) : ∃ a, (w.perform B (.tail l)).1 = .answered (.node (some a)) ∧
      w.perform B (.addTail l x) = w.perform B (.insert l a x true) := by
  rw [hw.nodes_eq hm] at hne
  rcases List.eq_nil_or_concat k.entries with hk | ⟨es, ⟨a, y⟩, hk⟩
  · exact absurd (List.map_eq_nil_iff.2 hk) hne
  · rw [List.concat_eq_append] at hk
    have ha : a ∈ k.nodes := by simp [Strip.nodes, hk]
    have hc : (Op.tail l : Op η α).check w = .ok () := expectList_of_lists hl
    have hc' : (Op.insert l a x true : Op η α).check w = .ok () := hw.expectNode_of_mem hl hm ha
    obtain ⟨s, htail⟩ := hw.perform_of_yields (B := B) hc rfl (tail_yields hm)
    refine ⟨a, ?_, World.perform_congr (expectList_of_lists hl) hc' rfl ?_⟩
    · rw [htail]
      simp [Strip.nodes, hk]
    · exact keeping_congr (addTail_eq_insert hw.shows hm hk)

theorem between_insert (x : α) (hw : w.Sound v) (hl : l ∈ w.holdings.lists) (hm : (l, k) ∈ v.lists)
    (ha : a ∈ w.nodes l) (hlast : (w.perform B (.tail l)).1 ≠ .answered (.node (some a))) :
    ∃ b, (w.perform B (.nextNode l a)).1 = .answered (.node (some b)) ∧
      w.perform B (.insert l a x true) = w.perform B (.insert l b x false) := by
  rw [hw.nodes_eq hm] at ha
  have hcheck := hw.expectNode_of_mem hl hm ha
  obtain ⟨xs, y, ys, hk⟩ := hw.mem_of_holds hm ((hw.ring hm).hasNode_iff.2 ha)
  cases ys with
  | nil =>
    -- the node is the tail
    have hc : (Op.tail l : Op η α).check w = .ok () := expectList_of_lists hl
    obtain ⟨s, htail⟩ := hw.perform_of_yields (B := B) hc rfl (tail_yields hm)
    rw [htail] at hlast
    exact absurd (by simp [Strip.nodes, hk]) hlast
  | cons e ys =>
    obtain ⟨b, z⟩ := e
    have hb : b ∈ k.nodes := by simp [Strip.nodes, hk]
    have hc : (Op.nextNode l a : Op η α).check w = .ok () := hcheck
    obtain ⟨s, hnext⟩ := hw.perform_of_yields (B := B) hc rfl (nextNode_yields hm hk)
    refine ⟨b, ?_, World.perform_congr hcheck (hw.expectNode_of_mem hl hm hb) rfl ?_⟩
    · rw [hnext]
      rfl
    · exact keeping_congr (insert_eq_insert hw.shows hm hk)

/-! ### Taking back -/

/-- A value is taken in, if the allocator serves a node. -/
theorem taken_offer (hw : w.Sound v) (hop : op.Offers l x) (hc : op.check w = .ok ())
    (hm : (l, k) ∈ v.lists) (hserve : w.store.serves k.allocator = true) :
    (w.perform B op).1 = .answered (.node (some w.store.heap.size)) ∧
      (w.stepOf B op).events = [.served k.allocator w.store.heap.size .node] := by
  have hserve' : v.serves k.allocator = true := (hw.shows.serves k.allocator).symm.trans hserve
  obtain ⟨a, ha⟩ := hw.offer_answered (B := B) hop hc hm hserve'
  obtain ⟨v', hst⟩ := hw.step (B := B) op
  obtain ⟨k', rest, xs, ys, hp, -, rfl, rfl⟩ := hst.effect.of_offers hop ha
  obtain rfl := (hw.ring hm).unique (hw.ring (hp.mem_iff.2 List.mem_cons_self))
  rw [hw.shows.fresh]
  exact ⟨ha, hst.events_eq rfl⟩

/-- **The new node is taken out**, by any operation that does so. -/
theorem takes_back {w₁ : World η σ α} {v₂ : View η σ α} {rest : List (Addr × Strip η α)}
    {xs ys : List (Addr × α)} {act : Action η σ α β} {answer : β → Answer η α} {b : β}
    {stop : Option Stop} {evs : List (Event η α)} (hw : w.Sound v)
    (hp : v.lists.Perm ((l, k) :: rest)) (hk : k.entries = xs ++ ys)
    (hw₁ : w₁.Sound (v.placed l k rest xs x ys)) (hheld : w₁.holdings = w.holdings)
    (hin : Heap.Within (Strip.region v.lists v.fresh) w.store.heap w₁.store.heap)
    (hc : op.check w₁ = .ok ())
    (hact : op.act B (op.takes w₁) = Op.keeping (op.takes w₁) answer act)
    (hdepart : ∃ ns, op.takes w₁ = w₁.holdings.depart l ns)
    (hsites : ∀ a ∈ op.sites, a = l ∨ a = v.fresh)
    (hend : Settles act (v.placed l k rest xs x ys) b stop v₂)
    (hlists : v₂.lists = (l, { k with entries := xs ++ ys }) :: rest)
    (hfresh : v₂.fresh = v.fresh + 1) (hlog : v₂.log = (v.placed l k rest xs x ys).log ++ evs)
    (hgone : (leaves (act w₁.store)).heap.get? v.fresh = none) :
    w.Restored l (w₁.perform B op).2 ∧ (w₁.stepOf B op).outcome = .ofStop (answer b) stop ∧
      (w₁.stepOf B op).events = evs ∧ (w₁.perform B op).2.store.hookState = v₂.hookState := by
  obtain ⟨houtcome, hs₂⟩ := hw₁.perform_of_settles hc hact hend
  have hafter := World.perform_keeping hc hact
  obtain ⟨ns, hdepart⟩ := hdepart
  have hsame : ({ k with entries := xs ++ ys } : Strip η α) = k :=
    congrArg (fun es => { k with entries := es }) hk.symm
  have hl : l ∈ v.lists.flatMap Strip.blocks :=
    List.mem_flatMap.2 ⟨(l, k), hp.mem_iff.2 List.mem_cons_self, List.mem_cons_self⟩
  have hwithin := World.perform_within (B := B) hin.region fun a ha => by
    rcases hsites a ha with rfl | rfl
    · exact .inl hl
    · exact .inr (Nat.le_refl _)
  have hw₂ : (w₁.perform B op).2.Sound v₂ := by
    refine ⟨hs₂, ?_, ?_⟩
    · have howners := hw₁.owners
      rw [hafter, hdepart, hlists]
      exact howners
    · have hroom := hw₁.room
      rw [hfresh]
      exact hroom
  obtain ⟨v', hst⟩ := hw₁.step (B := B) op
  refine ⟨hw.restored hp hw₂ (hlists.trans (by rw [hsame])) hfresh ?_ (hin.trans hwithin) ?_, houtcome,
    hst.events_eq ((hst.after.shows.log.symm.trans hs₂.log).trans hlog), hs₂.hookState⟩
  · rw [hafter]
    exact hgone
  · rw [hafter, hdepart, hheld]
    exact ⟨rfl, rfl⟩

/-- **Adding and deleting.** -/
theorem deleted_offer (hw : w.Sound v) (hop : op.Offers l x) (hm : (l, k) ∈ v.lists)
    (h : (w.perform B op).1 = .answered (.node (some n))) :
    let w₁ := (w.perform B op).2
    let d := discarding B .ordinary k.hooks w.store.hookState x
    w.Restored l (w₁.perform B (.delete l n)).2 ∧
      (w₁.stepOf B (.delete l n)).outcome = .ofStop .done (d.reply.stop .free) ∧
      (w₁.stepOf B (.delete l n)).events = [.released k.allocator n .node, d.event] := by
  intro w₁ d
  obtain ⟨k', rest, xs, ys, hp, hplacing, rfl, hw₁, hheld, hl, hin⟩ := hw.offered hop h
  obtain rfl := (hw.ring hm).unique (hw.ring (hp.mem_iff.2 List.mem_cons_self))
  have hc : (Op.delete l v.fresh : Op η α).check w₁ = .ok () :=
    hw₁.expectNode_of_mem (hheld ▸ hl) List.mem_cons_self (by simp [Strip.nodes])
  have hend := delete_ends (B := B) (v := v.placed l k rest xs x ys) rfl rfl
  have hstate : (v.placed l k rest xs x ys).hookState = w.store.hookState :=
    hw.shows.hookState.symm
  obtain ⟨hrestored, houtcome, hevents, -⟩ := hw.takes_back hp hplacing.split hw₁ hheld hin hc rfl
    ⟨_, rfl⟩ (by simp [Op.sites, Op.targets, or_comm]) hend.settles rfl rfl rfl
    (delete_erases hw₁.shows rfl rfl)
  rw [hstate] at houtcome hevents
  exact ⟨hrestored, houtcome, hevents⟩

/-- **Adding at the front and popping.** -/
theorem poppedFront_offer (hw : w.Sound v) (hm : (l, k) ∈ v.lists)
    (h : (w.perform B (.addHead l x)).1 = .answered (.node (some n))) :
    let w₁ := (w.perform B (.addHead l x)).2
    w.Restored l (w₁.perform B (.popFront l)).2 ∧
      (w₁.stepOf B (.popFront l)).outcome = .answered (.value (some x)) ∧
      (w₁.stepOf B (.popFront l)).events = [.released k.allocator n .node] ∧
      (w₁.perform B (.popFront l)).2.store.hookState = w.store.hookState := by
  intro w₁
  obtain ⟨k', rest, xs, ys, hp, hplacing, rfl, hw₁, hheld, hl, hin⟩ := hw.offered .head h
  obtain rfl := (hw.ring hm).unique (hw.ring (hp.mem_iff.2 List.mem_cons_self))
  cases hplacing with
  | head =>
    have hc : (Op.popFront l : Op η α).check w₁ = .ok () := expectList_of_lists (hheld ▸ hl)
    have hend : Settles (popFront l) (v.placed l k rest [] x k.entries) _ none _ :=
      popFront_yields_cons rfl rfl
    have hback := hw.takes_back (B := B) hp rfl hw₁ hheld hin hc rfl ⟨_, rfl⟩
      (by simp [Op.sites, Op.targets]) hend rfl rfl rfl (popFront_erases hw₁.shows rfl rfl)
    exact hw.shows.hookState ▸ hback

/-- **Adding at the back and popping.** -/
theorem poppedBack_offer (hw : w.Sound v) (hm : (l, k) ∈ v.lists)
    (h : (w.perform B (.addTail l x)).1 = .answered (.node (some n))) :
    let w₁ := (w.perform B (.addTail l x)).2
    w.Restored l (w₁.perform B (.popBack l)).2 ∧
      (w₁.stepOf B (.popBack l)).outcome = .answered (.value (some x)) ∧
      (w₁.stepOf B (.popBack l)).events = [.released k.allocator n .node] ∧
      (w₁.perform B (.popBack l)).2.store.hookState = w.store.hookState := by
  intro w₁
  obtain ⟨k', rest, xs, ys, hp, hplacing, rfl, hw₁, hheld, hl, hin⟩ := hw.offered .tail h
  obtain rfl := (hw.ring hm).unique (hw.ring (hp.mem_iff.2 List.mem_cons_self))
  cases hplacing with
  | tail =>
    have hc : (Op.popBack l : Op η α).check w₁ = .ok () := expectList_of_lists (hheld ▸ hl)
    have hend : Settles (popBack l) (v.placed l k rest k.entries x []) _ none _ :=
      popBack_yields_concat rfl rfl
    have hback := hw.takes_back (B := B) hp (List.append_nil _).symm hw₁ hheld hin hc rfl ⟨_, rfl⟩
      (by simp [Op.sites, Op.targets]) hend (by simp) rfl rfl (popBack_erases hw₁.shows rfl rfl)
    exact hw.shows.hookState ▸ hback

end World.Sound

/-- **Adding values and taking them back**, at every list after every run. -/
theorem World.undo_laws {w : World η σ α} {budgets : Array (Option Nat)} {hookState : σ} {l : Addr}
    {r : Record η} (hw : w.Reachable B budgets hookState) (hl : l ∈ w.holdings.lists)
    (hr : w.store.heap.record? l = some r) : w.Undoing B l r := by
  obtain ⟨v, -, hs, -⟩ := hw.sound
  obtain ⟨k, hm⟩ := hs.mem_lists (owners_of_lists hl)
  obtain rfl : k.record = r := hs.record_eq hm hr
  refine ⟨fun x hne => hs.head_insert x hl hm hne, fun x hne => hs.tail_insert x hl hm hne,
    fun x a ha hlast => hs.between_insert x hl hm ha hlast, fun op x hop hc hserve => ⟨?_, ?_⟩,
    fun op x n hop h => ?_, fun x n h => hs.poppedFront_offer hm h,
    fun x n h => hs.poppedBack_offer hm h⟩
  · exact hs.shows.get?_of_le (Nat.le_of_eq hs.shows.fresh.symm)
  · exact hs.taken_offer hop hc hm hserve
  · obtain ⟨hrestored, houtcome, hevents⟩ := hs.deleted_offer hop hm h
    refine ⟨hrestored, fun f hf => ?_, fun hf => ?_⟩ <;> rw [Strip.record_hooks] at hf
    · have hd : discarding B .ordinary k.hooks w.store.hookState x =
          ⟨.free f x (B.free f w.store.hookState x).1, (B.free f w.store.hookState x).1,
            (B.free f w.store.hookState x).2⟩ := by
        unfold discarding
        rw [hf]
      rw [hd] at houtcome hevents
      exact ⟨houtcome, hevents⟩
    · rw [discarding_of_none B .ordinary hf] at houtcome hevents
      exact ⟨houtcome, hevents⟩

/-- A node is added between two others and deleted, and the free hook panics at its value. The list
is what it was, but its allocator has served all it can. -/
theorem World.undo_laws_panicking :
    let B : Behaviour Unit Nat Nat := {
      dup _ s x := (.returns (some x), s)
      free _ s _ := (.panics, s + 1)
      freeUnwinding _ s _ := s + 1
      matching _ s x key := (.returns (x == key), s) }
    let r : Record Unit := ⟨2, { free := some () }, .limited 0⟩
    let w := ((World.start #[some 4] 0).run B [.create (.limited 0), .setHooks 0 r.hooks, .addTail 0 7,
      .addTail 0 9]).2
    (0 ∈ w.holdings.lists ∧ w.store.heap.record? 0 = some r) ∧
      (w.run B [.insert 0 1 8 true, .delete 0 3, .length 0, .nextNode 0 1, .addHead 0 5]).1 =
        [.answered (.node (some 3)), .stopped (.panicked .free), .answered (.count 2),
          .answered (.node (some 2)), .stopped (.refused .node)] ∧
      w.Undoing B 0 r := by
  intro B r w
  have hw : w.Reachable B #[some 4] 0 := ⟨_, rfl⟩
  have hl : 0 ∈ w.holdings.lists := by decide +kernel
  have hr : w.store.heap.record? 0 = some r := by decide +kernel
  exact ⟨⟨hl, hr⟩, by decide +kernel, undo_laws hw hl hr⟩

end RingList
