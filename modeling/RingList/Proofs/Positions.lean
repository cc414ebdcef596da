import RingList.Proofs.Walks

/-!
# Positions

A position finds the node that a walk of single steps leads to, from the first node or from the last
one, although the route to it may start at the other end. No number on the way leaves the machine
words.

* `Route.plan_cases`: the route to a position, for every length and every position that are machine
  words.
* `Direction.nth`: the walk of single steps. `nth_yields` and `index_yields` say which node it leads
  to and which node a position finds.
* `World.Positions`, `World.index_laws`: positions in the lists of a program.
-/

set_option autoImplicit false

namespace RingList

variable {η σ α : Type} {B : Behaviour η σ α} {n : Nat} {i j : Int}

/-! ## The arithmetic of positions -/

/-- A signed machine word. -/
def IsWord (i : Int) : Prop := -(1 <<< 63) ≤ i ∧ i < 1 <<< 63

instance (i : Int) : Decidable (IsWord i) :=
  inferInstanceAs (Decidable (-(1 <<< 63) ≤ i ∧ i < 1 <<< 63))

theorem isWord_iff : IsWord i ↔ -9223372036854775808 ≤ i ∧ i < 9223372036854775808 := Iff.rfl

/-- The number, counted from the front, of the node that a position denotes in a list of length `n`. -/
def placeOf (n : Nat) (i : Int) : Option Nat :=
  if 0 ≤ i ∧ i < n then some i.toNat
  else if -n ≤ i ∧ i < 0 then some (n + i).toNat
  else none

theorem placeOf_lt {p : Nat} (h : placeOf n i = some p) : p < n := by
  unfold placeOf at h
  split at h
  · obtain rfl := Option.some.inj h
    omega
  · split at h
    · obtain rfl := Option.some.inj h
      omega
    · cases h

/-- Two positions that denote the same node are the same, or one counts from either end. -/
theorem eq_of_placeOf_eq {p : Nat} (hi : placeOf n i = some p) (hj : placeOf n j = some p) :
    i = j ∨ i = j + n ∨ j = i + n := by
  unfold placeOf at hi hj
  grind

theorem ok_bind {ε β γ : Type} (b : β) (f : β → Except ε γ) : Except.ok b >>= f = f b := rfl

theorem signedWord_eq (hi : IsWord i) : signedWord i = .ok i := if_pos hi

theorem unsignedWord_eq (hlo : 0 ≤ i) (hhi : i < 18446744073709551616) :
    unsignedWord i = .ok i.toNat := if_pos ⟨hlo, hhi⟩

namespace Route

/-- The number, counted from the front, of the node that the route leads to in a list of length `n`. -/
def place (r : Route) (n : Nat) : Nat :=
  match r.direction with
  | .forward => r.links
  | .backward => n - 1 - r.links

theorem ofPosition_front (hi : IsWord i) (hlo : 0 ≤ i) : ofPosition i = .ok ⟨.forward, i.toNat⟩ := by
  have hhi := (isWord_iff.1 hi).2
  unfold ofPosition
  rw [if_neg (by omega), unsignedWord_eq hlo (by omega)]
  rfl

/-- One is added before the sign is changed, so that this is a word for the least position too. -/
theorem ofPosition_back (hi : IsWord i) (hneg : i < 0) :
    ofPosition i = .ok ⟨.backward, (-(i + 1)).toNat⟩ := by
  have hlo := (isWord_iff.1 hi).1
  unfold ofPosition
  rw [if_pos hneg, signedWord_eq (isWord_iff.2 (by omega)), ok_bind,
    signedWord_eq (isWord_iff.2 (by omega)), ok_bind, unsignedWord_eq (by omega) (by omega)]
  rfl

theorem opposite_eq {r : Route} (hn : n < wordSize) (hr : r.links < n) :
    r.opposite n = .ok ⟨r.direction.flip, n - 1 - r.links⟩ := by
  have hn : n < 18446744073709551616 := hn
  have hlast : ((n : Int) - 1).toNat = n - 1 := by omega
  have hlinks : (((n - 1 : Nat) : Int) - r.links).toNat = n - 1 - r.links := by omega
  unfold opposite
  rw [unsignedWord_eq (by omega) (by omega), hlast, ok_bind, unsignedWord_eq (by omega) (by omega),
    hlinks]
  rfl

theorem place_opposite {r : Route} (hr : r.links < n) :
    place ⟨r.direction.flip, n - 1 - r.links⟩ n = r.place n := by
  unfold place
  cases r.direction with
  | forward =>
    show n - 1 - (n - 1 - r.links) = r.links
    omega
  | backward => rfl

/-- The route of a position leads to the node that the position denotes, if there is one. -/
theorem ofPosition_cases (hi : IsWord i) : ∃ r, ofPosition i = .ok r ∧
    placeOf n i = if n ≤ r.links then none else some (r.place n) := by
  by_cases hneg : i < 0
  · refine ⟨_, ofPosition_back hi hneg, ?_⟩
    by_cases hin : n ≤ (-(i + 1)).toNat
    · rw [if_pos hin, placeOf, if_neg (by omega), if_neg (by omega)]
    · have hplace : (n + i).toNat = n - 1 - (-(i + 1)).toNat := by omega
      rw [if_neg hin, placeOf, if_neg (by omega), if_pos (by omega), hplace]
      rfl
  · refine ⟨_, ofPosition_front hi (by omega), ?_⟩
    by_cases hin : n ≤ i.toNat
    · rw [if_pos hin, placeOf, if_neg (by omega), if_neg (by omega)]
    · rw [if_neg hin, placeOf, if_pos (by omega)]
      rfl

/-- The route that is planned, by the one from the end that the position counts from. -/
theorem plan_eq {r : Route} (hn : n < wordSize) (hi : IsWord i) (hr : ofPosition i = .ok r) :
    plan n i = .ok (if n ≤ r.links then none
      else if n / 2 < r.links then some ⟨r.direction.flip, n - 1 - r.links⟩
      else some r) := by
  unfold plan
  rw [signedWord_eq hi, ok_bind, hr, ok_bind]
  by_cases hout : n ≤ r.links
  · rw [if_pos hout, if_pos hout]
    rfl
  · rw [if_neg hout, if_neg hout]
    by_cases hfar : n / 2 < r.links
    · rw [if_pos hfar, if_pos hfar, opposite_eq hn (by omega)]
      rfl
    · rw [if_neg hfar, if_neg hfar]
      rfl

/-- **The route that is planned** is the one from the end that the position counts from, or the opposite
one; there is none if the position denotes no node. No number on the way leaves the machine words. -/
theorem plan_cases (hn : n < wordSize) (hi : IsWord i) :
    (placeOf n i = none ∧ plan n i = .ok none) ∨
      ∃ r, plan n i = .ok (some r) ∧ r.links < n ∧ placeOf n i = some (r.place n) := by
  obtain ⟨r, hr, hplace⟩ := ofPosition_cases (n := n) hi
  rw [plan_eq hn hi hr]
  by_cases hout : n ≤ r.links
  · rw [if_pos hout] at hplace ⊢
    exact .inl ⟨hplace, rfl⟩
  · rw [if_neg hout] at hplace ⊢
    by_cases hfar : n / 2 < r.links
    · rw [if_pos hfar]
      refine .inr ⟨_, rfl, ?_, hplace.trans (congrArg some (place_opposite (by omega)).symm)⟩
      show n - 1 - r.links < n
      omega
    · rw [if_neg hfar]
      exact .inr ⟨r, rfl, by omega, hplace⟩

end Route

/-! ## Walks along the nodes -/

namespace Direction

/-- The node at which a walk along the list `l` starts, if there is one. -/
def first (d : Direction) (l : Addr) : Action η σ α (Option Addr) :=
  match d with
  | .forward => head l
  | .backward => tail l

/-- The node next to a node of the list `l`, if there is one. -/
def neighbour (d : Direction) (l node : Addr) : Action η σ α (Option Addr) :=
  match d with
  | .forward => nextNode l node
  | .backward => prevNode l node

/-- The node that `n` single steps lead to from a node. There is none if the list ends before. -/
def steps (d : Direction) (l : Addr) : Nat → Option Addr → Action η σ α (Option Addr)
  | _, none => pure none
  | 0, some node => pure (some node)
  | n + 1, some node => do d.steps l n (← d.neighbour l node)

/-- The node that `n` single steps lead to from the first one of the walk. -/
def nth (d : Direction) (l : Addr) (n : Nat) : Action η σ α (Option Addr) := do
  d.steps l n (← d.first l)

end Direction

section
variable {v : View η σ α} {l : Addr} {k : Strip η α} {d : Direction}

theorem first_yields (hl : (l, k) ∈ v.lists) (d : Direction) :
    Yields (d.first l) v (d.order k.nodes).head? v := by
  cases d with
  | forward => exact head_yields hl
  | backward =>
    rw [Direction.order, List.head?_reverse]
    exact tail_yields hl

theorem neighbour_yields {xs ys : List Addr} {a : Addr} (hl : (l, k) ∈ v.lists)
    (hk : d.order k.nodes = xs ++ a :: ys) : Yields (d.neighbour l a) v ys.head? v := by
  intro s hs
  have hout : l ∉ k.nodes := (hs.lists.ring (l, k) hl).header_not_mem
  have hk' : d.order k.nodes = (xs ++ [a]) ++ ys := by simp [hk]
  have hhandle : handle l (ys.head?.getD l) = ys.head? := handle_order hout hk'
  have hfollow := (follow_yields hl hk).map (handle l)
  rw [hhandle] at hfollow
  cases d with
  | forward => exact hfollow s hs
  | backward => exact hfollow s hs

/-- **Single steps** lead along the order of the walk, and past its end to no node. -/
theorem steps_yields (hl : (l, k) ∈ v.lists) : ∀ (n : Nat) {xs ys : List Addr},
    d.order k.nodes = xs ++ ys → Yields (d.steps l n ys.head?) v ys[n]? v
  | n, _, [], _ => by
    unfold Direction.steps
    exact yields_pure none v
  | 0, _, a :: _, _ => yields_pure (some a) v
  | n + 1, xs, a :: ys, hk => by
    have hk' : d.order k.nodes = (xs ++ [a]) ++ ys := by simp [hk]
    exact (neighbour_yields hl hk).bind (steps_yields hl n hk')

theorem nth_yields (hl : (l, k) ∈ v.lists) (d : Direction) (n : Nat) :
    Yields (d.nth l n) v (d.order k.nodes)[n]? v :=
  (first_yields hl d).bind (steps_yields hl n (List.nil_append _).symm)

/-- **Links** lead along the order of the walk, as far as there are nodes. -/
theorem walk_yields {b : Addr} (hl : (l, k) ∈ v.lists) : ∀ (links : Nat) {xs ys : List Addr}
    {a : Addr}, d.order k.nodes = xs ++ a :: ys → (a :: ys)[links]? = some b →
    Yields (d.walk links a) v b v
  | 0, _, _, a, _, hb => by
    obtain rfl : a = b := Option.some.inj hb
    exact yields_pure a v
  | links + 1, xs, [], a, _, hb => by cases hb
  | links + 1, xs, c :: ys, a, hk, hb => by
    have hk' : d.order k.nodes = (xs ++ [a]) ++ c :: ys := by simp [hk]
    exact (follow_yields hl hk).bind (walk_yields hl links hk' hb)

theorem go_yields {b : Addr} (r : Route) (hl : (l, k) ∈ v.lists)
    (hb : (r.direction.order k.nodes)[r.links]? = some b) : Yields (r.go l) v b v := by
  have hstart := follow_header_yields hl r.direction
  cases hns : r.direction.order k.nodes with
  | nil =>
    rw [hns] at hb
    cases hb
  | cons a ns =>
    rw [hns] at hb hstart
    have hk : r.direction.order k.nodes = [] ++ a :: ns := hns
    exact hstart.bind (walk_yields hl r.links hk hb)

theorem Route.order_getElem? {r : Route} {ns : List Addr} (hr : r.links < ns.length) :
    (r.direction.order ns)[r.links]? = ns[r.place ns.length]? := by
  unfold Route.place
  cases r.direction with
  | forward => rfl
  | backward => exact List.getElem?_reverse hr

/-- **A position finds** the node that it denotes, wherever the route to it starts. -/
theorem index_yields (hl : (l, k) ∈ v.lists) (hroom : v.fresh ≤ Heap.capacity) (hi : IsWord i) :
    Yields (index l i) v ((placeOf k.nodes.length i).bind (k.nodes[·]?)) v := by
  intro s hs
  have hlen : k.nodes.length < wordSize := by
    have := hs.length_lt hl
    have := capacity_lt_wordSize
    rw [k.nodes_length]
    omega
  refine Yields.bind (length_yields hl) ?_ s hs
  rw [← k.nodes_length]
  rcases Route.plan_cases hlen hi with ⟨hplace, hplan⟩ | ⟨r, hplan, hr, hplace⟩
  · rw [hplan, hplace]
    exact yields_pure none v
  · have hp : r.place k.nodes.length < k.nodes.length := placeOf_lt hplace
    have hfound := List.getElem?_eq_getElem hp
    have hgo : Yields (r.go l) v k.nodes[r.place k.nodes.length] v :=
      go_yields r hl ((Route.order_getElem? hr).trans hfound)
    have hne : k.nodes[r.place k.nodes.length] ≠ l := fun he =>
      (hs.lists.ring (l, k) hl).header_not_mem (he ▸ List.getElem_mem hp)
    have hhandle : handle l k.nodes[r.place k.nodes.length] = some k.nodes[r.place k.nodes.length] :=
      if_neg hne
    rw [hplan, hplace, Option.bind_some, hfound, ← hhandle]
    exact hgo.map (handle l)

end

/-! ## The lists of a program -/

/-- The program asks for the position `i` in the list `l` and is answered with this node, or none. The
world stays as it is. -/
def World.Finds (B : Behaviour η σ α) (w : World η σ α) (l : Addr) (i : Int) (node : Option Addr) :
    Prop := w.perform B (.index l i) = (.answered (.node node), w)

/-- **Positions in the list `l`**, which has `n` nodes. -/
structure World.Positions (B : Behaviour η σ α) (w : World η σ α) (l : Addr) (n : Nat) : Prop where
  length : w.read (RingList.length l) = .ok n
  /-- A position counts single steps from the first node, -/
  front : ∀ i : Int, 0 ≤ i → i < n → ∃ a, w.Finds B l i (some a) ∧
    w.read (Direction.forward.nth l i.toNat) = .ok (some a)
  /-- or, if it is negative, single steps back from the last node, which has the position `-1`. -/
  back : ∀ i : Int, -n ≤ i → i < 0 → ∃ a, w.Finds B l i (some a) ∧
    w.read (Direction.backward.nth l (-i - 1).toNat) = .ok (some a) ∧
    w.read (Direction.forward.nth l (n + i).toNat) = .ok (some a)
  outside : ∀ i : Int, IsWord i → (i < -n ∨ n ≤ i) → w.Finds B l i none
  wraps : ∀ i : Int, 0 ≤ i → i < n → w.perform B (.index l i) = w.perform B (.index l (i - n))
  /-- Two positions that find the same node are the same, but for the end that they count from. -/
  distinct : ∀ (i j : Int) a, w.Finds B l i (some a) → w.Finds B l j (some a) →
    i = j ∨ i = j + n ∨ j = i + n
  /-- What is found is a node of the list and not its header. -/
  member : ∀ (i : Int) a, w.Finds B l i (some a) → a ∈ w.nodes l ∧ a ≠ l
  /-- Every number on the way to a route is a machine word, whatever the length and the position. -/
  words : ∀ (m : Nat) (i : Int), m < wordSize → IsWord i → ∃ route, Route.plan m i = .ok route

namespace World

section
variable {budgets : Array (Option Nat)} {hookState : σ} {w : World η σ α} {v : View η σ α} {l : Addr}
  {k : Strip η α}

/-- Which node is found depends on the number that the position denotes. -/
theorem Sound.finds_iff (hw : w.Sound v) (hl : (l, k) ∈ v.lists) (hlists : l ∈ w.holdings.lists)
    (hi : IsWord i) {node : Option Addr} :
    w.Finds B l i node ↔ (placeOf k.nodes.length i).bind (k.nodes[·]?) = node := by
  have hcheck : (Op.index l i : Op η α).check w = .ok () := by
    show (w.expectList l >>= fun _ => if IsWord i then .ok () else .error .wildPosition) = .ok ()
    rw [expectList_of_lists hlists, ok_bind, if_pos hi]
  have hact : (Op.index l i : Op η α).act B w.holdings =
      index l i >>= fun node => pure (.node node, w.holdings) := rfl
  obtain ⟨s', hrun, -⟩ := index_yields hl hw.room hi w.store hw.shows
  have hstore : w.store = s' := by
    have hkeeps := index_keeps (η := η) (σ := σ) (α := α) l i w.store
    rw [hrun] at hkeeps
    exact hkeeps
  subst hstore
  have hperform : w.perform B (.index l i) =
      (.answered (.node ((placeOf k.nodes.length i).bind (k.nodes[·]?))), w) := by
    rw [perform_of_ok hcheck]
    exact proceed_of_ok ((congrFun hact _).trans (bind_ok hrun))
  unfold Finds
  rw [hperform]
  simp

/-- A position that finds something is a machine word. -/
theorem isWord_of_finds {node : Option Addr} (h : w.Finds B l i node) : IsWord i := by
  have hcheck := Sound.check_of_answered (congrArg Prod.fst h)
  obtain ⟨_, -, hword⟩ := bind_ok_inv hcheck
  by_contra hi
  have hwild : (if IsWord i then Except.ok () else Except.error Misuse.wildPosition) = .ok () := hword
  rw [if_neg hi] at hwild
  cases hwild

/-- **A position in the range of the list** finds a node, which single steps lead to as well. -/
theorem Sound.finds_place (hw : w.Sound v) (hl : (l, k) ∈ v.lists) (hlists : l ∈ w.holdings.lists)
    (hi : IsWord i) {p : Nat} (hp : placeOf k.nodes.length i = some p) : ∃ a,
    w.Finds B l i (some a) ∧ k.nodes[p]? = some a ∧
      w.read (Direction.forward.nth l p) = .ok (some a) ∧
      w.read (Direction.backward.nth l (k.nodes.length - 1 - p)) = .ok (some a) := by
  have hlt := placeOf_lt hp
  have hfound := List.getElem?_eq_getElem hlt
  have hforward := hw.read_eq (nth_yields hl .forward p)
  have hbackward := hw.read_eq (nth_yields hl .backward (k.nodes.length - 1 - p))
  have hplace : k.nodes.length - 1 - (k.nodes.length - 1 - p) = p := by omega
  rw [Direction.order, List.getElem?_reverse (by omega), hplace, hfound] at hbackward
  rw [Direction.order, hfound] at hforward
  refine ⟨k.nodes[p], (hw.finds_iff hl hlists hi).2 ?_, hfound, hforward, hbackward⟩
  rw [hp, Option.bind_some, hfound]

/-- **Positions in the lists of a program** find what single steps lead to, for every machine word. -/
theorem index_laws (hw : w.Reachable B budgets hookState) (hl : l ∈ w.holdings.lists) :
    ∃ n, w.Positions B l n := by
  obtain ⟨v, -, hs, -⟩ := hw.sound
  obtain ⟨k, hk⟩ := hs.mem_lists (owners_of_lists hl)
  have hnodes : k.nodes.length = k.entries.length := k.nodes_length
  have hsize : k.nodes.length < 1152921504606846976 := hnodes ▸ hs.length_lt hk
  -- a position of the list is a machine word, because the list is short enough
  have hword : ∀ i : Int, -(k.nodes.length : Int) ≤ i → i < k.nodes.length → IsWord i :=
    fun i hlo hhi => isWord_iff.2 (by omega)
  have hplace : ∀ {i a}, w.Finds B l i (some a) →
      ∃ p, placeOf k.nodes.length i = some p ∧ k.nodes[p]? = some a := by
    intro i a h
    exact Option.bind_eq_some_iff.1 ((hs.finds_iff hk hl (isWord_of_finds h)).1 h)
  refine ⟨k.nodes.length, ?_, fun i hlo hhi => ?_, fun i hlo hhi => ?_, fun i hi hout => ?_,
    fun i hlo hhi => ?_, fun i j a hi hj => ?_, fun i a h => ?_, fun m i hm hi => ?_⟩
  · rw [hnodes]
    exact hs.read_eq (length_yields hk)
  · have hp : placeOf k.nodes.length i = some i.toNat := if_pos ⟨hlo, hhi⟩
    obtain ⟨a, hfinds, -, hforward, -⟩ := hs.finds_place (B := B) hk hl (hword i (by omega) hhi) hp
    exact ⟨a, hfinds, hforward⟩
  · have hp : placeOf k.nodes.length i = some (k.nodes.length + i).toNat := by
      rw [placeOf, if_neg (by omega), if_pos ⟨hlo, hhi⟩]
    obtain ⟨a, hfinds, -, hforward, hbackward⟩ :=
      hs.finds_place (B := B) hk hl (hword i hlo (by omega)) hp
    have hsteps : k.nodes.length - 1 - (k.nodes.length + i).toNat = (-i - 1).toNat := by omega
    rw [hsteps] at hbackward
    exact ⟨a, hfinds, hbackward, hforward⟩
  · refine (hs.finds_iff hk hl hi).2 ?_
    rw [placeOf, if_neg (by omega), if_neg (by omega)]
    rfl
  · have hp : placeOf k.nodes.length i = some i.toNat := if_pos ⟨hlo, hhi⟩
    have hp' : placeOf k.nodes.length (i - k.nodes.length) = some i.toNat := by
      rw [placeOf, if_neg (by omega), if_pos (by omega)]
      congr 2
      omega
    have hfinds := (hs.finds_iff (B := B) hk hl (hword i (by omega) hhi)).2 rfl
    have hfinds' :=
      (hs.finds_iff (B := B) hk hl (hword (i - k.nodes.length) (by omega) (by omega))).2 rfl
    rw [hp] at hfinds
    rw [hp'] at hfinds'
    exact hfinds.trans hfinds'.symm
  · obtain ⟨p, hp, ha⟩ := hplace hi
    obtain ⟨q, hq, hb⟩ := hplace hj
    have hpq : p = q :=
      (List.getElem?_inj (placeOf_lt hp) (hs.ring hk).nodup).1 (ha.trans hb.symm)
    subst hpq
    exact eq_of_placeOf_eq hp hq
  · obtain ⟨p, -, ha⟩ := hplace h
    have hmem := List.mem_of_getElem? ha
    rw [hs.nodes_eq hk]
    exact ⟨hmem, fun he => (hs.ring hk).header_not_mem (he ▸ hmem)⟩
  · rcases Route.plan_cases hm hi with ⟨-, hplan⟩ | ⟨r, hplan, -⟩
    · exact ⟨_, hplan⟩
    · exact ⟨_, hplan⟩

/-- A rotated list of four nodes: the middle is reached from either end, and the least word is no
position of the list. -/
theorem index_laws_rotated :
    let B : Behaviour Unit Unit Char := {
      dup _ _ x := (.returns (some x), ())
      free _ _ _ := (.returns (), ())
      freeUnwinding _ _ _ := ()
      matching _ _ _ _ := (.returns false, ()) }
    let w := ((World.start #[] ()).run B [.collect ['a', 'b', 'c', 'd'], .rotate 0]).2
    (0 ∈ w.holdings.lists ∧ w.nodes 0 = [4, 1, 2, 3]) ∧
      (w.run B [.index 0 2, .index 0 (-2), .index 0 (-4), .index 0 4, .index 0 (-(1 <<< 63))]).1 =
        [.answered (.node (some 2)), .answered (.node (some 2)), .answered (.node (some 4)),
          .answered (.node none), .answered (.node none)] ∧
      ∃ n, w.Positions B 0 n := by
  intro B w
  have hw : w.Reachable B #[] () := ⟨_, rfl⟩
  have hl : 0 ∈ w.holdings.lists := by decide +kernel
  exact ⟨⟨hl, by decide +kernel⟩, by decide +kernel, index_laws hw hl⟩

end

end World

end RingList
