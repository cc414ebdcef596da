import RingList.Proofs.Positions

/-!
# The length of routes

A route to a position starts at the nearer end, and so follows as few links as a walk to the node can,
unless the position counts exactly half the length from its end. Such a position is walked from the
end that it counts from, although the node is one link nearer to the other one.

* `Route.plan_nearest`: which routes start at the nearer end.
* `World.index_routes`: the routes of positions in the lists of a program.
-/

set_option autoImplicit false

namespace RingList

variable {η σ α : Type} {B : Behaviour η σ α} {n p : Nat} {i : Int}

/-- The position counts exactly half the length `n`, from the first node or, if it is negative, from
the last one. -/
def CountsHalf (n : Nat) (i : Int) : Prop := 2 * i = n ∨ 2 * (-1 - i) = n

namespace Route

variable {r : Route}

/-- **The route starts at the nearer end** for the node number `p` of `n`: it follows no more links
than the walk from the other end would, and it starts at the back only if that is at least as near. -/
structure Nearest (r : Route) (n p : Nat) : Prop where
  links : r.links = min p (n - 1 - p)
  back : r.direction = .backward → n - 1 - p ≤ p

/-- The route starts at the farther end, which is one link farther than the nearer one. -/
structure Farther (r : Route) (n p : Nat) : Prop where
  links : r.links = min p (n - 1 - p) + 1
  back : r.direction = .backward ↔ p < n - 1 - p

theorem nearest_iff (hr : r.links < n) : r.Nearest n (r.place n) ↔ 2 * r.links < n := by
  obtain ⟨d, links⟩ := r
  have hlt : links < n := hr
  cases d with
  | forward =>
    show Nearest ⟨.forward, links⟩ n links ↔ 2 * links < n
    refine ⟨fun h => ?_, fun h => ⟨?_, nofun⟩⟩
    · have : links = min links (n - 1 - links) := h.links
      omega
    · show links = min links (n - 1 - links)
      omega
  | backward =>
    show Nearest ⟨.backward, links⟩ n (n - 1 - links) ↔ 2 * links < n
    refine ⟨fun h => ?_, fun h => ⟨?_, fun _ => by omega⟩⟩
    · have : links = min (n - 1 - links) (n - 1 - (n - 1 - links)) := h.links
      omega
    · show links = min (n - 1 - links) (n - 1 - (n - 1 - links))
      omega

/-- A route of half the length is one link longer than the opposite one. -/
theorem farther_of_half (hr : r.links < n) (h : 2 * r.links = n) : r.Farther n (r.place n) := by
  obtain ⟨d, links⟩ := r
  have hlt : links < n := hr
  have h : 2 * links = n := h
  cases d with
  | forward =>
    refine ⟨?_, nofun, fun hp => ?_⟩
    · show links = min links (n - 1 - links) + 1
      omega
    · have : links < n - 1 - links := hp
      omega
  | backward =>
    refine ⟨?_, fun _ => ?_, fun _ => rfl⟩
    · show links = min (n - 1 - links) (n - 1 - (n - 1 - links)) + 1
      omega
    · show n - 1 - links < n - 1 - (n - 1 - links)
      omega

theorem countsHalf_iff (hi : IsWord i) (hr : ofPosition i = .ok r) :
    CountsHalf n i ↔ 2 * r.links = n := by
  unfold CountsHalf
  by_cases hneg : i < 0
  · rw [ofPosition_back hi hneg] at hr
    obtain rfl := Except.ok.inj hr
    show _ ↔ 2 * (-(i + 1)).toNat = n
    omega
  · rw [ofPosition_front hi (by omega)] at hr
    obtain rfl := Except.ok.inj hr
    show _ ↔ 2 * i.toNat = n
    omega

/-- **Routes start at the nearer end** unless the position counts half the length. Then they start at
the farther one. -/
theorem plan_nearest (hn : n < wordSize) (hi : IsWord i) (hp : placeOf n i = some p) :
    ∃ r, plan n i = .ok (some r) ∧ r.links < n ∧ r.place n = p ∧
      (r.Nearest n p ↔ ¬ CountsHalf n i) ∧ (CountsHalf n i → r.Farther n p) := by
  obtain ⟨r, hr, hplace⟩ := ofPosition_cases (n := n) hi
  rw [plan_eq hn hi hr, countsHalf_iff hi hr]
  by_cases hout : n ≤ r.links
  · rw [if_pos hout, hp] at hplace
    cases hplace
  rw [if_neg hout, hp] at hplace
  obtain rfl : p = r.place n := Option.some.inj hplace
  rw [if_neg hout]
  by_cases hfar : n / 2 < r.links
  · rw [if_pos hfar, ← place_opposite (by omega)]
    have hlt : n - 1 - r.links < n := by omega
    refine ⟨_, rfl, hlt, rfl, (nearest_iff hlt).trans ⟨fun _ => by omega, fun _ => ?_⟩,
      fun h => absurd h (by omega)⟩
    show 2 * (n - 1 - r.links) < n
    omega
  · rw [if_neg hfar]
    have hlt : r.links < n := by omega
    refine ⟨r, rfl, hlt, rfl, (nearest_iff hlt).trans (by omega), farther_of_half hlt⟩

end Route

/-! ## The lists of a program -/

namespace World

section
variable {budgets : Array (Option Nat)} {hookState : σ} {w : World η σ α} {l : Addr}

/-- **The way to the position `i` in the list `l`**, which has `n` nodes: the route is planned, and
walking it leads to the node that the position finds. -/
structure Routed (B : Behaviour η σ α) (w : World η σ α) (l : Addr) (n : Nat) (i : Int) (p : Nat)
    (r : Route) : Prop where
  plan : Route.plan n i = .ok (some r)
  walk : ∃ a, w.read (r.go l) = .ok a ∧ (w.nodes l)[p]? = some a ∧ w.Finds B l i (some a)
  /-- The route starts at the nearer end unless the position counts half the length, -/
  nearest : r.Nearest n p ↔ ¬ CountsHalf n i
  /-- and then it starts at the farther one. -/
  farther : CountsHalf n i → r.Farther n p

/-- **Routes in the lists of a program**: they start at the nearer end for all positions but those that
count half the length. -/
theorem index_routes (hw : w.Reachable B budgets hookState) (hl : l ∈ w.holdings.lists) :
    ∃ n, w.read (RingList.length l) = .ok n ∧
      ∀ i : Int, -n ≤ i → i < n → ∃ p r, placeOf n i = some p ∧ w.Routed B l n i p r := by
  obtain ⟨v, -, hs, -⟩ := hw.sound
  obtain ⟨k, hk⟩ := hs.mem_lists (owners_of_lists hl)
  have hnodes : k.nodes.length = k.entries.length := k.nodes_length
  have hsize : k.nodes.length < 1152921504606846976 := hnodes ▸ hs.length_lt hk
  refine ⟨k.nodes.length, hnodes ▸ hs.read_eq (length_yields hk), fun i hlo hhi => ?_⟩
  have hword : IsWord i := isWord_iff.2 (by omega)
  obtain ⟨p, hp⟩ : ∃ p, placeOf k.nodes.length i = some p := by
    unfold placeOf
    by_cases hneg : i < 0
    · exact ⟨_, by rw [if_neg (by omega), if_pos (by omega)]⟩
    · exact ⟨_, by rw [if_pos (by omega)]⟩
  obtain ⟨r, hplan, hlinks, hplace, hnearest, hfarther⟩ :=
    Route.plan_nearest (hsize.trans (by decide)) hword hp
  obtain ⟨a, hfinds, hfound, -⟩ := hs.finds_place (B := B) hk hl hword hp
  have hgo : Yields (r.go l) v a v :=
    go_yields r hk ((Route.order_getElem? hlinks).trans (hplace.symm ▸ hfound))
  exact ⟨p, r, hp, hplan, ⟨a, hs.read_eq hgo, hs.nodes_eq hk ▸ hfound, hfinds⟩, hnearest, hfarther⟩

/-- A list of three nodes, which is walked from the nearer end to each of its positions. -/
theorem index_routes_three :
    let B : Behaviour Unit Unit Char := {
      dup _ _ x := (.returns (some x), ())
      free _ _ _ := (.returns (), ())
      freeUnwinding _ _ _ := ()
      matching _ _ _ _ := (.returns false, ()) }
    let w := ((World.start #[] ()).run B [.collect ['a', 'b', 'c']]).2
    0 ∈ w.holdings.lists ∧ Route.plan 3 2 = .ok (some ⟨.backward, 0⟩) ∧
      ∃ n, w.read (RingList.length 0) = .ok n ∧
        ∀ i : Int, -n ≤ i → i < n → ∃ p r, placeOf n i = some p ∧ w.Routed B 0 n i p r := by
  intro B w
  have hw : w.Reachable B #[] () := ⟨_, rfl⟩
  have hl : 0 ∈ w.holdings.lists := by decide +kernel
  exact ⟨hl, by decide +kernel, index_routes hw hl⟩

/-- The last one of two nodes is walked to from the front, by one link, although no link is needed from
the back; and the first one, as the position `-2`, from the back. -/
theorem index_not_nearest :
    let B : Behaviour Unit Unit Char := {
      dup _ _ x := (.returns (some x), ())
      free _ _ _ := (.returns (), ())
      freeUnwinding _ _ _ := ()
      matching _ _ _ _ := (.returns false, ()) }
    let w := ((World.start #[] ()).run B [.collect ['a', 'b']]).2
    (w.read (RingList.length 0) = .ok 2 ∧ w.nodes 0 = [1, 2] ∧ w.Finds B 0 1 (some 2)) ∧
      (placeOf 2 1 = some 1 ∧ Route.plan 2 1 = .ok (some ⟨.forward, 1⟩)) ∧
      (placeOf 2 (-2) = some 0 ∧ Route.plan 2 (-2) = .ok (some ⟨.backward, 1⟩)) ∧
      ¬ ∀ (n : Nat) (i : Int) p r, placeOf n i = some p → Route.plan n i = .ok (some r) →
        r.links = min p (n - 1 - p) ∧ (r.direction = .backward → n - 1 - p ≤ p) := by
  intro B w
  have hplace : placeOf 2 1 = some 1 := by decide
  have hplan : Route.plan 2 1 = .ok (some ⟨.forward, 1⟩) := by decide +kernel
  have hfound : (w.perform B (.index 0 1)).1 = .answered (.node (some 2)) := by decide +kernel
  refine ⟨⟨by decide +kernel, by decide +kernel, ?_⟩, ⟨hplace, hplan⟩,
    ⟨by decide, by decide +kernel⟩, fun h => ?_⟩
  · exact Prod.ext hfound rfl
  · exact absurd (h 2 1 1 _ hplace hplan).1 (by decide)

end

end World

end RingList
