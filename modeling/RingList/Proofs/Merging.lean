import Mathlib.Logic.Function.Basic
import RingList.Proofs.Clearing
import RingList.Proofs.Regions

/-!
# Merging lists

A join moves the nodes of one list to the end of another one by four links. Joins of several lists can
be asked for in many orders, and the links that a join writes are read by the next one. Whatever the
order is: if the nodes of the lists end up in the first list from left to right, the whole store is
the same.

* `Merges`: what it means that joins merge lists from left to right.
* `Bracketing.merges`: every way to bracket the joins does.
* `World.Merged`: what becomes of the lists.
* `World.merge_laws`: all orders of joins come to the same, and empty lists are a unit.
-/

set_option autoImplicit false

namespace RingList

variable {η σ α : Type} {B : Behaviour η σ α}

/-! ## Orders of joins -/

/-- What the lists hold after a join of `l` and `m`. -/
def moved (g : Addr → List Addr) (l m : Addr) : Addr → List Addr :=
  Function.update (Function.update g l (g l ++ g m)) m []

/-- What the lists hold after joins, by the names of the lists whose nodes it was at the beginning. -/
def gather (g : Addr → List Addr) : List (Addr × Addr) → Addr → List Addr
  | [] => g
  | j :: js => gather (moved g j.1 j.2) js

/-- **The joins merge the lists `l :: ls` from left to right into `l`**, in whatever order. -/
structure Merges (js : List (Addr × Addr)) (l : Addr) (ls : List Addr) : Prop where
  between : ∀ j ∈ js, j.1 ∈ l :: ls ∧ j.2 ∈ l :: ls ∧ j.1 ≠ j.2
  gathered : gather (fun x => [x]) js l = l :: ls

section
variable {g : Addr → List Addr} {l m x : Addr} {ls : List Addr} {js js' : List (Addr × Addr)}

theorem moved_left (hlm : l ≠ m) : moved g l m l = g l ++ g m := by simp [moved, hlm]

theorem moved_right : moved g l m m = [] := by simp [moved]

theorem moved_other (hl : x ≠ l) (hm : x ≠ m) : moved g l m x = g x := by simp [moved, hl, hm]

theorem gather_append : gather g (js ++ js') = gather (gather g js) js' := by
  induction js generalizing g with
  | nil => rfl
  | cons j js ih => exact ih

/-- Two lists in front of the others. -/
theorem perm_pair (hl : l ∈ ls) (hm : m ∈ ls) (hlm : l ≠ m) :
    ls.Perm (l :: m :: (ls.erase l).erase m) := by
  have hm' : m ∈ ls.erase l := (List.mem_erase_of_ne hlm.symm).2 hm
  exact (List.perm_cons_erase hl).trans (.cons l (List.perm_cons_erase hm'))

/-- A join loses nothing. -/
theorem flatMap_moved (hnd : ls.Nodup) (hl : l ∈ ls) (hm : m ∈ ls) (hlm : l ≠ m) :
    (ls.flatMap (moved g l m)).Perm (ls.flatMap g) := by
  have hp := perm_pair hl hm hlm
  have hnd' := hp.nodup_iff.1 hnd
  have hrest : ((ls.erase l).erase m).flatMap (moved g l m) = ((ls.erase l).erase m).flatMap g := by
    refine List.flatMap_congr fun x hx => moved_other ?_ ?_
    · rintro rfl
      exact (List.nodup_cons.1 hnd').1 (List.mem_cons_of_mem _ hx)
    · rintro rfl
      exact (List.nodup_cons.1 (List.nodup_cons.1 hnd').2).1 hx
  refine (hp.flatMap_right _).trans (.trans (.of_eq ?_) (hp.flatMap_right g).symm)
  simp only [List.flatMap_cons, moved_left hlm, moved_right, hrest, List.nil_append,
    List.append_assoc]

theorem flatMap_gather (hnd : ls.Nodup) (hjs : ∀ j ∈ js, j.1 ∈ ls ∧ j.2 ∈ ls ∧ j.1 ≠ j.2) :
    (ls.flatMap (gather g js)).Perm (ls.flatMap g) := by
  induction js generalizing g with
  | nil => exact .refl _
  | cons j js ih =>
    obtain ⟨hl, hm, hlm⟩ := hjs j List.mem_cons_self
    have hrest := ih (g := moved g j.1 j.2) fun i hi => hjs i (List.mem_cons_of_mem _ hi)
    exact hrest.trans (flatMap_moved hnd hl hm hlm)

/-- When all is in the first list, the others are empty. -/
theorem Merges.emptied (h : Merges js l ls) (hnd : (l :: ls).Nodup) (hx : x ∈ ls) :
    gather (fun x => [x]) js x = [] := by
  have hlength := (flatMap_gather (g := fun x => [x]) hnd h.between).length_eq
  rw [List.flatMap_cons, h.gathered, List.length_append] at hlength
  have hzero : (ls.flatMap (gather (fun x => [x]) js)).length = 0 := by simpa using hlength
  exact List.flatMap_eq_nil_iff.1 (List.eq_nil_of_length_eq_zero hzero) x hx

end

/-! ## Bracketings -/

/-- A way to bracket the joins of some lists. -/
inductive Bracketing where
  | list (l : Addr)
  | join (left right : Bracketing)
deriving DecidableEq, Repr

namespace Bracketing

/-- The lists from left to right. -/
def lists : Bracketing → List Addr
  | list l => [l]
  | join left right => left.lists ++ right.lists

def first : Bracketing → Addr
  | list l => l
  | join left _ => left.first

/-- The joins, from the inner ones to the outer ones. -/
def joins : Bracketing → List (Addr × Addr)
  | list _ => []
  | join left right => left.joins ++ right.joins ++ [(left.first, right.first)]

theorem lists_eq (t : Bracketing) : ∃ ls, t.lists = t.first :: ls := by
  induction t with
  | list l => exact ⟨[], rfl⟩
  | join left right ihl _ =>
    obtain ⟨ls, hls⟩ := ihl
    exact ⟨ls ++ right.lists, by simp [lists, first, hls]⟩

theorem first_mem (t : Bracketing) : t.first ∈ t.lists := by
  obtain ⟨ls, hls⟩ := t.lists_eq
  exact hls ▸ List.mem_cons_self

theorem joins_between {t : Bracketing} (hnd : t.lists.Nodup) :
    ∀ j ∈ t.joins, j.1 ∈ t.lists ∧ j.2 ∈ t.lists ∧ j.1 ≠ j.2 := by
  induction t with
  | list l => exact nofun
  | join left right ihl ihr =>
    obtain ⟨hl, hr, hdis⟩ := List.nodup_append.1 hnd
    intro j hj
    simp only [joins, List.mem_append, List.mem_singleton] at hj
    simp only [lists, List.mem_append]
    rcases hj with (hj | hj) | rfl
    · exact ⟨.inl (ihl hl j hj).1, .inl (ihl hl j hj).2.1, (ihl hl j hj).2.2⟩
    · exact ⟨.inr (ihr hr j hj).1, .inr (ihr hr j hj).2.1, (ihr hr j hj).2.2⟩
    · exact ⟨.inl left.first_mem, .inr right.first_mem,
        hdis _ left.first_mem _ right.first_mem⟩

/-- What a bracketing gathers, and where. -/
theorem gather_joins {t : Bracketing} (hnd : t.lists.Nodup) (g : Addr → List Addr) :
    gather g t.joins t.first = t.lists.flatMap g ∧
      ∀ x ∉ t.lists, gather g t.joins x = g x := by
  induction t generalizing g with
  | list l => exact ⟨by simp [joins, lists, first, gather], fun x _ => rfl⟩
  | join left right ihl ihr =>
    obtain ⟨hl, hr, hdis⟩ := List.nodup_append.1 hnd
    obtain ⟨hfirst, hout⟩ := ihl hl g
    obtain ⟨hfirst', hout'⟩ := ihr hr (gather g left.joins)
    have hne : left.first ≠ right.first := hdis _ left.first_mem _ right.first_mem
    have hleft : left.first ∉ right.lists := fun hm => hdis _ left.first_mem _ hm rfl
    have hright : right.lists.flatMap (gather g left.joins) = right.lists.flatMap g :=
      List.flatMap_congr fun x hx => hout x fun hm => hdis x hm x hx rfl
    rw [joins, gather_append, gather_append, first, lists]
    refine ⟨?_, fun x hx => ?_⟩
    · show moved _ left.first right.first left.first = _
      rw [moved_left hne, hout' _ hleft, hfirst, hfirst', hright, List.flatMap_append]
    · rw [List.mem_append, not_or] at hx
      have hl : x ≠ left.first := fun he => hx.1 (he ▸ left.first_mem)
      have hr : x ≠ right.first := fun he => hx.2 (he ▸ right.first_mem)
      show moved _ left.first right.first x = _
      rw [moved_other hl hr, hout' x hx.2, hout x hx.1]

/-- **Every bracketing merges** its lists from left to right into the first one. -/
theorem merges {t : Bracketing} {l : Addr} {ls : List Addr} (hlists : t.lists = l :: ls)
    (hnd : (l :: ls).Nodup) : Merges t.joins l ls := by
  obtain ⟨ls', hls'⟩ := t.lists_eq
  obtain rfl : t.first = l := (List.cons.inj (hls'.symm.trans hlists)).1
  rw [← hlists] at hnd
  refine ⟨hlists ▸ joins_between hnd, ?_⟩
  rw [(gather_joins hnd _).1, hlists]
  exact List.flatMap_singleton' _

end Bracketing

/-! ## Lists by their headers -/

/-- Joins as operations. -/
def joinOps (js : List (Addr × Addr)) : List (Op η α) := js.map fun j => .join j.1 j.2

/-- What the heap shows of the list with this header. -/
def Heap.strip (h : Heap η α) (l : Addr) : Strip η α where
  hooks := (h.record? l).elim {} (·.hooks)
  allocator := (h.record? l).elim .global (·.allocator)
  entries := h.entries l

theorem Heap.IsRing.strip_eq {h : Heap η α} {l : Addr} {k : Strip η α} (hr : h.IsRing l k) :
    h.strip l = k := by
  unfold Heap.strip
  rw [hr.record?_eq, hr.entries_eq]
  rfl

/-- The list `x` when it holds the nodes of the lists `g x`. -/
def Strip.holding (k : Addr → Strip η α) (g : Addr → List Addr) (x : Addr) : Addr × Strip η α :=
  (x, { k x with entries := (g x).flatMap fun y => (k y).entries })

theorem World.check_join {w : World η σ α} {l m : Addr} (hl : l ∈ w.holdings.lists)
    (hm : m ∈ w.holdings.lists) (hlm : l ≠ m) : (Op.join l m : Op η α).check w = .ok () := by
  show (w.expectList l >>= fun _ => w.expectList m >>= fun _ => _) = .ok ()
  rw [expectList_of_lists hl, expectList_of_lists hm]
  exact if_neg hlm

namespace World.Sound

variable {w : World η σ α} {v : View η σ α} {l m x : Addr} {ls : List Addr}
  {rest : List (Addr × Strip η α)} {k : Addr → Strip η α} {g : Addr → List Addr}
  {js : List (Addr × Addr)}

/-- Some of the lists of a program, each by itself. -/
theorem family (hw : w.Sound v) (hnd : ls.Nodup) (hls : ∀ x ∈ ls, x ∈ w.owners) : ∃ rest,
    v.lists.Perm (ls.map (Strip.holding w.store.heap.strip fun x => [x]) ++ rest) := by
  have hsub : ls.Subperm (v.lists.map (·.1)) :=
    hnd.subperm fun x hx => hw.owners.mem_iff.2 (hls x hx)
  obtain ⟨ls', hp, hs⟩ := hsub
  obtain ⟨others, hothers⟩ := hs.exists_perm_append
  have hself : v.lists = (v.lists.map (·.1)).map
      (Strip.holding w.store.heap.strip fun x => [x]) := by
    rw [List.map_map]
    refine (List.map_id _).symm.trans (List.map_congr_left fun p hp => ?_)
    simp [Strip.holding, (hw.ring hp).strip_eq]
  have hmap := (hothers.trans (hp.append_right others)).map
    (Strip.holding w.store.heap.strip fun x => [x])
  rw [← hself, List.map_append] at hmap
  exact ⟨_, hmap⟩

/-- **One join.** -/
theorem perform_join (hw : w.Sound (v.having (ls.map (Strip.holding k g) ++ rest)))
    (hnd : ls.Nodup) (hl : l ∈ ls) (hm : m ∈ ls) (hlm : l ≠ m)
    (hlists : ∀ x ∈ ls, x ∈ w.holdings.lists) :
    ∃ s, w.perform B (.join l m) = (.answered .done, ⟨s, w.holdings.depart m (w.nodes m)⟩) ∧
      World.Sound ⟨s, w.holdings.depart m (w.nodes m)⟩
        (v.having (ls.map (Strip.holding k (moved g l m)) ++ rest)) := by
  have hp := perm_pair hl hm hlm
  obtain ⟨others, hothers⟩ : ∃ others, others = (ls.erase l).erase m := ⟨_, rfl⟩
  rw [← hothers] at hp
  have hnd' := hp.nodup_iff.1 hnd
  have hperm : (ls.map (Strip.holding k g) ++ rest).Perm (Strip.holding k g l ::
      Strip.holding k g m :: (others.map (Strip.holding k g) ++ rest)) :=
    (hp.map (Strip.holding k g)).append_right rest
  have hw₁ : w.Sound (v.having _) := ⟨hw.perm hperm, hw.map_owners hperm, hw.room⟩
  obtain ⟨s, hrun, hs⟩ := join_yields (l := l) (m := m) rfl hw₁.room w.store hw₁.shows
  -- the other lists stay what they are
  have hsame : others.map (Strip.holding k (moved g l m)) = others.map (Strip.holding k g) := by
    refine List.map_congr_left fun x hx => ?_
    have hxl : x ≠ l := fun he => (List.nodup_cons.1 hnd').1 (List.mem_cons_of_mem _ (he ▸ hx))
    have hxm : x ≠ m := fun he => (List.nodup_cons.1 (List.nodup_cons.1 hnd').2).1 (he ▸ hx)
    rw [Strip.holding, Strip.holding, moved_other hxl hxm]
  have hback : ((l, { k l with entries := (Strip.holding k g l).2.entries ++
        (Strip.holding k g m).2.entries }) :: (m, { k m with entries := [] }) ::
      (others.map (Strip.holding k g) ++ rest)).Perm
      (ls.map (Strip.holding k (moved g l m)) ++ rest) := by
    refine .trans (.of_eq ?_) ((hp.map (Strip.holding k (moved g l m))).append_right rest).symm
    simp [hsame, Strip.holding, moved_left hlm, moved_right]
  have hact : (Op.join l m).act B (w.holdings.depart m (w.nodes m)) w.store =
      .ok (.done, w.holdings.depart m (w.nodes m)) s := bind_ok hrun
  refine ⟨s, ?_, ⟨hs.perm hback, ?_, hw.room⟩⟩
  · rw [World.perform_of_ok (World.check_join (hlists l hl) (hlists m hm) hlm)]
    exact World.proceed_of_ok hact
  · have howners := hw.owners
    rw [View.having_lists, List.map_append, List.map_map] at howners ⊢
    exact howners

/-- **Joins** carry out what they gather. -/
theorem run_joins (hw : w.Sound (v.having (ls.map (Strip.holding k g) ++ rest)))
    (hnd : ls.Nodup) (hlists : ∀ x ∈ ls, x ∈ w.holdings.lists)
    (hjs : ∀ j ∈ js, j.1 ∈ ls ∧ j.2 ∈ ls ∧ j.1 ≠ j.2) :
    ∃ w', w.run B (joinOps js) = (js.map fun _ => .answered .done, w') ∧
      w'.Sound (v.having (ls.map (Strip.holding k (gather g js)) ++ rest)) ∧
      w'.holdings.lists = w.holdings.lists ∧ w'.holdings.iterators = w.holdings.iterators := by
  induction js generalizing w g with
  | nil => exact ⟨w, rfl, hw, rfl, rfl⟩
  | cons j js ih =>
    obtain ⟨hl, hm, hlm⟩ := hjs j List.mem_cons_self
    obtain ⟨s, hstep, hs⟩ := hw.perform_join (B := B) hnd hl hm hlm hlists
    obtain ⟨w', hrun, hw', hlists', hiterators'⟩ :=
      ih hs hlists fun i hi => hjs i (List.mem_cons_of_mem _ hi)
    refine ⟨w', ?_, hw', hlists', hiterators'⟩
    rw [joinOps, List.map_cons, World.run_cons, hstep]
    exact congrArg (fun r => (_ :: r.1, r.2)) hrun

/-- **Joins that merge lists** leave the first list with everything and the others empty. -/
theorem run_merges (hw : w.Sound v) (hnd : (l :: ls).Nodup)
    (hlists : ∀ x ∈ l :: ls, x ∈ w.holdings.lists) (h : Merges js l ls)
    (hv : v.lists.Perm ((l :: ls).map (Strip.holding w.store.heap.strip fun x => [x]) ++ rest)) :
    ∃ w', w.run B (joinOps js) = (js.map fun _ => .answered .done, w') ∧
      w'.Sound (v.having (Strip.holding w.store.heap.strip (fun _ => l :: ls) l ::
        (ls.map (Strip.holding w.store.heap.strip fun _ => []) ++ rest))) ∧
      w'.holdings.lists = w.holdings.lists ∧ w'.holdings.iterators = w.holdings.iterators := by
  have hw₀ : w.Sound (v.having ((l :: ls).map
      (Strip.holding w.store.heap.strip fun x => [x]) ++ rest)) :=
    ⟨hw.perm hv, hw.map_owners hv, hw.room⟩
  obtain ⟨w', hrun, hw', hheld⟩ := hw₀.run_joins (B := B) hnd hlists h.between
  have hempty : ls.map (Strip.holding w.store.heap.strip (gather (fun x => [x]) js)) =
      ls.map (Strip.holding w.store.heap.strip fun _ => []) :=
    List.map_congr_left fun x hx => by rw [Strip.holding, Strip.holding, h.emptied hnd hx]
  have hfull : Strip.holding w.store.heap.strip (gather (fun x => [x]) js) l =
      Strip.holding w.store.heap.strip (fun _ => l :: ls) l := by
    rw [Strip.holding, Strip.holding, h.gathered]
  rw [List.map_cons, hempty, hfull] at hw'
  exact ⟨w', hrun, hw', hheld⟩

theorem ring_strip (hw : w.Sound v) (hx : x ∈ w.owners) :
    w.store.heap.IsRing x (w.store.heap.strip x) := by
  obtain ⟨k, hk⟩ := hw.mem_lists hx
  rw [(hw.ring hk).strip_eq]
  exact hw.ring hk

end World.Sound

/-! ## Merged lists -/

/-- **What becomes of the lists `l :: ls`** when they are merged into `l`, from the world `w` to the
world `w'`. -/
structure World.Merged (w : World η σ α) (l : Addr) (ls : List Addr) (w' : World η σ α) : Prop where
  /-- The first list has the nodes of all lists from left to right. -/
  nodes : w'.nodes l = (l :: ls).flatMap w.nodes
  /-- It is as long as all of them, and its links make up a ring in both directions. -/
  length : w'.ListInvariant l ((l :: ls).map w.count).sum
  /-- The others are empty and linked to themselves. -/
  emptied : ∀ x ∈ ls, w'.ListInvariant x 0 ∧ w'.store.heap.next? x = some x ∧
    w'.store.heap.prev? x = some x
  /-- Every node keeps its value. -/
  values : ∀ x ∈ l :: ls, ∀ a ∈ w.nodes x, w'.store.heap.content? a = w.store.heap.content? a
  /-- Every list keeps its hooks and its allocator. -/
  records : ∀ x ∈ l :: ls, w'.store.heap.record? x =
    (w.store.heap.record? x).map fun r => { r with length := w'.count x }
  /-- No other block is touched. -/
  others : ∀ a, (∀ x ∈ l :: ls, a ∉ x :: w.nodes x) →
    w'.store.heap.get? a = w.store.heap.get? a
  /-- No block is requested or released, and no hook runs. -/
  quiet : w'.store.events = w.store.events ∧ w'.store.budgets = w.store.budgets ∧
    w'.store.hookState = w.store.hookState ∧ w'.store.heap.size = w.store.heap.size
  lists : w'.holdings.lists = w.holdings.lists ∧ w'.holdings.iterators = w.holdings.iterators

namespace World.Sound

variable {w w' : World η σ α} {v : View η σ α} {l x : Addr} {ls : List Addr}
  {rest : List (Addr × Strip η α)} {js : List (Addr × Addr)}

/-- Joins touch no block of another list, and none that is in no list. -/
theorem get?_joins {a : Addr} (hw : w.Sound v) (hls : ∀ x ∈ ls, x ∈ w.owners)
    (hjs : ∀ j ∈ js, j.1 ∈ ls ∧ j.2 ∈ ls) (hfresh : a < v.fresh)
    (ha : ∀ x ∈ ls, a ∉ x :: w.nodes x) :
    (w.run B (joinOps js)).2.store.heap.get? a = w.store.heap.get? a := by
  have hmem : ∀ x ∈ ls, (x, w.store.heap.strip x) ∈ v.lists := by
    intro x hx
    obtain ⟨k, hk⟩ := hw.mem_lists (hls x hx)
    rwa [(hw.ring hk).strip_eq]
  have hregion : w.store.heap.Region
      (Strip.region (ls.map fun x => (x, w.store.heap.strip x)) v.fresh) := by
    refine hw.region fun p hp => ?_
    obtain ⟨x, hx, rfl⟩ := List.mem_map.1 hp
    exact hmem x hx
  have hheader : ∀ {x}, x ∈ ls → x ∈ Strip.region (ls.map fun x => (x, w.store.heap.strip x))
      v.fresh := fun {x} hx => by
    refine .inl (List.mem_flatMap.2 ⟨(x, w.store.heap.strip x), ?_, List.mem_cons_self⟩)
    exact List.mem_map_of_mem (f := fun x => (x, w.store.heap.strip x)) hx
  have hin := World.run_within (B := B) hregion (show ∀ op ∈ joinOps js, _ from fun op hop b hb => by
    obtain ⟨j, hj, rfl⟩ := List.mem_map.1 hop
    rcases List.mem_cons.1 hb with rfl | hb
    · exact hheader (hjs j hj).1
    · obtain rfl := List.mem_singleton.1 hb
      exact hheader (hjs j hj).2)
  refine hin.outside a fun hm => ?_
  rcases hm with hm | hm
  · obtain ⟨p, hp, hm⟩ := List.mem_flatMap.1 hm
    obtain ⟨x, hx, rfl⟩ := List.mem_map.1 hp
    refine ha x hx ?_
    rwa [hw.nodes_eq (hmem x hx)]
  · exact Nat.not_lt.2 hm hfresh

/-- **Two worlds that show lists before and after they are merged**, and have the same blocks outside
of them. -/
theorem merged (hw : w.Sound v)
    (hw' : w'.Sound (v.having (Strip.holding w.store.heap.strip (fun _ => l :: ls) l ::
      (ls.map (Strip.holding w.store.heap.strip fun _ => []) ++ rest))))
    (hls : ∀ x ∈ l :: ls, x ∈ w.owners)
    (hheld : w'.holdings.lists = w.holdings.lists ∧ w'.holdings.iterators = w.holdings.iterators)
    (hout : ∀ a, (∀ x ∈ l :: ls, a ∉ x :: w.nodes x) →
      w'.store.heap.get? a = w.store.heap.get? a) : w.Merged l ls w' := by
  have hring : ∀ {x}, x ∈ l :: ls → w.store.heap.IsRing x (w.store.heap.strip x) := fun hx =>
    hw.ring_strip (hls _ hx)
  have hnodes : ∀ {x}, x ∈ l :: ls → w.nodes x = (w.store.heap.strip x).nodes := fun hx =>
    (hring hx).nodes_eq
  have hcount : ∀ {x}, x ∈ l :: ls → w.count x = (w.store.heap.strip x).entries.length :=
    fun {x} hx => by rw [World.count, hnodes hx, Strip.nodes_length]
  have hfull := hw'.ring (l := l) List.mem_cons_self
  have hempty : ∀ {x}, x ∈ ls → (x, { w.store.heap.strip x with entries := [] }) ∈
      (v.having (Strip.holding w.store.heap.strip (fun _ => l :: ls) l ::
        (ls.map (Strip.holding w.store.heap.strip fun _ => []) ++ rest))).lists := fun {x} hx => by
    refine List.mem_cons_of_mem _ (List.mem_append_left _ ?_)
    exact List.mem_map_of_mem (f := Strip.holding w.store.heap.strip fun _ => []) hx
  refine ⟨?_, ?_, fun x hx => ⟨?_, ?_, ?_⟩, fun x hx a ha => ?_, fun x hx => ?_, hout, ?_, hheld⟩
  · rw [World.nodes, hfull.nodes_eq, Strip.nodes, List.map_flatMap]
    exact List.flatMap_congr fun x hx => (hnodes hx).symm
  · have hinv := hw'.listInvariant (l := l) List.mem_cons_self
    have hlength : ((l :: ls).flatMap fun y => (w.store.heap.strip y).entries).length =
        ((l :: ls).map w.count).sum := by
      rw [List.length_flatMap]
      exact congrArg List.sum (List.map_congr_left fun x hx => (hcount hx).symm)
    rwa [hlength] at hinv
  · exact hw'.listInvariant (hempty hx)
  · exact (hw'.ring (hempty hx)).next?_header
  · exact (hw'.ring (hempty hx)).prev?_header
  · rw [hnodes hx] at ha
    obtain ⟨e, he, rfl⟩ := List.mem_map.1 ha
    rw [(hring hx).values e he]
    exact hfull.values e (List.mem_flatMap.2 ⟨x, hx, he⟩)
  · rw [(hring hx).record?_eq]
    rcases List.mem_cons.1 hx with rfl | hx
    · rw [hfull.record?_eq, hw'.count_eq List.mem_cons_self]
      rfl
    · rw [(hw'.ring (hempty hx)).record?_eq, hw'.count_eq (hempty hx)]
      rfl
  · exact ⟨Array.toList_inj.1 (hw'.shows.log.trans hw.shows.log.symm),
      hw'.shows.budgets.trans hw.shows.budgets.symm,
      hw'.shows.hookState.trans hw.shows.hookState.symm, hw'.shows.fresh.trans hw.shows.fresh.symm⟩

end World.Sound

/-! ## Empty lists -/

/-- The header `a` stands where the header `b` stood. -/
def inPlaceOf (a b x : Addr) : Addr := if x = b then a else x

/-- **The same chain of nodes with another header** has the same links but for this. -/
theorem Heap.IsRing.inPlaceOf {h h' : Heap η α} {a b x : Addr} {k k' : Strip η α}
    (hr : h.IsRing b k) (hr' : h'.IsRing a k') (hk : k'.nodes = k.nodes) (hx : x ∈ b :: k.nodes) :
    h'.next? (inPlaceOf a b x) = (h.next? x).map (inPlaceOf a b) ∧
      h'.prev? (inPlaceOf a b x) = (h.prev? x).map (inPlaceOf a b) := by
  have hnode : ∀ {y}, y ∈ k.nodes → RingList.inPlaceOf a b y = y := fun {y} hy => by
    have hne : y ≠ b := fun he => hr.header_not_mem (he ▸ hy)
    exact if_neg hne
  have hself : RingList.inPlaceOf a b b = a := if_pos rfl
  -- a neighbour is a node, or the header
  have hend : ∀ o : Option Addr, (∀ y ∈ o, y ∈ k.nodes) →
      RingList.inPlaceOf a b (o.getD b) = o.getD a := by
    intro o ho
    cases o with
    | none => exact hself
    | some y => exact hnode (ho y rfl)
  rcases List.mem_cons.1 hx with rfl | hx
  · rw [hself, hr.next?_header, hr.prev?_header, hr'.next?_header, hr'.prev?_header, hk]
    exact ⟨congrArg some (hend _ fun y hy => List.mem_of_head? hy).symm,
      congrArg some (hend _ fun y hy => List.mem_of_getLast? hy).symm⟩
  · obtain ⟨xs, ys, hsplit⟩ := List.append_of_mem hx
    have hxs : ∀ y ∈ xs, y ∈ k.nodes := fun y hy => by simp [hsplit, hy]
    have hys : ∀ y ∈ ys, y ∈ k.nodes := fun y hy => by simp [hsplit, hy]
    rw [hnode hx, hr.next?_node hsplit, hr.prev?_node hsplit, hr'.next?_node (hk.trans hsplit),
      hr'.prev?_node (hk.trans hsplit)]
    exact ⟨congrArg some (hend _ fun y hy => hys y (List.mem_of_head? hy)).symm,
      congrArg some (hend _ fun y hy => hxs y (List.mem_of_getLast? hy)).symm⟩

theorem Holdings.depart_nil (t : Holdings) (l : Addr) : t.depart l [] = t := by
  have hseat : (fun s : Seat => s.afterDeparture l []) = id := by
    funext s
    simp [Seat.afterDeparture]
  simp [Holdings.depart, hseat]

/-- **Joining an empty list** changes nothing. -/
theorem World.Sound.perform_join_empty {w : World η σ α} {v : View η σ α} {l m : Addr}
    (hw : w.Sound v) (hl : l ∈ w.holdings.lists) (hm : m ∈ w.holdings.lists) (hlm : l ≠ m)
    (hnil : w.nodes m = []) : w.perform B (.join l m) = (.answered .done, w) := by
  have hr := hw.ring_strip (owners_of_lists hm)
  have hentries : (w.store.heap.strip m).entries = [] := by
    have hnodes := hr.nodes_eq.symm.trans hnil
    exact List.map_eq_nil_iff.1 hnodes
  have hrun : join l m w.store = .ok () w.store := by
    unfold join
    rw [bind_ok (detachAll_run_nil hr hentries)]
    rfl
  have hact : (Op.join l m).act B ((Op.join l m : Op η α).takes w) w.store =
      .ok (.done, (Op.join l m : Op η α).takes w) w.store := bind_ok hrun
  have htakes : (Op.join l m : Op η α).takes w = w.holdings := by
    show w.holdings.depart m (w.nodes m) = _
    rw [hnil, Holdings.depart_nil]
  rw [World.perform_of_ok (World.check_join hl hm hlm), World.proceed_of_ok hact, htakes]

/-! ## The laws of joins -/

/-- **Merging lists by joins.** -/
structure World.Merging (B : Behaviour η σ α) (w : World η σ α) : Prop where
  /-- Joins that merge lists are answered and merge them. -/
  merged : ∀ l ls js, (l :: ls).Nodup → (∀ x ∈ l :: ls, x ∈ w.holdings.lists) → Merges js l ls →
    (w.run B (joinOps js)).1 = js.map (fun _ => .answered .done) ∧
      w.Merged l ls (w.run B (joinOps js)).2
  /-- **All orders of joins** that merge the same lists from left to right end in the same store. -/
  orders : ∀ l ls js js', (l :: ls).Nodup → (∀ x ∈ l :: ls, x ∈ w.holdings.lists) →
    Merges js l ls → Merges js' l ls →
    (w.run B (joinOps js)).2.store = (w.run B (joinOps js')).2.store
  /-- So do all ways to bracket the joins. -/
  bracketings : ∀ t t' : Bracketing, t.lists.Nodup → (∀ x ∈ t.lists, x ∈ w.holdings.lists) →
    t.lists = t'.lists →
    (w.run B (joinOps t.joins)).2.store = (w.run B (joinOps t'.joins)).2.store
  /-- **Associativity**: the lists `b` and `c` join `a` one after the other, or together. -/
  assoc : ∀ a b c, a ∈ w.holdings.lists → b ∈ w.holdings.lists → c ∈ w.holdings.lists →
    a ≠ b → a ≠ c → b ≠ c →
    let w' := (w.run B [.join a b, .join a c]).2
    w'.store = (w.run B [.join b c, .join a b]).2.store ∧
      w'.ListInvariant a (w.count a + w.count b + w.count c) ∧ w'.ListInvariant b 0 ∧
      w'.ListInvariant c 0
  /-- A list that was emptied can be used as a new one: whatever the program does from then on, the two
  can take each other's place. -/
  usable : ∀ l ls js, (l :: ls).Nodup → (∀ x ∈ l :: ls, x ∈ w.holdings.lists) → Merges js l ls →
    ∀ x ∈ ls, ∀ r c, w.store.heap.record? x = some r → let w' := (w.run B (joinOps js)).2
    (w'.perform B (.create r.allocator)).1 = .answered (.list c) →
    (w'.run B [.create r.allocator, .setHooks c r.hooks]).2.Interchangeable B x c
  /-- **The right unit**: joining an empty list changes nothing at all. -/
  unit_right : ∀ a b, a ∈ w.holdings.lists → b ∈ w.holdings.lists → a ≠ b → w.nodes b = [] →
    w.perform B (.join a b) = (.answered .done, w)
  /-- **The left unit**: an empty list gets exactly the other one's chain of nodes, with its own header
  in the place of the other one's. -/
  unit_left : ∀ a b, a ∈ w.holdings.lists → b ∈ w.holdings.lists → a ≠ b → w.nodes a = [] →
    let h' := (w.perform B (.join a b)).2.store.heap
    h'.nodes a = w.nodes b ∧ ∀ x ∈ b :: w.nodes b,
      h'.next? (inPlaceOf a b x) = (w.store.heap.next? x).map (inPlaceOf a b) ∧
        h'.prev? (inPlaceOf a b x) = (w.store.heap.prev? x).map (inPlaceOf a b)

section
variable {w : World η σ α} {v : View η σ α} {budgets : Array (Option Nat)} {hookState : σ}
  {l : Addr} {ls : List Addr} {js js' : List (Addr × Addr)}

/-- **Joins that merge lists**, in a world that is sound for a view. -/
theorem World.Sound.run_merged (hw : w.Sound v) (hnd : (l :: ls).Nodup)
    (hls : ∀ x ∈ l :: ls, x ∈ w.holdings.lists) (h : Merges js l ls) :
    (w.run B (joinOps js)).1 = js.map (fun _ => .answered .done) ∧
      w.Merged l ls (w.run B (joinOps js)).2 := by
  have howners : ∀ x ∈ l :: ls, x ∈ w.owners := fun x hx => owners_of_lists (hls x hx)
  obtain ⟨rest, hv⟩ := hw.family hnd howners
  obtain ⟨w', hrun, hw', hheld⟩ := hw.run_merges (B := B) hnd hls h hv
  have hout : ∀ a, (∀ x ∈ l :: ls, a ∉ x :: w.nodes x) →
      w'.store.heap.get? a = w.store.heap.get? a := by
    intro a ha
    by_cases hfresh : a < v.fresh
    · have hget := hw.get?_joins (B := B) howners
        (fun j hj => ⟨(h.between j hj).1, (h.between j hj).2.1⟩) hfresh ha
      rwa [hrun] at hget
    · have hfresh : v.fresh ≤ a := Nat.le_of_not_lt hfresh
      rw [hw'.shows.get?_of_le hfresh, hw.shows.get?_of_le hfresh]
  rw [hrun]
  exact ⟨rfl, hw.merged hw' howners hheld hout⟩

/-- **Two orders of joins** that merge the same lists. -/
theorem World.Sound.orders (hw : w.Sound v) (hnd : (l :: ls).Nodup)
    (hls : ∀ x ∈ l :: ls, x ∈ w.holdings.lists) (h : Merges js l ls) (h' : Merges js' l ls) :
    (w.run B (joinOps js)).2.store = (w.run B (joinOps js')).2.store := by
  obtain ⟨rest, hv⟩ := hw.family hnd fun x hx => owners_of_lists (hls x hx)
  obtain ⟨w₁, hrun₁, hw₁, hheld₁⟩ := hw.run_merges (B := B) hnd hls h hv
  obtain ⟨w₂, hrun₂, hw₂, -⟩ := hw.run_merges (B := B) hnd hls h' hv
  obtain ⟨-, hmerged₁⟩ := hw.run_merged (B := B) hnd hls h
  obtain ⟨-, hmerged₂⟩ := hw.run_merged (B := B) hnd hls h'
  rw [hrun₁] at hmerged₁ ⊢
  rw [hrun₂] at hmerged₂ ⊢
  refine hw₂.shows.eq hw₁.shows fun a ha => ?_
  -- the blocks of the lists are still in lists, so this one is elsewhere
  have howned : ∀ {x}, x ∈ l :: ls → x ∈ w₁.owners := fun hx =>
    owners_of_lists (hheld₁.1 ▸ hls _ hx)
  have hout : ∀ x ∈ l :: ls, a ∉ x :: w.nodes x := by
    intro x hx hm
    refine ha (.inl ?_)
    rcases List.mem_cons.1 hm with rfl | hm
    · exact hw₁.mem_blocks (howned hx) List.mem_cons_self
    · refine hw₁.mem_blocks (howned List.mem_cons_self) (List.mem_cons_of_mem _ ?_)
      exact hmerged₁.nodes ▸ List.mem_flatMap.2 ⟨x, hx, hm⟩
  rw [hmerged₁.others a hout, hmerged₂.others a hout]

/-- A list that was emptied by joins, and a new one with the same hooks and allocator. -/
theorem World.Reachable.usable_merged {x c : Addr} {r : Record η}
    (hw : w.Reachable B budgets hookState) (hnd : (l :: ls).Nodup)
    (hls : ∀ x ∈ l :: ls, x ∈ w.holdings.lists) (h : Merges js l ls) (hx : x ∈ ls)
    (hr : w.store.heap.record? x = some r) :
    let w' := (w.run B (joinOps js)).2
    (w'.perform B (.create r.allocator)).1 = .answered (.list c) →
      (w'.run B [.create r.allocator, .setHooks c r.hooks]).2.Interchangeable B x c := by
  intro w' hcreate
  obtain ⟨v, -, hs, -⟩ := hw.sound
  obtain ⟨-, hmerged⟩ := hs.run_merged (B := B) hnd hls h
  have hw' : w'.Reachable B budgets hookState := hw.run
  obtain ⟨v', -, hs', -⟩ := hw'.sound
  obtain ⟨hout, hc, hrecord⟩ := hs'.create_record r.hooks hcreate
  have hxl : x ∈ w'.owners :=
    owners_of_lists (hmerged.lists.1 ▸ hls x (List.mem_cons_of_mem _ hx))
  have hne : x ≠ c := fun he => hout (he ▸ hxl)
  -- making the new list leaves the emptied one as it is
  have hops : ∀ op ∈ [.create r.allocator, (.setHooks c r.hooks : Op η α)], x ∉ op.targets := by
    intro op hop
    rcases List.mem_cons.1 hop with rfl | hop
    · exact List.not_mem_nil
    · rw [List.mem_singleton.1 hop]
      exact fun hm => hne (List.mem_singleton.1 hm)
  have hsame := hs'.sameList_run (B := B) hxl hops
  have hcount : w'.count x = 0 := by
    obtain ⟨k, hk⟩ := hs'.mem_lists hxl
    have hread := (hs'.listInvariant hk).length.symm.trans (hmerged.emptied x hx).1.length
    rw [hs'.count_eq hk]
    exact Except.ok.inj hread
  have hrecord' : w'.store.heap.record? x = some { r with length := 0 } := by
    rw [hmerged.records x (List.mem_cons_of_mem _ hx), hr, hcount]
    rfl
  exact hw'.run.interchangeable hsame.owned hc (hsame.record.trans hrecord') hrecord rfl

/-- **Joins of lists** that a program owns, after every run. -/
theorem World.merge_laws (hw : w.Reachable B budgets hookState) : w.Merging B := by
  obtain ⟨v, -, hs, -⟩ := hw.sound
  have hpair : ∀ {a b : Addr}, a ∈ w.holdings.lists → b ∈ w.holdings.lists → a ≠ b →
      [a, b].Nodup ∧ (∀ x ∈ [a, b], x ∈ w.holdings.lists) ∧ Merges [(a, b)] a [b] := by
    intro a b ha hb hab
    refine ⟨by simpa using hab, by simpa using ⟨ha, hb⟩, by simp [hab], ?_⟩
    exact moved_left hab
  refine ⟨fun l ls js hnd hls h => hs.run_merged hnd hls h,
    fun l ls js js' hnd hls h h' => hs.orders hnd hls h h', fun t t' hnd hls ht => ?_,
    fun a b c ha hb hc hab hac hbc => ?_,
    fun l ls js hnd hls h x hx r c hr => hw.usable_merged hnd hls h hx hr,
    fun a b ha hb hab hnil => hs.perform_join_empty ha hb hab hnil, fun a b ha hb hab hnil => ?_⟩
  · obtain ⟨ls, hlists⟩ := t.lists_eq
    rw [hlists] at hnd hls
    exact hs.orders hnd hls (Bracketing.merges hlists hnd)
      (Bracketing.merges (ht.symm.trans hlists) hnd)
  · have hnd : [a, b, c].Nodup := by simp [hab, hac, hbc]
    have hls : ∀ x ∈ [a, b, c], x ∈ w.holdings.lists := by simp [ha, hb, hc]
    have hone : Merges [(a, b), (a, c)] a [b, c] := by
      refine ⟨by simp [hab, hac], ?_⟩
      show moved (moved _ a b) a c a = _
      rw [moved_left hac, moved_left hab, moved_other hac.symm hbc.symm]
      rfl
    have htwo : Merges [(b, c), (a, b)] a [b, c] := by
      refine ⟨by simp [hab, hbc], ?_⟩
      show moved (moved _ b c) a b a = _
      rw [moved_left hab, moved_other hab hac, moved_left hbc]
      rfl
    obtain ⟨-, hmerged⟩ := hs.run_merged (B := B) hnd hls hone
    have hsum : ([a, b, c].map w.count).sum = w.count a + w.count b + w.count c := by
      simp [Nat.add_assoc]
    exact ⟨hs.orders hnd hls hone htwo, hsum ▸ hmerged.length, (hmerged.emptied b (by simp)).1,
      (hmerged.emptied c (by simp)).1⟩
  · obtain ⟨hnd, hls, h⟩ := hpair ha hb hab
    obtain ⟨-, hmerged⟩ := hs.run_merged (B := B) hnd hls h
    have hall : (w.perform B (.join a b)).2.nodes a = [a, b].flatMap w.nodes := hmerged.nodes
    have hnodes : (w.perform B (.join a b)).2.nodes a = w.nodes b := by
      rw [hall]
      simp [hnil]
    obtain ⟨v', -, hs', -⟩ := (hw.perform (.join a b)).sound
    have hr := hs.ring_strip (owners_of_lists hb)
    have ha' : a ∈ (w.perform B (.join a b)).2.owners := owners_of_lists (hmerged.lists.1 ▸ ha)
    have hr' := hs'.ring_strip ha'
    have hsame := hr'.nodes_eq.symm.trans (hnodes.trans hr.nodes_eq)
    refine ⟨hnodes, fun x hx => hr.inPlaceOf hr' hsame ?_⟩
    rwa [World.nodes, hr.nodes_eq] at hx

/-- Four lists, one of them empty: the last two are joined first, and then the joins go on from the
left. The lists that are left empty take new values. -/
theorem World.merge_laws_four :
    let B : Behaviour Unit Unit Nat := {
      dup _ _ x := (.returns (some x), ())
      free _ _ _ := (.returns (), ())
      freeUnwinding _ _ _ := ()
      matching _ _ _ _ := (.returns false, ()) }
    let w := ((World.start #[] ()).run B [.collect [5], .create .global, .collect [6, 7],
      .collect [8]]).2
    let js := [(3, 6), (0, 2), (0, 3)]
    ((∀ x ∈ [0, 2, 3, 6], x ∈ w.holdings.lists) ∧ Merges js 0 [2, 3, 6]) ∧
      (w.run B (joinOps js)).2.nodes 0 = [1, 4, 5, 7] ∧
      ((w.run B (joinOps js)).2.run B [.addTail 3 9, .front 3, .length 0]).1 =
        [.answered (.node (some 8)), .answered (.value (some 9)), .answered (.count 4)] ∧
      w.Merging B := by
  intro B w js
  have hw : w.Reachable B #[] () := ⟨_, rfl⟩
  exact ⟨⟨by decide +kernel, by decide +kernel, by decide +kernel⟩, by decide +kernel,
    by decide +kernel, merge_laws hw⟩

end

end RingList
