import RingList.Proofs.Ledger

/-!
# The ring invariant

What holds of every list that a program owns, after every run and however its operations ended. It
is said by following links in the heap, with no strip in between.

* `Heap.WellLinked`: the links of a list of a given length.
* `World.RingInvariant`: all lists are well linked, no block is in two of them, and none is given
  back.
* `World.ringInvariant`: this holds after every run.
-/

set_option autoImplicit false

namespace RingList

variable {η σ α : Type} {B : Behaviour η σ α}

/-- The block that is reached by following `n` links. -/
def follow (link : Addr → Option Addr) : Nat → Addr → Option Addr
  | 0, a => some a
  | n + 1, a => (link a).bind (follow link n)

theorem follow_succ (link : Addr → Option Addr) (n : Nat) (a : Addr) :
    follow link (n + 1) a = (follow link n a).bind link := by
  induction n generalizing a with
  | zero => cases h : link a <;> simp [follow, h]
  | succ n ih =>
    show (link a).bind (follow link (n + 1)) = ((link a).bind (follow link n)).bind link
    rw [Option.bind_assoc]
    exact congrArg (link a).bind (funext ih)

/-- Along a chain the links lead from one member to the next. -/
theorem follow_chain {link : Addr → Option Addr} : ∀ {a : Addr} {xs : List Addr} {n : Nat},
    (a :: xs).IsChain (fun b c => link b = some c) → n ≤ xs.length →
    follow link n a = (a :: xs)[n]?
  | _, _, 0, _, _ => rfl
  | a, b :: xs, n + 1, hc, hn => by
    obtain ⟨hab, hc⟩ := List.isChain_cons_cons.1 hc
    rw [follow, hab, List.getElem?_cons_succ]
    exact follow_chain hc (by simpa using hn)

namespace Heap

/-- The links of the list with header `l` that has this many nodes. -/
structure WellLinked (h : Heap η α) (l : Addr) (length : Nat) : Prop where
  /-- Every block that is reached from the header is the previous one of its next and the next one
  of its previous block. -/
  neighbours : ∀ (n : Nat) (a : Addr), follow h.next? n l = some a →
    (∃ b, h.next? a = some b ∧ h.prev? b = some a) ∧ ∃ c, h.prev? a = some c ∧ h.next? c = some a
  /-- The walk forward comes back to the header after one link more than there are nodes. -/
  closes : follow h.next? (length + 1) l = some l
  /-- It meets no block twice on the way. -/
  distinct : ∀ n m, n ≤ length → m ≤ length → follow h.next? n l = follow h.next? m l → n = m
  /-- The walk backward meets the same blocks in the reverse order. -/
  backward : ∀ n ≤ length + 1, follow h.prev? n l = follow h.next? (length + 1 - n) l

namespace IsRing

variable {h : Heap η α} {l : Addr} {k : Strip η α}

/-- Every block of a ring has both neighbours in it. -/
theorem neighbours (hr : h.IsRing l k) {a : Addr} (ha : a ∈ l :: k.nodes) :
    (∃ b ∈ l :: k.nodes, h.Linked a b) ∧ ∃ c ∈ l :: k.nodes, h.Linked c a := by
  have hhead : ∀ {ys : List Addr}, (∀ b ∈ ys, b ∈ k.nodes) → ys.head?.getD l ∈ l :: k.nodes := by
    intro ys hys
    cases ys with
    | nil => simp
    | cons b ys => exact List.mem_cons_of_mem _ (hys b (by simp))
  have hlast : ∀ {xs : List Addr}, (∀ b ∈ xs, b ∈ k.nodes) →
      xs.getLast?.getD l ∈ l :: k.nodes := by
    intro xs hxs
    cases hl : xs.getLast? with
    | none => simp
    | some b => exact List.mem_cons_of_mem _ (hxs b (List.mem_of_getLast? hl))
  rcases List.mem_cons.1 ha with rfl | ha
  · refine ⟨⟨_, hhead fun b hb => hb, ?_⟩, ⟨_, hlast fun b hb => hb, ?_⟩⟩
    · simpa using hr.linked_split (List.nil_append _).symm
    · simpa using hr.linked_split (List.append_nil _).symm
  · obtain ⟨xs, ys, hxy⟩ := List.append_of_mem ha
    have hxs : ∀ b ∈ xs, b ∈ k.nodes := fun b hb => by simp [hxy, hb]
    have hys : ∀ b ∈ ys, b ∈ k.nodes := fun b hb => by simp [hxy, hb]
    refine ⟨⟨_, hhead hys, ?_⟩, ⟨_, hlast hxs, ?_⟩⟩
    · have hxy' : k.nodes = (xs ++ [a]) ++ ys := by simp [hxy]
      simpa using hr.linked_split hxy'
    · simpa using hr.linked_split hxy

theorem follow_next (hr : h.IsRing l k) {n : Nat} (hn : n ≤ k.entries.length + 1) :
    follow h.next? n l = (l :: (k.nodes ++ [l]))[n]? := by
  refine follow_chain (hr.links.imp fun _ _ hab => hab.1) ?_
  simpa using hn

/-- The links back lead along the ring from its end. -/
theorem follow_prev (hr : h.IsRing l k) {n : Nat} (hn : n ≤ k.entries.length + 1) :
    follow h.prev? n l = (l :: (k.nodes.reverse ++ [l]))[n]? := by
  refine follow_chain ?_ (by simpa using hn)
  have hrev := List.isChain_reverse.2 (hr.links.imp fun _ _ hab => hab.2)
  simpa using hrev

theorem reached (hr : h.IsRing l k) : ∀ {n : Nat} {a : Addr}, follow h.next? n l = some a →
    a ∈ l :: k.nodes
  | 0, a, ha => by
    obtain rfl : l = a := Option.some.inj ha
    exact List.mem_cons_self
  | n + 1, a, ha => by
    rw [follow_succ] at ha
    obtain ⟨b, hb, hba⟩ := Option.bind_eq_some_iff.1 ha
    obtain ⟨⟨c, hc, hbc⟩, -⟩ := hr.neighbours (hr.reached hb)
    obtain rfl : c = a := Option.some.inj (hbc.1.symm.trans hba)
    exact hc

/-- **A ring is well linked.** -/
theorem wellLinked (hr : h.IsRing l k) : h.WellLinked l k.entries.length := by
  have hlen : k.nodes.length = k.entries.length := k.nodes_length
  refine ⟨fun n a ha => ?_, ?_, fun n m hn hm heq => ?_, fun n hn => ?_⟩
  · obtain ⟨⟨b, -, hab⟩, ⟨c, -, hca⟩⟩ := hr.neighbours (hr.reached ha)
    exact ⟨⟨b, hab⟩, ⟨c, hca.2, hca.1⟩⟩
  · rw [hr.follow_next (Nat.le_refl _), List.getElem?_cons_succ, ← hlen]
    exact List.getElem?_concat_length
  · rw [hr.follow_next (by omega), hr.follow_next (by omega), ← List.cons_append,
      List.getElem?_append_left (by simp; omega), List.getElem?_append_left (by simp; omega)] at heq
    exact (List.getElem?_inj (by simp; omega) hr.nodup_blocks).1 heq
  · rw [hr.follow_prev hn, hr.follow_next (by omega)]
    have hrev : l :: (k.nodes.reverse ++ [l]) = (l :: (k.nodes ++ [l])).reverse := by simp
    have hround : (l :: (k.nodes ++ [l])).length = k.entries.length + 2 := by simp
    rw [hrev, List.getElem?_reverse (by omega), hround]
    congr 1

end IsRing

end Heap

/-! ## The lists of a program -/

/-- The block is reached from the header `l` by following links. -/
def World.Reaches (w : World η σ α) (l a : Addr) : Prop :=
  ∃ n, follow w.store.heap.next? n l = some a

/-- What holds of the list with header `l` in a world, whose length is `n`. -/
structure World.ListInvariant (w : World η σ α) (l : Addr) (n : Nat) : Prop where
  length : w.read (RingList.length l) = .ok n
  links : w.store.heap.WellLinked l n
  /-- There is a first node unless the list is empty. -/
  head : ∃ a, w.read (RingList.head l) = .ok a ∧ (a = none ↔ n = 0)
  /-- There is a last node unless the list is empty. -/
  tail : ∃ a, w.read (RingList.tail l) = .ok a ∧ (a = none ↔ n = 0)
  isEmpty : ∃ b, w.read (RingList.isEmpty l) = .ok b ∧ (b = true ↔ n = 0)

/-- **The ring invariant** of all lists that the program owns. -/
structure World.RingInvariant (w : World η σ α) : Prop where
  owners : w.owners.Nodup
  lists : ∀ l ∈ w.owners, ∃ n, w.ListInvariant l n
  /-- No block is in two lists. -/
  apart : ∀ l ∈ w.owners, ∀ m ∈ w.owners, l ≠ m → ∀ a, w.Reaches l a → ¬ w.Reaches m a
  /-- No block of a list has been given back. -/
  live : ∀ l ∈ w.owners, ∀ a, w.Reaches l a →
    (w.store.heap.get? a).isSome ∧ ∀ target kind, .released target a kind ∉ w.store.events.toList

namespace World.Sound

variable {w : World η σ α} {v : View η σ α} {l a : Addr} {k : Strip η α}

/-- What is reached from a list are its blocks. -/
theorem mem_of_reaches (hw : w.Sound v) (hl : (l, k) ∈ v.lists) (ha : w.Reaches l a) :
    a ∈ Strip.blocks (l, k) := by
  obtain ⟨n, hn⟩ := ha
  exact (hw.ring hl).reached hn

theorem listInvariant (hw : w.Sound v) (hl : (l, k) ∈ v.lists) :
    w.ListInvariant l k.entries.length where
  length := hw.read_eq (length_yields hl)
  links := (hw.ring hl).wellLinked
  head := ⟨_, hw.read_eq (head_yields hl), by simp [Strip.nodes]⟩
  tail := ⟨_, hw.read_eq (tail_yields hl), by simp [Strip.nodes]⟩
  isEmpty := ⟨_, hw.read_eq (isEmpty_yields hl), by simp⟩

theorem apart {m : Addr} {k' : Strip η α} {rest : List (Addr × Strip η α)} (hw : w.Sound v)
    (hp : v.lists.Perm ((l, k) :: (m, k') :: rest)) (ha : a ∈ Strip.blocks (l, k)) :
    a ∉ Strip.blocks (m, k') := by
  have hnd := (hw.shows.lists.perm hp).apart
  rw [List.flatMap_cons, List.flatMap_cons] at hnd
  exact fun hm => (List.nodup_append.1 hnd).2.2 a ha a (List.mem_append_left _ hm) rfl

theorem nodup_owners (hw : w.Sound v) : w.owners.Nodup :=
  hw.owners.nodup_iff.1 hw.shows.lists.nodup_headers

end World.Sound

theorem mem_held_of_mem_blocks {v : View η σ α} {p : Addr × Strip η α} (hp : p ∈ v.lists) {a : Addr}
    (ha : a ∈ Strip.blocks p) : a ∈ v.held.map (·.1) := by
  have hblocks : (Strip.held p).map (·.1) = Strip.blocks p := by
    simp [Strip.held, Strip.blocks, nodeBlocks, Strip.nodes]
  obtain ⟨b, hb, rfl⟩ := List.mem_map.1 (hblocks.symm ▸ ha)
  exact List.mem_map_of_mem (List.mem_flatMap.2 ⟨p, hp, hb⟩)

/-- **After every run the ring invariant holds.** -/
theorem World.ringInvariant (B : Behaviour η σ α) (budgets : Array (Option Nat)) (hookState : σ)
    (ops : List (Op η α)) : ((World.start budgets hookState).run B ops).2.RingInvariant := by
  obtain ⟨v, hw, lost, h, -⟩ := World.ledger_run B budgets hookState ops
  refine ⟨hw.nodup_owners, fun l hl => ?_, fun l hl m hm hlm a ha ha' => ?_, fun l hl a ha => ?_⟩
  · obtain ⟨k, rest, hp⟩ := hw.strip hl
    exact ⟨_, hw.listInvariant (hp.mem_iff.2 List.mem_cons_self)⟩
  · obtain ⟨k, k', rest, hp⟩ := hw.strips hl hm hlm
    refine hw.apart hp (hw.mem_of_reaches (hp.mem_iff.2 ?_) ha)
      (hw.mem_of_reaches (hp.mem_iff.2 ?_) ha')
    · exact List.mem_cons_self
    · exact List.mem_cons_of_mem _ List.mem_cons_self
  · obtain ⟨k, rest, hp⟩ := hw.strip hl
    have hmem : (l, k) ∈ v.lists := hp.mem_iff.2 List.mem_cons_self
    have ha := hw.mem_of_reaches hmem ha
    refine ⟨(hw.ring hmem).isSome_of_mem ha, fun target kind => ?_⟩
    rw [hw.shows.log]
    refine h.not_released ?_ target kind
    rw [List.map_append]
    exact List.mem_append_left _ (mem_held_of_mem_blocks hmem ha)

end RingList
