import RingList.Proofs.Invariant
import RingList.Proofs.Reshape

/-!
# Separation of lists

All lists are in one heap, and operations write through the links they find there. A list that an
operation does not work on is nevertheless left exactly as it is, however the operation ends.

* `World.SameList`: a list has the same blocks with the same cells in two worlds.
* `World.Separation`: what operations, runs, copies and joins leave as it is.
* `World.separation`: this holds after every run.
-/

set_option autoImplicit false

namespace RingList

variable {η σ α : Type} {B : Behaviour η σ α}

/-- **A strip determines the cells of its ring.** -/
theorem Heap.IsRing.get?_eq {h h' : Heap η α} {l a : Addr} {k : Strip η α} (hr : h.IsRing l k)
    (hr' : h'.IsRing l k) (ha : a ∈ l :: k.nodes) : h'.get? a = h.get? a := by
  rcases List.mem_cons.1 ha with rfl | ha
  · rw [get?_of_parts hr.next?_header hr.prev?_header hr.header,
      get?_of_parts hr'.next?_header hr'.prev?_header hr'.header]
  · obtain ⟨e, he, rfl⟩ := List.mem_map.1 ha
    obtain ⟨xs, ys, hk⟩ := List.append_of_mem he
    rw [get?_of_parts (hr.next?_at hk) (hr.prev?_at hk) (hr.values e he),
      get?_of_parts (hr'.next?_at hk) (hr'.prev?_at hk) (hr'.values e he)]

namespace World

/-- **The list `l` is in `w'` exactly what it is in `w`**: the program owns it, and it has the same
nodes in the same order. Their cells and that of the header have the same links and contents, which
are the values, and the length, the hooks and the allocator. -/
structure SameList (w w' : World η σ α) (l : Addr) : Prop where
  owned : l ∈ w'.owners
  nodes : w'.nodes l = w.nodes l
  cells : ∀ a ∈ l :: w.nodes l, w'.store.heap.get? a = w.store.heap.get? a
  entries : w'.store.heap.entries l = w.store.heap.entries l
  record : w'.store.heap.record? l = w.store.heap.record? l

/-- **Separation** of the lists of a world. -/
structure Separation (B : Behaviour η σ α) (w : World η σ α) : Prop where
  /-- An operation leaves every list that it does not work on as it is, however it ends. -/
  step : ∀ op, ∀ l ∈ w.owners, l ∉ op.targets → w.SameList (w.perform B op).2 l
  /-- So does a sequence of operations. -/
  run : ∀ ops, ∀ l ∈ w.owners, (∀ op ∈ ops, l ∉ op.targets) → w.SameList (w.run B ops).2 l
  /-- A copy is a new list that has no block in common with its source, which stays as it is.
  Operations on one of the two, and on others, leave the other one as it is from then on. -/
  copy : ∀ l fallback c, (w.perform B (.duplicate l fallback)).1 = .answered (.list c) →
    let w' := (w.perform B (.duplicate l fallback)).2
    w.SameList w' l ∧ l ≠ c ∧ c ∉ w.owners ∧ c ∈ w'.owners ∧
      (∀ a ∈ c :: w'.nodes c, a ∉ l :: w'.nodes l) ∧
      (∀ ops, (∀ op ∈ ops, l ∉ op.targets) → w'.SameList (w'.run B ops).2 l) ∧
      ∀ ops, (∀ op ∈ ops, c ∉ op.targets) → w'.SameList (w'.run B ops).2 c
  /-- A list that was emptied by a join is still there. Operations on it, and on others, leave the
  list that received its nodes as it is from then on. -/
  emptied : ∀ l m a, (w.perform B (.join l m)).1 = .answered a →
    let w' := (w.perform B (.join l m)).2
    l ≠ m ∧ w'.nodes l = w.nodes l ++ w.nodes m ∧ m ∈ w'.owners ∧ w'.nodes m = [] ∧
      ∀ ops, (∀ op ∈ ops, l ∉ op.targets) → w'.SameList (w'.run B ops).2 l

theorem SameList.refl {w : World η σ α} {l : Addr} (hl : l ∈ w.owners) : w.SameList w l :=
  ⟨hl, rfl, fun _ _ => rfl, rfl, rfl⟩

theorem SameList.trans {w w' w'' : World η σ α} {l : Addr} (h : w.SameList w' l)
    (h' : w'.SameList w'' l) : w.SameList w'' l where
  owned := h'.owned
  nodes := h'.nodes.trans h.nodes
  cells a ha := (h'.cells a (h.nodes ▸ ha)).trans (h.cells a ha)
  entries := h'.entries.trans h.entries
  record := h'.record.trans h.record

namespace Sound

variable {w w' : World η σ α} {v v' : View η σ α} {op : Op η α} {l m c a : Addr} {k k' : Strip η α}

theorem nodes_eq (hw : w.Sound v) (hl : (l, k) ∈ v.lists) : w.nodes l = k.nodes :=
  (hw.ring hl).nodes_eq

theorem mem_owners (hw : w.Sound v) (hl : (l, k) ∈ v.lists) : l ∈ w.owners :=
  hw.owners.mem_iff.1 (List.mem_map_of_mem hl)

/-- A list that has the same strip in two views is the same list. -/
theorem sameList (hw : w.Sound v) (hw' : w'.Sound v') (hl : (l, k) ∈ v.lists)
    (hl' : (l, k) ∈ v'.lists) : w.SameList w' l where
  owned := hw'.mem_owners hl'
  nodes := (hw'.nodes_eq hl').trans (hw.nodes_eq hl).symm
  cells _ ha := (hw.ring hl).get?_eq (hw'.ring hl') (hw.nodes_eq hl ▸ ha)
  entries := (hw'.ring hl').entries_eq.trans (hw.ring hl).entries_eq.symm
  record := (hw'.ring hl').record?_eq.trans (hw.ring hl).record?_eq.symm

/-- A block is in one list only. -/
theorem eq_of_mem_blocks (hw : w.Sound v) (hl : (l, k) ∈ v.lists) (hm : (m, k') ∈ v.lists)
    (ha : a ∈ Strip.blocks (l, k)) (ha' : a ∈ Strip.blocks (m, k')) : l = m := by
  by_contra hne
  obtain ⟨k₁, k₂, rest, hp⟩ := hw.strips (hw.mem_owners hl) (hw.mem_owners hm) hne
  have hl₁ : (l, k₁) ∈ v.lists := hp.mem_iff.2 List.mem_cons_self
  have hm₂ : (m, k₂) ∈ v.lists := hp.mem_iff.2 (List.mem_cons_of_mem _ List.mem_cons_self)
  obtain rfl := (hw.ring hl).unique (hw.ring hl₁)
  obtain rfl := (hw.ring hm).unique (hw.ring hm₂)
  exact hw.apart hp ha ha'

/-- A list that an operation does not work on has the same strip afterwards. -/
theorem stays (hw : w.Sound v) (hl : (l, k) ∈ v.lists) (hop : l ∉ op.targets) :
    ∃ v', (w.perform B op).2.Sound v' ∧ (l, k) ∈ v'.lists := by
  obtain ⟨v', hw', he⟩ := hw.perform (B := B) op
  have hnd := hw.shows.lists.nodup_headers
  refine ⟨v', hw', ?_⟩
  rcases he.shape hnd with ⟨-, rfl⟩ | hs
  · exact hl
  · rcases hs.reshapes hnd hl with ⟨k', hl', hr⟩ | ⟨hends, -⟩
    · rwa [hr.eq_of_not_mem hop] at hl'
    · exact absurd (Op.targets_of_ends hends ▸ List.mem_singleton_self l) hop

/-- **One operation** leaves the lists that it does not work on as they are. -/
theorem sameList_perform (hw : w.Sound v) (hl : l ∈ w.owners) (hop : l ∉ op.targets) :
    w.SameList (w.perform B op).2 l := by
  obtain ⟨k, hmem⟩ := hw.mem_lists hl
  obtain ⟨v', hw', hmem'⟩ := hw.stays (B := B) hmem hop
  exact hw.sameList hw' hmem hmem'

/-- **A run** leaves the lists that it does not work on as they are. -/
theorem sameList_run {ops : List (Op η α)} (hw : w.Sound v) (hl : l ∈ w.owners)
    (hops : ∀ op ∈ ops, l ∉ op.targets) : w.SameList (w.run B ops).2 l := by
  induction ops generalizing w v with
  | nil => exact .refl hl
  | cons op ops ih =>
    obtain ⟨v', hw', -⟩ := hw.perform (B := B) op
    have hstep := hw.sameList_perform (B := B) hl (hops op List.mem_cons_self)
    have hrest := ih hw' hstep.owned fun op hm => hops op (List.mem_cons_of_mem _ hm)
    exact hstep.trans hrest

/-- **A copy and its source** have no block in common. -/
theorem copy_apart {fallback : η} (hw : w.Sound v)
    (hc : (w.perform B (.duplicate l fallback)).1 = .answered (.list c)) :
    l ∈ w.owners ∧ c ∉ w.owners ∧ c ∈ (w.perform B (.duplicate l fallback)).2.owners ∧
      ∀ a ∈ c :: (w.perform B (.duplicate l fallback)).2.nodes c,
        a ∉ l :: (w.perform B (.duplicate l fallback)).2.nodes l := by
  obtain ⟨v', hw', he⟩ := hw.perform (B := B) (.duplicate l fallback)
  rw [hc] at he
  rcases he.of_duplicate with ⟨why, h, -⟩ | ⟨k, hl, ho, rfl⟩
  · cases h
  · rcases duplicating_lists B v k fallback with ⟨copies, hstop, hlists⟩ | ⟨e, hstop, -⟩
    · rw [hstop] at ho
      obtain rfl : c = v.fresh := by simpa [Outcome.ofStop] using ho
      have hp : (duplicating B v k fallback).view.lists.Perm
          ((v.fresh, ⟨k.hooks, k.allocator, copies⟩) :: v.lists) := .of_eq hlists
      have hcmem := hp.mem_iff.2 List.mem_cons_self
      have hlmem := hp.mem_iff.2 (List.mem_cons_of_mem _ hl)
      have hne : v.fresh ∉ w.owners := fun hm => by
        obtain ⟨p, hp, he⟩ := List.mem_map.1 (hw.owners.mem_iff.2 hm)
        refine hw.shows.lists.not_mem_of_size_le (a := v.fresh) (Nat.le_of_eq hw.shows.fresh) ?_
        exact List.mem_flatMap.2 ⟨p, hp, he ▸ List.mem_cons_self⟩
      refine ⟨hw.mem_owners hl, hne, hw'.mem_owners hcmem, ?_⟩
      rw [hw'.nodes_eq hcmem, hw'.nodes_eq hlmem]
      intro a ha ha'
      obtain rfl := hw'.eq_of_mem_blocks hcmem hlmem ha ha'
      exact hne (hw.mem_owners hl)
    · rw [hstop] at ho
      cases ho

/-- **A list that was emptied by a join.** -/
theorem join_empties {a : Answer η α} (hw : w.Sound v)
    (hj : (w.perform B (.join l m)).1 = .answered a) :
    l ≠ m ∧ l ∈ (w.perform B (.join l m)).2.owners ∧ m ∈ (w.perform B (.join l m)).2.owners ∧
      (w.perform B (.join l m)).2.nodes l = w.nodes l ++ w.nodes m ∧
      (w.perform B (.join l m)).2.nodes m = [] := by
  obtain ⟨v', hw', he⟩ := hw.perform (B := B) (.join l m)
  rw [hj] at he
  rcases he.of_join with ⟨why, h, -⟩ | ⟨k, k', rest, hp, -, rfl⟩
  · cases h
  · have hnd := (hp.map (·.1)).nodup_iff.1 hw.shows.lists.nodup_headers
    have hlm : l ≠ m := fun he => (List.nodup_cons.1 hnd).1 (by simp [he])
    have hl : (l, k) ∈ v.lists := hp.mem_iff.2 List.mem_cons_self
    have hm : (m, k') ∈ v.lists := hp.mem_iff.2 (List.mem_cons_of_mem _ List.mem_cons_self)
    have hl' := hw'.nodes_eq (l := l) List.mem_cons_self
    have hm' := hw'.nodes_eq (l := m) (List.mem_cons_of_mem _ List.mem_cons_self)
    refine ⟨hlm, hw'.mem_owners List.mem_cons_self,
      hw'.mem_owners (List.mem_cons_of_mem _ List.mem_cons_self), ?_, hm'⟩
    rw [hl', hw.nodes_eq hl, hw.nodes_eq hm]
    exact List.map_append

end Sound

/-- **After every run the lists are separated.** -/
theorem separation (B : Behaviour η σ α) (budgets : Array (Option Nat)) (hookState : σ)
    (ops : List (Op η α)) : ((World.start budgets hookState).run B ops).2.Separation B := by
  obtain ⟨v, hw, -⟩ := World.ledger_run B budgets hookState ops
  generalize ((World.start budgets hookState).run B ops).2 = w at hw ⊢
  refine ⟨fun op l hl hop => hw.sameList_perform hl hop,
    fun ops l hl hops => hw.sameList_run hl hops, fun l fallback c hc => ?_, fun l m a hj => ?_⟩
  · obtain ⟨hl, hout, hin, hap⟩ := hw.copy_apart hc
    obtain ⟨v', hw', -⟩ := hw.perform (B := B) (.duplicate l fallback)
    have hop : l ∉ (.duplicate l fallback : Op η α).targets := List.not_mem_nil
    have hsame := hw.sameList_perform (B := B) hl hop
    have hne : l ≠ c := fun he => hout (he ▸ hl)
    exact ⟨hsame, hne, hout, hin, hap, fun ops hops => hw'.sameList_run hsame.owned hops,
      fun ops hops => hw'.sameList_run hin hops⟩
  · obtain ⟨hlm, hl, hm, hnodes, hnil⟩ := hw.join_empties hj
    obtain ⟨v', hw', -⟩ := hw.perform (B := B) (.join l m)
    exact ⟨hlm, hnodes, hm, hnil, fun ops hops => hw'.sameList_run hl hops⟩

end World

end RingList
