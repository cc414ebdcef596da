import RingList.Proofs.Access
import RingList.Splice

/-!
# Linking and unlinking on rings

The steps that write links, carried out on a ring: taking in a chain of nodes between two
neighbours (`attachChain_ring`), taking in one node (`attach_shows`), taking a node out
(`unlink_ring`, `detach_yields`) and letting all nodes go (`detachAll_ring`). Everywhere the checks
that the steps make on the way hold, so none of them is a fault. From these follow `rotate`,
`join`, `popFront` and `popBack`, which call no hook.
-/

set_option autoImplicit false

namespace RingList

variable {η σ α β : Type} {s : Store η σ α} {v : View η σ α} {l : Addr} {k : Strip η α}
  {rest : List (Addr × Strip η α)}

/-! ## Room for lengths -/

theorem View.lt_capacity_of_serves {source : Allocator} (hs : v.serves source = true) :
    v.fresh < Heap.capacity := by
  cases source <;> simp_all [View.serves]

theorem capacity_lt_wordSize : Heap.capacity < wordSize := by decide

/-- A list is shorter than the number of blocks handed out. -/
theorem Store.Shows.length_lt (hs : s.Shows v) (hl : (l, k) ∈ v.lists) :
    k.entries.length < v.fresh := by
  rw [← hs.fresh]
  exact (hs.lists.ring (l, k) hl).length_lt_size

theorem lengthen_run {n : Nat} {r : Record η} (hl : s.heap.content? l = some (.header r))
    (hlen : r.length + n < wordSize) :
    lengthen l n s = .ok ()
      { s with heap := s.heap.fill l (.header { r with length := r.length + n }) } := by
  unfold lengthen
  rw [bind_ok (record_run hl)]
  simp only [hlen, ↓reduceIte]
  exact setRecord_run _ hl

theorem shorten_run {r : Record η} (hl : s.heap.content? l = some (.header r))
    (hlen : 0 < r.length) :
    shorten l s = .ok ()
      { s with heap := s.heap.fill l (.header { r with length := r.length - 1 }) } := by
  unfold shorten
  rw [bind_ok (record_run hl)]
  simp only [hlen, ↓reduceIte]
  exact setRecord_run _ hl

/-! ## Taking in -/

theorem attachChain_run {p q : Addr} {c : Chain} {r : Record η} (hpq : s.heap.Linked p q)
    (hf : (s.heap.get? c.front).isSome) (hb : (s.heap.get? c.back).isSome)
    (hl : s.heap.content? l = some (.header r)) (hlen : r.length + c.length < wordSize)
    (hpb : p ≠ c.back) (hfq : c.front ≠ q) :
    attachChain l p q c s = .ok () { s with
      heap := ((s.heap.link p c.front).link c.back q).fill l
        (.header { r with length := r.length + c.length }) } := by
  have hp := Heap.isSome_of_next? hpq.1
  have hq := Heap.isSome_of_prev? hpq.2
  have hpf : ((s.heap.link p c.front).link c.back q).Linked p c.front :=
    (Heap.linked_link hp hf).link_other hpb hfq
  have hbq : ((s.heap.link p c.front).link c.back q).Linked c.back q :=
    Heap.linked_link (by simpa using hb) (by simpa using hq)
  unfold attachChain
  rw [bind_ok (expectAdjacent_run hpq.1 hpq.2), bind_ok (connect_run hp hf),
    bind_ok (connect_run (by simpa using hb) (by simpa using hq)),
    bind_ok (lengthen_run (by simpa using hl) hlen)]
  rw [bind_ok (expectAdjacent_run (by simpa using hpf.1) (by simpa using hpf.2))]
  exact expectAdjacent_run (by simpa using hbq.1) (by simpa using hbq.2)

/-- **A chain of nodes is taken into a ring** between `xs` and `ys`. -/
theorem attachChain_ring (xs es ys : List (Addr × α)) {f b : Addr} (hr : s.heap.IsRing l k)
    (hk : k.entries = xs ++ ys) (hM : (es.map (·.1)).IsChain s.heap.Linked)
    (hf : (es.map (·.1)).head? = some f) (hb : (es.map (·.1)).getLast? = some b)
    (hv : ∀ e ∈ es, s.heap.content? e.1 = some (.node (some e.2))) (hnd : (es.map (·.1)).Nodup)
    (hout : ∀ a ∈ l :: k.nodes, a ∉ es.map (·.1))
    (hlen : k.entries.length + es.length < wordSize) :
    ∃ h', attachChain l (endOf l xs) (startOf l ys) ⟨f, b, es.length⟩ s =
        .ok () { s with heap := h' } ∧
      h'.IsRing l { k with entries := xs ++ (es ++ ys) } ∧ h'.size = s.heap.size ∧
      ∀ a, a ∉ l :: k.nodes → a ∉ es.map (·.1) → h'.get? a = s.heap.get? a := by
  have hfm := List.mem_of_head? hf
  have hbm := List.mem_of_getLast? hb
  have hlive : ∀ a ∈ es.map (·.1), (s.heap.get? a).isSome := by
    intro a ha
    obtain ⟨e, he, rfl⟩ := List.mem_map.1 ha
    exact Heap.isSome_of_content? (hv e he)
  have hpm : endOf l xs ∈ l :: k.nodes := Heap.IsRing.endOf_mem hk
  have hqm : startOf l ys ∈ l :: k.nodes := Heap.IsRing.startOf_mem hk
  have hpb : endOf l xs ≠ b := fun he => hout _ hpm (he ▸ hbm)
  have hfq : f ≠ startOf l ys := fun he => hout _ hqm (he ▸ hfm)
  refine ⟨_, attachChain_run (hr.linked_at hk) (hlive f hfm) (hlive b hbm) hr.header hlen hpb hfq,
    ?_, by simp, fun a ha hm => ?_⟩
  · have hlen' : k.entries.length + es.length = (xs ++ (es ++ ys)).length := by
      simp only [hk, List.length_append]
      omega
    simpa [Strip.record, hlen'] using hr.insert hk hM hf hb hv hnd hout
  · have hne : ∀ {c : Addr}, c ∈ l :: k.nodes → a ≠ c := fun hc he => ha (he ▸ hc)
    rw [Heap.get?_fill_other _ _ (hne (by simp)),
      Heap.get?_link_other _ (fun he => hm (by rw [he]; exact hbm)) (hne hqm),
      Heap.get?_link_other _ (hne hpm) (fun he => hm (by rw [he]; exact hfm))]

/-- **One node is taken into a list** between `xs` and `ys`. -/
theorem attach_shows (xs ys : List (Addr × α)) {n : Addr} {x : α} (hs : s.Shows v)
    (hv : v.lists = (l, k) :: rest) (hk : k.entries = xs ++ ys)
    (hn : s.heap.content? n = some (.node (some x)))
    (hout : n ∉ v.lists.flatMap Strip.blocks) (hroom : v.fresh ≤ Heap.capacity) :
    ∃ s', attach l (endOf l xs) (startOf l ys) n s = .ok () s' ∧
      s'.Shows (v.having ((l, { k with entries := xs ++ (n, x) :: ys }) :: rest)) := by
  have hlists := hs.lists
  rw [hv] at hlists hout
  have hr := hlists.head
  have hout' : ∀ a ∈ l :: k.nodes, a ≠ n := by
    rintro a ha rfl
    exact hout (List.mem_flatMap.2 ⟨(l, k), by simp, ha⟩)
  have hlen : k.entries.length + 1 < wordSize := by
    have := hs.length_lt (l := l) (k := k) (by simp [hv])
    have := capacity_lt_wordSize
    omega
  obtain ⟨h', hrun, hr', hsize, hf⟩ := attachChain_ring xs [(n, x)] ys hr hk (by simp) rfl rfl
    (by simpa using hn) (by simp) (by simpa using hout') hlen
  have hrest : n ∉ rest.flatMap Strip.blocks := fun hm => hout (by simp [hm])
  refine ⟨_, hrun, hs.withHeap (hlists.replaceOne hr' (fun a ha => ?_) fun a ha hm => ?_) hsize⟩
  · by_cases han : a = n
    · exact .inr (han ▸ hrest)
    · exact .inl (by simpa [Strip.nodes, hk, han] using ha)
  · exact hf a hm (by simpa using fun han : a = n => hrest (han ▸ ha))

/-! ## Taking out -/

/-- **A node is taken out of a ring.** Its block keeps its value. -/
theorem unlink_ring (xs ys : List (Addr × α)) {a : Addr} {x : α} (hr : s.heap.IsRing l k)
    (hk : k.entries = xs ++ (a, x) :: ys) :
    ∃ h', unlink l a s = .ok () { s with heap := h' } ∧
      h'.IsRing l { k with entries := xs ++ ys } ∧ h'.size = s.heap.size ∧
      h'.content? a = some (.node (some x)) ∧
      ∀ b, b ∉ l :: k.nodes → h'.get? b = s.heap.get? b := by
  have hk' : k.entries = (xs ++ [(a, x)]) ++ ys := by simp [hk]
  have hnodes : k.nodes = xs.map (·.1) ++ a :: ys.map (·.1) := by simp [Strip.nodes, hk]
  have ham : a ∈ k.nodes := by simp [hnodes]
  have hal : a ≠ l := fun he => hr.header_not_mem (he ▸ ham)
  have hcont : s.heap.content? a = some (.node (some x)) := hr.values (a, x) (by simp [hk])
  have hlen : k.entries.length = (xs ++ ys).length + 1 := by
    simp only [hk, List.length_append, List.length_cons]
    omega
  have hrem := hr.remove hk
  obtain ⟨h₁, hh₁⟩ : ∃ h₁, h₁ = s.heap.fill l (.header { k with entries := xs ++ ys }.record) :=
    ⟨_, rfl⟩
  rw [← hh₁] at hrem
  have hshort : shorten l s = .ok () { s with heap := h₁ } := by
    rw [shorten_run hr.header (by simp [hlen]), hh₁]
    simp only [Strip.record, hlen, Nat.add_sub_cancel]
  have hn : h₁.next? a = some (startOf l ys) := by
    rw [hh₁, Heap.next?_fill]
    exact hr.next?_node hnodes
  have hp : h₁.prev? a = some (endOf l xs) := by
    rw [hh₁, Heap.prev?_fill]
    exact hr.prev?_node hnodes
  have hc : h₁.content? a = some (.node (some x)) := by
    simp [hh₁, Heap.content?_fill, hal, hcont]
  have hlive : ∀ b ∈ l :: k.nodes, (h₁.get? b).isSome := fun b hb => by
    simpa [hh₁] using hr.isSome_of_mem hb
  have hpm : endOf l xs ∈ l :: k.nodes := Heap.IsRing.endOf_mem hk
  have hqm : startOf l ys ∈ l :: k.nodes := Heap.IsRing.startOf_mem hk'
  refine ⟨h₁.link (endOf l xs) (startOf l ys), ?_, hrem, by simp [hh₁], by simp [hc],
    fun b hb => ?_⟩
  · unfold unlink
    rw [bind_ok hshort, bind_ok (expectNode_run hc),
      bind_ok (cell_run (Heap.get?_of_parts hn hp hc))]
    exact connect_run (hlive _ hpm) (hlive _ hqm)
  · have hne : ∀ {c : Addr}, c ∈ l :: k.nodes → b ≠ c := fun hc he => hb (he ▸ hc)
    rw [Heap.get?_link_other _ (hne hpm) (hne hqm), hh₁,
      Heap.get?_fill_other _ _ (hne (by simp))]

/-- **A node leaves a list**, its block is given back through the list's allocator and its value is
handed out. -/
theorem detach_yields (xs ys : List (Addr × α)) {a : Addr} {x : α} (hv : v.lists = (l, k) :: rest)
    (hk : k.entries = xs ++ (a, x) :: ys) :
    Yields (detach l a) v x ((v.having ((l, { k with entries := xs ++ ys }) :: rest)).note
      [.released k.allocator a .node]) := by
  intro s hs
  have hlists := hs.lists
  rw [hv] at hlists
  have hr := hlists.head
  have ham : a ∈ k.nodes := by simp [Strip.nodes, hk]
  obtain ⟨h', hrun, hr', hsize, hc, hf⟩ := unlink_ring xs ys hr hk
  refine ⟨({ s with heap := h'.erase a }).log (.released k.allocator a .node), ?_, ?_⟩
  · unfold detach
    rw [bind_ok hrun, bind_ok (value_run hc), bind_ok (record_run hr'.header),
      bind_ok (releaseNode_run _ hc)]
    rfl
  · have hout : a ∉ Strip.nodes { k with entries := xs ++ ys } := by
      have hnd := hr.nodup
      have hnodes : k.nodes = xs.map (·.1) ++ a :: ys.map (·.1) := by simp [Strip.nodes, hk]
      rw [hnodes, List.perm_middle.nodup_iff] at hnd
      simpa [Strip.nodes] using (List.nodup_cons.1 hnd).1
    have hal : a ≠ l := fun he => hr.header_not_mem (he ▸ ham)
    have herase : ∀ {b}, b ≠ a → (h'.erase a).get? b = h'.get? b := fun hb => by
      rw [Heap.get?_erase, if_neg hb]
    have hr'' : (h'.erase a).IsRing l { k with entries := xs ++ ys } :=
      hr'.congr fun b hb => herase fun he => by
        subst he
        exact (List.mem_cons.1 hb).elim hal hout
    have hshows : (h'.erase a).Shows ((l, { k with entries := xs ++ ys }) :: rest) :=
      hlists.replaceOne hr'' (fun b hb => .inl (by
        simp only [Strip.nodes, hk, List.map_append, List.map_cons, List.mem_append] at hb ⊢
        exact hb.imp_right (List.mem_cons_of_mem _)))
        fun b _ hb => (herase fun he => hb (by simp [he, ham])).trans (hf b hb)
    exact (hs.withHeap hshows (by simp [hsize])).log_event _

/-- **All nodes are let go**: the header is left alone, and the nodes keep their links and values.
-/
theorem detachAll_ring (hr : s.heap.IsRing l k) (hk : k.entries ≠ []) :
    ∃ h', detachAll l s =
        .ok (some ⟨startOf l k.entries, endOf l k.entries, k.entries.length⟩)
          { s with heap := h' } ∧
      h'.IsRing l { k with entries := [] } ∧ h'.size = s.heap.size ∧
      ∀ b, b ≠ l → h'.get? b = s.heap.get? b := by
  have hne : startOf l k.entries ≠ l := by
    intro he
    refine hr.header_not_mem ?_
    obtain ⟨e, es, hes⟩ := List.exists_cons_of_ne_nil hk
    rw [hes] at he
    have he : e.1 = l := by simpa [startOf] using he
    simp [Strip.nodes, hes, he]
  have hl : (s.heap.get? l).isSome := hr.isSome_of_mem (by simp)
  refine ⟨(s.heap.fill l (.header ⟨0, k.hooks, k.allocator⟩)).link l l, ?_, hr.emptied, by simp,
    fun b hb => ?_⟩
  · unfold detachAll
    rw [bind_ok (nextOf_run hr.next?_header)]
    simp only [show k.nodes.head?.getD l ≠ l from hne, ↓reduceIte]
    rw [bind_ok (prevOf_run hr.prev?_header),
      bind_ok (record_run hr.header), bind_ok (setRecord_run _ hr.header),
      bind_ok (connect_run (by simpa using hl) (by simpa using hl))]
    rfl
  · rw [Heap.get?_link_other _ hb hb, Heap.get?_fill_other _ _ hb]

theorem detachAll_run_nil (hr : s.heap.IsRing l k) (hk : k.entries = []) :
    detachAll l s = .ok none s := by
  have hn : s.heap.next? l = some l := by simpa [Strip.nodes, hk] using hr.next?_header
  unfold detachAll
  rw [bind_ok (nextOf_run hn)]
  simp

/-! ## Operations that move nodes -/

/-- The last entry first. -/
def rotated (xs : List β) : List β := xs.getLast?.toList ++ xs.dropLast

@[simp] theorem rotated_concat (xs : List β) (x : β) : rotated (xs ++ [x]) = x :: xs := by
  simp [rotated]

theorem rotated_of_length_le_one {xs : List β} (hx : xs.length ≤ 1) : rotated xs = xs := by
  match xs, hx with
  | [], _ => rfl
  | [x], _ => rfl

theorem rotated_perm (xs : List β) : (rotated xs).Perm xs := by
  rcases List.eq_nil_or_concat xs with rfl | ⟨xs, x, rfl⟩
  · exact .refl _
  · simpa using (List.perm_append_singleton x xs).symm

/-- **The last node becomes the first.** -/
theorem rotate_yields (hv : v.lists = (l, k) :: rest) (hroom : v.fresh ≤ Heap.capacity) :
    Yields (rotate l) v () (v.having ((l, { k with entries := rotated k.entries }) :: rest)) := by
  intro s hs
  have hlists := hs.lists
  rw [hv] at hlists
  have hr := hlists.head
  unfold rotate
  rw [bind_ok (record_run hr.header)]
  by_cases hlen : k.entries.length ≤ 1
  · refine ⟨s, by simp [hlen], ?_⟩
    rw [rotated_of_length_le_one hlen, ← hv]
    exact hs
  · obtain ⟨es, ⟨a, x⟩, hk⟩ : ∃ es e, k.entries = es ++ [e] := by
      rcases List.eq_nil_or_concat k.entries with hk | ⟨es, e, hk⟩
      · simp [hk] at hlen
      · exact ⟨es, e, by simpa using hk⟩
    obtain ⟨h', hrun, hr', hsize, hc, hf⟩ := unlink_ring es [] hr hk
    rw [List.append_nil] at hr'
    have ham : a ∈ k.nodes := by simp [Strip.nodes, hk]
    have hprev : s.heap.prev? l = some a := by
      simpa [Strip.nodes, hk] using hr.prev?_header
    have hnext : h'.next? l = some (startOf l es) := hr'.next?_header
    have hnd := hlists.apart
    have hshows : Store.Shows { s with heap := h' }
        (v.having ((l, { k with entries := es }) :: rest)) :=
      hs.withHeap (hlists.replaceOne hr' (fun b hb => .inl (by
        simp only [Strip.nodes, hk, List.map_append] at hb ⊢
        exact List.mem_append_left _ hb)) fun b _ hb => hf b hb) hsize
    have hout : a ∉ ((l, { k with entries := es }) :: rest).flatMap Strip.blocks := by
      have hp : ((l, k) :: rest).flatMap Strip.blocks =
          (l :: es.map (·.1)) ++ a :: rest.flatMap Strip.blocks := by
        simp [Strip.blocks, Strip.nodes, hk]
      rw [hp, List.perm_middle.nodup_iff] at hnd
      simpa [Strip.blocks, Strip.nodes] using (List.nodup_cons.1 hnd).1
    obtain ⟨s', hattach, hs'⟩ := attach_shows [] es hshows rfl (by simp) hc
      hout hroom
    refine ⟨s', ?_, ?_⟩
    · simp only [Strip.record_length, hlen, ↓reduceIte]
      rw [bind_ok (prevOf_run hprev), bind_ok hrun, bind_ok (nextOf_run hnext)]
      exact hattach
    · simpa [hk] using hs'

/-- The chain detached from a list that holds nodes is attached behind the last node of another
list that shares no block with it. -/
theorem join_ring {k' : Strip η α} {m : Addr} (hr : s.heap.IsRing l k)
    (hr' : s.heap.IsRing m k') (hk' : k'.entries ≠ [])
    (hlm : ∀ a ∈ l :: k.nodes, ∀ b ∈ m :: k'.nodes, a ≠ b)
    (hlen : k.entries.length + k'.entries.length < wordSize) :
    ∃ h', join l m s = .ok () { s with heap := h' } ∧
      h'.IsRing l { k with entries := k.entries ++ k'.entries } ∧
      h'.IsRing m { k' with entries := [] } ∧ h'.size = s.heap.size ∧
      ∀ b ∉ l :: k.nodes ++ m :: k'.nodes, h'.get? b = s.heap.get? b := by
  obtain ⟨h₁, hrun, hm₁, hsize₁, hf₁⟩ := detachAll_ring hr' hk'
  -- the detached nodes and the first list are as they were: only the header `m` was written
  have hsame : ∀ b ∈ k'.nodes, h₁.get? b = s.heap.get? b := fun b hb =>
    hf₁ b fun he => hr'.header_not_mem (he ▸ hb)
  have hl₁ : h₁.IsRing l k := hr.congr fun a ha => hf₁ a (hlm a ha m (by simp))
  have hchain : (k'.entries.map (·.1)).IsChain h₁.Linked :=
    hr'.isChain_nodes.imp_of_mem_imp fun a b ha hb hab => hab.congr (hsame a ha) (hsame b hb)
  have hvals : ∀ e ∈ k'.entries, h₁.content? e.1 = some (.node (some e.2)) := fun e he => by
    unfold Heap.content?
    rw [hsame e.1 (List.mem_map_of_mem he)]
    exact hr'.values e he
  have hhead : (k'.entries.map (·.1)).head? = some (startOf m k'.entries) := by
    cases hes : k'.entries with
    | nil => exact absurd hes hk'
    | cons e es => simp [startOf]
  have hlast : (k'.entries.map (·.1)).getLast? = some (endOf m k'.entries) := by
    cases hes : k'.entries with
    | nil => exact absurd hes hk'
    | cons e es => simp [endOf, List.getLast?_cons]
  obtain ⟨h₂, hrun₂, hl₂, hsize₂, hf₂⟩ := attachChain_ring (s := { s with heap := h₁ })
    k.entries k'.entries [] hl₁ (by simp) hchain hhead hlast hvals hr'.nodup
    (fun a ha hm => hlm a ha a (List.mem_cons_of_mem _ hm) rfl) hlen
  have hm₂ : h₂.IsRing m { k' with entries := [] } := by
    apply hm₁.congr
    intro a ha
    obtain rfl : a = m := by simpa [Strip.nodes] using ha
    exact hf₂ a (fun ha => hlm a ha a (by simp) rfl) hr'.header_not_mem
  refine ⟨h₂, ?_, by simpa using hl₂, hm₂, hsize₂.trans hsize₁, fun b hb => ?_⟩
  · unfold join
    rw [bind_ok hrun]
    exact (bind_ok (prevOf_run hl₁.prev?_header)).trans hrun₂
  · simp only [List.mem_append, not_or] at hb
    have hm : b ∉ k'.nodes := fun hm => hb.2 (List.mem_cons_of_mem _ hm)
    exact (hf₂ b hb.1 hm).trans (hf₁ b fun he => hb.2 (by simp [he]))

/-- **All nodes of the second list go to the end of the first.** -/
theorem join_yields {m : Addr} {k' : Strip η α} (hv : v.lists = (l, k) :: (m, k') :: rest)
    (hroom : v.fresh ≤ Heap.capacity) :
    Yields (join l m) v () (v.having ((l, { k with entries := k.entries ++ k'.entries }) ::
      (m, { k' with entries := [] }) :: rest)) := by
  intro s hs
  have hlists := hs.lists
  rw [hv] at hlists
  have hr' : s.heap.IsRing m k' := hlists.ring (m, k') (by simp)
  by_cases hk' : k'.entries = []
  · refine ⟨s, ?_, ?_⟩
    · unfold join
      rw [bind_ok (detachAll_run_nil hr' hk')]
      rfl
    · obtain ⟨hooks', source', es'⟩ := k'
      obtain rfl : es' = [] := hk'
      simpa [← hv] using hs
  · have hap := hlists.apart
    simp only [List.flatMap_cons, Strip.blocks, List.nodup_append] at hap
    have hlm : ∀ a ∈ l :: k.nodes, ∀ b ∈ m :: k'.nodes, a ≠ b := fun a ha b hb =>
      hap.2.2 a ha b (List.mem_append_left _ hb)
    have hlen : k.entries.length + k'.entries.length < wordSize := by
      have := hs.length_lt (l := l) (k := k) (by simp [hv])
      have := hs.length_lt (l := m) (k := k') (by simp [hv])
      have : Heap.capacity + Heap.capacity < wordSize := by decide
      omega
    obtain ⟨h', hrun, hl', hm', hsize, hf⟩ := join_ring hlists.head hr' hk' hlm hlen
    have hp : ([(l, { k with entries := k.entries ++ k'.entries }),
        (m, { k' with entries := [] })].flatMap Strip.blocks).Perm
        ([(l, k), (m, k')].flatMap Strip.blocks) := by
      simpa [Strip.blocks, Strip.nodes] using
        (List.perm_append_singleton m k'.nodes).append_left k.nodes
    have hold : ([(l, k), (m, k')].flatMap Strip.blocks).Nodup :=
      hlists.apart.sublist (by simp)
    refine ⟨{ s with heap := h' }, hrun, hs.withHeap ?_ hsize⟩
    refine Heap.Shows.replace [(l, k), (m, k')] [(l, _), (m, _)] hlists ?_ ?_ ?_ ?_
    · simpa using ⟨hl', hm'⟩
    · exact hp.nodup_iff.2 hold
    · exact fun a ha => .inl (hp.mem_iff.1 ha)
    · intro a _ ha
      exact hf a (by simpa [Strip.blocks] using ha)

/-! ## Taking values from the ends -/

theorem popFront_yields_nil (hm : (l, k) ∈ v.lists) (hk : k.entries = []) :
    Yields (popFront l) v none v := by
  intro s hs
  unfold popFront
  rw [bind_ok (isEmpty_run (hs.lists.ring (l, k) hm))]
  exact ⟨s, by simp [hk], hs⟩

theorem popBack_yields_nil (hm : (l, k) ∈ v.lists) (hk : k.entries = []) :
    Yields (popBack l) v none v := by
  intro s hs
  unfold popBack
  rw [bind_ok (isEmpty_run (hs.lists.ring (l, k) hm))]
  exact ⟨s, by simp [hk], hs⟩

/-- **The first value is handed out**, and its block is given back. -/
theorem popFront_yields_cons {a : Addr} {x : α} {es : List (Addr × α)}
    (hv : v.lists = (l, k) :: rest) (hk : k.entries = (a, x) :: es) :
    Yields (popFront l) v (some x) ((v.having ((l, { k with entries := es }) :: rest)).note
      [.released k.allocator a .node]) := by
  intro s hs
  have hlists := hs.lists
  rw [hv] at hlists
  have hr := hlists.head
  have hn : s.heap.next? l = some a := by simpa [Strip.nodes, hk] using hr.next?_header
  have hsome : k.entries.isEmpty = false := by simp [hk]
  unfold popFront
  rw [bind_ok (isEmpty_run hr), if_neg (by simp [hsome]), bind_ok (nextOf_run hn)]
  exact (detach_yields [] es hv hk).map some s hs

/-- **The last value is handed out**, and its block is given back. -/
theorem popBack_yields_concat {a : Addr} {x : α} {es : List (Addr × α)}
    (hv : v.lists = (l, k) :: rest) (hk : k.entries = es ++ [(a, x)]) :
    Yields (popBack l) v (some x) ((v.having ((l, { k with entries := es }) :: rest)).note
      [.released k.allocator a .node]) := by
  intro s hs
  have hlists := hs.lists
  rw [hv] at hlists
  have hr := hlists.head
  have hp : s.heap.prev? l = some a := by simpa [Strip.nodes, hk] using hr.prev?_header
  have hsome : k.entries.isEmpty = false := by simp [hk]
  unfold popBack
  rw [bind_ok (isEmpty_run hr), if_neg (by simp [hsome]), bind_ok (prevOf_run hp)]
  simpa using (detach_yields es [] hv hk).map some s hs

end RingList
