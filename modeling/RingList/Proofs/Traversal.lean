import RingList.Proofs.Walks

/-!
# Complete walks

A cursor that is walked to the end of a list meets every node that was there when it was seated, in
order, and no node twice, although nodes come to the list and nodes go that it has returned.

* `Trail.Accounts`: the nodes of a list are those it started with and those that came, but for those
  that left.
* `Trail.Reaches`: what a cursor returned and what it has ahead.
* `Walks.complete`: what a cursor has returned when it meets the end.
-/

set_option autoImplicit false

namespace RingList

variable {η σ α : Type} {B : Behaviour η σ α}

/-! ## Orders that are kept -/

/-- A list whose members come in the same order in another list, with all members of a suffix among
them: there is a suffix of the other list that starts at the same member. -/
theorem exists_suffix {ns ns' behind ahead : List Addr} (hns : ns = behind ++ ahead)
    (hnd' : ns'.Nodup) (horder : ns'.filter (· ∈ ns) = ns.filter (· ∈ ns'))
    (hahead : ∀ a ∈ ahead, a ∈ ns') :
    ∃ behind' ahead', ns' = behind' ++ ahead' ∧ ahead'.head? = ahead.head? ∧
      ahead'.filter (· ∈ ns) = ahead := by
  cases ahead with
  | nil => exact ⟨ns', [], by simp, rfl, rfl⟩
  | cons q qs =>
    obtain ⟨behind', qs', hns'⟩ := List.append_of_mem (hahead q List.mem_cons_self)
    refine ⟨behind', q :: qs', hns', rfl, ?_⟩
    have hq : q ∈ ns := by simp [hns]
    have hq' : q ∈ ns' := hahead q List.mem_cons_self
    have hkeep : (q :: qs).filter (· ∈ ns') = q :: qs :=
      List.filter_eq_self.2 fun a ha => decide_eq_true (hahead a ha)
    have hsplit : behind'.filter (· ∈ ns) ++ q :: qs'.filter (· ∈ ns) =
        behind.filter (· ∈ ns') ++ q :: qs := by
      have hleft : ns'.filter (· ∈ ns) = behind'.filter (· ∈ ns) ++ q :: qs'.filter (· ∈ ns) := by
        conv_lhs => rw [hns']
        rw [List.filter_append, List.filter_cons_of_pos (by simpa using hq)]
      have hright : ns.filter (· ∈ ns') = behind.filter (· ∈ ns') ++ q :: qs := by
        conv_lhs => rw [hns]
        rw [List.filter_append, hkeep]
      rw [← hleft, ← hright, horder]
    -- the member `q` is in each list once, so what stands behind it is the same
    rw [hns', List.nodup_middle, List.nodup_cons, List.mem_append, not_or] at hnd'
    obtain ⟨-, -, hqs⟩ := (List.append_cons_inj_of_notMem
      (fun hm => hnd'.1.1 (List.mem_of_mem_filter hm))
      (fun hm => hnd'.1.2 (List.mem_of_mem_filter hm))).1 hsplit
    rw [List.filter_cons_of_pos (by simpa using hq), hqs]

namespace Trail

variable {t : Trail} {ns ns' ahead : List Addr}

/-- The nodes that were in the list at some time since the cursor was seated. -/
def known (t : Trail) : List Addr := t.start ++ t.entered

/-- **The records of the trail account for the nodes** of the list. -/
structure Accounts (t : Trail) (ns : List Addr) : Prop where
  nodes : ∀ a ∈ ns, a ∈ t.known
  nodup : t.known.Nodup
  left : ∀ a, a ∈ t.left ↔ a ∈ t.known ∧ a ∉ ns
  /-- The nodes that the list started with are in their old order. -/
  order : ns.filter (· ∈ t.start) = t.start.filter (· ∈ ns)

/-- **What the cursor returned, and what it has ahead** in the list with the nodes `ns`. -/
structure Reaches (t : Trail) (ns ahead : List Addr) : Prop where
  suffix : ∃ behind, t.direction.order ns = behind ++ ahead
  /-- The nodes that the list started with were returned in order, or are ahead in order. -/
  start : t.direction.order t.start =
    t.returned.filter (· ∈ t.start) ++ ahead.filter (· ∈ t.start)
  once : (t.returned ++ ahead).Nodup
  known : ∀ a ∈ t.returned, a ∈ t.known

/-- The nodes came to the list for the first time. -/
def New (t : Trail) (ns ns' : List Addr) : Prop := ∀ a ∈ ns', a ∉ ns → a ∉ t.known

theorem accounts_seated (l : Addr) (d : Direction) (hnd : ns.Nodup) :
    Accounts { list := l, direction := d, start := ns } ns where
  nodes a ha := List.mem_append_left _ ha
  nodup := by simpa [Trail.known] using hnd
  left a := by simp [Trail.known]
  order := rfl

theorem reaches_seated (l : Addr) (d : Direction) (hnd : ns.Nodup) :
    Reaches { list := l, direction := d, start := ns } ns (d.order ns) where
  suffix := ⟨[], rfl⟩
  start := by
    have hall : (d.order ns).filter (· ∈ ns) = d.order ns :=
      List.filter_eq_self.2 fun a ha => decide_eq_true ((d.mem_order).1 ha)
    exact hall.symm
  once := by simpa [returned] using hnd
  known a ha := by simp [returned] at ha

/-- The nodes that the list started with keep their order. -/
theorem Accounts.order_changed (h : t.Accounts ns) (hnew : t.New ns ns')
    (horder : ns'.filter (· ∈ ns) = ns.filter (· ∈ ns')) :
    ns'.filter (· ∈ t.start) = t.start.filter (· ∈ ns') := by
  -- such a node is in the list only if it has been in it all the time
  have hstay : ∀ a ∈ ns', a ∈ t.start → a ∈ ns := by
    intro a ha hs
    by_contra hout
    exact hnew a ha hout (List.mem_append_left _ hs)
  calc ns'.filter (· ∈ t.start)
      = (ns'.filter (· ∈ ns)).filter (· ∈ t.start) := by
        rw [List.filter_filter]
        refine List.filter_congr fun a ha => ?_
        have := hstay a ha
        simpa using this
    _ = (ns.filter (· ∈ t.start)).filter (· ∈ ns') := by
        rw [horder, List.filter_comm]
    _ = (t.start.filter (· ∈ ns)).filter (· ∈ ns') := by rw [h.order]
    _ = t.start.filter (· ∈ ns') := by
        rw [List.filter_filter]
        refine List.filter_congr fun a ha => ?_
        have := fun hm => hstay a hm ha
        simpa using this

/-- **A change of the list** is accounted for. -/
theorem Accounts.changed (h : t.Accounts ns) (hnd' : ns'.Nodup) (hnew : t.New ns ns')
    (horder : ns'.filter (· ∈ ns) = ns.filter (· ∈ ns')) :
    (t.changed ns ns').Accounts ns' := by
  have hknown : (t.changed ns ns').known = t.known ++ ns'.filter (· ∉ ns) :=
    (List.append_assoc _ _ _).symm
  have hentered : ∀ {a}, a ∈ ns'.filter (· ∉ ns) ↔ a ∈ ns' ∧ a ∉ ns := by simp
  have hleft : ∀ {a}, a ∈ ns.filter (· ∉ ns') ↔ a ∈ ns ∧ a ∉ ns' := by simp
  refine ⟨fun a ha => ?_, ?_, fun a => ?_, ?_⟩
  · rw [hknown, List.mem_append, hentered]
    by_cases hm : a ∈ ns
    · exact .inl (h.nodes a hm)
    · exact .inr ⟨ha, hm⟩
  · rw [hknown, List.nodup_append]
    refine ⟨h.nodup, hnd'.filter _, fun a ha b hb he => ?_⟩
    obtain ⟨hb, hout⟩ := hentered.1 hb
    exact hnew b hb hout (he ▸ ha)
  · show a ∈ t.left ++ ns.filter (· ∉ ns') ↔ _
    rw [hknown, List.mem_append, List.mem_append, hentered, hleft, h.left a]
    constructor
    · rintro (⟨hk, hout⟩ | ⟨hm, hout⟩)
      · exact ⟨.inl hk, fun hm => hnew a hm hout hk⟩
      · exact ⟨.inl (h.nodes a hm), hout⟩
    · rintro ⟨hk | ⟨hm, -⟩, hout⟩
      · by_cases hm : a ∈ ns
        · exact .inr ⟨hm, hout⟩
        · exact .inl ⟨hk, hm⟩
      · exact absurd hm hout
  · exact h.order_changed hnew horder

/-- **A step of the cursor** returns the node ahead. -/
theorem Reaches.answered {a : Addr} (h : t.Reaches ns (a :: ahead)) (hns : ∀ b ∈ ns, b ∈ t.known) :
    (t.answered (some a)).Reaches ns ahead := by
  obtain ⟨behind, hsuffix⟩ := h.suffix
  refine ⟨⟨behind ++ [a], ?_⟩, ?_, ?_, fun b hb => ?_⟩
  · show t.direction.order ns = behind ++ [a] ++ ahead
    rw [hsuffix, List.append_assoc]
    rfl
  · show t.direction.order t.start =
      (t.answered (some a)).returned.filter (· ∈ t.start) ++ ahead.filter (· ∈ t.start)
    rw [returned_answered_some, h.start, ← List.filter_append, ← List.filter_append,
      List.append_assoc]
    rfl
  · rw [returned_answered_some, List.append_assoc]
    exact h.once
  · rw [returned_answered_some, List.mem_append, List.mem_singleton] at hb
    rcases hb with hb | rfl
    · exact h.known b hb
    · refine hns b ((t.direction.mem_order).1 ?_)
      rw [hsuffix]
      simp

/-- If a change takes only the node that was returned last, what was ahead is ahead then, with the
same node first. -/
theorem Reaches.exists_ahead (h : t.Reaches ns ahead) (hnd' : ns'.Nodup)
    (horder : ns'.filter (· ∈ ns) = ns.filter (· ∈ ns'))
    (hleft : ∀ a ∈ ns, a ∉ ns' → t.last = some a) :
    ∃ behind' ahead', t.direction.order ns' = behind' ++ ahead' ∧ ahead'.head? = ahead.head? ∧
      ahead'.filter (· ∈ t.direction.order ns) = ahead := by
  obtain ⟨behind, hsuffix⟩ := h.suffix
  have hmem : ∀ {a}, a ∈ t.direction.order ns ↔ a ∈ ns := t.direction.mem_order
  have hmem' : ∀ {a}, a ∈ t.direction.order ns' ↔ a ∈ ns' := t.direction.mem_order
  have horder' : (t.direction.order ns').filter (· ∈ t.direction.order ns) =
      (t.direction.order ns).filter (· ∈ t.direction.order ns') := by
    simp only [hmem, hmem', Direction.order_filter, horder]
  refine exists_suffix hsuffix (t.direction.nodup_order.2 hnd') horder' fun a ha => ?_
  have hns : a ∈ ns := hmem.1 (by simp [hsuffix, ha])
  rw [hmem']
  by_contra hout
  have hlast : a ∈ t.returned := List.mem_of_getLast? (hleft a hns hout)
  exact (List.nodup_append.1 h.once).2.2 a hlast a ha rfl

/-- **A change of the list** that takes only the node that was returned last leaves the same node
ahead. -/
theorem Reaches.changed (h : t.Reaches ns ahead) (hnd' : ns'.Nodup)
    (hnew : t.New ns ns') (horder : ns'.filter (· ∈ ns) = ns.filter (· ∈ ns'))
    (hleft : ∀ a ∈ ns, a ∉ ns' → t.last = some a) :
    ∃ ahead', ahead'.head? = ahead.head? ∧ (t.changed ns ns').Reaches ns' ahead' := by
  obtain ⟨behind, hsuffix⟩ := h.suffix
  obtain ⟨hret, -, hdisjoint⟩ := List.nodup_append.1 h.once
  obtain ⟨behind', ahead', hsuffix', hhead, hkept⟩ := h.exists_ahead hnd' horder hleft
  have hmem : ∀ {a}, a ∈ t.direction.order ns ↔ a ∈ ns := t.direction.mem_order
  -- a node ahead that was in the list before was ahead before
  have hbefore : ∀ a ∈ ahead', a ∈ t.known → a ∈ ahead := by
    intro a ha hk
    have hns' : a ∈ ns' := (t.direction.mem_order).1 (by simp [hsuffix', ha])
    have hns : a ∈ ns := by
      by_contra hout
      exact hnew a hns' hout hk
    rw [← hkept, List.mem_filter]
    exact ⟨ha, decide_eq_true (hmem.2 hns)⟩
  refine ⟨ahead', hhead, ⟨behind', hsuffix'⟩, ?_, ?_, fun a ha => ?_⟩
  · show t.direction.order t.start = t.returned.filter (· ∈ t.start) ++ ahead'.filter (· ∈ t.start)
    have hsame : ahead'.filter (· ∈ t.start) = ahead.filter (· ∈ t.start) := by
      rw [← hkept, List.filter_filter]
      refine List.filter_congr fun a ha => ?_
      have hstay : a ∈ t.start → a ∈ t.direction.order ns := by
        intro hs
        have hm := hbefore a ha (List.mem_append_left _ hs)
        rw [hsuffix]
        exact List.mem_append_right _ hm
      simpa using hstay
    rw [hsame]
    exact h.start
  · refine List.nodup_append.2 ⟨hret, ?_, fun a ha b hb he => ?_⟩
    · have hnd := t.direction.nodup_order.2 hnd'
      rw [hsuffix'] at hnd
      exact (List.nodup_append.1 hnd).2.1
    · exact hdisjoint a ha b (hbefore b hb (he ▸ h.known a ha)) he
  · exact List.mem_append.2 <| (List.mem_append.1 (h.known a ha)).imp_right
      (List.mem_append_left _)

/-- A step that meets the end changes nothing. -/
theorem Reaches.answered_none (h : t.Reaches ns ahead) : (t.answered none).Reaches ns ahead where
  suffix := h.suffix
  start := by
    rw [returned_answered_none]
    exact h.start
  once := by
    rw [returned_answered_none]
    exact h.once
  known a ha := h.known a (returned_answered_none t ▸ ha)

theorem Accounts.answered (h : t.Accounts ns) (node : Option Addr) :
    (t.answered node).Accounts ns where
  nodes := h.nodes
  nodup := h.nodup
  left := h.left
  order := h.order

/-- **The rule for complete walks**: only the node that was returned last leaves the list, which is
not rotated, not joined to another list, and not ended. -/
structure Permits (t : Trail) (st : Step η σ α) : Prop where
  leaving : ∀ a ∈ st.op.leaving t.list (st.before.nodes t.list), t.last = some a
  rotate : st.op ≠ .rotate t.list
  join : ∀ m, st.op ≠ .join m t.list
  ends : st.op.ends? ≠ some t.list

/-- **The walk is complete**, and the list has the nodes `ns`. -/
structure Complete (t : Trail) (ns : List Addr) : Prop where
  /-- The nodes that the list started with were returned, each once and in order. -/
  start : t.returned.filter (· ∈ t.start) = t.direction.order t.start
  /-- No node was returned twice. -/
  once : t.returned.Nodup
  /-- Every other node that was returned came to the list. -/
  returned : ∀ a ∈ t.returned, a ∈ t.start ∨ a ∈ t.entered
  /-- The nodes that the list started with are in it in their order, but for those that left. -/
  stayed : ns.filter (· ∈ t.start) = t.start.filter (· ∉ t.left)
  /-- The other nodes of the list are those that came, but for those that left. -/
  came : (ns.filter (· ∉ t.start)).Perm (t.entered.filter (· ∉ t.left))

/-- **With nothing ahead** the walk is complete. -/
theorem Reaches.atEnd (h : t.Reaches ns []) (hacc : t.Accounts ns) (hnd : ns.Nodup) :
    t.Complete ns := by
  obtain ⟨-, hentered, hdisjoint⟩ := List.nodup_append.1 hacc.nodup
  -- a node that was in the list is in it unless it left
  have hstay : ∀ a ∈ t.known, a ∈ ns ↔ a ∉ t.left := by
    intro a ha
    rw [hacc.left a]
    tauto
  refine ⟨?_, ?_, fun a ha => List.mem_append.1 (h.known a ha), ?_, ?_⟩
  · simpa using h.start.symm
  · simpa using h.once
  · rw [hacc.order]
    exact List.filter_congr fun a ha => decide_eq_decide.2 (hstay a (List.mem_append_left _ ha))
  · refine (List.perm_ext_iff_of_nodup (hnd.filter _) (hentered.filter _)).2 fun a => ?_
    simp only [List.mem_filter, decide_eq_true_eq]
    constructor
    · rintro ⟨ha, hout⟩
      have hk := hacc.nodes a ha
      exact ⟨(List.mem_append.1 hk).resolve_left hout, (hstay a hk).1 ha⟩
    · rintro ⟨ha, hout⟩
      have hk : a ∈ t.known := List.mem_append_right _ ha
      exact ⟨(hstay a hk).2 hout, fun hs => hdisjoint a hs a ha rfl⟩

end Trail

/-! ## Nodes that are gone -/

/-- The block was handed out once, and is in no list. -/
def World.Gone (w : World η σ α) (a : Addr) : Prop :=
  a < w.store.heap.size ∧ ∀ l ∈ w.owners, a ∉ l :: w.nodes l

section
variable {w : World η σ α} {v v' : View η σ α} {op : Op η α} {l m a : Addr} {k k' : Strip η α}
  {st : Step η σ α}

/-- **Where the blocks of a list come from**: they are new, were in this list, or were in one that
is joined to it. -/
theorem Step.Sound.mem_blocks (hst : st.Sound B v v') (hl : (l, k') ∈ v'.lists)
    (ha : a ∈ Strip.blocks (l, k')) : v.fresh ≤ a ∨
      (∃ k, (l, k) ∈ v.lists ∧ a ∈ Strip.blocks (l, k)) ∨
      ∃ m k, st.op = .join l m ∧ l ≠ m ∧ (m, k) ∈ v.lists ∧ a ∈ k.nodes := by
  rcases hst.effect.shape hst.before.shows.lists.nodup_headers with ⟨-, rfl⟩ | hs
  · exact .inr (.inl ⟨k', hl, ha⟩)
  · rcases hs.origin hl with ⟨k, hk⟩ | ⟨hnew, -⟩
    · rcases hst.reshapes hk hl with ⟨-, rfl⟩ | hr
      · exact .inr (.inl ⟨_, hk, ha⟩)
      · rcases List.mem_cons.1 ha with rfl | ha
        · exact .inr (.inl ⟨k, hk, List.mem_cons_self⟩)
        · rcases hr.moves.mem_after ha with ha | hfresh | hjoin
          · exact .inr (.inl ⟨k, hk, List.mem_cons_of_mem _ ha⟩)
          · exact .inl hfresh
          · exact .inr (.inr hjoin)
    · exact .inl (hnew a ha)

theorem Step.Sound.fresh_le (hst : st.Sound B v v') : v.fresh ≤ v'.fresh := by
  obtain ⟨evs, lost, -, hledger, -⟩ := hst.effect.ledger hst.count_eq
  exact hledger.served_eq.1

namespace World.Sound

/-- The lists of a world are those of the view. -/
theorem gone_iff (hw : w.Sound v) :
    w.Gone a ↔ a < v.fresh ∧ ∀ p ∈ v.lists, a ∉ Strip.blocks p := by
  unfold World.Gone
  rw [hw.shows.fresh]
  refine and_congr_right fun _ => ⟨fun h p hp => ?_, fun h l hl => ?_⟩
  · have hp' : (p.1, p.2) ∈ v.lists := hp
    have hout := h p.1 (hw.mem_owners hp')
    rwa [hw.nodes_eq hp'] at hout
  · obtain ⟨k, hl⟩ := hw.mem_lists hl
    rw [hw.nodes_eq hl]
    exact h (l, k) hl

/-- **What is gone does not come back.** -/
theorem gone_perform (hw : w.Sound v) (h : w.Gone a) : (w.perform B op).2.Gone a := by
  obtain ⟨v', hst⟩ := hw.step (B := B) op
  obtain ⟨hlt, hout⟩ := hw.gone_iff.1 h
  refine hst.after.gone_iff.2 ⟨Nat.lt_of_lt_of_le hlt hst.fresh_le, fun (l, k') hp ha => ?_⟩
  rcases hst.mem_blocks hp ha with hfresh | ⟨k, hk, ha⟩ | ⟨m, k, -, -, hm, ha⟩
  · exact absurd hlt (Nat.not_lt.2 hfresh)
  · exact hout _ hk ha
  · exact hout _ hm (List.mem_cons_of_mem _ ha)

/-- **A node that leaves a list is gone**, unless the list is joined to another one. -/
theorem gone_of_left (hw : w.Sound v) (hl : l ∈ w.owners) (hl' : l ∈ (w.perform B op).2.owners)
    (hop : ∀ m, op ≠ .join m l) (ha : a ∈ w.nodes l) (hout : a ∉ (w.perform B op).2.nodes l) :
    (w.perform B op).2.Gone a := by
  obtain ⟨v', hst⟩ := hw.step (B := B) op
  have hw' : (w.perform B op).2.Sound v' := hst.after
  obtain ⟨k, hl⟩ := hw.mem_lists hl
  rw [hw.nodes_eq hl] at ha
  have hlt : a < v.fresh := by
    rw [← hw.shows.fresh]
    exact (hw.ring hl).lt_size (List.mem_cons_of_mem _ ha)
  have honly : ∀ {m k₂}, (m, k₂) ∈ v.lists → a ∈ Strip.blocks (m, k₂) → m = l :=
    fun hm hmem => hw.eq_of_mem_blocks hm hl hmem (List.mem_cons_of_mem _ ha)
  refine hw'.gone_iff.2 ⟨Nat.lt_of_lt_of_le hlt hst.fresh_le, fun p hp hmem => ?_⟩
  obtain ⟨m, k₂⟩ := p
  rcases hst.mem_blocks hp hmem with hfresh | ⟨k₃, hm, hmem'⟩ | ⟨m', k₃, hjoin, -, hm, hmem'⟩
  · exact absurd hlt (Nat.not_lt.2 hfresh)
  · obtain rfl := honly hm hmem'
    rw [hw'.nodes_eq hp] at hout
    rcases List.mem_cons.1 hmem with rfl | hmem
    · exact (hw.ring hl).header_not_mem ha
    · exact hout hmem
  · obtain rfl := honly hm (List.mem_cons_of_mem _ hmem')
    exact hop m hjoin

/-- **A node that is in a list after an operation** was not gone before it. -/
theorem not_gone_of_mem (hw : w.Sound v) (hl' : l ∈ (w.perform B op).2.owners)
    (ha : a ∈ (w.perform B op).2.nodes l) : ¬ w.Gone a := by
  intro hgone
  have hgone' : (w.perform B op).2.Gone a := hw.gone_perform hgone
  exact hgone'.2 l hl' (List.mem_cons_of_mem _ ha)

/-- A list stays unless it is ended. -/
theorem owners_perform (hw : w.Sound v) (hl : l ∈ w.owners) (hop : op.ends? ≠ some l) :
    l ∈ (w.perform B op).2.owners := by
  obtain ⟨v', hw', he⟩ := hw.perform (B := B) op
  obtain ⟨k, hl⟩ := hw.mem_lists hl
  have hnd := hw.shows.lists.nodup_headers
  rcases he.shape hnd with ⟨-, rfl⟩ | hs
  · exact hw'.mem_owners hl
  · rcases hs.reshapes hnd hl with ⟨k', hk', -⟩ | ⟨hends, -⟩
    · exact hw'.mem_owners hk'
    · exact absurd hends hop

/-- The rule for complete walks implies the rule for cursors. -/
theorem obeys {t : Trail} (hw : w.Sound v) (hl : t.list ∈ w.owners)
    (h : t.Permits (w.stepOf B op)) : t.Obeys (w.stepOf B op) := by
  have hl' := hw.owners_perform (B := B) hl h.ends
  refine ⟨hl', fun a ha hout => ?_⟩
  rcases hw.moves hl hl' with hsame | hm
  · have hmem : a ∈ (w.perform B op).2.nodes t.list := hsame.symm ▸ ha
    exact absurd hmem hout
  · exact h.leaving a ((hm.mem_leaving (hw.nodup_nodes hl) ha).2 hout)

end World.Sound

end

/-! ## Complete walks -/

/-- **The cursor walks along its list**: the trail accounts for the nodes of the list, the link of
the cursor leads to what is ahead, and nodes that left do not come back. -/
structure Seat.Walking (w : World η σ α) (s : Seat) (t : Trail) : Prop where
  accounts : t.Accounts (w.nodes t.list)
  ahead : ∃ ahead, s.cursor.next = ahead.head? ∧ t.Reaches (w.nodes t.list) ahead
  gone : ∀ a ∈ t.known, a ∈ w.nodes t.list ∨ w.Gone a

section
variable {w : World η σ α} {v : View η σ α} {s s' : Seat} {t : Trail} {c : Nat} {l : Addr}
  {op : Op η α}

namespace Seat.Walking

theorem seated (d : Direction) (hw : w.Sound v) (hl : l ∈ w.owners) :
    Walking w { cursor := ⟨(d.order (w.nodes l)).head?, l, d⟩ }
      { list := l, direction := d, start := w.nodes l } where
  accounts := Trail.accounts_seated l d (hw.nodup_nodes hl)
  ahead := ⟨d.order (w.nodes l), rfl, Trail.reaches_seated l d (hw.nodup_nodes hl)⟩
  gone a ha := .inl (by simpa [Trail.known] using ha)

/-- **A step of the cursor** moves its link along what is ahead. -/
theorem stepped {next : Option Addr} (hw : w.Sound v) (hg : s.Guided w t) (h : s.Walking w t)
    (hy : Yields s.cursor.step v (s.cursor.next, { s.cursor with next }) v) :
    Walking w { s with cursor := { s.cursor with next }, last := s.cursor.next }
      (t.answered s.cursor.next) := by
  obtain ⟨ahead, hnext, hr⟩ := h.ahead
  refine ⟨h.accounts.answered _, ?_, h.gone⟩
  have heq : ∀ {next'}, Yields s.cursor.step v (s.cursor.next, { s.cursor with next := next' }) v →
      next = next' := by
    intro next' hy'
    have hread := (hw.read_eq hy).symm.trans (hw.read_eq hy')
    simpa using hread
  cases ahead with
  | nil =>
    have hnone : s.cursor.next = none := hnext
    have hstay := step_yields_none v hnone
    refine ⟨[], heq ?_, ?_⟩
    · have hcursor : { s.cursor with next := none } = s.cursor := by rw [← hnone]
      rw [List.head?_nil, hcursor, hnone]
      exact hstay
    · rw [hnone]
      exact hr.answered_none
  | cons a ahead =>
    have ha : s.cursor.next = some a := hnext
    obtain ⟨k, hl⟩ := hw.mem_lists hg.owned
    obtain ⟨behind, hsuffix⟩ := hr.suffix
    rw [hw.nodes_eq hl, ← hg.direction] at hsuffix
    refine ⟨ahead, heq ?_, ?_⟩
    · rw [ha]
      exact step_yields (hg.header ▸ hl) hsuffix ha
    · rw [ha]
      exact hr.answered h.accounts.nodes

/-- An operation that works on no list. -/
theorem sameOf (hw : w.Sound v) (hg : s.Guided w t) (h : s.Walking w t) (hop : op.targets = []) :
    s.Walking (w.perform B op).2 t := by
  have hsame := hw.sameList_perform (B := B) hg.owned (hop ▸ List.not_mem_nil)
  have hnodes : (w.perform B op).2.nodes t.list = w.nodes t.list := hsame.nodes
  refine ⟨hnodes ▸ h.accounts, hnodes ▸ h.ahead, fun a ha => ?_⟩
  rw [hnodes]
  exact (h.gone a ha).imp_right hw.gone_perform

/-- **An operation by the rule** leaves the link of the cursor at the first node ahead. -/
theorem kept (hw : w.Sound v) (hg : s.Guided w t) (h : s.Walking w t)
    (hrule : t.Permits (w.stepOf B op)) (hcursor : s'.cursor = s.cursor) :
    s'.Walking (w.perform B op).2
      (t.changed (w.nodes t.list) ((w.perform B op).2.nodes t.list)) := by
  obtain ⟨ahead, hnext, hr⟩ := h.ahead
  obtain ⟨hown, hleft⟩ := hw.obeys hg.owned hrule
  have hl' : t.list ∈ (w.perform B op).2.owners := hown
  obtain ⟨v', hw', -⟩ := hw.perform (B := B) op
  have hnd := hw.nodup_nodes hg.owned
  have hnd' := hw'.nodup_nodes hl'
  have hnew : t.New (w.nodes t.list) ((w.perform B op).2.nodes t.list) := by
    intro a ha hout hk
    exact hw.not_gone_of_mem hl' ha ((h.gone a hk).resolve_left hout)
  have horder : ((w.perform B op).2.nodes t.list).filter (· ∈ w.nodes t.list) =
      (w.nodes t.list).filter (· ∈ (w.perform B op).2.nodes t.list) := by
    rcases hw.moves hg.owned hl' with hsame | hm
    · rw [hsame]
    · exact hm.order hrule.rotate hnd hnd'
  obtain ⟨ahead', hhead, hr'⟩ := hr.changed hnd' hnew horder hleft
  refine ⟨h.accounts.changed hnd' hnew horder, ⟨ahead', ?_, hr'⟩, fun a ha => ?_⟩
  · rw [hcursor, hnext, hhead]
  · by_cases hin : a ∈ (w.perform B op).2.nodes t.list
    · exact .inl hin
    · have hk : a ∈ t.known := by
        rcases List.mem_append.1 ha with hs | he
        · exact List.mem_append_left _ hs
        · refine List.mem_append_right _ ((List.mem_append.1 he).resolve_right fun hm => ?_)
          exact hin (List.mem_filter.1 hm).1
      rcases h.gone a hk with hm | hgone
      · exact .inr (hw.gone_of_left hg.owned hl' hrule.join hm hin)
      · exact .inr (hw.gone_perform hgone)

end Seat.Walking

/-- **A walk by the rule is complete at its end.** The cursor answers every step until it has met
the end, and when it meets it, it has returned every node that it was seated on. -/
theorem Walks.complete {budgets : Array (Option Nat)} {hookState : σ}
    (h : Walks B budgets hookState Trail.Permits w c t) :
    (t.list ∈ w.holdings.lists → none ∉ t.answers →
      ∃ node, (w.perform B (.step c)).1 = .answered (.node node)) ∧
    ((w.perform B (.step c)).1 = .answered (.node none) → t.Complete (w.nodes t.list)) := by
  obtain ⟨s, hs, hg, hwalk⟩ := h.along (P := Seat.Walking) (fun hw hl hrule => hw.obeys hl hrule)
    (fun d hw hl => .seated d hw hl) (fun hw hg hwalk hy => hwalk.stepped hw hg hy)
    (fun hw hg hwalk hop => hwalk.sameOf hw hg hop)
    (fun hw hg hwalk hrule hcursor _ => hwalk.kept hw hg hrule hcursor)
  obtain ⟨v, -, hw, -⟩ := h.reachable.sound
  obtain ⟨next, hy, -⟩ := hg.yields hw
  refine ⟨fun hl hnotyet => ?_, fun hend => ?_⟩
  · cases hstale : s.stale with
    | true => exact absurd hl ((hg.stale hstale).resolve_left hnotyet)
    | false => exact ⟨_, (hw.perform_step hs hstale hy).1⟩
  · have hfresh := World.Sound.fresh_of_expectFresh hs (World.Sound.check_of_answered hend)
    rw [(hw.perform_step (B := B) hs hfresh hy).1] at hend
    have hnone : s.cursor.next = none := by simpa using hend
    obtain ⟨ahead, hnext, hr⟩ := hwalk.ahead
    obtain rfl : ahead = [] := List.head?_eq_none_iff.1 (hnext.symm.trans hnone)
    exact hr.atEnd hwalk.accounts (hw.nodup_nodes hg.owned)

end

/-- A walk from the end. The node that was returned first goes, and nodes come behind the cursor and
ahead of it. -/
theorem Walks.complete_of_backward :
    let B : Behaviour Unit Unit Nat := ⟨fun _ s x => (.returns (some x), s),
      fun _ s _ => (.returns (), s), fun _ s _ => s, fun _ s x y => (.returns (x == y), s)⟩
    let w : World Unit Unit Nat := ((World.start #[] ()).run B [.collect [1, 2, 3], .collect [7]]).2
    let w₁ := (w.perform B (.cursor 0 .backward)).2
    let w₂ := (w₁.perform B (.step 0)).2
    let w₃ := (w₂.perform B (.delete 0 3)).2
    let w₄ := (w₃.perform B (.join 0 4)).2
    let w₅ := (w₄.perform B (.step 0)).2
    let w₆ := (w₅.perform B (.addHead 0 9)).2
    let w₇ := (w₆.perform B (.step 0)).2
    let w₈ := (w₇.perform B (.step 0)).2
    let t : Trail := ⟨0, .backward, [1, 2, 3], [some 3, some 2, some 1, some 6], [5, 6], [3]⟩
    (w₈.perform B (.step 0)).1 = .answered (.node none) ∧ t.Complete (w₈.nodes 0) ∧
      w₈.nodes 0 = [6, 1, 2, 5] := by
  intro B w w₁ w₂ w₃ w₄ w₅ w₆ w₇ w₈ t
  have hw : w.Reachable B #[] () := ⟨[.collect [1, 2, 3], .collect [7]], rfl⟩
  have h₁ : Walks B #[] () Trail.Permits w₁ 0 ⟨0, .backward, w.nodes 0, [], [], []⟩ :=
    .seated hw (by decide +kernel)
  have a₂ : (w₁.perform B (.step 0)).1 = .answered (.node (some 3)) := by decide +kernel
  have a₅ : (w₄.perform B (.step 0)).1 = .answered (.node (some 2)) := by decide +kernel
  have a₇ : (w₆.perform B (.step 0)).1 = .answered (.node (some 1)) := by decide +kernel
  have a₈ : (w₇.perform B (.step 0)).1 = .answered (.node (some 6)) := by decide +kernel
  have hjoin : ∀ m, (.join 0 4 : Op Unit Nat) ≠ .join m 0 := by simp
  have h₂ := h₁.stepped a₂
  have h₃ := h₂.kept (.delete 0 3) nofun ⟨by decide +kernel, nofun, nofun, nofun⟩
  have h₄ := h₃.kept (.join 0 4) nofun ⟨by decide +kernel, nofun, hjoin, nofun⟩
  have h₅ := h₄.stepped a₅
  have h₆ := h₅.kept (.addHead 0 9) nofun ⟨by decide +kernel, nofun, nofun, nofun⟩
  have h₈ := (h₆.stepped a₇).stepped a₈
  have hwalk : Walks B #[] () Trail.Permits w₈ 0 t := by
    refine Eq.mp (congrArg (Walks B #[] () Trail.Permits w₈ 0) ?_) h₈
    decide +kernel
  have hend : (w₈.perform B (.step 0)).1 = .answered (.node none) := by decide +kernel
  exact ⟨hend, (Walks.complete hwalk).2 hend, by decide +kernel⟩

end RingList
