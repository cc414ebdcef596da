import RingList.Proofs.Coupling

/-!
# Actions on coupled stores

`Simulates C Q act act'` says that on coupled stores the second action does what the first one does:
both give results that `Q` relates, or stop for the same reason, and what happens in the second store
is what happens in the first one, with addresses and values replaced. It holds of constant actions and
passes through `bind`, `tryCatch` and the branches of conditions that the coupling respects. An action
is made of such parts, so there is one lemma for each, which follows its definition. Addresses are only
ever compared with each other and looked up, and values are looked at in one place only, the calls of
the hooks, where `Behaviour.Image` says what the two hooks do.
-/

set_option autoImplicit false

namespace RingList

variable {η σ τ α β γ δ γ' δ' : Type}

/-- The second result is `f` of the first one. -/
def Along (f : γ → δ) (b : γ) (b' : δ) : Prop := b' = f b

/-- From coupled stores to coupled stores, with corresponding events on the way. -/
structure Advance (C : Coupling σ τ α β) (s : Store η σ α) (s' : Store η τ β) (t : Store η σ α)
    (t' : Store η τ β) : Prop where
  coupled : t.Coupled C t'
  events : ∃ evs, t.events.toList = s.events.toList ++ evs ∧
    t'.events.toList = s'.events.toList ++ evs.map C.event

/-- Two actions end in the same way. -/
inductive Agree (C : Coupling σ τ α β) (Q : γ → δ → Prop) (s : Store η σ α) (s' : Store η τ β) :
    EStateM.Result Stop (Store η σ α) γ → EStateM.Result Stop (Store η τ β) δ → Prop
  | ok {b : γ} {b' : δ} {t : Store η σ α} {t' : Store η τ β} (hb : Q b b')
      (h : Advance C s s' t t') : Agree C Q s s' (.ok b t) (.ok b' t')
  | error {why : Stop} {t : Store η σ α} {t' : Store η τ β} (h : Advance C s s' t t') :
      Agree C Q s s' (.error why t) (.error why t')

/-- On coupled stores the second action does what the first one does. -/
def Simulates (C : Coupling σ τ α β) (Q : γ → δ → Prop) (act : Action η σ α γ)
    (act' : Action η τ β δ) : Prop :=
  ∀ (s : Store η σ α) (s' : Store η τ β), s.Coupled C s' → Agree C Q s s' (act s) (act' s')

section
variable {C : Coupling σ τ α β} {s t : Store η σ α} {s' t' : Store η τ β}

namespace Advance

theorem refl (hs : s.Coupled C s') : Advance C s s' s s' := ⟨hs, [], by simp, by simp⟩

theorem trans {u : Store η σ α} {u' : Store η τ β} (h : Advance C s s' t t')
    (h' : Advance C t t' u u') : Advance C s s' u u' := by
  obtain ⟨evs, hevs, hevs'⟩ := h.events
  obtain ⟨evs₂, hevs₂, hevs₂'⟩ := h'.events
  refine ⟨h'.coupled, evs ++ evs₂, ?_, ?_⟩
  · rw [hevs₂, hevs, List.append_assoc]
  · rw [hevs₂', hevs', List.append_assoc, List.map_append]

theorem log (hs : s.Coupled C s') (e : Event η α) : Advance C s s' (s.log e) (s'.log (C.event e)) :=
  ⟨⟨hs.heap, hs.budgets, hs.hookState⟩, [e], by simp [Store.log], by simp [Store.log]⟩

theorem logging (h : Advance C s s' t t') (e : Event η α) :
    Advance C s s' (t.log e) (t'.log (C.event e)) := h.trans (.log h.coupled e)

theorem withHeap (hs : s.Coupled C s') {h : Heap η α} {h' : Heap η β} (hh : h.Coupled C h') :
    Advance C s s' { s with heap := h } { s' with heap := h' } :=
  ⟨⟨hh, hs.budgets, hs.hookState⟩, [], by simp, by simp⟩

theorem withBudgets (hs : s.Coupled C s') {budgets budgets' : Array (Option Nat)}
    (hb : budgets' = budgets) :
    Advance C s s' { s with budgets } { s' with budgets := budgets' } :=
  ⟨⟨hs.heap, hb, hs.hookState⟩, [], by simp, by simp⟩

theorem withHookState (hs : s.Coupled C s') {x : σ} {y : τ} (hxy : C.state x y) :
    Advance C s s' { s with hookState := x } { s' with hookState := y } :=
  ⟨⟨hs.heap, hs.budgets, hxy⟩, [], by simp, by simp⟩

end Advance

theorem Agree.trans {Q : γ → δ → Prop} {r : EStateM.Result Stop (Store η σ α) γ}
    {r' : EStateM.Result Stop (Store η τ β) δ} (h : Advance C s s' t t') (hr : Agree C Q t t' r r') :
    Agree C Q s s' r r' := by
  cases hr with
  | ok hb h' => exact .ok hb (h.trans h')
  | error h' => exact .error (h.trans h')

end

variable {C : Coupling σ τ α β}

namespace Simulates

variable {Q : γ → δ → Prop} {Q' : γ' → δ' → Prop}

theorem pure {b : γ} {b' : δ} (hb : Q b b') :
    Simulates C Q (pure b : Action η σ α γ) (pure b' : Action η τ β δ) :=
  fun _ _ hs => .ok hb (.refl hs)

theorem throw (Q : γ → δ → Prop) (why : Stop) :
    Simulates C Q (throw why : Action η σ α γ) (throw why : Action η τ β δ) :=
  fun _ _ hs => .error (.refl hs)

theorem bind {x : Action η σ α γ} {x' : Action η τ β δ} {k : γ → Action η σ α γ'}
    {k' : δ → Action η τ β δ'} (hx : Simulates C Q x x')
    (hk : ∀ b b', Q b b' → Simulates C Q' (k b) (k' b')) :
    Simulates C Q' (x >>= k) (x' >>= k') := by
  intro s s' hs
  have hr := hx s s' hs
  rw [run_bind, run_bind]
  generalize x s = r at hr ⊢
  generalize x' s' = r' at hr ⊢
  cases hr with
  | ok hb h => exact .trans h (hk _ _ hb _ _ h.coupled)
  | error h => exact .error h

theorem map {x : Action η σ α γ} {x' : Action η τ β δ} {k : γ → γ'} {k' : δ → δ'}
    (hx : Simulates C Q x x') (hk : ∀ b b', Q b b' → Q' (k b) (k' b')) :
    Simulates C Q' (k <$> x) (k' <$> x') := by
  rw [map_eq_pure_bind, map_eq_pure_bind]
  exact hx.bind fun b b' hb => .pure (hk b b' hb)

theorem tryCatch {x : Action η σ α γ} {x' : Action η τ β δ} {k : Stop → Action η σ α γ}
    {k' : Stop → Action η τ β δ} (hx : Simulates C Q x x')
    (hk : ∀ why, Simulates C Q (k why) (k' why)) :
    Simulates C Q (tryCatch x k) (tryCatch x' k') := by
  intro s s' hs
  have hr := hx s s' hs
  rw [run_tryCatch, run_tryCatch]
  generalize x s = r at hr ⊢
  generalize x' s' = r' at hr ⊢
  cases hr with
  | ok hb h => exact .ok hb h
  | error h => exact .trans h (hk _ _ _ h.coupled)

/-- Looking at the store: what follows may use all that coupled stores agree on. -/
theorem get {k : Store η σ α → Action η σ α γ} {k' : Store η τ β → Action η τ β δ}
    (hk : ∀ s s', s.Coupled C s' → Simulates C Q (k s) (k' s')) :
    Simulates C Q (get >>= k) (get >>= k') :=
  fun s s' hs => hk s s' hs s s' hs

theorem modify {h : Store η σ α → Store η σ α} {h' : Store η τ β → Store η τ β}
    (hh : ∀ s s', s.Coupled C s' → Advance C s s' (h s) (h' s')) :
    Simulates C Eq (modify h : Action η σ α Unit) (modify h') :=
  fun s s' hs => .ok rfl (hh s s' hs)

theorem ite {p p' : Prop} [Decidable p] [Decidable p'] {x y : Action η σ α γ}
    {x' y' : Action η τ β δ} (hp : p' ↔ p) (hx : p → Simulates C Q x x')
    (hy : ¬p → Simulates C Q y y') :
    Simulates C Q (if p then x else y) (if p' then x' else y') := by
  by_cases h : p
  · rw [if_pos h, if_pos (hp.2 h)]
    exact hx h
  · rw [if_neg h, if_neg (mt hp.1 h)]
    exact hy h

end Simulates

/-! ## Single steps -/

theorem fault_simulates (Q : γ → δ → Prop) (e : Fault) :
    Simulates C Q (fault e : Action η σ α γ) (fault e) := .throw Q _

theorem emit_simulates (e : Event η α) : Simulates C Eq (emit e) (emit (C.event e)) :=
  .modify fun _ _ hs => .log hs e

section
variable {a b l : Addr}

/-- The blocks that a known block leads to are known. -/
def Coupling.Cells (C : Coupling σ τ α β) (c : Cell η α) (c' : Cell η β) : Prop :=
  C.known c.next ∧ C.known c.prev ∧ c' = C.cell c

theorem cell_simulates (ha : C.known a) :
    Simulates (η := η) C C.Cells (cell a) (cell (C.addr a)) := by
  refine .get fun s s' hs => ?_
  rw [hs.heap.cells ha]
  cases hc : s.heap.get? a with
  | none => exact fault_simulates _ _
  | some c =>
    obtain ⟨hnext, hprev⟩ := hs.heap.links ha hc
    exact .pure ⟨hnext, hprev, rfl⟩

theorem change_simulates {g : Cell η α → Cell η α} {g' : Cell η β → Cell η β}
    (hg : ∀ c, C.known c.next → C.known c.prev →
      C.known (g c).next ∧ C.known (g c).prev ∧ g' (C.cell c) = C.cell (g c))
    (ha : C.known a) : Simulates C Eq (change a g) (change (C.addr a) g') :=
  (cell_simulates ha).bind fun _ _ _ => .modify fun _ _ hs => .withHeap hs (hs.heap.update hg ha)

theorem nextOf_simulates (ha : C.known a) :
    Simulates (η := η) C C.Addrs (nextOf a) (nextOf (C.addr a)) :=
  (cell_simulates ha).bind fun _ _ ⟨hnext, _, hc⟩ => .pure ⟨hnext, congrArg Cell.next hc⟩

theorem prevOf_simulates (ha : C.known a) :
    Simulates (η := η) C C.Addrs (prevOf a) (prevOf (C.addr a)) :=
  (cell_simulates ha).bind fun _ _ ⟨_, hprev, hc⟩ => .pure ⟨hprev, congrArg Cell.prev hc⟩

theorem setNext_simulates (ha : C.known a) (hb : C.known b) :
    Simulates (η := η) C Eq (setNext a b) (setNext (C.addr a) (C.addr b)) :=
  change_simulates (fun _ _ hprev => ⟨hb, hprev, by rfl⟩) ha

theorem setPrev_simulates (ha : C.known a) (hb : C.known b) :
    Simulates (η := η) C Eq (setPrev a b) (setPrev (C.addr a) (C.addr b)) :=
  change_simulates (fun _ hnext _ => ⟨hnext, hb, by rfl⟩) ha

theorem expectKind_simulates (ha : C.known a) (kind : BlockKind) :
    Simulates (η := η) C Eq (expectKind a kind) (expectKind (C.addr a) kind) := by
  refine (cell_simulates ha).bind fun c _ ⟨_, _, hc⟩ => ?_
  subst hc
  rw [show (C.cell c).content = c.content.map C.value from rfl, Content.kind_map]
  exact .ite .rfl (fun _ => .pure rfl) fun _ => fault_simulates _ _

theorem record_simulates (hl : C.known l) :
    Simulates (η := η) C Eq (record l) (record (C.addr l)) := by
  refine (cell_simulates hl).bind fun c _ ⟨_, _, hc⟩ => ?_
  subst hc
  rcases c with ⟨next, prev, r | v⟩
  · exact .pure rfl
  · exact fault_simulates _ _

theorem setRecord_simulates (hl : C.known l) (r : Record η) :
    Simulates C Eq (setRecord l r) (setRecord (C.addr l) r) :=
  (expectKind_simulates hl .header).bind fun _ _ _ =>
    change_simulates (fun _ hnext hprev => ⟨hnext, hprev, by rfl⟩) hl

theorem value_simulates (ha : C.known a) :
    Simulates (η := η) C (Along C.value) (value a) (value (C.addr a)) := by
  refine (cell_simulates ha).bind fun c _ ⟨_, _, hc⟩ => ?_
  subst hc
  rcases c with ⟨next, prev, r | _ | v⟩
  · exact fault_simulates _ _
  · exact fault_simulates _ _
  · exact .pure rfl

theorem write_simulates (ha : C.known a) (v : α) :
    Simulates (η := η) C Eq (write a v) (write (C.addr a) (C.value v)) :=
  (expectKind_simulates ha .node).bind fun _ _ _ =>
    change_simulates (fun _ hnext hprev => ⟨hnext, hprev, by rfl⟩) ha

theorem allocate_simulates (source : Allocator) (k : Content η α) :
    Simulates C C.Addrs (allocate source k) (allocate source (k.map C.value)) := by
  intro s s' hs
  have hsize := hs.heap.addr_size
  rw [allocate_run, allocate_run, hs.serves, Content.kind_map, hs.budgetsAfter]
  by_cases hserves : s.serves source
  · rw [if_pos hserves, if_pos hserves]
    refine .ok ⟨C.known_of_le hs.heap.fresh, hsize.symm⟩ ?_
    have hserved : Advance C s s' { s with budgets := s.budgetsAfter source } _ :=
      .withBudgets hs rfl
    have hpush := hserved.trans (.withHeap hserved.coupled (hs.heap.push k))
    have hlog := hpush.logging (.served source s.heap.size k.kind)
    rw [Coupling.event, Event.map, Event.rename, hsize] at hlog
    exact hlog
  · rw [if_neg hserves, if_neg hserves]
    exact .error (.log hs (.refused source k.kind))

theorem release_simulates (target : Allocator) (ha : C.known a) (kind : BlockKind) :
    Simulates (η := η) C Eq (release target a kind) (release target (C.addr a) kind) :=
  (expectKind_simulates ha kind).bind fun _ _ _ => .modify fun _ _ hs =>
    (Advance.withHeap hs (hs.heap.erase a)).logging (.released target a kind)

end

/-! ## Calls of hooks -/

theorem noteCall_simulates (e : Event η α) {x : σ} {y : τ} (hxy : C.state x y) :
    Simulates C Eq (noteCall e x) (noteCall (C.event e) y) :=
  .modify fun _ _ hs => (Advance.withHookState hs hxy).logging e

theorem settle_simulates {g : γ → δ} {reply : Reply γ} {reply' : Reply δ}
    (hreply : reply' = reply.map g) {Q : γ → δ → Prop} (hg : ∀ b, Q b (g b)) (kind : HookKind) :
    Simulates (η := η) C Q (reply.settle kind) (reply'.settle kind) := by
  subst hreply
  cases reply with
  | returns b => exact .pure (hg b)
  | panics => exact .throw _ _

section
variable {B : Behaviour η σ α} {B' : Behaviour η τ β} (hB : B.Image C.value C.state B')
include hB

theorem callDup_simulates (h : η) (v : α) :
    Simulates C (Along (Option.map C.value)) (callDup B h v) (callDup B' h (C.value v)) := by
  refine .get fun s s' hs => ?_
  obtain ⟨hreply, hstate⟩ := hB.dup hs.hookState h v
  simp only [hreply]
  exact (noteCall_simulates (.dup h v _) hstate).bind fun _ _ _ =>
    settle_simulates (Q := Along (Option.map C.value)) rfl (fun _ => rfl) .dup

theorem callFree_simulates (h : η) (v : α) :
    Simulates C Eq (callFree B h v) (callFree B' h (C.value v)) := by
  refine .get fun s s' hs => ?_
  obtain ⟨hreply, hstate⟩ := hB.free hs.hookState h v
  simp only [hreply]
  exact (noteCall_simulates (.free h v _) hstate).bind fun _ _ _ =>
    settle_simulates (Reply.map_id _).symm (fun _ => rfl) .free

theorem callFreeUnwinding_simulates (h : η) (v : α) :
    Simulates C Eq (callFreeUnwinding B h v) (callFreeUnwinding B' h (C.value v)) :=
  .get fun _ _ hs =>
    noteCall_simulates (.free h v (.returns ())) (hB.freeUnwinding hs.hookState h v)

theorem callMatching_simulates (h : η) (v key : α) :
    Simulates C Eq (callMatching B h v key)
      (callMatching B' h (C.value v) (C.value key)) := by
  refine .get fun s s' hs => ?_
  obtain ⟨hreply, hstate⟩ := hB.matching hs.hookState h v key
  simp only [hreply]
  exact (noteCall_simulates (.matching h v key _) hstate).bind fun _ _ _ =>
    settle_simulates (Reply.map_id _).symm (fun _ => rfl) .matching

theorem discard_simulates (course : Course) (hooks : Hooks η) (v : α) :
    Simulates C Eq (discard B course hooks v) (discard B' course hooks (C.value v)) := by
  unfold discard
  rcases hooks.free with _ | h
  · exact emit_simulates (.dropped v)
  · cases course with
    | ordinary => exact callFree_simulates hB h v
    | unwinding => exact callFreeUnwinding_simulates hB h v

end

/-! ## Links -/

section
variable {a b l m prev next node : Addr}

theorem connect_simulates (ha : C.known a) (hb : C.known b) :
    Simulates (η := η) C Eq (connect a b) (connect (C.addr a) (C.addr b)) :=
  (setNext_simulates ha hb).bind fun _ _ _ => setPrev_simulates hb ha

theorem expectAdjacent_simulates (ha : C.known a) (hb : C.known b) :
    Simulates (η := η) C Eq (expectAdjacent a b)
      (expectAdjacent (C.addr a) (C.addr b)) := by
  have hprev : Simulates (η := η) C Eq
      (do unless (← prevOf b) = a do fault .notAdjacent)
      (do unless (← prevOf (C.addr b)) = C.addr a do fault .notAdjacent) :=
    (prevOf_simulates hb).bind fun _ _ ⟨_, hc⟩ =>
      .ite (hc ▸ C.addr_inj) (fun _ => .pure rfl) fun _ => fault_simulates _ _
  exact (nextOf_simulates ha).bind fun _ _ ⟨_, hc⟩ =>
    .ite (hc ▸ C.addr_inj) (fun _ => hprev) fun _ =>
      (fault_simulates Eq _).bind fun _ _ _ => hprev

theorem lengthen_simulates (hl : C.known l) (n : Nat) :
    Simulates (η := η) C Eq (lengthen l n) (lengthen (C.addr l) n) := by
  refine (record_simulates hl).bind fun r _ hr => ?_
  subst hr
  exact .ite .rfl (fun _ => setRecord_simulates hl _) fun _ => fault_simulates _ _

theorem shorten_simulates (hl : C.known l) :
    Simulates (η := η) C Eq (shorten l) (shorten (C.addr l)) := by
  refine (record_simulates hl).bind fun r _ hr => ?_
  subst hr
  exact .ite .rfl (fun _ => setRecord_simulates hl _) fun _ => fault_simulates _ _

theorem attach_simulates (hl : C.known l) (hprev : C.known prev) (hnext : C.known next)
    (hnode : C.known node) : Simulates (η := η) C Eq (attach l prev next node)
      (attach (C.addr l) (C.addr prev) (C.addr next) (C.addr node)) :=
  (expectAdjacent_simulates hprev hnext).bind fun _ _ _ =>
  (connect_simulates hprev hnode).bind fun _ _ _ =>
  (connect_simulates hnode hnext).bind fun _ _ _ => (lengthen_simulates hl 1).bind fun _ _ _ =>
  (expectAdjacent_simulates hprev hnode).bind fun _ _ _ => expectAdjacent_simulates hnode hnext

theorem unlink_simulates (hl : C.known l) (hnode : C.known node) :
    Simulates (η := η) C Eq (unlink l node) (unlink (C.addr l) (C.addr node)) := by
  refine (shorten_simulates hl).bind fun _ _ _ =>
    (expectKind_simulates hnode .node).bind fun _ _ _ =>
    (cell_simulates hnode).bind fun c _ ⟨hnext, hprev, hc⟩ => ?_
  subst hc
  exact connect_simulates hprev hnext

theorem detach_simulates (hl : C.known l) (hnode : C.known node) :
    Simulates (η := η) C (Along C.value) (detach l node) (detach (C.addr l) (C.addr node)) := by
  refine (unlink_simulates hl hnode).bind fun _ _ _ => (value_simulates hnode).bind fun v _ hv =>
    (record_simulates hl).bind fun r _ hr => ?_
  subst hr
  exact (release_simulates _ hnode .node).bind fun _ _ _ => .pure hv

/-- The ends of a chain are known. -/
def Coupling.Chains (C : Coupling σ τ α β) (c c' : Option Chain) : Prop :=
  (∀ x ∈ c, C.known x.front ∧ C.known x.back) ∧
    c' = c.map fun x => ⟨C.addr x.front, C.addr x.back, x.length⟩

theorem detachAll_simulates (hl : C.known l) :
    Simulates (η := η) C C.Chains (detachAll l) (detachAll (C.addr l)) := by
  refine (nextOf_simulates hl).bind fun front _ ⟨hfront, he⟩ => ?_
  subst he
  refine .ite C.addr_inj (fun _ => .pure ⟨nofun, rfl⟩) fun _ => ?_
  refine (prevOf_simulates hl).bind fun back _ ⟨hback, he⟩ =>
    (record_simulates hl).bind fun r _ hr => ?_
  subst he hr
  refine (setRecord_simulates hl _).bind fun _ _ _ => (connect_simulates hl hl).bind fun _ _ _ =>
    .pure ⟨fun x hx => ?_, rfl⟩
  obtain rfl := Option.some.inj hx
  exact ⟨hfront, hback⟩

theorem attachChain_simulates {chain : Chain} (hl : C.known l) (hprev : C.known prev)
    (hnext : C.known next) (hfront : C.known chain.front) (hback : C.known chain.back) :
    Simulates (η := η) C Eq (attachChain l prev next chain)
      (attachChain (C.addr l) (C.addr prev) (C.addr next)
        ⟨C.addr chain.front, C.addr chain.back, chain.length⟩) :=
  (expectAdjacent_simulates hprev hnext).bind fun _ _ _ =>
  (connect_simulates hprev hfront).bind fun _ _ _ =>
  (connect_simulates hback hnext).bind fun _ _ _ =>
  (lengthen_simulates hl chain.length).bind fun _ _ _ =>
  (expectAdjacent_simulates hprev hfront).bind fun _ _ _ => expectAdjacent_simulates hback hnext

/-! ## Reading and editing -/

theorem head_simulates (hl : C.known l) :
    Simulates (η := η) C C.Nodes (head l) (head (C.addr l)) :=
  (nextOf_simulates hl).bind fun _ _ ⟨ha, he⟩ => .pure (he ▸ C.nodes_handle ha)

theorem tail_simulates (hl : C.known l) :
    Simulates (η := η) C C.Nodes (tail l) (tail (C.addr l)) :=
  (prevOf_simulates hl).bind fun _ _ ⟨ha, he⟩ => .pure (he ▸ C.nodes_handle ha)

theorem nextNode_simulates (l : Addr) (hnode : C.known node) :
    Simulates (η := η) C C.Nodes (nextNode l node) (nextNode (C.addr l) (C.addr node)) :=
  (nextOf_simulates hnode).bind fun _ _ ⟨ha, he⟩ => .pure (he ▸ C.nodes_handle ha)

theorem prevNode_simulates (l : Addr) (hnode : C.known node) :
    Simulates (η := η) C C.Nodes (prevNode l node) (prevNode (C.addr l) (C.addr node)) :=
  (prevOf_simulates hnode).bind fun _ _ ⟨ha, he⟩ => .pure (he ▸ C.nodes_handle ha)

theorem length_simulates (hl : C.known l) :
    Simulates (η := η) C Eq (length l) (length (C.addr l)) :=
  (record_simulates hl).bind fun _ _ hr => .pure (congrArg Record.length hr)

theorem isEmpty_simulates (hl : C.known l) :
    Simulates (η := η) C Eq (isEmpty l) (isEmpty (C.addr l)) :=
  (nextOf_simulates hl).bind fun _ _ ⟨_, he⟩ => .pure (by simp [he, C.addr_inj])

theorem hooks_simulates (hl : C.known l) :
    Simulates (η := η) C Eq (hooks l) (hooks (C.addr l)) :=
  (record_simulates hl).bind fun _ _ hr => .pure (congrArg Record.hooks hr)

theorem allocator_simulates (hl : C.known l) :
    Simulates (η := η) C Eq (allocator l) (allocator (C.addr l)) :=
  (record_simulates hl).bind fun _ _ hr => .pure (congrArg Record.allocator hr)

theorem valueAt_simulates {node node' : Option Addr} (hnode : C.Nodes node node') :
    Simulates (η := η) C (Along (Option.map C.value)) (valueAt node) (valueAt node') := by
  obtain ⟨hknown, rfl⟩ := hnode
  cases node with
  | none => exact .pure rfl
  | some a => exact (value_simulates (hknown a rfl)).map fun _ _ hv => congrArg some hv

theorem front_simulates (hl : C.known l) :
    Simulates (η := η) C (Along (Option.map C.value)) (front l) (front (C.addr l)) :=
  (head_simulates hl).bind fun _ _ hnode => valueAt_simulates hnode

theorem back_simulates (hl : C.known l) :
    Simulates (η := η) C (Along (Option.map C.value)) (back l) (back (C.addr l)) :=
  (tail_simulates hl).bind fun _ _ hnode => valueAt_simulates hnode

theorem setHooks_simulates (hl : C.known l) (hs : Hooks η) :
    Simulates C Eq (setHooks l hs) (setHooks (C.addr l) hs) := by
  refine (record_simulates hl).bind fun r _ hr => ?_
  subst hr
  exact setRecord_simulates hl _

theorem installHook_simulates (hl : C.known l) (kind : HookKind) (h : η) :
    Simulates C Eq (installHook l kind h) (installHook (C.addr l) kind h) := by
  refine (hooks_simulates hl).bind fun hs _ he => ?_
  subst he
  exact setHooks_simulates hl _

theorem create_simulates (source : Allocator) :
    Simulates (η := η) C C.Addrs (create source) (create source) :=
  allocate_simulates source (.header _)

theorem newNode_simulates (hl : C.known l) (v : α) :
    Simulates (η := η) C C.Addrs (newNode l v) (newNode (C.addr l) (C.value v)) := by
  refine (record_simulates hl).bind fun r _ hr => ?_
  subst hr
  have hnode : Simulates (η := η) C C.Addrs
      (tryCatch (allocate r.allocator (.node none)) fun why => do emit (.dropped v); throw why)
      (tryCatch (allocate r.allocator (.node none)) fun why => do
        emit (.dropped (C.value v)); throw why) :=
    (allocate_simulates r.allocator (.node none)).tryCatch fun why =>
      (emit_simulates (.dropped v)).bind fun _ _ _ => .throw _ why
  refine hnode.bind fun node _ ⟨hknown, he⟩ => ?_
  subst he
  exact (write_simulates hknown v).bind fun _ _ _ => .pure ⟨hknown, rfl⟩

theorem addHead_simulates (hl : C.known l) (v : α) :
    Simulates (η := η) C C.Addrs (addHead l v) (addHead (C.addr l) (C.value v)) := by
  refine (newNode_simulates hl v).bind fun node _ ⟨hnode, he⟩ =>
    (nextOf_simulates hl).bind fun next _ ⟨hnext, he'⟩ => ?_
  subst he he'
  exact (attach_simulates hl hl hnext hnode).bind fun _ _ _ => .pure ⟨hnode, rfl⟩

theorem addTail_simulates (hl : C.known l) (v : α) :
    Simulates (η := η) C C.Addrs (addTail l v) (addTail (C.addr l) (C.value v)) := by
  refine (newNode_simulates hl v).bind fun node _ ⟨hnode, he⟩ =>
    (prevOf_simulates hl).bind fun prev _ ⟨hprev, he'⟩ => ?_
  subst he he'
  exact (attach_simulates hl hprev hl hnode).bind fun _ _ _ => .pure ⟨hnode, rfl⟩

theorem insert_simulates {anchor : Addr} (hl : C.known l) (ha : C.known anchor) (v : α)
    (after : Bool) : Simulates (η := η) C C.Addrs (insert l anchor v after)
      (insert (C.addr l) (C.addr anchor) (C.value v) after) := by
  refine (newNode_simulates hl v).bind fun node _ ⟨hnode, he⟩ => ?_
  subst he
  refine .ite .rfl (fun _ => ?_) fun _ => ?_
  · refine (nextOf_simulates ha).bind fun next _ ⟨hnext, he⟩ => ?_
    subst he
    exact (attach_simulates hl ha hnext hnode).bind fun _ _ _ => .pure ⟨hnode, rfl⟩
  · refine (prevOf_simulates ha).bind fun prev _ ⟨hprev, he⟩ => ?_
    subst he
    exact (attach_simulates hl hprev ha hnode).bind fun _ _ _ => .pure ⟨hnode, rfl⟩

theorem exchange_simulates (hnode : C.known node) (v : α) :
    Simulates (η := η) C (Along C.value) (exchange node v)
      (exchange (C.addr node) (C.value v)) :=
  (value_simulates hnode).bind fun _ _ hv => (write_simulates hnode v).bind fun _ _ _ => .pure hv

theorem exchangeAt_simulates (v : α) {node node' : Option Addr} (hnode : C.Nodes node node') :
    Simulates (η := η) C (Along (Option.map C.value)) (exchangeAt v node)
      (exchangeAt (C.value v) node') := by
  obtain ⟨hknown, rfl⟩ := hnode
  cases node with
  | none => exact .pure rfl
  | some a => exact (exchange_simulates (hknown a rfl) v).map fun _ _ hv => congrArg some hv

theorem setFront_simulates (hl : C.known l) (v : α) :
    Simulates (η := η) C (Along (Option.map C.value)) (setFront l v)
      (setFront (C.addr l) (C.value v)) :=
  (head_simulates hl).bind fun _ _ hnode => exchangeAt_simulates v hnode

theorem setBack_simulates (hl : C.known l) (v : α) :
    Simulates (η := η) C (Along (Option.map C.value)) (setBack l v)
      (setBack (C.addr l) (C.value v)) :=
  (tail_simulates hl).bind fun _ _ hnode => exchangeAt_simulates v hnode

theorem popFront_simulates (hl : C.known l) :
    Simulates (η := η) C (Along (Option.map C.value)) (popFront l) (popFront (C.addr l)) := by
  refine (isEmpty_simulates hl).bind fun empty _ he => ?_
  subst he
  refine .ite Iff.rfl (fun _ => .pure rfl) fun _ => ?_
  refine (nextOf_simulates hl).bind fun first _ ⟨hfirst, he⟩ => ?_
  subst he
  exact (detach_simulates hl hfirst).map fun _ _ hv => congrArg some hv

theorem popBack_simulates (hl : C.known l) :
    Simulates (η := η) C (Along (Option.map C.value)) (popBack l) (popBack (C.addr l)) := by
  refine (isEmpty_simulates hl).bind fun empty _ he => ?_
  subst he
  refine .ite Iff.rfl (fun _ => .pure rfl) fun _ => ?_
  refine (prevOf_simulates hl).bind fun last _ ⟨hlast, he⟩ => ?_
  subst he
  exact (detach_simulates hl hlast).map fun _ _ hv => congrArg some hv

theorem pop_simulates (hl : C.known l) (e : End) :
    Simulates (η := η) C (Along (Option.map C.value)) (pop l e) (pop (C.addr l) e) := by
  cases e with
  | front => exact popFront_simulates hl
  | back => exact popBack_simulates hl

theorem extend_simulates (hl : C.known l) (vs : List α) :
    Simulates (η := η) C Eq (extend l vs) (extend (C.addr l) (vs.map C.value)) := by
  induction vs with
  | nil => exact .pure rfl
  | cons v vs ih => exact (addTail_simulates hl v).bind fun _ _ _ => ih

section
variable {B : Behaviour η σ α} {B' : Behaviour η τ β} (hB : B.Image C.value C.state B')
include hB

theorem delete_simulates (hl : C.known l) (hnode : C.known node) :
    Simulates C Eq (delete B l node) (delete B' (C.addr l) (C.addr node)) := by
  refine (detach_simulates hl hnode).bind fun v _ hv =>
    (hooks_simulates hl).bind fun hs _ he => ?_
  subst hv he
  exact discard_simulates hB .ordinary hs v

theorem clearFrom_simulates (course : Course) (l : Addr) (r : Record η) (fuel : Nat)
    (ha : C.known a) : Simulates C Eq (clearFrom B course l r fuel a)
      (clearFrom B' course (C.addr l) r fuel (C.addr a)) := by
  induction fuel generalizing a with
  | zero => exact fault_simulates _ _
  | succ fuel ih =>
    refine .ite C.addr_inj (fun _ => .pure rfl) fun _ =>
      (nextOf_simulates ha).bind fun next _ ⟨hnext, he⟩ =>
      (value_simulates ha).bind fun v _ hv => ?_
    subst he hv
    exact (release_simulates r.allocator ha .node).bind fun _ _ _ =>
      (discard_simulates hB course r.hooks v).bind fun _ _ _ => ih hnext

theorem clear_simulates (course : Course) (hl : C.known l) :
    Simulates C Eq (clear B course l) (clear B' course (C.addr l)) := by
  refine (nextOf_simulates hl).bind fun first _ ⟨hfirst, he⟩ =>
    (record_simulates hl).bind fun r _ hr => ?_
  subst he hr
  refine (setRecord_simulates hl _).bind fun _ _ _ => (connect_simulates hl hl).bind fun _ _ _ =>
    .get fun s s' hs => ?_
  rw [hs.heap.size]
  exact clearFrom_simulates hB course l r s.heap.size hfirst

theorem destroy_simulates (course : Course) (hl : C.known l) :
    Simulates C Eq (destroy B course l) (destroy B' course (C.addr l)) := by
  refine (clear_simulates hB course hl).bind fun _ _ _ =>
    (record_simulates hl).bind fun r _ hr => ?_
  subst hr
  exact release_simulates _ hl .header

end

/-! ## Moving nodes -/

theorem rotate_simulates (hl : C.known l) :
    Simulates (η := η) C Eq (rotate l) (rotate (C.addr l)) := by
  refine (record_simulates hl).bind fun r _ hr => ?_
  subst hr
  refine .ite .rfl (fun _ => .pure rfl) fun _ =>
    (prevOf_simulates hl).bind fun last _ ⟨hlast, he⟩ => ?_
  subst he
  refine (unlink_simulates hl hlast).bind fun _ _ _ =>
    (nextOf_simulates hl).bind fun first _ ⟨hfirst, he⟩ => ?_
  subst he
  exact attach_simulates hl hl hfirst hlast

theorem join_simulates (hl : C.known l) (hm : C.known m) :
    Simulates (η := η) C Eq (join l m) (join (C.addr l) (C.addr m)) := by
  refine (detachAll_simulates hm).bind fun chain _ ⟨hknown, he⟩ => ?_
  subst he
  cases chain with
  | none => exact .pure rfl
  | some chain =>
    obtain ⟨hfront, hback⟩ := hknown chain rfl
    refine (prevOf_simulates hl).bind fun prev _ ⟨hprev, he⟩ => ?_
    subst he
    exact attachChain_simulates hl hprev hl hfront hback

/-! ## Walks -/

theorem follow_simulates (d : Direction) (ha : C.known a) :
    Simulates (η := η) C C.Addrs (d.follow a) (d.follow (C.addr a)) := by
  cases d with
  | forward => exact nextOf_simulates ha
  | backward => exact prevOf_simulates ha

theorem walk_simulates (d : Direction) (links : Nat) (ha : C.known a) :
    Simulates (η := η) C C.Addrs (d.walk links a) (d.walk links (C.addr a)) := by
  induction links generalizing a with
  | zero => exact .pure ⟨ha, rfl⟩
  | succ links ih =>
    refine (follow_simulates d ha).bind fun b _ ⟨hb, he⟩ => ?_
    subst he
    exact ih hb

theorem index_simulates (hl : C.known l) (i : Int) :
    Simulates (η := η) C C.Nodes (index l i) (index (C.addr l) i) := by
  refine (length_simulates hl).bind fun n _ he => ?_
  subst he
  rcases Route.plan n i with e | _ | r
  · exact fault_simulates _ _
  · exact .pure ⟨nofun, rfl⟩
  · have hgo : Simulates (η := η) C C.Addrs (r.go l) (r.go (C.addr l)) := by
      refine (follow_simulates r.direction hl).bind fun b _ ⟨hb, he⟩ => ?_
      subst he
      exact walk_simulates r.direction r.links hb
    exact hgo.bind fun _ _ ⟨ha, he⟩ => .pure (he ▸ C.nodes_handle ha)

/-- The list of a cursor and its link are known. -/
def Coupling.Cursors (C : Coupling σ τ α β) (c c' : Cursor) : Prop :=
  C.known c.header ∧ (∀ a ∈ c.next, C.known a) ∧ c' = c.rename C.addr

theorem seat_simulates (hl : C.known l) (d : Direction) :
    Simulates (η := η) C C.Cursors (Cursor.seat l d) (Cursor.seat (C.addr l) d) := by
  refine (follow_simulates d hl).bind fun a _ ⟨ha, he⟩ => ?_
  subst he
  obtain ⟨hknown, hnode⟩ := C.nodes_handle (l := l) ha
  refine .pure ⟨hl, hknown, ?_⟩
  rw [hnode]
  rfl

theorem step_simulates {c c' : Cursor} (hc : C.Cursors c c') :
    Simulates (η := η) C (fun p p' => C.Nodes p.1 p'.1 ∧ C.Cursors p.2 p'.2) c.step c'.step := by
  obtain ⟨hheader, hnext, rfl⟩ := hc
  unfold Cursor.step
  rcases c with ⟨_ | a, l, d⟩
  · exact .pure ⟨⟨nofun, rfl⟩, hheader, hnext, rfl⟩
  · have ha : C.known a := hnext a rfl
    refine (follow_simulates d ha).bind fun b _ ⟨hb, he⟩ => ?_
    subst he
    obtain ⟨hknown, hnode⟩ := C.nodes_handle (l := l) hb
    refine .pure ⟨⟨hnext, rfl⟩, hheader, hknown, ?_⟩
    show (⟨handle (C.addr l) (C.addr b), C.addr l, d⟩ : Cursor) = _
    rw [hnode]
    rfl

/-- The places of an iterator are known. -/
def Coupling.Iters (C : Coupling σ τ α β) (it it' : Iter) : Prop :=
  C.known it.front ∧ C.known it.back ∧
    it' = ⟨C.addr it.front, C.addr it.back, it.remaining⟩

/-- A value that an iterator yields, and the iterator afterwards. -/
def Coupling.Yields (C : Coupling σ τ α β) (p : Option α × Iter) (p' : Option β × Iter) : Prop :=
  p'.1 = p.1.map C.value ∧ C.Iters p.2 p'.2

theorem iterStart_simulates (hl : C.known l) :
    Simulates (η := η) C C.Iters (Iter.start l) (Iter.start (C.addr l)) := by
  refine (nextOf_simulates hl).bind fun front _ ⟨hfront, he⟩ =>
    (prevOf_simulates hl).bind fun back _ ⟨hback, he'⟩ =>
    (length_simulates hl).bind fun n _ hn => .pure ⟨hfront, hback, ?_⟩
  subst he he' hn
  rfl

theorem next_simulates {it it' : Iter} (hit : C.Iters it it') :
    Simulates (η := η) C C.Yields it.next it'.next := by
  obtain ⟨hfront, hback, rfl⟩ := hit
  refine .ite .rfl (fun _ => .pure ⟨rfl, hfront, hback, rfl⟩) fun _ =>
    (nextOf_simulates hfront).bind fun link _ ⟨hlink, he⟩ =>
    (value_simulates hfront).bind fun v _ hv => ?_
  subst he hv
  exact .pure ⟨rfl, hlink, hback, rfl⟩

theorem nextBack_simulates {it it' : Iter} (hit : C.Iters it it') :
    Simulates (η := η) C C.Yields it.nextBack it'.nextBack := by
  obtain ⟨hfront, hback, rfl⟩ := hit
  refine .ite .rfl (fun _ => .pure ⟨rfl, hfront, hback, rfl⟩) fun _ =>
    (prevOf_simulates hback).bind fun link _ ⟨hlink, he⟩ =>
    (value_simulates hback).bind fun v _ hv => ?_
  subst he hv
  exact .pure ⟨rfl, hfront, hlink, rfl⟩

theorem take_simulates {it it' : Iter} (hit : C.Iters it it') (e : End) :
    Simulates (η := η) C C.Yields (it.take e) (it'.take e) := by
  cases e with
  | front => exact next_simulates hit
  | back => exact nextBack_simulates hit

theorem along_simulates (word : List End) {it it' : Iter} (hit : C.Iters it it') :
    Simulates (η := η) C (Along (List.map (Taken.map C.value))) (it.along word) (it'.along word) := by
  induction word generalizing it it' with
  | nil => exact .pure rfl
  | cons e word ih =>
    refine (take_simulates hit e).bind fun p p' ⟨hv, hit⟩ => (ih hit).bind fun rest _ hrest => ?_
    refine .pure ?_
    obtain ⟨-, -, hremaining⟩ := hit
    rw [hv, hrest, hremaining]
    rfl

section
variable {B : Behaviour η σ α} {B' : Behaviour η τ β} (hB : B.Image C.value C.state B')
include hB

theorem searchFrom_simulates (matcher : η) (key : α) (fuel : Nat) {c c' : Cursor}
    (hc : C.Cursors c c') : Simulates C C.Nodes (searchFrom B matcher key fuel c)
      (searchFrom B' matcher (C.value key) fuel c') := by
  induction fuel generalizing c c' with
  | zero => exact fault_simulates _ _
  | succ fuel ih =>
    refine (step_simulates hc).bind fun ⟨node, c⟩ ⟨node', c'⟩ ⟨⟨hknown, he⟩, hc⟩ => ?_
    dsimp only at hknown he hc
    subst he
    cases node with
    | none => exact .pure ⟨nofun, rfl⟩
    | some a =>
      refine (value_simulates (hknown a rfl)).bind fun v _ hv => ?_
      subst hv
      refine (callMatching_simulates hB matcher v key).bind fun b _ hb => ?_
      subst hb
      exact .ite .rfl (fun _ => .pure ⟨hknown, rfl⟩) fun _ => ih hc

theorem search_simulates (hl : C.known l) (key : α) (fallback : η) :
    Simulates C C.Nodes (search B l key fallback)
      (search B' (C.addr l) (C.value key) fallback) := by
  refine (hooks_simulates hl).bind fun hs _ he => .get fun s s' hcoupled => ?_
  subst he
  rw [hcoupled.heap.size]
  exact (seat_simulates hl .forward).bind fun c c' hc =>
    searchFrom_simulates hB _ key s.heap.size hc

theorem equalFrom_simulates (rel : η) (fuel : Nat) {left left' right right' : Iter}
    (hleft : C.Iters left left') (hright : C.Iters right right') :
    Simulates C Eq (equalFrom B rel fuel left right)
      (equalFrom B' rel fuel left' right') := by
  induction fuel generalizing left left' right right' with
  | zero => exact fault_simulates _ _
  | succ fuel ih =>
    refine (next_simulates hleft).bind fun ⟨v, left⟩ ⟨v', left'⟩ ⟨hv, hleft⟩ => ?_
    dsimp only at hv hleft
    subst hv
    cases v with
    | none =>
      refine (next_simulates hright).bind fun q q' ⟨hq, _⟩ => .pure ?_
      simp [hq]
    | some v =>
      refine (next_simulates hright).bind fun ⟨w, right⟩ ⟨w', right'⟩ ⟨hw, hright⟩ => ?_
      dsimp only at hw hright
      subst hw
      cases w with
      | none => exact .pure rfl
      | some w =>
        refine (callMatching_simulates hB rel v w).bind fun b _ hb => ?_
        subst hb
        exact .ite .rfl (fun _ => ih hleft hright) fun _ => .pure rfl

theorem equal_simulates (hl : C.known l) (hm : C.known m) (rel : η) :
    Simulates C Eq (equal B l m rel) (equal B' (C.addr l) (C.addr m) rel) := by
  refine (length_simulates hl).bind fun n _ hn => (length_simulates hm).bind fun n' _ hn' => ?_
  subst hn hn'
  refine .ite .rfl (fun _ => .pure rfl) fun _ => (iterStart_simulates hl).bind fun left left' hleft =>
    (iterStart_simulates hm).bind fun right right' hright => ?_
  have hremaining : left'.remaining = left.remaining := by rw [hleft.2.2]
  rw [hremaining]
  exact equalFrom_simulates hB rel (left.remaining + 1) hleft hright

/-! ## Copies -/

theorem copyValue_simulates {copy : Addr} (dup : η) (hcopy : C.known copy) (v : α) :
    Simulates C Eq (copyValue B dup copy v)
      (copyValue B' dup (C.addr copy) (C.value v)) := by
  refine (record_simulates hcopy).bind fun r _ hr => ?_
  subst hr
  refine (allocate_simulates r.allocator (.node none)).bind fun node _ ⟨hnode, he⟩ =>
    (callDup_simulates hB dup v).bind fun w _ hw => ?_
  subst he hw
  cases w with
  | some w =>
    refine (write_simulates hnode w).bind fun _ _ _ =>
      (prevOf_simulates hcopy).bind fun last _ ⟨hlast, he⟩ => ?_
    subst he
    exact attach_simulates hcopy hlast hcopy hnode
  | none => exact (release_simulates r.allocator hnode .node).bind fun _ _ _ => .throw _ _

theorem copyValues_simulates {copy : Addr} (dup : η) (hcopy : C.known copy) (fuel : Nat)
    {it it' : Iter} (hit : C.Iters it it') : Simulates C Eq (copyValues B dup copy fuel it)
      (copyValues B' dup (C.addr copy) fuel it') := by
  induction fuel generalizing it it' with
  | zero => exact fault_simulates _ _
  | succ fuel ih =>
    refine (next_simulates hit).bind fun ⟨v, it⟩ ⟨v', it'⟩ ⟨hv, hit⟩ => ?_
    dsimp only at hv hit
    subst hv
    cases v with
    | none => exact .pure rfl
    | some v => exact (copyValue_simulates hB dup hcopy v).bind fun _ _ _ => ih hit

theorem duplicate_simulates (hl : C.known l) (fallback : η) :
    Simulates C C.Addrs (duplicate B l fallback) (duplicate B' (C.addr l) fallback) := by
  refine (record_simulates hl).bind fun source _ hr => ?_
  subst hr
  refine (create_simulates source.allocator).bind fun copy _ ⟨hcopy, he⟩ => ?_
  subst he
  refine (setHooks_simulates hcopy source.hooks).bind fun _ _ _ => ?_
  refine Simulates.bind (Q := Eq) (Simulates.tryCatch ?_ fun why => ?_) fun _ _ _ =>
    .pure ⟨hcopy, rfl⟩
  · refine (iterStart_simulates hl).bind fun it it' hit => ?_
    have hremaining : it'.remaining = it.remaining := by rw [hit.2.2]
    rw [hremaining]
    exact copyValues_simulates hB _ hcopy (it.remaining + 1) hit
  · exact (destroy_simulates hB why.course hcopy).bind fun _ _ _ => .throw _ why

end

end

end RingList
