import RingList.Proofs.Access
import RingList.Proofs.Relink

/-!
# Destroying values

Destroying the nodes of a list gives each node's block back and then discards its value. What
happens is a function of the hooks and their state: `teardown` gives the events, the state that
the hooks are left in and, if a hook panics, the entries behind the one that it panicked at. Those
are lost.

* `delete_ends`: one node is destroyed.
* `clear_ends`: all nodes of a list are destroyed. The list is empty afterwards in any case.
* `destroy_ends`: a list is destroyed with its header, which is lost as well if a hook panics.
-/

set_option autoImplicit false

namespace RingList

variable {η σ α β : Type} {B : Behaviour η σ α} {course : Course} {s : Store η σ α}
  {v : View η σ α} {l : Addr} {k : Strip η α} {rest : List (Addr × Strip η α)}

/-! ## One value -/

/-- How a value is discarded: the event, whether a hook panics, and the state of the hooks then. -/
structure Discard (η σ α : Type) where
  event : Event η α
  reply : Reply Unit
  hookState : σ

def discarding (B : Behaviour η σ α) (course : Course) (hooks : Hooks η) (σ₀ : σ) (x : α) :
    Discard η σ α :=
  match hooks.free, course with
  | none, _ => ⟨.dropped x, .returns (), σ₀⟩
  | some h, .ordinary => ⟨.free h x (B.free h σ₀ x).1, (B.free h σ₀ x).1, (B.free h σ₀ x).2⟩
  | some h, .unwinding => ⟨.free h x (.returns ()), .returns (), B.freeUnwinding h σ₀ x⟩

/-- The view after events and with the state that the hooks are in then. -/
def View.heeding (v : View η σ α) (evs : List (Event η α)) (hookState : σ) : View η σ α :=
  { v with hookState, log := v.log ++ evs }

@[simp] theorem View.heeding_lists (v : View η σ α) (evs : List (Event η α)) (σ' : σ) :
    (v.heeding evs σ').lists = v.lists := rfl

@[simp] theorem View.heeding_fresh (v : View η σ α) (evs : List (Event η α)) (σ' : σ) :
    (v.heeding evs σ').fresh = v.fresh := rfl

@[simp] theorem View.heeding_log (v : View η σ α) (evs : List (Event η α)) (σ' : σ) :
    (v.heeding evs σ').log = v.log ++ evs := rfl

theorem View.note_heeding (v : View η σ α) (evs evs' : List (Event η α)) (σ' : σ) :
    (v.note evs).heeding evs' σ' = v.heeding (evs ++ evs') σ' := by
  simp [heeding]

theorem View.heeding_heeding (v : View η σ α) (evs evs' : List (Event η α)) (σ' σ'' : σ) :
    (v.heeding evs σ').heeding evs' σ'' = v.heeding (evs ++ evs') σ'' := by
  simp [heeding]

/-- Why an action stops whose hook replied so, if it does. -/
def Reply.stop (kind : HookKind) : Reply β → Option Stop
  | .returns _ => none
  | .panics => some (.panicked kind)

/-- An action without a result ends, possibly by a stop. -/
def ending : Option Stop → Store η σ α → EStateM.Result Stop (Store η σ α) Unit
  | none, s => .ok () s
  | some e, s => .error e s

/-- From every store that shows `v` the action ends so and leaves a store that shows `v'`. -/
def Ends (act : Action η σ α Unit) (v : View η σ α) (stop : Option Stop) (v' : View η σ α) : Prop :=
  ∀ s, s.Shows v → ∃ s', act s = ending stop s' ∧ s'.Shows v'

theorem Yields.bind_ends {x : Action η σ α β} {f : β → Action η σ α Unit} {v v' v'' : View η σ α}
    {b : β} {stop : Option Stop} (hx : Yields x v b v') (hf : Ends (f b) v' stop v'') :
    Ends (x >>= f) v stop v'' := by
  intro s hs
  obtain ⟨s', hx, hs'⟩ := hx s hs
  rw [bind_ok hx]
  exact hf s' hs'

/-- A call of a hook leaves the heap alone. -/
theorem Store.Shows.noteCall (hs : s.Shows v) (e : Event η α) (σ' : σ) :
    ({ s with hookState := σ' }.log e : Store η σ α).Shows (v.heeding [e] σ') :=
  ⟨hs.lists, hs.fresh, hs.budgets, rfl, by simp [Store.log, View.heeding, hs.log]⟩

theorem callFree_run (B : Behaviour η σ α) (h : η) (x : α) (s : Store η σ α) :
    callFree B h x s = ending ((B.free h s.hookState x).1.stop .free)
      ({ s with hookState := (B.free h s.hookState x).2 }.log
        (.free h x (B.free h s.hookState x).1)) := by
  unfold callFree
  cases hr : B.free h s.hookState x with
  | mk reply σ' => cases reply <;> simp [run_bind, noteCall, hr, Reply.settle, Reply.stop, ending]

theorem callFree_ends (B : Behaviour η σ α) (h : η) (x : α) (v : View η σ α) :
    Ends (callFree B h x) v ((B.free h v.hookState x).1.stop .free)
      (v.heeding [.free h x (B.free h v.hookState x).1] (B.free h v.hookState x).2) := by
  intro s hs
  rw [← hs.hookState]
  exact ⟨_, callFree_run B h x s, hs.noteCall _ _⟩

theorem discard_run (B : Behaviour η σ α) (course : Course) (hooks : Hooks η) (x : α)
    (s : Store η σ α) :
    discard B course hooks x s =
      ending ((discarding B course hooks s.hookState x).reply.stop .free)
        ({ s with hookState := (discarding B course hooks s.hookState x).hookState }.log
          (discarding B course hooks s.hookState x).event) := by
  unfold discard discarding
  cases hooks.free with
  | none => rfl
  | some h =>
    cases course with
    | ordinary => exact callFree_run B h x s
    | unwinding => rfl

theorem discard_shows (B : Behaviour η σ α) (course : Course) (hooks : Hooks η) (x : α)
    (hs : s.Shows v) :
    ∃ s', discard B course hooks x s =
        ending ((discarding B course hooks v.hookState x).reply.stop .free) s' ∧
      s'.Shows (v.heeding [(discarding B course hooks v.hookState x).event]
        (discarding B course hooks v.hookState x).hookState) ∧ s'.heap = s.heap := by
  rw [← hs.hookState]
  exact ⟨_, discard_run B course hooks x s, hs.noteCall _ _, rfl⟩

/-- **A value is discarded.** -/
theorem discard_ends (B : Behaviour η σ α) (course : Course) (hooks : Hooks η) (x : α)
    (v : View η σ α) :
    Ends (discard B course hooks x) v
      ((discarding B course hooks v.hookState x).reply.stop .free)
      (v.heeding [(discarding B course hooks v.hookState x).event]
        (discarding B course hooks v.hookState x).hookState) := by
  intro s hs
  obtain ⟨s', hrun, hs', -⟩ := discard_shows B course hooks x hs
  exact ⟨s', hrun, hs'⟩

/-- **A node is destroyed**: its block is given back first, then its value is discarded. -/
theorem delete_ends {xs ys : List (Addr × α)} {a : Addr} {x : α} (hv : v.lists = (l, k) :: rest)
    (hk : k.entries = xs ++ (a, x) :: ys) :
    Ends (delete B l a) v ((discarding B .ordinary k.hooks v.hookState x).reply.stop .free)
      ((v.having ((l, { k with entries := xs ++ ys }) :: rest)).heeding
        [.released k.allocator a .node, (discarding B .ordinary k.hooks v.hookState x).event]
        (discarding B .ordinary k.hooks v.hookState x).hookState) := by
  have hdet := detach_yields xs ys hv hk
  have hhooks := hooks_yields (l := l) (k := { k with entries := xs ++ ys })
    (v := (v.having ((l, { k with entries := xs ++ ys }) :: rest)).note
      [.released k.allocator a .node]) (by simp)
  have hdis := discard_ends B .ordinary k.hooks x
    ((v.having ((l, { k with entries := xs ++ ys }) :: rest)).note [.released k.allocator a .node])
  rw [View.note_heeding] at hdis
  exact hdet.bind_ends (hhooks.bind_ends hdis)

/-! ## All values of a list -/

/-- What the destruction of some nodes does. -/
structure Teardown (η σ α : Type) where
  events : List (Event η α)
  hookState : σ
  /-- The entries that are lost because a hook panicked at the one before them. -/
  left : Option (List (Addr × α))

/-- What the destruction of nodes does, from the front on, when their blocks go back to `source`. -/
def teardown (B : Behaviour η σ α) (course : Course) (hooks : Hooks η) (source : Allocator)
    (σ₀ : σ) : List (Addr × α) → Teardown η σ α
  | [] => ⟨[], σ₀, none⟩
  | (a, x) :: es =>
    let d := discarding B course hooks σ₀ x
    match d.reply with
    | .returns () =>
      let t := teardown B course hooks source d.hookState es
      { t with events := .released source a .node :: d.event :: t.events }
    | .panics => ⟨[.released source a .node, d.event], d.hookState, some es⟩

theorem teardown_of_returns {hooks : Hooks η} {source : Allocator} {σ₀ : σ} {a : Addr} {x : α}
    {es : List (Addr × α)} (hd : (discarding B course hooks σ₀ x).reply = .returns ()) :
    teardown B course hooks source σ₀ ((a, x) :: es) =
      { teardown B course hooks source (discarding B course hooks σ₀ x).hookState es with
        events := .released source a .node :: (discarding B course hooks σ₀ x).event ::
          (teardown B course hooks source (discarding B course hooks σ₀ x).hookState es).events } := by
  simp [teardown, hd]

theorem teardown_of_panics {hooks : Hooks η} {source : Allocator} {σ₀ : σ} {a : Addr} {x : α}
    {es : List (Addr × α)} (hd : (discarding B course hooks σ₀ x).reply = .panics) :
    teardown B course hooks source σ₀ ((a, x) :: es) =
      ⟨[.released source a .node, (discarding B course hooks σ₀ x).event],
        (discarding B course hooks σ₀ x).hookState, some es⟩ := by
  simp [teardown, hd]

/-- Why the destruction stopped, if it did. -/
def Teardown.stop (t : Teardown η σ α) : Option Stop := t.left.map fun _ => .panicked .free

/-- Nodes that lead from one to the next and on to `l`. -/
def Heap.Leads (h : Heap η α) (l : Addr) : List (Addr × α) → Prop
  | [] => True
  | (a, x) :: es =>
    (a ≠ l ∧ h.next? a = some (startOf l es) ∧ h.content? a = some (.node (some x))) ∧ h.Leads l es

theorem Heap.Leads.congr {h h' : Heap η α} : ∀ {es : List (Addr × α)}, h.Leads l es →
    (∀ a ∈ es.map (·.1), h'.get? a = h.get? a) → h'.Leads l es
  | [], _, _ => trivial
  | (a, x) :: es, ⟨⟨hal, hn, hc⟩, hes⟩, hg => by
    have ha := hg a (by simp)
    refine ⟨⟨hal, ?_, ?_⟩, hes.congr fun b hb => hg b (List.mem_cons_of_mem _ hb)⟩
    · unfold Heap.next? at *
      rw [ha, hn]
    · unfold Heap.content? at *
      rw [ha, hc]

/-- The nodes of a ring lead back to its header. -/
theorem Heap.IsRing.leads {h : Heap η α} (hr : h.IsRing l k) :
    ∀ {xs ys : List (Addr × α)}, k.entries = xs ++ ys → h.Leads l ys
  | _, [], _ => trivial
  | xs, (a, x) :: ys, hk => by
    refine ⟨⟨?_, hr.next?_at hk, hr.values (a, x) (by simp [hk])⟩, ?_⟩
    · rintro rfl
      exact hr.header_not_mem (by simp [Strip.nodes, hk])
    · exact hr.leads (show k.entries = (xs ++ [(a, x)]) ++ ys by simp [hk])

/-- **The walk that destroys nodes.** -/
theorem clearFrom_run {r : Record η} : ∀ {es : List (Addr × α)} {fuel : Nat} {s : Store η σ α}
    {v : View η σ α}, s.Shows v → s.heap.Leads l es → (es.map (·.1)).Nodup →
    (∀ a ∈ es.map (·.1), a ∉ v.lists.flatMap Strip.blocks) → es.length < fuel →
    ∃ s', clearFrom B course l r fuel (startOf l es) s =
        ending (teardown B course r.hooks r.allocator v.hookState es).stop s' ∧
      s'.Shows (v.heeding (teardown B course r.hooks r.allocator v.hookState es).events
        (teardown B course r.hooks r.allocator v.hookState es).hookState)
  | [], fuel + 1, s, v, hs, _, _, _, _ => by
    refine ⟨s, ?_, by simpa [teardown, View.heeding] using hs⟩
    simp [clearFrom, startOf, teardown, Teardown.stop, ending]
  | (a, x) :: es, fuel + 1, s, v, hs, ⟨⟨hal, hn, hc⟩, hes⟩, hnd, hout, hf => by
    obtain ⟨hane, hnd⟩ := List.nodup_cons.1 hnd
    have ha := hout a (by simp)
    -- the block is given back
    obtain ⟨s₁, hrel, hs₁, hheap₁⟩ : ∃ s₁, release r.allocator a .node s = .ok () s₁ ∧
        s₁.Shows (v.note [.released r.allocator a .node]) ∧ s₁.heap = s.heap.erase a := by
      refine ⟨_, releaseNode_run r.allocator hc, ?_, rfl⟩
      refine (hs.withHeap (hs.lists.frame fun b hb => ?_) (by simp)).log_event _
      have hba : b ≠ a := fun he => ha (by rwa [he] at hb)
      rw [Heap.get?_erase, if_neg hba]
    have hes₁ : s₁.heap.Leads l es := hes.congr fun b hb => by
      have hba : b ≠ a := fun he => hane (by rwa [he] at hb)
      rw [hheap₁, Heap.get?_erase, if_neg hba]
    have hstep : clearFrom B course l r (fuel + 1) (startOf l ((a, x) :: es)) s =
        (discard B course r.hooks x >>= fun _ => clearFrom B course l r fuel (startOf l es)) s₁ := by
      have hstart : startOf l ((a, x) :: es) = a := rfl
      conv_lhs => unfold clearFrom
      simp only [hstart, hal, ↓reduceIte]
      rw [bind_ok (nextOf_run hn), bind_ok (value_run hc), bind_ok hrel]
    rw [hstep]
    -- its value is discarded
    obtain ⟨s₂, hdis, hs₂, hheap₂⟩ := discard_shows B course r.hooks x hs₁
    rw [View.note_hookState] at hdis hs₂
    rw [View.note_heeding] at hs₂
    cases hd : (discarding B course r.hooks v.hookState x).reply with
    | panics =>
      rw [hd] at hdis
      rw [teardown_of_panics hd]
      exact ⟨s₂, bind_error hdis, hs₂⟩
    | returns u =>
      rw [hd] at hdis
      obtain ⟨s', hrun, hs'⟩ := clearFrom_run hs₂ (hheap₂ ▸ hes₁) hnd
        (fun b hb => hout b (List.mem_cons_of_mem _ hb)) (by simpa using hf)
      rw [View.heeding_heeding] at hs'
      rw [teardown_of_returns hd]
      exact ⟨s', (bind_ok hdis).trans hrun, hs'⟩

/-- **A list is emptied.** It is an empty list afterwards whether or not a hook panics on the way.
-/
theorem clear_ends (hv : v.lists = (l, k) :: rest) :
    Ends (clear B course l) v (teardown B course k.hooks k.allocator v.hookState k.entries).stop
      ((v.having ((l, { k with entries := [] }) :: rest)).heeding
        (teardown B course k.hooks k.allocator v.hookState k.entries).events
        (teardown B course k.hooks k.allocator v.hookState k.entries).hookState) := by
  intro s hs
  have hlists := hs.lists
  rw [hv] at hlists
  have hr := hlists.head
  have hl : (s.heap.get? l).isSome := hr.isSome_of_mem (by simp)
  obtain ⟨h₁, hh₁⟩ :
      ∃ h₁, h₁ = (s.heap.fill l (.header ⟨0, k.hooks, k.allocator⟩)).link l l := ⟨_, rfl⟩
  have hget : ∀ b, b ≠ l → h₁.get? b = s.heap.get? b := fun b hb => by
    rw [hh₁, Heap.get?_link_other _ hb hb, Heap.get?_fill_other _ _ hb]
  have hsize : h₁.size = s.heap.size := by simp [hh₁]
  have hlists₁ : h₁.Shows ((l, { k with entries := [] }) :: rest) :=
    hlists.replaceOne (hh₁ ▸ hr.emptied) (by simp [Strip.nodes])
      fun b _ hb => hget b fun he => hb (by simp [he])
  have hleads : h₁.Leads l k.entries :=
    (hr.leads (List.nil_append _).symm).congr fun a ha => hget a fun he =>
      hr.header_not_mem (he ▸ ha)
  have hout : ∀ a ∈ k.nodes, a ∉ ((l, { k with entries := [] }) :: rest).flatMap Strip.blocks := by
    intro a ha hm
    have hap := hlists.apart
    simp only [List.flatMap_cons, Strip.blocks, Strip.nodes, List.map_nil, List.nodup_append,
      List.mem_append, List.mem_singleton] at hap hm
    rcases hm with rfl | hm
    · exact hr.header_not_mem ha
    · exact hap.2.2 a (List.mem_cons_of_mem _ ha) a hm rfl
  obtain ⟨s', hrun, hs'⟩ := clearFrom_run (B := B) (r := k.record) (hs.withHeap hlists₁ hsize)
    hleads hr.nodup hout (show k.entries.length < h₁.size from hsize ▸ hr.length_lt_size)
  refine ⟨s', ?_, hs'⟩
  unfold clear
  rw [bind_ok (nextOf_run hr.next?_header), bind_ok (record_run hr.header),
    bind_ok (setRecord_run _ hr.header),
    bind_ok (connect_run (by simpa using hl) (by simpa using hl)), bind_ok (run_get _)]
  rw [hh₁] at hrun
  exact hrun

/-- The events when a list is destroyed: its header is given back unless a hook panics before. -/
def Teardown.eventsWithHeader (t : Teardown η σ α) (source : Allocator) (l : Addr) :
    List (Event η α) :=
  match t.left with
  | none => t.events ++ [.released source l .header]
  | some _ => t.events

/-- **A list is destroyed.** -/
theorem destroy_ends (hv : v.lists = (l, k) :: rest) :
    Ends (destroy B course l) v (teardown B course k.hooks k.allocator v.hookState k.entries).stop
      ((v.having rest).heeding
        ((teardown B course k.hooks k.allocator v.hookState k.entries).eventsWithHeader
          k.allocator l)
        (teardown B course k.hooks k.allocator v.hookState k.entries).hookState) := by
  intro s hs
  have hclear : Ends (clear B course l) v _ _ := clear_ends hv
  obtain ⟨s₁, hrun, hs₁⟩ := hclear s hs
  have hr : s₁.heap.IsRing l { k with entries := [] } := hs₁.lists.head
  have hrest := hs₁.lists.tail
  unfold destroy Teardown.eventsWithHeader
  unfold Teardown.stop at hrun ⊢
  cases hleft : (teardown B course k.hooks k.allocator v.hookState k.entries).left with
  | some es =>
    rw [hleft] at hrun
    exact ⟨s₁, bind_error hrun, hrest, hs₁.fresh, hs₁.budgets, hs₁.hookState, hs₁.log⟩
  | none =>
    rw [hleft] at hrun
    have hout : l ∉ rest.flatMap Strip.blocks := by
      have hap := hs₁.lists.apart
      rw [View.heeding_lists, View.having_lists, List.flatMap_cons] at hap
      exact fun hm => (List.nodup_append.1 hap).2.2 l (by simp [Strip.blocks]) l hm rfl
    refine ⟨_, (bind_ok hrun).trans ((bind_ok (record_run hr.header)).trans
      (releaseHeader_run _ hr.header)), ?_⟩
    refine ⟨hrest.frame fun b hb => ?_, (Heap.size_erase _ _).trans hs₁.fresh, hs₁.budgets,
      hs₁.hookState, ?_⟩
    · have hbl : b ≠ l := fun he => hout (he ▸ hb)
      exact (Heap.get?_erase _ _ _).trans (if_neg hbl)
    · simp [Store.log, View.heeding, hs₁.log]

end RingList
