import Mathlib.Order.Bounds.Defs
import RingList.Proofs.CoupledRuns
import RingList.Session

/-!
# Refused requests

A list asks for a block before it touches anything else. When the allocator refuses the request the
operation fails, and all that is left of it is in the record of what happened: the refusal, and the
value that found no place. No operation looks at this record, so a run goes on as if the operation had
never been asked for.

* `BlockKind.Fits`: what a block of each kind has room for.
* `World.Refusals`: what a refused request does, and what leaving out operations that were refused does
  to a run.
* `World.refusals`: this holds after every run.
-/

set_option autoImplicit false

namespace RingList

variable {η σ α : Type} {B : Behaviour η σ α}

/-- The operation offers the value `x` to the list `l`. -/
inductive Op.Offers (l : Addr) (x : α) : Op η α → Prop
  | head : Offers l x (.addHead l x)
  | tail : Offers l x (.addTail l x)
  | insert (anchor : Addr) (after : Bool) : Offers l x (.insert l anchor x after)

/-- The operation asks for one block, of this kind, and cannot fail in another way. -/
def Op.asks? : Op η α → Option BlockKind
  | .create _ => some .header
  | .addHead _ _ | .addTail _ _ | .insert _ _ _ _ => some .node
  | _ => none

/-! ## The operation that fails -/

section
variable {s : Store η σ α} {l : Addr} {r : Record η}

theorem Heap.content?_of_record? {h : Heap η α} (hr : h.record? l = some r) :
    h.content? l = some (.header r) := by
  unfold Heap.record? at hr
  unfold Heap.content?
  rcases hc : h.get? l with _ | ⟨next, prev, r' | v⟩ <;> rw [hc] at hr
  · cases hr
  · cases hr
    rfl
  · cases hr

theorem create_refused {source : Allocator} (hserve : s.serves source = false) :
    create source s = .error (.refused .header) (s.log (.refused source .header)) := by
  unfold create
  rw [allocate_run, if_neg (by simp [hserve])]
  rfl

theorem newNode_refused (x : α) (hr : s.heap.record? l = some r)
    (hserve : s.serves r.allocator = false) : newNode l x s =
      .error (.refused .node) ((s.log (.refused r.allocator .node)).log (.dropped x)) := by
  have hask : (allocate r.allocator (.node none) : Action η σ α Addr) s =
      .error (.refused .node) (s.log (.refused r.allocator .node)) := by
    rw [allocate_run, if_neg (by simp [hserve])]
    rfl
  unfold newNode
  rw [bind_ok (record_run (Heap.content?_of_record? hr))]
  refine bind_error ?_
  rw [run_tryCatch, hask]
  rfl

end

section
variable {w : World η σ α} {op : Op η α} {l : Addr} {x : α} {r : Record η}

/-- **A value that is offered** to a list whose allocator refuses the node. -/
theorem World.perform_offer (hop : op.Offers l x) (hc : op.check w = .ok ())
    (hr : w.store.heap.record? l = some r) (hserve : w.store.serves r.allocator = false) :
    w.perform B op = (.stopped (.refused .node),
      { w with store := (w.store.log (.refused r.allocator .node)).log (.dropped x) }) := by
  have hnode := newNode_refused x hr hserve
  rw [World.perform_of_ok hc]
  cases hop with
  | head => exact World.proceed_of_error (bind_error (bind_error hnode))
  | tail => exact World.proceed_of_error (bind_error (bind_error hnode))
  | insert => exact World.proceed_of_error (bind_error (bind_error hnode))

/-- **A list that is to be created** when the allocator refuses the header. -/
theorem World.perform_create {source : Allocator} (hc : (.create source : Op η α).check w = .ok ())
    (hserve : w.store.serves source = false) : w.perform B (.create source) =
      (.stopped (.refused .header),
        { w with store := w.store.log (.refused source .header) }) := by
  rw [World.perform_of_ok hc]
  exact World.proceed_of_error (bind_error (create_refused hserve))

variable {v : View η σ α} {k : Strip η α} {why : Stop}

/-- A value that is offered to a list whose allocator serves the node is taken in. -/
theorem World.Sound.offer_answered (hw : w.Sound v) (hop : op.Offers l x)
    (hc : op.check w = .ok ()) (hl : (l, k) ∈ v.lists) (hserve : v.serves k.allocator = true) :
    ∃ a, (w.perform B op).1 = .answered a := by
  obtain ⟨k', rest, hp⟩ := hw.strip (hw.mem_owners hl)
  obtain rfl := (hw.ring hl).unique (hw.ring (hp.mem_iff.2 List.mem_cons_self))
  have hs := hw.perm hp
  have hserve' : (v.having ((l, k) :: rest)).serves k.allocator = true := by simpa using hserve
  -- the view with the list in front is shown by the same store
  have done : ∀ {act : Action η σ α Addr} {v' : View η σ α} {a : Addr},
      op.act B (op.takes w) = Op.keeping (op.takes w) (.node ∘ some) act →
      Yields act (v.having ((l, k) :: rest)) a v' → ∃ b, (w.perform B op).1 = .answered b := by
    intro act v' a hact hy
    obtain ⟨s', hrun, -⟩ := hy w.store hs
    rw [World.perform_of_ok hc]
    exact ⟨_, congrArg Prod.fst (World.proceed_of_ok ((congrFun hact _).trans (bind_ok hrun)))⟩
  cases hop with
  | head => exact done rfl (addHead_yields rfl hserve')
  | tail => exact done rfl (addTail_yields rfl hserve')
  | insert anchor after =>
    obtain ⟨hlist, ha⟩ := World.holds_of_expectNode hc
    obtain ⟨xs, y, ys, hk⟩ := hw.mem_of_holds hl ha
    cases after with
    | true => exact done rfl (insertAfter_yields rfl hk hserve')
    | false => exact done rfl (insertBefore_yields rfl hk hserve')

end

/-! ## Worlds that differ in their record only -/

/-- The worlds differ in what happened so far, and in nothing else. -/
structure World.SameButEvents (w w' : World η σ α) : Prop where
  heap : w'.store.heap = w.store.heap
  budgets : w'.store.budgets = w.store.budgets
  hookState : w'.store.hookState = w.store.hookState
  holdings : w'.holdings = w.holdings

/-- The same operation, with the same outcome and the same events. -/
structure Step.Same (st st' : Step η σ α) : Prop where
  op : st'.op = st.op
  outcome : st'.outcome = st.outcome
  events : st'.events = st.events
  before : st.before.SameButEvents st'.before
  after : st.after.SameButEvents st'.after

/-- Every block corresponds to itself. -/
def Coupling.refl (σ α : Type) : Coupling σ σ α α := .ofValues id Eq

section
variable {w w' : World η σ α}

theorem World.SameButEvents.coupled (h : w.SameButEvents w') :
    w.Coupled (.refl σ α) w' := by
  refine ⟨⟨?_, h.budgets, h.hookState.symm⟩, ?_, fun _ _ => trivial, fun _ _ => trivial,
    fun _ _ _ => ⟨trivial, fun _ _ => trivial⟩⟩
  · have hheap := w.store.heap.coupled_map id (Eq : σ → σ → Prop)
    rw [Heap.map_id] at hheap
    exact h.heap ▸ hheap
  · exact h.holdings.trans w.holdings.rename_id.symm

theorem World.Coupled.sameButEvents (h : w.Coupled (.refl σ α) w') : w.SameButEvents w' where
  heap := (Heap.Coupled.eq_map h.store.heap).trans w.store.heap.map_id
  budgets := h.store.budgets
  hookState := h.store.hookState.symm
  holdings := h.holdings.renamed.trans w.holdings.rename_id

theorem Coupling.op_refl : (Coupling.refl σ α).op = (id : Op η α → Op η α) :=
  op_ofValues.trans (funext Op.map_id)

theorem Coupling.event_refl : (Coupling.refl σ α).event = (id : Event η α → Event η α) :=
  event_ofValues.trans (funext Event.map_id)

/-- **No operation looks at what happened so far.** -/
theorem World.SameButEvents.step (B : Behaviour η σ α) (h : w.SameButEvents w') (op : Op η α) :
    (w.stepOf B op).Same (w'.stepOf B op) := by
  have hst := h.coupled.step B.image_refl op
  rw [Coupling.op_refl] at hst
  refine ⟨rfl, ?_, ?_, h, hst.after.sameButEvents⟩
  · have houtcome : (w'.stepOf B op).outcome = ((w.stepOf B op).outcome.map id).rename id :=
      hst.outcome
    simpa using houtcome
  · have hevents := hst.events
    rw [Coupling.event_refl, List.map_id] at hevents
    exact hevents

end

/-! ## What a session is told -/

/-- `l` is the layout of a block that starts with two links of a machine word each. In a node a value
follows them. Each part is at a multiple of its alignment, and so is a block that follows. -/
inductive BlockKind.Fits (value : Layout) : BlockKind → Layout → Prop
  | header {size : Nat} (hsize : IsLeast {n | 16 ≤ n ∧ max 8 value.align ∣ n} size) :
      Fits value .header ⟨size, max 8 value.align⟩
  | node {offset size : Nat} (hoffset : IsLeast {n | 16 ≤ n ∧ value.align ∣ n} offset)
      (hsize : IsLeast {n | offset + value.size ≤ n ∧ max 8 value.align ∣ n} size) :
      Fits value .node ⟨size, max 8 value.align⟩

theorem isLeast_roundUp {step : Nat} (hstep : 0 < step) (n : Nat) :
    IsLeast {m | n ≤ m ∧ step ∣ m} (roundUp n step) := by
  constructor
  · have hdiv := Nat.div_add_mod (n + step - 1) step
    have hmod := Nat.mod_lt (n + step - 1) hstep
    have hle : n ≤ step * ((n + step - 1) / step) := by omega
    exact ⟨hle.trans_eq (Nat.mul_comm _ _), Nat.dvd_mul_left _ _⟩
  · rintro m ⟨hle, k, rfl⟩
    have hlt : (n + step - 1) / step < k + 1 := by
      apply Nat.div_lt_of_lt_mul
      rw [Nat.mul_add, Nat.mul_one]
      omega
    calc roundUp n step = step * ((n + step - 1) / step) := Nat.mul_comm _ _
      _ ≤ step * k := Nat.mul_le_mul_left step (Nat.le_of_lt_succ hlt)

theorem BlockKind.fits_layout {value : Layout} (hvalue : 0 < value.align) (kind : BlockKind) :
    kind.Fits value (kind.layout value) := by
  have halign : 0 < max 8 value.align := Nat.lt_of_lt_of_le (by decide) (Nat.le_max_left 8 _)
  cases kind with
  | header => exact .header (isLeast_roundUp halign 16)
  | node => exact .node (isLeast_roundUp hvalue 16) (isLeast_roundUp halign _)

/-- A session is told the layout of the block that was refused. -/
theorem Session.perform_of_refused {s : Session} {op : Op Hook Value} {kind : BlockKind}
    (h : (s.world.perform s.type.behaviour op).1 = .stopped (.refused kind)) :
    Session.perform op s = .error (.failed (.outOfMemory (kind.layout s.type.layout)))
      { s with world := (s.world.perform s.type.behaviour op).2 } := by
  have hwork : Session.perform op s =
      Session.workOn (fun world => world.perform s.type.behaviour op) s := rfl
  rw [hwork]
  unfold Session.workOn Session.handOver
  simp only [h, Session.refusalOf]

/-! ## Runs -/

/-- The step failed because the allocator refused the one block that it asks for. -/
def Step.Refused (st : Step η σ α) : Prop :=
  ∃ kind, st.op.asks? = some kind ∧ st.outcome = .stopped (.refused kind)

/-- What is flagged. -/
def flagged {β : Type} (ps : List (β × Bool)) : List β := (ps.filter (·.2)).map (·.1)

/-- **The laws of refused requests.** -/
structure World.Refusals (B : Behaviour η σ α) (w : World η σ α) : Prop where
  /-- Without a header there is no list, and the refusal is recorded. -/
  create : ∀ source, (.create source : Op η α).check w = .ok () → w.store.serves source = false →
    w.perform B (.create source) = (.stopped (.refused .header),
      { w with store := w.store.log (.refused source .header) })
  /-- Without a node the value is dropped, and this and the refusal are recorded. -/
  offer : ∀ op l x r, op.Offers l x → op.check w = .ok () → w.store.heap.record? l = some r →
    w.store.serves r.allocator = false → w.perform B op = (.stopped (.refused .node),
      { w with store := (w.store.log (.refused r.allocator .node)).log (.dropped x) })
  /-- In a session, the error carries the layout of the block that was refused. This is just what two
  links take up, or two links and a value. -/
  layout : ∀ (s : Session) (op : Op Hook Value) (kind : BlockKind),
    (s.world.perform s.type.behaviour op).1 = .stopped (.refused kind) →
      Session.perform op s = .error (.failed (.outOfMemory (kind.layout s.type.layout)))
        { s with world := (s.world.perform s.type.behaviour op).2 } ∧
      (0 < s.type.layout.align → kind.Fits s.type.layout (kind.layout s.type.layout))
  /-- An operation that asks for one block fails for no other reason than that it is refused, and
  then nothing but the record changes. -/
  invisible : ∀ op kind why, op.asks? = some kind → (w.perform B op).1 = .stopped why →
    why = .refused kind ∧ (w.perform B op).2.SameButEvents w
  /-- In a run, operations that are refused may be left out: the others have the same outcomes and
  cause the same events, and all is the same afterwards. -/
  omitted : ∀ ops : List (Op η α × Bool),
    let steps := (w.steps B (ops.map (·.1))).zip (ops.map (·.2))
    (∀ p ∈ steps, p.2 = false → p.1.Refused) →
      List.Forall₂ Step.Same (flagged steps) (w.steps B (flagged ops)) ∧
        (w.run B (ops.map (·.1))).2.SameButEvents (w.run B (flagged ops)).2

section
variable {budgets : Array (Option Nat)} {hookState : σ} {w w' : World η σ α} {v : View η σ α}
  {op : Op η α} {l : Addr} {x : α} {kind : BlockKind} {why : Stop}

/-- An operation that stops was checked. -/
theorem World.check_of_stopped (h : (w.perform B op).1 = .stopped why) : op.check w = .ok () :=
  World.check_of_ne_misused fun why hwhy => by cases h.symm.trans hwhy

/-- A value that is offered and not taken in. -/
theorem World.Sound.offer_invisible (hw : w.Sound v) (hop : op.Offers l x)
    (h : (w.perform B op).1 = .stopped why) :
    why = .refused .node ∧ (w.perform B op).2.SameButEvents w := by
  have hc := World.check_of_stopped h
  have hl : w.expectList l = .ok () := by
    cases hop with
    | head => exact hc
    | tail => exact hc
    | insert => exact (World.holds_of_expectNode hc).1
  obtain ⟨k, hk⟩ := hw.mem_lists (World.owners_of_expectList hl)
  cases hserve : v.serves k.allocator with
  | true =>
    obtain ⟨a, ha⟩ := hw.offer_answered (B := B) hop hc hk hserve
    rw [ha] at h
    cases h
  | false =>
    have hperform := World.perform_offer (B := B) hop hc (hw.ring hk).record?_eq
      ((hw.shows.serves _).trans hserve)
    rw [hperform] at h ⊢
    cases h
    exact ⟨rfl, rfl, rfl, rfl, rfl⟩

/-- A list that is to be created and is not. -/
theorem World.Sound.create_invisible {source : Allocator} (hw : w.Sound v)
    (h : (w.perform B (.create source)).1 = .stopped why) :
    why = .refused .header ∧ (w.perform B (.create source)).2.SameButEvents w := by
  have hc := World.check_of_stopped h
  cases hserve : v.serves source with
  | true =>
    have hact : (Op.create source : Op η α).act B w.holdings =
      RingList.create source >>= fun l => pure (.list l, w.holdings.addList l) := rfl
    obtain ⟨s', hs'⟩ := hw.perform_of_yields hc hact (create_yields hserve)
    rw [hs'] at h
    cases h
  | false =>
    rw [World.perform_create hc ((hw.shows.serves _).trans hserve)] at h ⊢
    cases h
    exact ⟨rfl, rfl, rfl, rfl, rfl⟩

theorem World.Sound.invisible (hw : w.Sound v) (hop : op.asks? = some kind)
    (h : (w.perform B op).1 = .stopped why) :
    why = .refused kind ∧ (w.perform B op).2.SameButEvents w := by
  cases op with
  | create source =>
    cases hop
    exact hw.create_invisible h
  | addHead l x =>
    cases hop
    exact hw.offer_invisible .head h
  | addTail l x =>
    cases hop
    exact hw.offer_invisible .tail h
  | insert l anchor x after =>
    cases hop
    exact hw.offer_invisible (.insert anchor after) h
  | _ => cases hop

theorem World.SameButEvents.trans {w'' : World η σ α} (h : w.SameButEvents w')
    (h' : w'.SameButEvents w'') : w.SameButEvents w'' :=
  ⟨h'.heap.trans h.heap, h'.budgets.trans h.budgets, h'.hookState.trans h.hookState,
    h'.holdings.trans h.holdings⟩

/-- **Operations that are refused may be left out**, step by step along the run. -/
theorem World.Sound.omitted {ops : List (Op η α × Bool)} (hw : w.Sound v)
    (hsame : w.SameButEvents w')
    (h : ∀ p ∈ (w.steps B (ops.map (·.1))).zip (ops.map (·.2)), p.2 = false → p.1.Refused) :
    List.Forall₂ Step.Same (flagged ((w.steps B (ops.map (·.1))).zip (ops.map (·.2))))
        (w'.steps B (flagged ops)) ∧
      (w.run B (ops.map (·.1))).2.SameButEvents (w'.run B (flagged ops)).2 := by
  induction ops generalizing w w' v with
  | nil => exact ⟨.nil, hsame⟩
  | cons p ops ih =>
    obtain ⟨op, flag⟩ := p
    obtain ⟨v', hw', -⟩ := hw.perform (B := B) op
    have hrest := fun q hq => h q (List.mem_cons_of_mem _ hq)
    cases flag with
    | true =>
      have hst := hsame.step B op
      obtain ⟨hsteps, hrun⟩ := ih hw' hst.after hrest
      exact ⟨.cons hst hsteps, hrun⟩
    | false =>
      obtain ⟨kind, hasks, hstop⟩ := h _ List.mem_cons_self rfl
      exact ih hw' ((hw.invisible hasks hstop).2.trans hsame) hrest

/-- **A refused request is invisible**: the operation fails with the layout of the refused block, and
all lists, hooks and cursors are what they were. A run goes on as if it had not been asked for. -/
theorem World.refusals (hw : w.Reachable B budgets hookState) : w.Refusals B := by
  obtain ⟨v, lost, hs, -⟩ := hw.sound
  exact {
    create := fun _ hc hserve => World.perform_create hc hserve
    offer := fun _ _ _ _ hop hc hr hserve => World.perform_offer hop hc hr hserve
    layout := fun _ _ kind h => ⟨Session.perform_of_refused h, fun hvalue => kind.fits_layout hvalue⟩
    invisible := fun _ _ _ hop h => hs.invisible hop h
    omitted := fun _ h => hs.omitted ⟨rfl, rfl, rfl, rfl⟩ h }

/-- The allocator has served a header and a node and serves no more. The value 7 and a second list are
refused, and a cursor meets the one node afterwards. -/
theorem World.refusals_exhausted :
    let B : Behaviour Unit Nat Nat := {
      dup _ s x := (.returns (some x), s)
      free _ s _ := (.returns (), s)
      freeUnwinding _ s _ := s
      matching _ s x key := (.returns (x == key), s + 1) }
    let w := ((World.start #[some 2] 0).run B [.create (.limited 0), .addTail 0 5]).2
    ((.insert 0 1 7 true : Op Unit Nat).check w = .ok () ∧
      w.store.heap.record? 0 = some ⟨1, {}, .limited 0⟩ ∧ w.store.serves (.limited 0) = false) ∧
      (w.run B [.search 0 5 (), .insert 0 1 7 true, .create (.limited 0), .cursor 0 .forward,
        .step 0]).1 = [.answered (.node (some 1)), .stopped (.refused .node),
          .stopped (.refused .header), .answered (.cursor 0), .answered (.node (some 1))] ∧
      w.Refusals B := by
  intro B w
  have hw : w.Reachable B #[some 2] 0 := ⟨_, rfl⟩
  exact ⟨⟨by decide +kernel, by decide +kernel, by decide +kernel⟩, by decide +kernel,
    World.refusals hw⟩

end

end RingList
