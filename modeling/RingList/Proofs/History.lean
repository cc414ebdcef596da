import RingList.Proofs.Perform

/-!
# The history of a run

A `Step` is one operation of a run with the worlds before and after it and the events that it
caused. The events are read in several ways: the blocks served and released, the values that hooks
copied, and the values that were destroyed.

* `World.Sound.along`: what every step of a run preserves holds at its end.
-/

set_option autoImplicit false

namespace RingList

variable {η σ α : Type} {B : Behaviour η σ α}

/-! ## Reading events -/

/-- A block with its kind, and so with its layout. -/
abbrev Block := Addr × BlockKind

namespace Event

def served? : Event η α → Option Block
  | .served _ b kind => some (b, kind)
  | _ => none

def released? : Event η α → Option Block
  | .released _ b kind => some (b, kind)
  | _ => none

def isRequest : Event η α → Bool
  | .served _ _ _ | .refused _ _ => true
  | _ => false

def copied? : Event η α → Option α
  | .dup _ _ (.returns (some w)) => some w
  | _ => none

/-- The value that a hook was handed because it is destroyed. -/
def freed? : Event η α → Option α
  | .free _ x _ => some x
  | _ => none

def dropped? : Event η α → Option α
  | .dropped x => some x
  | _ => none

end Event

def requests (evs : List (Event η α)) : Nat := evs.countP Event.isRequest

/-- The values that hooks copied. -/
def copied (evs : List (Event η α)) : List α := evs.filterMap Event.copied?

/-- The values that hooks were handed. -/
def freed (evs : List (Event η α)) : List α := evs.filterMap Event.freed?

def dropped (evs : List (Event η α)) : List α := evs.filterMap Event.dropped?

section
variable (evs evs' : List (Event η α))

@[simp] theorem requests_append : requests (evs ++ evs') = requests evs + requests evs' :=
  List.countP_append

@[simp] theorem requests_nil : requests ([] : List (Event η α)) = 0 := rfl

@[simp] theorem requests_served (source : Allocator) (b : Addr) (kind : BlockKind) :
    requests (.served source b kind :: evs) = requests evs + 1 := List.countP_cons_of_pos rfl

@[simp] theorem requests_refused (source : Allocator) (kind : BlockKind) :
    requests (.refused source kind :: evs) = requests evs + 1 := List.countP_cons_of_pos rfl

theorem requests_cons {e : Event η α} (he : e.isRequest = false) :
    requests (e :: evs) = requests evs := List.countP_cons_of_neg (by simp [he])

@[simp] theorem copied_append : copied (evs ++ evs') = copied evs ++ copied evs' :=
  List.filterMap_append

@[simp] theorem freed_append : freed (evs ++ evs') = freed evs ++ freed evs' :=
  List.filterMap_append

@[simp] theorem dropped_append : dropped (evs ++ evs') = dropped evs ++ dropped evs' :=
  List.filterMap_append

end

/-! ## Steps -/

/-- One operation of a run. -/
structure Step (η σ α : Type) where
  before : World η σ α
  op : Op η α
  outcome : Outcome η α
  after : World η σ α

def Step.events (st : Step η σ α) : List (Event η α) :=
  st.after.store.events.toList.drop st.before.store.events.size

def World.count (w : World η σ α) (l : Addr) : Nat := (w.nodes l).length

def World.steps (B : Behaviour η σ α) (w : World η σ α) : List (Op η α) → List (Step η σ α)
  | [] => []
  | op :: ops => ⟨w, op, (w.perform B op).1, (w.perform B op).2⟩ :: steps B (w.perform B op).2 ops

theorem World.run_cons (B : Behaviour η σ α) (w : World η σ α) (op : Op η α) (ops : List (Op η α)) :
    w.run B (op :: ops) = ((w.perform B op).1 :: ((w.perform B op).2.run B ops).1,
      ((w.perform B op).2.run B ops).2) := rfl

/-- An operation that a program asks for after a run is the last step of the longer run. -/
theorem World.mem_steps (B : Behaviour η σ α) (w : World η σ α) (ops : List (Op η α))
    (op : Op η α) : ⟨(w.run B ops).2, op, ((w.run B ops).2.perform B op).1,
      ((w.run B ops).2.perform B op).2⟩ ∈ w.steps B (ops ++ [op]) := by
  induction ops generalizing w with
  | nil => exact List.mem_singleton_self _
  | cons op' ops ih => exact List.mem_cons_of_mem _ (ih _)

/-- The outcomes of the steps are those of the run. -/
theorem World.map_outcome_steps (w : World η σ α) (ops : List (Op η α)) :
    (w.steps B ops).map (·.outcome) = (w.run B ops).1 := by
  induction ops generalizing w with
  | nil => rfl
  | cons op ops ih => simp [World.steps, World.run, ih]

/-- A step with the views around it. -/
structure Step.Sound (B : Behaviour η σ α) (st : Step η σ α) (v v' : View η σ α) : Prop where
  before : st.before.Sound v
  after : st.after.Sound v'
  effect : Effect B v st.op st.outcome v'
  performed : st.before.perform B st.op = (st.outcome, st.after)

/-- A program misuses what its check refuses. -/
theorem Step.Sound.check_eq {st : Step η σ α} {v v' : View η σ α} {why : Misuse}
    (hst : st.Sound B v v') (ho : st.outcome = .misused why) :
    st.op.check st.before = .error why :=
  (World.perform_misused ((congrArg Prod.fst hst.performed).trans ho)).1

theorem Step.Sound.events_eq {st : Step η σ α} {v v' : View η σ α} (hst : st.Sound B v v')
    {evs : List (Event η α)} (hlog : v'.log = v.log ++ evs) : st.events = evs := by
  unfold Step.events
  rw [hst.after.shows.log, hlog, ← hst.before.shows.log]
  simp

theorem World.Sound.count_eq {w : World η σ α} {v : View η σ α} (hw : w.Sound v) {l : Addr}
    {k : Strip η α} (hl : (l, k) ∈ v.lists) : w.count l = k.entries.length := by
  unfold World.count World.nodes
  rw [(hw.ring hl).nodes_eq, Strip.nodes_length]

/-- **What every step preserves holds along every run.** -/
theorem World.Sound.along {P : List (Step η σ α) → View η σ α → Prop}
    (hstep : ∀ {past : List (Step η σ α)} {st : Step η σ α} {v v' : View η σ α},
      st.Sound B v v' → P past v → P (past ++ [st]) v') :
    ∀ (ops : List (Op η α)) {w : World η σ α} {v : View η σ α} {past : List (Step η σ α)},
      w.Sound v → P past v → ∃ v', (w.run B ops).2.Sound v' ∧ P (past ++ w.steps B ops) v' := by
  intro ops
  induction ops with
  | nil => exact fun {_ v _} hw hp => ⟨v, hw, by simpa [World.steps] using hp⟩
  | cons op ops ih =>
    intro w v past hw hp
    obtain ⟨v₁, hw₁, he⟩ := hw.perform (B := B) op
    have hst : Step.Sound B ⟨w, op, (w.perform B op).1, (w.perform B op).2⟩ v v₁ :=
      ⟨hw, hw₁, he, rfl⟩
    obtain ⟨v', hw', hp'⟩ := ih hw₁ (hstep hst hp)
    exact ⟨v', hw', by simpa [World.steps] using hp'⟩

theorem World.Sound.of_mem_steps {st : Step η σ α} {ops : List (Op η α)} {w : World η σ α}
    {v : View η σ α} (hw : w.Sound v) (hst : st ∈ w.steps B ops) : ∃ v v', st.Sound B v v' := by
  induction ops generalizing w v with
  | nil => cases hst
  | cons op ops ih =>
    obtain ⟨v₁, hw₁, he⟩ := hw.perform (B := B) op
    rcases List.mem_cons.1 hst with rfl | hst
    · exact ⟨v, v₁, hw, hw₁, he, rfl⟩
    · exact ih hw₁ hst

end RingList
