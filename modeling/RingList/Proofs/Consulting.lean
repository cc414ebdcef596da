import RingList.Proofs.Comparing

/-!
# Calls of a matching hook, one after another

Searching a list and comparing two lists call a hook for one pair of values after another, as long as
it replies that the work goes on. The pairs are known beforehand, the replies are not: the hook may
use the state that it left behind at the call before, and may panic. So what is called, and what
comes of it, is a function of the replies that the hook would give for all the pairs in order
(`Behaviour.matchReplies`), cut off behind the first other reply (`consulting`).

* `consulting_passes`, `consulting_halts`: how the next reply decides.
* `World.Sound.consults`: an operation that does nothing but such calls.
-/

set_option autoImplicit false

namespace RingList

variable {η σ α β : Type} {B : Behaviour η σ α}

/-! ## Replies -/

/-- The replies of a matching hook that is called for one pair after another. -/
def Behaviour.matchReplies (B : Behaviour η σ α) (h : η) : σ → List (α × α) → List (Reply Bool)
  | _, [] => []
  | s, p :: ps => (B.matching h s p.1 p.2).1 :: B.matchReplies h (B.matching h s p.1 p.2).2 ps

/-- The state that the hooks are in after these calls. -/
def Behaviour.matchState (B : Behaviour η σ α) (h : η) : σ → List (α × α) → σ
  | s, [] => s
  | s, p :: ps => B.matchState h (B.matching h s p.1 p.2).2 ps

/-- The index of the first pair for which the hook does not reply that the work goes on. -/
def Behaviour.haltAt (B : Behaviour η σ α) (h : η) (goOn : Bool) (s : σ) (ps : List (α × α)) : Nat :=
  (B.matchReplies h s ps).findIdx (· != .returns goOn)

/-- Calls of a matching hook, by the pairs and the replies. -/
def matchEvents (h : η) (calls : List ((α × α) × Reply Bool)) : List (Event η α) :=
  calls.map fun c => .matching h c.1.1 c.1.2 c.2

/-- **Calls for one pair after another**, as long as the hook replies that the work goes on. -/
def consulting (B : Behaviour η σ α) (h : η) (goOn : Bool) (s : σ) (ps : List (α × α)) :
    Comparison η σ α where
  events := matchEvents h ((ps.zip (B.matchReplies h s ps)).take (B.haltAt h goOn s ps + 1))
  hookState := B.matchState h s (ps.take (B.haltAt h goOn s ps + 1))
  reply := (B.matchReplies h s ps)[B.haltAt h goOn s ps]?.getD (.returns goOn)

section
variable {h : η} {goOn : Bool} {s : σ} {p : α × α} {ps : List (α × α)}

@[simp] theorem Behaviour.length_matchReplies (B : Behaviour η σ α) (h : η) (s : σ)
    (ps : List (α × α)) : (B.matchReplies h s ps).length = ps.length := by
  induction ps generalizing s with
  | nil => rfl
  | cons p ps ih => simp [matchReplies, ih]

theorem haltAt_passes (hr : (B.matching h s p.1 p.2).1 = .returns goOn) :
    B.haltAt h goOn s (p :: ps) = B.haltAt h goOn (B.matching h s p.1 p.2).2 ps + 1 := by
  simp [Behaviour.haltAt, Behaviour.matchReplies, List.findIdx_cons, hr]

theorem haltAt_halts (hr : (B.matching h s p.1 p.2).1 ≠ .returns goOn) :
    B.haltAt h goOn s (p :: ps) = 0 := by
  simp [Behaviour.haltAt, Behaviour.matchReplies, List.findIdx_cons, bne_iff_ne.2 hr]

/-- The hook is called for the next pair, and the work goes on. -/
theorem consulting_passes (hr : (B.matching h s p.1 p.2).1 = .returns goOn) :
    consulting B h goOn s (p :: ps) =
      { consulting B h goOn (B.matching h s p.1 p.2).2 ps with
        events := .matching h p.1 p.2 (.returns goOn) ::
          (consulting B h goOn (B.matching h s p.1 p.2).2 ps).events } := by
  simp [consulting, haltAt_passes hr, Behaviour.matchReplies, Behaviour.matchState, matchEvents, hr]

/-- The hook is called for the next pair, and the work ends with this call. -/
theorem consulting_halts (hr : (B.matching h s p.1 p.2).1 ≠ .returns goOn) :
    consulting B h goOn s (p :: ps) =
      ⟨[.matching h p.1 p.2 (B.matching h s p.1 p.2).1], (B.matching h s p.1 p.2).2,
        (B.matching h s p.1 p.2).1⟩ := by
  simp [consulting, haltAt_halts hr, Behaviour.matchReplies, Behaviour.matchState, matchEvents]

/-- The number of calls. -/
theorem length_consulting (B : Behaviour η σ α) (h : η) (goOn : Bool) (s : σ) (ps : List (α × α)) :
    (consulting B h goOn s ps).events.length = min (B.haltAt h goOn s ps + 1) ps.length := by
  simp [consulting, matchEvents]

/-- The work goes on to the end just if every reply says so. -/
theorem reply_consulting_goOn : (consulting B h goOn s ps).reply = .returns goOn ↔
    ∀ reply ∈ B.matchReplies h s ps, reply = .returns goOn := by
  induction ps generalizing s with
  | nil => simp [consulting, Behaviour.matchReplies]
  | cons p ps ih =>
    by_cases hr : (B.matching h s p.1 p.2).1 = .returns goOn
    · rw [consulting_passes hr]
      simpa [Behaviour.matchReplies, hr] using ih
    · rw [consulting_halts hr]
      simp [Behaviour.matchReplies, hr]

/-- Any other reply is that of the last call. -/
theorem reply_consulting {reply : Reply Bool} (hne : reply ≠ .returns goOn) :
    (consulting B h goOn s ps).reply = reply ↔
      (B.matchReplies h s ps)[B.haltAt h goOn s ps]? = some reply := by
  cases hlast : (B.matchReplies h s ps)[B.haltAt h goOn s ps]? with
  | none => simp [consulting, hlast, hne.symm]
  | some last => simp [consulting, hlast]

/-- The work ends at one of the pairs just if some reply does not say that it goes on. -/
theorem haltAt_lt : B.haltAt h goOn s ps < ps.length ↔
    (consulting B h goOn s ps).reply ≠ .returns goOn := by
  rw [ne_eq, reply_consulting_goOn, ← B.length_matchReplies h s ps]
  unfold Behaviour.haltAt
  rw [List.findIdx_lt_length]
  simp

section
variable {f : α → α → Bool}
  (hcomputes : ∀ p ∈ ps, ∀ s, (B.matching h s p.1 p.2).1 = .returns (f p.1 p.2))
include hcomputes

/-- The replies of a hook that computes a function of the values. -/
theorem matchReplies_of_computes : B.matchReplies h s ps = ps.map fun p => .returns (f p.1 p.2) := by
  induction ps generalizing s with
  | nil => rfl
  | cons p ps ih =>
    rw [Behaviour.matchReplies, hcomputes p List.mem_cons_self,
      ih fun q hq => hcomputes q (List.mem_cons_of_mem _ hq)]
    rfl

theorem haltAt_of_computes :
    B.haltAt h goOn s ps = ps.findIdx fun p => f p.1 p.2 != goOn := by
  unfold Behaviour.haltAt
  rw [matchReplies_of_computes hcomputes, List.findIdx_map]
  congr 1
  funext p
  cases hp : f p.1 p.2 <;> cases goOn <;> simp [hp]

end

end

/-! ## Steps -/

theorem Settles.get_bind {f : Store η σ α → Action η σ α β} {v v' : View η σ α} {b : β}
    {stop : Option Stop} (h : ∀ s, s.Shows v → Settles (f s) v b stop v') :
    Settles (get >>= f) v b stop v' := by
  cases stop with
  | none => exact fun s hs => h s hs s hs
  | some e => exact fun s hs => h s hs s hs

/-- **What a step does that only calls a matching hook**: nothing but these calls happens. -/
structure Step.Consults (st : Step η σ α) (c : Comparison η σ α) : Prop where
  events : st.events = c.events
  hookState : st.after.store.hookState = c.hookState
  heap : st.after.store.heap = st.before.store.heap
  budgets : st.after.store.budgets = st.before.store.budgets
  holdings : st.after.holdings = st.before.holdings

section
variable {w : World η σ α} {v : View η σ α} {op : Op η α} {act : Action η σ α β}
  {answer : β → Answer η α}

/-- An operation that leaves the program what it holds on to. -/
theorem World.perform_keeping (hc : op.check w = .ok ())
    (hact : op.act B (op.takes w) = Op.keeping (op.takes w) answer act) :
    (w.perform B op).2 = ⟨leaves (act w.store), op.takes w⟩ := by
  rw [perform_of_ok hc]
  cases hrun : act w.store with
  | ok b s => exact congrArg Prod.snd (proceed_of_ok ((congrFun hact _).trans (bind_ok hrun)))
  | error e s => exact congrArg Prod.snd (proceed_of_error ((congrFun hact _).trans (bind_error hrun)))

/-- **From an action that consults a hook to its operation.** -/
theorem World.Sound.consults {b : β} {c : Comparison η σ α} (hw : w.Sound v)
    (hc : op.check w = .ok ())
    (hact : op.act B (op.takes w) = Op.keeping (op.takes w) answer act)
    (htakes : op.takes w = w.holdings) (hkeeps : Keeps Consulted act)
    (hend : Settles act v b (c.reply.stop .matching) (v.heeding c.events c.hookState)) :
    (w.stepOf B op).outcome = .ofStop (answer b) (c.reply.stop .matching) ∧
      (w.stepOf B op).Consults c := by
  obtain ⟨houtcome, hshows⟩ := hw.perform_of_settles hc hact hend
  have hafter := perform_keeping hc hact
  have hconsulted := hkeeps w.store
  obtain ⟨v', hst⟩ := hw.step (B := B) op
  refine ⟨houtcome, hst.events_eq ?_, hshows.hookState, ?_, ?_, ?_⟩
  · exact hst.after.shows.log.symm.trans hshows.log
  · exact (congrArg (·.store.heap) hafter).trans hconsulted.heap
  · exact (congrArg (·.store.budgets) hafter).trans hconsulted.budgets
  · exact (congrArg (·.holdings) hafter).trans htakes

end

end RingList
