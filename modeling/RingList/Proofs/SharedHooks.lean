import RingList.Proofs.HookCalls

/-!
# Hooks are shared

Lists that hold the same hook share it with the state that it keeps. Such a hook is a `Machine`: its
reply depends on its state and on the call, and on nothing else. So what it replies depends on all the
calls made to it before, in the order in which they were made, and not on the lists that made them.

* `Behaviour.Answers.machine`: the replies of a machine among all calls.
* `ValueType.runs_limit`, `ValueType.runs_nth`: the hooks of sessions that count their calls.
* `World.hook_laws`: which hooks lists have along every run, and what becomes of their calls.
-/

set_option autoImplicit false

namespace RingList

variable {η σ τ α : Type} {B : Behaviour η σ α}

/-! ## Machines -/

/-- A machine replies to calls by its state, and goes on to another state with each. -/
abbrev Machine (τ α : Type) := τ → Call α → CallReply α × τ

/-- The state of the machine after these calls. -/
def Machine.after (M : Machine τ α) (t : τ) (cs : List (Call α)) : τ :=
  cs.foldl (fun t c => (M t c).2) t

/-- **The hook `f` is the machine**, as far as calls like those that are `made` go. Its state is a part
of the state of all hooks that calls of other hooks leave alone. -/
structure Behaviour.Runs (B : Behaviour η σ α) (made : η → Call α → Prop) (f : η) (M : Machine τ α)
    (state : σ → τ) : Prop where
  reply : ∀ s c, made f c → (B.call f s c).1 = (M (state s) c).1
  next : ∀ s c, made f c → state (B.call f s c).2 = (M (state s) c).2
  others : ∀ g c, g ≠ f → made g c → ∀ s, state (B.call g s c).2 = state s

/-- The calls of one hook. -/
def callsOf [DecidableEq η] (f : η) (cs : List (HookCall η α)) : List (HookCall η α) :=
  cs.filter (·.hook = f)

/-- The machine replies so to the calls, from the one state to the other. -/
structure Machine.Replies (M : Machine τ α) (t : τ) (cs : List (HookCall η α)) (t' : τ) : Prop where
  after : t' = M.after t (cs.map (·.call))
  reply : ∀ m c, cs[m]? = some c →
    c.reply = (M (M.after t ((cs.take m).map (·.call))) c.call).1

theorem Machine.Replies.cons {M : Machine τ α} {t t' : τ} {c : HookCall η α}
    {cs : List (HookCall η α)} (hc : c.reply = (M t c.call).1)
    (h : M.Replies (M t c.call).2 cs t') : M.Replies t (c :: cs) t' where
  after := h.after
  reply m c' hm := by
    cases m with
    | zero =>
      obtain rfl := Option.some.inj hm
      exact hc
    | succ m => exact h.reply m c' hm

/-- **The replies of a machine** among calls that are answered one after another. -/
theorem Behaviour.Answers.machine [DecidableEq η] {made : η → Call α → Prop} {f : η}
    {M : Machine τ α} {state : σ → τ} (hM : B.Runs made f M state) {cs : List (HookCall η α)}
    {s' : σ} : ∀ {s : σ}, B.Answers s cs s' → (∀ c ∈ cs, made c.hook c.call) →
      M.Replies (state s) (callsOf f cs) (state s') := by
  -- a call of the hook is the next one of the machine, and any other leaves it where it is
  induction cs with
  | nil =>
    intro s h _
    obtain rfl : s = s' := h
    exact ⟨rfl, by simp [callsOf]⟩
  | cons c cs ih =>
    intro s h hmade
    obtain ⟨hreply, hrest⟩ := h
    obtain ⟨hc, hcs⟩ := List.forall_mem_cons.1 hmade
    have ih := ih hrest hcs
    by_cases hf : c.hook = f
    · obtain rfl := hf
      rw [hM.next s c.call hc] at ih
      have hcalls : callsOf c.hook (c :: cs) = c :: callsOf c.hook cs := by simp [callsOf]
      rw [hcalls]
      exact .cons (hreply.symm.trans (hM.reply s c.call hc)) ih
    · rw [hM.others c.hook c.call hf hc] at ih
      have hcalls : callsOf f (c :: cs) = callsOf f cs := by simp [callsOf, hf]
      rwa [hcalls]

/-! ## Countdowns -/

/-- A hook that copies as often as its state says, and then fails. -/
def Machine.limit : Machine (Option Int) Value := fun n c =>
  match c with
  | .dup x => (.dup (.returns (if n.getD 0 ≤ 0 then none else some x)), n.map (· - 1))
  | .free _ _ => (.free (.returns ()), n)
  | .matching _ _ => (.matching (.returns false), n)

/-- A hook that matches at one of its calls only. -/
def Machine.nth : Machine (Option Int) Value := fun n c =>
  match c with
  | .dup _ => (.dup (.returns none), n)
  | .free _ _ => (.free (.returns ()), n)
  | .matching _ _ => (.matching (.returns (n.getD 0 == 0)), n.map (· - 1))

/-- The counter that a hook of a session may use. -/
def Hook.counter? : Hook → Option Nat
  | .copying counter _ | .matching counter _ => some counter
  | _ => none

def Value.isObject : Value → Bool
  | .object _ _ => true
  | _ => false

/-- The call copies an object. A copy is a new object, and its number is no matter of the hook alone. -/
def Call.copiesObject : Call Value → Bool
  | .dup x => x.isObject
  | _ => false

/-- Only the hook `f` uses the counter, and no object is copied. -/
def Hook.Apart (f : Hook) (counter : Nat) (g : Hook) (c : Call Value) : Prop :=
  (g ≠ f → g.counter? ≠ some counter) ∧ c.copiesObject = false

instance (f : Hook) (counter : Nat) (g : Hook) (c : Call Value) : Decidable (f.Apart counter g c) :=
  inferInstanceAs (Decidable (_ ∧ _))

namespace HookState

variable (s : HookState) (v : Value)

theorem counters_copy : (s.copy v).2.counters = s.counters := by
  cases v <;> rfl

theorem counters_copyText (f : String → String) : (s.copyText f v).2.counters = s.counters := by
  cases v <;> rfl

/-- Only objects are copied to something else. -/
theorem copy_eq (hv : v.isObject = false) : s.copy v = (.returns (some v), s) := by
  cases v with
  | object id text => cases hv
  | _ => rfl

theorem getElem?_count (counter counter' : Nat) : (s.count counter').2.counters[counter]? =
    if counter' = counter then s.counters[counter]?.map (· - 1) else s.counters[counter]? :=
  Array.getElem?_modify

theorem count_fst (counter : Nat) : (s.count counter).1 = s.counters[counter]?.getD 0 :=
  Array.getD_eq_getD_getElem? ..

end HookState

namespace ValueType

variable (t : ValueType) {counter counter' : Nat} (s : HookState)

theorem counter_applyCopy (hne : counter' ≠ counter) (rule : CopyRule) (v : Value) :
    (t.applyCopy counter' rule s v).2.counters[counter]? = s.counters[counter]? := by
  have hcount := s.getElem?_count counter counter'
  rw [if_neg hne] at hcount
  cases rule with
  | limit n =>
    simp only [applyCopy]
    split
    · exact hcount
    · rw [HookState.counters_copy]
      exact hcount
  | failOn lit =>
    simp only [applyCopy]
    split
    · rfl
    · rw [HookState.counters_copy]
  | panicOn lit =>
    simp only [applyCopy]
    split
    · rfl
    · rw [HookState.counters_copy]
  | copy => simp only [applyCopy, HookState.counters_copy]
  | negate => cases v <;> rfl
  | upper => simp only [applyCopy, HookState.counters_copyText]
  | repeated n =>
    simp only [applyCopy]
    split
    · rfl
    · rw [HookState.counters_copyText]
  | _ => rfl

theorem counter_applyMatch (hne : counter' ≠ counter) (rule : MatchRule) (v key : Value) :
    (t.applyMatch counter' rule s v key).2.counters[counter]? = s.counters[counter]? := by
  cases rule with
  | nth n =>
    have hcount := s.getElem?_count counter counter'
    rwa [if_neg hne] at hcount
  | panicOn lit =>
    simp only [applyMatch]
    split <;> rfl
  | _ => rfl

/-- **A hook uses no counter but its own.** -/
theorem counter_call {g : Hook} (hg : g.counter? ≠ some counter) (c : Call Value) :
    (t.behaviour.call g s c).2.counters[counter]? = s.counters[counter]? := by
  cases c with
  | dup x =>
    cases g with
    | copying counter' hook => exact t.counter_applyCopy s (fun he => hg (congrArg some he)) _ x
    | _ => rfl
  | free course x => cases course <;> cases g <;> rfl
  | matching x key =>
    cases g with
    | matching counter' hook =>
      exact t.counter_applyMatch s (fun he => hg (congrArg some he)) _ x key
    | _ => rfl

variable (counter) (tag : String) (n : Int)

/-- **A hook that copies a number of times** is a machine, and its counter is the state. -/
theorem runs_limit : t.behaviour.Runs (Hook.Apart (.copying counter ⟨tag, .limit n⟩) counter)
    (.copying counter ⟨tag, .limit n⟩) Machine.limit (·.counters[counter]?) where
  reply s c hc := by
    cases c with
    | dup x =>
      have hx : x.isObject = false := hc.2
      have hcount := s.count_fst counter
      simp only [Behaviour.call, behaviour, applyCopy, Machine.limit, hcount,
        HookState.copy_eq _ x hx]
      split <;> rfl
    | free course x => cases course <;> rfl
    | matching x key => rfl
  next s c hc := by
    cases c with
    | dup x =>
      have hx : x.isObject = false := hc.2
      have hcount := s.getElem?_count counter counter
      rw [if_pos rfl] at hcount
      simp only [Behaviour.call, behaviour, applyCopy, Machine.limit, HookState.copy_eq _ x hx]
      split <;> exact hcount
    | free course x => cases course <;> rfl
    | matching x key => rfl
  others g c hg hc s := t.counter_call s (hc.1 hg) c

/-- **A hook that matches at one call** is a machine. -/
theorem runs_nth : t.behaviour.Runs (Hook.Apart (.matching counter ⟨tag, .nth n⟩) counter)
    (.matching counter ⟨tag, .nth n⟩) Machine.nth (·.counters[counter]?) where
  reply s c _ := by
    cases c with
    | dup x => rfl
    | free course x => cases course <;> rfl
    | matching x key =>
      have hcount := s.count_fst counter
      simp only [Behaviour.call, behaviour, applyMatch, Machine.nth, hcount]
  next s c _ := by
    cases c with
    | dup x => rfl
    | free course x => cases course <;> rfl
    | matching x key =>
      have hcount := s.getElem?_count counter counter
      rwa [if_pos rfl] at hcount
  others g c hg hc s := t.counter_call s (hc.1 hg) c

end ValueType

/-! ## The laws of hooks -/

theorem Hooks.ext_get {hs hs' : Hooks η} (h : ∀ kind, hs.get kind = hs'.get kind) : hs = hs' := by
  obtain ⟨dup, free, matching⟩ := hs
  obtain ⟨dup', free', matching'⟩ := hs'
  obtain rfl : dup = dup' := h .dup
  obtain rfl : free = free' := h .free
  obtain rfl : matching = matching' := h .matching
  rfl

/-- **What a step does to the hooks** that lists have. -/
structure Step.KeepsHooks (st : Step η σ α) : Prop where
  /-- A list stays with its hooks until it is destroyed. -/
  stays : ∀ l ∈ st.before.owners, l ∈ st.after.owners ∨ st.op.ends? = some l
  /-- Nothing but an answered installation on the list itself changes its hooks, and of these only
  the ones that it is about. -/
  hooks : ∀ l ∈ st.before.owners, l ∈ st.after.owners → ∃ hs hs', st.before.HasHooks l hs ∧
    st.after.HasHooks l hs' ∧ (∀ kind, hs'.get kind = (st.installs? l kind).getD (hs.get kind)) ∧
    ((st.op.rehooks? ≠ some l ∨ ∀ a, st.outcome ≠ .answered a) → hs' = hs)

theorem Step.Sound.keepsHooks {st : Step η σ α} {v v' : View η σ α} (hst : st.Sound B v v') :
    st.KeepsHooks where
  stays l hl := by
    obtain ⟨k, hk⟩ := hst.before.mem_lists hl
    have hnd := hst.before.shows.lists.nodup_headers
    rcases hst.effect.shape hnd with ⟨-, rfl⟩ | hs
    · exact .inl (hst.after.mem_owners hk)
    · rcases hs.reshapes hnd hk with ⟨k', hk', -⟩ | ⟨hends, -⟩
      · exact .inl (hst.after.mem_owners hk')
      · exact .inr hends
  hooks l hl hl' := by
    obtain ⟨k, hk⟩ := hst.before.mem_lists hl
    obtain ⟨k', hk'⟩ := hst.after.mem_lists hl'
    refine ⟨k.hooks, k'.hooks, hst.before.hasHooks hk, hst.after.hasHooks hk', hst.hooks_eq hk hk',
      fun hno => Hooks.ext_get fun kind => ?_⟩
    have hnone : st.installs? l kind = none := by
      unfold installs?
      split
      · rename_i a ho
        refine Op.installs?_of_ne (fun hop => ?_) kind
        exact hno.elim (fun h => h hop) (fun h => h a ho)
      · rfl
    rw [hst.hooks_eq hk hk', hnone]
    rfl

/-- **The hooks of lists and their calls** along these steps, which end in the world `w`. -/
structure World.HookLaws [DecidableEq η] (B : Behaviour η σ α) (hookState : σ) (w : World η σ α)
    (steps : List (Step η σ α)) : Prop where
  /-- Every list has the hooks in force: of each kind the one installed last, or else the one that a
  copy has from its source, or else none. -/
  inForce : ∀ l ∈ w.owners, ∃ hs, w.HasHooks l hs ∧
    ∀ kind f, hs.get kind = f ↔ InForce steps l kind f
  keeps : ∀ st ∈ steps, st.KeepsHooks
  /-- Operations call the hooks that their list has at that moment. -/
  calls : ∀ st ∈ steps, ∀ c ∈ st.calls, Calling st.before.HasHooks st.op c.call.kind c.hook
  /-- The calls of all lists are answered one after another, in the one state that the hooks have. -/
  answers : B.Answers hookState (steps.flatMap Step.calls) w.store.hookState
  /-- What a hook with a state of its own replies depends on the state that it had at the start and on
  the calls of it so far, those through all lists taken together in the order in which they were
  made. -/
  replies : ∀ {τ : Type} (made : η → Call α → Prop) (f : η) (M : Machine τ α) (state : σ → τ),
    B.Runs made f M state → (∀ c ∈ steps.flatMap Step.calls, made c.hook c.call) →
    M.Replies (state hookState) (callsOf f (steps.flatMap Step.calls)) (state w.store.hookState)

/-- **The laws of hooks hold along every run.** -/
theorem World.hook_laws [DecidableEq η] (B : Behaviour η σ α) (budgets : Array (Option Nat))
    (hookState : σ) (ops : List (Op η α)) :
    HookLaws B hookState ((World.start budgets hookState).run B ops).2
      ((World.start budgets hookState).steps B ops) := by
  have hstart := sound_start (η := η) (α := α) budgets hookState
  have hanswers : B.Answers hookState _ _ := hstart.answers_run ops
  refine ⟨fun l hl => ?_, fun st hst => ?_, fun st hst => (hstart.played_of_mem_steps hst).calling,
    hanswers, fun made f M state hM hmade => hanswers.machine hM hmade⟩
  · obtain ⟨v, hw, hv⟩ := World.hooked_run B budgets hookState ops
    obtain ⟨k, hk⟩ := hw.mem_lists hl
    refine ⟨k.hooks, hw.hasHooks hk, fun kind f => ⟨fun hf => hf ▸ hv.inForce hk kind, fun hf => ?_⟩⟩
    exact (hv.inForce hk kind).unique hf
  · obtain ⟨v, v', hst⟩ := hstart.of_mem_steps hst
    exact hst.keepsHooks

/-- A session in which one hook copies three values in all. The lists 0 and 2 share it, and so do their
copies 4 and 6, also when the list 0 has another one. The fourth call fails, by whichever list. -/
theorem World.hook_laws_countdown :
    let t : ValueType := .unsigned 8
    let f : Hook := .copying 0 ⟨"d", .limit 3⟩
    let g : Hook := .copying 1 ⟨"e", .copy⟩
    let start : World Hook HookState Value := World.start #[] { counters := #[3, 0] }
    let ops : List (Op Hook Value) := [.collect [.number 5], .collect [.number 7],
      .installHook 0 .dup f, .setHooks 2 { dup := some f }, .duplicate 0 .clone, .duplicate 2 .clone,
      .installHook 0 .dup g, .duplicate 4 .clone, .duplicate 0 .clone, .duplicate 2 .clone]
    let w := (start.run t.behaviour ops).2
    let steps := start.steps t.behaviour ops
    ([0, 2, 4, 6].map (fun l => (w.store.heap.record? l).map (·.hooks.dup)) =
        [some g, some f, some f, some f] ∧
      t.behaviour.Runs (Hook.Apart f 0) f Machine.limit (·.counters[0]?) ∧
      (∀ c ∈ steps.flatMap Step.calls, f.Apart 0 c.hook c.call) ∧
      callsOf f (steps.flatMap Step.calls) =
        [⟨f, .dup (.number 5), .dup (.returns (some (.number 5)))⟩,
          ⟨f, .dup (.number 7), .dup (.returns (some (.number 7)))⟩,
          ⟨f, .dup (.number 5), .dup (.returns (some (.number 5)))⟩,
          ⟨f, .dup (.number 7), .dup (.returns none)⟩]) ∧
      HookLaws t.behaviour { counters := #[3, 0] } w steps := by
  intro t f g start ops w steps
  exact ⟨⟨by decide +kernel, t.runs_limit 0 "d" 3, by decide +kernel, by decide +kernel⟩,
    World.hook_laws _ _ _ ops⟩

end RingList
