import RingList.Proofs.HookSlots
import RingList.Proofs.Pointwise
import RingList.Proofs.Searching

/-!
# Calls of hooks

Lists hold names of hooks, and the hooks share one state. So all calls of a run are answered one after
another, each in the state that the call before it left behind, whichever list it is made for.

* `Behaviour.Answers`: calls that are answered one after another.
* `Calling`: the hook that an operation calls is the one in the slot of its list.
* `Step.Played`, `World.Sound.played`: both hold of every step.
-/

set_option autoImplicit false

namespace RingList

variable {η σ α : Type} {B : Behaviour η σ α}

/-! ## Calls and replies -/

/-- What a hook is called with. -/
inductive Call (α : Type) where
  | dup (x : α)
  /-- A hook that is handed a destroyed value can tell whether a panic is under way. -/
  | free (course : Course) (x : α)
  | matching (x key : α)
deriving DecidableEq, Repr

def Call.kind : Call α → HookKind
  | .dup _ => .dup
  | .free _ _ => .free
  | .matching _ _ => .matching

/-- What a hook replies. -/
inductive CallReply (α : Type) where
  | dup (reply : Reply (Option α))
  | free (reply : Reply Unit)
  | matching (reply : Reply Bool)
deriving DecidableEq, Repr

/-- A call of a hook. -/
structure HookCall (η α : Type) where
  hook : η
  call : Call α
  reply : CallReply α
deriving DecidableEq, Repr

/-- What comes of a call. -/
def Behaviour.call (B : Behaviour η σ α) (f : η) (s : σ) : Call α → CallReply α × σ
  | .dup x => (.dup (B.dup f s x).1, (B.dup f s x).2)
  | .free .ordinary x => (.free (B.free f s x).1, (B.free f s x).2)
  | .free .unwinding x => (.free (.returns ()), B.freeUnwinding f s x)
  | .matching x key => (.matching (B.matching f s x key).1, (B.matching f s x key).2)

/-- **The calls are answered one after another**, from the one state of the hooks to the other. -/
def Behaviour.Answers (B : Behaviour η σ α) : σ → List (HookCall η α) → σ → Prop
  | s, [], s' => s = s'
  | s, c :: cs, s' => (B.call c.hook s c.call).1 = c.reply ∧ B.Answers (B.call c.hook s c.call).2 cs s'

theorem Behaviour.Answers.append {cs cs' : List (HookCall η α)} {s₁ s₂ : σ} :
    ∀ {s : σ}, B.Answers s cs s₁ → B.Answers s₁ cs' s₂ → B.Answers s (cs ++ cs') s₂ := by
  induction cs with
  | nil =>
    intro s h h'
    obtain rfl : s = s₁ := h
    exact h'
  | cons c cs ih => exact fun h h' => ⟨h.1, ih h.2 h'⟩

/-! ## Calls among events -/

/-- After a hook panicked, a panic is under way. -/
def Reply.courseAfter {β : Type} (course : Course) : Reply β → Course
  | .returns _ => course
  | .panics => .unwinding

namespace Event

/-- The call of a hook that the event is. -/
def call? (course : Course) : Event η α → Option (HookCall η α)
  | .dup f x reply => some ⟨f, .dup x, .dup reply⟩
  | .free f x reply => some ⟨f, .free course x, .free reply⟩
  | .matching f x key reply => some ⟨f, .matching x key, .matching reply⟩
  | _ => none

def courseAfter (course : Course) : Event η α → Course
  | .dup _ _ reply => reply.courseAfter course
  | .free _ _ reply => reply.courseAfter course
  | .matching _ _ _ reply => reply.courseAfter course
  | _ => course

/-- The event is no call of a hook. -/
def Quiet (e : Event η α) : Prop := ∀ course, e.call? course = none ∧ e.courseAfter course = course

section
variable (source : Allocator) (a : Addr) (kind : BlockKind) (x : α)

@[simp] theorem quiet_served : (.served source a kind : Event η α).Quiet := fun _ => ⟨rfl, rfl⟩

@[simp] theorem quiet_refused : (.refused source kind : Event η α).Quiet := fun _ => ⟨rfl, rfl⟩

@[simp] theorem quiet_released : (.released source a kind : Event η α).Quiet := fun _ => ⟨rfl, rfl⟩

@[simp] theorem quiet_dropped : (.dropped x : Event η α).Quiet := fun _ => ⟨rfl, rfl⟩

end

end Event

/-- The calls of hooks among events, in order. -/
def callsIn : Course → List (Event η α) → List (HookCall η α)
  | _, [] => []
  | course, e :: evs => (e.call? course).toList ++ callsIn (e.courseAfter course) evs

def courseAfter (course : Course) (evs : List (Event η α)) : Course :=
  evs.foldl Event.courseAfter course

theorem callsIn_append (evs evs' : List (Event η α)) (course : Course) :
    callsIn course (evs ++ evs') = callsIn course evs ++ callsIn (courseAfter course evs) evs' := by
  induction evs generalizing course with
  | nil => rfl
  | cons e evs ih => simp [callsIn, courseAfter, ih]

/-- The calls of hooks of a step. No panic is under way when a program asks for an operation. -/
def Step.calls (st : Step η σ α) : List (HookCall η α) := callsIn .ordinary st.events

/-! ## Playing events -/

/-- **What events say of hooks**: the calls are answered one after another, and every hook is one that
may be called. -/
structure Behaviour.Plays (B : Behaviour η σ α) (P : HookKind → η → Prop) (s : σ) (course : Course)
    (evs : List (Event η α)) (s' : σ) (course' : Course) : Prop where
  answers : B.Answers s (callsIn course evs) s'
  ends : courseAfter course evs = course'
  hooks : ∀ c ∈ callsIn course evs, P c.call.kind c.hook

section
variable {P : HookKind → η → Prop} {s s₁ s₂ : σ} {course c₁ c₂ : Course} {evs evs' : List (Event η α)}
  {f : η} {x key : α}

namespace Behaviour.Plays

theorem append (h : B.Plays P s course evs s₁ c₁) (h' : B.Plays P s₁ c₁ evs' s₂ c₂) :
    B.Plays P s course (evs ++ evs') s₂ c₂ := by
  obtain ⟨hans, rfl, hhooks⟩ := h
  obtain ⟨hans', rfl, hhooks'⟩ := h'
  refine ⟨?_, List.foldl_append, ?_⟩
  · rw [callsIn_append]
    exact hans.append hans'
  · rw [callsIn_append]
    intro c hc
    exact (List.mem_append.1 hc).elim (hhooks c) (hhooks' c)

theorem quiet (h : ∀ e ∈ evs, e.Quiet) : B.Plays P s course evs s course := by
  induction evs with
  | nil => exact ⟨rfl, rfl, by simp [callsIn]⟩
  | cons e evs ih =>
    obtain ⟨hans, hcourse, hhooks⟩ := ih fun e' he' => h e' (List.mem_cons_of_mem _ he')
    obtain ⟨hnone, hsame⟩ := h e List.mem_cons_self course
    refine ⟨?_, ?_, ?_⟩
    · simpa [callsIn, hnone, hsame] using hans
    · simpa [courseAfter, hsame] using hcourse
    · simpa [callsIn, hnone, hsame] using hhooks

theorem dup (hf : P .dup f) : B.Plays P s course [.dup f x (B.dup f s x).1] (B.dup f s x).2
    ((B.dup f s x).1.courseAfter course) :=
  ⟨⟨rfl, rfl⟩, rfl, by simpa [callsIn, Event.call?, Call.kind] using hf⟩

theorem free (hf : P .free f) : B.Plays P s .ordinary [.free f x (B.free f s x).1] (B.free f s x).2
    ((B.free f s x).1.courseAfter .ordinary) :=
  ⟨⟨rfl, rfl⟩, rfl, by simpa [callsIn, Event.call?, Call.kind] using hf⟩

theorem freeUnwinding (hf : P .free f) :
    B.Plays P s .unwinding [.free f x (.returns ())] (B.freeUnwinding f s x) .unwinding :=
  ⟨⟨rfl, rfl⟩, rfl, by simpa [callsIn, Event.call?, Call.kind] using hf⟩

theorem matching (hf : P .matching f) : B.Plays P s course
    [.matching f x key (B.matching f s x key).1] (B.matching f s x key).2
    ((B.matching f s x key).1.courseAfter course) :=
  ⟨⟨rfl, rfl⟩, rfl, by simpa [callsIn, Event.call?, Call.kind] using hf⟩

end Behaviour.Plays

/-! ## What is called -/

/-- The value is discarded. -/
theorem plays_discarding {hooks : Hooks η} (hP : ∀ f, hooks.free = some f → P .free f) :
    B.Plays P s course [(discarding B course hooks s x).event]
      (discarding B course hooks s x).hookState
      ((discarding B course hooks s x).reply.courseAfter course) := by
  unfold discarding
  cases hf : hooks.free with
  | none => exact .quiet (by simp)
  | some f =>
    cases course with
    | ordinary => exact .free (hP f hf)
    | unwinding => exact .freeUnwinding (hP f hf)

/-- Nodes are destroyed one after another. -/
theorem plays_teardown {hooks : Hooks η} (hP : ∀ f, hooks.free = some f → P .free f)
    (course : Course) (source : Allocator) (s : σ) (es : List (Addr × α)) : ∃ course',
      B.Plays P s course (teardown B course hooks source s es).events
        (teardown B course hooks source s es).hookState course' := by
  induction es generalizing s with
  | nil => exact ⟨course, .quiet (by simp [teardown])⟩
  | cons e es ih =>
    obtain ⟨a, x⟩ := e
    have hreleased : B.Plays P s course [.released source a .node] s course :=
      .quiet (by simp)
    have hvalue := hreleased.append (plays_discarding (x := x) hP)
    cases hd : (discarding B course hooks s x).reply with
    | panics =>
      rw [teardown_of_panics hd]
      exact ⟨_, hvalue⟩
    | returns u =>
      rw [hd] at hvalue
      obtain ⟨course', hrest⟩ := ih (discarding B course hooks s x).hookState
      rw [teardown_of_returns hd]
      exact ⟨course', hvalue.append hrest⟩

theorem plays_eventsWithHeader {t : Teardown η σ α} (source : Allocator) (l : Addr)
    (h : B.Plays P s course t.events s₁ c₁) :
    B.Plays P s course (t.eventsWithHeader source l) s₁ c₁ := by
  unfold Teardown.eventsWithHeader
  cases t.left with
  | none => exact h.append (.quiet (by simp))
  | some es => exact h

/-- **Values are copied one after another.** A panic is under way afterwards if the hook panicked. -/
theorem plays_copying {dup : η} (hP : P .dup dup) (source : Allocator) (xs : List α)
    (v : View η σ α) : ∃ evs, (copying B dup source v xs).view.log = v.log ++ evs ∧
      B.Plays P v.hookState .ordinary evs (copying B dup source v xs).view.hookState
        ((copying B dup source v xs).stop.elim .ordinary Stop.course) := by
  induction xs generalizing v with
  | nil => exact ⟨[], by simp [copying], .quiet (by simp)⟩
  | cons x xs ih =>
    have hserved : B.Plays P v.hookState .ordinary [.served source v.fresh .node] v.hookState
        .ordinary := .quiet (by simp)
    have hcalled := hserved.append (.dup (x := x) hP)
    cases hserve : v.serves source with
    | false =>
      rw [copying_of_refused hserve]
      exact ⟨_, rfl, .quiet (by simp)⟩
    | true =>
      rcases hd : (B.dup dup v.hookState x).1 with (_ | w) | _
      · rw [hd] at hcalled
        rw [copying_of_fails hserve hd]
        exact ⟨_, List.append_assoc _ _ _, hcalled.append (.quiet (by simp))⟩
      · rw [hd] at hcalled
        rw [copying_of_copies hserve hd]
        obtain ⟨evs, hlog, hrest⟩ := ih ((v.supply source .node).heeding
          [.dup dup x (.returns (some w))] (B.dup dup v.hookState x).2)
        exact ⟨_, by simpa using hlog, hcalled.append hrest⟩
      · rw [hd] at hcalled
        rw [copying_of_panics hserve hd]
        exact ⟨_, List.append_assoc _ _ _, hcalled⟩

/-- **A list is duplicated.** A partial copy is destroyed with the hooks of the source. -/
theorem plays_duplicating {v : View η σ α} {k : Strip η α} {fallback : η}
    (hdup : P .dup (k.hooks.dup.getD fallback)) (hfree : ∀ f, k.hooks.free = some f → P .free f) :
    ∃ evs course', (duplicating B v k fallback).view.log = v.log ++ evs ∧
      B.Plays P v.hookState .ordinary evs (duplicating B v k fallback).view.hookState course' := by
  obtain ⟨evs, hlog, hcopy⟩ := plays_copying (B := B) hdup k.allocator k.values
    (v.supply k.allocator .header)
  have hserved : B.Plays P v.hookState .ordinary [.served k.allocator v.fresh .header] v.hookState
      .ordinary := .quiet (by simp)
  have hcopied := hserved.append hcopy
  cases hserve : v.serves k.allocator with
  | false =>
    rw [duplicating_of_refused hserve]
    exact ⟨_, _, rfl, .quiet (by simp)⟩
  | true =>
    cases hstop : (copyingAll B v k fallback).stop with
    | none =>
      rw [duplicating_of_complete hserve hstop]
      exact ⟨_, _, by simpa [copyingAll] using hlog, hcopied⟩
    | some e =>
      have hstop' : (copying B (k.hooks.dup.getD fallback) k.allocator
        (v.supply k.allocator .header) k.values).stop = some e := hstop
      rw [hstop'] at hcopied
      obtain ⟨course', hdown⟩ := plays_teardown (B := B) hfree e.course k.allocator
        (copyingAll B v k fallback).view.hookState (copyingAll B v k fallback).copies
      rw [duplicating_of_partial hserve hstop]
      refine ⟨_, course', ?_, hcopied.append (plays_eventsWithHeader k.allocator v.fresh hdown)⟩
      simp [copyingAll, hlog]

/-- **A hook is called for one pair after another.** -/
theorem plays_consulting {goOn : Bool} (hP : P .matching f) (ps : List (α × α)) : ∃ course',
    B.Plays P s .ordinary (consulting B f goOn s ps).events (consulting B f goOn s ps).hookState
      course' := by
  induction ps generalizing s with
  | nil => exact ⟨_, .quiet (by simp [consulting, matchEvents])⟩
  | cons p ps ih =>
    have hcall : B.Plays P s .ordinary [.matching f p.1 p.2 (B.matching f s p.1 p.2).1]
        (B.matching f s p.1 p.2).2 _ := .matching hP
    by_cases hr : (B.matching f s p.1 p.2).1 = .returns goOn
    · obtain ⟨course', hrest⟩ := ih (s := (B.matching f s p.1 p.2).2)
      rw [hr] at hcall
      rw [consulting_passes hr]
      exact ⟨course', hcall.append hrest⟩
    · rw [consulting_halts hr]
      exact ⟨_, hcall⟩

theorem plays_equating (hP : P .matching f) (xs ys : List α) : ∃ course',
    B.Plays P s .ordinary (equating B f s xs ys).events (equating B f s xs ys).hookState course' := by
  unfold equating
  split
  · rename_i hlen
    rw [comparing_eq_consulting hlen]
    exact plays_consulting hP _
  · exact ⟨_, .quiet (by simp)⟩

end

/-! ## Operations -/

/-- **The hooks that an operation may call**, when lists have these hooks: the ones in the slots of the
list that it works on, the one that the program names for want of one, and what the program calls
itself. -/
inductive Calling (has : Addr → Hooks η → Prop) : Op η α → HookKind → η → Prop
  | copying {l : Addr} {hs : Hooks η} (fallback : η) (h : has l hs) :
      Calling has (.duplicate l fallback) .dup (hs.dup.getD fallback)
  /-- A partial copy has the hooks of its source. -/
  | destroying {op : Op η α} {l : Addr} {hs : Hooks η} {f : η} (hop : op.destroys? = some l)
      (h : has l hs) (hf : hs.free = some f) : Calling has op .free f
  | searching {l : Addr} {hs : Hooks η} (key : α) (fallback : η) (h : has l hs) :
      Calling has (.search l key fallback) .matching (hs.matching.getD fallback)
  /-- Comparing lists is no matter of their hooks. -/
  | comparing (l m : Addr) (rel : η) : Calling has (.equal l m rel) .matching rel
  | calledDup (f : η) (x : α) : Calling has (.callDup f x) .dup f
  | calledFree (f : η) (x : α) : Calling has (.callFree f x) .free f
  | calledMatching (f : η) (x key : α) : Calling has (.callMatching f x key) .matching f

theorem Calling.imp {has has' : Addr → Hooks η → Prop} {op : Op η α} {kind : HookKind} {f : η}
    (h : Calling has op kind f) (himp : ∀ l hs, has l hs → has' l hs) : Calling has' op kind f := by
  cases h with
  | copying fallback h => exact .copying fallback (himp _ _ h)
  | destroying hop h hf => exact .destroying hop (himp _ _ h) hf
  | searching key fallback h => exact .searching key fallback (himp _ _ h)
  | comparing => exact .comparing _ _ _
  | calledDup => exact .calledDup _ _
  | calledFree => exact .calledFree _ _
  | calledMatching => exact .calledMatching _ _ _

/-- The list has these hooks in the view. -/
def View.HasHooks (v : View η σ α) (l : Addr) (hs : Hooks η) : Prop :=
  ∃ k, (l, k) ∈ v.lists ∧ k.hooks = hs

theorem quiet_servings (source : Allocator) (a n : Nat) :
    ∀ e ∈ (View.servings source a n : List (Event η α)), e.Quiet := by
  intro e he
  obtain ⟨b, -, rfl⟩ := List.mem_map.1 he
  exact Event.quiet_served source b .node

@[simp] theorem View.supplyMany_hookState (source : Allocator) (n : Nat) (v : View η σ α) :
    (v.supplyMany source n).hookState = v.hookState := by
  induction n generalizing v with
  | zero => rfl
  | succ n ih => exact (ih (v.supply source .node)).trans rfl

/-- **What an operation calls**, but for those that only match values. -/
theorem Effect.plays {v v' : View η σ α} {op : Op η α} {o : Outcome η α} (he : Effect B v op o v')
    (hop : op.consults = false) : ∃ evs course', v'.log = v.log ++ evs ∧
      B.Plays (Calling v.HasHooks op) v.hookState .ordinary evs v'.hookState course' := by
  have hsame : v.log = v.log ++ [] := by simp
  have hfree : ∀ {l : Addr} {k : Strip η α}, (l, k) ∈ v.lists → op.destroys? = some l →
      ∀ f, k.hooks.free = some f → Calling v.HasHooks op .free f :=
    fun hl hdes f hf => .destroying hdes ⟨_, hl, rfl⟩ hf
  have hsilent : ∀ {evs : List (Event η α)}, (∀ e ∈ evs, e.Quiet) →
      B.Plays (Calling v.HasHooks op) v.hookState .ordinary evs v.hookState .ordinary :=
    fun h => .quiet h
  cases he with
  | consulted hop' => cases hop.symm.trans hop'
  | calledDup f x => exact ⟨_, _, rfl, .dup (.calledDup f x)⟩
  | calledFree f x => exact ⟨_, _, rfl, .free (.calledFree f x)⟩
  | duplicated fallback hl =>
    obtain ⟨evs, course', hlog, h⟩ := plays_duplicating (B := B)
      (.copying fallback ⟨_, hl, rfl⟩) (hfree hl rfl)
    exact ⟨evs, course', hlog, h⟩
  | @deleted l k rest xs ys a x hl hk =>
    have hm := hl.mem_iff.2 List.mem_cons_self
    have hreleased : B.Plays (Calling v.HasHooks (.delete l a)) v.hookState .ordinary
        [.released k.allocator a .node] v.hookState .ordinary := hsilent (by simp)
    exact ⟨_, _, rfl, hreleased.append (plays_discarding (hfree hm rfl))⟩
  | cleared hl =>
    have hm := hl.mem_iff.2 List.mem_cons_self
    obtain ⟨course', h⟩ := plays_teardown (B := B) (hfree hm rfl) _ _ _ _
    exact ⟨_, course', rfl, h⟩
  | @destroyed op l k rest hends hl =>
    have hm := hl.mem_iff.2 List.mem_cons_self
    have hdes : op.destroys? = some l := by
      rcases Op.eq_of_ends hends with rfl | rfl <;> rfl
    obtain ⟨course', h⟩ := plays_teardown (B := B) (hfree hm hdes) _ _ _ _
    exact ⟨_, course', rfl, plays_eventsWithHeader _ _ h⟩
  | created hserve =>
    exact ⟨_, _, rfl, hsilent (by simp)⟩
  | notCreated hserve =>
    exact ⟨_, _, rfl, hsilent (by simp)⟩
  | placed hl hp hserve =>
    exact ⟨_, _, rfl, hsilent (by simp)⟩
  | notPlaced hl hp hserve =>
    exact ⟨_, _, rfl, hsilent (by simp)⟩
  | taken hl ht =>
    exact ⟨_, _, rfl, hsilent (by simp)⟩
  | @collected xs hs =>
    refine ⟨.served .global v.fresh .header :: View.servings .global (v.fresh + 1) xs.length,
      .ordinary, by simp, ?_⟩
    rw [View.having_hookState, View.supplyMany_hookState]
    exact hsilent (by simpa using quiet_servings _ _ _)
  | extended hl hs =>
    refine ⟨_, .ordinary, View.supplyMany_log _, ?_⟩
    rw [View.having_hookState, View.supplyMany_hookState]
    exact hsilent (quiet_servings _ _ _)
  | _ => exact ⟨[], _, hsame, hsilent (by simp)⟩

/-! ## Steps -/

/-- **What a step says of hooks**: its calls are answered one after another, and the hooks are those of
its lists. -/
structure Step.Played (B : Behaviour η σ α) (st : Step η σ α) : Prop where
  answers : B.Answers st.before.store.hookState st.calls st.after.store.hookState
  calling : ∀ c ∈ st.calls, Calling st.before.HasHooks st.op c.call.kind c.hook

section
variable {w : World η σ α} {v : View η σ α} {op : Op η α} {evs : List (Event η α)} {s' : σ}
  {course' : Course} {l m : Addr} {k k' : Strip η α}

theorem World.Sound.hasHooks_of_view (hw : w.Sound v) (l : Addr) (hs : Hooks η)
    (h : v.HasHooks l hs) : w.HasHooks l hs := by
  obtain ⟨k, hl, rfl⟩ := h
  exact hw.hasHooks hl

theorem World.Sound.played_of_plays (hw : w.Sound v) (hevs : (w.stepOf B op).events = evs)
    (hs' : (w.perform B op).2.store.hookState = s')
    (h : B.Plays (Calling v.HasHooks op) v.hookState .ordinary evs s' course') :
    (w.stepOf B op).Played B := by
  obtain ⟨hans, -, hhooks⟩ := h
  subst hevs hs'
  refine ⟨?_, fun c hc => (hhooks c hc).imp hw.hasHooks_of_view⟩
  rw [← hw.shows.hookState] at hans
  exact hans

theorem World.played_of_misused {why : Misuse} (hc : op.check w = .error why) :
    (w.stepOf B op).Played B := by
  have hafter : (w.stepOf B op).after = w := congrArg Prod.snd (perform_of_error hc)
  have hcalls : (w.stepOf B op).calls = [] := by
    have hevs : (w.stepOf B op).events = [] := by
      unfold Step.events
      rw [hafter]
      simp [stepOf]
    rw [Step.calls, hevs]
    rfl
  refine ⟨?_, by simp [hcalls]⟩
  rw [hcalls, hafter]
  exact rfl

theorem World.Sound.played_search (hw : w.Sound v) (l : Addr) (key : α) (fallback : η) :
    (w.stepOf B (.search l key fallback)).Played B := by
  cases hc : (Op.search l key fallback : Op η α).check w with
  | error why => exact played_of_misused hc
  | ok u =>
    obtain ⟨k, hk⟩ := hw.mem_lists (owners_of_expectList hc)
    obtain ⟨-, hst⟩ := hw.consults (B := B) hc rfl rfl (search_keeps B l key fallback)
      (search_settles key fallback hk)
    have hcalling : Calling v.HasHooks _ _ _ := .searching key fallback ⟨k, hk, rfl⟩
    obtain ⟨course', h⟩ := plays_consulting hcalling (searchPairs k.entries key)
    exact hw.played_of_plays hst.events hst.hookState h

theorem World.Sound.played_equal (hw : w.Sound v) (l m : Addr) (rel : η) :
    (w.stepOf B (.equal l m rel)).Played B := by
  cases hc : (Op.equal l m rel : Op η α).check w with
  | error why => exact played_of_misused hc
  | ok u =>
    obtain ⟨_, hl, hm⟩ := bind_ok_inv hc
    obtain ⟨k, hk⟩ := hw.mem_lists (owners_of_expectList hl)
    obtain ⟨k', hk'⟩ := hw.mem_lists (owners_of_expectList hm)
    obtain ⟨-, hst⟩ := hw.consults (B := B) hc rfl rfl (equal_keeps B l m rel)
      (equal_settles rel hk hk')
    have hcalling : Calling v.HasHooks (.equal l m rel : Op η α) _ _ := .comparing l m rel
    obtain ⟨course', h⟩ := plays_equating hcalling k.values k'.values
    exact hw.played_of_plays hst.events hst.hookState h

theorem World.Sound.played_callMatching (hw : w.Sound v) (f : η) (x key : α) :
    (w.stepOf B (.callMatching f x key)).Played B := by
  let c : Comparison η σ α := ⟨[.matching f x key (B.matching f v.hookState x key).1],
    (B.matching f v.hookState x key).2, (B.matching f v.hookState x key).1⟩
  have hc : (Op.callMatching f x key : Op η α).check w = .ok () := rfl
  obtain ⟨-, hst⟩ := hw.consults (c := c) hc rfl rfl (callMatching_keeps B f x key)
    (callMatching_settles B f x key v)
  exact hw.played_of_plays hst.events hst.hookState (.matching (.calledMatching f x key))

/-- **Every step.** -/
theorem World.Sound.played (hw : w.Sound v) (op : Op η α) : (w.stepOf B op).Played B := by
  cases hop : op.consults with
  | false =>
    obtain ⟨v', hst⟩ := hw.step (B := B) op
    obtain ⟨evs, course', hlog, h⟩ := hst.effect.plays hop
    exact hw.played_of_plays (hst.events_eq hlog) hst.after.shows.hookState h
  | true =>
    cases op with
    | search l key fallback => exact hw.played_search l key fallback
    | equal l m rel => exact hw.played_equal l m rel
    | callMatching f x key => exact hw.played_callMatching f x key
    | _ => cases hop

theorem World.Sound.played_of_mem_steps {st : Step η σ α} {ops : List (Op η α)} (hw : w.Sound v)
    (hst : st ∈ w.steps B ops) : st.Played B := by
  induction ops generalizing w v with
  | nil => cases hst
  | cons op ops ih =>
    rcases List.mem_cons.1 hst with rfl | hst
    · exact hw.played op
    · obtain ⟨v', hstep⟩ := hw.step (B := B) op
      exact ih hstep.after hst

/-- **The calls of a run** are answered one after another. -/
theorem World.Sound.answers_run (ops : List (Op η α)) (hw : w.Sound v) :
    B.Answers w.store.hookState ((w.steps B ops).flatMap Step.calls)
      (w.run B ops).2.store.hookState := by
  induction ops generalizing w v with
  | nil => exact rfl
  | cons op ops ih =>
    obtain ⟨v', hst⟩ := hw.step (B := B) op
    exact (hw.played op).answers.append (ih hst.after)

end

end RingList
