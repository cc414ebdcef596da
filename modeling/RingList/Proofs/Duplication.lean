import RingList.Proofs.Attribution
import RingList.Proofs.Separation
import RingList.Proofs.Walks

/-!
# Copies that fail

A duplication can fail at any value of its source: the node for the copy is refused, the hook gives
none, or it panics. The copies made so far are destroyed then, and that may end early as well, when
the hook for destroyed values panics. What has happened by the time the failure is reported is a
matter of order: a node is served before the hook is called, and given back before its value is
destroyed.

* `Destruction`: the events of destroying a list, up to its end or to a panic.
* `Copies`: the events of copying values one after another, up to the end or to a failure.
* `World.duplicates`: the events of every duplication, and what it leaves as it was.
-/

set_option autoImplicit false

namespace RingList

variable {η σ α : Type} {B : Behaviour η σ α}

/-! ## Destroying a list -/

section
variable (evs : List (Event η α)) (source : Allocator) (b : Addr) (kind : BlockKind) (f : η) (x : α)
  (reply : Reply Unit)

@[simp] theorem freed_nil : freed ([] : List (Event η α)) = [] := rfl
@[simp] theorem dropped_nil : dropped ([] : List (Event η α)) = [] := rfl
@[simp] theorem freed_released : freed (.released source b kind :: evs) = freed evs := rfl
@[simp] theorem dropped_released : dropped (.released source b kind :: evs) = dropped evs := rfl
@[simp] theorem freed_free : freed (.free f x reply :: evs) = x :: freed evs := rfl
@[simp] theorem dropped_free : dropped (.free f x reply :: evs) = dropped evs := rfl

end

/-- The event is the call of a hook that panics. -/
def Event.isPanic : Event η α → Bool
  | .dup _ _ .panics | .free _ _ .panics | .matching _ _ _ .panics => true
  | _ => false

/-- No hook panics. -/
def Calm (evs : List (Event η α)) : Prop := ∀ e ∈ evs, e.isPanic = false

/-- **The events of destroying the list `l`**, which has these hooks and entries and gives its blocks
back to `source`, and why the destruction stopped if it did. -/
inductive Destruction (hooks : Hooks η) (source : Allocator) (l : Addr) (es : List (Addr × α)) :
    Option Stop → List (Event η α) → Prop
  /-- Node by node from the front on, and the header last. -/
  | complete {evs : List (Event η α)} (h : GivesUp hooks source es evs) (hcalm : Calm evs) :
      Destruction hooks source l es none (evs ++ [.released source l .header])
  /-- The hook panics at the value `x`: nothing more is given back, and the values behind `x` are not
  destroyed. -/
  | interrupted {done left : List (Addr × α)} {a : Addr} {x : α} {f : η} {evs : List (Event η α)}
      (hes : es = done ++ (a, x) :: left) (hf : hooks.free = some f)
      (h : GivesUp hooks source done evs) (hcalm : Calm evs) :
      Destruction hooks source l es (some (.panicked .free))
        (evs ++ [.released source a .node, .free f x .panics])

section
variable {course : Course} {hooks : Hooks η} {source : Allocator} {l : Addr}
  {es : List (Addr × α)} {evs : List (Event η α)} {stop : Option Stop}

theorem isPanic_discarding {σ₀ : σ} {x : α} {u : Unit}
    (h : (discarding B course hooks σ₀ x).reply = .returns u) :
    (discarding B course hooks σ₀ x).event.isPanic = false := by
  unfold discarding at *
  rcases hf : hooks.free with _ | f <;> rw [hf] at h
  · rfl
  · cases course with
    | unwinding => rfl
    | ordinary => exact (congrArg (fun reply => (Event.free f x reply).isPanic) h).trans rfl

/-- The hook that panics is the one for destroyed values. -/
theorem discarding_panics {σ₀ : σ} {x : α} (h : (discarding B course hooks σ₀ x).reply = .panics) :
    ∃ f, hooks.free = some f ∧ (discarding B course hooks σ₀ x).event = .free f x .panics := by
  unfold discarding at *
  rcases hf : hooks.free with _ | f
  · simp [hf] at h
  · cases course with
    | unwinding => simp [hf] at h
    | ordinary =>
      simp only [hf] at h
      exact ⟨f, rfl, by simp [h]⟩

theorem calm_cons {e : Event η α} (he : e.isPanic = false) (h : Calm evs) : Calm (e :: evs) := by
  intro e' he'
  rcases List.mem_cons.1 he' with rfl | he'
  · exact he
  · exact h e' he'

/-- One more node is given back at the front. -/
theorem Destruction.cons {a : Addr} {x : α} {e : Event η α} (he : Destroys hooks x e)
    (hcalm : e.isPanic = false) (h : Destruction hooks source l es stop evs) :
    Destruction hooks source l ((a, x) :: es) stop (.released source a .node :: e :: evs) := by
  cases h with
  | complete h hc => exact .complete (.cons he h) (calm_cons rfl (calm_cons hcalm hc))
  | interrupted hes hf h hc =>
    exact .interrupted (by rw [hes]; rfl) hf (.cons he h) (calm_cons rfl (calm_cons hcalm hc))

theorem destruction_teardown (B : Behaviour η σ α) (course : Course) (hooks : Hooks η)
    (source : Allocator) (l : Addr) (es : List (Addr × α)) (σ₀ : σ) :
    Destruction hooks source l es (teardown B course hooks source σ₀ es).stop
      ((teardown B course hooks source σ₀ es).eventsWithHeader source l) := by
  induction es generalizing σ₀ with
  | nil => exact .complete .nil (fun _ he => nomatch he)
  | cons e es ih =>
    obtain ⟨a, x⟩ := e
    cases hd : (discarding B course hooks σ₀ x).reply with
    | panics =>
      obtain ⟨f, hf, he⟩ := discarding_panics hd
      rw [teardown_of_panics hd, he]
      exact .interrupted (List.nil_append _).symm hf .nil (by simp [Calm])
    | returns u =>
      have he : Destroys hooks x (discarding B course hooks σ₀ x).event := destroys_discarding σ₀ x
      have hrest := (ih (discarding B course hooks σ₀ x).hookState).cons (a := a) he
        (isPanic_discarding hd)
      rw [teardown_of_returns hd]
      unfold Teardown.stop Teardown.eventsWithHeader at hrest ⊢
      cases hleft : (teardown B course hooks source
          (discarding B course hooks σ₀ x).hookState es).left with
      | none => simpa [hleft] using hrest
      | some left => simpa [hleft] using hrest

/-- The values that are handed to a hook or dropped when nodes are given up. -/
theorem GivesUp.values (h : GivesUp hooks source es evs) :
    (hooks.free = none → freed evs = [] ∧ dropped evs = es.map (·.2)) ∧
      ∀ f, hooks.free = some f → freed evs = es.map (·.2) ∧ dropped evs = [] := by
  induction h with
  | nil => exact ⟨fun _ => ⟨rfl, rfl⟩, fun _ _ => ⟨rfl, rfl⟩⟩
  | @cons a x es e evs he h ih =>
    cases he with
    | handed hf =>
      refine ⟨fun hn => absurd (hn.symm.trans hf) (by simp), fun g hg => ?_⟩
      obtain ⟨hfreed, hdropped⟩ := ih.2 g hg
      exact ⟨congrArg (x :: ·) hfreed, hdropped⟩
    | dropped hf =>
      refine ⟨fun hn => ?_, fun g hg => absurd (hf.symm.trans hg) (by simp)⟩
      obtain ⟨hfreed, hdropped⟩ := ih.1 hn
      exact ⟨hfreed, congrArg (x :: ·) hdropped⟩

/-- Values are destroyed from the first one on. -/
theorem Destruction.prefix_values (h : Destruction hooks source l es stop evs) :
    freed evs ++ dropped evs <+: es.map (·.2) := by
  cases h with
  | @complete evs h hcalm =>
    cases hf : hooks.free with
    | none =>
      obtain ⟨hfreed, hdropped⟩ := h.values.1 hf
      exact ⟨[], by simp [hfreed, hdropped]⟩
    | some f =>
      obtain ⟨hfreed, hdropped⟩ := h.values.2 f hf
      exact ⟨[], by simp [hfreed, hdropped]⟩
  | @interrupted done left a x f evs hes hf h hcalm =>
    obtain ⟨hfreed, hdropped⟩ := h.values.2 f hf
    exact ⟨left.map (·.2), by simp [hfreed, hdropped, hes]⟩

/-- The events of giving up nodes. -/
theorem GivesUp.mem {e : Event η α} (h : GivesUp hooks source es evs) (he : e ∈ evs) :
    (∃ a ∈ es.map (·.1), e = .released source a .node) ∨ ∃ x, Destroys hooks x e := by
  induction h with
  | nil => cases he
  | @cons a x es e' evs he' h ih =>
    simp only [List.mem_cons] at he
    rcases he with rfl | rfl | he
    · exact .inl ⟨a, by simp, rfl⟩
    · exact .inr ⟨x, he'⟩
    · rcases ih he with ⟨b, hb, rfl⟩ | hx
      · exact .inl ⟨b, by simp [List.mem_map.1 hb], rfl⟩
      · exact .inr hx

/-- The events of destroying a list give back its blocks and destroy values. -/
theorem Destruction.mem {e : Event η α} (h : Destruction hooks source l es stop evs) (he : e ∈ evs) :
    (∃ a ∈ l :: es.map (·.1), ∃ kind, e = .released source a kind) ∨ ∃ x, Destroys hooks x e := by
  cases h with
  | complete h hcalm =>
    rcases List.mem_append.1 he with he | he
    · rcases h.mem he with ⟨a, ha, rfl⟩ | hx
      · exact .inl ⟨a, List.mem_cons_of_mem _ ha, .node, rfl⟩
      · exact .inr hx
    · rw [List.mem_singleton.1 he]
      exact .inl ⟨l, List.mem_cons_self, .header, rfl⟩
  | interrupted hes hf h hcalm =>
    rcases List.mem_append.1 he with he | he
    · rcases h.mem he with ⟨a, ha, rfl⟩ | hx
      · refine .inl ⟨a, List.mem_cons_of_mem _ ?_, .node, rfl⟩
        rw [hes, List.map_append]
        exact List.mem_append_left _ ha
      · exact .inr hx
    · simp only [List.mem_cons, List.not_mem_nil, or_false] at he
      rcases he with rfl | rfl
      · exact .inl ⟨_, by simp [hes], .node, rfl⟩
      · exact .inr ⟨_, .handed hf⟩

theorem Destruction.copied (h : Destruction hooks source l es stop evs) : copied evs = [] := by
  refine List.filterMap_eq_nil_iff.2 fun e he => ?_
  rcases h.mem he with ⟨_, _, _, rfl⟩ | ⟨_, hx⟩
  · rfl
  · cases hx <;> rfl

end

/-! ## Copying values -/

/-- **The events of copying values** one after another into nodes from `source`, of which `a` is the
next one: the copies, and why the copying stopped before the last value if it did. -/
inductive Copies (source : Allocator) (dup : η) :
    Addr → List α → List (Addr × α) → Option Stop → List (Event η α) → Prop
  | done {a : Addr} : Copies source dup a [] [] none []
  | made {a : Addr} {x w : α} {xs : List α} {copies : List (Addr × α)} {stop : Option Stop}
      {evs : List (Event η α)} (h : Copies source dup (a + 1) xs copies stop evs) :
      Copies source dup a (x :: xs) ((a, w) :: copies) stop
        (.served source a .node :: .dup dup x (.returns (some w)) :: evs)
  | refused {a : Addr} {x : α} {xs : List α} :
      Copies source dup a (x :: xs) [] (some (.refused .node)) [.refused source .node]
  /-- The node for a value that is not copied is given back at once. -/
  | notCopied {a : Addr} {x : α} {xs : List α} :
      Copies source dup a (x :: xs) [] (some .notCopied)
        [.served source a .node, .dup dup x (.returns none), .released source a .node]
  /-- The node for the value that the hook panics at is not given back. -/
  | panicked {a : Addr} {x : α} {xs : List α} :
      Copies source dup a (x :: xs) [] (some (.panicked .dup))
        [.served source a .node, .dup dup x .panics]

section
variable {dup : η} {source : Allocator} {a : Addr} {xs : List α} {copies : List (Addr × α)}
  {stop : Option Stop} {evs : List (Event η α)}

theorem copies_copying (dup : η) (source : Allocator) (xs : List α) (v : View η σ α) :
    ∃ evs, (copying B dup source v xs).view.log = v.log ++ evs ∧
      Copies source dup v.fresh xs (copying B dup source v xs).copies
        (copying B dup source v xs).stop evs := by
  induction xs generalizing v with
  | nil => exact ⟨[], by simp [copying], .done⟩
  | cons x xs ih =>
    cases hserve : v.serves source with
    | false =>
      rw [copying_of_refused hserve]
      exact ⟨_, rfl, .refused⟩
    | true =>
      rcases hd : (B.dup dup v.hookState x).1 with (_ | w) | _
      · rw [copying_of_fails hserve hd]
        exact ⟨_, by simp, .notCopied⟩
      · rw [copying_of_copies hserve hd]
        obtain ⟨evs, hlog, h⟩ := ih ((v.supply source .node).heeding
          [.dup dup x (.returns (some w))] (B.dup dup v.hookState x).2)
        exact ⟨_, by simpa using hlog, .made h⟩
      · rw [copying_of_panics hserve hd]
        exact ⟨_, by simp, .panicked⟩

/-- The copies are in the next nodes, in order. -/
theorem Copies.addresses (h : Copies source dup a xs copies stop evs) :
    copies.map (·.1) = List.range' a copies.length := by
  induction h with
  | made h ih => rw [List.map_cons, ih, List.length_cons, List.range'_succ]
  | _ => rfl

theorem Copies.values (h : Copies source dup a xs copies stop evs) :
    copied evs = copies.map (·.2) ∧ freed evs = [] ∧ dropped evs = [] := by
  induction h with
  | made h ih => exact ⟨congrArg (_ :: ·) ih.1, ih.2.1, ih.2.2⟩
  | _ => exact ⟨rfl, rfl, rfl⟩

/-- Copying gives back nodes only that it was served. -/
theorem Copies.le_of_released {target : Allocator} {b : Addr} {kind : BlockKind}
    (h : Copies source dup a xs copies stop evs) (hb : .released target b kind ∈ evs) : a ≤ b := by
  induction h with
  | made h ih =>
    simp only [List.mem_cons, reduceCtorEq, false_or] at hb
    exact Nat.le_of_succ_le (ih hb)
  | notCopied =>
    simp only [List.mem_cons, List.not_mem_nil, reduceCtorEq, Event.released.injEq, false_or,
      or_false] at hb
    exact Nat.le_of_eq hb.2.1.symm
  | _ => simp at hb

end

/-! ## Duplications -/

/-- **The events of a duplication**, and why it failed if it did: the source has this record and
these values, `dup` is the name of the hook that copies them, and the header of the copy is to be at
`c`. -/
inductive Duplicating (r : Record η) (dup : η) (c : Addr) (xs : List α) :
    Option Stop → List (Event η α) → Prop
  | complete {copies : List (Addr × α)} {evs : List (Event η α)}
      (hcopies : Copies r.allocator dup (c + 1) xs copies none evs) :
      Duplicating r dup c xs none (.served r.allocator c .header :: evs)
  | refused :
      Duplicating r dup c xs (some (.refused .header)) [.refused r.allocator .header]
  /-- The copies made so far are destroyed as the source's hooks say, with the header of the copy. If
  a hook panics then, this panic is what is left; after a panic of the copying hook none does. -/
  | torn {copies : List (Addr × α)} {why : Stop} {panic : Option Stop} {evs evs' : List (Event η α)}
      (hcopies : Copies r.allocator dup (c + 1) xs copies (some why) evs)
      (hend : Destruction r.hooks r.allocator c copies panic evs')
      (hunwinding : why = .panicked .dup → panic = none) :
      Duplicating r dup c xs (some (panic.getD why))
        (.served r.allocator c .header :: (evs ++ evs'))

section
variable {r : Record η} {dup : η} {c : Addr} {xs : List α} {stop : Option Stop}
  {evs : List (Event η α)}

theorem events_duplicating (B : Behaviour η σ α) (v : View η σ α) (k : Strip η α) (fallback : η) :
    ∃ evs, (duplicating B v k fallback).view.log = v.log ++ evs ∧
      Duplicating k.record (k.hooks.dup.getD fallback) v.fresh k.values
        (duplicating B v k fallback).stop evs := by
  cases hserve : v.serves k.allocator with
  | false =>
    rw [duplicating_of_refused hserve]
    exact ⟨_, rfl, .refused⟩
  | true =>
    obtain ⟨evs, hlog, hcopies⟩ := copies_copying (B := B) (k.hooks.dup.getD fallback) k.allocator
      k.values (v.supply k.allocator .header)
    rw [show copying B _ _ _ _ = copyingAll B v k fallback from rfl] at hlog hcopies
    cases hstop : (copyingAll B v k fallback).stop with
    | none =>
      rw [duplicating_of_complete hserve hstop]
      rw [hstop] at hcopies
      exact ⟨_, by simp [hlog], .complete hcopies⟩
    | some why =>
      rw [duplicating_of_partial hserve hstop]
      rw [hstop] at hcopies
      refine ⟨_, ?_, .torn hcopies (destruction_teardown B why.course k.hooks k.allocator v.fresh _
        (copyingAll B v k fallback).view.hookState) ?_⟩
      · simp [hlog]
      · rintro rfl
        unfold Teardown.stop
        rw [show (Stop.panicked HookKind.dup).course = .unwinding from rfl, left_unwinding]
        rfl

namespace Duplicating

/-- Only blocks of the copy are given back. -/
theorem le_of_released {target : Allocator} {b : Addr} {kind : BlockKind}
    (h : Duplicating r dup c xs stop evs) (hb : .released target b kind ∈ evs) : c ≤ b := by
  cases h with
  | refused => simp at hb
  | complete hcopies =>
    simp only [List.mem_cons, reduceCtorEq, false_or] at hb
    exact Nat.le_of_succ_le (hcopies.le_of_released hb)
  | torn hcopies hend hunwinding =>
    simp only [List.mem_cons, List.mem_append, reduceCtorEq, false_or] at hb
    rcases hb with hb | hb
    · exact Nat.le_of_succ_le (hcopies.le_of_released hb)
    · rcases hend.mem hb with ⟨a, ha, _, he⟩ | ⟨_, hx⟩
      · obtain ⟨-, rfl, -⟩ := Event.released.inj he
        rw [hcopies.addresses, List.mem_cons, List.mem_range'_1] at ha
        rcases ha with rfl | ha
        · exact Nat.le_refl _
        · exact Nat.le_of_succ_le ha.1
      · cases hx

/-- Only copied values are destroyed, from the first one on. -/
theorem prefix_copied (h : Duplicating r dup c xs stop evs) :
    freed evs ++ dropped evs <+: copied evs := by
  cases h with
  | refused => exact List.prefix_refl _
  | @complete copies evs hcopies =>
    obtain ⟨-, hfreed, hdropped⟩ := hcopies.values
    show freed evs ++ dropped evs <+: copied evs
    rw [hfreed, hdropped]
    exact List.nil_prefix
  | @torn copies why panic evs evs' hcopies hend hunwinding =>
    obtain ⟨hcopied, hfreed, hdropped⟩ := hcopies.values
    show freed (evs ++ evs') ++ dropped (evs ++ evs') <+: copied (evs ++ evs')
    rw [freed_append, dropped_append, copied_append, hcopied, hfreed, hdropped, hend.copied]
    simpa using hend.prefix_values

end Duplicating

end

/-- What a step does that is to duplicate the list `l`. -/
structure Step.Duplicates (st : Step η σ α) (l : Addr) (r : Record η) (dup : η)
    (stop : Option Stop) : Prop where
  outcome : st.outcome = .ofStop (.list st.before.store.heap.size) stop
  events : Duplicating r dup st.before.store.heap.size (st.before.valuesOf l) stop st.events
  /-- The source has the same nodes with the same links and values, and the same length and hooks. -/
  source : st.before.SameList st.after l
  /-- After a failure there is no new list. -/
  holdings : stop.isSome → st.after.holdings = st.before.holdings
  /-- No block that was there before is given back. -/
  released : ∀ target b kind, .released target b kind ∈ st.events → st.before.store.heap.size ≤ b
  /-- No value of the source is destroyed, but copies of them. -/
  destroyed : freed st.events ++ RingList.dropped st.events <+: copied st.events

section
variable {budgets : Array (Option Nat)} {hookState : σ} {w : World η σ α} {l : Addr} {r : Record η}
  {fallback : η} {why : Stop}

theorem World.holdings_duplicate (h : (w.perform B (.duplicate l fallback)).1 = .stopped why) :
    (w.perform B (.duplicate l fallback)).2.holdings = w.holdings := by
  unfold World.perform at h ⊢
  split at h
  · cases h
  · unfold World.proceed at h ⊢
    simp only at h ⊢
    split at h
    · cases h
    · rfl

theorem World.Sound.record_eq {v : View η σ α} {k : Strip η α} (hw : w.Sound v)
    (hl : (l, k) ∈ v.lists) (hr : w.store.heap.record? l = some r) : k.record = r :=
  Option.some.inj ((hw.ring hl).record?_eq.symm.trans hr)

/-- A step from a sound world that is to duplicate a list of the program. -/
theorem World.Sound.duplicate {v : View η σ α} (hw : w.Sound v) (hl : l ∈ w.holdings.lists)
    (fallback : η) : ∃ k v', (l, k) ∈ v.lists ∧ (w.stepOf B (.duplicate l fallback)).Sound B v v' ∧
      (w.perform B (.duplicate l fallback)).1 =
        .ofStop (.list v.fresh) (duplicating B v k fallback).stop ∧
      v' = (duplicating B v k fallback).view := by
  have hcheck : (Op.duplicate l fallback : Op η α).check w = .ok () := World.expectList_of_lists hl
  obtain ⟨v', hst⟩ := hw.step (B := B) (.duplicate l fallback)
  rcases hst.effect.of_duplicate with ⟨why, h, -⟩ | ⟨k, hl, ho, hv'⟩
  · exact absurd h (World.perform_ne_misused hcheck why)
  · exact ⟨k, v', hl, hst, ho, hv'⟩

/-- **A duplication** asks for each block before it calls the hook. When it fails it destroys the
copies that it made, in the order in which it made them and up to a panic, and in any case it leaves
its source alone. -/
theorem World.duplicates (hw : w.Reachable B budgets hookState) (hl : l ∈ w.holdings.lists)
    (hr : w.store.heap.record? l = some r) (fallback : η) : ∃ stop,
      (w.stepOf B (.duplicate l fallback)).Duplicates l r (r.hooks.dup.getD fallback) stop := by
  obtain ⟨v, lost, hs, -⟩ := hw.sound
  obtain ⟨k, v', hk, hst, ho, rfl⟩ := hs.duplicate (B := B) hl fallback
  obtain rfl := hs.record_eq hk hr
  obtain ⟨evs, hlog, hevs⟩ := events_duplicating B v k fallback
  rw [← valuesOf_eq hs hk, ← hs.shows.fresh] at hevs
  rw [← hs.shows.fresh] at ho
  obtain rfl := hst.events_eq hlog
  refine ⟨_, ho, hevs, hs.sameList_perform (owners_of_lists hl) List.not_mem_nil, fun h => ?_,
    fun _ _ _ => hevs.le_of_released, hevs.prefix_copied⟩
  obtain ⟨why, hstop⟩ := Option.isSome_iff_exists.1 h
  rw [hstop] at ho
  exact World.holdings_duplicate ho

/-- The third value is not copied, and the hook for destroyed values panics at the second of the two
copies made so far: the first one's node is given back, and the header is not. -/
theorem World.duplicates_panicking :
    let B : Behaviour Unit Nat Nat := {
      dup _ s x := (if s = 2 then .returns none else .returns (some (10 * x)), s + 1)
      free _ s x := (if x = 20 then .panics else .returns (), s)
      freeUnwinding _ s _ := s
      matching _ s _ _ := (.returns false, s) }
    let w := ((World.start #[] 0).run B
      [.collect [1, 2, 3, 4], .setHooks 0 ⟨some (), some (), none⟩]).2
    let st := w.stepOf B (.duplicate 0 ())
    (0 ∈ w.holdings.lists ∧ w.store.heap.record? 0 = some ⟨4, ⟨some (), some (), none⟩, .global⟩) ∧
      st.outcome = .stopped (.panicked .free) ∧
      st.events.drop 5 = [.served .global 8 .node, .dup () 3 (.returns none),
        .released .global 8 .node, .released .global 6 .node, .free () 10 (.returns ()),
        .released .global 7 .node, .free () 20 .panics] ∧
      ∃ stop, st.Duplicates 0 ⟨4, ⟨some (), some (), none⟩, .global⟩ () stop := by
  intro B w st
  have hw : w.Reachable B #[] 0 := ⟨_, rfl⟩
  have hl : 0 ∈ w.holdings.lists := by decide +kernel
  have hr : w.store.heap.record? 0 = some ⟨4, ⟨some (), some (), none⟩, .global⟩ := by decide +kernel
  exact ⟨⟨hl, hr⟩, by decide +kernel, by decide +kernel, World.duplicates hw hl hr ()⟩

end

end RingList
