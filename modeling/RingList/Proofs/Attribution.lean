import RingList.Proofs.Fates
import RingList.Proofs.Reshape

/-!
# Whose hooks and whose allocator

Hooks and allocators belong to lists. A node that leaves a list is given back to the allocator of
that list, whichever allocator served it, and the value that it had is destroyed as the hooks of that
list say at that moment, whichever list it was in before.

* `Removal`: the events of an operation that gives back blocks, one by one.
* `Effect.releases`: which operations give back blocks.
* `World.attribution`: how blocks are given back and values destroyed along every run.
-/

set_option autoImplicit false

namespace RingList

variable {η σ α : Type} {B : Behaviour η σ α}

/-! ## The events of a removal -/

/-- The event destroys the value `x` as the hooks say. -/
inductive Destroys (hooks : Hooks η) (x : α) : Event η α → Prop
  /-- The hook for destroyed values is handed the value. -/
  | handed {f : η} {reply : Reply Unit} (hf : hooks.free = some f) :
      Destroys hooks x (.free f x reply)
  /-- Without such a hook the value is dropped. -/
  | dropped (hf : hooks.free = none) : Destroys hooks x (.dropped x)

/-- The nodes are given back to `source` in order, and each one's value is destroyed then. -/
inductive GivesUp (hooks : Hooks η) (source : Allocator) :
    List (Addr × α) → List (Event η α) → Prop
  | nil : GivesUp hooks source [] []
  | cons {a : Addr} {x : α} {es : List (Addr × α)} {e : Event η α} {evs : List (Event η α)}
      (he : Destroys hooks x e) (h : GivesUp hooks source es evs) :
      GivesUp hooks source ((a, x) :: es) (.released source a .node :: e :: evs)

/-- The block goes back to `source`, if the event gives one back. -/
def Event.ReturnsTo (source : Allocator) : Event η α → Prop
  | .released target _ _ => target = source
  | _ => True

namespace Op

/-- The list to whose allocator the operation gives back blocks. -/
def releases? : Op η α → Option Addr
  | .delete l _ | .popFront l | .popBack l | .take l _ | .clear l | .destroy l | .dropIter l
  | .duplicate l _ => some l
  | _ => none

/-- The operation takes all nodes out of the list `l` and destroys their values. -/
def Empties (l : Addr) (op : Op η α) : Prop := op = .clear l ∨ op.ends? = some l

end Op

/-- **The events of an operation that gives back blocks**, when the list `l` has these hooks, this
allocator and these entries. -/
inductive Removal (l : Addr) (hooks : Hooks η) (source : Allocator) (es : List (Addr × α)) :
    Op η α → Outcome η α → List (Event η α) → Prop
  | deleted {a : Addr} {x : α} {o : Outcome η α} {e : Event η α} (hx : (a, x) ∈ es)
      (he : Destroys hooks x e) : Removal l hooks source es (.delete l a) o [.released source a .node, e]
  /-- A value that is handed out is not destroyed. -/
  | popped {op : Op η α} {xs ys : List (Addr × α)} {a : Addr} {x : α}
      (ht : Taking l es op xs a x ys) :
      Removal l hooks source es op (.answered (.value (some x))) [.released source a .node]
  | missed {op : Op η α} (hes : es = []) (hm : Missing l op) :
      Removal l hooks source es op (.answered (.value none)) []
  | cleared {evs : List (Event η α)} (h : GivesUp hooks source es evs) :
      Removal l hooks source es (.clear l) (.answered .done) evs
  /-- The header goes last. -/
  | ended {op : Op η α} {evs : List (Event η α)} (hop : op.ends? = some l)
      (h : GivesUp hooks source es evs) :
      Removal l hooks source es op (.answered .done) (evs ++ [.released source l .header])
  /-- The hook panicked at the value `x`. -/
  | interrupted {op : Op η α} {done left : List (Addr × α)} {a : Addr} {x : α}
      {evs : List (Event η α)} (hop : op.Empties l) (hes : es = done ++ (a, x) :: left)
      (h : GivesUp hooks source (done ++ [(a, x)]) evs) :
      Removal l hooks source es op (.stopped (.panicked .free)) evs
  /-- What is given back then are blocks of a copy that does not come to its end. -/
  | copied {fallback : η} {o : Outcome η α} {evs : List (Event η α)}
      (hevs : ∀ e ∈ evs, e.Heeds hooks ∧ e.ReturnsTo source)
      (hheader : ∀ target b, .released target b .header ∈ evs → .served target b .header ∈ evs) :
      Removal l hooks source es (.duplicate l fallback) o evs

section
variable {course : Course} {hooks : Hooks η} {source : Allocator} {es es' : List (Addr × α)}

theorem destroys_discarding (σ₀ : σ) (x : α) :
    Destroys hooks x (discarding B course hooks σ₀ x).event := by
  rcases discarding_event B course hooks σ₀ x with ⟨hf, he⟩ | ⟨f, reply, hf, he⟩
  · rw [he]
    exact .dropped hf
  · rw [he]
    exact .handed hf

theorem givesUp_teardown {σ₀ : σ} (hleft : (teardown B course hooks source σ₀ es).left = none) :
    GivesUp hooks source es (teardown B course hooks source σ₀ es).events := by
  induction es generalizing σ₀ with
  | nil => exact .nil
  | cons e es ih =>
    obtain ⟨a, x⟩ := e
    have hx : Destroys hooks x (discarding B course hooks σ₀ x).event := destroys_discarding σ₀ x
    cases hd : (discarding B course hooks σ₀ x).reply with
    | panics =>
      rw [teardown_of_panics hd] at hleft
      cases hleft
    | returns u =>
      rw [teardown_of_returns hd] at hleft ⊢
      exact .cons hx (ih hleft)

/-- The last value that is destroyed before the destruction stops is the one at which the hook
panicked. -/
theorem givesUp_interrupted {σ₀ : σ}
    (hleft : (teardown B course hooks source σ₀ es).left = some es') :
    ∃ done a x, es = done ++ (a, x) :: es' ∧
      GivesUp hooks source (done ++ [(a, x)]) (teardown B course hooks source σ₀ es).events := by
  induction es generalizing σ₀ with
  | nil => cases hleft
  | cons e es ih =>
    obtain ⟨a, x⟩ := e
    have hx : Destroys hooks x (discarding B course hooks σ₀ x).event := destroys_discarding σ₀ x
    cases hd : (discarding B course hooks σ₀ x).reply with
    | panics =>
      rw [teardown_of_panics hd] at hleft ⊢
      obtain rfl : es = es' := Option.some.inj hleft
      exact ⟨[], a, x, rfl, .cons hx .nil⟩
    | returns u =>
      rw [teardown_of_returns hd] at hleft ⊢
      obtain ⟨done, b, y, rfl, h⟩ := ih hleft
      exact ⟨(a, x) :: done, b, y, rfl, .cons hx h⟩

theorem returnsTo_teardown {σ₀ : σ} :
    ∀ e ∈ (teardown B course hooks source σ₀ es).events, e.ReturnsTo source := by
  intro e he
  rcases mem_teardown he with ⟨_, rfl⟩ | ⟨-, _, rfl⟩ | ⟨_, _, _, -, rfl⟩
  · exact rfl
  · trivial
  · trivial

theorem not_header_teardown {σ₀ : σ} {target : Allocator} {b : Addr} :
    .released target b .header ∉ (teardown B course hooks source σ₀ es).events := by
  intro he
  rcases mem_teardown he with ⟨_, h⟩ | ⟨-, _, h⟩ | ⟨_, _, _, -, h⟩ <;> cases h

theorem mem_eventsWithHeader {t : Teardown η σ α} {l : Addr} {e : Event η α}
    (he : e ∈ t.eventsWithHeader source l) : e ∈ t.events ∨ e = .released source l .header := by
  unfold Teardown.eventsWithHeader at he
  cases hleft : t.left with
  | none =>
    rw [hleft] at he
    exact (List.mem_append.1 he).imp_right List.mem_singleton.1
  | some es =>
    rw [hleft] at he
    exact .inl he

end

/-! ## Partial copies -/

/-- **Copying** gives back nodes only, and to the allocator that served them. -/
theorem returnsTo_copying (dup : η) (source : Allocator) (xs : List α) (v : View η σ α) :
    ∃ evs, (copying B dup source v xs).view.log = v.log ++ evs ∧
      (∀ e ∈ evs, e.ReturnsTo source) ∧ ∀ target b, .released target b .header ∉ evs := by
  induction xs generalizing v with
  | nil => exact ⟨[], by simp [copying], by simp, by simp⟩
  | cons x xs ih =>
    cases hserve : v.serves source with
    | false =>
      rw [copying_of_refused hserve]
      exact ⟨[.refused source .node], rfl, by simp [Event.ReturnsTo], by simp⟩
    | true =>
      rcases hd : (B.dup dup v.hookState x).1 with (_ | w) | _
      · rw [copying_of_fails hserve hd]
        refine ⟨[.served source v.fresh .node, .dup dup x (.returns none),
          .released source v.fresh .node], by simp, by simp [Event.ReturnsTo], by simp⟩
      · rw [copying_of_copies hserve hd]
        obtain ⟨evs, hlog, hevs, hheader⟩ :=
          ih ((v.supply source .node).heeding [.dup dup x (.returns (some w))]
            (B.dup dup v.hookState x).2)
        refine ⟨.served source v.fresh .node :: .dup dup x (.returns (some w)) :: evs,
          by simpa using hlog, ?_, by simpa using hheader⟩
        simpa [Event.ReturnsTo] using hevs
      · rw [copying_of_panics hserve hd]
        exact ⟨[.served source v.fresh .node, .dup dup x .panics], by simp,
          by simp [Event.ReturnsTo], by simp⟩

/-- The events while a list is copied: no value is destroyed, and no header is given back. -/
theorem copyingAll_returns (v : View η σ α) (k : Strip η α) (fallback : η) :
    ∃ evs, (copyingAll B v k fallback).view.log =
        v.log ++ .served k.allocator v.fresh .header :: evs ∧
      (∀ e ∈ evs, e.Heeds k.hooks ∧ e.ReturnsTo k.allocator) ∧
      ∀ target b, .released target b .header ∉ evs := by
  obtain ⟨evs, hlog, hevs, hheader⟩ := returnsTo_copying (B := B) (k.hooks.dup.getD fallback)
    k.allocator k.values (v.supply k.allocator .header)
  obtain ⟨evs', -, hlog', -, -, -, hfreed, hdropped⟩ := ledger_copying (B := B)
    (k.hooks.dup.getD fallback) k.allocator k.values (v.supply k.allocator .header) []
  obtain rfl : evs = evs' := List.append_cancel_left (hlog.symm.trans hlog')
  have hheeds := heeds_of_spared hfreed hdropped k.hooks
  refine ⟨evs, ?_, fun e he => ⟨hheeds e he, hevs e he⟩, hheader⟩
  unfold copyingAll
  rw [hlog]
  simp

theorem removal_duplicating {v : View η σ α} {l : Addr} (k : Strip η α) (fallback : η)
    (o : Outcome η α) : ∃ evs, (duplicating B v k fallback).view.log = v.log ++ evs ∧
      Removal l k.hooks k.allocator k.entries (.duplicate l fallback) o evs := by
  obtain ⟨evs, hlog, hevs, hheader⟩ := copyingAll_returns (B := B) v k fallback
  cases hserve : v.serves k.allocator with
  | false =>
    rw [duplicating_of_refused hserve]
    exact ⟨[.refused k.allocator .header], rfl,
      .copied (by simp [Event.Heeds, Event.ReturnsTo]) (by simp)⟩
  | true =>
    cases hstop : (copyingAll B v k fallback).stop with
    | none =>
      rw [duplicating_of_complete hserve hstop]
      refine ⟨_, hlog, .copied ?_ fun target b hm => ?_⟩
      · simpa [Event.Heeds, Event.ReturnsTo] using hevs
      · simp [hheader] at hm
    | some e =>
      rw [duplicating_of_partial hserve hstop]
      dsimp only
      generalize (copyingAll B v k fallback).copies = es
      generalize (copyingAll B v k fallback).view.hookState = σ₀
      refine ⟨.served k.allocator v.fresh .header :: (evs ++ (teardown B e.course k.hooks
        k.allocator σ₀ es).eventsWithHeader k.allocator v.fresh), by simp [hlog], .copied ?_ ?_⟩
      · intro e' he'
        rcases List.mem_cons.1 he' with rfl | he'
        · exact ⟨trivial, trivial⟩
        · rcases List.mem_append.1 he' with he' | he'
          · exact hevs e' he'
          · refine ⟨heeds_eventsWithHeader _ e' he', ?_⟩
            rcases mem_eventsWithHeader he' with he' | rfl
            · exact returnsTo_teardown e' he'
            · exact rfl
      · intro target b hm
        -- the only header that is given back is that of the copy, which was served first
        have hb : target = k.allocator ∧ b = v.fresh := by
          rcases List.mem_cons.1 hm with he' | hm
          · cases he'
          · rcases List.mem_append.1 hm with he' | he'
            · exact absurd he' (hheader target b)
            · rcases mem_eventsWithHeader he' with he' | he'
              · exact absurd he' not_header_teardown
              · cases he'
                exact ⟨rfl, rfl⟩
        rw [hb.1, hb.2]
        exact List.mem_cons_self

/-! ## The effects of operations -/

section
variable {v v' : View η σ α} {op : Op η α} {o : Outcome η α}

/-- What an operation gives back. -/
def Releases (v : View η σ α) (op : Op η α) (o : Outcome η α) (evs : List (Event η α)) : Prop :=
  (evs = [] ∧ ∃ why, o = .misused why) ∨
  (op.releases? = none ∧ ∀ e ∈ evs, e.released? = none) ∨
  ∃ l k, op.releases? = some l ∧ (l, k) ∈ v.lists ∧
    Removal l k.hooks k.allocator k.entries op o evs

theorem releases_quiet (hop : op.releases? = none) {evs : List (Event η α)}
    (hevs : ∀ e ∈ evs, e.released? = none) : Releases v op o evs := .inr (.inl ⟨hop, hevs⟩)

theorem releases_removal {l : Addr} {k : Strip η α} {evs : List (Event η α)}
    (hop : op.releases? = some l) (hl : (l, k) ∈ v.lists)
    (hr : Removal l k.hooks k.allocator k.entries op o evs) : Releases v op o evs :=
  .inr (.inr ⟨l, k, hop, hl, hr⟩)

/-- The events when the list `l` is emptied. -/
theorem removal_teardown {l : Addr} {k : Strip η α} (hop : op.Empties l) {σ₀ : σ}
    {evs : List (Event η α)}
    (hnone : (teardown B .ordinary k.hooks k.allocator σ₀ k.entries).left = none →
      Removal l k.hooks k.allocator k.entries op (.answered .done) evs)
    (hsome : (teardown B .ordinary k.hooks k.allocator σ₀ k.entries).left ≠ none →
      evs = (teardown B .ordinary k.hooks k.allocator σ₀ k.entries).events) :
    Removal l k.hooks k.allocator k.entries op
      (.ofStop .done (teardown B .ordinary k.hooks k.allocator σ₀ k.entries).stop) evs := by
  unfold Teardown.stop
  cases hleft : (teardown B .ordinary k.hooks k.allocator σ₀ k.entries).left with
  | none => exact hnone hleft
  | some es' =>
    obtain ⟨done, a, x, hes, h⟩ := givesUp_interrupted hleft
    rw [hsome (by simp [hleft])]
    exact .interrupted hop hes h

theorem released_servings (source : Allocator) (a n : Nat) :
    ∀ e ∈ (View.servings source a n : List (Event η α)), e.released? = none := by
  intro e he
  obtain ⟨b, -, rfl⟩ := List.mem_map.1 he
  rfl

/-- **What an operation gives back.** -/
theorem Effect.releases (he : Effect B v op o v') :
    ∃ evs, v'.log = v.log ++ evs ∧ Releases v op o evs := by
  have hsame : v.log = v.log ++ [] := by simp
  have hnone : ∀ e ∈ ([] : List (Event η α)), e.released? = none := by simp
  cases he with
  | misused op why => exact ⟨[], hsame, .inl ⟨rfl, why, rfl⟩⟩
  | looked hop =>
    exact ⟨[], hsame, releases_quiet (by cases op <;> first | rfl | cases hop) hnone⟩
  | @consulted _ hop o evs hevs =>
    refine ⟨evs, rfl, releases_quiet (by cases op <;> first | rfl | cases hop) fun e he => ?_⟩
    have he := hevs e he
    cases e <;> first | rfl | cases he
  | read hl hr => exact ⟨[], hsame, releases_quiet (by cases hr <;> rfl) hnone⟩
  | readHooks hl => exact ⟨[], hsame, releases_quiet rfl hnone⟩
  | readAllocator hl => exact ⟨[], hsame, releases_quiet rfl hnone⟩
  | owned l => exact ⟨[], hsame, releases_quiet rfl hnone⟩
  | calledDup h x => exact ⟨_, rfl, releases_quiet rfl (by simp [Event.released?])⟩
  | calledFree h x => exact ⟨_, rfl, releases_quiet rfl (by simp [Event.released?])⟩
  | refilled i budget => exact ⟨[], hsame, releases_quiet rfl hnone⟩
  | created hserve => exact ⟨_, rfl, releases_quiet rfl (by simp [Event.released?])⟩
  | notCreated hserve => exact ⟨_, rfl, releases_quiet rfl (by simp [Event.released?])⟩
  | @collected xs hs =>
    refine ⟨.served .global v.fresh .header :: View.servings .global (v.fresh + 1) xs.length,
      by simp, releases_quiet rfl fun e he => ?_⟩
    rcases List.mem_cons.1 he with rfl | he
    · rfl
    · exact released_servings _ _ _ e he
  | @duplicated l k fallback hl =>
    obtain ⟨evs, hlog, hr⟩ := removal_duplicating (B := B) (v := v) (l := l) k fallback
      (.ofStop (.list v.fresh) (duplicating B v k fallback).stop)
    exact ⟨evs, hlog, releases_removal rfl hl hr⟩
  | placed hl hp hserve =>
    exact ⟨_, rfl, releases_quiet (by cases hp <;> rfl) (by simp [Event.released?])⟩
  | notPlaced hl hp hserve =>
    exact ⟨_, rfl, releases_quiet (by cases hp <;> rfl) (by simp [Event.released?])⟩
  | extended hl hs =>
    exact ⟨_, View.supplyMany_log _, releases_quiet rfl (released_servings _ _ _)⟩
  | written hl hw => exact ⟨[], hsame, releases_quiet (by cases hw <;> rfl) hnone⟩
  | missed hl hk hm =>
    refine ⟨[], hsame, ?_⟩
    cases hm with
    | popFront => exact releases_removal rfl hl (.missed hk .popFront)
    | popBack => exact releases_removal rfl hl (.missed hk .popBack)
    | take e => exact releases_removal rfl hl (.missed hk (.take e))
    | setFront => exact releases_quiet rfl hnone
    | setBack => exact releases_quiet rfl hnone
  | rotated hl => exact ⟨[], hsame, releases_quiet rfl hnone⟩
  | joined hl => exact ⟨[], hsame, releases_quiet rfl hnone⟩
  | rehooked hl hop =>
    refine ⟨[], hsame, releases_quiet ?_ hnone⟩
    rcases hop with rfl | ⟨_, _, rfl, -⟩ <;> rfl
  | taken hl ht =>
    exact ⟨_, rfl, releases_removal (by cases ht <;> rfl) (hl.mem_iff.2 List.mem_cons_self)
      (.popped ht)⟩
  | deleted hl hk =>
    exact ⟨_, rfl, releases_removal rfl (hl.mem_iff.2 List.mem_cons_self)
      (.deleted (by simp [hk]) (destroys_discarding _ _))⟩
  | cleared hl =>
    refine ⟨_, rfl, releases_removal rfl (hl.mem_iff.2 List.mem_cons_self) ?_⟩
    refine removal_teardown (.inl rfl) (fun hleft => ?_) fun _ => rfl
    exact .cleared (givesUp_teardown hleft)
  | @destroyed op l k rest hop hl =>
    have hrel : op.releases? = some l := by
      rcases Op.eq_of_ends hop with rfl | rfl <;> rfl
    refine ⟨_, rfl, releases_removal hrel (hl.mem_iff.2 List.mem_cons_self) ?_⟩
    refine removal_teardown (.inr hop) (fun hleft => ?_) fun hleft => ?_
    · simp only [Teardown.eventsWithHeader, hleft]
      exact .ended hop (givesUp_teardown hleft)
    · obtain ⟨es', hes'⟩ := Option.ne_none_iff_exists'.1 hleft
      simp only [Teardown.eventsWithHeader, hes']

end

/-! ## Whole runs -/

/-- **Whose allocator and whose hooks** a step of a run turns to. -/
structure Step.Attribution (st : Step η σ α) : Prop where
  /-- An operation that gives back blocks gives them back to the allocator that its list has then,
  and destroys values as the hooks that the list has then say. -/
  removal : ∀ l, st.op.releases? = some l →
    (st.events = [] ∧ ∃ why, st.op.check st.before = .error why ∧ st.outcome = .misused why) ∨
    ∃ hooks source, st.before.read (RingList.hooks l) = .ok hooks ∧
      st.before.read (RingList.allocator l) = .ok source ∧
      Removal l hooks source (st.before.store.heap.entries l) st.op st.outcome st.events
  /-- No other operation gives back a block, and none calls a hook for destroyed values but the
  program's own call of one. -/
  elsewhere : st.op.releases? = none → (∀ e ∈ st.events, e.released? = none) ∧
    ((∀ f x, st.op ≠ .callFree f x) → freed st.events = [])
  /-- A header goes back to the allocator that served it. -/
  header : ∀ target b, .released target b .header ∈ st.events →
    .served target b .header ∈ st.after.store.events.toList
  /-- Lists keep their allocators, and their hooks unless others are installed. -/
  own : ∀ l ∈ st.before.owners, l ∈ st.after.owners →
    st.after.read (RingList.allocator l) = st.before.read (RingList.allocator l) ∧
      (st.op.rehooks? ≠ some l →
        st.after.read (RingList.hooks l) = st.before.read (RingList.hooks l))
  /-- A list that is joined to another one is empty then. -/
  joined : ∀ l m a, st.op = .join l m → st.outcome = .answered a →
    m ∈ st.after.owners ∧ st.after.nodes m = []
  /-- The end of an empty list gives back its header, and no value is destroyed. -/
  bare : ∀ l, st.op.ends? = some l → st.before.nodes l = [] →
    (∃ why, st.op.check st.before = .error why ∧ st.outcome = .misused why) ∨
    st.outcome = .answered .done ∧ ∃ source,
      st.before.read (RingList.allocator l) = .ok source ∧ st.events = [.released source l .header]

/-- The headers of all lists were served by the allocators of the lists. -/
def View.Headed (v : View η σ α) : Prop :=
  ∀ p ∈ v.lists, .served p.2.allocator p.1 .header ∈ v.log

section
variable {v v' : View η σ α} {st : Step η σ α} {l : Addr} {k : Strip η α}

theorem Step.Sound.headed (hst : st.Sound B v v') (h : v.Headed) : v'.Headed := by
  rintro ⟨l, k'⟩ hl'
  obtain ⟨evs, hlog, -⟩ := hst.effect.releases
  have old : ∀ {k}, (l, k) ∈ v.lists → .served k'.allocator l .header ∈ v'.log := by
    intro k hl
    have hsame : k'.allocator = k.allocator := by
      rcases hst.reshapes hl hl' with ⟨-, rfl⟩ | hr
      · rfl
      · exact hr.allocator
    rw [hlog, hsame]
    exact List.mem_append_left _ (h (l, k) hl)
  rcases hst.effect.shape hst.before.shows.lists.nodup_headers with ⟨-, rfl⟩ | hs
  · exact h (l, k') hl'
  · rcases hs.origin hl' with ⟨k, hl⟩ | ⟨-, hserved⟩
    · exact old hl
    · exact hserved

/-- The header that a removal gives back is that of the list, or of a copy that was served in the
same step. -/
theorem Removal.header {hooks : Hooks η} {source : Allocator} {es : List (Addr × α)} {op : Op η α}
    {o : Outcome η α} {evs : List (Event η α)} {target : Allocator} {b : Addr}
    (hr : Removal l hooks source es op o evs) (hb : .released target b .header ∈ evs) :
    (target = source ∧ b = l) ∨ .served target b .header ∈ evs := by
  have nodes : ∀ {es : List (Addr × α)} {evs : List (Event η α)}, GivesUp hooks source es evs →
      .released target b .header ∉ evs := by
    intro es evs h
    induction h with
    | nil => exact List.not_mem_nil
    | cons he _ ih => cases he <;> simp [ih]
  cases hr with
  | deleted hx he => cases he <;> simp at hb
  | popped => simp at hb
  | missed => simp at hb
  | cleared h => exact absurd hb (nodes h)
  | ended hop h =>
    rcases List.mem_append.1 hb with hb | hb
    · exact absurd hb (nodes h)
    · cases List.mem_singleton.1 hb
      exact .inl ⟨rfl, rfl⟩
  | interrupted hop hes h => exact absurd hb (nodes h)
  | copied hevs hheader => exact .inr (hheader target b hb)

/-- Without entries there is nothing to destroy. -/
theorem Removal.bare {hooks : Hooks η} {source : Allocator} {op : Op η α} {o : Outcome η α}
    {evs : List (Event η α)} (hop : op.ends? = some l)
    (hr : Removal l hooks source ([] : List (Addr × α)) op o evs) :
    o = .answered .done ∧ evs = [.released source l .header] := by
  cases hr with
  | deleted => cases hop
  | popped ht => exact absurd ht.split (by simp)
  | missed hes hm => cases hm <;> cases hop
  | cleared => cases hop
  | ended _ h =>
    cases h
    exact ⟨rfl, rfl⟩
  | interrupted _ hes => simp at hes
  | copied => cases hop

/-- **What a step gives back, and to whom.** -/
theorem Step.Sound.attributed (hst : st.Sound B v v') (h : v.Headed) : st.Attribution := by
  obtain ⟨evs, hlog, hrel⟩ := hst.effect.releases
  obtain rfl := hst.events_eq hlog
  refine ⟨fun l hop => ?_, fun hop => ?_, fun target b hb => ?_, fun l hl hl' => ?_,
    fun l m a hop ho => ?_, fun l hop hnil => ?_⟩
  · rcases hrel with ⟨hnil, why, ho⟩ | ⟨hnone, -⟩ | ⟨m, k, hm, hl, hr⟩
    · exact .inl ⟨hnil, why, hst.check_eq ho, ho⟩
    · rw [hop] at hnone
      cases hnone
    · obtain rfl : l = m := Option.some.inj (hop.symm.trans hm)
      refine .inr ⟨k.hooks, k.allocator, hst.before.read_eq (hooks_yields hl),
        hst.before.read_eq (allocator_yields hl), ?_⟩
      rwa [hst.before.entries_eq hl]
  · refine ⟨?_, fun hcall => ?_⟩
    · rcases hrel with ⟨hnil, -⟩ | ⟨-, hevs⟩ | ⟨m, k, hm, -⟩
      · simp [hnil]
      · exact hevs
      · rw [hop] at hm
        cases hm
    · have hspared : st.op.destroys? = none := by
        generalize st.op = op at hop
        cases op <;> first | rfl | cases hop
      have hhanded : st.op.handed st.events = [] := (hst.fates.spared hspared).1
      generalize st.op = op at hcall hhanded
      cases op with
      | callFree f x => exact absurd rfl (hcall f x)
      | _ => exact hhanded
  · rw [hst.after.shows.log, hlog]
    rcases hrel with ⟨hnil, -⟩ | ⟨-, hevs⟩ | ⟨m, k, -, hl, hr⟩
    · simp [hnil] at hb
    · exact absurd (hevs _ hb) (by simp [Event.released?])
    · rcases hr.header hb with ⟨rfl, rfl⟩ | hserved
      · exact List.mem_append_left _ (h (b, k) hl)
      · exact List.mem_append_right _ hserved
  · obtain ⟨k, hl⟩ := hst.before.mem_lists hl
    obtain ⟨k', hl'⟩ := hst.after.mem_lists hl'
    have hsame : k'.allocator = k.allocator ∧ (st.op.rehooks? ≠ some l → k'.hooks = k.hooks) := by
      rcases hst.reshapes hl hl' with ⟨-, rfl⟩ | hr
      · exact ⟨rfl, fun _ => rfl⟩
      · exact ⟨hr.allocator, hr.hooks⟩
    rw [hst.before.read_eq (allocator_yields hl), hst.after.read_eq (allocator_yields hl'),
      hst.before.read_eq (hooks_yields hl), hst.after.read_eq (hooks_yields hl'), hsame.1]
    exact ⟨rfl, fun hop => congrArg _ (hsame.2 hop)⟩
  · have he := hst.effect
    rw [hop, ho] at he
    rcases he.of_join with ⟨why, hwhy, -⟩ | ⟨k, k', rest, -, -, rfl⟩
    · cases hwhy
    · have hm : (m, { k' with entries := [] }) ∈ ((l, { k with entries := k.entries ++ k'.entries }) ::
          (m, { k' with entries := [] }) :: rest) := List.mem_cons_of_mem _ List.mem_cons_self
      exact ⟨hst.after.owners.mem_iff.1 (List.mem_map_of_mem hm), (hst.after.ring hm).nodes_eq⟩
  · rcases hrel with ⟨-, why, ho⟩ | ⟨hnone, -⟩ | ⟨m, k, hm, hl, hr⟩
    · exact .inl ⟨why, hst.check_eq ho, ho⟩
    · rcases Op.eq_of_ends hop with he | he <;> rw [he] at hnone <;> cases hnone
    · obtain rfl : l = m := by
        rcases Op.eq_of_ends hop with he | he <;> rw [he] at hm <;> exact Option.some.inj hm
      have hnodes : k.nodes = [] := (hst.before.ring hl).nodes_eq.symm.trans hnil
      have hes : k.entries = [] := List.map_eq_nil_iff.1 hnodes
      rw [hes] at hr
      obtain ⟨ho, hevs⟩ := hr.bare hop
      exact .inr ⟨ho, k.allocator, hst.before.read_eq (allocator_yields hl), hevs⟩

end

/-- **Along every run** blocks go back to the allocator of the list that they leave, and values are
destroyed as its hooks say. -/
theorem World.attribution (B : Behaviour η σ α) (budgets : Array (Option Nat)) (hookState : σ)
    (ops : List (Op η α)) : ∀ st ∈ (World.start budgets hookState).steps B ops, st.Attribution := by
  let P (past : List (Step η σ α)) (v : View η σ α) : Prop :=
    v.Headed ∧ ∀ st ∈ past, st.Attribution
  have hstep : ∀ {past : List (Step η σ α)} {st : Step η σ α} {v v' : View η σ α},
      st.Sound B v v' → P past v → P (past ++ [st]) v' := by
    rintro past st v v' hst ⟨hhead, hpast⟩
    refine ⟨hst.headed hhead, fun st' hm => ?_⟩
    rcases List.mem_append.1 hm with hm | hm
    · exact hpast st' hm
    · obtain rfl := List.mem_singleton.1 hm
      exact hst.attributed hhead
  have hstart : P [] (View.start budgets hookState) :=
    ⟨fun p hp => absurd hp List.not_mem_nil, fun st hm => absurd hm List.not_mem_nil⟩
  obtain ⟨-, -, -, h⟩ := World.Sound.along hstep ops (World.sound_start budgets hookState) hstart
  exact h

/-- A node that was joined to a list goes back to the allocator of this list, and its value to the
hook that the list was given last. -/
theorem World.attribution_of_joined :
    let B : Behaviour Nat Unit Nat := ⟨fun _ s x => (.returns (some x), s),
      fun _ s _ => (.returns (), s), fun _ s _ => s, fun _ s x y => (.returns (x == y), s)⟩
    let w := ((World.start #[none, none] ()).run B [.create (.limited 0), .create (.limited 1),
      .installHook 0 .free 7, .installHook 1 .free 8, .addTail 1 5, .join 0 1,
      .installHook 0 .free 9]).2
    let st : Step Nat Unit Nat :=
      ⟨w, .delete 0 2, (w.perform B (.delete 0 2)).1, (w.perform B (.delete 0 2)).2⟩
    st.events = [.released (.limited 0) 2 .node, .free 9 5 (.returns ())] ∧ st.Attribution := by
  intro B w st
  exact ⟨by decide +kernel, World.attribution B #[none, none] () _ st (World.mem_steps B _ _ _)⟩

end RingList
