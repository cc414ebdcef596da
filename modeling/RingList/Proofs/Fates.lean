import Mathlib.Data.List.Flatten
import RingList.Proofs.Ledger

/-!
# The fates of values

A value that a program hands to a list, or that a hook copies for a new list, is in one node of
one list until it is handed to a hook for destroyed values, dropped, handed out to the program, or
lost behind a value at which such a hook panicked. It has one of these fates, and has it once.

* `Effect.fates`: what an operation does with values.
* `World.valueFates`: no value is lost from sight or seen twice along a run.
-/

set_option autoImplicit false

namespace RingList

variable {η σ α : Type} {B : Behaviour η σ α}

/-! ## The values that operations are about -/

def Outcome.value? : Outcome η α → Option α
  | .answered (.value x) => x
  | _ => none

/-- The values that are lost when a hook panics that `xs` are handed to one after another: those
behind the last one that it was handed. -/
def Outcome.lost (o : Outcome η α) (xs : List α) (evs : List (Event η α)) : List α :=
  match o with
  | .stopped (.panicked .free) => xs.drop (freed evs).length
  | _ => []

def World.valuesOf (w : World η σ α) (l : Addr) : List α := (w.store.heap.entries l).map (·.2)

namespace Op

/-- The values that come to a list: those that the program hands over, and those that a hook
copies. -/
def arrived (o : Outcome η α) (evs : List (Event η α)) : Op η α → List α
  | .addHead _ x | .addTail _ x | .insert _ _ x _ =>
    match o with
    | .misused _ => []
    | _ => [x]
  | .collect xs | .extend _ xs =>
    match o with
    | .answered _ => xs
    | _ => []
  | .exchange _ _ y | .setFront _ y | .setBack _ y => o.value?.toList.map fun _ => y
  | .duplicate _ _ => copied evs
  | _ => []

/-- The values that are handed to hooks because a list destroys them. A value with which the program
itself calls a hook is in no list. -/
def handed (evs : List (Event η α)) : Op η α → List α
  | .callFree _ _ => []
  | _ => freed evs

/-- The values that are handed out to the program. -/
def returned (o : Outcome η α) : Op η α → List α
  | .popFront _ | .popBack _ | .take _ _ | .exchange _ _ _ | .setFront _ _ | .setBack _ _ =>
    o.value?.toList
  | _ => []

def lost (w : World η σ α) (o : Outcome η α) (evs : List (Event η α)) : Op η α → List α
  | .clear l | .destroy l | .dropIter l => o.lost (w.valuesOf l) evs
  | .duplicate _ _ => o.lost (copied evs) evs
  | _ => []

/-- The list whose hooks decide what becomes of the values that the operation destroys. -/
def destroys? : Op η α → Option Addr
  | .delete l _ | .clear l | .destroy l | .dropIter l | .duplicate l _ => some l
  | _ => none

/-- The values that the operation destroys, in order. -/
def doomed (w : World η σ α) (o : Outcome η α) (evs : List (Event η α)) : Op η α → List α
  | .delete _ a => (w.store.heap.value? a).toList
  | .clear l | .destroy l | .dropIter l => w.valuesOf l
  | .duplicate _ _ =>
    match o with
    | .answered _ => []
    | _ => copied evs
  | _ => []

/-- The value that is dropped because there is no memory for its node. -/
def rejected (o : Outcome η α) : Op η α → List α
  | .addHead _ x | .addTail _ x | .insert _ _ x _ =>
    match o with
    | .stopped (.refused .node) => [x]
    | _ => []
  | _ => []

end Op

/-- If the event destroys a value, it does so as these hooks say: the value is handed to the hook
for destroyed values, and dropped if there is none. -/
def Event.Heeds (hooks : Hooks η) : Event η α → Prop
  | .free f _ _ => hooks.free = some f
  | .dropped _ => hooks.free = none
  | _ => True

def View.values (v : View η σ α) : List α := v.lists.flatMap fun p => p.2.values

/-- What an operation does with values. -/
structure Fates (w : World η σ α) (v : View η σ α) (op : Op η α) (o : Outcome η α)
    (evs : List (Event η α)) (v' : View η σ α) : Prop where
  /-- Every value that is in a list or comes to one stays in a list or has one other fate. -/
  balance : (v.values ++ op.arrived o evs).Perm
    (v'.values ++ (op.handed evs ++ (dropped evs ++ (op.returned o ++ op.lost w o evs))))
  /-- Other operations destroy no value but one that they have no memory for. -/
  spared : op.destroys? = none → op.handed evs = [] ∧ dropped evs = op.rejected o
  /-- The values that an operation destroys go where the hooks of the list say. -/
  destroyed : ∀ l, op.destroys? = some l → evs = [] ∧ (∃ why, o = .misused why) ∨
    ∃ k, (l, k) ∈ v.lists ∧ (∀ e ∈ evs, e.Heeds k.hooks) ∧
      op.handed evs ++ (dropped evs ++ op.lost w o evs) = op.doomed w o evs

section
variable {w : World η σ α} {v v' : View η σ α} {op : Op η α} {o : Outcome η α} {l : Addr}
  {k : Strip η α} {rest : List (Addr × Strip η α)}

theorem values_perm {lists lists' : List (Addr × Strip η α)} (hp : lists.Perm lists') :
    (lists.flatMap fun p => p.2.values).Perm (lists'.flatMap fun p => p.2.values) :=
  hp.flatMap_right _

theorem values_of_perm (hl : v.lists.Perm ((l, k) :: rest)) :
    v.values.Perm (k.values ++ rest.flatMap fun p => p.2.values) := values_perm hl

theorem valuesOf_eq (hw : w.Sound v) (hl : (l, k) ∈ v.lists) : w.valuesOf l = k.values := by
  unfold World.valuesOf
  rw [(hw.ring hl).entries_eq]
  rfl

/-- The values of a list with these entries and of the others. -/
def valuesWith (es : List (Addr × α)) (rest : List (Addr × Strip η α)) : List α :=
  es.map (·.2) ++ rest.flatMap fun p => p.2.values

theorem valuesWith_middle (xs ys : List (Addr × α)) (a : Addr) (x : α)
    (rest : List (Addr × Strip η α)) :
    (valuesWith (xs ++ (a, x) :: ys) rest).Perm (x :: valuesWith (xs ++ ys) rest) := by
  simp only [valuesWith, List.map_append, List.map_cons, List.append_assoc]
  exact List.perm_middle

theorem values_of_split {xs ys : List (Addr × α)} {a : Addr} {x : α}
    (hl : v.lists.Perm ((l, k) :: rest)) (hk : k.entries = xs ++ (a, x) :: ys) :
    v.values.Perm (x :: valuesWith (xs ++ ys) rest) := by
  refine (values_of_perm hl).trans ?_
  have hvals : k.values ++ (rest.flatMap fun p => p.2.values) = valuesWith k.entries rest := rfl
  rw [hvals, hk]
  exact valuesWith_middle xs ys a x rest

theorem perm_exchange (x y : α) (zs : List α) : ((x :: zs) ++ [y]).Perm ((y :: zs) ++ [x]) :=
  calc ((x :: zs) ++ [y]).Perm (y :: x :: zs) := List.perm_append_singleton _ _
    List.Perm _ (x :: y :: zs) := .swap _ _ _
    List.Perm _ ((y :: zs) ++ [x]) := (List.perm_append_singleton _ _).symm

/-- An operation that destroys no value, and has no event about one. -/
theorem fates_quiet {evs : List (Event η α)} (hevs : freed evs = []) (hevs' : dropped evs = [])
    (hop : op.destroys? = none) (hrej : op.rejected o = [])
    (hb : (v.values ++ op.arrived o evs).Perm (v'.values ++ op.returned o)) :
    Fates w v op o evs v' := by
  have hhanded : op.handed evs = [] := by cases op <;> first | exact hevs | rfl
  have hlost : op.lost w o evs = [] := by cases op <;> first | rfl | cases hop
  refine ⟨?_, fun _ => ⟨hhanded, hevs'.trans hrej.symm⟩, fun l hl => ?_⟩
  · rw [hhanded, hevs', hlost, List.nil_append, List.nil_append, List.append_nil]
    exact hb
  · rw [hop] at hl
    cases hl

/-- An operation that destroys values of a list or of a copy of it. -/
theorem fates_destroying {evs : List (Event η α)} (hop : op.destroys? = some l)
    (hl : (l, k) ∈ v.lists) (hevs : ∀ e ∈ evs, e.Heeds k.hooks) (hret : op.returned o = [])
    (hdoomed : op.handed evs ++ (dropped evs ++ op.lost w o evs) = op.doomed w o evs)
    (hb : (v.values ++ op.arrived o evs).Perm (v'.values ++ op.doomed w o evs)) :
    Fates w v op o evs v' := by
  refine ⟨?_, fun h => ?_, fun m hm => .inr ?_⟩
  · rw [hret, List.nil_append, hdoomed]
    exact hb
  · rw [hop] at h
    cases h
  · obtain rfl : l = m := Option.some.inj (hop.symm.trans hm)
    exact ⟨k, hl, hevs, hdoomed⟩

/-- Events that destroy no value. -/
theorem heeds_of_spared {evs : List (Event η α)} (hevs : freed evs = []) (hevs' : dropped evs = [])
    (hooks : Hooks η) : ∀ e ∈ evs, e.Heeds hooks := by
  intro e he
  cases e with
  | free f x reply =>
    have hx : x ∈ freed evs := List.mem_filterMap.2 ⟨_, he, rfl⟩
    simp [hevs] at hx
  | dropped x =>
    have hx : x ∈ dropped evs := List.mem_filterMap.2 ⟨_, he, rfl⟩
    simp [hevs'] at hx
  | _ => trivial

end

/-! ## Destroyed lists -/

section
variable {course : Course} {hooks : Hooks η} {source : Allocator} {σ₀ : σ} {es : List (Addr × α)}

theorem heeds_teardown : ∀ e ∈ (teardown B course hooks source σ₀ es).events, e.Heeds hooks := by
  intro e he
  rcases mem_teardown he with ⟨_, rfl⟩ | ⟨h, _, rfl⟩ | ⟨_, _, _, h, rfl⟩
  · trivial
  · exact h
  · exact h

/-- The values that are lost when nodes are destroyed, by the outcome and the events. -/
theorem lost_teardown (a : Answer η α) :
    Outcome.lost (.ofStop a (teardown B course hooks source σ₀ es).stop) (es.map (·.2))
        (teardown B course hooks source σ₀ es).events =
      ((teardown B course hooks source σ₀ es).left.getD []).map (·.2) := by
  unfold Teardown.stop
  cases hleft : (teardown B course hooks source σ₀ es).left with
  | none => rfl
  | some es' => exact (map_left hleft).symm

/-- The values that are lost when a partial copy is destroyed. -/
theorem lost_partial {e : Stop} (he : e ≠ .panicked .free) :
    Outcome.lost (.stopped ((teardown B course hooks source σ₀ es).stop.getD e) : Outcome η α)
        (es.map (·.2)) (teardown B course hooks source σ₀ es).events =
      ((teardown B course hooks source σ₀ es).left.getD []).map (·.2) := by
  unfold Teardown.stop
  cases hleft : (teardown B course hooks source σ₀ es).left with
  | none =>
    rcases e with _ | _ | (_ | _ | _) | _ <;> first | rfl | exact absurd rfl he
  | some es' => exact (map_left hleft).symm

/-- The header's block is of no concern to values. -/
theorem eventsWithHeader_spared (t : Teardown η σ α) (source : Allocator) (l : Addr) :
    copied (t.eventsWithHeader source l) = copied t.events ∧
      freed (t.eventsWithHeader source l) = freed t.events ∧
      dropped (t.eventsWithHeader source l) = dropped t.events := by
  unfold Teardown.eventsWithHeader
  cases t.left with
  | none =>
    refine ⟨?_, ?_, ?_⟩
    · exact copied_append _ _ |>.trans (List.append_nil _)
    · exact freed_append _ _ |>.trans (List.append_nil _)
    · exact dropped_append _ _ |>.trans (List.append_nil _)
  | some es => exact ⟨rfl, rfl, rfl⟩

theorem heeds_eventsWithHeader (l : Addr) :
    ∀ e ∈ (teardown B course hooks source σ₀ es).eventsWithHeader source l, e.Heeds hooks := by
  intro e he
  unfold Teardown.eventsWithHeader at he
  cases hleft : (teardown B course hooks source σ₀ es).left with
  | none =>
    rw [hleft] at he
    rcases List.mem_append.1 he with he | he
    · exact heeds_teardown e he
    · obtain rfl := List.mem_singleton.1 he
      trivial
  | some es' =>
    rw [hleft] at he
    exact heeds_teardown e he

end

theorem Outcome.lost_congr (o : Outcome η α) (xs : List α) {evs evs' : List (Event η α)}
    (h : freed evs = freed evs') : o.lost xs evs = o.lost xs evs' := by
  unfold lost
  rw [h]

/-! ## The effects of operations -/

section
variable {w : World η σ α} {v v' : View η σ α} {op : Op η α} {o : Outcome η α} {l : Addr}
  {k : Strip η α} {rest : List (Addr × Strip η α)}

theorem freed_servings (source : Allocator) (a n : Nat) :
    freed (View.servings source a n : List (Event η α)) = [] := by
  simp [freed, View.servings, List.filterMap_map, Function.comp_def, Event.freed?]

theorem dropped_servings (source : Allocator) (a n : Nat) :
    dropped (View.servings source a n : List (Event η α)) = [] := by
  simp [dropped, View.servings, List.filterMap_map, Function.comp_def, Event.dropped?]

theorem spared_of_isMatching {evs : List (Event η α)} (hevs : ∀ e ∈ evs, e.isMatching = true) :
    freed evs = [] ∧ dropped evs = [] := by
  constructor <;> refine List.filterMap_eq_nil_iff.2 fun e he => ?_
  all_goals
    have he := hevs e he
    cases e <;> first | rfl | cases he

/-- The events while a list is copied: values come to the copy, and none goes. -/
theorem copyingAll_events (v : View η σ α) (k : Strip η α) (fallback : η) :
    ∃ evs, (copyingAll B v k fallback).view.log = v.log ++ evs ∧
      copied evs = (copyingAll B v k fallback).copies.map (·.2) ∧ freed evs = [] ∧
      dropped evs = [] := by
  obtain ⟨evs, -, hlog, -, -, hcopied, hfreed, hdropped⟩ :=
    ledger_copying (B := B) (k.hooks.dup.getD fallback) k.allocator k.values
      (v.supply k.allocator .header) []
  refine ⟨.served k.allocator v.fresh .header :: evs, hlog.trans ?_, hcopied, hfreed, hdropped⟩
  simp

theorem copyingAll_stop {fallback : η} {e : Stop}
    (hstop : (copyingAll B v k fallback).stop = some e) :
    e ≠ .panicked .free := by
  have hstops := copying_stop (B := B) (k.hooks.dup.getD fallback) k.allocator k.values
    (v.supply k.allocator .header)
  rintro rfl
  rw [show copying B _ _ _ _ = copyingAll B v k fallback from rfl, hstop] at hstops
  simp at hstops

/-- **The fates of values in a duplication**: the values of the source stay where they are, and
those of a partial copy are destroyed. -/
theorem fates_duplicating (w : World η σ α) (fallback : η) (a : Answer η α)
    (hl : (l, k) ∈ v.lists) :
    ∃ evs, (duplicating B v k fallback).view.log = v.log ++ evs ∧
      Fates w v (.duplicate l fallback) (.ofStop a (duplicating B v k fallback).stop) evs
        (duplicating B v k fallback).view := by
  cases hserve : v.serves k.allocator with
  | false =>
    rw [duplicating_of_refused hserve]
    exact ⟨[.refused k.allocator .header], rfl,
      fates_destroying rfl hl (heeds_of_spared rfl rfl _) rfl rfl (.refl _)⟩
  | true =>
    obtain ⟨evs, hlog, hcopied, hfreed, hdropped⟩ := copyingAll_events (B := B) v k fallback
    cases hstop : (copyingAll B v k fallback).stop with
    | none =>
      rw [duplicating_of_complete hserve hstop]
      refine ⟨evs, hlog, fates_destroying rfl hl (heeds_of_spared hfreed hdropped _) rfl ?_ ?_⟩
      · show freed evs ++ (dropped evs ++ []) = []
        rw [hfreed, hdropped]
        rfl
      · show (v.values ++ copied evs).Perm
          (((copyingAll B v k fallback).copies.map (·.2) ++ v.values) ++ [])
        rw [hcopied, List.append_nil]
        exact List.perm_append_comm
    | some e =>
      rw [duplicating_of_partial hserve hstop]
      dsimp only
      generalize (copyingAll B v k fallback).copies = es at hcopied ⊢
      generalize (copyingAll B v k fallback).view.hookState = σ₀
      obtain ⟨hc, hf, hd⟩ := eventsWithHeader_spared (teardown B e.course k.hooks k.allocator σ₀ es)
        k.allocator v.fresh
      refine ⟨evs ++ (teardown B e.course k.hooks k.allocator σ₀ es).eventsWithHeader k.allocator
        v.fresh, ?_, fates_destroying rfl hl ?_ rfl ?_ ?_⟩
      · simp [hlog]
      · intro e' he'
        rcases List.mem_append.1 he' with he' | he'
        · exact heeds_of_spared hfreed hdropped _ e' he'
        · exact heeds_eventsWithHeader _ e' he'
      · have hcopied' : copied (evs ++
            (teardown B e.course k.hooks k.allocator σ₀ es).eventsWithHeader k.allocator v.fresh) =
              es.map (·.2) := by
          rw [copied_append, hcopied, hc, copied_teardown, List.append_nil]
        have hfreed' : freed (evs ++
            (teardown B e.course k.hooks k.allocator σ₀ es).eventsWithHeader k.allocator v.fresh) =
              freed (teardown B e.course k.hooks k.allocator σ₀ es).events := by
          rw [freed_append, hfreed, hf, List.nil_append]
        show freed _ ++ (dropped _ ++ Outcome.lost (.stopped _) (copied _) _) = copied _
        rw [hcopied', Outcome.lost_congr _ _ hfreed', hfreed', dropped_append, hdropped, hd,
          lost_partial (copyingAll_stop hstop), List.nil_append]
        exact teardown_values B e.course k.allocator k.hooks es σ₀
      · exact .refl _

theorem fates_misused (w : World η σ α) (v : View η σ α) (op : Op η α) (why : Misuse) :
    Fates w v op (.misused why) [] v := by
  refine ⟨?_, fun _ => ⟨?_, ?_⟩, fun l _ => .inl ⟨rfl, why, rfl⟩⟩
  · cases op <;> exact .refl _
  · cases op <;> rfl
  · cases op <;> rfl

/-! ### Values that come to a list -/

section
variable {xs ys : List (Addr × α)} {a : Addr} {x y : α}

theorem fates_collected (w : World η σ α) (xs : List α) : Fates w v (.collect xs)
    (.answered (.list v.fresh))
    (.served .global v.fresh .header :: View.servings .global (v.fresh + 1) xs.length)
    (((v.supply .global .header).supplyMany .global xs.length).having
      ((v.fresh, ⟨{}, .global, numbered (v.fresh + 1) xs⟩) :: v.lists)) := by
  refine fates_quiet (freed_servings _ _ _) (dropped_servings _ _ _) rfl rfl ?_
  show (v.values ++ xs).Perm ((numbered (v.fresh + 1) xs).map (·.2) ++ v.values ++ [])
  rw [numbered_values, List.append_nil]
  exact List.perm_append_comm

theorem fates_placed (w : World η σ α) (hl : v.lists.Perm ((l, k) :: rest))
    (hp : Placing l k.entries op xs x ys) :
    Fates w v op (.answered (.node (some v.fresh))) [.served k.allocator v.fresh .node]
      (v.placed l k rest xs x ys) := by
  refine fates_quiet rfl rfl ?_ ?_ ?_
  · cases hp <;> rfl
  · cases hp <;> rfl
  · have harr : op.arrived (.answered (.node (some v.fresh)))
        [.served k.allocator v.fresh .node] = [x] := by
      cases hp <;> rfl
    have hret : op.returned (.answered (.node (some v.fresh))) = ([] : List α) := by
      cases hp <;> rfl
    rw [harr, hret, List.append_nil]
    have hv' : (v.placed l k rest xs x ys).values =
      valuesWith (xs ++ (v.fresh, x) :: ys) rest := rfl
    have hv : v.values.Perm (valuesWith (xs ++ ys) rest) := hp.split ▸ values_of_perm hl
    rw [hv']
    refine (hv.append_right _).trans (List.perm_append_comm.trans ?_)
    exact (valuesWith_middle _ _ _ _ _).symm

/-- A value for which there is no memory. -/
theorem fates_notPlaced (w : World η σ α) (hp : Placing l k.entries op xs x ys) :
    Fates w v op (.stopped (.refused .node)) [.refused k.allocator .node, .dropped x]
      (v.note [.refused k.allocator .node, .dropped x]) := by
  refine ⟨?_, fun _ => ?_, fun m hm => ?_⟩
  · cases hp <;> exact .refl _
  · cases hp <;> exact ⟨rfl, rfl⟩
  · cases hp <;> cases hm

theorem fates_extended (w : World η σ α) (xs : List α) (hl : v.lists.Perm ((l, k) :: rest)) :
    Fates w v (.extend l xs) (.answered .done) (View.servings k.allocator v.fresh xs.length)
      ((v.supplyMany k.allocator xs.length).having
        ((l, { k with entries := k.entries ++ numbered v.fresh xs }) :: rest)) := by
  refine fates_quiet (freed_servings _ _ _) (dropped_servings _ _ _) rfl rfl ?_
  have hv' : (((v.supplyMany k.allocator xs.length).having
      ((l, { k with entries := k.entries ++ numbered v.fresh xs }) :: rest)).values) =
      valuesWith (k.entries ++ numbered v.fresh xs) rest := rfl
  show (v.values ++ xs).Perm (_ ++ [])
  rw [hv', List.append_nil]
  refine ((values_of_perm hl).append_right xs).trans ?_
  simp only [valuesWith, List.map_append, numbered_values, List.append_assoc]
  exact List.perm_append_comm.append_left _

/-! ### Values that are handed out -/

theorem fates_written (w : World η σ α) (hl : v.lists.Perm ((l, k) :: rest))
    (hwr : Writing l k.entries op xs a x y ys) :
    Fates w v op (.answered (.value (some x))) []
      (v.having ((l, { k with entries := xs ++ (a, y) :: ys }) :: rest)) := by
  refine fates_quiet rfl rfl ?_ ?_ ?_
  · cases hwr <;> rfl
  · cases hwr <;> rfl
  · have harr : op.arrived (.answered (.value (some x))) [] = [y] := by cases hwr <;> rfl
    have hret : op.returned (.answered (.value (some x))) = [x] := by cases hwr <;> rfl
    rw [harr, hret]
    -- both sides are `x` and `y` with all other values
    have hbefore := (values_of_split hl hwr.split).append_right [y]
    have hafter := (valuesWith_middle xs ys a y rest).append_right [x]
    exact hbefore.trans ((perm_exchange x y _).trans hafter.symm)

theorem fates_taken (w : World η σ α) (hl : v.lists.Perm ((l, k) :: rest))
    (ht : Taking l k.entries op xs a x ys) :
    Fates w v op (.answered (.value (some x))) [.released k.allocator a .node]
      ((v.having ((l, { k with entries := xs ++ ys }) :: rest)).note
        [.released k.allocator a .node]) := by
  refine fates_quiet rfl rfl ?_ ?_ ?_
  · cases ht <;> rfl
  · cases ht <;> rfl
  · have harr : op.arrived (.answered (.value (some x)))
        [.released k.allocator a .node] = [] := by
      cases ht <;> rfl
    have hret : op.returned (.answered (.value (some x))) = [x] := by cases ht <;> rfl
    rw [harr, hret, List.append_nil]
    exact (values_of_split hl ht.split).trans (List.perm_append_singleton _ _).symm

/-! ### Values that are destroyed -/

theorem fates_deleted (hw : w.Sound v) (hl : v.lists.Perm ((l, k) :: rest))
    (hk : k.entries = xs ++ (a, x) :: ys) :
    let d := discarding B .ordinary k.hooks v.hookState x
    Fates w v (.delete l a) (.ofStop .done (d.reply.stop .free))
      [.released k.allocator a .node, d.event]
      ((v.having ((l, { k with entries := xs ++ ys }) :: rest)).heeding
        [.released k.allocator a .node, d.event] d.hookState) := by
  intro d
  have hm : (l, k) ∈ v.lists := hl.mem_iff.2 (by simp)
  have hvalue : (w.store.heap.value? a).toList = [x] := by
    rw [(hw.ring hm).value?_of_mem (e := (a, x)) (by simp [hk])]
    rfl
  have hd := discarding_event B .ordinary k.hooks v.hookState x
  refine fates_destroying rfl hm ?_ rfl (Eq.trans ?_ hvalue.symm) ?_
  · unfold d
    rcases hd with ⟨h, he⟩ | ⟨f, reply, h, he⟩ <;> rw [he] <;> simp [Event.Heeds, h]
  · unfold d
    rcases hd with ⟨-, he⟩ | ⟨f, reply, -, he⟩ <;> rw [he] <;> rfl
  · show (v.values ++ []).Perm (_ ++ (w.store.heap.value? a).toList)
    rw [hvalue, List.append_nil]
    exact (values_of_split hl hk).trans (List.perm_append_singleton _ _).symm

theorem fates_cleared (hw : w.Sound v) (hl : v.lists.Perm ((l, k) :: rest)) :
    let t := teardown B .ordinary k.hooks k.allocator v.hookState k.entries
    Fates w v (.clear l) (.ofStop .done t.stop) t.events
      ((v.having ((l, { k with entries := [] }) :: rest)).heeding t.events t.hookState) := by
  intro t
  have hm : (l, k) ∈ v.lists := hl.mem_iff.2 (by simp)
  refine fates_destroying rfl hm heeds_teardown rfl ?_ ?_
  · show freed _ ++ (dropped _ ++ Outcome.lost _ (w.valuesOf l) _) = w.valuesOf l
    rw [valuesOf_eq hw hm, Strip.values, lost_teardown]
    exact teardown_values B .ordinary k.allocator k.hooks k.entries v.hookState
  · show (v.values ++ []).Perm (_ ++ w.valuesOf l)
    rw [valuesOf_eq hw hm, List.append_nil]
    exact (values_of_perm hl).trans List.perm_append_comm

theorem fates_destroyed (hw : w.Sound v) (hop : op.ends? = some l)
    (hl : v.lists.Perm ((l, k) :: rest)) :
    let t := teardown B .ordinary k.hooks k.allocator v.hookState k.entries
    Fates w v op (.ofStop .done t.stop) (t.eventsWithHeader k.allocator l)
      ((v.having rest).heeding (t.eventsWithHeader k.allocator l) t.hookState) := by
  intro t
  have hm : (l, k) ∈ v.lists := hl.mem_iff.2 (by simp)
  obtain ⟨-, hf, hd⟩ := eventsWithHeader_spared t k.allocator l
  have hvals := teardown_values B .ordinary k.allocator k.hooks k.entries v.hookState
  rw [← lost_teardown .done, ← Outcome.lost_congr _ _ hf, ← hf, ← hd] at hvals
  have hperm : (v.values ++ []).Perm ((v.having rest).values ++ k.values) := by
    rw [List.append_nil]
    exact (values_of_perm hl).trans List.perm_append_comm
  have hk := valuesOf_eq hw hm
  rcases Op.eq_of_ends hop with rfl | rfl
  · exact fates_destroying rfl hm (heeds_eventsWithHeader l) rfl
      (by rw [Op.doomed, Op.lost, hk]; exact hvals) (by rw [Op.doomed, hk]; exact hperm)
  · exact fates_destroying rfl hm (heeds_eventsWithHeader l) rfl
      (by rw [Op.doomed, Op.lost, hk]; exact hvals) (by rw [Op.doomed, hk]; exact hperm)

end

/-- **What an operation does with values.** -/
theorem Effect.fates (hw : w.Sound v) (he : Effect B v op o v') :
    ∃ evs, v'.log = v.log ++ evs ∧ Fates w v op o evs v' := by
  have hsame : v.log = v.log ++ [] := by simp
  cases he with
  | misused op why => exact ⟨[], hsame, fates_misused w v op why⟩
  | looked hop o =>
    refine ⟨[], hsame, fates_quiet rfl rfl ?_ ?_ ?_⟩ <;> cases op <;> first | rfl | cases hop
  | consulted hop o hevs σ' =>
    obtain ⟨hf, hd⟩ := spared_of_isMatching hevs
    refine ⟨_, rfl, fates_quiet hf hd ?_ ?_ ?_⟩ <;> cases op <;> first | rfl | cases hop
  | read hl hr =>
    refine ⟨[], hsame, fates_quiet rfl rfl ?_ ?_ ?_⟩ <;> cases hr <;> rfl
  | readHooks hl => exact ⟨[], hsame, fates_quiet rfl rfl rfl rfl (.refl _)⟩
  | readAllocator hl => exact ⟨[], hsame, fates_quiet rfl rfl rfl rfl (.refl _)⟩
  | owned l => exact ⟨[], hsame, fates_quiet rfl rfl rfl rfl (.refl _)⟩
  | calledDup h x o => exact ⟨_, rfl, fates_quiet rfl rfl rfl rfl (.refl _)⟩
  | calledFree h x o => exact ⟨_, rfl, .refl _, fun _ => ⟨rfl, rfl⟩, fun _ h => by cases h⟩
  | refilled i budget => exact ⟨[], hsame, fates_quiet rfl rfl rfl rfl (.refl _)⟩
  | created hserve => exact ⟨_, rfl, fates_quiet rfl rfl rfl rfl (.refl _)⟩
  | notCreated hserve => exact ⟨_, rfl, fates_quiet rfl rfl rfl rfl (.refl _)⟩
  | @collected xs hs => exact ⟨_, by simp, fates_collected w xs⟩
  | duplicated fallback hl => exact fates_duplicating w fallback _ hl
  | placed hl hp hserve => exact ⟨_, rfl, fates_placed w hl hp⟩
  | notPlaced hl hp hserve => exact ⟨_, rfl, fates_notPlaced w hp⟩
  | @extended l k rest xs hl hs => exact ⟨_, View.supplyMany_log _, fates_extended w xs hl⟩
  | written hl hwr => exact ⟨[], hsame, fates_written w hl hwr⟩
  | missed hl hk hm =>
    refine ⟨[], hsame, fates_quiet rfl rfl ?_ ?_ ?_⟩ <;> cases hm <;> rfl
  | @rotated l k rest hl =>
    refine ⟨[], hsame, fates_quiet rfl rfl rfl rfl (List.Perm.append_right [] ?_)⟩
    refine (values_of_perm hl).trans ?_
    exact ((rotated_perm k.entries).symm.map _).append_right _
  | @joined l m k k' rest hl =>
    refine ⟨[], hsame, fates_quiet rfl rfl rfl rfl (List.Perm.append_right [] ?_)⟩
    refine (values_of_perm hl).trans (.of_eq ?_)
    simp [View.values, Strip.values]
  | @rehooked op l k rest hs hl hop =>
    refine ⟨[], hsame, ?_⟩
    have hv : v.values.Perm (v.having ((l, { k with hooks := hs }) :: rest)).values :=
      (values_of_perm hl).trans (.refl _)
    rcases hop with rfl | ⟨kind, h, rfl, -⟩
    · exact fates_quiet rfl rfl rfl rfl (hv.append_right [])
    · exact fates_quiet rfl rfl rfl rfl (hv.append_right [])
  | taken hl ht => exact ⟨_, rfl, fates_taken w hl ht⟩
  | deleted hl hk => exact ⟨_, rfl, fates_deleted hw hl hk⟩
  | cleared hl => exact ⟨_, rfl, fates_cleared hw hl⟩
  | destroyed hop hl => exact ⟨_, rfl, fates_destroyed hw hop hl⟩

end

/-! ## Whole runs -/

/-- The nodes with their values of all lists that the program owns. -/
def World.entries (w : World η σ α) : List (Addr × α) := w.owners.flatMap w.store.heap.entries

/-- The values in all lists that the program owns. -/
def World.values (w : World η σ α) : List α := w.entries.map (·.2)

namespace Step

variable (st : Step η σ α)

def arrived : List α := st.op.arrived st.outcome st.events

/-- The values that are handed to hooks because a list destroys them. -/
def handed : List α := st.op.handed st.events

def dropped : List α := RingList.dropped st.events

/-- The values that are handed out to the program. -/
def returned : List α := st.op.returned st.outcome

def lost : List α := st.op.lost st.before st.outcome st.events

/-- What one operation does with values. -/
structure ValueFates : Prop where
  /-- Every value that is in a list or comes to one stays in a list or has one other fate. -/
  balance : (st.before.values ++ st.arrived).Perm
    (st.after.values ++ (st.handed ++ (st.dropped ++ (st.returned ++ st.lost))))
  /-- An operation that does not destroy values spares all but one that it has no memory for. That
  one is dropped. -/
  spared : st.op.destroys? = none → st.handed = [] ∧ st.dropped = st.op.rejected st.outcome
  /-- The values that are destroyed go where the hooks of their list say. -/
  destroyed : ∀ l, st.op.destroys? = some l →
    (st.events = [] ∧ ∃ why, st.op.check st.before = .error why ∧ st.outcome = .misused why) ∨
    ∃ hooks, st.before.read (RingList.hooks l) = .ok hooks ∧ (∀ e ∈ st.events, e.Heeds hooks) ∧
      st.handed ++ (st.dropped ++ st.lost) = st.op.doomed st.before st.outcome st.events
  /-- A duplication leaves all lists as they are. -/
  source : ∀ l fallback, st.op = .duplicate l fallback → ∀ m ∈ st.before.owners,
    m ∈ st.after.owners ∧ st.after.store.heap.entries m = st.before.store.heap.entries m

end Step

/-- **The fates of values** after a run. -/
structure ValueFates (w : World η σ α) (steps : List (Step η σ α)) : Prop where
  /-- Every value that came to a list is in a list, or it was handed to a hook, dropped, handed
  out or lost, and it is in one of these places once. -/
  values : (steps.flatMap Step.arrived).Perm (w.values ++ (steps.flatMap Step.handed ++
    (steps.flatMap Step.dropped ++ (steps.flatMap Step.returned ++ steps.flatMap Step.lost))))
  /-- A node is in one list, once. -/
  nodes : (w.entries.map (·.1)).Nodup
  steps : ∀ st ∈ steps, st.ValueFates

namespace World.Sound

variable {w : World η σ α} {v : View η σ α}

theorem entries_perm (hw : w.Sound v) :
    (v.lists.flatMap fun p => p.2.entries).Perm w.entries := by
  refine List.Perm.trans (.of_eq ?_) (hw.owners.flatMap_right _)
  rw [List.flatMap_map]
  exact List.flatMap_congr fun p hp => (hw.ring (l := p.1) (k := p.2) hp).entries_eq.symm

theorem values_perm (hw : w.Sound v) : v.values.Perm w.values := by
  refine List.Perm.trans (.of_eq ?_) (hw.entries_perm.map _)
  rw [List.map_flatMap]
  rfl

theorem nodup_entries (hw : w.Sound v) : (w.entries.map (·.1)).Nodup := by
  rw [← (hw.entries_perm.map _).nodup_iff, List.map_flatMap]
  exact hw.shows.lists.apart.sublist
    (List.Sublist.flatMap_right _ fun p _ => List.sublist_cons_self p.1 p.2.nodes)

theorem entries_eq {l : Addr} {k : Strip η α} (hw : w.Sound v) (hl : (l, k) ∈ v.lists) :
    w.store.heap.entries l = k.entries := (hw.ring hl).entries_eq

end World.Sound

theorem Effect.duplicate_lists {v v' : View η σ α} {l : Addr} {fallback : η} {o : Outcome η α}
    (he : Effect B v (.duplicate l fallback) o v') : ∀ p ∈ v.lists, p ∈ v'.lists := by
  intro p hp
  rcases he.of_duplicate with ⟨why, -, rfl⟩ | ⟨k, -, -, rfl⟩
  · exact hp
  · rcases duplicating_lists B v k fallback with ⟨copies, -, hlists⟩ | ⟨e, -, hlists⟩
    · rw [hlists]
      exact List.mem_cons_of_mem _ hp
    · rwa [hlists]

/-- **What a step does with values.** -/
theorem Step.Sound.fates {st : Step η σ α} {v v' : View η σ α} (hst : st.Sound B v v') :
    st.ValueFates := by
  obtain ⟨evs, hlog, hf⟩ := hst.effect.fates hst.before
  rw [← hst.events_eq hlog] at hf
  refine ⟨?_, hf.spared, fun l hl => ?_, fun l fallback hop m hm => ?_⟩
  · exact (hst.before.values_perm.symm.append_right _).trans
      (hf.balance.trans (hst.after.values_perm.append_right _))
  · refine (hf.destroyed l hl).imp (fun ⟨hevs, why, ho⟩ => ⟨hevs, why, hst.check_eq ho, ho⟩) ?_
    rintro ⟨k, hk, hheeds, hdoomed⟩
    exact ⟨k.hooks, hst.before.read_eq (hooks_yields hk), hheeds, hdoomed⟩
  · have he := hst.effect
    rw [hop] at he
    obtain ⟨k, rest, hp⟩ := hst.before.strip hm
    have hbefore : (m, k) ∈ v.lists := hp.mem_iff.2 List.mem_cons_self
    have hafter := he.duplicate_lists _ hbefore
    refine ⟨hst.after.owners.mem_iff.1 (List.mem_map_of_mem hafter), ?_⟩
    rw [hst.before.entries_eq hbefore, hst.after.entries_eq hafter]

/-- **Along every run each value has one fate.** -/
theorem World.valueFates (B : Behaviour η σ α) (budgets : Array (Option Nat)) (hookState : σ)
    (ops : List (Op η α)) :
    ValueFates ((World.start budgets hookState).run B ops).2
      ((World.start budgets hookState).steps B ops) := by
  let gone (st : Step η σ α) : List α := st.handed ++ (st.dropped ++ (st.returned ++ st.lost))
  -- the invariant: what came to a list is in the lists of the view or gone
  let P (past : List (Step η σ α)) (v : View η σ α) : Prop :=
    (past.flatMap Step.arrived).Perm (v.values ++ past.flatMap gone)
  have hstep : ∀ {past : List (Step η σ α)} {st : Step η σ α} {v v' : View η σ α},
      st.Sound B v v' → P past v → P (past ++ [st]) v' := by
    intro past st v v' hst h
    have hvals := hst.before.values_perm
    have hvals' := hst.after.values_perm
    have hst := hst.fates.balance
    show ((past ++ [st]).flatMap Step.arrived).Perm (v'.values ++ (past ++ [st]).flatMap gone)
    rw [List.flatMap_append, List.flatMap_append, List.flatMap_singleton, List.flatMap_singleton]
    calc (past.flatMap Step.arrived ++ st.arrived).Perm
          ((st.before.values ++ past.flatMap gone) ++ st.arrived) :=
        (h.trans (hvals.append_right _)).append_right _
      List.Perm _ ((st.before.values ++ st.arrived) ++ past.flatMap gone) := by
        rw [List.append_assoc, List.append_assoc]
        exact List.perm_append_comm.append_left _
      List.Perm _ ((v'.values ++ gone st) ++ past.flatMap gone) :=
        (hst.trans (hvals'.symm.append_right _)).append_right _
      List.Perm _ (v'.values ++ (past.flatMap gone ++ gone st)) := by
        rw [List.append_assoc]
        exact List.perm_append_comm.append_left _
  obtain ⟨v, hw, h⟩ := World.Sound.along (P := P) hstep ops (World.sound_start budgets hookState)
    (show P [] _ from .refl _)
  refine ⟨(h.trans (hw.values_perm.append_right _)).trans (.append_left _ ?_), hw.nodup_entries,
    fun st hst => ?_⟩
  · have hsplit (f g : Step η σ α → List α) (steps : List (Step η σ α)) :
        (steps.flatMap fun st => f st ++ g st).Perm (steps.flatMap f ++ steps.flatMap g) :=
      (List.flatMap_append_perm steps f g).symm
    exact (hsplit _ _ _).trans (((hsplit _ _ _).trans ((hsplit _ _ _).append_left _)).append_left _)
  · obtain ⟨v, v', hst⟩ := (World.sound_start budgets hookState).of_mem_steps hst
    exact hst.fates

end RingList
