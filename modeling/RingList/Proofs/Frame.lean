import RingList.Proofs.Effect

/-!
# Actions that change no list

`Keeps R act`: however the action ends, `R` relates the store that it starts from and the store
that it leaves. Positions, iterators and cursors keep the whole store (`Keeps Eq`); searching and
comparing keep all but the hooks' state and the record of their calls (`Consulted`).
-/

set_option autoImplicit false

namespace RingList

variable {η σ α β γ : Type}

def leaves : EStateM.Result Stop (Store η σ α) β → Store η σ α
  | .ok _ s => s
  | .error _ s => s

/-- However the action ends, the store that it leaves is related to the one that it starts from. -/
def Keeps (R : Store η σ α → Store η σ α → Prop) (act : Action η σ α β) : Prop :=
  ∀ s, R s (leaves (act s))

/-- Hooks for matching may have been called, and nothing else has happened. -/
structure Consulted (s s' : Store η σ α) : Prop where
  heap : s'.heap = s.heap
  budgets : s'.budgets = s.budgets
  events : ∃ evs : List (Event η α), (∀ e ∈ evs, e.isMatching = true) ∧
    s'.events.toList = s.events.toList ++ evs

theorem Consulted.refl (s : Store η σ α) : Consulted s s := ⟨rfl, rfl, [], by simp, by simp⟩

theorem Consulted.trans {s s' s'' : Store η σ α} (h : Consulted s s') (h' : Consulted s' s'') :
    Consulted s s'' := by
  obtain ⟨evs, hevs, hlog⟩ := h.events
  obtain ⟨evs', hevs', hlog'⟩ := h'.events
  refine ⟨h'.heap.trans h.heap, h'.budgets.trans h.budgets, evs ++ evs', fun e he => ?_, ?_⟩
  · exact (List.mem_append.1 he).elim (hevs e) (hevs' e)
  · rw [hlog', hlog, List.append_assoc]

instance : Std.Refl (Consulted : Store η σ α → Store η σ α → Prop) := ⟨.refl⟩

instance : Trans (Consulted : Store η σ α → Store η σ α → Prop) Consulted Consulted := ⟨.trans⟩

/-- A consultation shows in the view as events and a new state of the hooks. -/
theorem Consulted.shows {s s' : Store η σ α} {v : View η σ α} (h : Consulted s s')
    (hs : s.Shows v) :
    ∃ evs, (∀ e ∈ evs, e.isMatching = true) ∧ s'.Shows (v.heeding evs s'.hookState) := by
  obtain ⟨evs, hevs, hlog⟩ := h.events
  refine ⟨evs, hevs, h.heap ▸ hs.lists, h.heap ▸ hs.fresh, h.budgets.trans hs.budgets, rfl, ?_⟩
  rw [hlog, hs.log]
  rfl

namespace Keeps

section
variable {R : Store η σ α → Store η σ α → Prop} [Std.Refl R]

theorem ofEq {act : Action η σ α β} (h : Keeps Eq act) : Keeps R act := fun s => by
  rw [← h s]
  exact refl s

theorem pure (b : β) : Keeps R (pure b : Action η σ α β) := fun s => refl s

theorem throw (e : Stop) : Keeps R (throw e : Action η σ α β) := fun s => refl s

theorem fault (f : Fault) : Keeps R (fault f : Action η σ α β) := fun s => refl s

theorem get : Keeps R (get : Action η σ α (Store η σ α)) := fun s => refl s

end

theorem bind {R : Store η σ α → Store η σ α → Prop} [Trans R R R] {x : Action η σ α β}
    {f : β → Action η σ α γ} (hx : Keeps R x) (hf : ∀ b, Keeps R (f b)) : Keeps R (x >>= f) := by
  intro s
  have hs := hx s
  rw [run_bind]
  cases hxs : x s with
  | error e s' => rwa [hxs] at hs
  | ok b s' =>
    rw [hxs] at hs
    exact Trans.trans hs (hf b s')

end Keeps

/-! ## Single steps -/

theorem cell_keeps (a : Addr) : Keeps Eq (cell a : Action η σ α (Cell η α)) := fun s => by
  unfold cell
  rw [run_bind]
  cases hc : s.heap.get? a <;> simp [hc, leaves, fault]

theorem nextOf_keeps (a : Addr) : Keeps Eq (nextOf a : Action η σ α Addr) :=
  (cell_keeps a).bind fun _ => .pure _

theorem prevOf_keeps (a : Addr) : Keeps Eq (prevOf a : Action η σ α Addr) :=
  (cell_keeps a).bind fun _ => .pure _

theorem record_keeps (l : Addr) : Keeps Eq (record l : Action η σ α (Record η)) :=
  (cell_keeps l).bind fun c => by
    cases c.content with
    | header r => exact .pure r
    | node _ => exact .fault _

theorem value_keeps (a : Addr) : Keeps Eq (value a : Action η σ α α) :=
  (cell_keeps a).bind fun c => by
    rcases c.content with _ | (_ | x)
    · exact .fault _
    · exact .fault _
    · exact .pure x

theorem length_keeps (l : Addr) : Keeps Eq (length l : Action η σ α Nat) :=
  (record_keeps l).bind fun _ => .pure _

theorem isEmpty_keeps (l : Addr) : Keeps Eq (isEmpty l : Action η σ α Bool) :=
  (nextOf_keeps l).bind fun _ => .pure _

theorem hooks_keeps (l : Addr) : Keeps Eq (hooks l : Action η σ α (Hooks η)) :=
  (record_keeps l).bind fun _ => .pure _

/-! ## Walks -/

theorem follow_keeps (d : Direction) (a : Addr) : Keeps Eq (d.follow a : Action η σ α Addr) := by
  cases d with
  | forward => exact nextOf_keeps a
  | backward => exact prevOf_keeps a

theorem walk_keeps (d : Direction) :
    ∀ (links : Nat) (a : Addr), Keeps Eq (d.walk links a : Action η σ α Addr)
  | 0, a => .pure a
  | links + 1, a => (follow_keeps d a).bind fun b => walk_keeps d links b

theorem index_keeps (l : Addr) (i : Int) : Keeps Eq (index l i : Action η σ α (Option Addr)) :=
  (length_keeps l).bind fun n => by
    cases Route.plan n i with
    | error f => exact .fault f
    | ok r =>
      cases r with
      | none => exact .pure none
      | some r =>
        exact ((follow_keeps r.direction l).bind fun a => walk_keeps r.direction r.links a).bind
          fun _ => .pure _

theorem iterStart_keeps (l : Addr) : Keeps Eq (Iter.start l : Action η σ α Iter) :=
  (nextOf_keeps l).bind fun _ => (prevOf_keeps l).bind fun _ => (length_keeps l).bind fun _ =>
    .pure _

theorem next_keeps (it : Iter) : Keeps Eq (it.next : Action η σ α (Option α × Iter)) := by
  unfold Iter.next
  split
  · exact .pure _
  · exact (nextOf_keeps it.front).bind fun _ => (value_keeps it.front).bind fun _ => .pure _

theorem nextBack_keeps (it : Iter) : Keeps Eq (it.nextBack : Action η σ α (Option α × Iter)) := by
  unfold Iter.nextBack
  split
  · exact .pure _
  · exact (prevOf_keeps it.back).bind fun _ => (value_keeps it.back).bind fun _ => .pure _

theorem along_keeps : ∀ (word : List End) (it : Iter),
    Keeps Eq (it.along word : Action η σ α (List (Option α × Nat)))
  | [], _ => .pure _
  | .front :: word, it => (next_keeps it).bind fun r => (along_keeps word r.2).bind fun _ => .pure _
  | .back :: word, it =>
    (nextBack_keeps it).bind fun r => (along_keeps word r.2).bind fun _ => .pure _

theorem seat_keeps (l : Addr) (d : Direction) : Keeps Eq (Cursor.seat l d : Action η σ α Cursor) :=
  (follow_keeps d l).bind fun _ => .pure _

theorem step_keeps (c : Cursor) :
    Keeps Eq (c.step : Action η σ α (Option Addr × Cursor)) := by
  unfold Cursor.step
  cases c.next with
  | none => exact .pure _
  | some a => exact (follow_keeps c.direction a).bind fun _ => .pure _

/-! ## Matching -/

theorem callMatching_keeps (B : Behaviour η σ α) (h : η) (x key : α) :
    Keeps Consulted (callMatching B h x key) := fun s => by
  have hc : Consulted s ({ s with hookState := (B.matching h s.hookState x key).2 }.log
      (.matching h x key (B.matching h s.hookState x key).1)) :=
    ⟨rfl, rfl, [.matching h x key (B.matching h s.hookState x key).1],
      by simp [Event.isMatching], by simp [Store.log]⟩
  unfold callMatching
  cases hr : B.matching h s.hookState x key with
  | mk reply σ' =>
    rw [hr] at hc
    cases reply <;> simpa [run_bind, noteCall, hr, Reply.settle, leaves] using hc

theorem searchFrom_keeps (B : Behaviour η σ α) (matcher : η) (key : α) :
    ∀ (fuel : Nat) (c : Cursor), Keeps Consulted (searchFrom B matcher key fuel c)
  | 0, _ => .fault _
  | fuel + 1, c => by
    refine (step_keeps c).ofEq.bind fun r => ?_
    rcases r with ⟨_ | node, c⟩
    · exact .pure none
    · refine (value_keeps node).ofEq.bind fun x => ?_
      refine (callMatching_keeps B matcher x key).bind fun b => ?_
      cases b with
      | true => exact .pure _
      | false => exact searchFrom_keeps B matcher key fuel c

theorem search_keeps (B : Behaviour η σ α) (l : Addr) (key : α) (fallback : η) :
    Keeps Consulted (search B l key fallback) :=
  (hooks_keeps l).ofEq.bind fun _ => Keeps.get.bind fun _ =>
    (seat_keeps l .forward).ofEq.bind fun _ => searchFrom_keeps B _ key _ _

theorem equalFrom_keeps (B : Behaviour η σ α) (rel : η) :
    ∀ (fuel : Nat) (left right : Iter), Keeps Consulted (equalFrom B rel fuel left right)
  | 0, _, _ => .fault _
  | fuel + 1, left, right => by
    refine (next_keeps left).ofEq.bind fun r => ?_
    rcases r with ⟨_ | x, left⟩
    · exact (next_keeps right).ofEq.bind fun _ => .pure _
    · refine (next_keeps right).ofEq.bind fun r => ?_
      rcases r with ⟨_ | y, right⟩
      · exact .pure false
      · refine (callMatching_keeps B rel x y).bind fun b => ?_
        cases b with
        | true => exact equalFrom_keeps B rel fuel left right
        | false => exact .pure false

theorem equal_keeps (B : Behaviour η σ α) (l other : Addr) (rel : η) :
    Keeps Consulted (equal B l other rel) := by
  refine (length_keeps l).ofEq.bind fun n => (length_keeps other).ofEq.bind fun n' => ?_
  split
  · exact .pure false
  · exact (iterStart_keeps l).ofEq.bind fun _ => (iterStart_keeps other).ofEq.bind fun _ =>
      equalFrom_keeps B rel _ _ _

end RingList
