import RingList.Proofs.Perform

/-!
# What a program holds on to

A program holds on to lists, owning iterators and cursors. An operation that it may ask for changes
this in one of five ways, however the operation ends.

* `World.Holds`: the five ways.
* `World.holds_perform`: every operation is one of them, or is refused.
-/

set_option autoImplicit false

namespace RingList

variable {η σ α : Type} {B : Behaviour η σ α}

/-- The cursor that the operation moves. -/
def Op.moves? : Op η α → Option Nat
  | .step c | .rewind c _ _ => some c
  | _ => none

namespace World

/-- What a program holds on to after an operation that it may ask for. -/
inductive Holds (w : World η σ α) (op : Op η α) : Holdings → Prop
  | taken : Holds w op (op.takes w)
  | listed (l : Addr) (htakes : op.takes w = w.holdings) : Holds w op (w.holdings.addList l)
  | iterating {l : Addr} (hop : op = .intoIter l) :
      Holds w op ((w.holdings.endList l).addIterator l)
  | seated (s : Seat) (htakes : op.takes w = w.holdings) : Holds w op (w.holdings.addSeat s)
  | moved {c : Nat} (s : Seat) (hop : op.moves? = some c) (htakes : op.takes w = w.holdings) :
      Holds w op (w.holdings.setSeat c s)

variable {w : World η σ α} {op : Op η α}

/-- What the program holds on to after an operation is what the operation leaves it, or what comes
of its result. -/
theorem proceed_holdings {β : Type} {act : Action η σ α β} {answer : β → Answer η α}
    {hold : β → Holdings} {P : Holdings → Prop}
    (hact : op.act B (op.takes w) = act >>= fun b => pure (answer b, hold b))
    (htakes : P (op.takes w)) (hhold : ∀ b, P (hold b)) : P (w.proceed B op).2.holdings := by
  cases hrun : act w.store with
  | ok b s =>
    rw [proceed_of_ok ((congrFun hact _).trans (bind_ok hrun))]
    exact hhold b
  | error e s =>
    rw [proceed_of_error ((congrFun hact _).trans (bind_error hrun))]
    exact htakes

theorem holds_proceed (hc : op.check w = .ok ()) : w.Holds op (w.proceed B op).2.holdings := by
  have keeps : ∀ {β : Type} {act : Action η σ α β} {answer : β → Answer η α},
      op.act B (op.takes w) = Op.keeping (op.takes w) answer act →
      w.Holds op (w.proceed B op).2.holdings := fun hact =>
    proceed_holdings hact .taken fun _ => .taken
  cases op with
  | create source =>
    have hact : (Op.create source).act B w.holdings =
      RingList.create source >>= fun l => pure (.list l, w.holdings.addList l) := rfl
    exact proceed_holdings hact .taken fun l => .listed l rfl
  | collect xs =>
    have hact : (Op.collect xs).act B w.holdings = (do
        let l ← RingList.create .global
        RingList.extend l xs
        return l) >>= fun l => pure (.list l, w.holdings.addList l) := by
      simp [Op.act]
    exact proceed_holdings hact .taken fun l => .listed l rfl
  | duplicate l fallback =>
    have hact : (Op.duplicate l fallback).act B w.holdings =
      RingList.duplicate B l fallback >>= fun l => pure (.list l, w.holdings.addList l) := rfl
    exact proceed_holdings hact .taken fun l => .listed l rfl
  | intoIter l => exact .iterating rfl
  | cursor l d =>
    exact proceed_holdings (Op.act_cursor d) .taken fun _ => .seated _ rfl
  | rewind c l d =>
    exact proceed_holdings (Op.act_rewind d) .taken fun _ => .moved _ rfl rfl
  | step c =>
    obtain ⟨s, hs⟩ := seat_of_expectFresh hc
    exact proceed_holdings (Op.act_step hs) .taken fun _ => .moved _ rfl rfl
  | peek c =>
    obtain ⟨s, hs⟩ := seat_of_expectFresh hc
    exact proceed_holdings (Op.act_peek hs) .taken fun _ => .taken
  | direction c =>
    obtain ⟨s, hs⟩ := seat_of_expectCursor hc
    exact proceed_holdings (Op.act_direction hs) .taken fun _ => .taken
  | cloneCursor c =>
    obtain ⟨s, hs⟩ := seat_of_expectFresh hc
    exact proceed_holdings (Op.act_cloneCursor hs) .taken fun _ => .seated s rfl
  | _ => exact keeps rfl

/-- **What a program holds on to** after an operation. -/
theorem holds_perform (B : Behaviour η σ α) (w : World η σ α) (op : Op η α) :
    (w.perform B op).2.holdings = w.holdings ∨
      op.check w = .ok () ∧ w.Holds op (w.perform B op).2.holdings := by
  unfold perform
  cases hc : op.check w with
  | error why => exact .inl rfl
  | ok u => exact .inr ⟨rfl, holds_proceed hc⟩

/-- The lists of a program are those before an operation, unless a list was made, and then no owning
iterator is given up. -/
theorem Holds.lists {t : Holdings} (h : w.Holds op t) :
    (∀ l ∈ t.lists, l ∈ w.holdings.lists) ∨ t.iterators = w.holdings.iterators := by
  have ended : ∀ {l}, ∀ m ∈ (w.holdings.endList l).lists, m ∈ w.holdings.lists :=
    fun m hm => List.mem_of_mem_erase hm
  cases h with
  | taken =>
    cases op with
    | destroy l => exact .inl ended
    | intoIter l => exact .inl ended
    | dropIter l => exact .inl fun m hm => hm
    | _ => exact .inr rfl
  | listed => exact .inr rfl
  | iterating => exact .inl ended
  | seated => exact .inr rfl
  | moved => exact .inr rfl

end World

end RingList
