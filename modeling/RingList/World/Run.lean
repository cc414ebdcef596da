import RingList.World.Op

/-!
# Runs

`World.perform` carries out one operation of a program, `World.run` a sequence of them. An operation
is answered, stops on the way, or is refused because the program may not ask for it. What the program
is known to be allowed can be carried out by `World.proceed`, which does not look.
-/

set_option autoImplicit false

namespace RingList

variable {η σ α : Type}

/-- How an operation ends. -/
inductive Outcome (η α : Type) where
  | answered (a : Answer η α)
  | stopped (why : Stop)
  | misused (why : Misuse)
deriving DecidableEq, Repr

/-- Limits the requests that an allocator serves from now on. -/
def refill (k : Nat) (budget : Option Nat) : Action η σ α Unit :=
  modify fun s => { s with budgets := s.budgets.setIfInBounds k budget }

namespace Holdings

/-- Work with a cursor. -/
def withSeat {β : Type} (t : Holdings) (c : Nat) (f : Seat → Action η σ α β) : Action η σ α β :=
  match t.seats[c]? with
  | some s => f s
  | none => fault .deadBlock

end Holdings

namespace Op

/-- An answer that leaves the program's holdings as they are. -/
def keeping (t : Holdings) {β : Type} (answer : β → Answer η α) (act : Action η σ α β) :
    Action η σ α (Answer η α × Holdings) := do
  return (answer (← act), t)

/-- The work of an operation: its answer and the program's holdings afterwards. -/
def act (B : Behaviour η σ α) (t : Holdings) :
    Op η α → Action η σ α (Answer η α × Holdings)
  | .create source => do
    let l ← RingList.create source
    return (.list l, t.addList l)
  | .collect vs => do
    let l ← RingList.create .global
    RingList.extend l vs
    return (.list l, t.addList l)
  | .duplicate l fallback => do
    let copy ← RingList.duplicate B l fallback
    return (.list copy, t.addList copy)
  | .addHead l v => keeping t (.node ∘ some) (RingList.addHead l v)
  | .addTail l v => keeping t (.node ∘ some) (RingList.addTail l v)
  | .insert l anchor v after => keeping t (.node ∘ some) (RingList.insert l anchor v after)
  | .extend l vs => keeping t (fun _ => .done) (RingList.extend l vs)
  | .delete l node => keeping t (fun _ => .done) (RingList.delete B l node)
  | .popFront l => keeping t .value (RingList.popFront l)
  | .popBack l => keeping t .value (RingList.popBack l)
  | .clear l => keeping t (fun _ => .done) (RingList.clear B .ordinary l)
  | .destroy l => keeping t (fun _ => .done) (RingList.destroy B .ordinary l)
  | .rotate l => keeping t (fun _ => .done) (RingList.rotate l)
  | .join l other => keeping t (fun _ => .done) (RingList.join l other)
  | .exchange _ node v => keeping t (.value ∘ some) (RingList.exchange node v)
  | .setFront l v => keeping t .value (RingList.setFront l v)
  | .setBack l v => keeping t .value (RingList.setBack l v)
  | .installHook l kind h => keeping t (fun _ => .done) (RingList.installHook l kind h)
  | .setHooks l hs => keeping t (fun _ => .done) (RingList.setHooks l hs)
  | .callDup h v => keeping t .value (RingList.callDup B h v)
  | .callFree h v => keeping t (fun _ => .done) (RingList.callFree B h v)
  | .callMatching h v key => keeping t .truth (RingList.callMatching B h v key)
  | .head l => keeping t .node (RingList.head l)
  | .tail l => keeping t .node (RingList.tail l)
  | .front l => keeping t .value (RingList.front l)
  | .back l => keeping t .value (RingList.back l)
  | .length l => keeping t .count (RingList.length l)
  | .isEmpty l => keeping t .truth (RingList.isEmpty l)
  | .value _ node => keeping t (.value ∘ some) (RingList.value node)
  | .nextNode l node => keeping t .node (RingList.nextNode l node)
  | .prevNode l node => keeping t .node (RingList.prevNode l node)
  | .hooks l => keeping t .hooks (RingList.hooks l)
  | .allocator l => keeping t .allocator (RingList.allocator l)
  | .index l i => keeping t .node (RingList.index l i)
  | .search l key fallback => keeping t .node (RingList.search B l key fallback)
  | .equal l other rel => keeping t .truth (RingList.equal B l other rel)
  | .iterate l word => keeping t .taken (do (← Iter.start l).along word)
  | .intoIter l => return (.iterator l, t.addIterator l)
  | .take it e => keeping t .value (RingList.pop it e)
  | .dropIter it => keeping t (fun _ => .done) (RingList.destroy B .ordinary it)
  | .cursor l d => do
    let start ← Cursor.seat l d
    return (.cursor t.seats.size, t.addSeat { cursor := start })
  | .rewind c l d => do
    let start ← Cursor.seat l d
    return (.done, t.setSeat c { cursor := start })
  | .step c => t.withSeat c fun s => do
    let (node, moved) ← s.cursor.step
    return (.node node, t.setSeat c { s with cursor := moved, last := node })
  | .peek c => t.withSeat c fun s => return (.node s.cursor.next, t)
  | .direction c => t.withSeat c fun s => return (.direction s.cursor.direction, t)
  | .cloneCursor c => t.withSeat c fun s => return (.cursor t.seats.size, t.addSeat s)
  | .refill k budget => keeping t (fun _ => .done) (RingList.refill k budget)

end Op

namespace World

/-- Carries out an operation that the program may ask for. -/
def proceed (B : Behaviour η σ α) (w : World η σ α) (op : Op η α) : Outcome η α × World η σ α :=
  let t := op.takes w
  match op.act B t w.store with
  | .ok (answer, t) store => (.answered answer, ⟨store, t⟩)
  | .error why store => (.stopped why, ⟨store, t⟩)

/-- Carries out one operation, if the program may ask for it. -/
def perform (B : Behaviour η σ α) (w : World η σ α) (op : Op η α) : Outcome η α × World η σ α :=
  match op.check w with
  | .error why => (.misused why, w)
  | .ok _ => w.proceed B op

def run (B : Behaviour η σ α) (w : World η σ α) :
    List (Op η α) → List (Outcome η α) × World η σ α
  | [] => ([], w)
  | op :: ops =>
    let (outcome, w) := w.perform B op
    let (outcomes, w) := run B w ops
    (outcome :: outcomes, w)

end World

end RingList
