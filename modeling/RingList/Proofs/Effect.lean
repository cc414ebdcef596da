import RingList.Proofs.Copying
import RingList.World.Run

/-!
# The effects of operations

What an operation of a program does, said on views: `Effect B v op o v'` holds if the operation
may be asked for and ends with the outcome `o`, and turns the view `v` into the view `v'`.
Operations of one kind share a relation on the entries of the list they work on.

* `Reading`: what the reads of a list answer.
* `Placing`, `Writing`, `Taking`: the place at which a value is added, exchanged or taken out.
-/

set_option autoImplicit false

namespace RingList

variable {η σ α : Type}

section
variable (l : Addr) (es : List (Addr × α))

/-- What the reads of the list `l` answer when its entries are `es`. -/
inductive Reading : Op η α → Answer η α → Prop
  | head : Reading (.head l) (.node (es.map (·.1)).head?)
  | tail : Reading (.tail l) (.node (es.map (·.1)).getLast?)
  | front : Reading (.front l) (.value (es.map (·.2)).head?)
  | back : Reading (.back l) (.value (es.map (·.2)).getLast?)
  | length : Reading (.length l) (.count es.length)
  | isEmpty : Reading (.isEmpty l) (.truth es.isEmpty)
  | value {xs ys : List (Addr × α)} {a : Addr} {x : α} (hes : es = xs ++ (a, x) :: ys) :
      Reading (.value l a) (.value (some x))
  | nextNode {xs ys : List (Addr × α)} {a : Addr} {x : α} (hes : es = xs ++ (a, x) :: ys) :
      Reading (.nextNode l a) (.node (ys.map (·.1)).head?)
  | prevNode {xs ys : List (Addr × α)} {a : Addr} {x : α} (hes : es = xs ++ (a, x) :: ys) :
      Reading (.prevNode l a) (.node (xs.map (·.1)).getLast?)

/-- The operation adds `x` to the list `l`, between the entries before and behind it. -/
inductive Placing : Op η α → List (Addr × α) → α → List (Addr × α) → Prop
  | head (x : α) : Placing (.addHead l x) [] x es
  | tail (x : α) : Placing (.addTail l x) es x []
  | after {xs ys : List (Addr × α)} {a : Addr} {y : α} (x : α) (hes : es = xs ++ (a, y) :: ys) :
      Placing (.insert l a x true) (xs ++ [(a, y)]) x ys
  | before {xs ys : List (Addr × α)} {a : Addr} {y : α} (x : α) (hes : es = xs ++ (a, y) :: ys) :
      Placing (.insert l a x false) xs x ((a, y) :: ys)

/-- The operation exchanges the value `x` in the node `a` of the list `l` for `y`. -/
inductive Writing : Op η α → List (Addr × α) → Addr → α → α → List (Addr × α) → Prop
  | exchange {xs ys : List (Addr × α)} {a : Addr} {x : α} (y : α) (hes : es = xs ++ (a, x) :: ys) :
      Writing (.exchange l a y) xs a x y ys
  | front {ys : List (Addr × α)} {a : Addr} {x : α} (y : α) (hes : es = (a, x) :: ys) :
      Writing (.setFront l y) [] a x y ys
  | back {xs : List (Addr × α)} {a : Addr} {x : α} (y : α) (hes : es = xs ++ [(a, x)]) :
      Writing (.setBack l y) xs a x y []

/-- The operation takes the node `a` with the value `x` out of the list `l` and hands out the
value. -/
inductive Taking : Op η α → List (Addr × α) → Addr → α → List (Addr × α) → Prop
  | popFront {ys : List (Addr × α)} {a : Addr} {x : α} (hes : es = (a, x) :: ys) :
      Taking (.popFront l) [] a x ys
  | popBack {xs : List (Addr × α)} {a : Addr} {x : α} (hes : es = xs ++ [(a, x)]) :
      Taking (.popBack l) xs a x []
  | takeFront {ys : List (Addr × α)} {a : Addr} {x : α} (hes : es = (a, x) :: ys) :
      Taking (.take l .front) [] a x ys
  | takeBack {xs : List (Addr × α)} {a : Addr} {x : α} (hes : es = xs ++ [(a, x)]) :
      Taking (.take l .back) xs a x []

/-- The operation finds nothing at the end of the list `l` that it works on if the list is empty. -/
inductive Missing : Op η α → Prop
  | popFront : Missing (.popFront l)
  | popBack : Missing (.popBack l)
  | take (e : End) : Missing (.take l e)
  | setFront (y : α) : Missing (.setFront l y)
  | setBack (y : α) : Missing (.setBack l y)

end

section
variable {l : Addr} {es xs ys : List (Addr × α)} {op : Op η α} {a : Addr} {x y : α}

theorem Placing.split (hp : Placing l es op xs x ys) : es = xs ++ ys := by
  cases hp with
  | head => rfl
  | tail => simp
  | after _ hes => simpa using hes
  | before _ hes => exact hes

theorem Writing.split (hw : Writing l es op xs a x y ys) : es = xs ++ (a, x) :: ys := by
  cases hw with
  | exchange _ hes => exact hes
  | front _ hes => exact hes
  | back _ hes => exact hes

theorem Taking.split (ht : Taking l es op xs a x ys) : es = xs ++ (a, x) :: ys := by
  cases ht with
  | popFront hes => exact hes
  | popBack hes => exact hes
  | takeFront hes => exact hes
  | takeBack hes => exact hes

end

namespace Op

/-- The operation reads one list, or a node of it. -/
def reads : Op η α → Bool
  | .head _ | .tail _ | .front _ | .back _ | .length _ | .isEmpty _ | .value _ _ | .nextNode _ _
  | .prevNode _ _ | .hooks _ | .allocator _ => true
  | _ => false

/-- The operation reads lists and works on cursors only. -/
def looks : Op η α → Bool
  | .index _ _ | .iterate _ _ | .cursor _ _ | .rewind _ _ _ | .step _
  | .peek _ | .direction _ | .cloneCursor _ => true
  | _ => false

/-- The operation reads lists and calls hooks for matching. -/
def consults : Op η α → Bool
  | .search _ _ _ | .equal _ _ _ | .callMatching _ _ _ => true
  | _ => false

/-- The list that the operation destroys with its header. -/
def ends? : Op η α → Option Addr
  | .destroy l | .dropIter l => some l
  | _ => none

theorem eq_of_ends {op : Op η α} {l : Addr} (h : op.ends? = some l) :
    op = .destroy l ∨ op = .dropIter l := by
  cases op with
  | destroy m => exact .inl (congrArg _ (Option.some.inj h))
  | dropIter m => exact .inr (congrArg _ (Option.some.inj h))
  | _ => cases h

end Op

/-- The event is the call of a matching hook. -/
def Event.isMatching : Event η α → Bool
  | .matching _ _ _ _ => true
  | _ => false

/-- The outcome of an operation that stops for this reason, or gives this answer. -/
def Outcome.ofStop (a : Answer η α) : Option Stop → Outcome η α
  | none => .answered a
  | some e => .stopped e

/-- **What operations do.** The lists of a view are taken in any order. -/
inductive Effect (B : Behaviour η σ α) (v : View η σ α) :
    Op η α → Outcome η α → View η σ α → Prop
  | misused (op : Op η α) (why : Misuse) : Effect B v op (.misused why) v
  -- reads
  | looked {op : Op η α} (hop : op.looks = true) (o : Outcome η α) : Effect B v op o v
  | consulted {op : Op η α} (hop : op.consults = true) (o : Outcome η α) {evs : List (Event η α)}
      (hevs : ∀ e ∈ evs, e.isMatching = true) (σ' : σ) : Effect B v op o (v.heeding evs σ')
  | read {op : Op η α} {l : Addr} {k : Strip η α} {a : Answer η α} (hl : (l, k) ∈ v.lists)
      (hr : Reading l k.entries op a) : Effect B v op (.answered a) v
  | readHooks {l : Addr} {k : Strip η α} (hl : (l, k) ∈ v.lists) :
      Effect B v (.hooks l) (.answered (.hooks k.hooks)) v
  | readAllocator {l : Addr} {k : Strip η α} (hl : (l, k) ∈ v.lists) :
      Effect B v (.allocator l) (.answered (.allocator k.allocator)) v
  | owned (l : Addr) : Effect B v (.intoIter l) (.answered (.iterator l)) v
  -- calls of hooks by the program
  | calledDup (h : η) (x : α) (o : Outcome η α) :
      Effect B v (.callDup h x) o (v.heeding [.dup h x (B.dup h v.hookState x).1]
        (B.dup h v.hookState x).2)
  | calledFree (h : η) (x : α) (o : Outcome η α) :
      Effect B v (.callFree h x) o (v.heeding [.free h x (B.free h v.hookState x).1]
        (B.free h v.hookState x).2)
  -- budgets
  | refilled (i : Nat) (budget : Option Nat) :
      Effect B v (.refill i budget) (.answered .done)
        { v with budgets := v.budgets.setIfInBounds i budget }
  -- new lists
  | created {source : Allocator} (hserve : v.serves source = true) :
      Effect B v (.create source) (.answered (.list v.fresh))
        ((v.supply source .header).having ((v.fresh, ⟨{}, source, []⟩) :: v.lists))
  | notCreated {source : Allocator} (hserve : v.serves source = false) :
      Effect B v (.create source) (.stopped (.refused .header)) (v.note [.refused source .header])
  | collected {xs : List α} (hs : v.supplies .global (xs.length + 1) = true) :
      Effect B v (.collect xs) (.answered (.list v.fresh))
        (((v.supply .global .header).supplyMany .global xs.length).having
          ((v.fresh, ⟨{}, .global, numbered (v.fresh + 1) xs⟩) :: v.lists))
  | duplicated {l : Addr} {k : Strip η α} (fallback : η) (hl : (l, k) ∈ v.lists) :
      Effect B v (.duplicate l fallback)
        (.ofStop (.list v.fresh) (duplicating B v k fallback).stop)
        (duplicating B v k fallback).view
  -- new nodes
  | placed {op : Op η α} {l : Addr} {k : Strip η α} {rest : List (Addr × Strip η α)}
      {xs ys : List (Addr × α)} {x : α} (hl : v.lists.Perm ((l, k) :: rest))
      (hp : Placing l k.entries op xs x ys) (hserve : v.serves k.allocator = true) :
      Effect B v op (.answered (.node (some v.fresh))) (v.placed l k rest xs x ys)
  | notPlaced {op : Op η α} {l : Addr} {k : Strip η α} {xs ys : List (Addr × α)} {x : α}
      (hl : (l, k) ∈ v.lists) (hp : Placing l k.entries op xs x ys)
      (hserve : v.serves k.allocator = false) :
      Effect B v op (.stopped (.refused .node)) (v.note [.refused k.allocator .node, .dropped x])
  | extended {l : Addr} {k : Strip η α} {rest : List (Addr × Strip η α)} {xs : List α}
      (hl : v.lists.Perm ((l, k) :: rest)) (hs : v.supplies k.allocator xs.length = true) :
      Effect B v (.extend l xs) (.answered .done) ((v.supplyMany k.allocator xs.length).having
        ((l, { k with entries := k.entries ++ numbered v.fresh xs }) :: rest))
  -- changes in place
  | written {op : Op η α} {l : Addr} {k : Strip η α} {rest : List (Addr × Strip η α)}
      {xs ys : List (Addr × α)} {a : Addr} {x y : α} (hl : v.lists.Perm ((l, k) :: rest))
      (hw : Writing l k.entries op xs a x y ys) :
      Effect B v op (.answered (.value (some x)))
        (v.having ((l, { k with entries := xs ++ (a, y) :: ys }) :: rest))
  | missed {op : Op η α} {l : Addr} {k : Strip η α} (hl : (l, k) ∈ v.lists) (hk : k.entries = [])
      (hm : Missing l op) : Effect B v op (.answered (.value none)) v
  | rotated {l : Addr} {k : Strip η α} {rest : List (Addr × Strip η α)}
      (hl : v.lists.Perm ((l, k) :: rest)) :
      Effect B v (.rotate l) (.answered .done)
        (v.having ((l, { k with entries := RingList.rotated k.entries }) :: rest))
  | joined {l m : Addr} {k k' : Strip η α} {rest : List (Addr × Strip η α)}
      (hl : v.lists.Perm ((l, k) :: (m, k') :: rest)) :
      Effect B v (.join l m) (.answered .done)
        (v.having ((l, { k with entries := k.entries ++ k'.entries }) ::
          (m, { k' with entries := [] }) :: rest))
  | rehooked {op : Op η α} {l : Addr} {k : Strip η α} {rest : List (Addr × Strip η α)}
      {hs : Hooks η} (hl : v.lists.Perm ((l, k) :: rest))
      (hop : op = .setHooks l hs ∨
        ∃ kind h, op = .installHook l kind h ∧ hs = k.hooks.set h kind) :
      Effect B v op (.answered .done) (v.having ((l, { k with hooks := hs }) :: rest))
  -- nodes and lists that go
  | taken {op : Op η α} {l : Addr} {k : Strip η α} {rest : List (Addr × Strip η α)}
      {xs ys : List (Addr × α)} {a : Addr} {x : α} (hl : v.lists.Perm ((l, k) :: rest))
      (ht : Taking l k.entries op xs a x ys) :
      Effect B v op (.answered (.value (some x)))
        ((v.having ((l, { k with entries := xs ++ ys }) :: rest)).note
          [.released k.allocator a .node])
  | deleted {l : Addr} {k : Strip η α} {rest : List (Addr × Strip η α)} {xs ys : List (Addr × α)}
      {a : Addr} {x : α} (hl : v.lists.Perm ((l, k) :: rest))
      (hk : k.entries = xs ++ (a, x) :: ys) :
      Effect B v (.delete l a)
        (.ofStop .done ((discarding B .ordinary k.hooks v.hookState x).reply.stop .free))
        ((v.having ((l, { k with entries := xs ++ ys }) :: rest)).heeding
          [.released k.allocator a .node, (discarding B .ordinary k.hooks v.hookState x).event]
          (discarding B .ordinary k.hooks v.hookState x).hookState)
  | cleared {l : Addr} {k : Strip η α} {rest : List (Addr × Strip η α)}
      (hl : v.lists.Perm ((l, k) :: rest)) :
      Effect B v (.clear l)
        (.ofStop .done
          (teardown B .ordinary k.hooks k.allocator v.hookState k.entries).stop)
        ((v.having ((l, { k with entries := [] }) :: rest)).heeding
          (teardown B .ordinary k.hooks k.allocator v.hookState k.entries).events
          (teardown B .ordinary k.hooks k.allocator v.hookState k.entries).hookState)
  | destroyed {op : Op η α} {l : Addr} {k : Strip η α} {rest : List (Addr × Strip η α)}
      (hop : op.ends? = some l) (hl : v.lists.Perm ((l, k) :: rest)) :
      Effect B v op
        (.ofStop .done
          (teardown B .ordinary k.hooks k.allocator v.hookState k.entries).stop)
        ((v.having rest).heeding
          ((teardown B .ordinary k.hooks k.allocator v.hookState k.entries).eventsWithHeader
            k.allocator l)
          (teardown B .ordinary k.hooks k.allocator v.hookState k.entries).hookState)

namespace Effect

variable {B : Behaviour η σ α} {v v' : View η σ α} {o : Outcome η α} {l m : Addr}

/-- What a duplication does. -/
theorem of_duplicate {fallback : η} (he : Effect B v (.duplicate l fallback) o v') :
    (∃ why, o = .misused why ∧ v' = v) ∨ ∃ k, (l, k) ∈ v.lists ∧
      o = .ofStop (.list v.fresh) (duplicating B v k fallback).stop ∧
      v' = (duplicating B v k fallback).view := by
  cases he with
  | misused op why => exact .inl ⟨why, rfl, rfl⟩
  | duplicated fallback hl => exact .inr ⟨_, hl, rfl, rfl⟩
  | looked hop => cases hop
  | consulted hop => cases hop
  | read hl hr => cases hr
  | placed hl hp => cases hp
  | notPlaced hl hp => cases hp
  | written hl hw => cases hw
  | missed hl hk hm => cases hm
  | rehooked hl hop => rcases hop with h | ⟨_, _, h, -⟩ <;> cases h
  | taken hl ht => cases ht
  | destroyed hop => cases hop

/-- What a join does. -/
theorem of_join (he : Effect B v (.join l m) o v') :
    (∃ why, o = .misused why ∧ v' = v) ∨ ∃ k k' rest, v.lists.Perm ((l, k) :: (m, k') :: rest) ∧
      o = .answered .done ∧
      v' = v.having ((l, { k with entries := k.entries ++ k'.entries }) ::
        (m, { k' with entries := [] }) :: rest) := by
  cases he with
  | misused op why => exact .inl ⟨why, rfl, rfl⟩
  | joined hl => exact .inr ⟨_, _, _, hl, rfl, rfl⟩
  | looked hop => cases hop
  | consulted hop => cases hop
  | read hl hr => cases hr
  | placed hl hp => cases hp
  | notPlaced hl hp => cases hp
  | written hl hw => cases hw
  | missed hl hk hm => cases hm
  | rehooked hl hop => rcases hop with h | ⟨_, _, h, -⟩ <;> cases h
  | taken hl ht => cases ht
  | destroyed hop => cases hop

/-- What taking a value from an owning iterator does. -/
theorem of_take {e : End} (he : Effect B v (.take l e) o v') :
    (∃ why, o = .misused why ∧ v' = v) ∨
      (∃ k, (l, k) ∈ v.lists ∧ k.entries = [] ∧ o = .answered (.value none) ∧ v' = v) ∨
      ∃ k rest xs a x ys, v.lists.Perm ((l, k) :: rest) ∧
        Taking l k.entries (.take l e : Op η α) xs a x ys ∧ o = .answered (.value (some x)) ∧
        v' = (v.having ((l, { k with entries := xs ++ ys }) :: rest)).note
          [.released k.allocator a .node] := by
  cases he with
  | misused op why => exact .inl ⟨why, rfl, rfl⟩
  | missed hl hk hm =>
    cases hm with
    | take => exact .inr (.inl ⟨_, hl, hk, rfl, rfl⟩)
  | taken hl ht =>
    have htake := ht
    cases ht with
    | takeFront hes => exact .inr (.inr ⟨_, _, _, _, _, _, hl, htake, rfl, rfl⟩)
    | takeBack hes => exact .inr (.inr ⟨_, _, _, _, _, _, hl, htake, rfl, rfl⟩)
  | looked hop => cases hop
  | consulted hop => cases hop
  | read hl hr => cases hr
  | placed hl hp => cases hp
  | notPlaced hl hp => cases hp
  | written hl hw => cases hw
  | rehooked hl hop => rcases hop with h | ⟨_, _, h, -⟩ <;> cases h
  | destroyed hop => cases hop

/-- What destroying a list does. -/
theorem of_ends {op : Op η α} (hop : op.ends? = some l) (he : Effect B v op o v') :
    (∃ why, o = .misused why ∧ v' = v) ∨ ∃ k rest, v.lists.Perm ((l, k) :: rest) ∧
      o = .ofStop .done (teardown B .ordinary k.hooks k.allocator v.hookState k.entries).stop ∧
      v' = (v.having rest).heeding
        ((teardown B .ordinary k.hooks k.allocator v.hookState k.entries).eventsWithHeader
          k.allocator l)
        (teardown B .ordinary k.hooks k.allocator v.hookState k.entries).hookState := by
  rcases Op.eq_of_ends hop with rfl | rfl
  all_goals
    cases he with
    | misused op why => exact .inl ⟨why, rfl, rfl⟩
    | destroyed hop' hl =>
      obtain rfl := Option.some.inj hop'
      exact .inr ⟨_, _, hl, rfl, rfl⟩
    | looked h => cases h
    | consulted h => cases h
    | read hl hr => cases hr
    | placed hl hp => cases hp
    | notPlaced hl hp => cases hp
    | written hl hw => cases hw
    | missed hl hk hm => cases hm
    | rehooked hl h => rcases h with h | ⟨_, _, h, -⟩ <;> cases h
    | taken hl ht => cases ht

/-- What emptying a list does. -/
theorem of_clear (he : Effect B v (.clear l) o v') :
    (∃ why, o = .misused why ∧ v' = v) ∨ ∃ k rest, v.lists.Perm ((l, k) :: rest) ∧
      o = .ofStop .done (teardown B .ordinary k.hooks k.allocator v.hookState k.entries).stop ∧
      v' = (v.having ((l, { k with entries := [] }) :: rest)).heeding
        (teardown B .ordinary k.hooks k.allocator v.hookState k.entries).events
        (teardown B .ordinary k.hooks k.allocator v.hookState k.entries).hookState := by
  cases he with
  | misused op why => exact .inl ⟨why, rfl, rfl⟩
  | cleared hl => exact .inr ⟨_, _, hl, rfl, rfl⟩
  | looked hop => cases hop
  | consulted hop => cases hop
  | read hl hr => cases hr
  | placed hl hp => cases hp
  | notPlaced hl hp => cases hp
  | written hl hw => cases hw
  | missed hl hk hm => cases hm
  | rehooked hl hop => rcases hop with h | ⟨_, _, h, -⟩ <;> cases h
  | taken hl ht => cases ht
  | destroyed hop => cases hop

/-- What creating a list does. -/
theorem of_create {source : Allocator} (he : Effect B v (.create source) o v') :
    (∃ why, o = .misused why ∧ v' = v) ∨
      o = .stopped (.refused .header) ∧ v' = v.note [.refused source .header] ∨
      v.serves source = true ∧ o = .answered (.list v.fresh) ∧
        v' = (v.supply source .header).having ((v.fresh, ⟨{}, source, []⟩) :: v.lists) := by
  cases he with
  | misused op why => exact .inl ⟨why, rfl, rfl⟩
  | created hserve => exact .inr (.inr ⟨hserve, rfl, rfl⟩)
  | notCreated hserve => exact .inr (.inl ⟨rfl, rfl⟩)
  | looked hop => cases hop
  | consulted hop => cases hop
  | read hl hr => cases hr
  | placed hl hp => cases hp
  | notPlaced hl hp => cases hp
  | written hl hw => cases hw
  | missed hl hk hm => cases hm
  | rehooked hl hop => rcases hop with h | ⟨_, _, h, -⟩ <;> cases h
  | taken hl ht => cases ht
  | destroyed hop => cases hop

/-- What new hooks for a list do. -/
theorem of_setHooks {hs : Hooks η} (he : Effect B v (.setHooks l hs) o v') :
    (∃ why, o = .misused why ∧ v' = v) ∨ ∃ k rest, v.lists.Perm ((l, k) :: rest) ∧
      v' = v.having ((l, { k with hooks := hs }) :: rest) := by
  cases he with
  | misused op why => exact .inl ⟨why, rfl, rfl⟩
  | rehooked hl hop =>
    rcases hop with h | ⟨_, _, h, -⟩
    · cases h
      exact .inr ⟨_, _, hl, rfl⟩
    · cases h
  | looked hop => cases hop
  | consulted hop => cases hop
  | read hl hr => cases hr
  | placed hl hp => cases hp
  | notPlaced hl hp => cases hp
  | written hl hw => cases hw
  | missed hl hk hm => cases hm
  | taken hl ht => cases ht
  | destroyed hop => cases hop

/-- What collecting values does. -/
theorem of_collect {xs : List α} (he : Effect B v (.collect xs) o v') :
    (∃ why, o = .misused why ∧ v' = v) ∨ o = .answered (.list v.fresh) ∧
      v' = ((v.supply .global .header).supplyMany .global xs.length).having
        ((v.fresh, ⟨{}, .global, numbered (v.fresh + 1) xs⟩) :: v.lists) := by
  cases he with
  | misused op why => exact .inl ⟨why, rfl, rfl⟩
  | collected hs => exact .inr ⟨rfl, rfl⟩
  | looked hop => cases hop
  | consulted hop => cases hop
  | read hl hr => cases hr
  | placed hl hp => cases hp
  | notPlaced hl hp => cases hp
  | written hl hw => cases hw
  | missed hl hk hm => cases hm
  | rehooked hl hop => rcases hop with h | ⟨_, _, h, -⟩ <;> cases h
  | taken hl ht => cases ht
  | destroyed hop => cases hop

end Effect

end RingList
