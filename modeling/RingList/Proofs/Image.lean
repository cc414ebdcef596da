import RingList.Proofs.History

/-!
# Images of runs

A function `f` from values to values takes the state of one program to the state of another: every
value that a node holds, that a hook is called with or that an operation is given is replaced by its
image, and everything else (addresses, links, lengths, hooks, budgets) stays what it is. Here are
these maps, on the data that a world is made of (`Heap.map`, `Event.map`), on what a program asks for
and is told (`Op.map`, `Outcome.map`), and the relations between two worlds, two steps and two
behaviours of the hooks that they give.

* `Heap.nodes_map`, `Heap.record?_map`, `Heap.entries_map`: a list keeps its nodes and its record,
  and its values become their images.
* `Behaviour.Image`: hooks that do with images what the original hooks do with the values.
-/

set_option autoImplicit false

namespace RingList

variable {η σ τ α β γ δ : Type}

/-! ## Blocks and heaps -/

def Content.map (f : α → β) : Content η α → Content η β
  | .header r => .header r
  | .node v => .node (v.map f)

def Cell.map (f : α → β) (c : Cell η α) : Cell η β := ⟨c.next, c.prev, c.content.map f⟩

@[simp] theorem Content.kind_map (f : α → β) (k : Content η α) : (k.map f).kind = k.kind := by
  cases k <;> rfl

namespace Heap

def map (f : α → β) (h : Heap η α) : Heap η β := ⟨h.cells.map (Option.map (Cell.map f))⟩

variable (f : α → β) (h : Heap η α)

@[simp] theorem size_map : (h.map f).size = h.size := by simp [map, size]

@[simp] theorem get?_map (a : Addr) : (h.map f).get? a = (h.get? a).map (Cell.map f) := by
  unfold map get?
  rw [Array.getElem?_map]
  cases h.cells[a]? with
  | none => rfl
  | some c => rfl

/-! ### Lists in a heap -/

theorem nodesFrom_map (l : Addr) (fuel : Nat) (a : Addr) :
    (h.map f).nodesFrom l fuel a = h.nodesFrom l fuel a := by
  induction fuel generalizing a with
  | zero => rfl
  | succ fuel ih =>
    unfold nodesFrom
    rw [get?_map]
    cases h.get? a with
    | none => rfl
    | some c => simp [Cell.map, ih]

@[simp] theorem nodes_map (l : Addr) : (h.map f).nodes l = h.nodes l := by
  unfold nodes
  rw [get?_map]
  cases h.get? l with
  | none => rfl
  | some c => simp [Cell.map, nodesFrom_map]

@[simp] theorem record?_map (l : Addr) : (h.map f).record? l = h.record? l := by
  unfold record?
  rw [get?_map]
  rcases h.get? l with _ | ⟨next, prev, r | v⟩ <;> rfl

@[simp] theorem value?_map (a : Addr) : (h.map f).value? a = (h.value? a).map f := by
  unfold value?
  rw [get?_map]
  rcases h.get? a with _ | ⟨next, prev, r | v⟩ <;> rfl

theorem entries_map (l : Addr) :
    (h.map f).entries l = (h.entries l).map fun e => (e.1, f e.2) := by
  simp [entries, List.map_filterMap, Function.comp_def]

end Heap

/-! ## Hooks, events and stores -/

def Reply.map (g : γ → δ) : Reply γ → Reply δ
  | .returns b => .returns (g b)
  | .panics => .panics

/-- An event with every value in it replaced by its image. -/
def Event.map (f : α → β) : Event η α → Event η β
  | .served source a kind => .served source a kind
  | .refused source kind => .refused source kind
  | .released target a kind => .released target a kind
  | .dup h v reply => .dup h (f v) (reply.map (Option.map f))
  | .free h v reply => .free h (f v) reply
  | .matching h v key reply => .matching h (f v) (f key) reply
  | .dropped v => .dropped (f v)

/-- Hooks that do with images what the original hooks do with the values, call for call: started in
states that `R` relates they reply alike (a copy being the image of the original copy) and leave
states that `R` relates. A name stands for a hook in both behaviours. -/
structure Behaviour.Image (f : α → β) (R : σ → τ → Prop) (B : Behaviour η σ α)
    (B' : Behaviour η τ β) : Prop where
  dup : ∀ {s t}, R s t → ∀ h v, (B'.dup h t (f v)).1 = (B.dup h s v).1.map (Option.map f) ∧
    R (B.dup h s v).2 (B'.dup h t (f v)).2
  free : ∀ {s t}, R s t → ∀ h v, (B'.free h t (f v)).1 = (B.free h s v).1 ∧
    R (B.free h s v).2 (B'.free h t (f v)).2
  freeUnwinding : ∀ {s t}, R s t → ∀ h v, R (B.freeUnwinding h s v) (B'.freeUnwinding h t (f v))
  matching : ∀ {s t}, R s t → ∀ h v key,
    (B'.matching h t (f v) (f key)).1 = (B.matching h s v key).1 ∧
    R (B.matching h s v key).2 (B'.matching h t (f v) (f key)).2

/-- The second store is the image of the first one. -/
structure Store.Image (f : α → β) (R : σ → τ → Prop) (s : Store η σ α) (s' : Store η τ β) :
    Prop where
  heap : s'.heap = s.heap.map f
  budgets : s'.budgets = s.budgets
  hookState : R s.hookState s'.hookState
  events : s'.events = s.events.map (Event.map f)

/-! ## Operations, worlds and steps -/

/-- An operation with every value that it is given replaced by its image. -/
def Op.map (f : α → β) : Op η α → Op η β
  | .create source => .create source
  | .collect vs => .collect (vs.map f)
  | .duplicate l fallback => .duplicate l fallback
  | .addHead l v => .addHead l (f v)
  | .addTail l v => .addTail l (f v)
  | .insert l anchor v after => .insert l anchor (f v) after
  | .extend l vs => .extend l (vs.map f)
  | .delete l node => .delete l node
  | .popFront l => .popFront l
  | .popBack l => .popBack l
  | .clear l => .clear l
  | .destroy l => .destroy l
  | .rotate l => .rotate l
  | .join l other => .join l other
  | .exchange l node v => .exchange l node (f v)
  | .setFront l v => .setFront l (f v)
  | .setBack l v => .setBack l (f v)
  | .installHook l kind h => .installHook l kind h
  | .setHooks l hs => .setHooks l hs
  | .callDup h v => .callDup h (f v)
  | .callFree h v => .callFree h (f v)
  | .callMatching h v key => .callMatching h (f v) (f key)
  | .head l => .head l
  | .tail l => .tail l
  | .front l => .front l
  | .back l => .back l
  | .length l => .length l
  | .isEmpty l => .isEmpty l
  | .value l node => .value l node
  | .nextNode l node => .nextNode l node
  | .prevNode l node => .prevNode l node
  | .hooks l => .hooks l
  | .allocator l => .allocator l
  | .index l i => .index l i
  | .search l key fallback => .search l (f key) fallback
  | .equal l other rel => .equal l other rel
  | .iterate l word => .iterate l word
  | .intoIter l => .intoIter l
  | .take it e => .take it e
  | .dropIter it => .dropIter it
  | .cursor l d => .cursor l d
  | .rewind c l d => .rewind c l d
  | .step c => .step c
  | .peek c => .peek c
  | .direction c => .direction c
  | .cloneCursor c => .cloneCursor c
  | .refill k budget => .refill k budget

/-- What an iterator yielded and how much it left, with the image of the value. -/
def Taken.map (f : α → β) (p : Option α × Nat) : Option β × Nat := (p.1.map f, p.2)

def Answer.map (f : α → β) : Answer η α → Answer η β
  | .done => .done
  | .list l => .list l
  | .iterator it => .iterator it
  | .cursor c => .cursor c
  | .node a => .node a
  | .value v => .value (v.map f)
  | .count n => .count n
  | .truth b => .truth b
  | .hooks hs => .hooks hs
  | .allocator a => .allocator a
  | .taken vs => .taken (vs.map (Taken.map f))
  | .direction d => .direction d

def Outcome.map (f : α → β) : Outcome η α → Outcome η β
  | .answered a => .answered (a.map f)
  | .stopped why => .stopped why
  | .misused why => .misused why

/-- The second world is the image of the first one: its program holds on to the same lists, nodes
and cursors. -/
structure World.Image (f : α → β) (R : σ → τ → Prop) (w : World η σ α) (w' : World η τ β) :
    Prop where
  store : w.store.Image f R w'.store
  holdings : w'.holdings = w.holdings

/-- The second step is the image of the first one: it ends in the same way, the same blocks are asked
for and given back, hooks are called and values dropped in the same order, all lists have the same
nodes, lengths, hooks and allocators afterwards, and all values are images. -/
structure Step.Image (f : α → β) (R : σ → τ → Prop) (st : Step η σ α) (st' : Step η τ β) :
    Prop where
  op : st'.op = st.op.map f
  outcome : st'.outcome = st.outcome.map f
  events : st'.events = st.events.map (Event.map f)
  nodes : ∀ l, st'.after.nodes l = st.after.nodes l
  record : ∀ l, st'.after.store.heap.record? l = st.after.store.heap.record? l
  entries : ∀ l, st'.after.store.heap.entries l =
    (st.after.store.heap.entries l).map fun e => (e.1, f e.2)
  after : st.after.Image f R st'.after

section
variable {f : α → β} {R : σ → τ → Prop}

theorem World.start_image {s : σ} {t : τ} (hst : R s t) (budgets : Array (Option Nat)) :
    (World.start budgets s : World η σ α).Image f R (World.start budgets t) :=
  ⟨⟨by simp [World.start, Heap.map], rfl, hst, by simp [World.start]⟩, rfl⟩

/-- A step between images of worlds is the image of the step. -/
theorem Step.Image.of_worlds {st : Step η σ α} {st' : Step η τ β} (hop : st'.op = st.op.map f)
    (houtcome : st'.outcome = st.outcome.map f) (hbefore : st.before.Image f R st'.before)
    (hafter : st.after.Image f R st'.after) : st.Image f R st' where
  op := hop
  outcome := houtcome
  events := by
    unfold Step.events
    rw [hafter.store.events, hbefore.store.events]
    simp [List.map_drop]
  nodes l := by simp [World.nodes, hafter.store.heap]
  record l := by simp [hafter.store.heap]
  entries l := by rw [hafter.store.heap, Heap.entries_map]
  after := hafter

end

/-! ## The identity -/

@[simp] theorem Reply.map_id (reply : Reply γ) : reply.map id = reply := by
  cases reply <;> rfl

@[simp] theorem Content.map_id (c : Content η α) : c.map id = c := by
  cases c <;> simp [Content.map]

@[simp] theorem Event.map_id (e : Event η α) : e.map id = e := by cases e <;> simp [Event.map]

@[simp] theorem Op.map_id (op : Op η α) : op.map id = op := by cases op <;> simp [Op.map]

@[simp] theorem Outcome.map_id (o : Outcome η α) : o.map id = o := by
  have htaken : (Taken.map id : Option α × Nat → _) = id := by
    funext p
    simp [Taken.map]
  rcases o with a | _ | _
  · cases a <;> simp [Outcome.map, Answer.map, htaken]
  · rfl
  · rfl

theorem Heap.map_id (h : Heap η α) : h.map id = h := by
  have hcell : (Cell.map id : Cell η α → Cell η α) = id := by
    funext c
    simp [Cell.map]
  simp [Heap.map, hcell]

/-- Hooks do with values what they do with them. -/
theorem Behaviour.image_refl (B : Behaviour η σ α) : B.Image id Eq B := by
  refine ⟨?_, ?_, ?_, ?_⟩
  · rintro s _ rfl h v
    have hid : (Option.map id : Option α → Option α) = id := funext fun _ => by simp
    rw [hid, Reply.map_id]
    exact ⟨rfl, rfl⟩
  · rintro s _ rfl h v
    exact ⟨rfl, rfl⟩
  · rintro s _ rfl h v
    rfl
  · rintro s _ rfl h v key
    exact ⟨rfl, rfl⟩

end RingList
