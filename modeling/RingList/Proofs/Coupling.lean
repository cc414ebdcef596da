import RingList.Proofs.Image

/-!
# Couplings

Two programs can do the same work although their lists are at different addresses, hold different
values and use hooks with different states. A *coupling* says what stands for what: for every block of
the first heap the block of the second one, and for every value its image. Not all blocks have to
correspond. Those that a panic left behind are in no list any more, and their links lead anywhere; so
only the blocks that are *known* do, and a known block leads to known blocks only.

* `Op.rename`, `Event.rename`, `Outcome.rename`: what a program asks for and is told, with addresses
  replaced.
* `Heap.Coupled`, `Store.Coupled`: the second heap holds at the new address of a known block what the
  first one holds there.
-/

set_option autoImplicit false

namespace RingList

variable {η σ τ α β : Type}

/-! ## Addresses replaced -/

section
variable (π : Addr → Addr)

/-- An event with every address in it replaced. -/
def Event.rename : Event η α → Event η α
  | .served source a kind => .served source (π a) kind
  | .refused source kind => .refused source kind
  | .released target a kind => .released target (π a) kind
  | .dup h v reply => .dup h v reply
  | .free h v reply => .free h v reply
  | .matching h v key reply => .matching h v key reply
  | .dropped v => .dropped v

/-- An operation on other lists and nodes. -/
def Op.rename : Op η α → Op η α
  | .create source => .create source
  | .collect vs => .collect vs
  | .duplicate l fallback => .duplicate (π l) fallback
  | .addHead l v => .addHead (π l) v
  | .addTail l v => .addTail (π l) v
  | .insert l anchor v after => .insert (π l) (π anchor) v after
  | .extend l vs => .extend (π l) vs
  | .delete l node => .delete (π l) (π node)
  | .popFront l => .popFront (π l)
  | .popBack l => .popBack (π l)
  | .clear l => .clear (π l)
  | .destroy l => .destroy (π l)
  | .rotate l => .rotate (π l)
  | .join l other => .join (π l) (π other)
  | .exchange l node v => .exchange (π l) (π node) v
  | .setFront l v => .setFront (π l) v
  | .setBack l v => .setBack (π l) v
  | .installHook l kind h => .installHook (π l) kind h
  | .setHooks l hs => .setHooks (π l) hs
  | .callDup h v => .callDup h v
  | .callFree h v => .callFree h v
  | .callMatching h v key => .callMatching h v key
  | .head l => .head (π l)
  | .tail l => .tail (π l)
  | .front l => .front (π l)
  | .back l => .back (π l)
  | .length l => .length (π l)
  | .isEmpty l => .isEmpty (π l)
  | .value l node => .value (π l) (π node)
  | .nextNode l node => .nextNode (π l) (π node)
  | .prevNode l node => .prevNode (π l) (π node)
  | .hooks l => .hooks (π l)
  | .allocator l => .allocator (π l)
  | .index l i => .index (π l) i
  | .search l key fallback => .search (π l) key fallback
  | .equal l other rel => .equal (π l) (π other) rel
  | .iterate l word => .iterate (π l) word
  | .intoIter l => .intoIter (π l)
  | .take it e => .take (π it) e
  | .dropIter it => .dropIter (π it)
  | .cursor l d => .cursor (π l) d
  | .rewind c l d => .rewind c (π l) d
  | .step c => .step c
  | .peek c => .peek c
  | .direction c => .direction c
  | .cloneCursor c => .cloneCursor c
  | .refill k budget => .refill k budget

def Answer.rename : Answer η α → Answer η α
  | .list l => .list (π l)
  | .iterator it => .iterator (π it)
  | .node a => .node (a.map π)
  | a => a

def Outcome.rename : Outcome η α → Outcome η α
  | .answered a => .answered (a.rename π)
  | o => o

def Cursor.rename (c : Cursor) : Cursor := ⟨c.next.map π, π c.header, c.direction⟩

def Seat.rename (s : Seat) : Seat := ⟨s.cursor.rename π, s.last.map π, s.stale⟩

def Holdings.rename (t : Holdings) : Holdings :=
  ⟨t.lists.map π, t.iterators.map π, t.seats.map (·.rename π)⟩

end

@[simp] theorem Event.rename_id (e : Event η α) : e.rename id = e := by cases e <;> rfl

@[simp] theorem Op.rename_id (op : Op η α) : op.rename id = op := by cases op <;> rfl

@[simp] theorem Outcome.rename_id (o : Outcome η α) : o.rename id = o := by
  rcases o with a | _ | _
  · cases a <;> simp [rename, Answer.rename]
  · rfl
  · rfl

@[simp] theorem Cursor.rename_id (c : Cursor) : c.rename id = c := by simp [rename]

@[simp] theorem Seat.rename_id (s : Seat) : s.rename id = s := by simp [rename]

@[simp] theorem Holdings.rename_id (t : Holdings) : t.rename id = t := by
  simp [rename]

/-! ## Couplings -/

/-- What stands for what in two programs. -/
structure Coupling (σ τ α β : Type) where
  addr : Addr → Addr
  value : α → β
  state : σ → τ → Prop
  /-- The blocks that correspond. -/
  known : Addr → Prop
  /-- Both programs are handed out the same blocks from here on. -/
  fresh : Nat
  injective : Function.Injective addr
  known_of_le : ∀ {a : Addr}, fresh ≤ a → known a
  addr_of_le : ∀ {a : Addr}, fresh ≤ a → addr a = a

namespace Coupling

variable (C : Coupling σ τ α β)

def cell (c : Cell η α) : Cell η β := ⟨C.addr c.next, C.addr c.prev, c.content.map C.value⟩

def event (e : Event η α) : Event η β := (e.map C.value).rename C.addr

def op (op : Op η α) : Op η β := (op.map C.value).rename C.addr

def outcome (o : Outcome η α) : Outcome η β := (o.map C.value).rename C.addr

def answer (a : Answer η α) : Answer η β := (a.map C.value).rename C.addr

/-- A known address and the one that stands for it. -/
def Addrs (a a' : Addr) : Prop := C.known a ∧ a' = C.addr a

/-- A node that is known if it is there, and the one that stands for it. -/
def Nodes (a a' : Option Addr) : Prop := (∀ b ∈ a, C.known b) ∧ a' = a.map C.addr

theorem addr_inj {a b : Addr} : C.addr a = C.addr b ↔ a = b := C.injective.eq_iff

theorem nodes_handle {l a : Addr} (ha : C.known a) :
    C.Nodes (handle l a) (handle (C.addr l) (C.addr a)) := by
  unfold handle
  by_cases hal : a = l
  · rw [if_pos hal, if_pos (C.addr_inj.2 hal)]
    exact ⟨nofun, rfl⟩
  · rw [if_neg hal, if_neg (mt C.addr_inj.1 hal)]
    exact ⟨fun b hb => Option.some.inj hb ▸ ha, rfl⟩

/-- Values replaced, and nothing else. -/
def ofValues (f : α → β) (R : σ → τ → Prop) : Coupling σ τ α β where
  addr := id
  value := f
  state := R
  known _ := True
  fresh := 0
  injective := Function.injective_id
  known_of_le _ := trivial
  addr_of_le _ := rfl

section
variable {f : α → β} {R : σ → τ → Prop}

theorem op_ofValues : (ofValues f R).op = (Op.map f : Op η α → Op η β) :=
  funext fun op => (op.map f).rename_id

theorem event_ofValues : (ofValues f R).event = (Event.map f : Event η α → Event η β) :=
  funext fun e => (e.map f).rename_id

end

end Coupling

/-! ## Heaps -/

/-- The second heap holds at the new address of every known block what the first one holds there, and
known blocks lead to known blocks. -/
structure Heap.Coupled (C : Coupling σ τ α β) (h : Heap η α) (h' : Heap η β) : Prop where
  size : h'.size = h.size
  fresh : C.fresh ≤ h.size
  cells : ∀ {a}, C.known a → h'.get? (C.addr a) = (h.get? a).map C.cell
  links : ∀ {a c}, C.known a → h.get? a = some c → C.known c.next ∧ C.known c.prev

namespace Heap.Coupled

variable {C : Coupling σ τ α β} {h : Heap η α} {h' : Heap η β} {l a : Addr}

theorem update (hc : h.Coupled C h') {g : Cell η α → Cell η α} {g' : Cell η β → Cell η β}
    (hg : ∀ c, C.known c.next → C.known c.prev →
      C.known (g c).next ∧ C.known (g c).prev ∧ g' (C.cell c) = C.cell (g c))
    (ha : C.known a) : (h.update a g).Coupled C (h'.update (C.addr a) g') := by
  refine ⟨by simp [hc.size], by simpa using hc.fresh, fun {b} hb => ?_, fun {b c} hb hbc => ?_⟩
  · simp only [get?_update, C.addr_inj]
    by_cases hba : b = a
    · rw [if_pos hba, if_pos hba, hc.cells ha]
      cases hcell : h.get? a with
      | none => rfl
      | some c => exact congrArg some (hg c (hc.links ha hcell).1 (hc.links ha hcell).2).2.2
    · rw [if_neg hba, if_neg hba, hc.cells hb]
  · rw [get?_update] at hbc
    by_cases hba : b = a
    · rw [if_pos hba] at hbc
      obtain ⟨c₀, hcell, rfl⟩ := Option.map_eq_some_iff.1 hbc
      obtain ⟨hnext, hprev, -⟩ := hg c₀ (hc.links ha hcell).1 (hc.links ha hcell).2
      exact ⟨hnext, hprev⟩
    · rw [if_neg hba] at hbc
      exact hc.links hb hbc

theorem addr_size (hc : h.Coupled C h') : C.addr h.size = h'.size := by
  rw [C.addr_of_le hc.fresh, hc.size]

theorem push (hc : h.Coupled C h') (k : Content η α) :
    (h.push k).Coupled C (h'.push (k.map C.value)) := by
  refine ⟨by simp [hc.size], ?_, fun {b} hb => ?_, fun {b c} hb hbc => ?_⟩
  · rw [size_push]
    exact Nat.le_succ_of_le hc.fresh
  · simp only [get?_push, ← hc.addr_size, C.addr_inj]
    by_cases hbs : b = h.size
    · rw [if_pos hbs, if_pos hbs]
      rfl
    · rw [if_neg hbs, if_neg hbs, hc.cells hb]
  · rw [get?_push] at hbc
    by_cases hbs : b = h.size
    · rw [if_pos hbs] at hbc
      cases hbc
      exact ⟨C.known_of_le hc.fresh, C.known_of_le hc.fresh⟩
    · rw [if_neg hbs] at hbc
      exact hc.links hb hbc

theorem erase (hc : h.Coupled C h') (a : Addr) : (h.erase a).Coupled C (h'.erase (C.addr a)) := by
  refine ⟨by simp [hc.size], by simpa using hc.fresh, fun {b} hb => ?_, fun {b c} hb hbc => ?_⟩
  · simp only [get?_erase, C.addr_inj]
    by_cases hba : b = a
    · rw [if_pos hba, if_pos hba]
      rfl
    · rw [if_neg hba, if_neg hba, hc.cells hb]
  · rw [get?_erase] at hbc
    by_cases hba : b = a
    · rw [if_pos hba] at hbc
      cases hbc
    · rw [if_neg hba] at hbc
      exact hc.links hb hbc

/-! ### Lists in coupled heaps -/

theorem nodesFrom (hc : h.Coupled C h') (l : Addr) (fuel : Nat) (ha : C.known a) :
    h'.nodesFrom (C.addr l) fuel (C.addr a) = (h.nodesFrom l fuel a).map C.addr ∧
      ∀ b ∈ h.nodesFrom l fuel a, C.known b := by
  induction fuel generalizing a with
  | zero => exact ⟨rfl, fun _ hb => absurd hb List.not_mem_nil⟩
  | succ fuel ih =>
    unfold Heap.nodesFrom
    rw [hc.cells ha]
    by_cases hal : a = l
    · rw [if_pos hal, if_pos (C.addr_inj.2 hal)]
      exact ⟨rfl, fun _ hb => absurd hb List.not_mem_nil⟩
    · rw [if_neg hal, if_neg (mt C.addr_inj.1 hal)]
      cases hcell : h.get? a with
      | none => exact ⟨rfl, fun _ hb => absurd hb List.not_mem_nil⟩
      | some c =>
        obtain ⟨hmap, hknown⟩ := ih (hc.links ha hcell).1
        refine ⟨congrArg (C.addr a :: ·) hmap, fun b hb => ?_⟩
        rcases List.mem_cons.1 hb with rfl | hb
        · exact ha
        · exact hknown b hb

theorem nodes (hc : h.Coupled C h') (hl : C.known l) :
    h'.nodes (C.addr l) = (h.nodes l).map C.addr ∧ ∀ b ∈ h.nodes l, C.known b := by
  unfold Heap.nodes
  rw [hc.cells hl]
  cases hcell : h.get? l with
  | none => exact ⟨rfl, nofun⟩
  | some c =>
    rw [← hc.size]
    exact hc.size ▸ hc.nodesFrom l h'.size (hc.links hl hcell).1

theorem hasNode (hc : h.Coupled C h') (hl : C.known l) (a : Addr) :
    h'.hasNode (C.addr l) (C.addr a) = h.hasNode l a := by
  rw [hasNode_eq_contains, hasNode_eq_contains, (hc.nodes hl).1, Bool.eq_iff_iff,
    List.contains_iff_mem, List.contains_iff_mem, List.mem_map_of_injective C.injective]

theorem record? (hc : h.Coupled C h') (hl : C.known l) :
    h'.record? (C.addr l) = h.record? l := by
  unfold Heap.record?
  rw [hc.cells hl]
  rcases h.get? l with _ | ⟨next, prev, r | v⟩ <;> rfl

theorem value? (hc : h.Coupled C h') (ha : C.known a) :
    h'.value? (C.addr a) = (h.value? a).map C.value := by
  unfold Heap.value?
  rw [hc.cells ha]
  rcases h.get? a with _ | ⟨next, prev, r | v⟩ <;> rfl

theorem first? (hc : h.Coupled C h') (hl : C.known l) :
    h'.first? (C.addr l) = (h.first? l).map C.addr := by
  unfold Heap.first?
  rw [hc.cells hl]
  cases h.get? l with
  | none => rfl
  | some c =>
    show (if C.addr c.next = C.addr l then none else some (C.addr c.next)) = _
    by_cases hcl : c.next = l
    · simp [hcl]
    · simp [hcl, C.addr_inj]

theorem last? (hc : h.Coupled C h') (hl : C.known l) :
    h'.last? (C.addr l) = (h.last? l).map C.addr := by
  unfold Heap.last?
  rw [hc.cells hl]
  cases h.get? l with
  | none => rfl
  | some c =>
    show (if C.addr c.prev = C.addr l then none else some (C.addr c.prev)) = _
    by_cases hcl : c.prev = l
    · simp [hcl]
    · simp [hcl, C.addr_inj]

theorem entries (hc : h.Coupled C h') (hl : C.known l) :
    h'.entries (C.addr l) = (h.entries l).map fun e => (C.addr e.1, C.value e.2) := by
  obtain ⟨hmap, hknown⟩ := hc.nodes hl
  unfold Heap.entries
  rw [hmap, List.filterMap_map, List.map_filterMap]
  refine List.filterMap_congr fun a ha => ?_
  rw [Function.comp_apply, hc.value? (hknown a ha)]
  cases h.value? a <;> rfl

/-- Heaps in which all blocks correspond, at the same addresses, differ in the values only. -/
theorem eq_map {f : α → β} {R : σ → τ → Prop} (hc : h.Coupled (.ofValues f R) h') :
    h' = h.map f := by
  have hsize : h'.size = (h.map f).size := hc.size.trans (h.size_map f).symm
  have hcells : h'.cells = (h.map f).cells := by
    refine Array.ext hsize fun i hi hi' => ?_
    have hget : h'.get? i = (h.get? i).map (Cell.map f) := hc.cells (a := i) trivial
    rw [← get?_map, get?, get?, Array.getElem?_eq_getElem hi, Array.getElem?_eq_getElem hi'] at hget
    exact hget
  cases h'
  exact congrArg Heap.mk hcells

end Heap.Coupled

theorem Heap.coupled_map (f : α → β) (R : σ → τ → Prop) (h : Heap η α) :
    h.Coupled (.ofValues f R) (h.map f) :=
  ⟨h.size_map f, Nat.zero_le _, fun {a} _ => h.get?_map f a, fun _ _ => ⟨trivial, trivial⟩⟩

/-! ## Stores -/

/-- The stores hold coupled heaps, the same budgets and states of hooks that correspond. What happened
before is of no matter. -/
structure Store.Coupled (C : Coupling σ τ α β) (s : Store η σ α) (s' : Store η τ β) : Prop where
  heap : s.heap.Coupled C s'.heap
  budgets : s'.budgets = s.budgets
  hookState : C.state s.hookState s'.hookState

namespace Store.Coupled

variable {C : Coupling σ τ α β} {s : Store η σ α} {s' : Store η τ β}

theorem serves (hs : s.Coupled C s') (source : Allocator) : s'.serves source = s.serves source := by
  unfold Store.serves
  cases source <;> simp [Heap.hasRoom, hs.heap.size, hs.budgets]

theorem supplies (hs : s.Coupled C s') (source : Allocator) (n : Nat) :
    s'.supplies source n = s.supplies source n := by
  unfold Store.supplies
  cases source <;> simp [hs.heap.size, hs.budgets]

theorem budgetsAfter (hs : s.Coupled C s') (source : Allocator) :
    s'.budgetsAfter source = s.budgetsAfter source := by
  unfold Store.budgetsAfter
  cases source <;> simp [hs.budgets]

end Store.Coupled

end RingList
