import Mathlib.Data.Set.Basic
import RingList.Proofs.Interchange

/-!
# Regions of the heap

A *region* is a set of addresses that no link leaves. Work that starts from addresses in a region
finds its way by links and by new blocks, so it stays there: whatever is outside is left alone, also
the blocks that a panic left behind and that are in no list any more.

* `Confined`: work that stays in a region.
* `World.perform_within`, `World.run_within`: operations stay in every region that has the addresses
  which they name.
* `Store.Shows.eq`: what is seen of a store and what is outside of all lists determine the store.
-/

set_option autoImplicit false

namespace RingList

variable {η σ α β γ : Type} {B : Behaviour η σ α}

/-! ## Regions -/

/-- **A region of the heap**: no link leads out of it, and it has all blocks that are not handed out
yet. -/
structure Heap.Region (h : Heap η α) (S : Set Addr) : Prop where
  links : ∀ a ∈ S, ∀ c, h.get? a = some c → c.next ∈ S ∧ c.prev ∈ S
  fresh : ∀ a, h.size ≤ a → a ∈ S

/-- The heap `h'` differs from `h` in the region only, which it has as well. -/
structure Heap.Within (S : Set Addr) (h h' : Heap η α) : Prop where
  region : h'.Region S
  outside : ∀ a ∉ S, h'.get? a = h.get? a

namespace Heap.Within

variable {S : Set Addr} {h h' h'' : Heap η α} {a : Addr}

theorem refl (hr : h.Region S) : Within S h h := ⟨hr, fun _ _ => rfl⟩

theorem trans (hw : Within S h h') (hw' : Within S h' h'') : Within S h h'' :=
  ⟨hw'.region, fun a ha => (hw'.outside a ha).trans (hw.outside a ha)⟩

/-- A block of the region is changed, to one that leads to blocks of the region. -/
theorem update {f : Cell η α → Cell η α} (hr : h.Region S) (ha : a ∈ S)
    (hf : ∀ c, c.next ∈ S ∧ c.prev ∈ S → (f c).next ∈ S ∧ (f c).prev ∈ S) :
    Within S h (h.update a f) := by
  refine ⟨⟨fun b hb c hc => ?_, fun b hb => hr.fresh b (size_update h a f ▸ hb)⟩, fun b hb => ?_⟩
  · rw [get?_update] at hc
    split at hc
    · obtain ⟨c', hc', rfl⟩ := Option.map_eq_some_iff.1 hc
      exact hf c' (hr.links a ha c' hc')
    · exact hr.links b hb c hc
  · have hne : b ≠ a := fun he => hb (he ▸ ha)
    rw [get?_update, if_neg hne]

/-- A new block leads to itself. -/
theorem push (hr : h.Region S) (k : Content η α) : Within S h (h.push k) := by
  have hnew := hr.fresh h.size (Nat.le_refl _)
  refine ⟨⟨fun b hb c hc => ?_, fun b hb => ?_⟩, fun b hb => ?_⟩
  · rw [get?_push] at hc
    split at hc
    · cases hc
      exact ⟨hnew, hnew⟩
    · exact hr.links b hb c hc
  · rw [size_push] at hb
    exact hr.fresh b (Nat.le_of_succ_le hb)
  · have hne : b ≠ h.size := fun he => hb (he ▸ hnew)
    rw [get?_push, if_neg hne]

theorem erase (hr : h.Region S) (ha : a ∈ S) : Within S h (h.erase a) := by
  refine ⟨⟨fun b hb c hc => ?_, fun b hb => hr.fresh b (size_erase h a ▸ hb)⟩, fun b hb => ?_⟩
  · rw [get?_erase] at hc
    split at hc
    · cases hc
    · exact hr.links b hb c hc
  · have hne : b ≠ a := fun he => hb (he ▸ ha)
    rw [get?_erase, if_neg hne]

end Heap.Within

/-! ## Work in a region -/

/-- **The action stays in the region**: from every heap that has the region it changes nothing
outside, and its result is as `P` says. -/
def Confined (S : Set Addr) (act : Action η σ α β) (P : β → Prop) : Prop :=
  ∀ s, s.heap.Region S →
    Heap.Within S s.heap (leaves (act s)).heap ∧ ∀ b s', act s = .ok b s' → P b

namespace Confined

variable {S : Set Addr} {P : β → Prop} {Q : γ → Prop}

theorem pure {b : β} (hb : P b) : Confined S (pure b : Action η σ α β) P := by
  intro s hs
  refine ⟨.refl hs, fun b' s' h => ?_⟩
  cases h
  exact hb

theorem throw (e : Stop) : Confined S (throw e : Action η σ α β) P :=
  fun _ hs => ⟨.refl hs, nofun⟩

theorem fault (f : Fault) : Confined S (fault f : Action η σ α β) P := throw _

theorem bind {x : Action η σ α β} {f : β → Action η σ α γ} (hx : Confined S x P)
    (hf : ∀ b, P b → Confined S (f b) Q) : Confined S (x >>= f) Q := by
  intro s hs
  obtain ⟨hw, hP⟩ := hx s hs
  rw [run_bind]
  cases hxs : x s with
  | error e s' =>
    rw [hxs] at hw
    exact ⟨hw, nofun⟩
  | ok b s' =>
    rw [hxs] at hw
    obtain ⟨hw', hQ⟩ := hf b (hP b s' hxs) s' hw.region
    exact ⟨hw.trans hw', hQ⟩

theorem map {x : Action η σ α β} (f : β → γ) (hx : Confined S x fun _ => True) :
    Confined S (f <$> x) fun _ => True := by
  intro s hs
  obtain ⟨hw, -⟩ := hx s hs
  rw [run_map]
  cases hxs : x s <;> rw [hxs] at hw <;> exact ⟨hw, fun _ _ _ => trivial⟩

theorem tryCatch {x : Action η σ α β} {f : Stop → Action η σ α β} (hx : Confined S x P)
    (hf : ∀ e, Confined S (f e) P) : Confined S (tryCatch x f) P := by
  intro s hs
  obtain ⟨hw, hP⟩ := hx s hs
  rw [run_tryCatch]
  cases hxs : x s with
  | error e s' =>
    rw [hxs] at hw
    obtain ⟨hw', hP'⟩ := hf e s' hw.region
    exact ⟨hw.trans hw', hP'⟩
  | ok b s' =>
    rw [hxs] at hw
    refine ⟨hw, fun b' s'' h => ?_⟩
    cases h
    exact hP b s' hxs

/-- The heap stays as it is. -/
theorem of_heap {act : Action η σ α β} (h : ∀ s, (leaves (act s)).heap = s.heap) :
    Confined S act fun _ => True :=
  fun s hs => ⟨(h s).symm ▸ .refl hs, fun _ _ _ => trivial⟩

theorem of_keeps {act : Action η σ α β} (h : Keeps Eq act) : Confined S act fun _ => True :=
  of_heap fun s => congrArg Store.heap (h s).symm

theorem of_consulted {act : Action η σ α β} (h : Keeps Consulted act) :
    Confined S act fun _ => True :=
  of_heap fun s => (h s).heap

theorem modify {f : Store η σ α → Store η σ α}
    (hf : ∀ s, s.heap.Region S → Heap.Within S s.heap (f s).heap) :
    Confined S (modify f : Action η σ α Unit) fun _ => True :=
  fun s hs => ⟨hf s hs, fun _ _ _ => trivial⟩

end Confined

section
variable {S : Set Addr} {a b l : Addr}

/-! ## Single steps -/

theorem cell_confined (ha : a ∈ S) :
    Confined S (cell a : Action η σ α (Cell η α)) fun c => c.next ∈ S ∧ c.prev ∈ S := by
  intro s hs
  have hkeeps : s = leaves (cell a s) := cell_keeps a s
  refine ⟨hkeeps ▸ .refl hs, fun c s' hc => ?_⟩
  unfold cell at hc
  rw [run_bind, run_get] at hc
  dsimp only at hc
  cases hget : s.heap.get? a with
  | none =>
    rw [hget] at hc
    cases hc
  | some c' =>
    rw [hget] at hc
    cases hc
    exact hs.links a ha c hget

theorem change_confined {f : Cell η α → Cell η α} (ha : a ∈ S)
    (hf : ∀ c, c.next ∈ S ∧ c.prev ∈ S → (f c).next ∈ S ∧ (f c).prev ∈ S) :
    Confined S (change a f : Action η σ α Unit) fun _ => True :=
  (cell_confined ha).bind fun _ _ => .modify fun _ hs => .update hs ha hf

theorem nextOf_confined (ha : a ∈ S) : Confined S (nextOf a : Action η σ α Addr) (· ∈ S) :=
  (cell_confined ha).bind fun _ hc => .pure hc.1

theorem prevOf_confined (ha : a ∈ S) : Confined S (prevOf a : Action η σ α Addr) (· ∈ S) :=
  (cell_confined ha).bind fun _ hc => .pure hc.2

theorem setNext_confined (ha : a ∈ S) (hb : b ∈ S) :
    Confined S (setNext a b : Action η σ α Unit) fun _ => True :=
  change_confined ha fun _ hc => ⟨hb, hc.2⟩

theorem setPrev_confined (ha : a ∈ S) (hb : b ∈ S) :
    Confined S (setPrev a b : Action η σ α Unit) fun _ => True :=
  change_confined ha fun _ hc => ⟨hc.1, hb⟩

theorem expectKind_confined (kind : BlockKind) (ha : a ∈ S) :
    Confined S (expectKind a kind : Action η σ α Unit) fun _ => True := by
  refine (cell_confined ha).bind fun c _ => ?_
  split
  · exact .pure trivial
  · exact .fault _

theorem setRecord_confined (r : Record η) (hl : l ∈ S) :
    Confined S (setRecord l r : Action η σ α Unit) fun _ => True :=
  (expectKind_confined _ hl).bind fun _ _ => change_confined hl fun _ hc => hc

theorem write_confined (x : α) (ha : a ∈ S) :
    Confined S (write a x : Action η σ α Unit) fun _ => True :=
  (expectKind_confined _ ha).bind fun _ _ => change_confined ha fun _ hc => hc

/-- A new block is in every region. -/
theorem allocate_confined (source : Allocator) (k : Content η α) :
    Confined S (allocate source k : Action η σ α Addr) (· ∈ S) := by
  intro s hs
  rw [allocate_run]
  split
  · refine ⟨.push hs k, fun b s' h => ?_⟩
    cases h
    exact hs.fresh _ (Nat.le_refl _)
  · exact ⟨.refl hs, nofun⟩

theorem release_confined (target : Allocator) (kind : BlockKind) (ha : a ∈ S) :
    Confined S (release target a kind : Action η σ α Unit) fun _ => True :=
  (expectKind_confined _ ha).bind fun _ _ => .modify fun _ hs => .erase hs ha

/-! ## Calls of hooks -/

theorem callDup_confined (B : Behaviour η σ α) (h : η) (x : α) :
    Confined S (callDup B h x) fun _ => True :=
  .of_heap fun s => by
    rw [callDup_run]
    cases (B.dup h s.hookState x).1 <;> rfl

theorem leaves_ending (e : Option Stop) (s : Store η σ α) : leaves (ending e s) = s := by
  cases e <;> rfl

theorem callFree_confined (B : Behaviour η σ α) (h : η) (x : α) :
    Confined S (callFree B h x) fun _ => True :=
  .of_heap fun s => by
    rw [callFree_run, leaves_ending]
    rfl

theorem discard_confined (B : Behaviour η σ α) (course : Course) (hooks : Hooks η) (x : α) :
    Confined S (discard B course hooks x) fun _ => True :=
  .of_heap fun s => by
    rw [discard_run, leaves_ending]
    rfl

/-! ## Linking and unlinking -/

theorem connect_confined (ha : a ∈ S) (hb : b ∈ S) :
    Confined S (connect a b : Action η σ α Unit) fun _ => True :=
  (setNext_confined ha hb).bind fun _ _ => setPrev_confined hb ha

theorem expectAdjacent_confined (a b : Addr) :
    Confined S (expectAdjacent a b : Action η σ α Unit) fun _ => True := by
  have hprev : Confined S (do unless (← prevOf b) = a do fault .notAdjacent : Action η σ α Unit)
      fun _ => True := by
    refine (Confined.of_keeps (prevOf_keeps b)).bind fun p _ => ?_
    split
    · exact .pure trivial
    · exact .fault _
  refine (Confined.of_keeps (nextOf_keeps a)).bind fun n _ => ?_
  dsimp only
  split
  · exact hprev
  · exact (Confined.fault (P := fun _ => True) _).bind fun _ _ => hprev

theorem lengthen_confined (n : Nat) (hl : l ∈ S) :
    Confined S (lengthen l n : Action η σ α Unit) fun _ => True := by
  refine (Confined.of_keeps (record_keeps l)).bind fun r _ => ?_
  split
  · exact setRecord_confined _ hl
  · exact .fault _

theorem shorten_confined (hl : l ∈ S) :
    Confined S (shorten l : Action η σ α Unit) fun _ => True := by
  refine (Confined.of_keeps (record_keeps l)).bind fun r _ => ?_
  split
  · exact setRecord_confined _ hl
  · exact .fault _

theorem attachChain_confined {p q : Addr} {c : Chain} (hl : l ∈ S) (hp : p ∈ S) (hq : q ∈ S)
    (hc : c.front ∈ S ∧ c.back ∈ S) :
    Confined S (attachChain l p q c : Action η σ α Unit) fun _ => True :=
  (expectAdjacent_confined p q).bind fun _ _ => (connect_confined hp hc.1).bind fun _ _ =>
    (connect_confined hc.2 hq).bind fun _ _ => (lengthen_confined _ hl).bind fun _ _ =>
      (expectAdjacent_confined _ _).bind fun _ _ => expectAdjacent_confined _ _

theorem attach_confined {p q n : Addr} (hl : l ∈ S) (hp : p ∈ S) (hq : q ∈ S) (hn : n ∈ S) :
    Confined S (attach l p q n : Action η σ α Unit) fun _ => True :=
  attachChain_confined (c := ⟨n, n, 1⟩) hl hp hq ⟨hn, hn⟩

theorem unlink_confined (hl : l ∈ S) (ha : a ∈ S) :
    Confined S (unlink l a : Action η σ α Unit) fun _ => True :=
  (shorten_confined hl).bind fun _ _ => (expectKind_confined _ ha).bind fun _ _ =>
    (cell_confined ha).bind fun _ hc => connect_confined hc.2 hc.1

theorem detach_confined (hl : l ∈ S) (ha : a ∈ S) :
    Confined S (detach l a : Action η σ α α) fun _ => True :=
  (unlink_confined hl ha).bind fun _ _ => (Confined.of_keeps (value_keeps a)).bind fun _ _ =>
    (Confined.of_keeps (record_keeps l)).bind fun _ _ => (release_confined _ _ ha).bind fun _ _ =>
      .pure trivial

theorem detachAll_confined (hl : l ∈ S) :
    Confined S (detachAll l : Action η σ α (Option Chain))
      fun c => ∀ chain, c = some chain → chain.front ∈ S ∧ chain.back ∈ S := by
  refine (nextOf_confined hl).bind fun front hfront => ?_
  split
  · exact .pure nofun
  · refine (prevOf_confined hl).bind fun back hback => (Confined.of_keeps (record_keeps l)).bind
      fun r _ => (setRecord_confined _ hl).bind fun _ _ => (connect_confined hl hl).bind
        fun _ _ => .pure fun chain h => ?_
    cases h
    exact ⟨hfront, hback⟩

/-! ## Operations on lists -/

theorem newNode_confined (x : α) (l : Addr) :
    Confined S (newNode l x : Action η σ α Addr) (· ∈ S) := by
  refine (Confined.of_keeps (record_keeps l)).bind fun r _ => ?_
  refine (Confined.tryCatch (allocate_confined r.allocator _) fun e => ?_).bind fun node hnode =>
    (write_confined x hnode).bind fun _ _ => .pure hnode
  exact (Confined.of_heap fun _ => rfl).bind fun _ _ => .throw e

theorem addHead_confined (x : α) (hl : l ∈ S) :
    Confined S (addHead l x : Action η σ α Addr) (· ∈ S) :=
  (newNode_confined x l).bind fun _ hn => (nextOf_confined hl).bind fun _ hq =>
    (attach_confined hl hl hq hn).bind fun _ _ => .pure hn

theorem addTail_confined (x : α) (hl : l ∈ S) :
    Confined S (addTail l x : Action η σ α Addr) (· ∈ S) :=
  (newNode_confined x l).bind fun _ hn => (prevOf_confined hl).bind fun _ hp =>
    (attach_confined hl hp hl hn).bind fun _ _ => .pure hn

theorem insert_confined (x : α) (after : Bool) (hl : l ∈ S) (ha : a ∈ S) :
    Confined S (RingList.insert l a x after : Action η σ α Addr) (· ∈ S) := by
  refine (newNode_confined x l).bind fun n hn => ?_
  cases after with
  | true => exact (nextOf_confined ha).bind fun _ hq =>
      (attach_confined hl ha hq hn).bind fun _ _ => .pure hn
  | false => exact (prevOf_confined ha).bind fun _ hp =>
      (attach_confined hl hp ha hn).bind fun _ _ => .pure hn

theorem extend_confined (hl : l ∈ S) : ∀ xs : List α,
    Confined S (extend l xs : Action η σ α Unit) fun _ => True
  | [] => .pure trivial
  | x :: xs => (addTail_confined x hl).bind fun _ _ => extend_confined hl xs

theorem setHooks_confined (hs : Hooks η) (hl : l ∈ S) :
    Confined S (setHooks l hs : Action η σ α Unit) fun _ => True :=
  (Confined.of_keeps (record_keeps l)).bind fun _ _ => setRecord_confined _ hl

theorem exchange_confined (x : α) (ha : a ∈ S) :
    Confined S (exchange a x : Action η σ α α) fun _ => True :=
  (Confined.of_keeps (value_keeps a)).bind fun _ _ => (write_confined x ha).bind fun _ _ =>
    .pure trivial

theorem exchangeAt_confined (x : α) {n : Option Addr} (hn : ∀ a ∈ n, a ∈ S) :
    Confined S (exchangeAt x n : Action η σ α (Option α)) fun _ => True := by
  cases n with
  | none => exact .pure trivial
  | some a => exact (exchange_confined x (hn a rfl)).map some

theorem handle_mem {n : Addr} (ha : a ∈ S) (hn : n ∈ handle l a) : n ∈ S := by
  unfold handle at hn
  split at hn
  · cases hn
  · cases hn
    exact ha

theorem setFront_confined (x : α) (hl : l ∈ S) :
    Confined S (setFront l x : Action η σ α (Option α)) fun _ => True := by
  have hhead : Confined S (head l : Action η σ α (Option Addr)) fun n => ∀ a ∈ n, a ∈ S :=
    (nextOf_confined hl).bind fun _ hn => .pure fun _ => handle_mem hn
  exact hhead.bind fun _ hn => exchangeAt_confined x hn

theorem setBack_confined (x : α) (hl : l ∈ S) :
    Confined S (setBack l x : Action η σ α (Option α)) fun _ => True := by
  have htail : Confined S (tail l : Action η σ α (Option Addr)) fun n => ∀ a ∈ n, a ∈ S :=
    (prevOf_confined hl).bind fun _ hp => .pure fun _ => handle_mem hp
  exact htail.bind fun _ hn => exchangeAt_confined x hn

theorem valueAt_keeps (n : Option Addr) : Keeps Eq (valueAt n : Action η σ α (Option α)) := by
  cases n with
  | none => exact .pure none
  | some a => exact (value_keeps a).bind fun _ => .pure _

theorem delete_confined (B : Behaviour η σ α) (hl : l ∈ S) (ha : a ∈ S) :
    Confined S (delete B l a) fun _ => True :=
  (detach_confined hl ha).bind fun _ _ => (Confined.of_keeps (hooks_keeps l)).bind fun _ _ =>
    discard_confined B _ _ _

theorem popFront_confined (hl : l ∈ S) :
    Confined S (popFront l : Action η σ α (Option α)) fun _ => True := by
  refine (Confined.of_keeps (isEmpty_keeps l)).bind fun empty _ => ?_
  split
  · exact .pure trivial
  · exact (nextOf_confined hl).bind fun _ hfirst => (detach_confined hl hfirst).map some

theorem popBack_confined (hl : l ∈ S) :
    Confined S (popBack l : Action η σ α (Option α)) fun _ => True := by
  refine (Confined.of_keeps (isEmpty_keeps l)).bind fun empty _ => ?_
  split
  · exact .pure trivial
  · exact (prevOf_confined hl).bind fun _ hlast => (detach_confined hl hlast).map some

theorem rotate_confined (hl : l ∈ S) :
    Confined S (rotate l : Action η σ α Unit) fun _ => True := by
  refine (Confined.of_keeps (record_keeps l)).bind fun r _ => ?_
  split
  · exact .pure trivial
  · exact (prevOf_confined hl).bind fun _ hlast => (unlink_confined hl hlast).bind fun _ _ =>
      (nextOf_confined hl).bind fun _ hq => attach_confined hl hl hq hlast

theorem join_confined {m : Addr} (hl : l ∈ S) (hm : m ∈ S) :
    Confined S (join l m : Action η σ α Unit) fun _ => True := by
  refine (detachAll_confined hm).bind fun c hc => ?_
  cases c with
  | none => exact .pure trivial
  | some chain => exact (prevOf_confined hl).bind fun _ hp =>
      attachChain_confined hl hp hl (hc chain rfl)

theorem clearFrom_confined (B : Behaviour η σ α) (course : Course) (r : Record η) :
    ∀ (fuel : Nat) {a : Addr}, a ∈ S → Confined S (clearFrom B course l r fuel a) fun _ => True
  | 0, _, _ => .fault _
  | fuel + 1, a, ha => by
    unfold clearFrom
    split
    · exact .pure trivial
    · exact (nextOf_confined ha).bind fun n hn => (Confined.of_keeps (value_keeps a)).bind fun _ _ =>
        (release_confined _ _ ha).bind fun _ _ => (discard_confined B course _ _).bind fun _ _ =>
          clearFrom_confined B course r fuel hn

theorem clear_confined (B : Behaviour η σ α) (course : Course) (hl : l ∈ S) :
    Confined S (clear B course l) fun _ => True :=
  (nextOf_confined hl).bind fun _ hfirst => (Confined.of_keeps (record_keeps l)).bind fun r _ =>
    (setRecord_confined _ hl).bind fun _ _ => (connect_confined hl hl).bind fun _ _ =>
      (Confined.of_keeps .get).bind fun _ _ => clearFrom_confined B course r _ hfirst

theorem destroy_confined (B : Behaviour η σ α) (course : Course) (hl : l ∈ S) :
    Confined S (destroy B course l) fun _ => True :=
  (clear_confined B course hl).bind fun _ _ => (Confined.of_keeps (record_keeps l)).bind fun _ _ =>
    release_confined _ _ hl

theorem copyValue_confined (B : Behaviour η σ α) (dup : η) (x : α) (hl : l ∈ S) :
    Confined S (copyValue B dup l x) fun _ => True := by
  refine (Confined.of_keeps (record_keeps l)).bind fun r _ =>
    (allocate_confined _ _).bind fun node hnode => (callDup_confined B dup x).bind fun y _ => ?_
  cases y with
  | none => exact (release_confined _ _ hnode).bind fun _ _ => .throw _
  | some y => exact (write_confined y hnode).bind fun _ _ => (prevOf_confined hl).bind fun _ hp =>
      attach_confined hl hp hl hnode

theorem copyValues_confined (B : Behaviour η σ α) (dup : η) (hl : l ∈ S) :
    ∀ (fuel : Nat) (it : Iter), Confined S (copyValues B dup l fuel it) fun _ => True
  | 0, _ => .fault _
  | fuel + 1, it => by
    refine (Confined.of_keeps (next_keeps it)).bind fun r _ => ?_
    rcases r with ⟨_ | x, it⟩
    · exact .pure trivial
    · exact (copyValue_confined B dup x hl).bind fun _ _ => copyValues_confined B dup hl fuel it

theorem duplicate_confined (B : Behaviour η σ α) (l : Addr) (fallback : η) :
    Confined S (duplicate B l fallback) fun _ => True := by
  refine (Confined.of_keeps (record_keeps l)).bind fun r _ => (allocate_confined _ _).bind
    fun copy hcopy => (setHooks_confined r.hooks hcopy).bind fun _ _ => ?_
  have hvalues : Confined S (do
      let it ← Iter.start l
      copyValues B (r.hooks.dup.getD fallback) copy (it.remaining + 1) it) fun _ => True :=
    (Confined.of_keeps (iterStart_keeps l)).bind fun it _ => copyValues_confined B _ hcopy _ it
  exact (hvalues.tryCatch fun e => (destroy_confined B e.course hcopy).bind fun _ _ =>
    .throw e).bind fun _ _ => .pure trivial

end

/-! ## Operations of a program -/

/-- The addresses that the operation names among those which it writes to, or starts from. -/
def Op.sites (op : Op η α) : List Addr :=
  match op with
  | .insert _ a _ _ | .delete _ a | .exchange _ a _ => a :: op.targets
  | _ => op.targets

theorem keeping_confined {S : Set Addr} {t : Holdings} {answer : β → Answer η α}
    {act : Action η σ α β} {P : β → Prop} (h : Confined S act P) :
    Confined S (Op.keeping t answer act) fun _ => True :=
  h.bind fun _ _ => .pure trivial

theorem withSeat_confined {S : Set Addr} {t : Holdings} {c : Nat} {f : Seat → Action η σ α β}
    (h : ∀ s, Confined S (f s) fun _ => True) : Confined S (t.withSeat c f) fun _ => True := by
  unfold Holdings.withSeat
  split
  · exact h _
  · exact .fault _

theorem Op.act_confined {S : Set Addr} (B : Behaviour η σ α) (t : Holdings) {op : Op η α}
    (h : ∀ a ∈ op.sites, a ∈ S) : Confined S (op.act B t) fun _ => True := by
  -- an operation that names one list only
  have one : ∀ {l}, op.sites = [l] → l ∈ S := fun hop => h _ (hop ▸ List.mem_singleton_self _)
  have reads : ∀ {γ : Type} {answer : γ → Answer η α} {act : Action η σ α γ}, Keeps Eq act →
      Confined S (keeping t answer act) fun _ => True := fun hk => keeping_confined (.of_keeps hk)
  cases op with
  -- operations on the ring of a list
  | addHead l x => exact keeping_confined (addHead_confined x (one rfl))
  | addTail l x => exact keeping_confined (addTail_confined x (one rfl))
  | insert l a x after =>
    have hl : l ∈ S := h l (by simp [sites, targets])
    exact keeping_confined (insert_confined x after hl (h a (by simp [sites])))
  | extend l xs => exact keeping_confined (extend_confined (one rfl) xs)
  | delete l a =>
    have hl : l ∈ S := h l (by simp [sites, targets])
    exact keeping_confined (delete_confined B hl (h a (by simp [sites])))
  | popFront l => exact keeping_confined (popFront_confined (one rfl))
  | popBack l => exact keeping_confined (popBack_confined (one rfl))
  | take l e =>
    cases e with
    | front => exact keeping_confined (popFront_confined (one rfl))
    | back => exact keeping_confined (popBack_confined (one rfl))
  | clear l => exact keeping_confined (clear_confined B _ (one rfl))
  | destroy l => exact keeping_confined (destroy_confined B _ (one rfl))
  | dropIter l => exact keeping_confined (destroy_confined B _ (one rfl))
  | rotate l => exact keeping_confined (rotate_confined (one rfl))
  | join l m =>
    have hl : l ∈ S := h l (by simp [sites, targets])
    exact keeping_confined (join_confined hl (h m (by simp [sites, targets])))
  -- operations on values and hooks
  | exchange l a x => exact keeping_confined (exchange_confined x (h a (by simp [sites])))
  | setFront l x => exact keeping_confined (setFront_confined x (one rfl))
  | setBack l x => exact keeping_confined (setBack_confined x (one rfl))
  | setHooks l hs => exact keeping_confined (setHooks_confined hs (one rfl))
  | installHook l kind f =>
    have hl : l ∈ S := one rfl
    exact keeping_confined <| (Confined.of_keeps (hooks_keeps l)).bind fun _ _ =>
      setHooks_confined _ hl
  | callDup f x => exact keeping_confined (callDup_confined B f x)
  | callFree f x => exact keeping_confined (callFree_confined B f x)
  | callMatching f x key => exact keeping_confined (.of_consulted (callMatching_keeps B f x key))
  | search l key fallback => exact keeping_confined (.of_consulted (search_keeps B l key fallback))
  | equal l m rel => exact keeping_confined (.of_consulted (equal_keeps B l m rel))
  -- new lists
  | create source => exact (allocate_confined _ _).bind fun _ _ => .pure trivial
  | collect xs =>
    refine (allocate_confined _ _).bind fun l hl => ?_
    exact (extend_confined hl xs).bind fun _ _ => .pure trivial
  | duplicate l fallback => exact (duplicate_confined B l fallback).bind fun _ _ => .pure trivial
  -- reads
  | head l => exact reads ((nextOf_keeps l).bind fun _ => .pure _)
  | tail l => exact reads ((prevOf_keeps l).bind fun _ => .pure _)
  | front l => exact reads (((nextOf_keeps l).bind fun _ => .pure _).bind valueAt_keeps)
  | back l => exact reads (((prevOf_keeps l).bind fun _ => .pure _).bind valueAt_keeps)
  | length l => exact reads (length_keeps l)
  | isEmpty l => exact reads (isEmpty_keeps l)
  | value l a => exact reads (value_keeps a)
  | nextNode l a => exact reads ((nextOf_keeps a).bind fun _ => .pure _)
  | prevNode l a => exact reads ((prevOf_keeps a).bind fun _ => .pure _)
  | hooks l => exact reads (hooks_keeps l)
  | allocator l => exact reads ((record_keeps l).bind fun _ => .pure _)
  | index l i => exact reads (index_keeps l i)
  | iterate l word => exact reads ((iterStart_keeps l).bind (along_keeps word))
  -- iterators, cursors and budgets
  | intoIter l => exact .pure trivial
  | cursor l d => exact (Confined.of_keeps (seat_keeps l d)).bind fun _ _ => .pure trivial
  | rewind c l d => exact (Confined.of_keeps (seat_keeps l d)).bind fun _ _ => .pure trivial
  | step c =>
    refine withSeat_confined fun s => ?_
    exact (Confined.of_keeps (step_keeps s.cursor)).bind fun _ _ => .pure trivial
  | peek c => exact withSeat_confined fun _ => .pure trivial
  | direction c => exact withSeat_confined fun _ => .pure trivial
  | cloneCursor c => exact withSeat_confined fun _ => .pure trivial
  | refill i budget => exact keeping_confined (.of_heap fun _ => rfl)

/-- **An operation stays in every region that has the addresses which it names**, whatever it is and
however it ends. -/
theorem World.perform_within {S : Set Addr} {w : World η σ α} {op : Op η α}
    (hw : w.store.heap.Region S) (hop : ∀ a ∈ op.sites, a ∈ S) :
    Heap.Within S w.store.heap (w.perform B op).2.store.heap := by
  cases hc : op.check w with
  | error why =>
    rw [World.perform_of_error hc]
    exact .refl hw
  | ok u =>
    obtain ⟨hin, -⟩ := Op.act_confined B (op.takes w) hop w.store hw
    rw [World.perform_of_ok hc]
    cases hact : op.act B (op.takes w) w.store with
    | ok p s =>
      rw [hact] at hin
      rwa [World.proceed_of_ok hact]
    | error e s =>
      rw [hact] at hin
      rwa [World.proceed_of_error hact]

/-- **So does a run.** -/
theorem World.run_within {S : Set Addr} {w : World η σ α} {ops : List (Op η α)}
    (hw : w.store.heap.Region S) (hops : ∀ op ∈ ops, ∀ a ∈ op.sites, a ∈ S) :
    Heap.Within S w.store.heap (w.run B ops).2.store.heap := by
  induction ops generalizing w with
  | nil => exact .refl hw
  | cons op ops ih =>
    have hstep := World.perform_within (B := B) hw (hops op List.mem_cons_self)
    exact hstep.trans (ih hstep.region fun op hm => hops op (List.mem_cons_of_mem _ hm))

/-! ## What determines a store -/

theorem Heap.eq_of_get? {h h' : Heap η α} (hsize : h'.size = h.size)
    (hget : ∀ a, h'.get? a = h.get? a) : h' = h := by
  have hcells : h'.cells = h.cells := by
    refine Array.ext hsize fun i hi hi' => ?_
    have hi₁ := hget i
    unfold Heap.get? at hi₁
    rw [Array.getElem?_eq_getElem hi, Array.getElem?_eq_getElem hi'] at hi₁
    exact hi₁
  cases h'
  exact congrArg Heap.mk hcells

/-- The blocks of some lists, and all blocks from `fresh` on. -/
def Strip.region (lists : List (Addr × Strip η α)) (fresh : Addr) : Set Addr :=
  {a | a ∈ lists.flatMap Strip.blocks ∨ fresh ≤ a}

/-- A block that is not handed out yet is not there. -/
theorem Store.Shows.get?_of_le {s : Store η σ α} {v : View η σ α} {a : Addr} (hs : s.Shows v)
    (ha : v.fresh ≤ a) : s.heap.get? a = none := by
  refine Option.not_isSome_iff_eq_none.1 fun h => ?_
  exact Nat.not_lt.2 ha (hs.fresh ▸ Heap.lt_size_of_isSome h)

/-- **The lists and what is outside of them determine the store.** -/
theorem Store.Shows.eq {s s' : Store η σ α} {v : View η σ α} (hs : s.Shows v) (hs' : s'.Shows v)
    (hout : ∀ a ∉ Strip.region v.lists v.fresh, s'.heap.get? a = s.heap.get? a) : s' = s := by
  have hheap : s'.heap = s.heap := by
    refine Heap.eq_of_get? (hs'.fresh.trans hs.fresh.symm) fun a => ?_
    by_cases ha : a ∈ Strip.region v.lists v.fresh
    · rcases ha with ha | ha
      · obtain ⟨p, hp, ha⟩ := List.mem_flatMap.1 ha
        exact (hs.lists.ring p hp).get?_eq (hs'.lists.ring p hp) ha
      · rw [hs.get?_of_le ha, hs'.get?_of_le ha]
    · exact hout a ha
  have hevents : s'.events = s.events := Array.toList_inj.1 (hs'.log.trans hs.log.symm)
  have hbudgets : s'.budgets = s.budgets := hs'.budgets.trans hs.budgets.symm
  have hstate : s'.hookState = s.hookState := hs'.hookState.trans hs.hookState.symm
  cases s
  cases s'
  rw [Store.mk.injEq]
  exact ⟨hheap, hbudgets, hstate, hevents⟩

/-- Any lists of a program are a region, with what is not handed out yet. -/
theorem World.Sound.region {w : World η σ α} {v : View η σ α} {lists : List (Addr × Strip η α)}
    (hw : w.Sound v) (hsub : ∀ p ∈ lists, p ∈ v.lists) :
    w.store.heap.Region (Strip.region lists v.fresh) := by
  refine ⟨fun a ha c hc => ?_, fun a ha => .inr (hw.shows.fresh ▸ ha)⟩
  rcases ha with ha | ha
  · obtain ⟨p, hp, ha⟩ := List.mem_flatMap.1 ha
    obtain ⟨hnext, hprev⟩ := (hw.ring (hsub p hp)).closed ha hc
    exact ⟨.inl (List.mem_flatMap.2 ⟨p, hp, hnext⟩), .inl (List.mem_flatMap.2 ⟨p, hp, hprev⟩)⟩
  · have hlt := Heap.lt_size_of_get? hc
    exact absurd (hw.shows.fresh ▸ hlt) (Nat.not_lt.2 ha)

end RingList
