import RingList.Proofs.Positions
import RingList.Proofs.Searching
import RingList.Proofs.Tracks

/-!
# Checks that never fail

Operations check what they rely on: that two blocks are neighbours before a node comes between them
and next to it afterwards, that a block which leaves a ring is a node, that a value is read from a node
that has one, and that a length stays a machine word. A check that fails is a fault. None does, in any
world of a program, whatever hooks did before and whatever they do now.

* `Effect.faultless`, `World.Sound.perform_faultless`: no operation ends by a fault.
* `World.Sound.fillCopy_faultless`: copying the values of a list meets none either, which the panic of
  a hook while the partial copy is destroyed would hide.
* `Heap.Placed`: where blocks can lie in memory, and how many there can be then.
* `World.unfailing`: all of this after every run.
-/

set_option autoImplicit false

namespace RingList

variable {η σ α β : Type} {B : Behaviour η σ α} {l : Addr} {k : Strip η α} {v v' : View η σ α}
  {op : Op η α} {o : Outcome η α}

/-! ## Operations -/

/-- The operation did not stop because a check of its own failed. -/
def Outcome.Faultless (o : Outcome η α) : Prop := ∀ f, o ≠ .stopped (.fault f)

theorem Outcome.faultless_answered (a : Answer η α) : (Outcome.answered a).Faultless := nofun

theorem Outcome.faultless_ofStop {a : Answer η α} {stop : Option Stop}
    (h : ∀ f, stop ≠ some (.fault f)) : (Outcome.ofStop a stop).Faultless := by
  cases stop with
  | none => exact faultless_answered a
  | some e =>
    intro f hf
    cases hf
    exact h f rfl

theorem Reply.stop_ne_fault (kind : HookKind) (reply : Reply β) (f : Fault) :
    reply.stop kind ≠ some (.fault f) := by
  cases reply <;> nofun

theorem Teardown.stop_ne_fault (t : Teardown η σ α) (f : Fault) : t.stop ≠ some (.fault f) := by
  unfold Teardown.stop
  cases t.left <;> nofun

theorem copying_stop_ne_fault (dup : η) (source : Allocator) (xs : List α) (v : View η σ α)
    (f : Fault) : (copying B dup source v xs).stop ≠ some (.fault f) := by
  intro h
  have hmem := copying_stop (B := B) dup source xs v
  rw [h] at hmem
  simp at hmem

theorem duplicating_stop_ne_fault (fallback : η) (f : Fault) :
    (duplicating B v k fallback).stop ≠ some (.fault f) := by
  cases hserve : v.serves k.allocator with
  | false =>
    rw [duplicating_of_refused hserve]
    nofun
  | true =>
    cases hstop : (copyingAll B v k fallback).stop with
    | none =>
      rw [duplicating_of_complete hserve hstop]
      nofun
    | some e =>
      rw [duplicating_of_partial hserve hstop]
      intro h
      have h := Option.some.inj h
      cases ht : (teardown B e.course k.hooks k.allocator (copyingAll B v k fallback).view.hookState
          (copyingAll B v k fallback).copies).stop with
      | none =>
        rw [ht] at h
        obtain rfl : e = .fault f := h
        exact copying_stop_ne_fault _ _ _ _ f hstop
      | some e' =>
        rw [ht] at h
        obtain rfl : e' = .fault f := h
        exact Teardown.stop_ne_fault _ f ht

/-- The operation is the call of a hook with one value. -/
def Op.calls : Op η α → Bool
  | .callDup _ _ | .callFree _ _ => true
  | _ => false

/-- **No effect is a fault.** The effects of looks and of calls of hooks do not say how these end. -/
theorem Effect.faultless (he : Effect B v op o v') (hlooks : op.looks = false)
    (hconsults : op.consults = false) (hcalls : op.calls = false) : o.Faultless := by
  cases he with
  | misused => nofun
  | looked hop => cases hlooks.symm.trans hop
  | consulted hop => cases hconsults.symm.trans hop
  | calledDup => cases hcalls
  | calledFree => cases hcalls
  | duplicated fallback => exact Outcome.faultless_ofStop (duplicating_stop_ne_fault fallback)
  | deleted => exact Outcome.faultless_ofStop (Reply.stop_ne_fault _ _)
  | cleared => exact Outcome.faultless_ofStop (Teardown.stop_ne_fault _)
  | destroyed => exact Outcome.faultless_ofStop (Teardown.stop_ne_fault _)
  | _ => nofun

namespace World

variable {w : World η σ α}

namespace Sound

theorem faultless_of_yields {act : Action η σ α β} {answer : β → Answer η α} {hold : β → Holdings}
    {b : β} (hw : w.Sound v) (hc : op.check w = .ok ())
    (hact : op.act B (op.takes w) = act >>= fun b => pure (answer b, hold b))
    (hy : Yields act v b v') : (w.perform B op).1.Faultless := by
  obtain ⟨s', hrun⟩ := hw.perform_of_yields (B := B) hc hact hy
  rw [hrun]
  exact Outcome.faultless_answered _

theorem faultless_of_settles {act : Action η σ α β} {answer : β → Answer η α} {b : β}
    {kind : HookKind} {γ : Type} {reply : Reply γ} (hw : w.Sound v) (hc : op.check w = .ok ())
    (hact : op.act B (op.takes w) = Op.keeping (op.takes w) answer act)
    (hend : Settles act v b (reply.stop kind) v') : (w.perform B op).1.Faultless := by
  rw [(hw.perform_of_settles hc hact hend).1]
  exact Outcome.faultless_ofStop (Reply.stop_ne_fault kind reply)

theorem faultless_callDup (h : η) (x : α) (hw : w.Sound v) :
    (w.perform B (.callDup h x)).1.Faultless := by
  obtain ⟨s', -, -, hrun⟩ := callDup_shows (B := B) h x hw.shows
  rw [perform_of_ok rfl]
  cases hd : (B.dup h v.hookState x).1 with
  | returns b =>
    rw [hd] at hrun
    rw [proceed_of_ok (show (Op.callDup h x).act B w.holdings w.store = _ from bind_ok hrun)]
    nofun
  | panics =>
    rw [hd] at hrun
    rw [proceed_of_error (show (Op.callDup h x).act B w.holdings w.store = _ from bind_error hrun)]
    nofun

/-- **No operation ends by a fault.** -/
theorem perform_faultless (hw : w.Sound v) (htrack : w.OnTrack) (op : Op η α) :
    (w.perform B op).1.Faultless := by
  cases hc : op.check w with
  | error why =>
    rw [perform_of_error hc]
    nofun
  | ok u =>
    obtain ⟨v', -, he⟩ := hw.perform (B := B) op
    have one : ∀ {l : Addr}, w.expectList l = .ok () → ∃ k, (l, k) ∈ v.lists := fun h =>
      hw.mem_lists (owners_of_expectList h)
    cases op with
    | callDup h x => exact hw.faultless_callDup h x
    | callFree h x => exact hw.faultless_of_settles hc rfl (callFree_ends B h x v).settles
    | callMatching h x key => exact hw.faultless_of_settles hc rfl (callMatching_settles B h x key v)
    | search l key fallback =>
      obtain ⟨k, hk⟩ := one hc
      exact hw.faultless_of_settles hc rfl (search_settles key fallback hk)
    | equal l m rel =>
      obtain ⟨_, hl, hm⟩ := bind_ok_inv hc
      obtain ⟨k, hk⟩ := one hl
      obtain ⟨k', hk'⟩ := one hm
      exact hw.faultless_of_settles hc rfl (equal_settles rel hk hk')
    | index l i =>
      obtain ⟨_, hl, hi⟩ := bind_ok_inv hc
      obtain ⟨k, hk⟩ := one hl
      have hword : IsWord i := by
        split at hi
        · next hword => exact hword
        · cases hi
      exact hw.faultless_of_yields hc rfl (index_yields hk hw.room hword)
    | iterate l word =>
      obtain ⟨k, hk⟩ := one hc
      exact hw.faultless_of_yields hc rfl ((iterStart_yields hk).bind
        (along_yields hk word List.infix_rfl (Iter.at_start l k.entries)))
    | cursor l d =>
      obtain ⟨k, hk⟩ := one hc
      exact hw.faultless_of_yields hc (Op.act_cursor d) (seat_yields hk d)
    | rewind c l d =>
      obtain ⟨_, hl, -⟩ := bind_ok_inv hc
      obtain ⟨k, hk⟩ := one hl
      exact hw.faultless_of_yields hc (Op.act_rewind d) (seat_yields hk d)
    | step c =>
      obtain ⟨s, hs⟩ := seat_of_expectFresh hc
      obtain ⟨next, hy, -⟩ :=
        (htrack s (Array.mem_of_getElem? hs) (fresh_of_expectFresh hs hc)).yields hw
      exact hw.faultless_of_yields hc (Op.act_step hs) hy
    | peek c =>
      obtain ⟨s, hs⟩ := seat_of_expectFresh hc
      exact hw.faultless_of_yields hc (Op.act_peek hs) (yields_pure () v)
    | direction c =>
      obtain ⟨s, hs⟩ := seat_of_expectCursor hc
      exact hw.faultless_of_yields hc (Op.act_direction hs) (yields_pure () v)
    | cloneCursor c =>
      obtain ⟨s, hs⟩ := seat_of_expectFresh hc
      exact hw.faultless_of_yields hc (Op.act_cloneCursor hs) (yields_pure () v)
    | _ => exact he.faultless rfl rfl rfl

/-! ## Partial copies -/

end Sound

end World

/-- Carries out an action and tells why it stopped, if it did. -/
def attempt (act : Action η σ α Unit) : Action η σ α (Option Stop) :=
  tryCatch (act >>= fun _ => pure none) fun stop => pure (some stop)

/-- What a duplication does before a partial copy is destroyed: the values are copied up to the first
that is refused, not copied or panicked at. -/
def fillCopy (B : Behaviour η σ α) (l : Addr) (fallback : η) : Action η σ α (Addr × Option Stop) := do
  let source ← record l
  let copy ← create source.allocator
  setHooks copy source.hooks
  let stop ← attempt do
    let it ← Iter.start l
    copyValues B (source.hooks.dup.getD fallback) copy (it.remaining + 1) it
  return (copy, stop)

/-- What a duplication does with a copy that is filled as far as it can be. -/
def endCopy (B : Behaviour η σ α) : Addr × Option Stop → Action η σ α Addr
  | (copy, none) => return copy
  | (copy, some stop) => do
    destroy B stop.course copy
    throw stop

/-- An action whose stop is caught ends as the handler does. -/
theorem tryCatch_bind_eq_attempt (act : Action η σ α Unit) (handler : Stop → Action η σ α Unit)
    (f : Unit → Action η σ α β) :
    (tryCatch act handler >>= f) = attempt act >>= fun
      | none => f ()
      | some stop => handler stop >>= f := by
  funext s
  unfold attempt
  rw [run_bind, run_bind, run_tryCatch, run_tryCatch, run_bind]
  cases act s with
  | ok u s' => rfl
  | error e s' => exact (run_bind _ _ _).symm

/-- **A duplication** fills the copy, and then ends it. -/
theorem duplicate_eq (B : Behaviour η σ α) (l : Addr) (fallback : η) :
    duplicate B l fallback = fillCopy B l fallback >>= endCopy B := by
  unfold duplicate fillCopy
  simp only [bind_assoc, pure_bind]
  congr 1
  funext source
  congr 1
  funext copy
  congr 1
  funext _
  refine (tryCatch_bind_eq_attempt _ _ _).trans ?_
  congr 1
  funext stop
  cases stop with
  | none => rfl
  | some e =>
    show ((destroy B e.course copy >>= fun _ => throw e) >>= fun _ => pure copy) = _
    rw [bind_assoc]
    rfl

theorem Ends.attempt {act : Action η σ α Unit} {stop : Option Stop} (h : Ends act v stop v') :
    Yields (attempt act) v stop v' := by
  intro s hs
  obtain ⟨s', hrun, hs'⟩ := h s hs
  refine ⟨s', ?_, hs'⟩
  unfold RingList.attempt
  rw [run_tryCatch, run_bind, hrun]
  cases stop <;> rfl

theorem fillCopy_stops (fallback : η) (hm : (l, k) ∈ v.lists)
    (hserve : v.serves k.allocator = false) :
    Stops (fillCopy B l fallback) v (.refused .header) (v.note [.refused k.allocator .header]) :=
  (record_yields hm).bind_stops (create_stops hserve).bind

theorem fillCopy_yields (fallback : η) (hm : (l, k) ∈ v.lists)
    (hserve : v.serves k.allocator = true) :
    let c := copyingAll B v k fallback
    Yields (fillCopy B l fallback) v (v.fresh, c.stop)
      (c.view.having ((v.fresh, ⟨k.hooks, k.allocator, c.copies⟩) :: v.lists)) := by
  have hcopy := copyAll_ends (B := B) (v := v.supply k.allocator .header) v.fresh
    (k.hooks.dup.getD fallback) k.hooks k.allocator hm
  refine (record_yields hm).bind ((create_yields hserve).bind
    ((setHooks_yields k.hooks rfl).bind (Yields.bind ?_ (yields_pure _ _))))
  exact hcopy.attempt

/-- **Copying meets no fault**, up to the point at which a partial copy is destroyed. -/
theorem World.Sound.fillCopy_faultless {w : World η σ α} (fallback : η) (hw : w.Sound v)
    (hm : (l, k) ∈ v.lists) : w.read (fillCopy B l fallback) = .error (.refused .header) ∨
      ∃ copy stop, w.read (fillCopy B l fallback) = .ok (copy, stop) ∧
        ∀ f, stop ≠ some (.fault f) := by
  cases hserve : v.serves k.allocator with
  | false =>
    obtain ⟨s', hrun, -⟩ := fillCopy_stops (B := B) fallback hm hserve w.store hw.shows
    left
    unfold World.read
    rw [hrun]
  | true =>
    right
    exact ⟨_, _, hw.read_eq (fillCopy_yields fallback hm hserve), copying_stop_ne_fault _ _ _ _⟩

/-! ## Lengths -/

theorem wordSize_eq : wordSize = 16 * Heap.capacity := by decide +kernel

namespace Heap

variable {h : Heap η α} {place size : Addr → Nat} {lists : List (Addr × Strip η α)}

/-- **The live blocks lie apart from one another** in an address space of 64 bits, and each takes up
two words at least. -/
structure Placed (h : Heap η α) (place size : Addr → Nat) : Prop where
  large : ∀ a, (h.get? a).isSome → 16 ≤ size a
  inside : ∀ a, (h.get? a).isSome → place a + size a ≤ wordSize
  apart : ∀ a b, (h.get? a).isSome → (h.get? b).isSome → a ≠ b →
    place a + size a ≤ place b ∨ place b + size b ≤ place a

/-- The blocks of a heap can be placed as long as no more of them are handed out than there is room
for. -/
theorem placed_of_size_le (hroom : h.size ≤ capacity) : h.Placed (16 * ·) fun _ => 16 where
  large _ _ := Nat.le_refl 16
  inside a ha := by
    obtain ⟨c, hc⟩ := Option.isSome_iff_exists.1 ha
    have hlt : a < capacity := (lt_size_of_get? hc).trans_le hroom
    rw [wordSize_eq]
    exact Nat.mul_le_mul_left 16 hlt
  apart a b _ _ hab :=
    (Nat.lt_or_gt_of_ne hab).imp (Nat.mul_le_mul_left 16) (Nat.mul_le_mul_left 16)

namespace Placed

/-- No two blocks begin in the same two words. -/
theorem place_inj (hp : h.Placed place size) {a b : Addr} (ha : (h.get? a).isSome)
    (hb : (h.get? b).isSome) (heq : place a / 16 = place b / 16) : a = b := by
  by_contra hab
  have hlarge := hp.large a ha
  have hlarge' := hp.large b hb
  have hapart := hp.apart a b ha hb hab
  omega

/-- **There are no more live blocks than there is room for.** -/
theorem length_le (hp : h.Placed place size) {as : List Addr} (hnd : as.Nodup)
    (hlive : ∀ a ∈ as, (h.get? a).isSome) : as.length ≤ capacity := by
  have hnd' : (as.map fun a => place a / 16).Nodup :=
    hnd.map_on fun a ha b hb => hp.place_inj (hlive a ha) (hlive b hb)
  have hlt : ∀ n ∈ as.map fun a => place a / 16, n ∈ List.range capacity := by
    intro n hn
    obtain ⟨a, ha, rfl⟩ := List.mem_map.1 hn
    have hlarge := hp.large a (hlive a ha)
    have hinside := hp.inside a (hlive a ha)
    rw [wordSize_eq] at hinside
    rw [List.mem_range]
    omega
  simpa using (hnd'.subperm hlt).length_le

end Placed

/-- The blocks of all lists are no more than there is room for. -/
theorem Shows.length_blocks_le (hs : h.Shows lists) (hp : h.Placed place size) :
    (lists.flatMap Strip.blocks).length ≤ capacity := by
  refine hp.length_le hs.apart fun a ha => ?_
  obtain ⟨p, hmem, ha⟩ := List.mem_flatMap.1 ha
  exact (hs.ring p hmem).isSome_of_mem ha

end Heap

namespace World

/-- **Lengths stay machine words** when a list takes in a node or the nodes of another list. -/
structure LengthsFit (w : World η σ α) : Prop where
  /-- A list has as many blocks as it has nodes and a header. -/
  blocks : (w.owners.map fun l => 1 + w.count l).sum ≤ Heap.capacity
  node : ∀ l ∈ w.owners, w.count l + 1 < wordSize
  chain : ∀ l ∈ w.owners, ∀ m ∈ w.owners, l ≠ m → w.count l + w.count m < wordSize

theorem Sound.lengthsFit {w : World η σ α} {place size : Addr → Nat} (hw : w.Sound v)
    (hp : w.store.heap.Placed place size) : w.LengthsFit := by
  have hword := wordSize_eq
  have hcapacity : 0 < Heap.capacity := by decide +kernel
  have hblocks : (w.owners.map fun l => 1 + w.count l).sum ≤ Heap.capacity := by
    have hlen : v.held.length = (v.lists.flatMap Strip.blocks).length := by
      unfold View.held
      rw [List.length_flatMap, List.length_flatMap]
      simp [Strip.held, Strip.blocks, nodeBlocks, Strip.nodes]
    rw [← length_blocks, ← hw.blocks_perm.length_eq, hlen]
    exact hw.shows.lists.length_blocks_le hp
  refine ⟨hblocks, fun l hl => ?_, fun l hl m hm hlm => ?_⟩
  · obtain ⟨k, rest, hperm⟩ := hw.strip hl
    have hsum := ((hw.map_owners hperm).map fun l => 1 + w.count l).sum_nat
    simp only [List.map_cons, List.sum_cons] at hsum
    omega
  · obtain ⟨k, k', rest, hperm⟩ := hw.strips hl hm hlm
    have hsum := ((hw.map_owners hperm).map fun l => 1 + w.count l).sum_nat
    simp only [List.map_cons, List.sum_cons] at hsum
    omega

/-! ## Whole runs -/

/-- **No check fails** in a world, and no length leaves the range of machine words. -/
structure Unfailing (B : Behaviour η σ α) (w : World η σ α) : Prop where
  /-- No operation ends by a fault. -/
  operations : ∀ op : Op η α, (w.perform B op).1.Faultless
  /-- Copying the values of a list meets none, so there is none to be hidden by a panic while a partial
  copy is destroyed. -/
  copies : ∀ l ∈ w.holdings.lists, ∀ fallback : η,
    duplicate B l fallback = fillCopy B l fallback >>= endCopy B ∧
      (w.read (fillCopy B l fallback) = .error (.refused .header) ∨
        ∃ copy stop, w.read (fillCopy B l fallback) = .ok (copy, stop) ∧
          ∀ f, stop ≠ some (.fault f))
  /-- The values of a list can all be read, and its length counts them. -/
  values : ∀ l ∈ w.owners, ∃ xs, w.read (RingList.values l) = .ok xs ∧
    w.read (RingList.length l) = .ok xs.length ∧ w.count l = xs.length
  /-- There are places for the blocks, -/
  placed : ∃ place size, w.store.heap.Placed place size
  /-- and wherever they are, lengths fit. -/
  lengths : ∀ place size, w.store.heap.Placed place size → w.LengthsFit

/-- **After every run no check fails**, in the next operation or later. -/
theorem unfailing (B : Behaviour η σ α) (budgets : Array (Option Nat)) (hookState : σ)
    (ops : List (Op η α)) : ((World.start budgets hookState).run B ops).2.Unfailing B := by
  have hreach : ((World.start budgets hookState).run B ops).2.Reachable B budgets hookState :=
    ⟨ops, rfl⟩
  obtain ⟨v, -, hw, -⟩ := hreach.sound
  refine ⟨hw.perform_faultless hreach.onTrack, fun l hl fallback => ?_, fun l hl => ?_,
    ⟨_, _, Heap.placed_of_size_le ?_⟩, fun place size hp => hw.lengthsFit hp⟩
  · obtain ⟨k, hk⟩ := hw.mem_lists (owners_of_lists hl)
    exact ⟨duplicate_eq B l fallback, hw.fillCopy_faultless fallback hk⟩
  · obtain ⟨k, hk⟩ := hw.mem_lists hl
    have hlen : k.values.length = k.entries.length := by simp [Strip.values]
    refine ⟨k.values, hw.read_eq (values_yields hk), ?_, hlen ▸ hw.count_eq hk⟩
    exact hlen ▸ hw.read_eq (length_yields hk)
  · rw [hw.shows.fresh]
    exact hw.room

end World

end RingList
