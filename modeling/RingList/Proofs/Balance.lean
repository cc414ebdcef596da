import RingList.Proofs.Checks

/-!
# The balance of memory

Every block that is given back was served before, with the same layout, and is given back once. A
block that is not there cannot be given back: that is a fault, and no operation ends by one. Between
operations the blocks that are not given back are those of the program's lists and owning iterators,
and those that were lost when a hook panicked.

* `World.memoryBalance`: this holds after every run.
-/

set_option autoImplicit false

namespace RingList

variable {η σ α : Type} {B : Behaviour η σ α}

/-! ## Requests -/

/-- `n` is a number of requests that the operation makes when it ends so: one for each new block,
and none if it needs no block. A duplication that does not come to its end makes fewer than it
needs. -/
def Op.Requests (count : Addr → Nat) (o : Outcome η α) (n : Nat) : Op η α → Prop
  | .create _ | .addHead _ _ | .addTail _ _ | .insert _ _ _ _ => n = 1
  | .collect xs => n = xs.length + 1
  | .extend _ xs => n = xs.length
  | .duplicate l _ =>
    match o with
    | .answered _ => n = count l + 1
    | _ => 1 ≤ n ∧ n ≤ count l + 1
  | _ => n = 0

theorem requests_servings (source : Allocator) (a n : Nat) :
    requests (View.servings source a n : List (Event η α)) = n := by
  have hall : ∀ e ∈ (View.servings source a n : List (Event η α)), e.isRequest = true := by
    intro e he
    obtain ⟨b, -, rfl⟩ := List.mem_map.1 he
    rfl
  rw [requests, List.countP_eq_length.2 hall]
  simp [View.servings]

/-- Copying asks for at most one node for each value, and for all of them if it comes to its end. -/
theorem requests_copying (dup : η) (source : Allocator) (xs : List α) (v : View η σ α) : ∃ evs,
    (copying B dup source v xs).view.log = v.log ++ evs ∧ requests evs ≤ xs.length ∧
      ((copying B dup source v xs).stop = none → requests evs = xs.length) := by
  induction xs generalizing v with
  | nil => exact ⟨[], by simp [copying], Nat.le_refl _, fun _ => rfl⟩
  | cons x xs ih =>
    cases hserve : v.serves source with
    | false =>
      rw [copying_of_refused hserve]
      exact ⟨[.refused source .node], rfl, by simp, by simp⟩
    | true =>
      rcases hd : (B.dup dup v.hookState x).1 with (_ | w) | _
      · rw [copying_of_fails hserve hd]
        refine ⟨[.served source v.fresh .node, .dup dup x (.returns none),
          .released source v.fresh .node], by simp, ?_, by simp⟩
        rw [requests_served, requests_cons _ rfl, requests_cons _ rfl]
        simp
      · rw [copying_of_copies hserve hd]
        obtain ⟨evs, hlog, hreq, hall⟩ :=
          ih ((v.supply source .node).heeding [.dup dup x (.returns (some w))]
            (B.dup dup v.hookState x).2)
        refine ⟨.served source v.fresh .node :: .dup dup x (.returns (some w)) :: evs,
          by simpa using hlog, ?_, fun hstop => ?_⟩
        · rw [requests_served, requests_cons _ rfl, List.length_cons]
          omega
        · rw [requests_served, requests_cons _ rfl, List.length_cons, hall hstop]
      · rw [copying_of_panics hserve hd]
        refine ⟨[.served source v.fresh .node, .dup dup x .panics], by simp, ?_, by simp⟩
        rw [requests_served, requests_cons _ rfl]
        simp

theorem requests_duplicating (v : View η σ α) (k : Strip η α) (fallback : η) : ∃ evs,
    (duplicating B v k fallback).view.log = v.log ++ evs ∧
      1 ≤ requests evs ∧ requests evs ≤ k.entries.length + 1 ∧
      ((duplicating B v k fallback).stop = none → requests evs = k.entries.length + 1) := by
  cases hserve : v.serves k.allocator with
  | false =>
    rw [duplicating_of_refused hserve]
    exact ⟨[.refused k.allocator .header], rfl, by simp, by simp, by simp⟩
  | true =>
    have hc : copyingAll B v k fallback = copying B (k.hooks.dup.getD fallback) k.allocator
      (v.supply k.allocator .header) k.values := rfl
    obtain ⟨evs, hlog, hreq, hall⟩ := requests_copying (B := B) (k.hooks.dup.getD fallback)
      k.allocator k.values (v.supply k.allocator .header)
    have hlen : k.values.length = k.entries.length := List.length_map _
    rw [← hc] at hlog hall
    cases hstop : (copyingAll B v k fallback).stop with
    | none =>
      rw [duplicating_of_complete hserve hstop]
      refine ⟨.served k.allocator v.fresh .header :: evs, by simpa using hlog, ?_⟩
      have hall := hall hstop
      rw [requests_served]
      omega
    | some e =>
      rw [duplicating_of_partial hserve hstop]
      refine ⟨.served k.allocator v.fresh .header :: (evs ++
        (teardown B e.course k.hooks k.allocator (copyingAll B v k fallback).view.hookState
          (copyingAll B v k fallback).copies).eventsWithHeader k.allocator v.fresh),
        by simp [hlog], ?_⟩
      rw [requests_served, requests_append, requests_eventsWithHeader]
      refine ⟨by omega, by omega, by simp⟩

/-- **The requests of an operation.** -/
theorem Effect.requests {v v' : View η σ α} {op : Op η α} {o : Outcome η α} {count : Addr → Nat}
    (he : Effect B v op o v') (hcount : ∀ p ∈ v.lists, count p.1 = p.2.entries.length) :
    ∃ evs, v'.log = v.log ++ evs ∧
      ((∃ why, o = .misused why ∧ requests evs = 0) ∨ op.Requests count o (requests evs)) := by
  have hsame : v.log = v.log ++ [] := by simp
  cases he with
  | misused op why => exact ⟨[], hsame, .inl ⟨why, rfl, rfl⟩⟩
  | looked hop o => exact ⟨[], hsame, .inr (by cases op <;> first | rfl | cases hop)⟩
  | @consulted _ hop o evs hevs σ' =>
    have hreq : RingList.requests evs = 0 := by
      apply List.countP_eq_zero.2
      intro e he
      have he := hevs e he
      cases e <;> first | (simp [Event.isRequest]; done) | cases he
    refine ⟨evs, rfl, .inr ?_⟩
    rw [hreq]
    cases op <;> first | rfl | cases hop
  | read hl hr => exact ⟨[], hsame, .inr (by cases hr <;> rfl)⟩
  | readHooks hl => exact ⟨[], hsame, .inr rfl⟩
  | readAllocator hl => exact ⟨[], hsame, .inr rfl⟩
  | owned l => exact ⟨[], hsame, .inr rfl⟩
  | calledDup h x o => exact ⟨_, rfl, .inr rfl⟩
  | calledFree h x o => exact ⟨_, rfl, .inr rfl⟩
  | refilled i budget => exact ⟨[], hsame, .inr rfl⟩
  | created hserve => exact ⟨[.served _ v.fresh .header], rfl, .inr rfl⟩
  | notCreated hserve => exact ⟨_, rfl, .inr rfl⟩
  | @collected xs hs =>
    refine ⟨.served .global v.fresh .header :: View.servings .global (v.fresh + 1) xs.length,
      by simp, .inr ?_⟩
    rw [requests_served, requests_servings]
    rfl
  | @duplicated l k fallback hl =>
    obtain ⟨evs, hlog, hpos, hle, hall⟩ := requests_duplicating (B := B) v k fallback
    refine ⟨evs, hlog, .inr ?_⟩
    have hk : count l = k.entries.length := hcount (l, k) hl
    rw [← hk] at hle hall
    cases hstop : (duplicating B v k fallback).stop with
    | none => exact hall hstop
    | some e => exact ⟨hpos, hle⟩
  | @placed op l k rest xs ys x hl hp hserve =>
    exact ⟨[.served k.allocator v.fresh .node], rfl, .inr (by cases hp <;> rfl)⟩
  | notPlaced hl hp hserve => exact ⟨_, rfl, .inr (by cases hp <;> rfl)⟩
  | @extended l k rest xs hl hs =>
    exact ⟨_, View.supplyMany_log _, .inr (requests_servings _ _ _)⟩
  | written hl hw => exact ⟨[], hsame, .inr (by cases hw <;> rfl)⟩
  | missed hl hk hm => exact ⟨[], hsame, .inr (by cases hm <;> rfl)⟩
  | rotated hl => exact ⟨[], hsame, .inr rfl⟩
  | joined hl => exact ⟨[], hsame, .inr rfl⟩
  | rehooked hl hop => exact ⟨[], hsame, .inr (by rcases hop with rfl | ⟨_, _, rfl, -⟩ <;> rfl)⟩
  | taken hl ht => exact ⟨_, rfl, .inr (by cases ht <;> rfl)⟩
  | @deleted l k rest xs ys a x hl hk =>
    refine ⟨_, rfl, .inr ?_⟩
    have he := isRequest_discarding B .ordinary k.hooks v.hookState x
    exact (requests_cons _ rfl).trans (requests_cons _ he)
  | cleared hl => exact ⟨_, rfl, .inr (requests_teardown B _ _ _ _ _)⟩
  | @destroyed op l k rest hop hl =>
    refine ⟨_, rfl, .inr ?_⟩
    rw [requests_eventsWithHeader]
    cases op <;> first | rfl | cases hop

/-! ## Whole runs -/

/-- The blocks that were served and are not given back. -/
def outstanding (evs : List (Event η α)) : List Block :=
  (evs.filterMap Event.served?).filter (· ∉ evs.filterMap Event.released?)

theorem Ledger.outstanding_perm {evs : List (Event η α)} {n : Nat} {held : List Block}
    (h : Ledger 0 [] evs n held) : (outstanding evs).Perm held := by
  have hb := h.balance
  rw [List.nil_append] at hb
  obtain ⟨-, -, hdis⟩ := List.nodup_append.1 (List.Nodup.of_map _ h.nodup)
  refine (hb.filter _).trans (.of_eq ?_)
  rw [List.filter_append]
  have hrel : (evs.filterMap Event.released?).filter
      (fun b => decide (b ∉ evs.filterMap Event.released?)) = [] :=
    List.filter_eq_nil_iff.2 fun b hb => by simpa using hb
  have hheld : held.filter (fun b => decide (b ∉ evs.filterMap Event.released?)) = held :=
    List.filter_eq_self.2 fun b hb => decide_eq_true fun hm => hdis b hm b hb rfl
  rw [hrel, hheld, List.nil_append]

/-- **The balance of memory** after a run. -/
structure MemoryBalance (w : World η σ α) (steps : List (Step η σ α)) : Prop where
  /-- A block that is given back was served before with the same kind, hence with the same layout,
  and has not been given back before. -/
  releases : ∀ (pre post : List (Event η α)) (target : Allocator) (b : Addr) (kind : BlockKind),
    w.store.events.toList = pre ++ .released target b kind :: post →
      (∃ source, .served source b kind ∈ pre) ∧ ∀ target' kind', .released target' b kind' ∉ pre
  /-- No step ends by a fault: each block that was to be given back was there, and of this kind. -/
  faultless : ∀ st ∈ steps, st.outcome.Faultless
  /-- The blocks of the program's lists are outstanding, and all others that are were lost. -/
  held : ∃ lost, (outstanding w.store.events.toList).Perm (w.blocks ++ lost) ∧
    lost.length = (steps.map Step.leak).sum
  count : (outstanding w.store.events.toList).length =
    (w.owners.map fun l => 1 + w.count l).sum + (steps.map Step.leak).sum
  /-- Each step makes the requests that its operation needs. -/
  requests : ∀ st ∈ steps, (∃ why, st.op.check st.before = .error why ∧
      st.outcome = .misused why ∧ requests st.events = 0) ∨
    st.op.Requests st.before.count st.outcome (requests st.events)

/-- **After every run the balance of memory holds.** -/
theorem World.memoryBalance (B : Behaviour η σ α) (budgets : Array (Option Nat)) (hookState : σ)
    (ops : List (Op η α)) :
    MemoryBalance ((World.start budgets hookState).run B ops).2
      ((World.start budgets hookState).steps B ops) := by
  obtain ⟨v, hw, lost, h, hlost⟩ := World.ledger_run B budgets hookState ops
  have hheld := h.outstanding_perm.trans (hw.blocks_perm.append_right lost)
  rw [← hw.shows.log] at h hheld
  refine ⟨fun pre post target b kind hlog => ?_, fun st hst => ?_, ⟨lost, hheld, hlost⟩, ?_,
    fun st hst => ?_⟩
  · rw [hlog] at h
    exact h.released_once
  · have hstart : (World.start budgets hookState).Reachable B budgets hookState := ⟨[], rfl⟩
    obtain ⟨hbefore, hstep⟩ := hstart.of_mem_steps hst
    obtain ⟨v, -, hw, -⟩ := hbefore.sound
    rw [hstep]
    exact hw.perform_faultless hbefore.onTrack st.op
  · rw [hheld.length_eq, List.length_append, World.length_blocks, hlost]
  · obtain ⟨v, v', hst⟩ := (World.sound_start budgets hookState).of_mem_steps hst
    obtain ⟨evs, hlog, hreq⟩ := hst.effect.requests hst.count_eq
    rw [hst.events_eq hlog]
    exact hreq.imp_left fun ⟨why, ho, hnone⟩ => ⟨why, hst.check_eq ho, ho, hnone⟩

end RingList
