import RingList.Proofs.Duplication

/-!
# Which outcome a duplication has

Two things can end a duplication early: the allocator serves no more requests, and a value is not
copied. Which of the two comes first is decided by two numbers alone, the requests that the allocator
still serves (`Store.quota`) and the index of the first value that is not copied, because the header
is asked for first and each node is asked for before the hook is called. `Verdict.of` is this
decision, `verdict_copying` follows it along the source's values, and `World.duplicate_verdict` says
that every duplication abides by it.
-/

set_option autoImplicit false

namespace RingList

variable {η σ α : Type} {B : Behaviour η σ α}

/-! ## The requests that are still served -/

/-- The number of requests that the allocator still serves when `size` blocks were handed out: what
is left of its budget, and no more than there are addresses left. -/
def Allocator.quota (source : Allocator) (size : Nat) (budgets : Array (Option Nat)) : Nat :=
  match source with
  | .global => Heap.capacity - size
  | .limited k =>
    match budgets[k]? with
    | none => 0
    | some none => Heap.capacity - size
    | some (some n) => min n (Heap.capacity - size)

def Store.quota (s : Store η σ α) (source : Allocator) : Nat :=
  source.quota s.heap.size s.budgets

namespace View

def quota (v : View η σ α) (source : Allocator) : Nat := source.quota v.fresh v.budgets

/-- A request is served as long as the quota is not used up, and then uses up one. -/
theorem quota_cases (v : View η σ α) (source : Allocator) (kind : BlockKind) :
    (v.serves source = false ∧ v.quota source = 0) ∨
      (v.serves source = true ∧ v.quota source = (v.supply source kind).quota source + 1) := by
  cases source with
  | global =>
    show (decide (v.fresh < Heap.capacity) = false ∧ Heap.capacity - v.fresh = 0) ∨
      (decide (v.fresh < Heap.capacity) = true ∧
        Heap.capacity - v.fresh = Heap.capacity - (v.fresh + 1) + 1)
    rw [decide_eq_false_iff_not, decide_eq_true_iff]
    omega
  | limited k =>
    have hb : (v.supply (.limited k) kind).budgets[k]? = (v.budgets[k]?).map (·.map (· - 1)) := by
      simp [supply, budgetsAfter, Array.getElem?_modify]
    simp only [serves, quota, Allocator.quota, hb, supply_fresh]
    by_cases hroom : v.fresh < Heap.capacity
    · rcases v.budgets[k]? with _ | _ | n
      · simp
      · simp [hroom]
        omega
      · by_cases hn : n = 0
        · simp [hn]
        · simp [hroom, hn]
          omega
    · have hnone : Heap.capacity - v.fresh = 0 := by omega
      rcases v.budgets[k]? with _ | _ | n <;> simp [hroom, hnone]

end View

theorem Store.Shows.quota {s : Store η σ α} {v : View η σ α} (hs : s.Shows v)
    (source : Allocator) : s.quota source = v.quota source := by
  unfold Store.quota View.quota
  rw [hs.fresh, hs.budgets]

/-! ## The verdict -/

/-- The replies of a copying hook that is called for one value after another. -/
def Behaviour.replies (B : Behaviour η σ α) (h : η) : σ → List α → List (Reply (Option α))
  | _, [] => []
  | s, x :: xs => (B.dup h s x).1 :: B.replies h (B.dup h s x).2 xs

/-- The value is not copied. -/
def Reply.fails : Reply (Option α) → Bool
  | .returns none => true
  | _ => false

/-- The event is the call of a copying hook. -/
def Event.isDup : Event η α → Bool
  | .dup _ _ _ => true
  | _ => false

/-- How a duplication ends: why it failed if it did, and how many calls of the hook and how many
requests for blocks it made. -/
structure Verdict where
  stop : Option Stop
  calls : Nat
  requests : Nat
deriving DecidableEq, Repr

/-- **The verdict on the copy of `n` values**, of which the one with the index `j` is the first that
is not copied (`n` if there is none), with an allocator that still serves `b` requests. -/
def Verdict.of (b n j : Nat) : Verdict :=
  if b = 0 then ⟨some (.refused .header), 0, 1⟩
  else if b - 1 < n ∧ b - 1 ≤ j then ⟨some (.refused .node), b - 1, b + 1⟩
  else if j < n then ⟨some .notCopied, j + 1, j + 2⟩
  else ⟨none, n, n + 1⟩

/-- One more value, which is copied into a node that is served. -/
theorem Verdict.of_succ (q n j : Nat) :
    Verdict.of (q + 1 + 1) (n + 1) (j + 1) =
      ⟨(Verdict.of (q + 1) n j).stop, (Verdict.of (q + 1) n j).calls + 1,
        (Verdict.of (q + 1) n j).requests + 1⟩ := by
  unfold Verdict.of
  by_cases hq : q < n ∧ q ≤ j
  · simp [hq]
  · by_cases hj : j < n
    · simp [hq, hj]
    · simp [hq, hj]

theorem Behaviour.length_replies (B : Behaviour η σ α) (h : η) (s : σ) (xs : List α) :
    (B.replies h s xs).length = xs.length := by
  induction xs generalizing s with
  | nil => rfl
  | cons x xs ih => simp [replies, ih]

/-- No more values are handed to the hook than there are. -/
theorem Verdict.calls_le (b n j : Nat) : (Verdict.of b n j).calls ≤ n := by
  unfold Verdict.of
  split_ifs <;> simp only <;> omega

/-- The calls of a copying hook, by the values and the replies. -/
def dupEvents (dup : η) (calls : List (α × Reply (Option α))) : List (Event η α) :=
  calls.map fun p => .dup dup p.1 p.2

section
variable {dup : η} {source : Allocator} {n j : Nat}

/-- **The race along the values**: the quota is used up, or a value is not copied, or both last to
the end. -/
theorem verdict_copying (dup : η) (source : Allocator) (xs : List α) (v : View η σ α)
    (hcalm : .panics ∉ B.replies dup v.hookState xs) :
    let replies := B.replies dup v.hookState xs
    let verdict := Verdict.of (v.quota source + 1) xs.length (replies.findIdx Reply.fails)
    ∃ evs, (copying B dup source v xs).view.log = v.log ++ evs ∧
      (copying B dup source v xs).stop = verdict.stop ∧ requests evs + 1 = verdict.requests ∧
      evs.filter Event.isDup = dupEvents dup ((xs.zip replies).take verdict.calls) := by
  induction xs generalizing v with
  | nil => exact ⟨[], by simp [copying], by simp [copying, Verdict.of], by simp [Verdict.of],
      by simp [dupEvents]⟩
  | cons x xs ih =>
    intro replies verdict
    rcases v.quota_cases source .node with ⟨hserve, hq⟩ | ⟨hserve, hq⟩
    · have hverdict : verdict = ⟨some (.refused .node), 0, 2⟩ := by
        simp [verdict, Verdict.of, hq]
      rw [copying_of_refused hserve, hverdict]
      exact ⟨[.refused source .node], rfl, rfl, rfl, by simp [dupEvents, Event.isDup]⟩
    · have hreplies : replies = (B.dup dup v.hookState x).1 ::
        B.replies dup (B.dup dup v.hookState x).2 xs := rfl
      rcases hd : (B.dup dup v.hookState x).1 with (_ | w) | _
      · have hj : replies.findIdx Reply.fails = 0 := by
          simp [hreplies, hd, List.findIdx_cons, Reply.fails]
        have hverdict : verdict = ⟨some .notCopied, 1, 2⟩ := by
          simp [verdict, Verdict.of, hq, hj]
        rw [copying_of_fails hserve hd, hverdict, hreplies, hd]
        exact ⟨[.served source v.fresh .node, .dup dup x (.returns none),
          .released source v.fresh .node], by simp, rfl, rfl, rfl⟩
      · have hj : replies.findIdx Reply.fails =
            (B.replies dup (B.dup dup v.hookState x).2 xs).findIdx Reply.fails + 1 := by
          simp [hreplies, hd, List.findIdx_cons, Reply.fails]
        obtain ⟨evs, hlog, hstop, hreq, hcalls⟩ := ih ((v.supply source .node).heeding
          [.dup dup x (.returns (some w))] (B.dup dup v.hookState x).2)
          fun hm => hcalm (List.mem_cons_of_mem _ hm)
        rw [copying_of_copies hserve hd]
        simp only [verdict, hq, hj, List.length_cons, Verdict.of_succ]
        refine ⟨.served source v.fresh .node :: .dup dup x (.returns (some w)) :: evs,
          by simpa using hlog, hstop, ?_, ?_⟩
        · rw [requests_served, requests_cons _ rfl]
          exact congrArg (· + 1) hreq
        · rw [hreplies, hd, List.zip_cons_cons, List.take_succ_cons]
          exact congrArg (Event.dup dup x (.returns (some w)) :: ·) hcalls
      · exact absurd (hd ▸ List.mem_cons_self) hcalm

end

/-- Events that destroy values and give back blocks call no copying hook. -/
theorem Destruction.filter_isDup {hooks : Hooks η} {source : Allocator} {l : Addr}
    {es : List (Addr × α)} {stop : Option Stop} {evs : List (Event η α)}
    (h : Destruction hooks source l es stop evs) : evs.filter Event.isDup = [] := by
  refine List.filter_eq_nil_iff.2 fun e he => ?_
  rcases h.mem he with ⟨_, _, _, rfl⟩ | ⟨_, hx⟩
  · exact Bool.false_ne_true
  · cases hx <;> exact Bool.false_ne_true

/-- A destruction that stops does so because a hook panics. -/
theorem Destruction.stop_eq_none {hooks : Hooks η} {source : Allocator} {l : Addr}
    {es : List (Addr × α)} {stop : Option Stop} {evs : List (Event η α)}
    (h : Destruction hooks source l es stop evs) (hfree : ∀ f x, .free f x .panics ∉ evs) :
    stop = none := by
  cases h with
  | complete h hcalm => rfl
  | @interrupted done left a x f evs hes hf h hcalm => exact absurd (by simp) (hfree f x)

theorem verdict_duplicating (v : View η σ α) (k : Strip η α) (fallback : η)
    (hcalm : .panics ∉ B.replies (k.hooks.dup.getD fallback) v.hookState k.values) :
    let dup := k.hooks.dup.getD fallback
    let replies := B.replies dup v.hookState k.values
    let verdict := Verdict.of (v.quota k.allocator) k.values.length (replies.findIdx Reply.fails)
    ∃ evs, (duplicating B v k fallback).view.log = v.log ++ evs ∧
      ((∀ f x, .free f x .panics ∉ evs) → (duplicating B v k fallback).stop = verdict.stop) ∧
      requests evs = verdict.requests ∧
      evs.filter Event.isDup = dupEvents dup ((k.values.zip replies).take verdict.calls) := by
  intro dup replies verdict
  rcases v.quota_cases k.allocator .header with ⟨hserve, hq⟩ | ⟨hserve, hq⟩
  · have hverdict : verdict = ⟨some (.refused .header), 0, 1⟩ := by
      simp [verdict, Verdict.of, hq]
    rw [duplicating_of_refused hserve, hverdict]
    exact ⟨[.refused k.allocator .header], rfl, fun _ => rfl, rfl,
      by simp [dupEvents, Event.isDup]⟩
  · obtain ⟨evs, hlog, hstop, hreq, hcalls⟩ := verdict_copying dup k.allocator k.values
      (v.supply k.allocator .header) hcalm
    rw [← hq] at hstop hreq hcalls
    rw [show copying B _ _ _ _ = copyingAll B v k fallback from rfl] at hlog hstop
    cases hcopy : (copyingAll B v k fallback).stop with
    | none =>
      rw [duplicating_of_complete hserve hcopy]
      refine ⟨.served k.allocator v.fresh .header :: evs, by simp [hlog],
        fun _ => hcopy.symm.trans hstop, ?_, hcalls⟩
      rw [requests_served]
      exact hreq
    | some e =>
      rw [duplicating_of_partial hserve hcopy]
      have hend := destruction_teardown B e.course k.hooks k.allocator v.fresh
        (copyingAll B v k fallback).copies (copyingAll B v k fallback).view.hookState
      refine ⟨.served k.allocator v.fresh .header :: (evs ++ _), by simp [hlog]; rfl,
        fun hfree => ?_, ?_, ?_⟩
      · have hnone := hend.stop_eq_none fun f x hm =>
          hfree f x (List.mem_cons_of_mem _ (List.mem_append_right _ hm))
        simp only [hnone, Option.getD_none]
        exact hcopy.symm.trans hstop
      · rw [requests_served, requests_append, requests_eventsWithHeader]
        exact hreq
      · show (evs ++ _).filter Event.isDup = _
        rw [List.filter_append, hend.filter_isDup, List.append_nil]
        exact hcalls

/-! ## Steps -/

/-- The step ends as the verdict says, and calls the hook `dup` for the first of these values, with
these replies. -/
structure Step.Abides (st : Step η σ α) (verdict : Verdict) (dup : η)
    (calls : List (α × Reply (Option α))) : Prop where
  outcome : st.outcome = .ofStop (.list st.before.store.heap.size) verdict.stop
  requests : requests st.events = verdict.requests
  calls : st.events.filter Event.isDup = dupEvents dup (calls.take verdict.calls)
  count : st.events.countP Event.isDup = verdict.calls

section
variable {budgets : Array (Option Nat)} {hookState : σ} {w : World η σ α} {l : Addr} {r : Record η}

/-- **Which outcome a duplication has**, when the copying hook does not panic and no hook panics while
copies are destroyed: the one that the quota of the list's allocator and the index of the first value
that is not copied decide. The hook is that of the list, or the fallback if there is none, and it is
called for the values in order. -/
theorem World.duplicate_verdict (hw : w.Reachable B budgets hookState)
    (hl : l ∈ w.holdings.lists) (hr : w.store.heap.record? l = some r) (fallback : η)
    (hcalm : .panics ∉ B.replies (r.hooks.dup.getD fallback) w.store.hookState (w.valuesOf l))
    (hfree : ∀ f x, .free f x .panics ∉ (w.stepOf B (.duplicate l fallback)).events) :
    let dup := r.hooks.dup.getD fallback
    let replies := B.replies dup w.store.hookState (w.valuesOf l)
    let verdict := Verdict.of (w.store.quota r.allocator) (w.valuesOf l).length
      (replies.findIdx Reply.fails)
    (w.stepOf B (.duplicate l fallback)).Abides verdict dup ((w.valuesOf l).zip replies) := by
  intro dup replies verdict
  obtain ⟨v, lost, hs, -⟩ := hw.sound
  obtain ⟨k, v', hk, hst, ho, rfl⟩ := hs.duplicate (B := B) hl fallback
  obtain rfl := hs.record_eq hk hr
  have hvalues := valuesOf_eq hs hk
  have hcopy := verdict_duplicating v k fallback
    (hvalues ▸ hs.shows.hookState ▸ hcalm)
  simp only [← hvalues, ← hs.shows.hookState, ← hs.shows.quota] at hcopy
  obtain ⟨evs, hlog, hstop, hreq, hcalls⟩ := hcopy
  obtain rfl := hst.events_eq hlog
  refine ⟨?_, hreq, hcalls, ?_⟩
  · rw [show (w.stepOf B _).outcome = _ from ho, hstop hfree, ← hs.shows.fresh]
    rfl
  · have hle : verdict.calls ≤ (w.valuesOf l).length := Verdict.calls_le _ _ _
    rw [List.countP_eq_length_filter, hcalls, dupEvents, List.length_map, List.length_take,
      List.length_zip, B.length_replies, Nat.min_self]
    exact Nat.min_eq_left hle

/-- The third node is refused although the third value could not be copied either: its node is asked
for first. -/
theorem World.duplicate_verdict_tie :
    let B : Behaviour Unit Nat Nat := {
      dup _ s x := (if s = 2 then .returns none else .returns (some x), s + 1)
      free _ s _ := (.returns (), s)
      freeUnwinding _ s _ := s
      matching _ s _ _ := (.returns false, s) }
    let w := ((World.start #[none] 0).run B [.create (.limited 0), .extend 0 [5, 6, 7, 8],
      .refill 0 (some 3)]).2
    let st := w.stepOf B (.duplicate 0 ())
    let replies := B.replies () 0 [5, 6, 7, 8]
    (0 ∈ w.holdings.lists ∧ w.store.heap.record? 0 = some ⟨4, {}, .limited 0⟩) ∧
      .panics ∉ replies ∧ (∀ f x, .free f x .panics ∉ st.events) ∧
      replies.findIdx Reply.fails = 2 ∧ w.store.quota (.limited 0) = 3 ∧
      Verdict.of 3 4 2 = ⟨some (.refused .node), 2, 4⟩ ∧
      st.Abides (Verdict.of 3 4 2) () ([5, 6, 7, 8].zip replies) := by
  intro B w st replies
  have hw : w.Reachable B #[none] 0 := ⟨_, rfl⟩
  have hl : 0 ∈ w.holdings.lists := by decide +kernel
  have hr : w.store.heap.record? 0 = some ⟨4, {}, .limited 0⟩ := by decide +kernel
  have hcalm : .panics ∉ replies := by decide +kernel
  have hevents : st.events = [.served (.limited 0) 5 .header, .served (.limited 0) 6 .node,
      .dup () 5 (.returns (some 5)), .served (.limited 0) 7 .node, .dup () 6 (.returns (some 6)),
      .refused (.limited 0) .node, .released (.limited 0) 6 .node, .dropped 5,
      .released (.limited 0) 7 .node, .dropped 6, .released (.limited 0) 5 .header] := by
    decide +kernel
  have hfree : ∀ f x, .free f x .panics ∉ st.events := by simp [hevents]
  have hj : replies.findIdx Reply.fails = 2 := by decide +kernel
  have hq : w.store.quota (.limited 0) = 3 := by decide +kernel
  have hvalues : w.valuesOf 0 = [5, 6, 7, 8] := by decide +kernel
  have hstate : w.store.hookState = 0 := by decide +kernel
  have hverdict := World.duplicate_verdict hw hl hr () (by rwa [hvalues, hstate]) hfree
  simp only [hvalues, hstate, hq] at hverdict
  exact ⟨⟨hl, hr⟩, hcalm, hfree, hj, hq, by decide, hverdict⟩

end

end RingList
