import RingList.Proofs.Consulting
import RingList.Proofs.Duplication
import RingList.Proofs.Seats

/-!
# Searches

A search calls the list's hook for matching, or the fallback if the list has none, with one value
after another and the key, and ends with the first call that does not reply `false`. Which call this
is depends on the replies alone, and these may depend on all the calls before: the first match is the
first in this sequence of calls.

* `searchFrom_settles`, `search_settles`: what a search answers, and the calls that it makes.
* `World.search_laws`: every search of a list of a program abides by this.
-/

set_option autoImplicit false

namespace RingList

variable {η σ α : Type} {B : Behaviour η σ α} {l : Addr} {k : Strip η α}

/-- The pairs that a search of these entries calls the hook for. -/
def searchPairs (es : List (Addr × α)) (key : α) : List (α × α) := es.map fun e => (e.2, key)

/-- **A search of what is left of a list**, by a cursor at the first of these entries. -/
theorem searchFrom_settles (matcher : η) (key : α) : ∀ {ys xs : List (Addr × α)} {fuel : Nat}
    {v : View η σ α}, (l, k) ∈ v.lists → k.entries = xs ++ ys → ys.length < fuel →
    let c := consulting B matcher false v.hookState (searchPairs ys key)
    Settles (searchFrom B matcher key fuel ⟨(ys.map (·.1)).head?, l, .forward⟩) v
      (ys[B.haltAt matcher false v.hookState (searchPairs ys key)]?.map (·.1))
      (c.reply.stop .matching) (v.heeding c.events c.hookState)
  -- the entries are split at the place of the cursor, which moves on by one entry at a time
  | [], xs, fuel + 1, v, _, _, _ => by
    intro c
    have hv : v.heeding c.events c.hookState = v := by
      simp [c, consulting, searchPairs, matchEvents, Behaviour.matchReplies, Behaviour.matchState,
        View.heeding]
    rw [hv]
    exact (step_yields_none v rfl).bind (yields_pure none v)
  | (a, x) :: ys, xs, fuel + 1, v, hl, hk, hf => by
    intro c
    have hnodes : Direction.forward.order k.nodes = xs.map (·.1) ++ a :: ys.map (·.1) := by
      simp [Direction.order, Strip.nodes, hk]
    have hcall := callMatching_settles B matcher x key v
    unfold searchFrom
    refine (step_yields hl hnodes rfl).bind_settles
      ((value_yields hl (show (a, x) ∈ k.entries by simp [hk])).bind_settles ?_)
    rcases hr : (B.matching matcher v.hookState x key).1 with (_ | _) | _
    · rw [hr] at hcall
      have ih := searchFrom_settles matcher key (v := v.heeding
          [.matching matcher x key (.returns false)] (B.matching matcher v.hookState x key).2) hl
        (show k.entries = (xs ++ [(a, x)]) ++ ys by simp [hk]) (show ys.length < fuel by simpa using hf)
      have hc : c = _ := consulting_passes hr
      have hend : B.haltAt matcher false v.hookState (searchPairs ((a, x) :: ys) key) = _ :=
        haltAt_passes hr
      simp only [View.heeding_heeding] at ih
      rw [hc, hend]
      exact Yields.bind_settles hcall ih
    · rw [hr] at hcall
      have hne : (B.matching matcher v.hookState x key).1 ≠ .returns false := by simp [hr]
      have hc : c = _ := consulting_halts hne
      have hend : B.haltAt matcher false v.hookState (searchPairs ((a, x) :: ys) key) = 0 :=
        haltAt_halts hne
      rw [hc, hr, hend]
      exact Yields.bind_settles hcall (yields_pure (some a) _)
    · rw [hr] at hcall
      have hc : c = _ := consulting_halts (by simp [hr])
      rw [hc, hr]
      exact Stops.bind hcall

/-- **A list is searched.** -/
theorem search_settles {v : View η σ α} (key : α) (fallback : η) (hl : (l, k) ∈ v.lists) :
    let matcher := k.hooks.matching.getD fallback
    let c := consulting B matcher false v.hookState (searchPairs k.entries key)
    Settles (search B l key fallback) v
      (k.entries[B.haltAt matcher false v.hookState (searchPairs k.entries key)]?.map (·.1))
      (c.reply.stop .matching) (v.heeding c.events c.hookState) := by
  intro matcher c
  unfold search
  refine (hooks_yields hl).bind_settles (Settles.get_bind fun s hs => ?_)
  exact (seat_yields hl .forward).bind_settles
    (searchFrom_settles matcher key hl (List.nil_append _).symm (hs.lists.ring _ hl).length_lt_size)

/-! ## Steps -/

/-- What the hook would reply if it were called for all entries. -/
def Step.searchReplies (B : Behaviour η σ α) (st : Step η σ α) (matcher : η) (es : List (Addr × α))
    (key : α) : List (Reply Bool) :=
  B.matchReplies matcher st.before.store.hookState (searchPairs es key)

/-- The index of the last call, the number of entries if all calls reply `false`. -/
def Step.searchEnd (B : Behaviour η σ α) (st : Step η σ α) (matcher : η) (es : List (Addr × α))
    (key : α) : Nat :=
  (st.searchReplies B matcher es key).findIdx (· != .returns false)

/-- **How these entries are searched** for a key with the hook `matcher`. -/
structure Step.Searches (B : Behaviour η σ α) (st : Step η σ α) (matcher : η) (es : List (Addr × α))
    (key : α) : Prop where
  /-- The hook is called with one value after another and the key, up to and including the first call
  that does not reply `false`, and nothing else happens: no block is asked for or given back. -/
  calls : st.events = matchEvents matcher (((searchPairs es key).zip
    (st.searchReplies B matcher es key)).take (st.searchEnd B matcher es key + 1))
  count : st.events.length = min (st.searchEnd B matcher es key + 1) es.length
  /-- The node is that of the last call, if this replies `true`. -/
  found : ∀ node, st.outcome = .answered (.node (some node)) ↔
    (st.searchReplies B matcher es key)[st.searchEnd B matcher es key]? = some (.returns true) ∧
      es[st.searchEnd B matcher es key]?.map (·.1) = some node
  missed : st.outcome = .answered (.node none) ↔
    ∀ reply ∈ st.searchReplies B matcher es key, reply = .returns false
  /-- The panic goes on to the program. -/
  panicked : st.outcome = .stopped (.panicked .matching) ↔
    (st.searchReplies B matcher es key)[st.searchEnd B matcher es key]? = some .panics
  hookState : st.after.store.hookState = B.matchState matcher st.before.store.hookState
    ((searchPairs es key).take (st.searchEnd B matcher es key + 1))
  /-- All lists stay what they are, and so do all allocators and all that the program holds on to. -/
  heap : st.after.store.heap = st.before.store.heap
  budgets : st.after.store.budgets = st.before.store.budgets
  holdings : st.after.holdings = st.before.holdings

section
variable {budgets : Array (Option Nat)} {hookState : σ} {w : World η σ α} {key : α} {fallback : η}

/-- What a search answers is what comes of its calls. -/
theorem Step.searches {st : Step η σ α} {matcher : η} {es : List (Addr × α)}
    (hst : st.Consults (consulting B matcher false st.before.store.hookState (searchPairs es key)))
    (houtcome : st.outcome = .ofStop (.node (es[st.searchEnd B matcher es key]?.map (·.1)))
      ((consulting B matcher false st.before.store.hookState (searchPairs es key)).reply.stop
        .matching)) : st.Searches B matcher es key := by
  have hpairs : (searchPairs es key).length = es.length := List.length_map _
  have hmissed : _ ↔ ∀ reply ∈ st.searchReplies B matcher es key, reply = .returns false :=
    reply_consulting_goOn
  have hfound : _ ↔ (st.searchReplies B matcher es key)[st.searchEnd B matcher es key]? =
    some (.returns true) := reply_consulting (by simp)
  have hpanicked : _ ↔ (st.searchReplies B matcher es key)[st.searchEnd B matcher es key]? =
    some .panics := reply_consulting (by simp)
  have hlt : st.searchEnd B matcher es key < (searchPairs es key).length ↔ _ := haltAt_lt
  have hcount : _ = min (st.searchEnd B matcher es key + 1) (searchPairs es key).length :=
    length_consulting ..
  rw [hpairs] at hlt hcount
  refine ⟨hst.events, (congrArg List.length hst.events).trans hcount, fun node => ?_, ?_, ?_,
    hst.hookState, hst.heap, hst.budgets, hst.holdings⟩
  -- of the calls, no more than the last reply is needed from here on
  all_goals
    generalize (consulting B matcher false st.before.store.hookState (searchPairs es key)).reply =
      reply at hmissed hfound hpanicked hlt houtcome
    rw [houtcome]
  · rw [← hfound]
    rcases reply with (_ | _) | _
    · have hnone : es[st.searchEnd B matcher es key]? = none := by simpa using hlt
      simp [hnone, Reply.stop, Outcome.ofStop]
    · simp [Reply.stop, Outcome.ofStop]
    · simp [Reply.stop, Outcome.ofStop]
  · rw [← hmissed]
    rcases reply with (_ | _) | _
    · have hnone : es[st.searchEnd B matcher es key]? = none := by simpa using hlt
      simp [hnone, Reply.stop, Outcome.ofStop]
    · simpa [Reply.stop, Outcome.ofStop] using hlt
    · simp [Reply.stop, Outcome.ofStop]
  · rw [← hpanicked]
    cases reply <;> simp [Reply.stop, Outcome.ofStop]

/-- A hook that computes whether a value matches finds the first value of which it holds. -/
theorem Step.Searches.outcome_of_computes {st : Step η σ α} {matcher : η} {es : List (Addr × α)}
    {f : α → Bool} (h : st.Searches B matcher es key)
    (hcomputes : ∀ s x, (B.matching matcher s x key).1 = .returns (f x)) :
    st.outcome = .answered (.node ((es.find? fun e => f e.2).map (·.1))) := by
  have hpairs : ∀ p ∈ searchPairs es key, ∀ s, (B.matching matcher s p.1 p.2).1 =
      .returns (f p.1) := by
    intro p hp s
    obtain ⟨e, -, rfl⟩ := List.mem_map.1 hp
    exact hcomputes s e.2
  have hreplies : st.searchReplies B matcher es key = es.map fun e => .returns (f e.2) := by
    refine (matchReplies_of_computes (f := fun x _ => f x) hpairs).trans ?_
    simp [searchPairs]
  have hend : st.searchEnd B matcher es key = es.findIdx fun e => f e.2 := by
    refine (haltAt_of_computes (f := fun x _ => f x) hpairs).trans ?_
    rw [searchPairs, List.findIdx_map]
    congr 1
    funext e
    simp
  cases hfind : es.find? fun e => f e.2 with
  | none =>
    refine h.missed.2 fun reply hreply => ?_
    rw [hreplies] at hreply
    obtain ⟨e, he, rfl⟩ := List.mem_map.1 hreply
    simpa using List.find?_eq_none.1 hfind e he
  | some e =>
    have hat : es[st.searchEnd B matcher es key]? = some e := by
      rw [hend, ← List.find?_eq_getElem?_findIdx, hfind]
    refine (h.found e.1).2 ⟨?_, by rw [hat]; rfl⟩
    rw [hreplies, List.getElem?_map, hat]
    simpa using List.find?_some hfind

theorem World.Sound.searches {v : View η σ α} (hs : w.Sound v) (hk : (l, k) ∈ v.lists)
    (hl : l ∈ w.holdings.lists) (key : α) (fallback : η) :
    (w.stepOf B (.search l key fallback)).Searches B (k.hooks.matching.getD fallback)
      (w.store.heap.entries l) key := by
  have hcheck : (Op.search l key fallback : Op η α).check w = .ok () := expectList_of_lists hl
  obtain ⟨houtcome, hst⟩ := hs.consults (B := B) hcheck rfl rfl (search_keeps B l key fallback)
    (search_settles key fallback hk)
  rw [← hs.shows.hookState, ← (hs.ring hk).entries_eq] at houtcome hst
  exact Step.searches hst houtcome

/-- **Searches of the lists of a program**, for every key and every hook: the hook of the list, or the
fallback if the list has none. -/
theorem World.search_laws (hw : w.Reachable B budgets hookState) (hl : l ∈ w.holdings.lists)
    (key : α) (fallback : η) : ∃ r, w.store.heap.record? l = some r ∧
      (w.stepOf B (.search l key fallback)).Searches B (r.hooks.matching.getD fallback)
        (w.store.heap.entries l) key := by
  obtain ⟨v, -, hs, -⟩ := hw.sound
  obtain ⟨k, hk⟩ := hs.mem_lists (owners_of_lists hl)
  exact ⟨_, (hs.ring hk).record?_eq, hs.searches hk hl key fallback⟩

/-- The hook of the list counts its calls and panics at the fourth. Searching for 7 takes two calls, and
searching for 8 is not finished. -/
theorem World.search_laws_counting :
    let B : Behaviour Bool Nat Nat := {
      dup _ s x := (.returns (some x), s)
      free _ s _ := (.returns (), s)
      freeUnwinding _ s _ := s
      matching h s x key :=
        if h then (if s = 3 then .panics else .returns (x == key), s + 1)
        else (.returns (decide (key < x)), s) }
    let w := ((World.start #[] 0).run B [.collect [5, 7, 9, 7], .installHook 0 .matching true]).2
    (0 ∈ w.holdings.lists ∧ w.store.heap.entries 0 = [(1, 5), (2, 7), (3, 9), (4, 7)]) ∧
      (w.run B [.search 0 7 false, .search 0 8 false]).1 =
        [.answered (.node (some 2)), .stopped (.panicked .matching)] ∧
      ∃ r, w.store.heap.record? 0 = some r ∧
        (w.stepOf B (.search 0 7 false)).Searches B (r.hooks.matching.getD false)
          (w.store.heap.entries 0) 7 := by
  intro B w
  have hw : w.Reachable B #[] 0 := ⟨_, rfl⟩
  have hl : 0 ∈ w.holdings.lists := by decide +kernel
  exact ⟨⟨hl, by decide +kernel⟩, by decide +kernel, World.search_laws hw hl 7 false⟩

end

end RingList
