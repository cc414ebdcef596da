import RingList.Proofs.DoubleEnded

/-!
# Comparing lists and feeding hashers

Comparing two lists of the same length calls the relation for their values pairwise, up to the first
pair that it refuses; lists of different lengths are told apart without a call. What a list feeds a
hasher is a function of its values. Both leave all lists as they are.

* `equal_settles`: what comparing two lists answers, and the calls that it makes (`equating`).
* `hash_yields`: what a list feeds a hasher.
-/

set_option autoImplicit false

namespace RingList

variable {η σ α β : Type} {B : Behaviour η σ α} {v : View η σ α} {l m : Addr} {k k' : Strip η α}

/-! ## Calls of a relation -/

/-- The answer of a matching hook; a hook that panics has none. -/
def Reply.holds : Reply Bool → Bool
  | .returns b => b
  | .panics => false

theorem callMatching_settles (B : Behaviour η σ α) (h : η) (x key : α) (v : View η σ α) :
    Settles (callMatching B h x key) v (B.matching h v.hookState x key).1.holds
      ((B.matching h v.hookState x key).1.stop .matching)
      (v.heeding [.matching h x key (B.matching h v.hookState x key).1]
        (B.matching h v.hookState x key).2) := by
  have hrun : ∀ s : Store η σ α, callMatching B h x key s =
      (B.matching h s.hookState x key).1.settle .matching
        ({ s with hookState := (B.matching h s.hookState x key).2 }.log
          (.matching h x key (B.matching h s.hookState x key).1)) := fun s => by
    simp [callMatching, run_bind, noteCall]
  cases hr : (B.matching h v.hookState x key).1 with
  | returns b =>
    intro s hs
    refine ⟨_, ?_, hs.noteCall (.matching h x key (.returns b)) _⟩
    rw [hrun, hs.hookState, hr]
    rfl
  | panics =>
    intro s hs
    refine ⟨_, ?_, hs.noteCall (.matching h x key .panics) _⟩
    rw [hrun, hs.hookState, hr]
    rfl

/-- How the comparison of two sequences goes. -/
structure Comparison (η σ α : Type) where
  events : List (Event η α)
  hookState : σ
  reply : Reply Bool

/-- Compares two sequences pairwise, up to the first pair that the relation refuses. -/
def comparing (B : Behaviour η σ α) (rel : η) (σ₀ : σ) : List α → List α → Comparison η σ α
  | [], ys => ⟨[], σ₀, .returns ys.isEmpty⟩
  | _ :: _, [] => ⟨[], σ₀, .returns false⟩
  | x :: xs, y :: ys =>
    let called := B.matching rel σ₀ x y
    if called.1.holds then
      let rest := comparing B rel called.2 xs ys
      { rest with events := .matching rel x y called.1 :: rest.events }
    else ⟨[.matching rel x y called.1], called.2, called.1⟩

theorem comparing_of_holds {rel : η} {σ₀ : σ} {x y : α} {xs ys : List α}
    (h : (B.matching rel σ₀ x y).1 = .returns true) :
    comparing B rel σ₀ (x :: xs) (y :: ys) =
      { comparing B rel (B.matching rel σ₀ x y).2 xs ys with
        events := .matching rel x y (.returns true) ::
          (comparing B rel (B.matching rel σ₀ x y).2 xs ys).events } := by
  simp [comparing, h, Reply.holds]

theorem comparing_of_not_holds {rel : η} {σ₀ : σ} {x y : α} {xs ys : List α}
    (h : (B.matching rel σ₀ x y).1.holds = false) :
    comparing B rel σ₀ (x :: xs) (y :: ys) =
      ⟨[.matching rel x y (B.matching rel σ₀ x y).1], (B.matching rel σ₀ x y).2,
        (B.matching rel σ₀ x y).1⟩ := by
  simp [comparing, h]

/-- Compares two sequences: those of different lengths are not equal. -/
def equating (B : Behaviour η σ α) (rel : η) (σ₀ : σ) (xs ys : List α) : Comparison η σ α :=
  if xs.length = ys.length then comparing B rel σ₀ xs ys else ⟨[], σ₀, .returns false⟩

/-- A relation that computes `eq` holds of all pairs or not. -/
theorem reply_comparing {rel : η} {eq : α → α → Bool}
    (hrel : ∀ s x y, (B.matching rel s x y).1 = .returns (eq x y)) {xs ys : List α}
    (hlen : xs.length = ys.length) (σ₀ : σ) :
    (comparing B rel σ₀ xs ys).reply = .returns ((xs.zip ys).all fun p => eq p.1 p.2) := by
  induction xs generalizing ys σ₀ with
  | nil =>
    obtain rfl := List.eq_nil_of_length_eq_zero hlen.symm
    rfl
  | cons x xs ih =>
    cases ys with
    | nil => cases hlen
    | cons y ys =>
      cases heq : eq x y with
      | true =>
        rw [comparing_of_holds (heq ▸ hrel σ₀ x y)]
        simpa [heq] using ih (Nat.succ.inj hlen) _
      | false =>
        have hrefuse := hrel σ₀ x y
        rw [heq] at hrefuse
        rw [comparing_of_not_holds (by rw [hrefuse]; rfl), hrefuse]
        simp [heq]

/-! ## Two lists -/

/-- **Comparing what is left of two lists**, as many values of the one as of the other. -/
theorem equalFrom_settles (rel : η) (back back' : Addr) : ∀ {ys ys' xs xs' : List (Addr × α)}
    {fuel : Nat} {v : View η σ α}, (l, k) ∈ v.lists → (m, k') ∈ v.lists → k.entries = xs ++ ys →
    k'.entries = xs' ++ ys' → ys.length = ys'.length → ys.length < fuel →
    let c := comparing B rel v.hookState (ys.map (·.2)) (ys'.map (·.2))
    Settles (equalFrom B rel fuel ⟨startOf l ys, back, ys.length⟩ ⟨startOf m ys', back', ys'.length⟩)
      v c.reply.holds (c.reply.stop .matching) (v.heeding c.events c.hookState)
  -- both lists are split at the places of the iterators, which move on by one pair at a time
  | [], [], _, _, fuel + 1, v, _, _, _, _, _, _ => by
    intro c s hs
    exact ⟨s, rfl, by simpa [c, comparing, View.heeding] using hs⟩
  | (a, x) :: ys, (b, y) :: ys', xs, xs', fuel + 1, v, hl, hm, hk, hk', hlen, hf => by
    intro c
    unfold equalFrom
    refine (next_yields hl hk back ys.length).bind_settles
      ((next_yields hm hk' back' ys'.length).bind_settles ?_)
    have hcall := callMatching_settles B rel x y v
    rcases hr : (B.matching rel v.hookState x y).1 with (_ | _) | _
    · rw [hr] at hcall
      have hc : c = _ := comparing_of_not_holds (by rw [hr]; rfl)
      rw [hc, hr]
      exact Yields.bind_settles hcall (yields_pure false _)
    · rw [hr] at hcall
      have ih := equalFrom_settles rel back back' (v := v.heeding
          [.matching rel x y (.returns true)] (B.matching rel v.hookState x y).2) hl hm
        (show k.entries = (xs ++ [(a, x)]) ++ ys by simp [hk])
        (show k'.entries = (xs' ++ [(b, y)]) ++ ys' by simp [hk']) (by simpa using hlen)
        (show ys.length < fuel by simpa using hf)
      have hc : c = _ := comparing_of_holds hr
      simp only [View.heeding_heeding] at ih
      rw [hc]
      exact Yields.bind_settles hcall ih
    · rw [hr] at hcall
      have hc : c = _ := comparing_of_not_holds (by rw [hr]; rfl)
      rw [hc, hr]
      exact Stops.bind hcall

/-- **Two lists are compared.** -/
theorem equal_settles (rel : η) (hl : (l, k) ∈ v.lists) (hm : (m, k') ∈ v.lists) :
    let c := equating B rel v.hookState k.values k'.values
    Settles (equal B l m rel) v c.reply.holds (c.reply.stop .matching)
      (v.heeding c.events c.hookState) := by
  intro c
  unfold equal
  refine (length_yields hl).bind_settles ((length_yields hm).bind_settles ?_)
  have hvalues : (k.values.length = k'.values.length) ↔ k.entries.length = k'.entries.length := by
    simp [Strip.values]
  by_cases hlen : k.entries.length = k'.entries.length
  · have hc : c = comparing B rel v.hookState k.values k'.values := if_pos (hvalues.2 hlen)
    rw [if_neg (not_not.2 hlen), hc]
    exact (iterStart_yields hl).bind_settles ((iterStart_yields hm).bind_settles
      (equalFrom_settles rel _ _ hl hm (List.nil_append _).symm (List.nil_append _).symm hlen
        (Nat.lt_succ_self _)))
  · have hc : c = ⟨[], v.hookState, .returns false⟩ := if_neg fun h => hlen (hvalues.1 h)
    rw [if_pos hlen, hc]
    intro s hs
    exact ⟨s, rfl, by simpa [View.heeding] using hs⟩

/-! ## Hash feeds -/

theorem values_yields (hl : (l, k) ∈ v.lists) : Yields (values l) v k.values v :=
  (iterStart_yields hl).bind ((Iter.at_start l k.entries).rest hl .front List.infix_rfl)

/-- **What a list feeds a hasher.** -/
theorem hash_yields (bytes : α → List UInt8) (hl : (l, k) ∈ v.lists) :
    Yields (hash bytes l) v (hashFeed bytes k.values) v := by
  have hlen : hashFeed bytes k.values =
      littleEndian 8 k.entries.length ++ k.values.flatMap bytes := by
    simp [hashFeed, Strip.values]
  rw [hlen]
  exact (length_yields hl).bind ((values_yields hl).bind (yields_pure _ v))

/-- Values that feed the same bytes pairwise make the same feed. -/
theorem hashFeed_congr {bytes : α → List UInt8} {xs ys : List α}
    (h : List.Forall₂ (fun x y => bytes x = bytes y) xs ys) :
    hashFeed bytes xs = hashFeed bytes ys := by
  have hflat : xs.flatMap bytes = ys.flatMap bytes := by
    induction h with
    | nil => rfl
    | cons hxy h ih => rw [List.flatMap_cons, List.flatMap_cons, hxy, ih]
  unfold hashFeed
  rw [h.length_eq, hflat]

/-! ## Steps -/

section
variable {w : World η σ α} {op : Op η α}

/-- An operation ends as its action does. -/
theorem World.Sound.perform_of_settles {act : Action η σ α β} {answer : β → Answer η α} {b : β}
    {stop : Option Stop} {v' : View η σ α} (hw : w.Sound v) (hc : op.check w = .ok ())
    (hact : op.act B (op.takes w) = Op.keeping (op.takes w) answer act)
    (hend : Settles act v b stop v') :
    (w.perform B op).1 = .ofStop (answer b) stop ∧ (w.perform B op).2.store.Shows v' := by
  rw [perform_of_ok hc]
  cases stop with
  | none =>
    obtain ⟨s', hrun, hs'⟩ := hend w.store hw.shows
    have hdone := proceed_of_ok ((congrFun hact _).trans (bind_ok hrun))
    simp only [hdone]
    exact ⟨rfl, hs'⟩
  | some e =>
    obtain ⟨s', hrun, hs'⟩ := hend w.store hw.shows
    have hdone := proceed_of_error ((congrFun hact _).trans (bind_error hrun))
    simp only [hdone]
    exact ⟨rfl, hs'⟩

theorem World.check_equal (hlists : l ∈ w.holdings.lists) (hlists' : m ∈ w.holdings.lists)
    (rel : η) : (Op.equal l m rel : Op η α).check w = .ok () := by
  show (w.expectList l >>= fun _ => w.expectList m) = .ok ()
  rw [expectList_of_lists hlists, expectList_of_lists hlists']
  rfl

/-- **A program compares two lists.** -/
theorem World.Sound.perform_equal (rel : η) (hw : w.Sound v) (hl : (l, k) ∈ v.lists)
    (hm : (m, k') ∈ v.lists) (hlists : l ∈ w.holdings.lists) (hlists' : m ∈ w.holdings.lists) :
    let c := equating B rel v.hookState k.values k'.values
    (w.perform B (.equal l m rel)).1 = .ofStop (.truth c.reply.holds) (c.reply.stop .matching) ∧
      (w.perform B (.equal l m rel)).2.store.Shows (v.heeding c.events c.hookState) :=
  hw.perform_of_settles (check_equal hlists hlists' rel) rfl (equal_settles rel hl hm)

end

end RingList
