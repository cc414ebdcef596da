import RingList.Proofs.Consulting

/-!
# Equality of lists is pointwise

Two lists are equal just if they have the same length and the relation between values holds of the
values in the same places (`Pointwise`), whatever relation this is: nothing is assumed of it, not even
that a value is equal to itself. So equality of lists has the laws that the relation has on the values
of the lists (`Pointwise.refl`, `Pointwise.symm`, `Pointwise.trans`), and tells lists with the same
values apart in no way.

* `World.Sound.compares`: what a comparison answers, and the calls that it makes.
* `World.equal_laws`: the laws of equality in all runs.
-/

set_option autoImplicit false

namespace RingList

variable {η σ α : Type} {B : Behaviour η σ α} {rel : η} {r : α → α → Bool} {xs ys zs : List α}

/-! ## Lifting a relation -/

/-- Sequences of the same length whose values are related in each place. -/
def Pointwise (r : α → α → Bool) (xs ys : List α) : Prop :=
  xs.length = ys.length ∧
    ∀ (i : Nat) (x y : α), xs[i]? = some x → ys[i]? = some y → r x y = true

namespace Pointwise

theorem iff_all : Pointwise r xs ys ↔
    xs.length = ys.length ∧ ((xs.zip ys).all fun p => r p.1 p.2) = true := by
  refine and_congr_right fun _ => ?_
  rw [List.all_eq_true]
  constructor
  · intro h p hp
    obtain ⟨i, hi⟩ := List.mem_iff_getElem?.1 hp
    obtain ⟨hx, hy⟩ := List.getElem?_zip_eq_some.1 hi
    exact h i p.1 p.2 hx hy
  · intro h i x y hx hy
    exact h (x, y) (List.mem_of_getElem? (List.getElem?_zip_eq_some.2 ⟨hx, hy⟩))

theorem iff_forall₂ : Pointwise r xs ys ↔ List.Forall₂ (fun x y => r x y = true) xs ys := by
  rw [iff_all, List.forall₂_iff_zip, List.all_eq_true]
  exact and_congr_right fun _ => ⟨fun h _ _ hp => h _ hp, fun h _ hp => h hp⟩

theorem imp {r' : α → α → Bool} (h : ∀ x ∈ xs, ∀ y ∈ ys, r x y = true → r' x y = true)
    (hr : Pointwise r xs ys) : Pointwise r' xs ys :=
  ⟨hr.1, fun i x y hx hy =>
    h x (List.mem_of_getElem? hx) y (List.mem_of_getElem? hy) (hr.2 i x y hx hy)⟩

theorem refl (h : ∀ x ∈ xs, r x x = true) : Pointwise r xs xs := by
  refine ⟨rfl, fun i x y hx hy => ?_⟩
  obtain rfl : x = y := Option.some.inj (hx.symm.trans hy)
  exact h x (List.mem_of_getElem? hx)

theorem symm (hsymm : ∀ x ∈ xs, ∀ y ∈ ys, r x y = true → r y x = true) (h : Pointwise r xs ys) :
    Pointwise r ys xs := by
  refine ⟨h.1.symm, fun i y x hy hx => ?_⟩
  exact hsymm x (List.mem_of_getElem? hx) y (List.mem_of_getElem? hy) (h.2 i x y hx hy)

theorem trans (htrans : ∀ x ∈ xs, ∀ y ∈ ys, ∀ z ∈ zs, r x y = true → r y z = true → r x z = true)
    (h : Pointwise r xs ys) (h' : Pointwise r ys zs) : Pointwise r xs zs := by
  refine ⟨h.1.trans h'.1, fun i x z hx hz => ?_⟩
  -- the sequence between the two has a value in this place too
  have hi : i < ys.length := h.1 ▸ (List.getElem?_eq_some_iff.1 hx).1
  have hy : ys[i]? = some ys[i] := List.getElem?_eq_getElem hi
  exact htrans x (List.mem_of_getElem? hx) _ (List.mem_of_getElem? hy) z (List.mem_of_getElem? hz)
    (h.2 i x _ hx hy) (h'.2 i _ z hy hz)

end Pointwise

/-! ## Calls -/

/-- The hook computes a relation between values, whatever state it is in. -/
def Behaviour.Computes (B : Behaviour η σ α) (rel : η) (r : α → α → Bool) : Prop :=
  ∀ s x y, (B.matching rel s x y).1 = .returns (r x y)

/-- Sequences of the same length are compared by calls for the pairs of their values. -/
theorem comparing_eq_consulting (hlen : xs.length = ys.length) (s : σ) :
    comparing B rel s xs ys = consulting B rel true s (xs.zip ys) := by
  induction xs generalizing ys s with
  | nil =>
    obtain rfl := List.eq_nil_of_length_eq_zero hlen.symm
    rfl
  | cons x xs ih =>
    cases ys with
    | nil => cases hlen
    | cons y ys =>
      by_cases hr : (B.matching rel s x y).1 = .returns true
      · rw [comparing_of_holds hr, List.zip_cons_cons, consulting_passes hr, ih (Nat.succ.inj hlen)]
      · have hno : (B.matching rel s x y).1.holds = false := by
          rcases hreply : (B.matching rel s x y).1 with (_ | _) | _
          · rfl
          · exact absurd hreply hr
          · rfl
        rw [comparing_of_not_holds hno, List.zip_cons_cons, consulting_halts hr]

/-- The calls for sequences of the same length, up to and including the first pair of which the
relation does not hold. -/
def pointwiseEvents (rel : η) (r : α → α → Bool) (xs ys : List α) : List (Event η α) :=
  matchEvents rel (((xs.zip ys).take ((xs.zip ys).findIdx (fun p => !r p.1 p.2) + 1)).map
    fun p => (p, .returns (r p.1 p.2)))

theorem events_comparing (hrel : B.Computes rel r) (hlen : xs.length = ys.length) (s : σ) :
    (comparing B rel s xs ys).events = pointwiseEvents rel r xs ys := by
  have hcomputes : ∀ p ∈ xs.zip ys, ∀ s, (B.matching rel s p.1 p.2).1 = .returns (r p.1 p.2) :=
    fun p _ s => hrel s p.1 p.2
  have hzip : (xs.zip ys).zip ((xs.zip ys).map fun p => (.returns (r p.1 p.2) : Reply Bool)) =
      (xs.zip ys).map fun p => (p, .returns (r p.1 p.2)) := List.map_prod_left_eq_zip.symm
  rw [comparing_eq_consulting hlen]
  simp only [consulting, matchReplies_of_computes hcomputes, haltAt_of_computes hcomputes, hzip,
    pointwiseEvents, List.map_take]
  simp

/-! ## Steps -/

/-- **How two sequences of values are compared** by a hook that computes `r`. -/
structure Step.Compares (st : Step η σ α) (rel : η) (r : α → α → Bool) (xs ys : List α) : Prop where
  answered : ∃ b, st.outcome = .answered (.truth b)
  pointwise : st.outcome = .answered (.truth true) ↔ Pointwise r xs ys
  /-- The hook is called for one pair after another, with the value of the first sequence first. -/
  calls : xs.length = ys.length → st.events = pointwiseEvents rel r xs ys
  silent : xs.length ≠ ys.length → st.events = []
  heap : st.after.store.heap = st.before.store.heap
  budgets : st.after.store.budgets = st.before.store.budgets
  holdings : st.after.holdings = st.before.holdings

section
variable {w : World η σ α} {v : View η σ α} {l m : Addr}

theorem World.Sound.compares (hs : w.Sound v) (hl : l ∈ w.holdings.lists)
    (hm : m ∈ w.holdings.lists) (hrel : B.Computes rel r) :
    (w.stepOf B (.equal l m rel)).Compares rel r (w.valuesOf l) (w.valuesOf m) := by
  obtain ⟨k, hk⟩ := hs.mem_lists (owners_of_lists hl)
  obtain ⟨k', hk'⟩ := hs.mem_lists (owners_of_lists hm)
  rw [valuesOf_eq hs hk, valuesOf_eq hs hk']
  obtain ⟨houtcome, hst⟩ := hs.consults (B := B) (check_equal hl hm rel) rfl rfl
    (equal_keeps B l m rel) (equal_settles rel hk hk')
  by_cases hlen : k.values.length = k'.values.length
  · have hc : equating B rel v.hookState k.values k'.values = _ := if_pos hlen
    rw [hc] at hst houtcome
    rw [reply_comparing hrel hlen] at houtcome
    refine ⟨⟨_, houtcome⟩, ?_, fun _ => hst.events.trans (events_comparing hrel hlen _),
      fun hne => absurd hlen hne, hst.heap, hst.budgets, hst.holdings⟩
    rw [houtcome, Pointwise.iff_all]
    simp [Outcome.ofStop, Reply.stop, Reply.holds, hlen]
  · have hc : equating B rel v.hookState k.values k'.values = _ := if_neg hlen
    rw [hc] at hst houtcome
    refine ⟨⟨_, houtcome⟩, ?_, fun h => absurd h hlen, fun _ => hst.events, hst.heap, hst.budgets,
      hst.holdings⟩
    rw [houtcome]
    constructor
    · intro h
      cases h
    · exact fun h => absurd h.1 hlen

/-- Comparisons of the same values answer the same after the same calls. -/
theorem Step.Compares.congr {τ : Type} {st : Step η σ α} {st' : Step η τ α}
    (h : st.Compares rel r xs ys) (h' : st'.Compares rel r xs ys) :
    st'.outcome = st.outcome ∧ st'.events = st.events := by
  constructor
  · have hiff := h'.pointwise.trans h.pointwise.symm
    obtain ⟨b, hb⟩ := h.answered
    obtain ⟨b', hb'⟩ := h'.answered
    rw [hb, hb'] at hiff ⊢
    cases b <;> cases b' <;> simp_all
  · by_cases hlen : xs.length = ys.length
    · rw [h'.calls hlen, h.calls hlen]
    · rw [h'.silent hlen, h.silent hlen]

/-- Whether two lists are not equal is the opposite of whether they are. -/
theorem World.Sound.read_unequal (hs : w.Sound v) (hl : l ∈ w.holdings.lists)
    (hm : m ∈ w.holdings.lists) (hrel : B.Computes rel r) :
    ∃ b, (w.perform B (.equal l m rel)).1 = .answered (.truth b) ∧
      w.read (equal B l m rel) = .ok b ∧ w.read (unequal B l m rel) = .ok !b := by
  obtain ⟨k, hk⟩ := hs.mem_lists (owners_of_lists hl)
  obtain ⟨k', hk'⟩ := hs.mem_lists (owners_of_lists hm)
  obtain ⟨houtcome, -⟩ := hs.perform_equal (B := B) rel hk hk' hl hm
  have hend : Settles (equal B l m rel) v _ _ _ := equal_settles rel hk hk'
  obtain ⟨b, hb⟩ : ∃ b, (equating B rel v.hookState k.values k'.values).reply = .returns b := by
    unfold equating
    split
    · exact ⟨_, reply_comparing hrel ‹_› _⟩
    · exact ⟨_, rfl⟩
  rw [hb] at houtcome hend
  exact ⟨b, houtcome, hs.read_eq hend, hs.read_eq (hend.map (!·))⟩

end

/-! ## Laws of equality -/

/-- The program finds two of its lists equal. -/
def World.Equals (B : Behaviour η σ α) (w : World η σ α) (rel : η) (l m : Addr) : Prop :=
  (w.perform B (.equal l m rel)).1 = .answered (.truth true)

theorem World.Sound.equals_iff {w : World η σ α} {v : View η σ α} {l m : Addr} (hs : w.Sound v)
    (hl : l ∈ w.holdings.lists) (hm : m ∈ w.holdings.lists) (hrel : B.Computes rel r) :
    w.Equals B rel l m ↔ Pointwise r (w.valuesOf l) (w.valuesOf m) :=
  (hs.compares hl hm hrel).pointwise

/-- The values in a class of lists. -/
def World.valuesIn (w : World η σ α) (C : Set Addr) : Set α := {x | ∃ l ∈ C, x ∈ w.valuesOf l}

/-- **The laws of the equality of lists** that a relation between values makes. -/
structure World.EqualLaws (B : Behaviour η σ α) (w : World η σ α) (rel : η) (r : α → α → Bool) :
    Prop where
  length : ∀ l ∈ w.holdings.lists, w.read (RingList.length l) = .ok (w.valuesOf l).length
  compares : ∀ l ∈ w.holdings.lists, ∀ m ∈ w.holdings.lists,
    (w.stepOf B (.equal l m rel)).Compares rel r (w.valuesOf l) (w.valuesOf m)
  negation : ∀ l ∈ w.holdings.lists, ∀ m ∈ w.holdings.lists, ∃ b,
    (w.perform B (.equal l m rel)).1 = .answered (.truth b) ∧
      w.read (equal B l m rel) = .ok b ∧ w.read (unequal B l m rel) = .ok !b
  reflexive : ∀ C : Set Addr, (∀ l ∈ C, l ∈ w.holdings.lists) →
    (∀ x ∈ w.valuesIn C, r x x = true) → ∀ l ∈ C, w.Equals B rel l l
  symmetric : ∀ C : Set Addr, (∀ l ∈ C, l ∈ w.holdings.lists) →
    (∀ x ∈ w.valuesIn C, ∀ y ∈ w.valuesIn C, r x y = true → r y x = true) →
    ∀ l ∈ C, ∀ m ∈ C, w.Equals B rel l m → w.Equals B rel m l
  transitive : ∀ C : Set Addr, (∀ l ∈ C, l ∈ w.holdings.lists) →
    (∀ x ∈ w.valuesIn C, ∀ y ∈ w.valuesIn C, ∀ z ∈ w.valuesIn C,
      r x y = true → r y z = true → r x z = true) →
    ∀ l ∈ C, ∀ m ∈ C, ∀ n ∈ C, w.Equals B rel l m → w.Equals B rel m n → w.Equals B rel l n
  /-- Nothing but the values counts: lists of another program with the same values are compared in the
  same way, whatever nodes, hooks and allocators they have. -/
  invariant : ∀ {τ : Type} {B' : Behaviour η τ α} {budgets : Array (Option Nat)} {hookState : τ}
    {w' : World η τ α}, w'.Reachable B' budgets hookState → B'.Computes rel r →
    ∀ l ∈ w.holdings.lists, ∀ m ∈ w.holdings.lists, ∀ l' ∈ w'.holdings.lists,
    ∀ m' ∈ w'.holdings.lists, w'.valuesOf l' = w.valuesOf l → w'.valuesOf m' = w.valuesOf m →
    (w'.stepOf B' (.equal l' m' rel)).outcome = (w.stepOf B (.equal l m rel)).outcome ∧
      (w'.stepOf B' (.equal l' m' rel)).events = (w.stepOf B (.equal l m rel)).events

section
variable {budgets : Array (Option Nat)} {hookState : σ} {w : World η σ α}

/-- **Equality of the lists of a program** is the pointwise lifting of the relation between values,
whatever this relation is. -/
theorem World.equal_laws (hw : w.Reachable B budgets hookState) (hrel : B.Computes rel r) :
    w.EqualLaws B rel r := by
  obtain ⟨v, -, hs, -⟩ := hw.sound
  constructor
  case length =>
    intro l hl
    obtain ⟨k, hk⟩ := hs.mem_lists (owners_of_lists hl)
    rw [valuesOf_eq hs hk]
    exact (hs.read_eq (length_yields hk)).trans (congrArg _ (List.length_map _).symm)
  case compares => exact fun l hl m hm => hs.compares hl hm hrel
  case negation => exact fun l hl m hm => hs.read_unequal hl hm hrel
  case reflexive =>
    intro C hC hrefl l hl
    exact (hs.equals_iff (hC l hl) (hC l hl) hrel).2 (.refl fun x hx => hrefl x ⟨l, hl, hx⟩)
  case symmetric =>
    intro C hC hsymm l hl m hm h
    rw [hs.equals_iff (hC l hl) (hC m hm) hrel] at h
    exact (hs.equals_iff (hC m hm) (hC l hl) hrel).2
      (h.symm fun x hx y hy => hsymm x ⟨l, hl, hx⟩ y ⟨m, hm, hy⟩)
  case transitive =>
    intro C hC htrans l hl m hm n hn h h'
    rw [hs.equals_iff (hC l hl) (hC m hm) hrel] at h
    rw [hs.equals_iff (hC m hm) (hC n hn) hrel] at h'
    exact (hs.equals_iff (hC l hl) (hC n hn) hrel).2
      (.trans (fun x hx y hy z hz => htrans x ⟨l, hl, hx⟩ y ⟨m, hm, hy⟩ z ⟨n, hn, hz⟩) h h')
  case invariant =>
    intro τ B' budgets' hookState' w' hw' hrel' l hl m hm l' hl' m' hm' hvalues hvalues'
    obtain ⟨v', -, hs', -⟩ := hw'.sound
    have hcompares := hs'.compares hl' hm' hrel'
    rw [hvalues, hvalues'] at hcompares
    exact (hs.compares hl hm hrel).congr hcompares

/-- *At most* is no symmetric relation, and equality of lists of numbers that is made from it is not
symmetric either. Two lists with the values 1 and 2 come about in different ways. -/
theorem World.equal_laws_atMost :
    let B : Behaviour Unit Nat Nat := {
      dup _ s x := (.returns (some x), s)
      free _ s _ := (.returns (), s)
      freeUnwinding _ s _ := s
      matching _ s x y := (.returns (decide (x ≤ y)), s + 1) }
    let w := ((World.start #[none] 0).run B [.collect [1, 2], .create (.limited 0), .addHead 3 1,
      .addHead 3 2, .rotate 3, .collect [1, 3]]).2
    B.Computes () (fun x y => decide (x ≤ y)) ∧ w.valuesOf 0 = w.valuesOf 3 ∧
      (w.run B [.equal 0 6 (), .equal 6 0 (), .equal 3 6 (), .equal 6 3 ()]).1 =
        [.answered (.truth true), .answered (.truth false), .answered (.truth true),
          .answered (.truth false)] ∧
      w.EqualLaws B () fun x y => decide (x ≤ y) := by
  intro B w
  have hw : w.Reachable B #[none] 0 := ⟨_, rfl⟩
  have hrel : B.Computes () (fun x y => decide (x ≤ y)) := fun _ _ _ => rfl
  exact ⟨hrel, by decide +kernel, by decide +kernel, World.equal_laws hw hrel⟩

end

end RingList
