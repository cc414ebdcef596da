import RingList.Proofs.Encodings
import RingList.Proofs.Fates
import RingList.Proofs.HookSlots
import RingList.Proofs.Pointwise
import RingList.Proofs.Searching
import RingList.Proofs.Tracks

/-!
# Identity and equality

A list without a hook for matching is searched by identity: two values are the same if they are equal
plain values, or refer to the same object or to the same place of the same base text. In one memory
the same values are equal in every sense of the word, so identity is the finest relation to search by.
It tells the values of a list apart as far as the program keeps them apart: if the values of a type
share no object, each is found where it is.

* `Memory.eq_of_same`: values of one memory that are the same are equal.
* `World.Stocked.run`: values that share no object when they come to lists never do.
* `World.identity_laws`: what is found by identity, and where an equality finds it.
-/

set_option autoImplicit false

namespace RingList

/-! ## Values in memory -/

/-- What the values of a program refer to. -/
structure Memory where
  /-- The texts that objects hold, by the numbers of the objects. -/
  objects : Nat → String
  /-- The texts that slices are pieces of. -/
  bases : Nat → String

/-- The value has the text that it refers to. -/
def Memory.Stores (m : Memory) : Value → Prop
  | .object id text => m.objects id = text
  | .slice base start stop text => ValueType.cut (m.bases base) start stop = some text
  | _ => True

/-- The value is one of the type, and has the text that it refers to. -/
structure Memory.Holds (m : Memory) (t : ValueType) (x : Value) : Prop where
  typed : t.Contains x
  stored : m.Stores x

theorem Value.same_comm (x y : Value) : x.same y = y.same x := by
  cases x <;> cases y <;> simp only [same] <;> grind

theorem Value.same_trans {x y z : Value} (hxy : x.same y = true) (hyz : y.same z = true) :
    x.same z = true := by
  cases x <;> cases y <;> simp only [same] at hxy <;> cases z <;> simp only [same] at hyz ⊢ <;> grind

theorem ValueType.Contains.same_self {t : ValueType} {x : Value} (ht : t.hasIdentity = true)
    (hx : t.Contains x) : x.same x = true := by
  cases hx with
  | unit => cases ht
  | text => cases ht
  | _ => simp [Value.same]

theorem ValueType.Contains.equal_self {t : ValueType} {x : Value} (hx : t.Contains x) :
    t.equal x x = true := by
  cases hx with
  | @number _ n h =>
    show (if t = .leq then decide (n ≤ n) else n == n) = true
    split
    · exact decide_eq_true (Int.le_refl n)
    · exact beq_self_eq_true n
  | unit => rfl
  | char c => exact beq_self_eq_true c
  | bool b => exact beq_self_eq_true b
  | text s => exact beq_self_eq_true s
  | object _ _ s => exact beq_self_eq_true s
  | slice _ _ _ s => exact beq_self_eq_true s

/-- **In one memory the same values are equal.** -/
theorem Memory.eq_of_same {m : Memory} {x y : Value} (hx : m.Stores x) (hy : m.Stores y)
    (h : x.same y = true) : x = y := by
  cases x with
  | number n =>
    cases y with
    | number k => exact congrArg _ (beq_iff_eq.1 h)
    | _ => cases h
  | char c =>
    cases y with
    | char d => exact congrArg _ (beq_iff_eq.1 h)
    | _ => cases h
  | bool a =>
    cases y with
    | bool b => exact congrArg _ (beq_iff_eq.1 h)
    | _ => cases h
  | object id text =>
    cases y with
    | object id' text' =>
      obtain rfl : id = id' := beq_iff_eq.1 h
      obtain rfl : text = text' := Eq.trans (Eq.symm hx) hy
      rfl
    | _ => cases h
  | slice base start stop text =>
    cases y with
    | slice base' start' stop' text' =>
      simp only [Value.same, Bool.and_eq_true, beq_iff_eq] at h
      obtain ⟨⟨rfl, rfl⟩, rfl⟩ := h
      obtain rfl : text = text' := Option.some.inj (Eq.trans (Eq.symm hx) hy)
      rfl
    | _ => cases h
  | unit => cases h
  | text s => cases h

/-- **Identity** of the values of a type: an equivalence relation, which implies every reflexive
relation between the values of one memory, and so every equality. -/
structure ValueType.IdentityRelation (t : ValueType) : Prop where
  refl : ∀ x, t.Contains x → x.same x = true
  symm : ∀ x y, t.Contains x → t.Contains y → x.same y = true → y.same x = true
  trans : ∀ x y z, t.Contains x → t.Contains y → t.Contains z → x.same y = true →
    y.same z = true → x.same z = true
  implies : ∀ (m : Memory) (eq : Value → Value → Bool), (∀ x, m.Holds t x → eq x x = true) →
    ∀ x y, m.Holds t x → m.Holds t y → x.same y = true → eq x y = true
  /-- The equality that comes with the type is one of these. -/
  equal : ∀ (m : Memory) (x y : Value), m.Holds t x → m.Holds t y → x.same y = true →
    t.equal x y = true

theorem ValueType.identityRelation {t : ValueType} (ht : t.hasIdentity = true) :
    t.IdentityRelation where
  refl _ hx := hx.same_self ht
  symm x y _ _ h := (Value.same_comm y x).trans h
  trans _ _ _ _ _ _ := Value.same_trans
  implies m eq hrefl x y hx hy h := by
    obtain rfl := Memory.eq_of_same hx.stored hy.stored h
    exact hrefl x hx
  equal m x y hx hy h := by
    obtain rfl := Memory.eq_of_same hx.stored hy.stored h
    exact hx.typed.equal_self

section
variable {η σ : Type} {B : Behaviour η σ Value} {t : ValueType}

/-! ## Values in lists -/

/-- Two values are not the same. -/
def Value.Apart (x y : Value) : Prop := x.same y = false

instance Value.decidableApart (x y : Value) : Decidable (x.Apart y) :=
  inferInstanceAs (Decidable (x.same y = false))

theorem Value.Apart.symm {x y : Value} (h : x.Apart y) : y.Apart x := (Value.same_comm y x).trans h

/-- **What comes to lists in a step**: values of the type, and if these share no object, then none that
is the same as another one or as a value that is in a list already. -/
structure Step.Brings (t : ValueType) (st : Step η σ Value) : Prop where
  typed : ∀ x ∈ st.arrived, t.Contains x
  apart : t = .object .exclusive →
    st.arrived.Pairwise Value.Apart ∧ ∀ x ∈ st.before.values, ∀ y ∈ st.arrived, x.Apart y

/-- What is in lists: values of the type, and if these share no object, then no two that are the
same. -/
structure World.Stocked (t : ValueType) (w : World η σ Value) : Prop where
  typed : ∀ x ∈ w.values, t.Contains x
  apart : t = .object .exclusive → w.values.Pairwise Value.Apart

namespace World.Stocked

variable {w : World η σ Value} {v v' : View η σ Value} {l : Addr}

theorem start (budgets : Array (Option Nat)) (hookState : σ) :
    (World.start budgets hookState : World η σ Value).Stocked t :=
  ⟨fun _ hx => absurd hx List.not_mem_nil, fun _ => .nil⟩

/-- **Every step keeps this**, since no value is in two places after it that was in one before. -/
theorem step {st : Step η σ Value} (hst : st.Sound B v v') (hb : st.Brings t)
    (h : st.before.Stocked t) : st.after.Stocked t := by
  have hbalance := hst.fates.balance
  refine ⟨fun x hx => ?_, fun ht => ?_⟩
  · rcases List.mem_append.1 (hbalance.mem_iff.2 (List.mem_append_left _ hx)) with hx | hx
    · exact h.typed x hx
    · exact hb.typed x hx
  · obtain ⟨harrived, hnew⟩ := hb.apart ht
    have hall : (st.before.values ++ st.arrived).Pairwise Value.Apart :=
      List.pairwise_append.2 ⟨h.apart ht, harrived, hnew⟩
    exact (List.pairwise_append.1 (hall.perm hbalance Value.Apart.symm)).1

theorem run {ops : List (Op η Value)} (hw : w.Sound v) (h : w.Stocked t)
    (hb : ∀ st ∈ w.steps B ops, st.Brings t) : (w.run B ops).2.Stocked t := by
  induction ops generalizing w v with
  | nil => exact h
  | cons op ops ih =>
    obtain ⟨v', hw', he⟩ := hw.perform (B := B) op
    have hst : Step.Sound B ⟨w, op, (w.perform B op).1, (w.perform B op).2⟩ v v' :=
      ⟨hw, hw', he, rfl⟩
    exact ih hw' (step hst (hb _ List.mem_cons_self) h)
      fun st hmem => hb st (List.mem_cons_of_mem _ hmem)

end World.Stocked

/-! ## Searches -/

section
variable {α : Type} {B : Behaviour η σ α} {w : World η σ α} {v v' : View η σ α} {l : Addr}
  {k : Strip η α} {key : α} {matcher : η} {r : α → α → Bool} {p : Nat}

/-- The values of one list are among those of all lists. -/
theorem World.valuesOf_sublist (w : World η σ α) (hl : l ∈ w.owners) :
    (w.valuesOf l).Sublist w.values := by
  obtain ⟨xs, ys, hxy⟩ := List.append_of_mem hl
  unfold valuesOf values entries
  rw [hxy, List.flatMap_append, List.flatMap_cons]
  exact ((List.sublist_append_left _ _).trans (List.sublist_append_right _ _)).map _

/-- The search of the list `l` for the key finds the node at the position `p`. -/
def World.FindsAt (B : Behaviour η σ α) (w : World η σ α) (l : Addr) (key : α) (fallback : η)
    (p : Nat) : Prop :=
  ∃ a, (w.nodes l)[p]? = some a ∧
    (w.perform B (.search l key fallback)).1 = .answered (.node (some a))

/-- The search of the list `l` for the key finds no node. -/
def World.Misses (B : Behaviour η σ α) (w : World η σ α) (l : Addr) (key : α) (fallback : η) : Prop :=
  (w.perform B (.search l key fallback)).1 = .answered (.node none)

/-- **A search by a relation that a hook computes** ends at the first value that the relation holds
of. -/
theorem World.Sound.search_of_computes {fallback : η} (hw : w.Sound v) (hk : (l, k) ∈ v.lists)
    (hl : l ∈ w.holdings.lists) (hmatcher : k.hooks.matching.getD fallback = matcher)
    (hr : B.Computes matcher r) (key : α) :
    (w.perform B (.search l key fallback)).1 =
      .answered (.node (w.nodes l)[(w.valuesOf l).findIdx fun x => r x key]?) := by
  have hsearches := hw.searches (B := B) hk hl key fallback
  rw [hmatcher] at hsearches
  have houtcome := hsearches.outcome_of_computes (f := fun x => r x key) fun s x => hr s x key
  refine Eq.trans houtcome (congrArg (Outcome.answered ∘ Answer.node) ?_)
  rw [hw.nodes_eq hk, valuesOf_eq hw hk, hw.entries_eq hk, List.find?_eq_getElem?_findIdx, Strip.nodes,
    Strip.values, List.findIdx_map, List.getElem?_map]
  rfl

theorem World.Sound.length_valuesOf (hw : w.Sound v) (hk : (l, k) ∈ v.lists) :
    (w.valuesOf l).length = (w.nodes l).length := by
  rw [valuesOf_eq hw hk, hw.nodes_eq hk, Strip.values, Strip.nodes, List.length_map, List.length_map]

section
variable {fallback : η} (hw : w.Sound v) (hk : (l, k) ∈ v.lists) (hl : l ∈ w.holdings.lists)
  (hmatcher : k.hooks.matching.getD fallback = matcher) (hr : B.Computes matcher r)
include hw hk hl hmatcher hr

theorem World.Sound.findsAt_iff : w.FindsAt B l key fallback p ↔
    p < (w.valuesOf l).length ∧ ((w.valuesOf l).findIdx fun x => r x key) = p := by
  unfold World.FindsAt
  rw [hw.search_of_computes hk hl hmatcher hr, hw.length_valuesOf hk]
  constructor
  · rintro ⟨a, ha, hfound⟩
    have hfound : (w.nodes l)[(w.valuesOf l).findIdx fun x => r x key]? = some a := by
      injection hfound with hfound
      injection hfound
    obtain ⟨hp, -⟩ := List.getElem?_eq_some_iff.1 ha
    refine ⟨hp, ((List.getElem?_inj hp (hw.nodup_nodes (owners_of_lists hl))).1 ?_).symm⟩
    rw [ha, hfound]
  · rintro ⟨hp, hidx⟩
    exact ⟨_, List.getElem?_eq_getElem hp, by rw [hidx, List.getElem?_eq_getElem hp]⟩

/-- **A value that the relation holds of** is found, or one before it that the relation holds of as well. -/
theorem World.Sound.finds_first {x : α} (hx : (w.valuesOf l)[p]? = some x) (hrx : r x key = true) :
    ∃ q y, q ≤ p ∧ w.FindsAt B l key fallback q ∧ (w.valuesOf l)[q]? = some y ∧ r y key = true ∧
      ∀ i z, i < q → (w.valuesOf l)[i]? = some z → r z key = false := by
  obtain ⟨hp, rfl⟩ := List.getElem?_eq_some_iff.1 hx
  have hq : ((w.valuesOf l).findIdx fun y => r y key) ≤ p := by
    by_contra hlt
    rw [List.not_of_lt_findIdx (Nat.lt_of_not_le hlt)] at hrx
    cases hrx
  have hlt := hq.trans_lt hp
  have hry := List.findIdx_getElem (p := fun y => r y key) (w := hlt)
  refine ⟨_, _, hq, (hw.findsAt_iff hk hl hmatcher hr).2 ⟨hlt, rfl⟩, List.getElem?_eq_getElem hlt,
    hry, fun i z hi hz => ?_⟩
  obtain ⟨hi', rfl⟩ := List.getElem?_eq_some_iff.1 hz
  exact List.not_of_lt_findIdx hi

theorem World.Sound.misses_iff : w.Misses B l key fallback ↔
    (w.valuesOf l).length ≤ (w.valuesOf l).findIdx fun x => r x key := by
  unfold World.Misses
  rw [hw.search_of_computes hk hl hmatcher hr, hw.length_valuesOf hk, ← List.getElem?_eq_none_iff]
  constructor
  · intro h
    injection h with h
    injection h
  · intro h
    rw [h]

end

/-- A hook is installed on a list, whose nodes and values stay what they are. -/
theorem World.Sound.installed (hw : w.Sound v) (hk : (l, k) ∈ v.lists) (hl : l ∈ w.holdings.lists)
    (kind : HookKind) (h : η) :
    let w' := (w.perform B (.installHook l kind h)).2
    ∃ v', w'.Sound v' ∧ (l, { k with hooks := k.hooks.set h kind }) ∈ v'.lists ∧
      l ∈ w'.holdings.lists := by
  intro w'
  have hcheck : (Op.installHook l kind h : Op η α).check w = .ok () := expectList_of_lists hl
  obtain ⟨v', hw', he⟩ := hw.perform (B := B) (.installHook l kind h)
  rcases he.of_rehooks rfl with ⟨why, ho, -⟩ | ⟨k', rest, hp, -, rfl⟩
  · exact absurd ho (perform_ne_misused hcheck why)
  · obtain rfl := (hw.ring hk).unique (hw.ring (hp.mem_iff.2 List.mem_cons_self))
    have hlists := (holdings_of_not_seats (B := B) hcheck rfl).2 l hl
    rw [← perform_of_ok hcheck] at hlists
    exact ⟨_, hw', List.mem_cons_self, hlists⟩

/-- **A coarser relation** that a hook computes, once it is installed, finds every node by then. -/
theorem World.Sound.installed_finds {h fallback fallback' : η} {r' : α → α → Bool} (hw : w.Sound v)
    (hk : (l, k) ∈ v.lists) (hl : l ∈ w.holdings.lists)
    (hmatcher : k.hooks.matching.getD fallback = matcher) (hr : B.Computes matcher r)
    (hr' : B.Computes h r') (himp : ∀ x ∈ w.valuesOf l, r x key = true → r' x key = true) :
    let w' := (w.perform B (.installHook l .matching h)).2
    (∀ p, w.FindsAt B l key fallback p → ∃ q ≤ p, w'.FindsAt B l key fallback' q) ∧
      (w'.Misses B l key fallback' → w.Misses B l key fallback) := by
  intro w'
  obtain ⟨v', hw', hk', hl'⟩ := hw.installed (B := B) hk hl .matching h
  have hvalues : w'.valuesOf l = w.valuesOf l := (valuesOf_eq hw' hk').trans (valuesOf_eq hw hk).symm
  have hle : ((w.valuesOf l).findIdx fun x => r' x key) ≤ (w.valuesOf l).findIdx fun x => r x key :=
    List.findIdx_le_findIdx himp
  refine ⟨fun p hp => ?_, fun hmiss => ?_⟩
  · obtain ⟨hlt, rfl⟩ := (hw.findsAt_iff hk hl hmatcher hr).1 hp
    refine ⟨_, hle, (hw'.findsAt_iff (r := r') hk' hl' rfl hr').2 ⟨?_, ?_⟩⟩
    · rw [hvalues]
      exact hle.trans_lt hlt
    · rw [hvalues]
  · rw [hw'.misses_iff (r := r') hk' hl' rfl hr', hvalues] at hmiss
    exact (hw.misses_iff hk hl hmatcher hr).2 (hmiss.trans hle)

end

/-! ## Searches by identity -/

/-- **What is found by identity** in the list `l`, which has no hook for matching. -/
structure World.SearchesByIdentity (B : Behaviour η σ Value) (w : World η σ Value) (t : ValueType)
    (identity : η) (l : Addr) : Prop where
  /-- Searching for the value at a position leads to the first value that is the same, at this
  position or before it. -/
  own : ∀ p x, (w.valuesOf l)[p]? = some x → ∃ q y, q ≤ p ∧ w.FindsAt B l x identity q ∧
    (w.valuesOf l)[q]? = some y ∧ y.same x = true ∧
    ∀ i z, i < q → (w.valuesOf l)[i]? = some z → z.same x = false
  /-- It leads to the position itself if the values share no object. -/
  exclusive : t = .object .exclusive → ∀ p x, (w.valuesOf l)[p]? = some x →
    w.FindsAt B l x identity p
  /-- An equality finds what identity finds, at the same position or before, and identity misses what
  an equality misses. -/
  equality : ∀ (m : Memory) (eq : Value → Value → Bool) (h fallback : η) (key : Value),
    (∀ x ∈ w.valuesOf l, m.Stores x) → m.Holds t key → (∀ x, m.Holds t x → eq x x = true) →
    B.Computes h eq →
    let w' := (w.perform B (.installHook l .matching h)).2
    (∀ p, w.FindsAt B l key identity p → ∃ q ≤ p, w'.FindsAt B l key fallback q) ∧
      (w'.Misses B l key fallback → w.Misses B l key identity)

section
variable {w : World η σ Value} {v : View η σ Value} {l : Addr} {k : Strip η Value} {identity : η}

theorem World.Sound.searchesByIdentity (hw : w.Sound v) (hs : w.Stocked t)
    (ht : t.hasIdentity = true) (hidentity : B.Computes identity Value.same) (hk : (l, k) ∈ v.lists)
    (hl : l ∈ w.holdings.lists) (hnone : k.hooks.matching = none) :
    w.SearchesByIdentity B t identity l := by
  have hmatcher : k.hooks.matching.getD identity = identity := by rw [hnone, Option.getD_none]
  have hsub := w.valuesOf_sublist (owners_of_lists hl)
  have htyped : ∀ x ∈ w.valuesOf l, t.Contains x := fun x hx => hs.typed x (hsub.subset hx)
  have hself : ∀ {p : Nat} {x : Value}, (w.valuesOf l)[p]? = some x → x.same x = true :=
    fun hx => (htyped _ (List.mem_of_getElem? hx)).same_self ht
  refine ⟨fun p x hx => hw.finds_first hk hl hmatcher hidentity hx (hself hx),
    fun hexcl p x hx => ?_, fun m eq h fallback key hstores hkey hrefl heq => ?_⟩
  · obtain ⟨q, y, hq, hfinds, hy, hsame, -⟩ :=
      hw.finds_first hk hl hmatcher hidentity hx (hself hx)
    obtain ⟨hp, rfl⟩ := List.getElem?_eq_some_iff.1 hx
    obtain ⟨hq', rfl⟩ := List.getElem?_eq_some_iff.1 hy
    rcases Nat.lt_or_eq_of_le hq with hlt | rfl
    · have hapart := List.pairwise_iff_getElem.1 ((hs.apart hexcl).sublist hsub) q p hq' hp hlt
      rw [hapart] at hsame
      cases hsame
    · exact hfinds
  · refine hw.installed_finds hk hl hmatcher hidentity heq fun x hx hsame => ?_
    exact (ValueType.identityRelation ht).implies m eq hrefl x key ⟨htyped x hx, hstores x hx⟩ hkey
      hsame

/-- **Identity against equality**: how the two relate between values, and what searches by them find in
the lists of a program, which has values of one type and hands over none twice that share no object. -/
theorem World.identity_laws {budgets : Array (Option Nat)} {hookState : σ} {ops : List (Op η Value)}
    (ht : t.hasIdentity = true) (hidentity : B.Computes identity Value.same)
    (hb : ∀ st ∈ (World.start budgets hookState).steps B ops, st.Brings t) :
    let w := ((World.start budgets hookState).run B ops).2
    t.IdentityRelation ∧ (t.behaviour.Computes .identity Value.same ∧
      t.behaviour.Computes .equality t.equal) ∧
      ∀ l ∈ w.holdings.lists, ∀ r, w.store.heap.record? l = some r → r.hooks.matching = none →
        w.SearchesByIdentity B t identity l := by
  intro w
  refine ⟨t.identityRelation ht, ⟨fun _ _ _ => rfl, fun _ _ _ => rfl⟩, fun l hl r hr hnone => ?_⟩
  have hreach : w.Reachable B budgets hookState := ⟨ops, rfl⟩
  obtain ⟨v, -, hw, -⟩ := hreach.sound
  obtain ⟨k, hk⟩ := hw.mem_lists (owners_of_lists hl)
  have hstocked : w.Stocked t :=
    (Stocked.start budgets hookState).run (sound_start budgets hookState) hb
  obtain rfl := hw.record_eq hk hr
  exact hw.searchesByIdentity hstocked ht hidentity hk hl hnone

/-- Two objects have the same text. Searching for the second one leads to it by identity, and to the
first one by equality. -/
theorem World.identity_laws_texts :
    let t : ValueType := .object .exclusive
    let ops := [.collect [.object 0 "a", .object 1 "a"], .addTail 0 (.object 2 "b")]
    let w := ((World.start #[] {}).run t.behaviour ops).2
    (t.hasIdentity = true ∧ t.behaviour.Computes .identity Value.same ∧
      ∀ st ∈ (World.start #[] {}).steps t.behaviour ops, st.Brings t) ∧
      (w.run t.behaviour [.search 0 (.object 1 "a") .identity, .installHook 0 .matching .equality,
        .search 0 (.object 1 "a") .identity]).1 =
        [.answered (.node (some 2)), .answered .done, .answered (.node (some 1))] ∧
      t.IdentityRelation ∧ w.SearchesByIdentity t.behaviour t .identity 0 := by
  intro t ops w
  have hidentity : t.behaviour.Computes .identity Value.same := fun _ _ _ => rfl
  have hb : ∀ st ∈ (World.start #[] {}).steps t.behaviour ops, st.Brings t := by
    intro st hst
    have hall : ((World.start #[] {}).steps t.behaviour ops).map
        (fun st : Step Hook HookState Value => (st.arrived, st.before.values)) =
        [([.object 0 "a", .object 1 "a"], []), ([.object 2 "b"], [.object 0 "a", .object 1 "a"])] := by
      decide +kernel
    have hmem := hall ▸ List.mem_map_of_mem hst
    have typed : ∀ id s, t.Contains (.object id s) := .object .exclusive
    rcases List.mem_cons.1 hmem with h | hmem
    · obtain ⟨harrived, hvalues⟩ := Prod.mk.inj h
      refine ⟨?_, fun _ => ?_⟩
      · rw [harrived]
        exact List.forall_mem_cons.2 ⟨typed 0 _, List.forall_mem_singleton.2 (typed 1 _)⟩
      · rw [harrived, hvalues]
        decide
    · obtain ⟨harrived, hvalues⟩ := Prod.mk.inj (List.mem_singleton.1 hmem)
      refine ⟨?_, fun _ => ?_⟩
      · rw [harrived]
        exact List.forall_mem_singleton.2 (typed 2 _)
      · rw [harrived, hvalues]
        decide
  have hl : 0 ∈ w.holdings.lists := by decide +kernel
  obtain ⟨hrelation, -, hsearch⟩ := World.identity_laws rfl hidentity hb
  exact ⟨⟨rfl, hidentity, hb⟩, by decide +kernel, hrelation,
    hsearch 0 hl ⟨3, {}, .global⟩ (by decide +kernel) rfl⟩

end

end

end RingList
