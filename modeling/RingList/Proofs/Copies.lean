import RingList.Proofs.Pointwise
import RingList.Proofs.Verdict

/-!
# Copies that succeed

A complete copy is a list of its own: it has a new block for every block of its source, the source's
record, and in every node what the copying hook replied when it was called with the value in the same
place. Whatever is known of the replies is therefore known of the copy, value by value
(`forall₂_of_replies`): a copy that is made by cloning is equal to its source, and a hook without
state copies the values of two lists in the same way before and after they are joined.

* `Step.Copies`: what a duplication does that succeeds.
* `World.copy_laws`: this, and the laws of cloning and of joining that follow, hold after every run.
-/

set_option autoImplicit false

namespace RingList

variable {η σ α : Type} {B : Behaviour η σ α}

/-! ## Replies -/

section
variable {dup : η} {source : Allocator} {a : Addr} {xs ys : List α} {s : σ}

/-- The replies of a hook that copies every value, when these are the copies. -/
def copyReplies (ys : List α) : List (Reply (Option α)) := ys.map fun y => .returns (some y)

theorem length_of_replies (h : B.replies dup s xs = copyReplies ys) : xs.length = ys.length := by
  rw [← B.length_replies dup s xs, h, copyReplies, List.length_map]

/-- **What holds of every value and its copy** holds of all values that a hook copies. -/
theorem forall₂_of_replies {P : α → α → Prop}
    (hP : ∀ s x y, (B.dup dup s x).1 = .returns (some y) → P x y) :
    ∀ {xs ys : List α} {s : σ}, B.replies dup s xs = copyReplies ys → List.Forall₂ P xs ys
  | [], [], _, _ => .nil
  | [], _ :: _, _, h => nomatch h
  | _ :: _, [], _, h => nomatch h
  | x :: xs, y :: ys, s, h => by
    obtain ⟨hhead, htail⟩ := List.cons.inj h
    exact .cons (hP s x y hhead) (forall₂_of_replies hP htail)

theorem replies_copying {v : View η σ α} (hstop : (copying B dup source v xs).stop = none) :
    B.replies dup v.hookState xs = copyReplies ((copying B dup source v xs).copies.map (·.2)) := by
  induction xs generalizing v with
  | nil => rfl
  | cons x xs ih =>
    cases hserve : v.serves source with
    | false =>
      rw [copying_of_refused hserve] at hstop
      cases hstop
    | true =>
      rcases hd : (B.dup dup v.hookState x).1 with (_ | y) | _
      · rw [copying_of_fails hserve hd] at hstop
        cases hstop
      · rw [copying_of_copies hserve hd] at hstop ⊢
        rw [Behaviour.replies, hd]
        exact congrArg (_ :: ·) (ih hstop)
      · rw [copying_of_panics hserve hd] at hstop
        cases hstop

/-- The events of copying values that all are copied: a node is served, and the hook is called. -/
def copyEvents (source : Allocator) (dup : η) (xs : List α) (copies : List (Addr × α)) :
    List (Event η α) :=
  (xs.zip copies).flatMap fun p =>
    [.served source p.2.1 .node, .dup dup p.1 (.returns (some p.2.2))]

theorem Copies.events_eq {copies : List (Addr × α)} {stop : Option Stop} {evs : List (Event η α)}
    (h : Copies source dup a xs copies stop evs) (hstop : stop = none) :
    evs = copyEvents source dup xs copies := by
  induction h with
  | done => rfl
  | made h ih => rw [ih hstop]; rfl
  | refused => cases hstop
  | notCopied => cases hstop
  | panicked => cases hstop

end

/-! ## Complete copies -/

/-- **What a step does that copies the list `l`**, which has the record `r`, to the list `c`; `dup` is
the name of the hook that copies the values. -/
structure Step.Copies (B : Behaviour η σ α) (st : Step η σ α) (l : Addr) (r : Record η) (dup : η)
    (c : Addr) : Prop where
  /-- The copy is a list of the program. -/
  listed : st.after.holdings = st.before.holdings.addList c
  /-- It has the blocks that are handed out next: its header and a node for each value. -/
  blocks : c :: st.after.nodes c = List.range' st.before.store.heap.size (r.length + 1)
  formed : st.after.ListInvariant c r.length
  /-- It has the length, the hooks and the allocator of its source. -/
  record : st.after.store.heap.record? c = some r
  /-- Each of its values is the reply of the call with the value in the same place. -/
  values : B.replies dup st.before.store.hookState (st.before.valuesOf l) =
    copyReplies (st.after.valuesOf c)
  /-- Each node is served before the hook is called. -/
  events : st.events = .served r.allocator c .header ::
    copyEvents r.allocator dup (st.before.valuesOf l) (st.after.store.heap.entries c)
  /-- No list that was there before is changed, the source neither. -/
  same : ∀ m ∈ st.before.owners, st.before.SameList st.after m
  /-- None of them has a block of the copy. -/
  apart : ∀ m ∈ st.before.owners, ∀ a ∈ c :: st.after.nodes c, a ∉ m :: st.after.nodes m

namespace World.Sound

variable {w : World η σ α} {v : View η σ α} {l m c : Addr} {k : Strip η α} {fallback : η}

/-- The view after a complete copy. -/
theorem duplicate_complete (hw : w.Sound v) (hlists : l ∈ w.holdings.lists)
    (hc : (w.perform B (.duplicate l fallback)).1 = .answered (.list c)) : ∃ k v',
      let copied := copyingAll B v k fallback
      (l, k) ∈ v.lists ∧ (w.stepOf B (.duplicate l fallback)).Sound B v v' ∧ c = v.fresh ∧
        copied.stop = none ∧ v'.log = copied.view.log ∧
        v'.lists = (c, ⟨k.hooks, k.allocator, copied.copies⟩) :: v.lists ∧
        (w.perform B (.duplicate l fallback)).2.holdings = w.holdings.addList c := by
  obtain ⟨k, v', hl, hst, ho, rfl⟩ := hw.duplicate (B := B) hlists fallback
  have hsettles : Settles (RingList.duplicate B l fallback) v v.fresh _ _ := duplicate_settles hl
  cases hserve : v.serves k.allocator with
  | false =>
    rw [hc, duplicating_of_refused hserve] at ho
    cases ho
  | true =>
    cases hstop : (copyingAll B v k fallback).stop with
    | some e =>
      rw [hc, duplicating_of_partial hserve hstop] at ho
      cases ho
    | none =>
      rw [duplicating_of_complete hserve hstop] at hst ho hsettles
      obtain rfl : c = v.fresh := by simpa [hc, Outcome.ofStop] using ho
      have hcheck : (Op.duplicate l fallback : Op η α).check w = .ok () :=
        World.expectList_of_lists hlists
      have hact : (Op.duplicate l fallback).act B w.holdings = RingList.duplicate B l fallback >>=
        fun copy => pure (.list copy, w.holdings.addList copy) := rfl
      obtain ⟨s', hperform⟩ := hw.perform_of_yields hcheck hact hsettles
      exact ⟨k, _, hl, hst, rfl, hstop, rfl, rfl, by rw [hperform]⟩

/-- A new block is in no list. -/
theorem fresh_not_mem (hw : w.Sound v) (hm : m ∈ w.owners) : v.fresh ≠ m := by
  rintro rfl
  obtain ⟨k, hk⟩ := hw.mem_lists hm
  refine hw.shows.lists.not_mem_of_size_le (Nat.le_of_eq hw.shows.fresh) ?_
  exact List.mem_flatMap.2 ⟨_, hk, List.mem_cons_self⟩

/-- **A complete copy.** -/
theorem copies (hw : w.Sound v) (hlists : l ∈ w.holdings.lists) (hl : (l, k) ∈ v.lists)
    (hc : (w.perform B (.duplicate l fallback)).1 = .answered (.list c)) :
    (w.stepOf B (.duplicate l fallback)).Copies B l k.record (k.hooks.dup.getD fallback) c := by
  obtain ⟨k', v', hk', hst, rfl, hstop, hlog, hv', hlisted⟩ := hw.duplicate_complete hlists hc
  obtain rfl := (hw.ring hk').unique (hw.ring hl)
  obtain ⟨evs, hevs, hcopies⟩ := copies_copying (B := B) (k'.hooks.dup.getD fallback) k'.allocator
    k'.values (v.supply k'.allocator .header)
  have hreplies := replies_copying hstop
  rw [show copying B _ _ _ _ = copyingAll B v k' fallback from rfl] at hevs hcopies hreplies
  generalize copyingAll B v k' fallback = copied at *
  have hcopy : (v.fresh, ⟨k'.hooks, k'.allocator, copied.copies⟩) ∈ v'.lists :=
    hv' ▸ List.mem_cons_self
  have hvalues : w.valuesOf l = k'.values := valuesOf_eq hw hl
  have hvalues' : (w.stepOf B (.duplicate l fallback)).after.valuesOf v.fresh =
      copied.copies.map (·.2) := valuesOf_eq hst.after hcopy
  have hlength : copied.copies.length = k'.record.length := by
    simpa [Strip.values] using (length_of_replies hreplies).symm
  have hsame : ∀ m ∈ w.owners, w.SameList (w.perform B (.duplicate l fallback)).2 m :=
    fun m hm => hw.sameList_perform hm List.not_mem_nil
  refine ⟨hlisted, ?_, ?_, ?_, ?_, ?_, hsame, fun m hm a ha ha' => ?_⟩
  · rw [hst.after.nodes_eq hcopy, show (w.stepOf B _).before.store.heap.size = v.fresh from
      hw.shows.fresh, List.range'_succ, ← hlength]
    exact congrArg (v.fresh :: ·) hcopies.addresses
  · exact hlength ▸ hst.after.listInvariant hcopy
  · rw [(hst.after.ring hcopy).record?_eq]
    exact congrArg (fun n => some (⟨n, k'.hooks, k'.allocator⟩ : Record η)) hlength
  · rw [show (w.stepOf B _).before.valuesOf l = _ from hvalues, hvalues',
      show (w.stepOf B _).before.store.hookState = v.hookState from hw.shows.hookState]
    exact hreplies
  · rw [show (w.stepOf B _).before.valuesOf l = _ from hvalues,
      (hst.after.ring hcopy).entries_eq]
    refine hst.events_eq (hlog.trans (hevs.trans ?_))
    rw [hcopies.events_eq hstop]
    simp
  · obtain ⟨k₂, hk₂⟩ := hw.mem_lists hm
    have hm' : (m, k₂) ∈ v'.lists := hv' ▸ List.mem_cons_of_mem _ hk₂
    rw [hst.after.nodes_eq hcopy] at ha
    rw [show (w.stepOf B _).after.nodes m = _ from hst.after.nodes_eq hm'] at ha'
    exact hw.fresh_not_mem hm (hst.after.eq_of_mem_blocks hcopy hm' ha ha')

/-! ## Joining -/

/-- **A join**: the values of the other list follow. -/
theorem join_step (hw : w.Sound v) (hl : l ∈ w.holdings.lists) (hm : m ∈ w.holdings.lists)
    (hlm : l ≠ m) : (w.perform B (.join l m)).1 = .answered .done ∧
      (w.perform B (.join l m)).2.valuesOf l = w.valuesOf l ++ w.valuesOf m ∧
      (w.perform B (.join l m)).2.holdings.lists = w.holdings.lists ∧
      ∀ r, w.store.heap.record? l = some r →
        ∃ r', (w.perform B (.join l m)).2.store.heap.record? l = some r' ∧ r'.hooks = r.hooks := by
  have hcheck : (Op.join l m : Op η α).check w = .ok () := by
    show (w.expectList l >>= fun _ => w.expectList m >>= fun _ => _) = .ok ()
    rw [World.expectList_of_lists hl, World.expectList_of_lists hm]
    exact if_neg hlm
  have hlists : (w.perform B (.join l m)).2.holdings.lists = w.holdings.lists := by
    rw [World.perform_of_ok hcheck]
    have hact : (Op.join l m : Op η α).act B ((Op.join l m).takes w) =
      Op.keeping _ (fun _ => .done) (RingList.join l m) := rfl
    exact World.proceed_holdings (P := fun t => t.lists = _) hact rfl fun _ => rfl
  obtain ⟨v', hw', he⟩ := hw.perform (B := B) (.join l m)
  rcases he.of_join with ⟨why, h, -⟩ | ⟨k, k', rest, hp, ho, rfl⟩
  · exact absurd h (World.perform_ne_misused hcheck why)
  · have hk : (l, k) ∈ v.lists := hp.mem_iff.2 List.mem_cons_self
    have hk' : (m, k') ∈ v.lists := hp.mem_iff.2 (List.mem_cons_of_mem _ List.mem_cons_self)
    refine ⟨ho, ?_, hlists, fun r hr => ⟨_, (hw'.ring List.mem_cons_self).record?_eq, ?_⟩⟩
    · rw [valuesOf_eq hw hk, valuesOf_eq hw hk', valuesOf_eq hw' List.mem_cons_self]
      exact List.map_append
    · rw [← hw.record_eq hk hr]
      rfl

end World.Sound

theorem World.SameList.valuesOf {w w' : World η σ α} {l : Addr} (h : w.SameList w' l) :
    w'.valuesOf l = w.valuesOf l := by
  unfold World.valuesOf
  rw [h.entries]

/-! ## Laws of copies -/

/-- The values have a lawful equality and a lawful hash feed, `clone` is the name of a hook that
copies a value to one that is equal, and `rel` that of a hook which computes the equality. -/
structure Behaviour.LawfulClone (B : Behaviour η σ α) (clone rel : η) (eq : α → α → Bool)
    (bytes : α → List UInt8) : Prop where
  equivalence : Equivalence fun x y => eq x y = true
  matching : ∀ s x y, (B.matching rel s x y).1 = .returns (eq x y)
  dup : ∀ s x y, (B.dup clone s x).1 = .returns (some y) → eq x y = true
  hash : ∀ x y, eq x y = true → bytes x = bytes y

/-- The replies of the copying hook are a function of the values. -/
def Behaviour.Stateless (B : Behaviour η σ α) (dup : η) : Prop :=
  ∀ s s' x, (B.dup dup s x).1 = (B.dup dup s' x).1

/-- **The laws of copies** of the list `l`, which has the record `r`. -/
structure World.CopyLaws (B : Behaviour η σ α) (w : World η σ α) (l : Addr) (r : Record η)
    (fallback : η) : Prop where
  copied : ∀ c, (w.perform B (.duplicate l fallback)).1 = .answered (.list c) →
    (w.stepOf B (.duplicate l fallback)).Copies B l r (r.hooks.dup.getD fallback) c
  /-- A clone and its source are equal, in both directions, and feed a hasher the same bytes. -/
  cloned : ∀ c rel eq bytes, r.hooks.dup = none → B.LawfulClone fallback rel eq bytes →
    (w.perform B (.duplicate l fallback)).1 = .answered (.list c) →
    let w' := (w.perform B (.duplicate l fallback)).2
    (w'.perform B (.equal c l rel)).1 = .answered (.truth true) ∧
      (w'.perform B (.equal l c rel)).1 = .answered (.truth true) ∧
      ∃ feed, w'.read (hash bytes l) = .ok feed ∧ w'.read (hash bytes c) = .ok feed
  /-- Joining the copies of two lists with the same hooks, and copying the list that they are joined
  to, give the same values. -/
  joined : ∀ m r' c d e, B.Stateless (r.hooks.dup.getD fallback) → l ≠ m →
    m ∈ w.holdings.lists → w.store.heap.record? m = some r' → r'.hooks = r.hooks →
    let w₁ := (w.perform B (.duplicate l fallback)).2
    let w₂ := (w₁.perform B (.duplicate m fallback)).2
    let w₃ := (w.perform B (.join l m)).2
    (w.perform B (.duplicate l fallback)).1 = .answered (.list c) →
    (w₁.perform B (.duplicate m fallback)).1 = .answered (.list d) →
    (w₃.perform B (.duplicate l fallback)).1 = .answered (.list e) →
    (w₂.perform B (.join c d)).1 = .answered .done ∧ (w.perform B (.join l m)).1 = .answered .done ∧
      (w₂.perform B (.join c d)).2.valuesOf c =
        (w₃.perform B (.duplicate l fallback)).2.valuesOf e

section
variable {budgets : Array (Option Nat)} {hookState : σ} {w : World η σ α} {l m c d e : Addr}
  {r r' : Record η} {fallback : η}

/-- Two lists of a program whose values are pairwise related are equal. -/
theorem World.Sound.perform_equal_of_forall₂ {v : View η σ α} {rel : η} {eq : α → α → Bool}
    (hw : w.Sound v) (hl : l ∈ w.holdings.lists) (hm : m ∈ w.holdings.lists)
    (hrel : ∀ s x y, (B.matching rel s x y).1 = .returns (eq x y))
    (h : List.Forall₂ (fun x y => eq x y = true) (w.valuesOf l) (w.valuesOf m)) :
    (w.perform B (.equal l m rel)).1 = .answered (.truth true) :=
  (hw.equals_iff hl hm hrel).2 (Pointwise.iff_forall₂.2 h)

/-- A list of a program feeds a hasher a function of its values. -/
theorem World.Sound.read_hash {v : View η σ α} (bytes : α → List UInt8) (hw : w.Sound v)
    (hl : l ∈ w.owners) : w.read (hash bytes l) = .ok (hashFeed bytes (w.valuesOf l)) := by
  obtain ⟨k, hk⟩ := hw.mem_lists hl
  rw [valuesOf_eq hw hk]
  exact hw.read_eq (hash_yields bytes hk)

theorem World.Reachable.copied (hw : w.Reachable B budgets hookState) (hl : l ∈ w.holdings.lists)
    (hr : w.store.heap.record? l = some r)
    (hc : (w.perform B (.duplicate l fallback)).1 = .answered (.list c)) :
    (w.stepOf B (.duplicate l fallback)).Copies B l r (r.hooks.dup.getD fallback) c := by
  obtain ⟨v, -, hs, -⟩ := hw.sound
  obtain ⟨k, hk⟩ := hs.mem_lists (owners_of_lists hl)
  obtain rfl := hs.record_eq hk hr
  exact hs.copies hl hk hc

theorem World.Reachable.cloned {rel : η} {eq : α → α → Bool} {bytes : α → List UInt8}
    (hw : w.Reachable B budgets hookState) (hl : l ∈ w.holdings.lists)
    (hr : w.store.heap.record? l = some r) (hdup : r.hooks.dup = none)
    (hlaw : B.LawfulClone fallback rel eq bytes)
    (hc : (w.perform B (.duplicate l fallback)).1 = .answered (.list c)) :
    let w' := (w.perform B (.duplicate l fallback)).2
    (w'.perform B (.equal c l rel)).1 = .answered (.truth true) ∧
      (w'.perform B (.equal l c rel)).1 = .answered (.truth true) ∧
      ∃ feed, w'.read (hash bytes l) = .ok feed ∧ w'.read (hash bytes c) = .ok feed := by
  intro w'
  have hcopy := hw.copied hl hr hc
  rw [hdup] at hcopy
  obtain ⟨v', -, hs', -⟩ := (hw.perform (.duplicate l fallback)).sound
  have hlists : w'.holdings.lists = w.holdings.lists ++ [c] :=
    congrArg Holdings.lists hcopy.listed
  have hl' : l ∈ w'.holdings.lists := hlists ▸ List.mem_append_left _ hl
  have hc' : c ∈ w'.holdings.lists := hlists ▸ List.mem_append_right _ (List.mem_singleton_self c)
  have hsource : w'.valuesOf l = w.valuesOf l := (hcopy.same l (owners_of_lists hl)).valuesOf
  have hequal : List.Forall₂ (fun x y => eq x y = true) (w'.valuesOf l) (w'.valuesOf c) :=
    hsource ▸ forall₂_of_replies hlaw.dup hcopy.values
  have hflip : List.Forall₂ (fun x y => eq x y = true) (w'.valuesOf c) (w'.valuesOf l) :=
    (hequal.imp fun _ _ h => hlaw.equivalence.symm h).flip
  refine ⟨hs'.perform_equal_of_forall₂ hc' hl' hlaw.matching hflip,
    hs'.perform_equal_of_forall₂ hl' hc' hlaw.matching hequal, _,
    hs'.read_hash bytes (owners_of_lists hl'), ?_⟩
  rw [hs'.read_hash bytes (owners_of_lists hc'), hashFeed_congr (hequal.imp hlaw.hash)]

theorem World.Reachable.joined (hw : w.Reachable B budgets hookState) (hl : l ∈ w.holdings.lists)
    (hr : w.store.heap.record? l = some r) (hstate : B.Stateless (r.hooks.dup.getD fallback))
    (hlm : l ≠ m) (hm : m ∈ w.holdings.lists) (hr' : w.store.heap.record? m = some r')
    (hhooks : r'.hooks = r.hooks) :
    let w₁ := (w.perform B (.duplicate l fallback)).2
    let w₂ := (w₁.perform B (.duplicate m fallback)).2
    let w₃ := (w.perform B (.join l m)).2
    (w.perform B (.duplicate l fallback)).1 = .answered (.list c) →
    (w₁.perform B (.duplicate m fallback)).1 = .answered (.list d) →
    (w₃.perform B (.duplicate l fallback)).1 = .answered (.list e) →
    (w₂.perform B (.join c d)).1 = .answered .done ∧ (w.perform B (.join l m)).1 = .answered .done ∧
      (w₂.perform B (.join c d)).2.valuesOf c =
        (w₃.perform B (.duplicate l fallback)).2.valuesOf e := by
  intro w₁ w₂ w₃ hc hd he
  -- `P x y` says that `y` is the copy of `x`: both ways to the values at the end lead along `P`
  let P : α → α → Prop := fun x y => ∀ s, (B.dup (r.hooks.dup.getD fallback) s x).1 =
    .returns (some y)
  have hP : ∀ s x y, (B.dup (r.hooks.dup.getD fallback) s x).1 = .returns (some y) → P x y :=
    fun s x y h s' => (hstate s' s x).trans h
  have hunique : Relator.RightUnique P := fun x y y' h h' => by
    simpa using (h hookState).symm.trans (h' hookState)
  have hw₁ : w₁.Reachable B budgets hookState := hw.perform _
  have hw₂ : w₂.Reachable B budgets hookState := hw₁.perform _
  have hw₃ : w₃.Reachable B budgets hookState := hw.perform _
  -- the copies of the two lists
  have hcopy := hw.copied hl hr hc
  have hsame := hcopy.same m (owners_of_lists hm)
  have hlists₁ : w₁.holdings.lists = w.holdings.lists ++ [c] := congrArg Holdings.lists hcopy.listed
  have hm₁ : m ∈ w₁.holdings.lists := hlists₁ ▸ List.mem_append_left _ hm
  have hc₁ : c ∈ w₁.holdings.lists :=
    hlists₁ ▸ List.mem_append_right _ (List.mem_singleton_self c)
  have hcopy₁ := hw₁.copied hm₁ (hsame.record.trans hr') hd
  have hlists₂ : w₂.holdings.lists = w₁.holdings.lists ++ [d] :=
    congrArg Holdings.lists hcopy₁.listed
  have hc₂ : c ∈ w₂.holdings.lists := hlists₂ ▸ List.mem_append_left _ hc₁
  have hd₂ : d ∈ w₂.holdings.lists :=
    hlists₂ ▸ List.mem_append_right _ (List.mem_singleton_self d)
  have hsame₁ := hcopy₁.same c (owners_of_lists hc₁)
  have hcd : c ≠ d := by
    rintro rfl
    exact hcopy₁.apart c (owners_of_lists hc₁) c List.mem_cons_self List.mem_cons_self
  -- the two joins
  obtain ⟨v, -, hs, -⟩ := hw.sound
  obtain ⟨v₂, -, hs₂, -⟩ := hw₂.sound
  obtain ⟨ho₂, hvalues₂, -⟩ := hs₂.join_step (B := B) hc₂ hd₂ hcd
  obtain ⟨ho₃, hvalues₃, hlists₃, hhooks₃⟩ := hs.join_step (B := B) hl hm hlm
  obtain ⟨r₃, hr₃, hhooks₃⟩ := hhooks₃ r hr
  have hcopy₃ := hw₃.copied (hlists₃ ▸ hl) hr₃ he
  rw [hhooks₃] at hcopy₃
  rw [hhooks] at hcopy₁
  have hleft : List.Forall₂ P (w.valuesOf l) (w₂.valuesOf c) := by
    have hkept : w₂.valuesOf c = w₁.valuesOf c := hsame₁.valuesOf
    exact hkept ▸ forall₂_of_replies hP hcopy.values
  have hright : List.Forall₂ P (w.valuesOf m) (w₂.valuesOf d) := by
    have hkept : w₁.valuesOf m = w.valuesOf m := hsame.valuesOf
    exact hkept ▸ forall₂_of_replies hP hcopy₁.values
  have hall := forall₂_of_replies hP hcopy₃.values
  rw [show (w₃.stepOf B _).before.valuesOf l = _ from hvalues₃] at hall
  refine ⟨ho₂, ho₃, hvalues₂.trans ?_⟩
  exact List.right_unique_forall₂' hunique (List.rel_append hleft hright) hall

/-- **A copy** is a list of its own that has the source's record and the replies of the copying hook
for values. A clone is equal to its source. Without state of the hook, joining the copies of two lists
with the same hooks is as good as copying the lists joined. -/
theorem World.copy_laws (hw : w.Reachable B budgets hookState) (hl : l ∈ w.holdings.lists)
    (hr : w.store.heap.record? l = some r) (fallback : η) : w.CopyLaws B l r fallback where
  copied _ hc := hw.copied hl hr hc
  cloned _ _ _ _ hdup hlaw hc := hw.cloned hl hr hdup hlaw hc
  joined _ _ _ _ _ hstate hlm hm hr' hhooks := hw.joined hl hr hstate hlm hm hr' hhooks

/-- Two lists are cloned and the clones joined: the blocks 6 to 9 and 10 to 11 are new. -/
theorem World.copy_laws_cloned :
    let B : Behaviour Unit Unit Nat := {
      dup _ s x := (.returns (some x), s)
      free _ s _ := (.returns (), s)
      freeUnwinding _ s _ := s
      matching _ s x y := (.returns (x == y), s) }
    let w := ((World.start #[] ()).run B [.collect [1, 2, 2], .collect [3]]).2
    let w₂ := (w.run B [.duplicate 0 (), .duplicate 4 (), .join 6 10]).2
    let w₃ := (w.run B [.join 0 4, .duplicate 0 ()]).2
    (0 ∈ w.holdings.lists ∧ w.store.heap.record? 0 = some ⟨3, {}, .global⟩) ∧
      B.LawfulClone () () (· == ·) (fun x => [UInt8.ofNat x]) ∧ B.Stateless () ∧
      (w.perform B (.duplicate 0 ())).1 = .answered (.list 6) ∧
      w₂.store.heap.entries 6 = [(7, 1), (8, 2), (9, 2), (11, 3)] ∧
      w₃.store.heap.entries 6 = [(7, 1), (8, 2), (9, 2), (10, 3)] ∧
      w.CopyLaws B 0 ⟨3, {}, .global⟩ () := by
  intro B w w₂ w₃
  have hw : w.Reachable B #[] () := ⟨_, rfl⟩
  have hl : 0 ∈ w.holdings.lists := by decide +kernel
  have hr : w.store.heap.record? 0 = some ⟨3, {}, .global⟩ := by decide +kernel
  have hlaw : B.LawfulClone () () (· == ·) (fun x => [UInt8.ofNat x]) := by
    refine ⟨⟨fun x => by simp, fun h => ?_, fun h h' => ?_⟩, fun _ _ _ => rfl, fun _ x y h => ?_,
      fun x y h => ?_⟩
    · simpa using (beq_iff_eq.1 h).symm
    · simpa using (beq_iff_eq.1 h).trans (beq_iff_eq.1 h')
    · simpa [B] using h
    · rw [beq_iff_eq.1 h]
  exact ⟨⟨hl, hr⟩, hlaw, fun _ _ _ => rfl, by decide +kernel, by decide +kernel,
    by decide +kernel, World.copy_laws hw hl hr ()⟩

end

end RingList
