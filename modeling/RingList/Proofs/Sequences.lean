import Mathlib.Logic.Function.Basic
import RingList.Proofs.History
import RingList.Proofs.Holdings

/-!
# Lists as sequences

Seen from outside a list is a sequence of handles with values, and what a program owns is a map
from lists to such sequences. `Sequences.Step` says what the operations do to this map and what
they answer, without blocks, links or lengths.

* `Effect.sequences`: an operation that is not denied memory, and whose hooks do not panic, is a
  step.
* `World.simulates`: a run of such operations is a run of the map, with the same answers.
-/

set_option autoImplicit false

namespace RingList

variable {η σ α : Type} {B : Behaviour η σ α}

/-- The lists that there are, with their handles and values in order. -/
abbrev Sequences (α : Type) := Addr → Option (List (Addr × α))

namespace Sequences

/-- The address is of no list and no handle. -/
def Fresh (m : Sequences α) (a : Addr) : Prop :=
  m a = none ∧ ∀ l es, m l = some es → a ∉ es.map (·.1)

def set (m : Sequences α) (l : Addr) (es : List (Addr × α)) : Sequences α :=
  Function.update m l (some es)

def erase (m : Sequences α) (l : Addr) : Sequences α := Function.update m l none

/-- The operation names lists that there are, and a handle in its list. -/
def Allows (m : Sequences α) : Op η α → Prop
  | .insert l a _ _ | .delete l a | .exchange l a _ | .value l a | .nextNode l a | .prevNode l a =>
    ∃ es, m l = some es ∧ a ∈ es.map (·.1)
  | .join l o => m l ≠ none ∧ m o ≠ none ∧ l ≠ o
  | .extend l _ | .addHead l _ | .addTail l _ | .popFront l | .popBack l | .clear l | .destroy l
  | .rotate l | .setFront l _ | .setBack l _ | .installHook l _ _ | .setHooks l _ | .head l
  | .tail l | .front l | .back l | .length l | .isEmpty l => m l ≠ none
  | _ => True

/-- **The operations on sequences**: what they answer and what becomes of the lists. -/
inductive Step (m : Sequences α) : Op η α → Answer η α → Sequences α → Prop
  /-- A new list is empty. -/
  | created {source : Allocator} {l : Addr} (hl : m.Fresh l) :
      Step m (.create source) (.list l) (m.set l [])
  /-- A new list has the given values, in order. -/
  | collected {es : List (Addr × α)} {l : Addr} (hfresh : ∀ a ∈ l :: es.map (·.1), m.Fresh a)
      (hnd : (l :: es.map (·.1)).Nodup) :
      Step m (.collect (es.map (·.2))) (.list l) (m.set l es)
  /-- One fresh handle with the value comes first, last, or next to the given handle. -/
  | placed {op : Op η α} {l a : Addr} {es xs ys : List (Addr × α)} {x : α} (hl : m l = some es)
      (hp : Placing l es op xs x ys) (ha : m.Fresh a) :
      Step m op (.node (some a)) (m.set l (xs ++ (a, x) :: ys))
  /-- The values come last, in order, with fresh handles. -/
  | extended {l : Addr} {es new : List (Addr × α)} (hl : m l = some es)
      (hfresh : ∀ a ∈ new.map (·.1), m.Fresh a) (hnd : (new.map (·.1)).Nodup) :
      Step m (.extend l (new.map (·.2))) .done (m.set l (es ++ new))
  /-- The value of one handle is exchanged, and the one before is handed out. -/
  | written {op : Op η α} {l a : Addr} {es xs ys : List (Addr × α)} {x y : α} (hl : m l = some es)
      (hw : Writing l es op xs a x y ys) :
      Step m op (.value (some x)) (m.set l (xs ++ (a, y) :: ys))
  /-- There is nothing at the end of an empty list. -/
  | missed {op : Op η α} {l : Addr} (hl : m l = some []) (hm : Missing l op) :
      Step m op (.value none) m
  /-- The first or the last handle goes, and its value is handed out. -/
  | taken {op : Op η α} {l a : Addr} {es xs ys : List (Addr × α)} {x : α} (hl : m l = some es)
      (ht : Taking l es op xs a x ys) : Step m op (.value (some x)) (m.set l (xs ++ ys))
  /-- The given handle goes. -/
  | deleted {l a : Addr} {xs ys : List (Addr × α)} {x : α} (hl : m l = some (xs ++ (a, x) :: ys)) :
      Step m (.delete l a) .done (m.set l (xs ++ ys))
  | cleared {l : Addr} {es : List (Addr × α)} (hl : m l = some es) :
      Step m (.clear l) .done (m.set l [])
  | destroyed {l : Addr} {es : List (Addr × α)} (hl : m l = some es) :
      Step m (.destroy l) .done (m.erase l)
  /-- The last handle becomes the first. -/
  | rotated {l : Addr} {es : List (Addr × α)} (hl : m l = some es) :
      Step m (.rotate l) .done (m.set l (RingList.rotated es))
  /-- The handles of the other list come last, and the other list is empty. -/
  | joined {l o : Addr} {es fs : List (Addr × α)} (hlo : l ≠ o) (hl : m l = some es)
      (ho : m o = some fs) : Step m (.join l o) .done ((m.set l (es ++ fs)).set o [])
  | read {op : Op η α} {l : Addr} {es : List (Addr × α)} {a : Answer η α} (hl : m l = some es)
      (hr : Reading l es op a) : Step m op a m
  /-- Hooks are no part of a sequence. -/
  | hooked {op : Op η α} {l : Addr} {es : List (Addr × α)} (hl : m l = some es)
      (hop : (∃ hs, op = .setHooks l hs) ∨ ∃ kind h, op = .installHook l kind h) : Step m op .done m

/-- Operations one after another, with their outcomes. What may not be asked for does nothing. -/
inductive Run : Sequences α → List (Op η α × Outcome η α) → Sequences α → Prop
  | nil (m : Sequences α) : Run m [] m
  | answered {m m' m'' : Sequences α} {op : Op η α} {a : Answer η α}
      {rest : List (Op η α × Outcome η α)} (hs : Step m op a m') (hr : Run m' rest m'') :
      Run m ((op, .answered a) :: rest) m''
  | misused {m m' : Sequences α} {op : Op η α} {why : Misuse} {rest : List (Op η α × Outcome η α)}
      (hop : ¬ m.Allows op) (hr : Run m rest m') : Run m ((op, .misused why) :: rest) m'

end Sequences

/-- The operation is one on sequences. -/
def Op.onSequences : Op η α → Bool
  | .create _ | .collect _ | .extend _ _ | .addHead _ _ | .addTail _ _ | .insert _ _ _ _
  | .delete _ _ | .popFront _ | .popBack _ | .clear _ | .destroy _ | .rotate _ | .join _ _
  | .exchange _ _ _ | .setFront _ _ | .setBack _ _ | .installHook _ _ _ | .setHooks _ _ | .head _
  | .tail _ | .front _ | .back _ | .length _ | .isEmpty _ | .value _ _ | .nextNode _ _
  | .prevNode _ _ => true
  | _ => false

theorem Op.onSequences_of_looks {op : Op η α} (h : op.looks = true) : op.onSequences = false := by
  cases op <;> first | rfl | cases h

theorem Op.onSequences_of_consults {op : Op η α} (h : op.consults = true) :
    op.onSequences = false := by
  cases op <;> first | rfl | cases h

/-- Memory was not to be had, or a hook panicked. -/
def Outcome.isDenied : Outcome η α → Bool
  | .stopped (.refused _) | .stopped (.panicked _) | .misused .wouldAbort
  | .misused .unknownAllocator => true
  | _ => false

/-- The lists that the program owns, as sequences. -/
def World.sequences (w : World η σ α) : Sequences α := fun l =>
  if l ∈ w.owners then some (w.store.heap.entries l) else none

/-! ## Sequences and views -/

def Sequences.Shows (m : Sequences α) (lists : List (Addr × Strip η α)) : Prop :=
  ∀ l es, m l = some es ↔ ∃ k, (l, k) ∈ lists ∧ k.entries = es

namespace Sequences.Shows

variable {m m' : Sequences α} {lists lists' rest : List (Addr × Strip η α)} {l : Addr}
  {k : Strip η α}

theorem perm (hm : m.Shows lists) (hp : lists.Perm lists') : m.Shows lists' := fun l es => by
  simp only [hm l es, hp.mem_iff]

theorem eq_of_mem (hm : m.Shows lists) (hl : (l, k) ∈ lists) : m l = some k.entries :=
  (hm l k.entries).2 ⟨k, hl, rfl⟩

theorem eq_none (hm : m.Shows lists) (hl : l ∉ lists.map (·.1)) : m l = none := by
  refine Option.eq_none_iff_forall_ne_some.2 fun es hes => hl ?_
  obtain ⟨k, hk, -⟩ := (hm l es).1 hes
  exact List.mem_map_of_mem hk

theorem not_mem (hm : m.Shows lists) (hl : m l = none) : l ∉ lists.map (·.1) := by
  intro hmem
  obtain ⟨⟨l', k⟩, hk, rfl⟩ := List.mem_map.1 hmem
  exact absurd (hm.eq_of_mem hk) (by simp [hl])

theorem unique (hm : m.Shows lists) (hm' : m'.Shows lists) : m = m' :=
  funext fun l => Option.ext fun es => (hm l es).trans (hm' l es).symm

theorem cons (hm : m.Shows rest) (hl : l ∉ rest.map (·.1)) :
    (m.set l k.entries).Shows ((l, k) :: rest) := by
  intro x es
  by_cases hx : x = l
  · subst hx
    have hout : ∀ k', (x, k') ∉ rest := fun k' hk' => hl (List.mem_map_of_mem hk')
    simp [set, hout]
  · simp [set, hx, hm x es]

theorem tail (hm : m.Shows ((l, k) :: rest)) (hl : l ∉ rest.map (·.1)) :
    (m.erase l).Shows rest := by
  intro x es
  by_cases hx : x = l
  · subst hx
    have hout : ∀ k', (x, k') ∉ rest := fun k' hk' => hl (List.mem_map_of_mem hk')
    simp [erase, hout]
  · simp [erase, hx, hm x es]

theorem replace (hm : m.Shows ((l, k) :: rest)) (hl : l ∉ rest.map (·.1)) (k' : Strip η α) :
    (m.set l k'.entries).Shows ((l, k') :: rest) := by
  have h := (hm.tail hl).cons (k := k') hl
  have hset : (m.erase l).set l k'.entries = m.set l k'.entries := Function.update_idem _ _ _
  rwa [hset] at h

end Sequences.Shows

/-! ## The effects of operations -/

section
variable {m : Sequences α} {w w' : World η σ α} {v v' : View η σ α} {op : Op η α} {o : Outcome η α}

theorem World.Sound.shows_sequences (hw : w.Sound v) : w.sequences.Shows v.lists := by
  intro l es
  unfold World.sequences
  split
  · next hl =>
    obtain ⟨k, rest, hp⟩ := hw.strip hl
    have hk : (l, k) ∈ v.lists := hp.mem_iff.2 List.mem_cons_self
    rw [(hw.ring hk).entries_eq]
    refine ⟨fun he => ⟨k, hk, Option.some.inj he⟩, fun ⟨k', hk', he⟩ => ?_⟩
    rw [(hw.ring hk).unique (hw.ring hk'), he]
  · next hl =>
    refine ⟨nofun, fun ⟨k, hk, _⟩ => absurd ?_ hl⟩
    exact hw.owners.mem_iff.1 (List.mem_map_of_mem hk)

/-- An address that is not handed out yet is fresh. -/
theorem World.Sound.fresh (hw : w.Sound v) (hm : m.Shows v.lists) {a : Addr} (ha : v.fresh ≤ a) :
    m.Fresh a := by
  have hout : a ∉ v.lists.flatMap Strip.blocks :=
    hw.shows.lists.not_mem_of_size_le (hw.shows.fresh.trans_le ha)
  refine ⟨hm.eq_none fun hmem => hout ?_, fun l es hes hmem => hout ?_⟩
  · obtain ⟨p, hp, rfl⟩ := List.mem_map.1 hmem
    exact List.mem_flatMap.2 ⟨p, hp, List.mem_cons_self⟩
  · obtain ⟨k, hk, rfl⟩ := (hm l es).1 hes
    exact List.mem_flatMap.2 ⟨(l, k), hk, List.mem_cons_of_mem _ hmem⟩

/-- An operation changes the map at the one list that it works on, whose header no other list has. -/
theorem World.Sound.shows_split {l : Addr} {k : Strip η α} {rest : List (Addr × Strip η α)}
    (hw : w.Sound v) (hm : m.Shows v.lists) (hl : v.lists.Perm ((l, k) :: rest)) :
    m.Shows ((l, k) :: rest) ∧ l ∉ rest.map (·.1) ∧ m l = some k.entries := by
  have hnd := (hl.map (·.1)).nodup_iff.1 hw.shows.lists.nodup_headers
  exact ⟨hm.perm hl, (List.nodup_cons.1 hnd).1, (hm.perm hl).eq_of_mem List.mem_cons_self⟩

/-- The next blocks that are handed out are fresh, and no two of them are the same. -/
theorem World.Sound.fresh_numbered (xs : List α) (hw : w.Sound v) (hm : m.Shows v.lists) {n : Nat}
    (hn : v.fresh ≤ n) : (∀ a ∈ (numbered n xs).map (·.1), m.Fresh a) ∧
      ((numbered n xs).map (·.1)).Nodup := by
  rw [numbered_nodes]
  exact ⟨fun a ha => hw.fresh hm (hn.trans (List.mem_range'_1.1 ha).1), List.nodup_range'⟩

theorem sequences_collected (xs : List α) (hw : w.Sound v) (hm : m.Shows v.lists) :
    ∃ m', m.Step (.collect xs : Op η α) (.list v.fresh) m' ∧
      m'.Shows ((v.fresh, ⟨{}, .global, numbered (v.fresh + 1) xs⟩) :: v.lists) := by
  have hl := hw.fresh hm (Nat.le_refl v.fresh)
  obtain ⟨hfresh, hnd⟩ := hw.fresh_numbered xs hm (Nat.le_succ v.fresh)
  have hout : v.fresh ∉ (numbered (v.fresh + 1) xs).map (·.1) := by
    rw [numbered_nodes]
    exact fun hmem => Nat.lt_irrefl _ (List.mem_range'_1.1 hmem).1
  have hs := Sequences.Step.collected (η := η) (List.forall_mem_cons.2 ⟨hl, hfresh⟩)
    (List.nodup_cons.2 ⟨hout, hnd⟩)
  rw [numbered_values] at hs
  exact ⟨_, hs, hm.cons (k := ⟨{}, .global, numbered (v.fresh + 1) xs⟩) (hm.not_mem hl.1)⟩

section
variable {l : Addr} {k : Strip η α} {rest : List (Addr × Strip η α)}

theorem sequences_extended (xs : List α) (hw : w.Sound v) (hm : m.Shows v.lists)
    (hl : v.lists.Perm ((l, k) :: rest)) : ∃ m', m.Step (.extend l xs : Op η α) .done m' ∧
      m'.Shows ((l, { k with entries := k.entries ++ numbered v.fresh xs }) :: rest) := by
  obtain ⟨hml, hrest, hk⟩ := hw.shows_split hm hl
  obtain ⟨hfresh, hnd⟩ := hw.fresh_numbered xs hm (Nat.le_refl v.fresh)
  have hs := Sequences.Step.extended (η := η) hk hfresh hnd
  rw [numbered_values] at hs
  exact ⟨_, hs, hml.replace hrest { k with entries := k.entries ++ numbered v.fresh xs }⟩

theorem sequences_joined {n : Addr} {k' : Strip η α} (hw : w.Sound v) (hm : m.Shows v.lists)
    (hl : v.lists.Perm ((l, k) :: (n, k') :: rest)) :
    ∃ m', m.Step (.join l n : Op η α) .done m' ∧
      m'.Shows ((l, { k with entries := k.entries ++ k'.entries }) ::
        (n, { k' with entries := [] }) :: rest) := by
  obtain ⟨hml, hrest, hk⟩ := hw.shows_split hm hl
  obtain ⟨-, hrest', hk'⟩ := hw.shows_split hm (hl.trans (.swap _ _ _))
  have hln : l ≠ n := fun he => hrest (by simp [he])
  have hn : n ∉ ((l, { k with entries := k.entries ++ k'.entries }) :: rest).map (·.1) := by
    simpa using hrest'
  have hm' := (hml.replace hrest { k with entries := k.entries ++ k'.entries }).perm (.swap _ _ _)
  exact ⟨_, .joined hln hk hk', (hm'.replace hn { k' with entries := [] }).perm (.swap _ _ _)⟩

theorem sequences_rehooked (hs : Hooks η) (hw : w.Sound v) (hm : m.Shows v.lists)
    (hl : v.lists.Perm ((l, k) :: rest))
    (hop : (∃ hs, op = .setHooks l hs) ∨ ∃ kind h, op = .installHook l kind h) :
    m.Step op .done m ∧ m.Shows ((l, { k with hooks := hs }) :: rest) := by
  obtain ⟨hml, hrest, hk⟩ := hw.shows_split hm hl
  have hsame : m.set l k.entries = m := by
    unfold Sequences.set
    rw [← hk, Function.update_eq_self]
  have hm' := hml.replace hrest { k with hooks := hs }
  rw [hsame] at hm'
  exact ⟨.hooked hk hop, hm'⟩

end

/-- A hook that is not to panic replies. -/
theorem Reply.stop_of_granted {β : Type} {reply : Reply β} {kind : HookKind} {a : Answer η α}
    (ho : (Outcome.ofStop a (reply.stop kind)).isDenied = false) : reply.stop kind = none := by
  cases reply with
  | returns b => rfl
  | panics => cases ho

theorem Teardown.stop_of_granted {t : Teardown η σ α} {a : Answer η α}
    (ho : (Outcome.ofStop a t.stop).isDenied = false) : t.stop = none := by
  unfold Teardown.stop at ho ⊢
  cases hleft : t.left with
  | none => rfl
  | some es =>
    rw [hleft] at ho
    cases ho

/-- **What an operation does on sequences.** -/
theorem Effect.sequences (hw : w.Sound v) (hm : m.Shows v.lists) (he : Effect B v op o v')
    (hop : op.onSequences = true) (ho : o.isDenied = false) :
    (∃ why, o = .misused why) ∨
      ∃ a m', o = .answered a ∧ Sequences.Step m op a m' ∧ m'.Shows v'.lists := by
  cases he with
  | misused op why => exact .inl ⟨why, rfl⟩
  | looked hlooks => simp [Op.onSequences_of_looks hlooks] at hop
  | consulted hconsults => simp [Op.onSequences_of_consults hconsults] at hop
  | read hl hr => exact .inr ⟨_, m, rfl, .read (hm.eq_of_mem hl) hr, hm⟩
  | readHooks hl => cases hop
  | readAllocator hl => cases hop
  | owned l => cases hop
  | calledDup h x o => cases hop
  | calledFree h x o => cases hop
  | refilled i budget => cases hop
  | created hserve =>
    have hl := hw.fresh hm (Nat.le_refl _)
    exact .inr ⟨_, _, rfl, .created hl, hm.cons (k := ⟨{}, _, []⟩) (hm.not_mem hl.1)⟩
  | notCreated hserve => cases ho
  | @collected xs hs =>
    obtain ⟨m', hstep, hm'⟩ := sequences_collected xs hw hm
    exact .inr ⟨_, m', rfl, hstep, hm'⟩
  | duplicated fallback hl => cases hop
  | @placed op l k rest xs ys x hl hp hserve =>
    obtain ⟨hml, hrest, hk⟩ := hw.shows_split hm hl
    exact .inr ⟨_, _, rfl, .placed hk hp (hw.fresh hm (Nat.le_refl _)),
      hml.replace hrest { k with entries := xs ++ (v.fresh, x) :: ys }⟩
  | notPlaced hl hp hserve => cases ho
  | @extended l k rest xs hl hs =>
    obtain ⟨m', hstep, hm'⟩ := sequences_extended xs hw hm hl
    exact .inr ⟨_, m', rfl, hstep, hm'⟩
  | @written op l k rest xs ys a x y hl hwr =>
    obtain ⟨hml, hrest, hk⟩ := hw.shows_split hm hl
    exact .inr ⟨_, _, rfl, .written hk hwr,
      hml.replace hrest { k with entries := xs ++ (a, y) :: ys }⟩
  | missed hl hk hmiss => exact .inr ⟨_, m, rfl, .missed (hk ▸ hm.eq_of_mem hl) hmiss, hm⟩
  | @rotated l k rest hl =>
    obtain ⟨hml, hrest, hk⟩ := hw.shows_split hm hl
    exact .inr ⟨_, _, rfl, .rotated hk,
      hml.replace hrest { k with entries := RingList.rotated k.entries }⟩
  | joined hl =>
    obtain ⟨m', hstep, hm'⟩ := sequences_joined hw hm hl
    exact .inr ⟨_, m', rfl, hstep, hm'⟩
  | @rehooked op l k rest hs hl hhooks =>
    obtain ⟨hstep, hm'⟩ := sequences_rehooked hs hw hm hl
      (hhooks.imp (fun he => ⟨hs, he⟩) fun ⟨kind, h, he, _⟩ => ⟨kind, h, he⟩)
    exact .inr ⟨_, m, rfl, hstep, hm'⟩
  | @taken op l k rest xs ys a x hl ht =>
    obtain ⟨hml, hrest, hk⟩ := hw.shows_split hm hl
    exact .inr ⟨_, _, rfl, .taken hk ht, hml.replace hrest { k with entries := xs ++ ys }⟩
  | @deleted l k rest xs ys a x hl hk =>
    obtain ⟨hml, hrest, hentries⟩ := hw.shows_split hm hl
    rw [hk] at hentries
    exact .inr ⟨_, _, congrArg (Outcome.ofStop .done) (Reply.stop_of_granted ho),
      .deleted hentries, hml.replace hrest { k with entries := xs ++ ys }⟩
  | @cleared l k rest hl =>
    obtain ⟨hml, hrest, hk⟩ := hw.shows_split hm hl
    exact .inr ⟨_, _, congrArg (Outcome.ofStop .done) (Teardown.stop_of_granted ho),
      .cleared hk, hml.replace hrest { k with entries := [] }⟩
  | @destroyed op l k rest hends hl =>
    obtain ⟨hml, hrest, hk⟩ := hw.shows_split hm hl
    obtain rfl : op = .destroy l := (Op.eq_of_ends hends).resolve_right fun h => by
      rw [h] at hop
      cases hop
    exact .inr ⟨_, _, congrArg (Outcome.ofStop .done) (Teardown.stop_of_granted ho),
      .destroyed hk, hml.tail hrest⟩

end

/-! ## Whole runs -/

namespace World.Sound

variable {w : World η σ α} {v : View η σ α} {op : Op η α} {l a : Addr} {why : Misuse}

/-- A list that may not be named is not there. -/
theorem sequences_of_expectList (hit : w.holdings.iterators = [])
    (h : w.expectList l = .error why) :
    w.sequences l = none := by
  unfold World.expectList at h
  split at h
  · cases h
  · next hl =>
    have hout : l ∉ w.owners := by
      unfold World.owners Holdings.owners
      rw [hit, List.append_nil]
      simpa using hl
    exact if_neg hout

/-- A node that may not be named is not in the list. -/
theorem sequences_of_expectNode (hw : w.Sound v) (hit : w.holdings.iterators = [])
    (h : w.expectNode l a = .error why) :
    ¬ ∃ es, w.sequences l = some es ∧ a ∈ es.map (·.1) := by
  rintro ⟨es, hes, ha⟩
  rcases bind_error_inv h with h | ⟨_, -, h⟩
  · rw [sequences_of_expectList hit h] at hes
    cases hes
  · obtain ⟨k, hk, rfl⟩ := (hw.shows_sequences l es).1 hes
    have hholds : w.holds l a = true := (hw.ring hk).hasNode_iff.2 ha
    rw [hholds] at h
    cases h

/-- An operation that may not be asked for is not allowed. -/
theorem not_allows (hw : w.Sound v) (hit : w.holdings.iterators = [])
    (hop : op.onSequences = true) (hc : op.check w = .error why)
    (hd : (Outcome.misused why : Outcome η α).isDenied = false) : ¬ w.sequences.Allows op := by
  have one : ∀ {l}, w.expectList l = .error why → ¬ w.sequences l ≠ none := fun h hl =>
    hl (sequences_of_expectList hit h)
  have supply : ∀ {source n}, w.expectSupply source n = .error why → False := fun h => by
    unfold World.expectSupply at h
    split at h
    · cases h
    · cases h
      cases hd
  cases op with
  | create source =>
    change (if w.hasAllocator source then .ok () else .error .unknownAllocator :
      Except Misuse Unit) = .error why at hc
    split at hc
    · cases hc
    · cases hc
      cases hd
  | collect xs => exact (supply hc).elim
  | extend l xs =>
    rcases bind_error_inv hc with h | ⟨_, -, h⟩
    · exact one h
    · exact (supply h).elim
  | join l o =>
    rintro ⟨hl, ho, hlo⟩
    rcases bind_error_inv hc with h | ⟨_, -, hc⟩
    · exact one h hl
    · rcases bind_error_inv hc with h | ⟨_, -, h⟩
      · exact one h ho
      · rw [if_neg hlo] at h
        cases h
  | insert l a x after => exact sequences_of_expectNode hw hit hc
  | delete l a => exact sequences_of_expectNode hw hit hc
  | exchange l a y => exact sequences_of_expectNode hw hit hc
  | value l a => exact sequences_of_expectNode hw hit hc
  | nextNode l a => exact sequences_of_expectNode hw hit hc
  | prevNode l a => exact sequences_of_expectNode hw hit hc
  | _ => first | exact one hc | cases hop

end World.Sound

section
variable {w : World η σ α} {v : View η σ α} {op : Op η α}

/-- No owning iterator comes of operations on sequences. -/
theorem World.perform_iterators (hop : op.onSequences = true) :
    (w.perform B op).2.holdings.iterators = w.holdings.iterators := by
  rcases World.holds_perform B w op with he | ⟨-, h⟩
  · rw [he]
  · generalize (w.perform B op).2.holdings = t at h ⊢
    cases h with
    | taken => cases op <;> first | rfl | cases hop
    | listed => rfl
    | iterating he =>
      rw [he] at hop
      cases hop
    | seated => rfl
    | moved => rfl

/-- **One operation on sequences.** -/
theorem World.Sound.simulates_step (hw : w.Sound v) (hit : w.holdings.iterators = [])
    (hop : op.onSequences = true) (ho : (w.perform B op).1.isDenied = false) :
    (∃ why, (w.perform B op).1 = .misused why ∧ ¬ w.sequences.Allows op ∧ (w.perform B op).2 = w) ∨
      ∃ a, (w.perform B op).1 = .answered a ∧
        w.sequences.Step op a (w.perform B op).2.sequences := by
  obtain ⟨v', hw', he⟩ := hw.perform (B := B) op
  rcases he.sequences hw hw.shows_sequences hop ho with ⟨why, hwhy⟩ | ⟨a, m', ha, hs, hm'⟩
  · obtain ⟨hc, hsame⟩ := World.perform_misused hwhy
    rw [hwhy] at ho
    exact .inl ⟨why, hwhy, hw.not_allows hit hop hc ho, hsame⟩
  · obtain rfl := hm'.unique hw'.shows_sequences
    exact .inr ⟨a, ha, hs⟩

/-- **A run of operations on sequences.** -/
theorem World.Sound.simulates_run {ops : List (Op η α)} {w : World η σ α} {v : View η σ α}
    (hw : w.Sound v) (hit : w.holdings.iterators = []) (hops : ∀ op ∈ ops, op.onSequences = true)
    (hrun : ∀ o ∈ (w.run B ops).1, o.isDenied = false) :
    Sequences.Run w.sequences (ops.zip (w.run B ops).1) (w.run B ops).2.sequences := by
  -- without owning iterators the owners are the lists that may be named
  induction ops generalizing w v with
  | nil => exact .nil _
  | cons op ops ih =>
    have hop := hops op List.mem_cons_self
    have ho : (w.perform B op).1.isDenied = false := hrun _ List.mem_cons_self
    obtain ⟨v', hw', -⟩ := hw.perform (B := B) op
    have ih := ih hw' ((World.perform_iterators hop).trans hit)
      (fun op hm => hops op (List.mem_cons_of_mem _ hm))
      (fun o hm => hrun o (List.mem_cons_of_mem _ hm))
    show Sequences.Run w.sequences
      ((op, (w.perform B op).1) :: ops.zip ((w.perform B op).2.run B ops).1)
      ((w.perform B op).2.run B ops).2.sequences
    rcases hw.simulates_step hit hop ho with ⟨why, hwhy, hallows, hsame⟩ | ⟨a, ha, hs⟩
    · rw [hsame] at ih ⊢
      rw [hwhy]
      exact .misused hallows ih
    · rw [ha]
      exact .answered hs ih

end

/-- **A run simulates a run of sequences**: if no memory is refused and no hook panics, every
operation that the program may ask for answers what the sequences say, and leaves them behind. -/
theorem World.simulates (B : Behaviour η σ α) (budgets : Array (Option Nat)) (hookState : σ)
    (ops : List (Op η α)) (hops : ∀ op ∈ ops, op.onSequences = true)
    (hrun : ∀ o ∈ ((World.start budgets hookState).run B ops).1, o.isDenied = false) :
    Sequences.Run (fun _ => none) (ops.zip ((World.start budgets hookState).run B ops).1)
      ((World.start budgets hookState).run B ops).2.sequences :=
  (World.sound_start budgets hookState).simulates_run rfl hops hrun

/-- What is in one list comes to stand behind what is in another. -/
theorem World.simulates_two_lists :
    let B : Behaviour Unit Unit Nat := ⟨fun _ s x => (.returns (some x), s),
      fun _ s _ => (.returns (), s), fun _ s _ => s, fun _ s x y => (.returns (x == y), s)⟩
    let ops := [.collect [1, 2], .create .global, .addHead 3 7, .rotate 0, .join 3 0, .popFront 3]
    let r := (World.start #[] ()).run B ops
    Sequences.Run (fun _ => none) (ops.zip r.1) r.2.sequences ∧
      r.1 = [.list 0, .list 3, .node (some 4), .done, .done, .value (some 7)].map .answered ∧
      r.2.sequences 3 = some [(2, 2), (1, 1)] ∧ r.2.sequences 0 = some [] := by
  refine ⟨World.simulates _ #[] () _ ?_ ?_, ?_, ?_, ?_⟩
  · decide
  all_goals decide +kernel

end RingList
