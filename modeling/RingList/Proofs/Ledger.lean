import Mathlib.Algebra.GroupWithZero.Nat
import RingList.Proofs.History

/-!
# The ledger of blocks

`Ledger n held evs n' held'`: the events are the accounts of allocators. Every block served has the
next number, every block given back is held at that time with its kind, and `held` becomes `held'`.

* `Ledger.released_once`: a block that is given back was served before, and is given back once.
* `Accounts`: the events of an operation are a ledger from the blocks of the lists before it to those
  of the lists after it and the blocks that it loses.
* `Effect.ledger`: this holds of every operation.
* `World.ledger_run`: so are the events of every run.
-/

set_option autoImplicit false

namespace RingList

variable {η σ α : Type} {B : Behaviour η σ α}

def Event.isBlock : Event η α → Bool
  | .served _ _ _ | .released _ _ _ => true
  | _ => false

/-- The events lead from the blocks `held` to the blocks `held'`, and from the next block number
`n` to `n'`. -/
inductive Ledger : Nat → List Block → List (Event η α) → Nat → List Block → Prop
  | nil {n : Nat} {held held' : List Block} (hp : held.Perm held') : Ledger n held [] n held'
  | served {n n' : Nat} {held held' : List Block} {evs : List (Event η α)} (source : Allocator)
      (kind : BlockKind) (h : Ledger (n + 1) ((n, kind) :: held) evs n' held') :
      Ledger n held (.served source n kind :: evs) n' held'
  | released {n n' : Nat} {held held₁ held' : List Block} {evs : List (Event η α)} {b : Addr}
      {kind : BlockKind} (target : Allocator) (hp : held.Perm ((b, kind) :: held₁))
      (h : Ledger n held₁ evs n' held') : Ledger n held (.released target b kind :: evs) n' held'
  | other {n n' : Nat} {held held' : List Block} {e : Event η α} {evs : List (Event η α)}
      (he : e.isBlock = false) (h : Ledger n held evs n' held') : Ledger n held (e :: evs) n' held'

namespace Ledger

variable {n n₁ n' : Nat} {held held₁ held₂ held' : List Block} {evs evs' : List (Event η α)}

theorem perm_left (h : Ledger n held evs n' held') (hp : held₁.Perm held) :
    Ledger n held₁ evs n' held' := by
  induction h generalizing held₁ with
  | nil hp' => exact .nil (hp.trans hp')
  | served source kind _ ih => exact .served source kind (ih (hp.cons _))
  | released target hp' h _ => exact .released target (hp.trans hp') h
  | other he _ ih => exact .other he (ih hp)

theorem perm_right (h : Ledger n held evs n' held') (hp : held'.Perm held₂) :
    Ledger n held evs n' held₂ := by
  induction h with
  | nil hp' => exact .nil (hp'.trans hp)
  | served source kind _ ih => exact .served source kind (ih hp)
  | released target hp' _ ih => exact .released target hp' (ih hp)
  | other he _ ih => exact .other he (ih hp)

theorem append (h : Ledger n held evs n₁ held₁) (h' : Ledger n₁ held₁ evs' n' held') :
    Ledger n held (evs ++ evs') n' held' := by
  induction h with
  | nil hp => exact h'.perm_left hp
  | served source kind _ ih => exact .served source kind (ih h')
  | released target hp _ ih => exact .released target hp (ih h')
  | other he _ ih => exact .other he (ih h')

/-- A part of a ledger's events is a ledger. -/
theorem split (h : Ledger n held (evs ++ evs') n' held') :
    ∃ n₁ held₁, Ledger n held evs n₁ held₁ ∧ Ledger n₁ held₁ evs' n' held' := by
  induction evs generalizing n held with
  | nil => exact ⟨n, held, .nil (.refl _), h⟩
  | cons e evs ih =>
    cases h with
    | served source kind h =>
      obtain ⟨n₁, held₁, h₁, h'⟩ := ih h
      exact ⟨n₁, held₁, .served source kind h₁, h'⟩
    | released target hp h =>
      obtain ⟨n₁, held₁, h₁, h'⟩ := ih h
      exact ⟨n₁, held₁, .released target hp h₁, h'⟩
    | other he h =>
      obtain ⟨n₁, held₁, h₁, h'⟩ := ih h
      exact ⟨n₁, held₁, .other he h₁, h'⟩

/-- Other blocks may be held throughout. -/
theorem frame (rest : List Block) (h : Ledger n held evs n' held') :
    Ledger n (held ++ rest) evs n' (held' ++ rest) := by
  induction h with
  | nil hp => exact .nil (hp.append_right rest)
  | served source kind _ ih => exact .served source kind ih
  | released target hp _ ih => exact .released target (hp.append_right rest) ih
  | other he _ ih => exact .other he ih

theorem ofOther (hevs : ∀ e ∈ evs, e.isBlock = false) : Ledger n held evs n held := by
  induction evs with
  | nil => exact .nil (.refl _)
  | cons e evs ih => exact .other (hevs e (by simp)) (ih fun e he => hevs e (by simp [he]))

/-! ## What a ledger says -/

/-- What was held or served has been given back or is held. -/
theorem balance (h : Ledger n held evs n' held') :
    (held ++ evs.filterMap Event.served?).Perm (evs.filterMap Event.released? ++ held') := by
  induction h with
  | nil hp => simpa using hp
  | @served n n' held held' evs source kind _ ih =>
    exact List.perm_middle.trans ih
  | @released n n' held held₁ held' evs b kind target hp _ ih =>
    exact (hp.append_right _).trans (ih.cons (b, kind))
  | @other n n' held held' e evs he _ ih =>
    cases e with
    | served => cases he
    | released => cases he
    | _ => exact ih

/-- The blocks are numbered in the order in which they are served. -/
theorem served_eq (h : Ledger n held evs n' held') :
    n ≤ n' ∧ (evs.filterMap Event.served?).map (·.1) = List.range' n (n' - n) := by
  induction h with
  | nil => simp
  | @served n n' held held' evs source kind _ ih =>
    obtain ⟨hle, hmap⟩ := ih
    refine ⟨by omega, ?_⟩
    obtain ⟨m, hm⟩ : ∃ m, n' - n = m + 1 := ⟨n' - n - 1, by omega⟩
    have hm' : n' - (n + 1) = m := by omega
    rw [hm'] at hmap
    rw [hm, List.range'_succ]
    exact congrArg (n :: ·) hmap
  | @released n n' held held₁ held' evs b kind target hp _ ih => exact ih
  | @other n n' held held' e evs he _ ih =>
    cases e with
    | served => cases he
    | released => cases he
    | _ => exact ih

/-- From the start, no address is given back or held twice. -/
theorem nodup (h : Ledger 0 [] evs n held) :
    ((evs.filterMap Event.released? ++ held).map (·.1)).Nodup := by
  have hb := h.balance
  rw [List.nil_append] at hb
  rw [← (hb.map (·.1)).nodup_iff, h.served_eq.2]
  exact List.nodup_range'

/-- A block that is held has not been given back. -/
theorem not_released (h : Ledger 0 [] evs n held) {a : Addr} (ha : a ∈ held.map (·.1))
    (target : Allocator) (kind : BlockKind) : .released target a kind ∉ evs := by
  intro hrel
  have hnd := h.nodup
  rw [List.map_append] at hnd
  have hm : (a, kind) ∈ evs.filterMap Event.released? := List.mem_filterMap.2 ⟨_, hrel, rfl⟩
  exact (List.nodup_append.1 hnd).2.2 a (List.mem_map_of_mem hm) a ha rfl

/-- **A block that is given back** was served before with the same kind and is given back once. -/
theorem released_once {pre post : List (Event η α)} {target : Allocator} {b : Addr}
    {kind : BlockKind} (h : Ledger 0 [] (pre ++ .released target b kind :: post) n held) :
    (∃ source, .served source b kind ∈ pre) ∧ ∀ target' kind', .released target' b kind' ∉ pre := by
  obtain ⟨n₁, held₁, h₁, h'⟩ := h.split
  obtain ⟨held₂, hp⟩ : ∃ held₂, held₁.Perm ((b, kind) :: held₂) := by
    cases h' with
    | released _ hp _ => exact ⟨_, hp⟩
    | other he _ => cases he
  have hm : (b, kind) ∈ held₁ := hp.mem_iff.2 (by simp)
  constructor
  · have hserved : (b, kind) ∈ pre.filterMap Event.served? :=
      h₁.balance.mem_iff.2 (List.mem_append_right _ hm)
    obtain ⟨e, he, hb⟩ := List.mem_filterMap.1 hserved
    cases e with
    | served source b' kind' =>
      obtain ⟨rfl, rfl⟩ := Prod.mk.inj (Option.some.inj hb)
      exact ⟨source, he⟩
    | _ => cases hb
  · exact h₁.not_released (List.mem_map_of_mem (f := fun p : Block => p.1) hm)

end Ledger

/-! ## The blocks of lists -/

def nodeBlocks (es : List (Addr × α)) : List Block := es.map fun e => (e.1, .node)

/-- The blocks of a list. -/
def Strip.held (p : Addr × Strip η α) : List Block := (p.1, .header) :: nodeBlocks p.2.entries

def View.held (v : View η σ α) : List Block := v.lists.flatMap Strip.held

theorem held_perm {lists lists' : List (Addr × Strip η α)} (hp : lists.Perm lists') :
    (lists.flatMap Strip.held).Perm (lists'.flatMap Strip.held) := hp.flatMap_right _

@[simp] theorem nodeBlocks_append (es es' : List (Addr × α)) :
    nodeBlocks (es ++ es') = nodeBlocks es ++ nodeBlocks es' := List.map_append

@[simp] theorem nodeBlocks_cons (e : Addr × α) (es : List (Addr × α)) :
    nodeBlocks (e :: es) = (e.1, .node) :: nodeBlocks es := rfl

@[simp] theorem nodeBlocks_nil : nodeBlocks ([] : List (Addr × α)) = [] := rfl

/-! ## What the destruction of nodes does with their values -/

section
variable (B : Behaviour η σ α) (course : Course) (source : Allocator) {hooks : Hooks η}

theorem discarding_of_none (h : hooks.free = none) (σ₀ : σ) (x : α) :
    discarding B course hooks σ₀ x = ⟨.dropped x, .returns (), σ₀⟩ := by
  simp [discarding, h]

theorem discarding_of_some {f : η} (h : hooks.free = some f) (σ₀ : σ) (x : α) :
    ∃ reply, (discarding B course hooks σ₀ x).event = .free f x reply := by
  cases course <;> simp [discarding, h]

variable (hooks)

/-- A value is handed to the hook for destroyed values, or dropped if there is none. -/
theorem discarding_event (σ₀ : σ) (x : α) :
    (hooks.free = none ∧ (discarding B course hooks σ₀ x).event = .dropped x) ∨
      ∃ f reply, hooks.free = some f ∧
        (discarding B course hooks σ₀ x).event = .free f x reply := by
  cases h : hooks.free with
  | none => exact .inl ⟨rfl, by rw [discarding_of_none B course h]⟩
  | some f =>
    obtain ⟨reply, he⟩ := discarding_of_some B course h σ₀ x
    exact .inr ⟨f, reply, rfl, he⟩

theorem isBlock_discarding (σ₀ : σ) (x : α) :
    (discarding B course hooks σ₀ x).event.isBlock = false := by
  rcases discarding_event B course hooks σ₀ x with ⟨-, he⟩ | ⟨_, _, -, he⟩ <;> rw [he] <;> rfl

variable {hooks}

/-- Without a hook all values are dropped. -/
theorem teardown_of_none (h : hooks.free = none) (es : List (Addr × α)) (σ₀ : σ) :
    (teardown B course hooks source σ₀ es).left = none ∧
      freed (teardown B course hooks source σ₀ es).events = [] ∧
      dropped (teardown B course hooks source σ₀ es).events = es.map (·.2) := by
  induction es with
  | nil => exact ⟨rfl, rfl, rfl⟩
  | cons e es ih =>
    obtain ⟨a, x⟩ := e
    have hd := discarding_of_none B course h σ₀ x
    obtain ⟨hleft, hfreed, hdropped⟩ := ih
    rw [teardown_of_returns (by rw [hd]), hd]
    exact ⟨hleft, hfreed, congrArg (x :: ·) hdropped⟩

/-- With a hook the values are handed to it one after another, and those that it is not handed are
lost. -/
theorem teardown_of_some {f : η} (h : hooks.free = some f) (es : List (Addr × α)) (σ₀ : σ) :
    freed (teardown B course hooks source σ₀ es).events ++
        ((teardown B course hooks source σ₀ es).left.getD []).map (·.2) = es.map (·.2) ∧
      dropped (teardown B course hooks source σ₀ es).events = [] := by
  induction es generalizing σ₀ with
  | nil => exact ⟨rfl, rfl⟩
  | cons e es ih =>
    obtain ⟨a, x⟩ := e
    obtain ⟨reply, he⟩ := discarding_of_some B course h σ₀ x
    cases hd : (discarding B course hooks σ₀ x).reply with
    | panics =>
      rw [teardown_of_panics hd, he]
      exact ⟨rfl, rfl⟩
    | returns u =>
      obtain ⟨hvals, hdropped⟩ := ih (discarding B course hooks σ₀ x).hookState
      rw [teardown_of_returns hd, he]
      exact ⟨congrArg (x :: ·) hvals, hdropped⟩

/-- **Every value that is to be destroyed** is handed to the hook, dropped or lost. -/
theorem teardown_values (hooks : Hooks η) (es : List (Addr × α)) (σ₀ : σ) :
    freed (teardown B course hooks source σ₀ es).events ++
      (dropped (teardown B course hooks source σ₀ es).events ++
        ((teardown B course hooks source σ₀ es).left.getD []).map (·.2)) = es.map (·.2) := by
  cases h : hooks.free with
  | none =>
    obtain ⟨hleft, hfreed, hdropped⟩ := teardown_of_none B course source h es σ₀
    rw [hleft, hfreed, hdropped]
    simp
  | some f =>
    obtain ⟨hvals, hdropped⟩ := teardown_of_some B course source h es σ₀
    rw [hdropped, List.nil_append, hvals]

variable {B course source}

/-- The values that are lost are those behind the last one that the hook was handed. -/
theorem map_left {es es' : List (Addr × α)} {σ₀ : σ}
    (h : (teardown B course hooks source σ₀ es).left = some es') :
    es'.map (·.2) =
      (es.map (·.2)).drop (freed (teardown B course hooks source σ₀ es).events).length := by
  cases hf : hooks.free with
  | none => simp [(teardown_of_none B course source hf es σ₀).1] at h
  | some f =>
    have hvals := (teardown_of_some B course source hf es σ₀).1
    rw [h] at hvals
    rw [← hvals, List.drop_left]
    rfl

theorem length_left {es es' : List (Addr × α)} {σ₀ : σ}
    (h : (teardown B course hooks source σ₀ es).left = some es') :
    es'.length =
      es.length - (freed (teardown B course hooks source σ₀ es).events).length := by
  simpa using congrArg List.length (map_left h)

/-- No second panic is raised while a panic is under way. -/
theorem left_unwinding (es : List (Addr × α)) (σ₀ : σ) :
    (teardown B .unwinding hooks source σ₀ es).left = none := by
  induction es generalizing σ₀ with
  | nil => rfl
  | cons e es ih =>
    obtain ⟨a, x⟩ := e
    have hd : (discarding B .unwinding hooks σ₀ x).reply = .returns () := by
      unfold discarding
      cases hooks.free <;> rfl
    rw [teardown_of_returns hd]
    exact ih _

/-- Nodes are given back and values are handed to the hook, or dropped if there is none. -/
theorem mem_teardown {e : Event η α} : ∀ {es : List (Addr × α)} {σ₀ : σ},
    e ∈ (teardown B course hooks source σ₀ es).events →
      (∃ a, e = .released source a .node) ∨ (hooks.free = none ∧ ∃ x, e = .dropped x) ∨
        ∃ f x reply, hooks.free = some f ∧ e = .free f x reply
  | (a, x) :: es, σ₀, he => by
    have hd : (hooks.free = none ∧ ∃ y, (discarding B course hooks σ₀ x).event = .dropped y) ∨
        ∃ f y reply, hooks.free = some f ∧
          (discarding B course hooks σ₀ x).event = .free f y reply :=
      (discarding_event B course hooks σ₀ x).imp (fun ⟨h, he⟩ => ⟨h, x, he⟩)
        fun ⟨f, reply, h, he⟩ => ⟨f, x, reply, h, he⟩
    cases hr : (discarding B course hooks σ₀ x).reply with
    | panics =>
      rw [teardown_of_panics hr] at he
      simp only [List.mem_cons, List.not_mem_nil, or_false] at he
      rcases he with rfl | rfl
      · exact .inl ⟨a, rfl⟩
      · exact .inr hd
    | returns u =>
      rw [teardown_of_returns hr] at he
      simp only [List.mem_cons] at he
      rcases he with rfl | rfl | he
      · exact .inl ⟨a, rfl⟩
      · exact .inr hd
      · exact mem_teardown he

theorem copied_teardown (es : List (Addr × α)) (σ₀ : σ) :
    copied (teardown B course hooks source σ₀ es).events = [] := by
  apply List.filterMap_eq_nil_iff.2
  intro e he
  rcases mem_teardown he with ⟨_, rfl⟩ | ⟨-, _, rfl⟩ | ⟨_, _, _, -, rfl⟩ <;> rfl

end

section
variable (B : Behaviour η σ α) (course : Course) (hooks : Hooks η) (source : Allocator) (σ₀ : σ)

theorem requests_teardown (es : List (Addr × α)) :
    requests (teardown B course hooks source σ₀ es).events = 0 := by
  apply List.countP_eq_zero.2
  intro e he
  rcases mem_teardown he with ⟨_, rfl⟩ | ⟨-, _, rfl⟩ | ⟨_, _, _, -, rfl⟩ <;> simp [Event.isRequest]

theorem requests_eventsWithHeader (es : List (Addr × α)) (l : Addr) :
    requests ((teardown B course hooks source σ₀ es).eventsWithHeader source l) = 0 := by
  have h := requests_teardown B course hooks source σ₀ es
  unfold Teardown.eventsWithHeader
  cases (teardown B course hooks source σ₀ es).left with
  | none => rw [requests_append, h, requests_cons _ rfl]; rfl
  | some es => exact h

theorem isRequest_discarding (x : α) :
    (discarding B course hooks σ₀ x).event.isRequest = false := by
  rcases discarding_event B course hooks σ₀ x with ⟨-, he⟩ | ⟨_, _, -, he⟩ <;> rw [he] <;> rfl

end

/-! ## The ledgers of the operations -/

theorem ledger_servings (source : Allocator) (xs : List α) (n : Nat) (held : List Block) :
    Ledger n held (View.servings source n xs.length : List (Event η α)) (n + xs.length)
      (nodeBlocks (numbered n xs) ++ held) := by
  induction xs generalizing n held with
  | nil => exact .nil (.refl _)
  | cons x xs ih =>
    have h := ih (n + 1) ((n, .node) :: held)
    have hlen : n + (x :: xs).length = n + 1 + xs.length := by
      rw [List.length_cons]
      omega
    rw [hlen, List.length_cons, View.servings, List.range'_succ, List.map_cons]
    exact .served source .node (h.perm_right List.perm_middle)

theorem ledger_teardown (course : Course) (hooks : Hooks η) (source : Allocator) (n : Nat)
    (held : List Block) (es : List (Addr × α)) (σ₀ : σ) :
    Ledger n (nodeBlocks es ++ held) (teardown B course hooks source σ₀ es).events n
      (nodeBlocks ((teardown B course hooks source σ₀ es).left.getD []) ++ held) := by
  induction es generalizing σ₀ with
  | nil => exact .nil (.refl _)
  | cons e es ih =>
    obtain ⟨a, x⟩ := e
    -- the block is given back before the hook can panic, so this node is never among the lost ones
    have he := isBlock_discarding B course hooks σ₀ x
    cases hd : (discarding B course hooks σ₀ x).reply with
    | panics =>
      rw [teardown_of_panics hd]
      exact .released source (.refl _) (.other he (.nil (.refl _)))
    | returns u =>
      rw [teardown_of_returns hd]
      exact .released source (.refl _)
        (.other he (ih (discarding B course hooks σ₀ x).hookState))

/-- The blocks that are lost when a list is destroyed with its header. -/
def Teardown.lostBlocks (t : Teardown η σ α) (l : Addr) : List Block :=
  match t.left with
  | none => []
  | some es => (l, .header) :: nodeBlocks es

/-- The ledger when a list is destroyed with its header. -/
theorem ledger_eventsWithHeader (course : Course) (hooks : Hooks η) (source : Allocator) (n : Nat)
    (held : List Block) (l : Addr) (es : List (Addr × α)) (σ₀ : σ) :
    Ledger n ((l, .header) :: nodeBlocks es ++ held)
      ((teardown B course hooks source σ₀ es).eventsWithHeader source l) n
      (held ++ (teardown B course hooks source σ₀ es).lostBlocks l) := by
  have h := ledger_teardown (B := B) course hooks source n ((l, .header) :: held) es σ₀
  have hp : ((l, BlockKind.header) :: nodeBlocks es ++ held).Perm
      (nodeBlocks es ++ (l, .header) :: held) := List.perm_middle.symm
  unfold Teardown.eventsWithHeader Teardown.lostBlocks
  cases hleft : (teardown B course hooks source σ₀ es).left with
  | none =>
    rw [hleft] at h
    refine (h.perm_left hp).append (.released source (.refl _) (.nil ?_))
    simp
  | some es' =>
    rw [hleft] at h
    refine (h.perm_left hp).perm_right ?_
    have hcomm : ((l, BlockKind.header) :: nodeBlocks es' ++ held).Perm
        (held ++ (l, .header) :: nodeBlocks es') := List.perm_append_comm
    exact List.perm_middle.trans hcomm

/-- The number of nodes that are lost when copying stops for this reason. -/
def lostCopying : Option Stop → Nat
  | some (.panicked .dup) => 1
  | _ => 0

/-- **The ledger of copying**: one node is lost if the hook panics, and none otherwise. -/
theorem ledger_copying (dup : η) (source : Allocator) (xs : List α) (v : View η σ α)
    (held : List Block) : ∃ evs lost,
      (copying B dup source v xs).view.log = v.log ++ evs ∧
      Ledger v.fresh held evs (copying B dup source v xs).view.fresh
        (nodeBlocks (copying B dup source v xs).copies ++ (lost ++ held)) ∧
      lost.length = lostCopying (copying B dup source v xs).stop ∧
      copied evs = (copying B dup source v xs).copies.map (·.2) ∧
      freed evs = [] ∧ dropped evs = [] := by
  -- a copy's node counts as held from when it is served, so the step hands it on with `held`
  induction xs generalizing v held with
  | nil => exact ⟨[], [], by simp [copying], .nil (.refl _), rfl, rfl, rfl, rfl⟩
  | cons x xs ih =>
    cases hserve : v.serves source with
    | false =>
      rw [copying_of_refused hserve]
      exact ⟨[.refused source .node], [], rfl, .other rfl (.nil (.refl _)), rfl, rfl, rfl, rfl⟩
    | true =>
      rcases hd : (B.dup dup v.hookState x).1 with (_ | w) | _
      · rw [copying_of_fails hserve hd]
        refine ⟨[.served source v.fresh .node, .dup dup x (.returns none),
          .released source v.fresh .node], [], ?_, ?_, rfl, rfl, rfl, rfl⟩
        · simp [View.supply, View.heeding]
        · exact .served source .node (.other rfl (.released source (.refl _) (.nil (.refl _))))
      · rw [copying_of_copies hserve hd]
        obtain ⟨evs, lost, hlog, h, hlost, hcopied, hfreed, hdropped⟩ :=
          ih ((v.supply source .node).heeding [.dup dup x (.returns (some w))]
            (B.dup dup v.hookState x).2) ((v.fresh, .node) :: held)
        refine ⟨.served source v.fresh .node :: .dup dup x (.returns (some w)) :: evs, lost, ?_,
          .served source .node (.other rfl (h.perm_right ?_)), hlost,
          congrArg (w :: ·) hcopied, hfreed, hdropped⟩
        · simpa [View.supply, View.heeding] using hlog
        · simp [← List.append_assoc, List.perm_middle]
      · rw [copying_of_panics hserve hd]
        refine ⟨[.served source v.fresh .node, .dup dup x .panics], [(v.fresh, .node)], ?_, ?_, rfl,
          rfl, rfl, rfl⟩
        · simp [View.supply, View.heeding]
        · exact .served source .node (.other rfl (.nil (.refl _)))

/-! ## What is lost -/

/-- The number of blocks that an operation loses: the node without a value when the copying hook
panics, and when a hook for destroyed values panics all nodes behind the one whose value it was
handed last, and the header if the list was to go with them. `count` is the number of values in a
list. -/
def Op.leak (count : Addr → Nat) (o : Outcome η α) (evs : List (Event η α)) : Op η α → Nat
  | .duplicate _ _ =>
    match o with
    | .stopped (.panicked .dup) => 1
    | .stopped (.panicked .free) => (copied evs).length - (freed evs).length + 1
    | _ => 0
  | .clear l =>
    match o with
    | .stopped (.panicked .free) => count l - (freed evs).length
    | _ => 0
  | .destroy l | .dropIter l =>
    match o with
    | .stopped (.panicked .free) => count l - (freed evs).length + 1
    | _ => 0
  | _ => 0

/-- **The accounts of an operation**: its events are a ledger from the blocks of the lists before it to
those of the lists after it and those that it loses. -/
def Accounts (count : Addr → Nat) (v : View η σ α) (op : Op η α) (o : Outcome η α)
    (v' : View η σ α) : Prop :=
  ∃ evs lost, v'.log = v.log ++ evs ∧ Ledger v.fresh v.held evs v'.fresh (v'.held ++ lost) ∧
    lost.length = op.leak count o evs

theorem copying_stop (dup : η) (source : Allocator) (xs : List α) (v : View η σ α) :
    (copying B dup source v xs).stop ∈
      [none, some (.refused .node), some .notCopied, some (.panicked .dup)] := by
  induction xs generalizing v with
  | nil => simp [copying]
  | cons x xs ih =>
    cases hserve : v.serves source with
    | false =>
      rw [copying_of_refused hserve]
      simp
    | true =>
      rcases hd : (B.dup dup v.hookState x).1 with (_ | w) | _
      · rw [copying_of_fails hserve hd]
        simp
      · rw [copying_of_copies hserve hd]
        exact ih _
      · rw [copying_of_panics hserve hd]
        simp

/-- What is lost of a partial copy. -/
theorem leak_partial (hooks : Hooks η) (source : Allocator) (σ₀ : σ) (l copy : Addr) (fallback : η)
    (count : Addr → Nat) {es : List (Addr × α)} {e : Stop} {evs : List (Event η α)}
    (he : some e ∈ [none, some (.refused .node), some .notCopied, some (.panicked .dup)])
    (hcopied : copied evs = es.map (·.2)) (hfreed : freed evs = []) :
    lostCopying (some e) + ((teardown B e.course hooks source σ₀ es).lostBlocks copy).length =
      Op.leak count (.stopped ((teardown B e.course hooks source σ₀ es).stop.getD e))
        (evs ++ (teardown B e.course hooks source σ₀ es).eventsWithHeader source copy)
        (.duplicate l fallback : Op η α) := by
  have hcopies : copied (teardown B e.course hooks source σ₀ es).events = [] :=
    copied_teardown es σ₀
  unfold Teardown.stop Teardown.lostBlocks Teardown.eventsWithHeader
  cases hleft : (teardown B e.course hooks source σ₀ es).left with
  | none =>
    simp only [List.mem_cons, Option.some.injEq, reduceCtorEq, false_or, List.not_mem_nil,
      or_false] at he
    rcases he with rfl | rfl | rfl <;> rfl
  | some es' =>
    have hlen := length_left hleft
    have hlost : lostCopying (some e) = 0 := by
      rcases e with _ | _ | (_ | _ | _) | _
      · rfl
      · rfl
      · simp [Stop.course, left_unwinding] at hleft
      · rfl
      · rfl
      · rfl
    have hc : (copied evs).length = es.length := by rw [hcopied, List.length_map]
    simp only [Option.map_some, Option.getD_some, Op.leak, copied_append, hcopies, freed_append,
      hfreed, hlost, nodeBlocks, List.length_append, List.length_cons, List.length_map,
      List.length_nil]
    omega

/-- **The accounts of a duplication.** -/
theorem accounts_duplicating (v : View η σ α) (k : Strip η α) (l : Addr) (fallback : η)
    (count : Addr → Nat) (a : Answer η α) :
    Accounts count v (.duplicate l fallback) (.ofStop a (duplicating B v k fallback).stop)
      (duplicating B v k fallback).view := by
  cases hserve : v.serves k.allocator with
  | false =>
    rw [duplicating_of_refused hserve]
    refine ⟨[.refused k.allocator .header], [], rfl, .other rfl (.nil ?_), rfl⟩
    simp [View.held]
  | true =>
    have hc : copyingAll B v k fallback = copying B (k.hooks.dup.getD fallback) k.allocator
      (v.supply k.allocator .header) k.values := rfl
    obtain ⟨evs, lost, hlog, h, hlost, hcopied, hfreed, -⟩ :=
      ledger_copying (B := B) (k.hooks.dup.getD fallback) k.allocator k.values
        (v.supply k.allocator .header) ((v.fresh, .header) :: v.held)
    have hstops := copying_stop (B := B) (k.hooks.dup.getD fallback) k.allocator k.values
      (v.supply k.allocator .header)
    rw [← hc] at hlog h hlost hcopied hstops
    cases hstop : (copyingAll B v k fallback).stop with
    | none =>
      rw [duplicating_of_complete hserve hstop]
      rw [hstop] at hlost
      obtain rfl : lost = [] := List.length_eq_zero_iff.1 hlost
      refine ⟨.served k.allocator v.fresh .header :: evs, [], ?_,
        .served k.allocator .header (h.perm_right ?_), rfl⟩
      · simpa [View.supply] using hlog
      · simp [View.held, Strip.held]
    | some e =>
      rw [duplicating_of_partial hserve hstop]
      dsimp only
      rw [hstop] at hlost hstops
      have ht := ledger_eventsWithHeader (B := B) e.course k.hooks k.allocator
        (copyingAll B v k fallback).view.fresh (lost ++ v.held) v.fresh
        (copyingAll B v k fallback).copies (copyingAll B v k fallback).view.hookState
      have hleak := leak_partial (B := B) k.hooks k.allocator
        (copyingAll B v k fallback).view.hookState l v.fresh fallback count hstops hcopied hfreed
      generalize teardown B e.course k.hooks k.allocator
        (copyingAll B v k fallback).view.hookState (copyingAll B v k fallback).copies = t
        at ht hleak ⊢
      refine ⟨.served k.allocator v.fresh .header ::
          (evs ++ t.eventsWithHeader k.allocator v.fresh), lost ++ t.lostBlocks v.fresh, ?_,
        .served k.allocator .header ((h.append (ht.perm_left ?_)).perm_right ?_), ?_⟩
      · rw [View.heeding_log, View.having_log, hlog, View.supply_log]
        simp
      · rw [← List.append_assoc, ← List.append_assoc]
        exact List.perm_middle
      · rw [← List.append_assoc]
        exact List.perm_append_comm.append_right _
      · rw [List.length_append, hlost]
        exact hleak

/-! ## The effects of operations -/

section
variable {v v' : View η σ α} {op : Op η α} {o : Outcome η α} {count : Addr → Nat}

/-- The blocks of one list and of the others. -/
theorem held_of_perm {l : Addr} {k : Strip η α} {rest : List (Addr × Strip η α)}
    (hl : v.lists.Perm ((l, k) :: rest)) :
    v.held.Perm ((l, .header) :: nodeBlocks k.entries ++ rest.flatMap Strip.held) :=
  held_perm hl

theorem held_of_split {l a : Addr} {x : α} {k : Strip η α} {rest : List (Addr × Strip η α)}
    {xs ys : List (Addr × α)} (hl : v.lists.Perm ((l, k) :: rest))
    (hk : k.entries = xs ++ (a, x) :: ys) :
    v.held.Perm ((a, .node) ::
      ((l, { k with entries := xs ++ ys }) :: rest).flatMap Strip.held) := by
  refine (held_of_perm hl).trans ?_
  rw [hk]
  simp only [List.flatMap_cons, Strip.held, nodeBlocks_append, nodeBlocks_cons, List.cons_append,
    List.append_assoc]
  exact (List.perm_middle.cons _).trans (.swap _ _ _)

/-- An effect without events about blocks. -/
theorem accounts_quiet {evs : List (Event η α)} (hlog : v'.log = v.log ++ evs)
    (hevs : ∀ e ∈ evs, e.isBlock = false) (hfresh : v'.fresh = v.fresh)
    (hheld : v.held.Perm v'.held) (hleak : op.leak count o evs = 0) :
    Accounts count v op o v' := by
  refine ⟨evs, [], hlog, ?_, hleak.symm⟩
  rw [hfresh, List.append_nil]
  exact (Ledger.ofOther hevs).perm_right hheld

theorem leak_of_looks (hop : op.looks = true) (evs : List (Event η α)) :
    op.leak count o evs = 0 := by
  cases op <;> first | rfl | cases hop

theorem leak_of_consults (hop : op.consults = true) (evs : List (Event η α)) :
    op.leak count o evs = 0 := by
  cases op <;> first | rfl | cases hop

theorem isBlock_of_isMatching {e : Event η α} (he : e.isMatching = true) : e.isBlock = false := by
  cases e <;> first | rfl | cases he

/-! ### Blocks that are served -/

section
variable {l : Addr} {k : Strip η α} {rest : List (Addr × Strip η α)} {xs ys : List (Addr × α)}
  {a : Addr} {x : α}

theorem accounts_collected (xs : List α) : Accounts count v (.collect xs) (.answered (.list v.fresh))
    (((v.supply .global .header).supplyMany .global xs.length).having
      ((v.fresh, ⟨{}, .global, numbered (v.fresh + 1) xs⟩) :: v.lists)) := by
  have h := ledger_servings (η := η) .global xs (v.fresh + 1) ((v.fresh, .header) :: v.held)
  refine ⟨.served .global v.fresh .header :: View.servings .global (v.fresh + 1) xs.length, [],
    by simp, ?_, rfl⟩
  rw [View.having_fresh, View.supplyMany_fresh]
  refine .served .global .header (h.perm_right ?_)
  simp [View.held, Strip.held]

theorem accounts_placed (hl : v.lists.Perm ((l, k) :: rest)) (hp : Placing l k.entries op xs x ys) :
    Accounts count v op (.answered (.node (some v.fresh))) (v.placed l k rest xs x ys) := by
  refine ⟨[.served k.allocator v.fresh .node], [], rfl, .served k.allocator .node (.nil ?_), ?_⟩
  · refine ((held_of_perm hl).cons _).trans ?_
    rw [hp.split, nodeBlocks_append, List.append_nil]
    simp only [View.held, View.placed, View.having_lists, List.flatMap_cons, Strip.held,
      nodeBlocks_append, nodeBlocks_cons, List.cons_append, List.append_assoc]
    exact (List.Perm.swap _ _ _).trans (List.perm_middle.symm.cons _)
  · cases hp <;> rfl

theorem accounts_extended (xs : List α) (hl : v.lists.Perm ((l, k) :: rest)) :
    Accounts count v (.extend l xs) (.answered .done)
      ((v.supplyMany k.allocator xs.length).having
        ((l, { k with entries := k.entries ++ numbered v.fresh xs }) :: rest)) := by
  have h := ledger_servings (η := η) k.allocator xs v.fresh v.held
  refine ⟨View.servings k.allocator v.fresh xs.length, [], View.supplyMany_log _, ?_, rfl⟩
  rw [View.having_fresh, View.supplyMany_fresh]
  refine h.perm_right (((held_of_perm hl).append_left _).trans ?_)
  simp only [View.held, View.having_lists, List.flatMap_cons, Strip.held, nodeBlocks_append,
    List.cons_append, List.append_nil, List.append_assoc]
  exact List.perm_middle.trans ((List.perm_append_comm_assoc _ _ _).cons _)

/-! ### Blocks that change hands -/

theorem held_joined {m : Addr} {k' : Strip η α}
    (hl : v.lists.Perm ((l, k) :: (m, k') :: rest)) :
    v.held.Perm (v.having ((l, { k with entries := k.entries ++ k'.entries }) ::
      (m, { k' with entries := [] }) :: rest)).held := by
  refine (held_of_perm hl).trans ?_
  simp only [View.held, View.having_lists, List.flatMap_cons, Strip.held, nodeBlocks_append,
    nodeBlocks_nil, List.cons_append, List.append_assoc]
  exact (List.perm_middle.symm.append_left _).cons _

/-! ### Blocks that are given back -/

theorem accounts_taken (hl : v.lists.Perm ((l, k) :: rest)) (ht : Taking l k.entries op xs a x ys) :
    Accounts count v op (.answered (.value (some x)))
      ((v.having ((l, { k with entries := xs ++ ys }) :: rest)).note
        [.released k.allocator a .node]) := by
  refine ⟨[.released k.allocator a .node], [], rfl,
    .released _ (held_of_split hl ht.split) (.nil ?_), by cases ht <;> rfl⟩
  simp [View.held]

theorem accounts_deleted (hl : v.lists.Perm ((l, k) :: rest)) (hk : k.entries = xs ++ (a, x) :: ys) :
    Accounts count v (.delete l a) o
      ((v.having ((l, { k with entries := xs ++ ys }) :: rest)).heeding
        [.released k.allocator a .node, (discarding B .ordinary k.hooks v.hookState x).event]
        (discarding B .ordinary k.hooks v.hookState x).hookState) := by
  have hb := isBlock_discarding B .ordinary k.hooks v.hookState x
  refine ⟨_, [], rfl, .released _ (held_of_split hl hk) (.other hb (.nil ?_)), rfl⟩
  simp [View.held]

/-- The nodes that are lost are those behind the value at which the hook panicked. -/
theorem accounts_cleared (hl : v.lists.Perm ((l, k) :: rest)) (hcount : count l = k.entries.length) :
    let t := teardown B .ordinary k.hooks k.allocator v.hookState k.entries
    Accounts count v (.clear l) (.ofStop .done t.stop)
      ((v.having ((l, { k with entries := [] }) :: rest)).heeding t.events t.hookState) := by
  intro t
  have h := ledger_teardown (B := B) .ordinary k.hooks k.allocator v.fresh
    ((l, .header) :: rest.flatMap Strip.held) k.entries v.hookState
  refine ⟨_, _, rfl, (h.perm_left ?_).perm_right List.perm_append_comm, ?_⟩
  · exact (held_of_perm hl).trans List.perm_middle.symm
  · unfold t Teardown.stop
    cases hleft : (teardown B .ordinary k.hooks k.allocator v.hookState k.entries).left with
    | none => rfl
    | some es =>
      have hlen := length_left hleft
      simp only [Option.map_some, Outcome.ofStop, Op.leak, Option.getD_some, nodeBlocks,
        List.length_map, hcount]
      omega

/-- The header is lost with them. -/
theorem accounts_destroyed (hop : op.ends? = some l) (hl : v.lists.Perm ((l, k) :: rest))
    (hcount : count l = k.entries.length) :
    let t := teardown B .ordinary k.hooks k.allocator v.hookState k.entries
    Accounts count v op (.ofStop .done t.stop)
      ((v.having rest).heeding (t.eventsWithHeader k.allocator l) t.hookState) := by
  intro t
  have h := ledger_eventsWithHeader (B := B) .ordinary k.hooks k.allocator v.fresh
    (rest.flatMap Strip.held) l k.entries v.hookState
  refine ⟨_, _, rfl, h.perm_left (held_of_perm hl), ?_⟩
  have hop := Op.eq_of_ends hop
  unfold t Teardown.stop Teardown.lostBlocks Teardown.eventsWithHeader
  cases hleft : (teardown B .ordinary k.hooks k.allocator v.hookState k.entries).left with
  | none => rcases hop with rfl | rfl <;> rfl
  | some es =>
    have hlen := length_left hleft
    rcases hop with rfl | rfl <;>
    · simp only [Option.map_some, Outcome.ofStop, Op.leak, nodeBlocks, List.length_cons,
        List.length_map, hcount]
      omega

end

/-- **The ledger of an operation.** -/
theorem Effect.ledger (he : Effect B v op o v')
    (hcount : ∀ p ∈ v.lists, count p.1 = p.2.entries.length) : Accounts count v op o v' := by
  have hsame : v.log = v.log ++ [] := by simp
  have hnone : ∀ e ∈ ([] : List (Event η α)), e.isBlock = false := by simp
  -- most operations are about no block; the others are served, give back or lose what they say
  cases he with
  | misused op why =>
    exact accounts_quiet hsame hnone rfl (.refl _) (by cases op <;> rfl)
  | looked hop o => exact accounts_quiet hsame hnone rfl (.refl _) (leak_of_looks hop _)
  | consulted hop o hevs σ' =>
    exact accounts_quiet rfl (fun e he => isBlock_of_isMatching (hevs e he)) rfl (.refl _)
      (leak_of_consults hop _)
  | read hl hr => exact accounts_quiet hsame hnone rfl (.refl _) (by cases hr <;> rfl)
  | readHooks hl => exact accounts_quiet hsame hnone rfl (.refl _) rfl
  | readAllocator hl => exact accounts_quiet hsame hnone rfl (.refl _) rfl
  | owned l => exact accounts_quiet hsame hnone rfl (.refl _) rfl
  | calledDup h x o => exact accounts_quiet rfl (by simp [Event.isBlock]) rfl (.refl _) rfl
  | calledFree h x o => exact accounts_quiet rfl (by simp [Event.isBlock]) rfl (.refl _) rfl
  | refilled i budget => exact accounts_quiet hsame hnone rfl (.refl _) rfl
  | created hserve =>
    refine ⟨[.served _ v.fresh .header], [], rfl, .served _ .header (.nil ?_), rfl⟩
    simp [View.held, Strip.held]
  | notCreated hserve =>
    exact accounts_quiet rfl (by simp [Event.isBlock]) rfl (.refl _) rfl
  | @collected xs hs => exact accounts_collected xs
  | duplicated fallback hl => exact accounts_duplicating v _ _ fallback count _
  | placed hl hp hserve => exact accounts_placed hl hp
  | notPlaced hl hp hserve =>
    exact accounts_quiet rfl (by simp [Event.isBlock]) rfl (.refl _) (by cases hp <;> rfl)
  | @extended l k rest xs hl hs => exact accounts_extended xs hl
  | written hl hw =>
    refine accounts_quiet hsame hnone rfl ((held_of_perm hl).trans (.of_eq ?_))
      (by cases hw <;> rfl)
    simp [View.held, Strip.held, hw.split]
  | missed hl hk hm => exact accounts_quiet hsame hnone rfl (.refl _) (by cases hm <;> rfl)
  | rotated hl =>
    refine accounts_quiet hsame hnone rfl ((held_of_perm hl).trans ?_) rfl
    exact (((rotated_perm _).symm.map _).append_right _).cons _
  | joined hl => exact accounts_quiet hsame hnone rfl (held_joined hl) rfl
  | rehooked hl hop =>
    refine accounts_quiet hsame hnone rfl ((held_of_perm hl).trans (.refl _)) ?_
    rcases hop with rfl | ⟨kind, h, rfl, -⟩ <;> rfl
  | taken hl ht => exact accounts_taken hl ht
  | deleted hl hk => exact accounts_deleted hl hk
  | @cleared l k rest hl =>
    exact accounts_cleared hl (hcount (l, k) (hl.mem_iff.2 List.mem_cons_self))
  | @destroyed op l k rest hop hl =>
    exact accounts_destroyed hop hl (hcount (l, k) (hl.mem_iff.2 List.mem_cons_self))

end

/-! ## Whole runs -/

/-- The blocks of the lists that the program owns. -/
def World.blocks (w : World η σ α) : List Block :=
  w.owners.flatMap fun l => (l, .header) :: (w.nodes l).map (·, .node)

theorem World.length_blocks (w : World η σ α) :
    w.blocks.length = (w.owners.map fun l => 1 + w.count l).sum := by
  unfold World.blocks World.count
  rw [List.length_flatMap]
  congr 1
  refine List.map_congr_left fun l _ => ?_
  rw [List.length_cons, List.length_map, Nat.add_comm]

/-- The blocks that a step loses. -/
def Step.leak (st : Step η σ α) : Nat := st.op.leak st.before.count st.outcome st.events

theorem World.Sound.blocks_perm {w : World η σ α} {v : View η σ α} (hw : w.Sound v) :
    v.held.Perm w.blocks := by
  refine List.Perm.trans (.of_eq ?_) (hw.owners.flatMap_right _)
  rw [List.flatMap_map]
  apply List.flatMap_congr
  intro p hp
  unfold World.nodes
  rw [(hw.ring (l := p.1) (k := p.2) hp).nodes_eq]
  simp [Strip.held, nodeBlocks, Strip.nodes]

theorem Step.Sound.count_eq {st : Step η σ α} {v v' : View η σ α} (hst : st.Sound B v v') :
    ∀ p ∈ v.lists, st.before.count p.1 = p.2.entries.length :=
  fun _ hp => hst.before.count_eq hp

/-- **The ledger of a run.** -/
theorem World.ledger_run (B : Behaviour η σ α) (budgets : Array (Option Nat)) (hookState : σ)
    (ops : List (Op η α)) : ∃ v, ((World.start budgets hookState).run B ops).2.Sound v ∧
      ∃ lost, Ledger 0 [] v.log v.fresh (v.held ++ lost) ∧
        lost.length = (((World.start budgets hookState).steps B ops).map Step.leak).sum := by
  -- the invariant: the events lead to the blocks of the lists and as many others as were lost
  let P (past : List (Step η σ α)) (v : View η σ α) : Prop :=
    ∃ lost, Ledger 0 [] v.log v.fresh (v.held ++ lost) ∧ lost.length = (past.map Step.leak).sum
  have hstep : ∀ {past : List (Step η σ α)} {st : Step η σ α} {v v' : View η σ α},
      st.Sound B v v' → P past v → P (past ++ [st]) v' := by
    rintro past st v v' hst ⟨lost, h, hlen⟩
    obtain ⟨evs, new, hlog, hl, hnew⟩ := hst.effect.ledger hst.count_eq
    refine ⟨new ++ lost, ?_, ?_⟩
    · rw [hlog, ← List.append_assoc]
      exact h.append (hl.frame lost)
    · rw [← hst.events_eq hlog] at hnew
      simp only [List.length_append, List.map_append, List.sum_append, List.map_cons, List.map_nil,
        List.sum_cons, List.sum_nil, Step.leak]
      omega
  exact World.Sound.along (P := P) hstep ops (World.sound_start budgets hookState)
    (show P [] _ from ⟨[], .nil (.refl _), rfl⟩)

end RingList
