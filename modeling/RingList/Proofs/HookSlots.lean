import RingList.Proofs.Traversal

/-!
# The hooks of lists

A list has a slot for each of the three kinds of hooks. A history of operations says what is in a slot:
the hook of the last operation that installed one, or that of the source at the moment at which the
list was made as a copy, and otherwise none.

* `InForce`: the hook that a history leaves in a slot.
* `Step.Sound.hooks_eq`, `Step.Sound.born_hooks`: what one step does to the slots.
* `World.inForce`: after every run the slots are filled as the history says.
-/

set_option autoImplicit false

namespace RingList

variable {η σ α : Type} {B : Behaviour η σ α}

/-! ## Slots -/

/-- The hook of a kind. -/
def Hooks.get (hs : Hooks η) : HookKind → Option η
  | .dup => hs.dup
  | .free => hs.free
  | .matching => hs.matching

@[simp] theorem Hooks.get_empty (kind : HookKind) : ({} : Hooks η).get kind = none := by
  cases kind <;> rfl

theorem Hooks.get_set (hs : Hooks η) (h : η) (kind kind' : HookKind) :
    (hs.set h kind).get kind' = if kind = kind' then some h else hs.get kind' := by
  cases kind <;> cases kind' <;> rfl

/-- The list has these hooks. -/
def World.HasHooks (w : World η σ α) (l : Addr) (hs : Hooks η) : Prop :=
  w.read (RingList.hooks l) = .ok hs

theorem World.Sound.hasHooks {w : World η σ α} {v : View η σ α} {l : Addr} {k : Strip η α}
    (hw : w.Sound v) (hl : (l, k) ∈ v.lists) : w.HasHooks l k.hooks :=
  hw.read_eq (hooks_yields hl)

theorem World.HasHooks.unique {w : World η σ α} {l : Addr} {hs hs' : Hooks η}
    (h : w.HasHooks l hs) (h' : w.HasHooks l hs') : hs = hs' :=
  Except.ok.inj (h.symm.trans h')

/-! ## Histories -/

/-- What the operation installs in the slot for hooks of the kind of the list `l`. A slot that all
hooks are replaced with may be left empty. -/
def Op.installs? (l : Addr) (kind : HookKind) : Op η α → Option (Option η)
  | .installHook m kind' h => if m = l ∧ kind' = kind then some (some h) else none
  | .setHooks m hs => if m = l then some (hs.get kind) else none
  | _ => none

namespace Step

variable (st : Step η σ α) (l : Addr) (kind : HookKind)

/-- What the step installs in the slot. An operation that is not answered installs nothing. -/
def installs? : Option (Option η) :=
  match st.outcome with
  | .answered _ => st.op.installs? l kind
  | _ => none

/-- The list that `l` is made a copy of by the step. -/
def source? : Option Addr :=
  match st.op, st.outcome with
  | .duplicate source _, .answered (.list c) => if c = l then some source else none
  | _, _ => none

/-- The step gives the list no hook of the kind. -/
def Spares : Prop := st.installs? l kind = none ∧ st.source? l = none

end Step

/-- **The hook in force** on the list `l` after these steps, for each kind on its own. -/
inductive InForce : List (Step η σ α) → Addr → HookKind → Option η → Prop
  | never {steps : List (Step η σ α)} {l : Addr} {kind : HookKind}
      (h : ∀ st ∈ steps, st.Spares l kind) : InForce steps l kind none
  /-- The hook was installed, and none was installed after it. -/
  | installed {past later : List (Step η σ α)} {st : Step η σ α} {l : Addr} {kind : HookKind}
      {f : Option η} (hst : st.installs? l kind = some f)
      (hlater : ∀ st' ∈ later, st'.Spares l kind) : InForce (past ++ st :: later) l kind f
  /-- The list was made as a copy, with the hook in force on its source at that moment. -/
  | inherited {past later : List (Step η σ α)} {st : Step η σ α} {l source : Addr}
      {kind : HookKind} {f : Option η} (hst : st.source? l = some source)
      (h : InForce past source kind f) (hlater : ∀ st' ∈ later, st'.Spares l kind) :
      InForce (past ++ st :: later) l kind f

section
variable {st : Step η σ α} {l source : Addr} {kind : HookKind} {f f' : Option η}
  {past steps : List (Step η σ α)}

theorem Step.not_spares_of_installs (h : st.installs? l kind = some f) : ¬ st.Spares l kind := by
  intro hsp
  cases h.symm.trans hsp.1

theorem Step.not_spares_of_source (h : st.source? l = some source) : ¬ st.Spares l kind := by
  intro hsp
  cases h.symm.trans hsp.2

/-- A copy is not made by an operation that installs hooks. -/
theorem Step.installs?_of_source (h : st.source? l = some source) : st.installs? l kind = none := by
  unfold Step.source? at h
  unfold Step.installs?
  split at h
  · rename_i hop ho
    rw [hop, ho]
    rfl
  · cases h

/-- The last step of its kind is in one place. -/
theorem eq_of_last {p : Step η σ α → Prop} {xs xs' ys ys' : List (Step η σ α)}
    {x x' : Step η σ α} (he : xs ++ x :: ys = xs' ++ x' :: ys') (hx : ¬ p x) (hx' : ¬ p x')
    (hys : ∀ y ∈ ys, p y) (hys' : ∀ y ∈ ys', p y) : xs = xs' ∧ x = x' := by
  rcases List.append_eq_append_iff.1 he with ⟨zs, rfl, h⟩ | ⟨zs, rfl, h⟩
  · cases zs with
    | nil => exact ⟨(List.append_nil xs).symm, (List.cons.inj h).1⟩
    | cons z zs =>
      obtain ⟨rfl, rfl⟩ := List.cons.inj h
      exact absurd (hys x' (by simp)) hx'
  · cases zs with
    | nil => exact ⟨List.append_nil xs', (List.cons.inj h).1.symm⟩
    | cons z zs =>
      obtain ⟨rfl, rfl⟩ := List.cons.inj h
      exact absurd (hys' x (by simp)) hx

namespace InForce

/-- **One hook at most is in force.** -/
theorem unique (h : InForce steps l kind f) : ∀ {f' : Option η}, InForce steps l kind f' → f = f' := by
  induction h with
  | never hnever =>
    intro f' h'
    cases h' with
    | never => rfl
    | installed hst => exact absurd (hnever _ (by simp)) (Step.not_spares_of_installs hst)
    | inherited hst => exact absurd (hnever _ (by simp)) (Step.not_spares_of_source hst)
  | @installed past later st l kind f hst hlater =>
    intro f' h'
    generalize hsteps : past ++ st :: later = steps at h'
    have hnot := Step.not_spares_of_installs hst
    cases h' with
    | never hnever => exact absurd (hnever st (by simp [← hsteps])) hnot
    | installed hst' hlater' =>
      obtain ⟨-, rfl⟩ := eq_of_last hsteps hnot (Step.not_spares_of_installs hst') hlater hlater'
      exact Option.some.inj (hst.symm.trans hst')
    | inherited hst' _ hlater' =>
      obtain ⟨-, rfl⟩ := eq_of_last hsteps hnot (Step.not_spares_of_source hst') hlater hlater'
      cases hst.symm.trans (Step.installs?_of_source hst')
  | @inherited past later st l source kind f hst _ hlater ih =>
    intro f' h'
    generalize hsteps : past ++ st :: later = steps at h'
    have hnot : ¬ st.Spares l kind := Step.not_spares_of_source hst
    cases h' with
    | never hnever => exact absurd (hnever st (by simp [← hsteps])) hnot
    | installed hst' hlater' =>
      obtain ⟨-, rfl⟩ := eq_of_last hsteps hnot (Step.not_spares_of_installs hst') hlater hlater'
      cases (Step.installs?_of_source hst).symm.trans hst'
    | inherited hst' h' hlater' =>
      obtain ⟨rfl, rfl⟩ := eq_of_last hsteps hnot (Step.not_spares_of_source hst') hlater hlater'
      obtain rfl := Option.some.inj (hst.symm.trans hst')
      exact ih h'

/-- A hook stays in force when a step gives the list no other one. -/
theorem concat (h : InForce past l kind f) (hst : st.Spares l kind) :
    InForce (past ++ [st]) l kind f := by
  have hlater : ∀ {later : List (Step η σ α)}, (∀ st' ∈ later, st'.Spares l kind) →
      ∀ st' ∈ later ++ [st], st'.Spares l kind := by
    intro later hlater st' hst'
    rcases List.mem_append.1 hst' with hst' | hst'
    · exact hlater st' hst'
    · exact List.mem_singleton.1 hst' ▸ hst
  cases h with
  | never h => exact .never (hlater h)
  | installed hinst h =>
    rw [List.append_assoc, List.cons_append]
    exact .installed hinst (hlater h)
  | inherited hsrc hs h =>
    rw [List.append_assoc, List.cons_append]
    exact .inherited hsrc hs (hlater h)

end InForce

end

/-! ## One step -/

section
variable {v v' : View η σ α} {op : Op η α} {o : Outcome η α} {l : Addr} {k k' : Strip η α}

/-- What operations on hooks make of the hooks of their list. -/
def Op.rehooked (hs : Hooks η) : Op η α → Hooks η
  | .setHooks _ hs' => hs'
  | .installHook _ kind h => hs.set h kind
  | _ => hs

theorem Op.get_rehooked (hop : op.rehooks? = some l) (hs : Hooks η) (kind : HookKind) :
    (op.rehooked hs).get kind = (op.installs? l kind).getD (hs.get kind) := by
  cases op with
  | setHooks m hs' =>
    obtain rfl := Option.some.inj hop
    simp [rehooked, installs?]
  | installHook m kind' h =>
    obtain rfl := Option.some.inj hop
    by_cases hk : kind' = kind
    · simp [rehooked, installs?, Hooks.get_set, hk]
    · simp [rehooked, installs?, Hooks.get_set, hk]
  | _ => cases hop

theorem Op.installs?_of_ne (hop : op.rehooks? ≠ some l) (kind : HookKind) :
    op.installs? l kind = none := by
  cases op with
  | setHooks m hs => exact if_neg fun h => hop (congrArg some h)
  | installHook m kind' h => exact if_neg fun h => hop (congrArg some h.1)
  | _ => rfl

theorem Op.not_reads_of_rehooks (hop : op.rehooks? = some l) :
    op.looks = false ∧ op.consults = false := by
  cases op with
  | setHooks m hs => exact ⟨rfl, rfl⟩
  | installHook m kind h => exact ⟨rfl, rfl⟩
  | _ => cases hop

/-- What an operation on the hooks of a list does. -/
theorem Effect.of_rehooks (hop : op.rehooks? = some l) (he : Effect B v op o v') :
    (∃ why, o = .misused why ∧ v' = v) ∨ ∃ k rest, v.lists.Perm ((l, k) :: rest) ∧
      o = .answered .done ∧
      v' = v.having ((l, { k with hooks := op.rehooked k.hooks }) :: rest) := by
  cases he with
  | misused op why => exact .inl ⟨why, rfl, rfl⟩
  | @rehooked _ m k rest hs hl hop' =>
    rcases hop' with rfl | ⟨kind, h, rfl, rfl⟩
    · obtain rfl := Option.some.inj hop
      exact .inr ⟨k, rest, hl, rfl, rfl⟩
    · obtain rfl := Option.some.inj hop
      exact .inr ⟨k, rest, hl, rfl, rfl⟩
  | looked hlooks => cases (Op.not_reads_of_rehooks hop).1.symm.trans hlooks
  | consulted hconsults => cases (Op.not_reads_of_rehooks hop).2.symm.trans hconsults
  | read hl hr => cases hr <;> cases hop
  | placed hl hp => cases hp <;> cases hop
  | notPlaced hl hp => cases hp <;> cases hop
  | written hl hw => cases hw <;> cases hop
  | missed hl hk hm => cases hm <;> cases hop
  | taken hl ht => cases ht <;> cases hop
  | destroyed hends => rcases Op.eq_of_ends hends with rfl | rfl <;> cases hop
  | _ => cases hop

/-- **A list that is new** has no hooks, unless it is a copy. -/
theorem Effect.born (he : Effect B v op o v') (hl : (l, k') ∈ v'.lists)
    (hnew : l ∉ v.lists.map (·.1)) : k'.hooks = {} ∨
      ∃ source fallback, op = .duplicate source fallback ∧ o = .answered (.list l) := by
  have hold : ∀ {k : Strip η α}, (l, k) ∉ v.lists := fun hm => hnew (List.mem_map_of_mem hm)
  have hfirst : ∀ {m : Addr} {k k₁ : Strip η α} {rest : List (Addr × Strip η α)},
      v.lists.Perm ((m, k) :: rest) → (l, k') ∉ (m, k₁) :: rest := by
    intro m k k₁ rest hp hm
    refine hnew ((hp.map (·.1)).mem_iff.2 ?_)
    exact (List.mem_map_of_mem (f := (·.1)) hm : l ∈ m :: rest.map (·.1))
  cases he with
  | created hserve =>
    rcases List.mem_cons.1 hl with he | hl
    · obtain ⟨-, rfl⟩ := Prod.mk.inj he
      exact .inl rfl
    · exact absurd hl hold
  | collected hs =>
    rcases List.mem_cons.1 hl with he | hl
    · obtain ⟨-, rfl⟩ := Prod.mk.inj he
      exact .inl rfl
    · exact absurd hl hold
  | @duplicated m k fallback hm =>
    rcases duplicating_lists B v k fallback with ⟨copies, hstop, hlists⟩ | ⟨e, -, hlists⟩
    · rw [hlists] at hl
      rcases List.mem_cons.1 hl with he | hl
      · obtain ⟨rfl, rfl⟩ := Prod.mk.inj he
        exact .inr ⟨m, fallback, rfl, by rw [hstop]; rfl⟩
      · exact absurd hl hold
    · exact absurd (hlists ▸ hl) hold
  | placed hp => exact absurd hl (hfirst hp)
  | extended hp => exact absurd hl (hfirst hp)
  | written hp => exact absurd hl (hfirst hp)
  | rotated hp => exact absurd hl (hfirst hp)
  | rehooked hp => exact absurd hl (hfirst hp)
  | taken hp => exact absurd hl (hfirst hp)
  | deleted hp => exact absurd hl (hfirst hp)
  | cleared hp => exact absurd hl (hfirst hp)
  | joined hp =>
    refine absurd ?_ hnew
    rw [(hp.map (·.1)).mem_iff]
    exact (List.mem_map_of_mem (f := (·.1)) hl)
  | destroyed hop hp => exact absurd (hp.mem_iff.2 (List.mem_cons_of_mem _ hl)) hold
  | _ => exact absurd hl hold

end

namespace Step.Sound

variable {st : Step η σ α} {v v' : View η σ α} {l source : Addr} {k k' : Strip η α} {kind : HookKind}
  {f : Option η}

/-- **What a step does to the hooks of a list**: it changes what it installs, and nothing else. -/
theorem hooks_eq (hst : st.Sound B v v') (hl : (l, k) ∈ v.lists) (hl' : (l, k') ∈ v'.lists)
    (kind : HookKind) : k'.hooks.get kind = (st.installs? l kind).getD (k.hooks.get kind) := by
  by_cases hop : st.op.rehooks? = some l
  · rcases hst.effect.of_rehooks hop with ⟨why, ho, rfl⟩ | ⟨k₁, rest, hp, ho, rfl⟩
    · obtain rfl := (hst.before.ring hl).unique (hst.before.ring hl')
      simp [installs?, ho]
    · -- the list is the one that is worked on
      have hl₁ : (l, k₁) ∈ v.lists := hp.mem_iff.2 List.mem_cons_self
      obtain rfl := (hst.before.ring hl).unique (hst.before.ring hl₁)
      obtain rfl := (hst.after.ring hl').unique (hst.after.ring List.mem_cons_self)
      simpa [installs?, ho] using Op.get_rehooked hop k.hooks kind
  · have hnone : st.installs? l kind = none := by
      unfold installs?
      split
      · exact Op.installs?_of_ne hop kind
      · rfl
    rw [hnone, Option.getD_none]
    rcases hst.reshapes hl hl' with ⟨-, rfl⟩ | hr
    · rfl
    · rw [hr.hooks hop]

/-- A list that hooks are installed on is there. -/
theorem mem_of_installs (hst : st.Sound B v v') (h : st.installs? l kind = some f) :
    ∃ k', (l, k') ∈ v'.lists ∧ k'.hooks.get kind = f := by
  have hop : st.op.rehooks? = some l := by
    by_contra hop
    unfold installs? at h
    split at h
    · rw [Op.installs?_of_ne hop] at h
      cases h
    · cases h
  rcases hst.effect.of_rehooks hop with ⟨why, ho, rfl⟩ | ⟨k, rest, hp, ho, rfl⟩
  · simp [installs?, ho] at h
  · refine ⟨_, List.mem_cons_self, ?_⟩
    have h : st.op.installs? l kind = some f := by simpa [installs?, ho] using h
    exact (Op.get_rehooked hop k.hooks kind).trans (by rw [h]; rfl)

/-- **A copy has the hooks of its source.** -/
theorem of_source (hst : st.Sound B v v') (h : st.source? l = some source) :
    ∃ k k', (source, k) ∈ v.lists ∧ (l, k') ∈ v'.lists ∧ k'.hooks = k.hooks := by
  unfold source? at h
  split at h
  · rename_i m fallback c hop ho
    obtain ⟨rfl, rfl⟩ : c = l ∧ m = source := by simpa using h
    have he := hst.effect
    rw [hop] at he
    rcases he.of_duplicate with ⟨why, hmis, -⟩ | ⟨k, hk, hdone, rfl⟩
    · rw [hmis] at ho
      cases ho
    · rw [hdone] at ho
      rcases duplicating_lists B v k fallback with ⟨copies, hstop, hlists⟩ | ⟨e, hstop, -⟩
      · rw [hstop] at ho
        obtain rfl : v.fresh = c := by simpa [Outcome.ofStop] using ho
        refine ⟨k, ⟨k.hooks, k.allocator, copies⟩, hk, ?_, rfl⟩
        rw [hlists]
        exact List.mem_cons_self
      · rw [hstop] at ho
        cases ho
  · cases h

/-- A step gives hooks to lists only that are there. -/
theorem spares_of_fresh (hst : st.Sound B v v') (hl : v'.fresh ≤ l) (kind : HookKind) :
    st.Spares l kind := by
  have hout : ∀ {k' : Strip η α}, (l, k') ∉ v'.lists := by
    intro k' hm
    have hlt := (hst.after.ring hm).lt_size (List.mem_cons_self : l ∈ l :: k'.nodes)
    rw [hst.after.shows.fresh] at hlt
    exact Nat.not_lt.2 hl hlt
  constructor
  · cases h : st.installs? l kind with
    | none => rfl
    | some f =>
      obtain ⟨k', hk', -⟩ := hst.mem_of_installs h
      exact absurd hk' hout
  · cases h : st.source? l with
    | none => rfl
    | some source =>
      obtain ⟨k, k', -, hk', -⟩ := hst.of_source h
      exact absurd hk' hout

end Step.Sound

/-! ## Runs -/

/-- **The hooks of all lists of a view are in force** after these steps, and no list that is not there
yet was given any. -/
structure View.Hooked (v : View η σ α) (past : List (Step η σ α)) : Prop where
  inForce : ∀ {l : Addr} {k : Strip η α}, (l, k) ∈ v.lists → ∀ kind,
    InForce past l kind (k.hooks.get kind)
  spared : ∀ {l : Addr}, v.fresh ≤ l → ∀ kind, ∀ st ∈ past, st.Spares l kind

/-- **One step.** -/
theorem Step.Sound.hooked {st : Step η σ α} {v v' : View η σ α} {past : List (Step η σ α)}
    (hst : st.Sound B v v') (hv : v.Hooked past) : v'.Hooked (past ++ [st]) where
  inForce {l k'} hl' kind := by
    cases hinst : st.installs? l kind with
    | some f =>
      obtain ⟨k₁, hl₁, rfl⟩ := hst.mem_of_installs hinst
      obtain rfl := (hst.after.ring hl').unique (hst.after.ring hl₁)
      exact .installed hinst (by simp)
    | none =>
      cases hsrc : st.source? l with
      | some source =>
        obtain ⟨k, k₁, hk, hl₁, hhooks⟩ := hst.of_source hsrc
        obtain rfl := (hst.after.ring hl').unique (hst.after.ring hl₁)
        exact .inherited hsrc (hhooks ▸ hv.inForce hk kind) (by simp)
      | none =>
        have hspares : st.Spares l kind := ⟨hinst, hsrc⟩
        by_cases hold : l ∈ v.lists.map (·.1)
        · obtain ⟨⟨_, k⟩, hl, rfl⟩ := List.mem_map.1 hold
          have hkept := hst.hooks_eq hl hl' kind
          rw [hinst, Option.getD_none] at hkept
          exact hkept ▸ (hv.inForce hl kind).concat hspares
        · rcases hst.effect.born hl' hold with hempty | ⟨m, fallback, hop, ho⟩
          · -- no step was about the list before it was there
            have hfresh : v.fresh ≤ l := by
              rcases hst.effect.shape hst.before.shows.lists.nodup_headers with ⟨-, rfl⟩ | hs
              · exact absurd (List.mem_map_of_mem hl') hold
              · rcases hs.origin hl' with ⟨k, hl⟩ | ⟨hnew, -⟩
                · exact absurd (List.mem_map_of_mem hl) hold
                · exact hnew l List.mem_cons_self
            rw [hempty, Hooks.get_empty]
            exact (InForce.never (hv.spared hfresh kind)).concat hspares
          · simp [source?, hop, ho] at hsrc
  spared {l} hl kind st' hst' := by
    rcases List.mem_append.1 hst' with hst' | hst'
    · exact hv.spared (Nat.le_trans hst.fresh_le hl) kind st' hst'
    · exact List.mem_singleton.1 hst' ▸ hst.spares_of_fresh hl kind

/-- **After every run** the hooks of all lists are in force. -/
theorem World.hooked_run (B : Behaviour η σ α) (budgets : Array (Option Nat)) (hookState : σ)
    (ops : List (Op η α)) : ∃ v, ((World.start budgets hookState).run B ops).2.Sound v ∧
      v.Hooked ((World.start budgets hookState).steps B ops) := by
  have hstart : (View.Hooked ⟨[], 0, budgets, hookState, []⟩ ([] : List (Step η σ α))) :=
    ⟨by simp, by simp⟩
  exact World.Sound.along (P := fun past v => v.Hooked past) (fun hst hv => hst.hooked hv) ops
    (World.sound_start budgets hookState) hstart

end RingList
