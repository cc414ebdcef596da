import RingList.Proofs.Ledger

/-!
# What operations do to one list

`Op.targets` are the lists that an operation works on, `Op.leaving` the nodes that it takes out of
a list. `Effect.shape` says once what an operation can do to the lists of a view, and
`Shape.reshapes` what that is for one of them.

* `Reshapes.eq_of_not_mem`: a list that is no target stays what it is.
* `Moves.mem_leaving`: what leaves a list are the nodes that are in it before and not after.
* `Moves.mem_after`: what comes to a list is fresh or comes from another one.
* `Moves.order`: the nodes that stay keep their order, unless the list is rotated.
-/

set_option autoImplicit false

namespace RingList

variable {η σ α : Type} {B : Behaviour η σ α}

namespace Op

/-- The lists that the operation works on. -/
def targets : Op η α → List Addr
  | .addHead l _ | .addTail l _ | .insert l _ _ _ | .extend l _ | .delete l _ | .popFront l
  | .popBack l | .clear l | .destroy l | .rotate l | .exchange l _ _ | .setFront l _
  | .setBack l _ | .installHook l _ _ | .setHooks l _ | .take l _ | .dropIter l => [l]
  | .join l m => [l, m]
  | _ => []

/-- The nodes that the operation takes out of the list `l`, which has the nodes `ns`, but for the
operations that destroy the list. -/
def leaving (l : Addr) (ns : List Addr) : Op η α → List Addr
  | .delete m a => if m = l then [a] else []
  | .popFront m | .take m .front => if m = l then ns.head?.toList else []
  | .popBack m | .take m .back => if m = l then ns.getLast?.toList else []
  | .clear m | .join _ m => if m = l then ns else []
  | _ => []

/-- The list whose hooks the operation changes. -/
def rehooks? : Op η α → Option Addr
  | .setHooks l _ | .installHook l _ _ => some l
  | _ => none

variable {op : Op η α} {l : Addr} {ns : List Addr}

theorem leaving_of_not_mem (hl : l ∉ op.targets) : op.leaving l ns = [] := by
  cases op with
  | take m e =>
    have hne : m ≠ l := fun he => hl (by simp [targets, he])
    cases e with
    | front => exact if_neg hne
    | back => exact if_neg hne
  | delete m a => exact if_neg fun he => hl (by simp [targets, he])
  | popFront m => exact if_neg fun he => hl (by simp [targets, he])
  | popBack m => exact if_neg fun he => hl (by simp [targets, he])
  | clear m => exact if_neg fun he => hl (by simp [targets, he])
  | join k m => exact if_neg fun he => hl (by simp [targets, he])
  | _ => rfl

theorem targets_of_ends (h : op.ends? = some l) : op.targets = [l] := by
  rcases eq_of_ends h with rfl | rfl <;> rfl

theorem targets_of_rehooks (h : op.rehooks? = some l) : op.targets = [l] := by
  cases op with
  | setHooks m hs => exact congrArg (fun m => [m]) (Option.some.inj h)
  | installHook m kind f => exact congrArg (fun m => [m]) (Option.some.inj h)
  | _ => cases h

end Op

/-! ## Changes of lists -/

/-- What becomes of the list `l` by an operation that works on it alone and does not end it. -/
inductive Change (fresh : Addr) (l : Addr) (k : Strip η α) : Op η α → Strip η α → Prop
  | grown {op : Op η α} {xs ns ys : List (Addr × α)} (hk : k.entries = xs ++ ys)
      (hns : ∀ e ∈ ns, fresh ≤ e.1) (hstay : op.leaving l k.nodes = []) :
      Change fresh l k op { k with entries := xs ++ (ns ++ ys) }
  | written {op : Op η α} {xs ys : List (Addr × α)} {a : Addr} {x y : α}
      (hw : Writing l k.entries op xs a x y ys) :
      Change fresh l k op { k with entries := xs ++ (a, y) :: ys }
  | rotated : Change fresh l k (.rotate l) { k with entries := RingList.rotated k.entries }
  | rehooked {op : Op η α} (hop : op.rehooks? = some l) (hs : Hooks η) :
      Change fresh l k op { k with hooks := hs }
  | removed {op : Op η α} {xs ys : List (Addr × α)} {a : Addr} {x : α}
      (hk : k.entries = xs ++ (a, x) :: ys) (hleave : op.leaving l k.nodes = [a]) :
      Change fresh l k op { k with entries := xs ++ ys }
  | cleared : Change fresh l k (.clear l) { k with entries := [] }

/-- **What becomes of the lists of a view** by an operation that is not refused. The events up to
its end are `log`. -/
inductive Shape (v : View η σ α) (log : List (Event η α)) :
    Op η α → List (Addr × Strip η α) → Prop
  | same {op : Op η α} (hstay : ∀ p ∈ v.lists, op.leaving p.1 p.2.nodes = [])
      (hends : op.ends? = none) : Shape v log op v.lists
  | born {op : Op η α} {l : Addr} {k : Strip η α} (hop : op.targets = [])
      (hnew : ∀ a ∈ Strip.blocks (l, k), v.fresh ≤ a)
      (hserved : .served k.allocator l .header ∈ log) : Shape v log op ((l, k) :: v.lists)
  | changed {op : Op η α} {l : Addr} {k k' : Strip η α} {rest : List (Addr × Strip η α)}
      (hl : v.lists.Perm ((l, k) :: rest)) (hop : op.targets = [l])
      (hc : Change v.fresh l k op k') : Shape v log op ((l, k') :: rest)
  | joined {l m : Addr} {k k' : Strip η α} {rest : List (Addr × Strip η α)}
      (hl : v.lists.Perm ((l, k) :: (m, k') :: rest)) :
      Shape v log (.join l m) ((l, { k with entries := k.entries ++ k'.entries }) ::
        (m, { k' with entries := [] }) :: rest)
  | ended {op : Op η α} {l : Addr} {k : Strip η α} {rest : List (Addr × Strip η α)}
      (hop : op.ends? = some l) (hl : v.lists.Perm ((l, k) :: rest)) : Shape v log op rest

section
variable {v v' : View η σ α} {op : Op η α} {o : Outcome η α}

theorem fresh_le_of_mem_copying {dup : η} {source : Allocator} {xs : List α} {e : Addr × α} :
    ∀ {v : View η σ α}, e ∈ (copying B dup source v xs).copies → v.fresh ≤ e.1 := by
  induction xs with
  | nil => exact fun he => absurd he (by simp [copying])
  | cons x xs ih =>
    intro v he
    cases hserve : v.serves source with
    | false =>
      rw [copying_of_refused hserve] at he
      cases he
    | true =>
      rcases hd : (B.dup dup v.hookState x).1 with (_ | w) | _
      · rw [copying_of_fails hserve hd] at he
        cases he
      · rw [copying_of_copies hserve hd] at he
        rcases List.mem_cons.1 he with rfl | he
        · exact Nat.le_refl _
        · exact Nat.le_of_succ_le (ih he)
      · rw [copying_of_panics hserve hd] at he
        cases he

theorem shape_duplicating (k : Strip η α) {l : Addr} {fallback : η} :
    Shape v (duplicating B v k fallback).view.log (.duplicate l fallback : Op η α)
      (duplicating B v k fallback).view.lists := by
  cases hserve : v.serves k.allocator with
  | false =>
    rw [duplicating_of_refused hserve]
    exact .same (fun _ _ => rfl) rfl
  | true =>
    cases hstop : (copyingAll B v k fallback).stop with
    | none =>
      rw [duplicating_of_complete hserve hstop]
      refine .born rfl (fun a ha => ?_) ?_
      · rcases List.mem_cons.1 ha with rfl | ha
        · exact Nat.le_refl _
        · obtain ⟨e, he, rfl⟩ := List.mem_map.1 ha
          exact Nat.le_of_succ_le (fresh_le_of_mem_copying he)
      · obtain ⟨evs, -, hlog, -⟩ := ledger_copying (B := B) (k.hooks.dup.getD fallback) k.allocator
          k.values (v.supply k.allocator .header) []
        rw [View.having_log, copyingAll, hlog]
        simp
    | some e =>
      rw [duplicating_of_partial hserve hstop]
      exact .same (fun _ _ => rfl) rfl

theorem fresh_le_of_mem_numbered {n : Addr} {xs : List α} {e : Addr × α} (he : e ∈ numbered n xs) :
    n ≤ e.1 := by
  have hm : e.1 ∈ (numbered n xs).map (·.1) := List.mem_map_of_mem he
  rw [numbered_nodes] at hm
  exact (List.mem_range'_1.1 hm).1

/-- **Every operation that is not refused shapes the lists.** -/
theorem Effect.shape (he : Effect B v op o v') (hnd : (v.lists.map (·.1)).Nodup) :
    ((∃ why, o = .misused why) ∧ v' = v) ∨ Shape v v'.log op v'.lists := by
  have leaving : ∀ {l : Addr} {ns : List Addr}, (if l = l then ns else []) = ns := if_pos rfl
  cases he with
  | misused op why => exact .inl ⟨⟨why, rfl⟩, rfl⟩
  | looked hop =>
    refine .inr (.same (fun _ _ => ?_) ?_) <;> cases op <;> first | rfl | cases hop
  | consulted hop =>
    refine .inr (.same (fun _ _ => ?_) ?_) <;> cases op <;> first | rfl | cases hop
  | read hl hr => exact .inr (.same (fun _ _ => by cases hr <;> rfl) (by cases hr <;> rfl))
  | readHooks hl => exact .inr (.same (fun _ _ => rfl) rfl)
  | readAllocator hl => exact .inr (.same (fun _ _ => rfl) rfl)
  | owned l => exact .inr (.same (fun _ _ => rfl) rfl)
  | calledDup h x => exact .inr (.same (fun _ _ => rfl) rfl)
  | calledFree h x => exact .inr (.same (fun _ _ => rfl) rfl)
  | refilled i budget => exact .inr (.same (fun _ _ => rfl) rfl)
  | created hserve => exact .inr (.born rfl (by simp [Strip.blocks, Strip.nodes]) (by simp))
  | notCreated hserve => exact .inr (.same (fun _ _ => rfl) rfl)
  | @collected xs hs =>
    refine .inr (.born rfl (fun a ha => ?_) (by simp))
    rcases List.mem_cons.1 ha with rfl | ha
    · exact Nat.le_refl _
    · obtain ⟨e, he, rfl⟩ := List.mem_map.1 ha
      exact Nat.le_of_succ_le (fresh_le_of_mem_numbered he)
  | duplicated fallback hl => exact .inr (shape_duplicating _)
  | @placed op l k rest xs ys x hl hp hserve =>
    have hnew : ∀ e ∈ [(v.fresh, x)], v.fresh ≤ e.1 := by simp
    have hstay : op.leaving l k.nodes = [] := by cases hp <;> rfl
    exact .inr (.changed hl (by cases hp <;> rfl) (.grown hp.split hnew hstay))
  | notPlaced hl hp hserve =>
    exact .inr (.same (fun _ _ => by cases hp <;> rfl) (by cases hp <;> rfl))
  | @extended l k rest xs hl hs =>
    have hnew : ∀ e ∈ numbered v.fresh xs, v.fresh ≤ e.1 := fun _ => fresh_le_of_mem_numbered
    have hstay : (.extend l xs : Op η α).leaving l k.nodes = [] := rfl
    have hc := Change.grown (List.append_nil _).symm hnew hstay
    rw [List.append_nil] at hc
    exact .inr (.changed hl rfl hc)
  | written hl hw => exact .inr (.changed hl (by cases hw <;> rfl) (.written hw))
  | @missed op l k hl hk hm =>
    refine .inr (.same (fun p hp => ?_) (by cases hm <;> rfl))
    by_cases hpl : p.1 = l
    · -- the list that was looked into is empty
      have hpk : p.2 = k := congrArg (·.2) (List.inj_on_of_nodup_map hnd hp hl hpl)
      have hnil : p.2.nodes = [] := by simp [Strip.nodes, hpk, hk]
      cases hm with
      | take e => cases e <;> simp [Op.leaving, hnil]
      | _ => simp [Op.leaving, hnil]
    · exact Op.leaving_of_not_mem (by cases hm <;> simpa [Op.targets] using hpl)
  | rotated hl => exact .inr (.changed hl rfl .rotated)
  | joined hl => exact .inr (.joined hl)
  | @rehooked op l k rest hs hl hop =>
    have hre : op.rehooks? = some l := by
      rcases hop with rfl | ⟨kind, h, rfl, -⟩ <;> rfl
    exact .inr (.changed hl (Op.targets_of_rehooks hre) (.rehooked hre hs))
  | @taken op l k rest xs ys a x hl ht =>
    refine .inr (.changed hl (by cases ht <;> rfl) (.removed ht.split ?_))
    cases ht with
    | popFront hes => simp [Op.leaving, Strip.nodes, hes]
    | popBack hes => simp [Op.leaving, Strip.nodes, hes]
    | takeFront hes => simp [Op.leaving, Strip.nodes, hes]
    | takeBack hes => simp [Op.leaving, Strip.nodes, hes]
  | deleted hl hk => exact .inr (.changed hl rfl (.removed hk leaving))
  | cleared hl => exact .inr (.changed hl rfl .cleared)
  | destroyed hop hl => exact .inr (.ended hop hl)

end

/-! ## One list -/

/-- **What becomes of the list `l`** of a view by an operation that is not refused and does not end
it. -/
inductive Reshapes (v : View η σ α) (l : Addr) (k : Strip η α) : Op η α → Strip η α → Prop
  | kept {op : Op η α} (hstay : op.leaving l k.nodes = []) : Reshapes v l k op k
  | changed {op : Op η α} {k' : Strip η α} (hop : op.targets = [l])
      (hc : Change v.fresh l k op k') : Reshapes v l k op k'
  | received {m : Addr} {k₂ : Strip η α} (hlm : l ≠ m) (hm : (m, k₂) ∈ v.lists) :
      Reshapes v l k (.join l m) { k with entries := k.entries ++ k₂.entries }
  | handed {m : Addr} : Reshapes v l k (.join m l) { k with entries := [] }

namespace Shape

variable {v : View η σ α} {log : List (Event η α)} {op : Op η α}
  {lists' : List (Addr × Strip η α)} {l : Addr} {k k' : Strip η α}

/-- **A list stays, reshaped,** or is ended. -/
theorem reshapes (hs : Shape v log op lists') (hnd : (v.lists.map (·.1)).Nodup)
    (hl : (l, k) ∈ v.lists) :
    (∃ k', (l, k') ∈ lists' ∧ Reshapes v l k op k') ∨
      (op.ends? = some l ∧ l ∉ lists'.map (·.1)) := by
  cases hs with
  | same hstay => exact .inl ⟨k, hl, .kept (hstay (l, k) hl)⟩
  | born hop hnew =>
    exact .inl ⟨k, List.mem_cons_of_mem _ hl, .kept (Op.leaving_of_not_mem (by simp [hop]))⟩
  | @changed op m k₁ k' rest hp hop hc =>
    have hnd' := (hp.map (·.1)).nodup_iff.1 hnd
    rcases List.mem_cons.1 (hp.mem_iff.1 hl) with he | hm
    · obtain ⟨rfl, rfl⟩ := Prod.mk.inj he
      exact .inl ⟨k', List.mem_cons_self, .changed hop hc⟩
    · refine .inl ⟨k, List.mem_cons_of_mem _ hm, .kept (Op.leaving_of_not_mem fun hmem => ?_)⟩
      rw [hop, List.mem_singleton] at hmem
      exact (List.nodup_cons.1 hnd').1 (hmem ▸ List.mem_map_of_mem (f := (·.1)) hm)
  | @joined m m' k₁ k₂ rest hp =>
    have hnd' := (hp.map (·.1)).nodup_iff.1 hnd
    obtain ⟨hm, hnd'⟩ := List.nodup_cons.1 hnd'
    have hmm : m ≠ m' := fun he => hm (by simp [he])
    rcases List.mem_cons.1 (hp.mem_iff.1 hl) with he | hmem
    · obtain ⟨rfl, rfl⟩ := Prod.mk.inj he
      exact .inl ⟨_, List.mem_cons_self, .received hmm (hp.mem_iff.2 (by simp))⟩
    · rcases List.mem_cons.1 hmem with he | hmem
      · obtain ⟨rfl, rfl⟩ := Prod.mk.inj he
        exact .inl ⟨_, List.mem_cons_of_mem _ List.mem_cons_self, .handed⟩
      · have hrest : l ∈ rest.map (·.1) := List.mem_map_of_mem (f := (·.1)) hmem
        refine .inl ⟨k, List.mem_cons_of_mem _ (List.mem_cons_of_mem _ hmem),
          .kept (Op.leaving_of_not_mem fun ht => ?_)⟩
        simp only [Op.targets, List.mem_cons, List.not_mem_nil, or_false] at ht
        rcases ht with rfl | rfl
        · exact hm (List.mem_cons_of_mem _ hrest)
        · exact (List.nodup_cons.1 hnd').1 hrest
  | @ended op m k₁ rest hop hp =>
    have hnd' := (hp.map (·.1)).nodup_iff.1 hnd
    rcases List.mem_cons.1 (hp.mem_iff.1 hl) with he | hm
    · obtain ⟨rfl, rfl⟩ := Prod.mk.inj he
      exact .inr ⟨hop, (List.nodup_cons.1 hnd').1⟩
    · refine .inl ⟨k, hm, .kept (Op.leaving_of_not_mem fun hmem => ?_)⟩
      rw [Op.targets_of_ends hop, List.mem_singleton] at hmem
      exact (List.nodup_cons.1 hnd').1 (hmem ▸ List.mem_map_of_mem (f := (·.1)) hm)

/-- **Every list** was there before, or is new with all its blocks and its allocator served its
header. -/
theorem origin (hs : Shape v log op lists') (hl : (l, k') ∈ lists') :
    (∃ k, (l, k) ∈ v.lists) ∨
      (∀ a ∈ Strip.blocks (l, k'), v.fresh ≤ a) ∧ .served k'.allocator l .header ∈ log := by
  cases hs with
  | same => exact .inl ⟨k', hl⟩
  | born hop hnew hserved =>
    rcases List.mem_cons.1 hl with he | hl
    · obtain ⟨rfl, rfl⟩ := Prod.mk.inj he
      exact .inr ⟨hnew, hserved⟩
    · exact .inl ⟨k', hl⟩
  | changed hp hop hc =>
    rcases List.mem_cons.1 hl with he | hl
    · obtain ⟨rfl, rfl⟩ := Prod.mk.inj he
      exact .inl ⟨_, hp.mem_iff.2 List.mem_cons_self⟩
    · exact .inl ⟨k', hp.mem_iff.2 (List.mem_cons_of_mem _ hl)⟩
  | joined hp =>
    rcases List.mem_cons.1 hl with he | hl
    · obtain ⟨rfl, rfl⟩ := Prod.mk.inj he
      exact .inl ⟨_, hp.mem_iff.2 List.mem_cons_self⟩
    · rcases List.mem_cons.1 hl with he | hl
      · obtain ⟨rfl, rfl⟩ := Prod.mk.inj he
        exact .inl ⟨_, hp.mem_iff.2 (List.mem_cons_of_mem _ List.mem_cons_self)⟩
      · exact .inl ⟨k', hp.mem_iff.2 (List.mem_cons_of_mem _ (List.mem_cons_of_mem _ hl))⟩
  | ended hop hp => exact .inl ⟨k', hp.mem_iff.2 (List.mem_cons_of_mem _ hl)⟩

end Shape

/-! ## The nodes of one list -/

/-- **What becomes of the nodes** `ns` of the list `l`. -/
inductive Moves (v : View η σ α) (l : Addr) (op : Op η α) : List Addr → List Addr → Prop
  | same {ns : List Addr} (hstay : op.leaving l ns = []) : Moves v l op ns ns
  | grown {xs ns ys : List Addr} (hstay : op.leaving l (xs ++ ys) = [])
      (hnew : (∀ a ∈ ns, v.fresh ≤ a) ∨
        ∃ m k, op = .join l m ∧ l ≠ m ∧ (m, k) ∈ v.lists ∧ ns = k.nodes) :
      Moves v l op (xs ++ ys) (xs ++ (ns ++ ys))
  | rotated {ns ns' : List Addr} (hop : op = .rotate l) (hp : ns'.Perm ns) : Moves v l op ns ns'
  | removed {xs ys : List Addr} {a : Addr} (hleave : op.leaving l (xs ++ a :: ys) = [a]) :
      Moves v l op (xs ++ a :: ys) (xs ++ ys)
  | emptied {ns : List Addr} (hleave : op.leaving l ns = ns) : Moves v l op ns []

namespace Moves

variable {v : View η σ α} {op : Op η α} {l a : Addr} {ns ns' : List Addr}

/-- **What leaves a list** are the nodes that are in it before and not after. -/
theorem mem_leaving (h : Moves v l op ns ns') (hnd : ns.Nodup) (ha : a ∈ ns) :
    a ∈ op.leaving l ns ↔ a ∉ ns' := by
  cases h with
  | same hstay => simp [hstay, ha]
  | grown hstay =>
    have hmem : a ∈ _ := ha
    rw [hstay]
    simp only [List.mem_append] at hmem ⊢
    tauto
  | rotated hop hp =>
    rw [hop]
    simpa [Op.leaving] using hp.mem_iff.2 ha
  | @removed xs ys b hleave =>
    have hb := (List.nodup_cons.1 (List.perm_middle.nodup_iff.1 hnd)).1
    rw [hleave, List.mem_singleton]
    refine ⟨fun he => he ▸ hb, fun hout => ?_⟩
    exact (List.mem_cons.1 (List.perm_middle.mem_iff.1 ha)).resolve_right hout
  | emptied hleave => simp [hleave, ha]

theorem mem_of_leaving (h : Moves v l op ns ns') (ha : a ∈ op.leaving l ns) : a ∈ ns := by
  cases h with
  | same hstay => simp [hstay] at ha
  | grown hstay => simp [hstay] at ha
  | rotated hop => simp [hop, Op.leaving] at ha
  | removed hleave =>
    rw [hleave, List.mem_singleton] at ha
    simp [ha]
  | emptied hleave => rwa [hleave] at ha

/-- **What comes to a list** is fresh, or is joined to it from another list. -/
theorem mem_after (h : Moves v l op ns ns') (ha : a ∈ ns') :
    a ∈ ns ∨ v.fresh ≤ a ∨ ∃ m k, op = .join l m ∧ l ≠ m ∧ (m, k) ∈ v.lists ∧ a ∈ k.nodes := by
  cases h with
  | same => exact .inl ha
  | grown hstay hnew =>
    simp only [List.mem_append] at ha ⊢
    rcases ha with ha | ha | ha
    · exact .inl (.inl ha)
    · refine .inr (hnew.imp (fun h => h a ha) ?_)
      rintro ⟨m, k, hop, hlm, hm, rfl⟩
      exact ⟨m, k, hop, hlm, hm, ha⟩
    · exact .inl (.inr ha)
  | rotated hop hp => exact .inl (hp.mem_iff.1 ha)
  | removed =>
    simp only [List.mem_append, List.mem_cons] at ha ⊢
    tauto
  | emptied => cases ha

/-- **Without a rotation** the nodes that stay keep their order. -/
theorem order (h : Moves v l op ns ns') (hop : op ≠ .rotate l) (hnd : ns.Nodup) (hnd' : ns'.Nodup) :
    ns'.filter (· ∈ ns) = ns.filter (· ∈ ns') := by
  cases h with
  | same => rfl
  | @grown xs ns ys =>
    have hout : ∀ a ∈ ns, a ∉ xs ++ ys := by
      intro a ha hm
      have hnd' := List.perm_append_comm_assoc xs ns ys |>.nodup_iff.1 hnd'
      exact (List.nodup_append.1 hnd').2.2 a ha a hm rfl
    have hnone : ns.filter (· ∈ xs ++ ys) = [] :=
      List.filter_eq_nil_iff.2 fun a ha => by simpa using hout a ha
    have hsame : (xs ++ ys).filter (· ∈ xs ++ ys) = xs ++ ys :=
      List.filter_eq_self.2 fun a ha => by simpa using ha
    have hstay : (xs ++ ys).filter (· ∈ xs ++ (ns ++ ys)) = xs ++ ys :=
      List.filter_eq_self.2 fun a ha => by simp at ha ⊢; tauto
    rw [hstay, List.filter_append, List.filter_append, hnone, List.nil_append, ← List.filter_append,
      hsame]
  | rotated hrot => exact absurd hrot hop
  | @removed xs ys a =>
    have ha := (List.nodup_cons.1 (List.perm_middle.nodup_iff.1 hnd)).1
    have hsame : (xs ++ ys).filter (· ∈ xs ++ a :: ys) = xs ++ ys :=
      List.filter_eq_self.2 fun b hb => by simp at hb ⊢; tauto
    have hxs : xs.filter (· ∈ xs ++ ys) = xs :=
      List.filter_eq_self.2 fun b hb => by simp [hb]
    have hys : ys.filter (· ∈ xs ++ ys) = ys :=
      List.filter_eq_self.2 fun b hb => by simp [hb]
    rw [hsame, List.filter_append, List.filter_cons_of_neg (by simpa using ha), hxs, hys]
  | emptied => simp

end Moves

namespace Reshapes

variable {v : View η σ α} {op : Op η α} {l : Addr} {k k' : Strip η α}

/-- **A list that is no target stays what it is.** -/
theorem eq_of_not_mem (h : Reshapes v l k op k') (hl : l ∉ op.targets) : k' = k := by
  cases h with
  | kept => rfl
  | changed hop => exact absurd (hop ▸ List.mem_singleton_self l) hl
  | received => exact absurd (by simp [Op.targets]) hl
  | handed => exact absurd (by simp [Op.targets]) hl

/-- No operation moves the allocator of a list. -/
theorem allocator (h : Reshapes v l k op k') : k'.allocator = k.allocator := by
  cases h with
  | changed hop hc => cases hc <;> rfl
  | _ => rfl

/-- The hooks of a list change only where they are installed. -/
theorem hooks (h : Reshapes v l k op k') (hop : op.rehooks? ≠ some l) : k'.hooks = k.hooks := by
  cases h with
  | changed _ hc =>
    cases hc with
    | rehooked hre => exact absurd hre hop
    | _ => rfl
  | _ => rfl

/-- What becomes of the nodes of a list. -/
theorem moves (h : Reshapes v l k op k') : Moves v l op k.nodes k'.nodes := by
  cases h with
  | kept hstay => exact .same hstay
  | changed hop hc =>
    cases hc with
    | @grown op xs ns ys hk hns hstay =>
      have hnew : ∀ a ∈ ns.map (·.1), v.fresh ≤ a := by
        intro a ha
        obtain ⟨e, he, rfl⟩ := List.mem_map.1 ha
        exact hns e he
      rw [Heap.IsRing.nodes_append hk] at hstay ⊢
      simpa [Strip.nodes] using Moves.grown hstay (.inl hnew)
    | written hw =>
      have hstay : op.leaving l k.nodes = [] := by cases hw <;> rfl
      simpa [Strip.nodes, hw.split] using Moves.same (v := v) hstay
    | rotated => exact .rotated rfl ((rotated_perm k.entries).map _)
    | rehooked hre =>
      refine .same ?_
      cases op <;> first | rfl | cases hre
    | removed hk hleave =>
      rw [Heap.IsRing.nodes_at hk] at hleave ⊢
      simpa [Strip.nodes] using Moves.removed hleave
    | cleared => exact .emptied (if_pos rfl)
  | @received m k₂ hlm hm =>
    have hstay : (.join l m : Op η α).leaving l (k.nodes ++ []) = [] := if_neg hlm.symm
    have hmoves := Moves.grown hstay (.inr ⟨m, k₂, rfl, hlm, hm, rfl⟩)
    simpa [Strip.nodes] using hmoves
  | handed => exact .emptied (if_pos rfl)

end Reshapes

/-- **What a step does to a list** that is there before and after it. -/
theorem Step.Sound.reshapes {st : Step η σ α} {v v' : View η σ α} {l : Addr} {k k' : Strip η α}
    (hst : st.Sound B v v') (hl : (l, k) ∈ v.lists) (hl' : (l, k') ∈ v'.lists) :
    (∃ why, st.outcome = .misused why) ∧ k' = k ∨ Reshapes v l k st.op k' := by
  have hnd := hst.before.shows.lists.nodup_headers
  rcases hst.effect.shape hnd with ⟨hmis, rfl⟩ | hs
  · exact .inl ⟨hmis, (hst.before.ring hl').unique (hst.before.ring hl)⟩
  · rcases hs.reshapes hnd hl with ⟨k₁, hl₁, hr⟩ | ⟨-, hout⟩
    · obtain rfl := (hst.after.ring hl').unique (hst.after.ring hl₁)
      exact .inr hr
    · exact absurd (List.mem_map_of_mem hl') hout

end RingList
