import RingList.Proofs.CoupledRuns

/-!
# A list never looks inside its values

Two programs that carry out the same operations, the second one with `f v` wherever the first one has
the value `v` and with hooks that do with images what the first one's hooks do, cannot be told apart
but for the values. Such programs are coupled, each block standing for itself, so that what is known
of coupled runs says it of every operation (`World.Image.perform`) and of every run
(`World.parametric`).
-/

set_option autoImplicit false

namespace RingList

variable {η σ τ α β : Type} {f : α → β} {R : σ → τ → Prop}

/-! ## Images and couplings -/

section
variable {w : World η σ α} {w' : World η τ β}

/-- An image is coupled with what it is an image of. -/
theorem World.Image.coupled (hw : w.Image f R w') : w.Coupled (.ofValues f R) w' where
  store := ⟨hw.store.heap ▸ w.store.heap.coupled_map f R, hw.store.budgets, hw.store.hookState⟩
  holdings := ⟨hw.holdings.trans w.holdings.rename_id.symm, fun _ _ => trivial,
    fun _ _ => trivial, fun _ _ _ => ⟨trivial, fun _ _ => trivial⟩⟩

end

section
variable {B : Behaviour η σ α} {B' : Behaviour η τ β}

/-! ## Runs -/

/-- What a program is told of the image of an operation is the image of what it is told of the
operation, and the worlds stay images of each other. -/
theorem World.Image.perform (hB : B.Image f R B') {w : World η σ α} {w' : World η τ β}
    (hw : w.Image f R w') (op : Op η α) :
    (w'.perform B' (op.map f)).1 = (w.perform B op).1.map f ∧
      (w.perform B op).2.Image f R (w'.perform B' (op.map f)).2 := by
  obtain ⟨houtcome, hadvance, hholdings⟩ := hw.coupled.perform hB op
  rw [Coupling.op_ofValues] at houtcome hadvance hholdings
  obtain ⟨evs, hevs, hevs'⟩ := hadvance.events
  refine ⟨houtcome.trans (Outcome.rename_id _), ⟨hadvance.coupled.heap.eq_map,
    hadvance.coupled.budgets, hadvance.coupled.hookState, ?_⟩,
    hholdings.renamed.trans (Holdings.rename_id _)⟩
  apply Array.toList_inj.1
  rw [hevs', hw.store.events, Array.toList_map, Array.toList_map, hevs, List.map_append,
    Coupling.event_ofValues]

theorem World.Image.steps (hB : B.Image f R B') (ops : List (Op η α)) {w : World η σ α}
    {w' : World η τ β} (hw : w.Image f R w') :
    List.Forall₂ (Step.Image f R) (w.steps B ops) (w'.steps B' (ops.map (Op.map f))) := by
  induction ops generalizing w w' with
  | nil => exact .nil
  | cons op ops ih =>
    obtain ⟨houtcome, hafter⟩ := hw.perform hB op
    exact .cons (.of_worlds rfl houtcome hw hafter) (ih hafter)

/-- **A list never looks inside its values.** When every value that a program gives to its operations
is replaced by its image, and the hooks by hooks that do with images what they do with the values,
every step is replaced by its image: it ends in the same way, for the same reason if it fails, all
lists have the same nodes, lengths, hooks and allocators, the same blocks are asked for and given
back, and the hooks are called in the same order with the images of the values. -/
theorem World.parametric (hB : B.Image f R B') {s : σ} {t : τ} (hst : R s t)
    (budgets : Array (Option Nat)) (ops : List (Op η α)) :
    List.Forall₂ (Step.Image f R) ((World.start budgets s).steps B ops)
      ((World.start budgets t).steps B' (ops.map (Op.map f))) :=
  (World.start_image hst budgets).steps hB ops

/-- Numbers seen as their parities, by hooks that count their calls: the third copy fails, and the
panic of the free hook on the first of the two copies is seen alike. -/
theorem World.parametric_parity :
    let f : Nat → Bool := fun v => v % 2 == 1
    let R : Nat → Nat → Prop := fun s t => t = s + 100
    let B : Behaviour Unit Nat Nat := {
      dup _ s v := (if s = 4 then .returns none else .returns (some (v + 2)), s + 1)
      free _ s v := (if v % 2 = 1 ∧ s = 5 then .panics else .returns (), s + 1)
      freeUnwinding _ s _ := s + 1
      matching _ s v key := (.returns (v % 2 == key % 2), s + 1) }
    let B' : Behaviour Unit Nat Bool := {
      dup _ t x := (if t = 104 then .returns none else .returns (some x), t + 1)
      free _ t x := (if x = true ∧ t = 105 then .panics else .returns (), t + 1)
      freeUnwinding _ t _ := t + 1
      matching _ t x key := (.returns (x == key), t + 1) }
    let ops : List (Op Unit Nat) := [.create .global, .setHooks 0 ⟨some (), some (), some ()⟩,
      .addTail 0 3, .addTail 0 4, .addTail 0 5, .search 0 8 (), .duplicate 0 ()]
    ((World.start #[] 0).run B ops).1.getLast? = some (.stopped (.panicked .free)) ∧
      B.Image f R B' ∧ R 0 100 ∧
      List.Forall₂ (Step.Image f R) ((World.start #[] 0).steps B ops)
        ((World.start #[] 100).steps B' (ops.map (Op.map f))) := by
  intro f R B B' ops
  have hB : B.Image f R B' := by
    constructor
    · rintro s t rfl - v
      by_cases hs : s = 4 <;> simp [B, B', R, f, hs, Reply.map]
    · rintro s t rfl - v
      simp [B, B', R, f]
    · rintro s t rfl - v
      rfl
    · rintro s t rfl - v key
      rcases Nat.mod_two_eq_zero_or_one v with hv | hv <;>
        rcases Nat.mod_two_eq_zero_or_one key with hkey | hkey <;> simp [B, B', R, f, hv, hkey]
  exact ⟨by decide +kernel, hB, rfl, World.parametric hB rfl #[] ops⟩

end

end RingList
