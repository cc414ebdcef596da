import RingList.Proofs.Copying

/-!
# Taking values from both ends

A word says from which end each of the next values is taken. `sweep` is what is got from a sequence
then, and how much is left after each step, and `remains` is what is left in the end. A borrowed
iterator walks along a sequence that stays what it is: as long as its number is not zero, its two
places are the ends of what is left (`Iter.At`), and once they have met they mean nothing.

* `eq_yielded_append`: what was yielded from the front, what is left, and what was yielded from the
  back are the sequence.
* `along_yields`: a borrowed iterator yields what a sweep of the list's entries yields.
* `placesAlong_yields`: it finds the values in the nodes that the sweep yields.
-/

set_option autoImplicit false

namespace RingList

variable {η σ α β γ : Type}

/-! ## Sweeps of sequences -/

namespace End

/-- The value at an end, and what is left without it. -/
def take : End → List β → Option β × List β
  | .front, xs => (xs.head?, xs.tail)
  | .back, xs => (xs.getLast?, xs.dropLast)

/-- A sequence with one more value at an end. -/
def put : End → β → List β → List β
  | .front, x, xs => x :: xs
  | .back, x, xs => xs ++ [x]

/-- A sequence in the order in which it is taken from an end. -/
def order : End → List β → List β
  | .front, xs => xs
  | .back, xs => xs.reverse

@[simp] theorem take_nil (e : End) : e.take ([] : List β) = (none, []) := by cases e <;> rfl

@[simp] theorem take_put (e : End) (x : β) (xs : List β) : e.take (e.put x xs) = (some x, xs) := by
  cases e <;> simp [take, put]

theorem map_order (e : End) (f : β → γ) (xs : List β) :
    (e.order xs).map f = e.order (xs.map f) := by
  cases e <;> simp [order]

theorem eq_nil_or_put (e : End) (xs : List β) : xs = [] ∨ ∃ x ys, xs = e.put x ys := by
  cases e with
  | front =>
    cases xs with
    | nil => exact .inl rfl
    | cons x xs => exact .inr ⟨x, xs, rfl⟩
  | back =>
    rcases List.eq_nil_or_concat xs with rfl | ⟨ys, x, rfl⟩
    · exact .inl rfl
    · exact .inr ⟨x, ys, by simp [put]⟩

end End

/-- What is got along a word, each with the number of values that are left then. -/
def sweep : List End → List β → List (Option β × Nat)
  | [], _ => []
  | e :: word, xs => ((e.take xs).1, (e.take xs).2.length) :: sweep word (e.take xs).2

/-- What is left after a word. -/
def remains : List End → List β → List β
  | [], xs => xs
  | e :: word, xs => remains word (e.take xs).2

/-- What was yielded from one of the ends along a word. -/
def yielded (e : End) (word : List End) (got : List (Option β × Nat)) : List β :=
  (word.zip got).filterMap fun p => if p.1 = e then p.2.1 else none

theorem sweep_nil (word : List End) :
    sweep word ([] : List β) = List.replicate word.length (none, 0) := by
  induction word with
  | nil => rfl
  | cons e word ih => simp [sweep, ih, List.replicate_succ]

theorem remains_nil (word : List End) : remains word ([] : List β) = [] := by
  induction word with
  | nil => rfl
  | cons e word ih => simpa [remains] using ih

theorem yielded_nil (e : End) (word : List End) :
    yielded e word (sweep word ([] : List β)) = [] := by
  refine List.filterMap_eq_nil_iff.2 fun p hp => ?_
  have hsnd := (List.of_mem_zip hp).2
  rw [sweep_nil] at hsnd
  rw [(List.mem_replicate.1 hsnd).2]
  exact ite_self none

/-- A value that is put to the end `d` is the first one that is yielded from there. -/
theorem yielded_put (e d : End) (word : List End) (x : β) (xs : List β) :
    yielded e (d :: word) (sweep (d :: word) (d.put x xs)) =
      if d = e then x :: yielded e word (sweep word xs) else yielded e word (sweep word xs) := by
  by_cases hd : d = e <;> simp [yielded, sweep, hd]

/-- **What was yielded from the front, what is left and what was yielded from the back** are the
sequence, in this order but for the reversal of the last part. -/
theorem eq_yielded_append (word : List End) (xs : List β) :
    xs = yielded .front word (sweep word xs) ++
      (remains word xs ++ (yielded .back word (sweep word xs)).reverse) := by
  induction word generalizing xs with
  | nil => simp [yielded, remains]
  | cons d word ih =>
    rcases d.eq_nil_or_put xs with rfl | ⟨x, ys, rfl⟩
    · simp [yielded_nil, remains_nil]
    · have hrest : remains (d :: word) (d.put x ys) = remains word ys := by simp [remains]
      rw [yielded_put, yielded_put, hrest]
      cases d with
      | front =>
        show x :: ys = x :: (yielded .front word (sweep word ys) ++ _)
        exact congrArg (x :: ·) (ih ys)
      | back =>
        show ys ++ [x] = yielded .front word (sweep word ys) ++
          (remains word ys ++ (x :: yielded .back word (sweep word ys)).reverse)
        rw [List.reverse_cons, ← List.append_assoc (remains word ys), ← List.append_assoc, ← ih ys]

example : sweep [.front, .back, .front, .back] ['a', 'b', 'c'] =
    [(some 'a', 2), (some 'c', 1), (some 'b', 0), (none, 0)] := by decide

/-- What is left by its positions. -/
theorem remains_eq (word : List End) (xs : List β) :
    remains word xs = (xs.drop (yielded .front word (sweep word xs)).length).take
      (xs.length - (yielded .front word (sweep word xs)).length -
        (yielded .back word (sweep word xs)).length) := by
  have hsplit := eq_yielded_append word xs
  generalize yielded .front word (sweep word xs) = front at hsplit ⊢
  generalize yielded .back word (sweep word xs) = back at hsplit ⊢
  generalize remains word xs = rest at hsplit ⊢
  subst hsplit
  rw [List.drop_left]
  refine (List.take_left' ?_).symm
  simp only [List.length_append, List.length_reverse]
  omega

/-- What is yielded from an end is what comes first from there. -/
theorem yielded_first (e : End) (word : List End) (xs : List β) :
    yielded e word (sweep word xs) <+: e.order xs := by
  have hsplit := eq_yielded_append word xs
  cases e with
  | front => exact ⟨_, hsplit.symm⟩
  | back =>
    refine ⟨(yielded .front word (sweep word xs) ++ remains word xs).reverse, ?_⟩
    have hrev := congrArg List.reverse hsplit
    simpa [End.order] using hrev.symm

/-- What was yielded is not left, if `f` tells the members apart. -/
theorem not_mem_remains {f : β → γ} {word : List End} {xs : List β} (hnd : (xs.map f).Nodup)
    {e : End} {x : β} (hx : x ∈ yielded e word (sweep word xs)) :
    f x ∉ (remains word xs).map f := by
  rw [eq_yielded_append word xs, List.map_append, List.map_append, List.map_reverse] at hnd
  obtain ⟨-, hrest, hfront⟩ := List.nodup_append.1 hnd
  obtain ⟨-, -, hback⟩ := List.nodup_append.1 hrest
  have hfx := List.mem_map_of_mem (f := f) hx
  intro hmem
  cases e with
  | front => exact hfront (f x) hfx (f x) (List.mem_append_left _ hmem) rfl
  | back => exact hback (f x) hmem (f x) (List.mem_reverse.2 hfx) rfl

/-- Taking from one end as often as there are values yields them all, and then nothing. -/
theorem sweep_all (e : End) (xs : List β) :
    (sweep (List.replicate (xs.length + 1) e) xs).map (·.1) = (e.order xs).map some ++ [none] := by
  induction hn : xs.length generalizing xs with
  | zero =>
    obtain rfl := List.eq_nil_of_length_eq_zero hn
    cases e <;> rfl
  | succ n ih =>
    rcases e.eq_nil_or_put xs with rfl | ⟨x, ys, rfl⟩
    · cases hn
    · have hys : ys.length = n := by cases e <;> simpa [End.put] using hn
      rw [List.replicate_succ, sweep, List.map_cons, End.take_put, ih ys hys]
      cases e with
      | front => rfl
      | back => simp [End.put, End.order]

/-! ## Borrowed iterators -/

namespace Iter

/-- Where the next value from an end is found, if there is one. -/
def place (it : Iter) (e : End) : Option Addr :=
  if it.remaining = 0 then none else
    match e with
    | .front => some it.front
    | .back => some it.back

/-- The nodes in which the values are found that are taken along a word. -/
def placesAlong : List End → Iter → Action η σ α (List (Option Addr))
  | [], _ => pure []
  | e :: word, it => do
    let (_, after) ← it.take e
    return it.place e :: (← placesAlong word after)

/-- The iterator has these entries left. -/
structure At (it : Iter) (es : List (Addr × α)) : Prop where
  remaining : it.remaining = es.length
  front : ∀ p ∈ es.head?, it.front = p.1
  back : ∀ p ∈ es.getLast?, it.back = p.1

theorem at_start (l : Addr) (es : List (Addr × α)) :
    At ⟨startOf l es, endOf l es, es.length⟩ es := by
  refine ⟨rfl, fun p hp => ?_, fun p hp => ?_⟩
  · simp [startOf, Option.mem_def.1 hp]
  · simp [endOf, Option.mem_def.1 hp]

end Iter

section
variable {v : View η σ α} {l : Addr} {k : Strip η α} {it : Iter} {es : List (Addr × α)}

theorem Iter.At.place (h : it.At es) (e : End) : it.place e = (e.take es).1.map (·.1) := by
  unfold Iter.place
  rw [h.remaining]
  cases e with
  | front =>
    cases es with
    | nil => rfl
    | cons p es => simp [End.take, h.front p rfl]
  | back =>
    rcases List.eq_nil_or_concat es with rfl | ⟨es', p, rfl⟩
    · rfl
    · simp [End.take, h.back p (by simp)]

/-- The hint is exact. -/
theorem Iter.At.sizeHint (h : it.At es) : it.sizeHint = (es.length, some es.length) := by
  rw [Iter.sizeHint, h.remaining]

/-- **One step of a borrowed iterator** yields the value at the end and leaves the others. -/
theorem Iter.At.take (hm : (l, k) ∈ v.lists) (hin : es <:+: k.entries) (h : it.At es) (e : End) :
    ∃ it', Yields (it.take e) v ((e.take es).1.map (·.2), it') v ∧ it'.At (e.take es).2 ∧
      (e.take es).2 <:+: k.entries := by
  obtain ⟨front, back, remaining⟩ := it
  obtain ⟨xs, ys, hk⟩ := hin
  obtain rfl : remaining = es.length := h.remaining
  rcases e.eq_nil_or_put es with rfl | ⟨⟨a, x⟩, zs, rfl⟩
  · refine ⟨_, ?_, by simpa using h, by simp⟩
    rw [End.take_nil]
    cases e <;> exact yields_pure _ v
  · rw [End.take_put]
    cases e with
    | front =>
      obtain rfl : front = a := h.front (a, x) rfl
      have hk' : k.entries = xs ++ (front, x) :: (zs ++ ys) := by rw [← hk]; simp [End.put]
      refine ⟨_, next_yields hm hk' back zs.length, ⟨rfl, fun p hp => ?_, fun p hp => ?_⟩,
        xs ++ [(front, x)], ys, by rw [hk']; simp⟩
      · simp [startOf, Option.mem_def.1 hp]
      · refine h.back p ?_
        simp [End.put, List.getLast?_cons, Option.mem_def.1 hp]
    | back =>
      obtain rfl : back = a := h.back (a, x) (by simp [End.put])
      have hk' : k.entries = (xs ++ zs) ++ (back, x) :: ys := by rw [← hk]; simp [End.put]
      have hlen : (End.back.put (back, x) zs).length = zs.length + 1 := by simp [End.put]
      rw [hlen]
      refine ⟨_, nextBack_yields hm hk' front zs.length, ⟨rfl, fun p hp => ?_, fun p hp => ?_⟩,
        xs, (back, x) :: ys, hk'.symm⟩
      · refine h.front p ?_
        simp [End.put, Option.mem_def.1 hp]
      · simp [endOf, Option.mem_def.1 hp]

/-- **A borrowed iterator** yields along a word what is got from the entries that it has left. -/
theorem along_yields (hm : (l, k) ∈ v.lists) (word : List End) (hin : es <:+: k.entries)
    (h : it.At es) :
    Yields (it.along word) v ((sweep word es).map fun t => (t.1.map (·.2), t.2)) v := by
  induction word generalizing it es with
  | nil => exact yields_pure _ v
  | cons e word ih =>
    obtain ⟨it', htake, h', hin'⟩ := h.take hm hin e
    refine htake.bind ((ih hin' h').bind ?_)
    rw [h'.sizeHint]
    exact yields_pure _ v

/-- The values that it yields are in the nodes of these entries. -/
theorem placesAlong_yields (hm : (l, k) ∈ v.lists) (word : List End) (hin : es <:+: k.entries)
    (h : it.At es) :
    Yields (it.placesAlong word) v ((sweep word es).map fun t => t.1.map (·.1)) v := by
  induction word generalizing it es with
  | nil => exact yields_pure _ v
  | cons e word ih =>
    obtain ⟨it', htake, h', hin'⟩ := h.take hm hin e
    refine htake.bind ((ih hin' h').bind ?_)
    rw [h.place e]
    exact yields_pure _ v

end

end RingList
