import RingList.Proofs.Iterators
import RingList.Session.Iterator

/-!
# Iterating from both ends

A borrowed iterator over `n` values that is asked along a word for values from one end or the other:
the first `n` calls yield, from each end in the order of the list seen from there, and all later calls
yield nothing. Wherever it stands, what it has left can be seen in several ways (as its last value, by a
clone, as debug text), and none of them takes anything from it.

* `sweep_getElem?`: which calls of a sweep yield, and how many values each of them leaves.
* `Iter.At.after`, `Iter.At.last`, `Iter.At.rest`: the iterator after a word, and what it has left.
* `World.DoubleEnded`: what is got along a word, and from the iterator afterwards.
* `Session.callBorrowed_debug`: the debug text that a session is given.
* `World.double_ended`: this holds of every list, after every run and along every word.
-/

set_option autoImplicit false

namespace RingList

variable {η σ α β γ : Type}

/-! ## Sweeps by number -/

namespace End

theorem isSome_take (e : End) (xs : List β) : (e.take xs).1.isSome ↔ 0 < xs.length := by
  cases e with
  | front => cases xs <;> simp [take]
  | back => simp [take, List.getLast?_isSome, List.length_pos_iff]

@[simp] theorem length_take (e : End) (xs : List β) : (e.take xs).2.length = xs.length - 1 := by
  cases e <;> simp [take]

theorem take_map (e : End) (f : β → γ) (xs : List β) :
    e.take (xs.map f) = ((e.take xs).1.map f, (e.take xs).2.map f) := by
  cases e <;> simp [take]

end End

@[simp] theorem length_sweep (word : List End) (xs : List β) :
    (sweep word xs).length = word.length := by
  induction word generalizing xs with
  | nil => rfl
  | cons e word ih => simp [sweep, ih]

/-- **The calls of a sweep by number**: the call yields if fewer values than there are were asked for
before it, and it leaves what is left of them. -/
theorem sweep_getElem? {word : List End} {xs : List β} {i : Nat} {p : Option β × Nat}
    (hp : (sweep word xs)[i]? = some p) :
    (p.1.isSome ↔ i < xs.length) ∧ p.2 = xs.length - min xs.length (i + 1) := by
  induction word generalizing xs i with
  | nil => simp [sweep] at hp
  | cons e word ih =>
    cases i with
    | zero =>
      obtain rfl : ((e.take xs).1, (e.take xs).2.length) = p := by simpa [sweep] using hp
      refine ⟨e.isSome_take xs, ?_⟩
      rw [e.length_take]
      omega
    | succ i =>
      obtain ⟨hsome, hleft⟩ := ih (show (sweep word (e.take xs).2)[i]? = some p by
        simpa [sweep] using hp)
      rw [e.length_take] at hsome hleft
      constructor
      · rw [hsome]
        omega
      · rw [hleft]
        omega

theorem length_remains (word : List End) (xs : List β) :
    (remains word xs).length = xs.length - min xs.length word.length := by
  induction word generalizing xs with
  | nil => simp [remains]
  | cons e word ih =>
    rw [remains, ih, e.length_take, List.length_cons]
    omega

theorem sweep_map (f : β → γ) (word : List End) (xs : List β) :
    sweep word (xs.map f) = (sweep word xs).map fun t => (t.1.map f, t.2) := by
  induction word generalizing xs with
  | nil => rfl
  | cons e word ih => simp [sweep, e.take_map, ih]

theorem remains_map (f : β → γ) (word : List End) (xs : List β) :
    remains word (xs.map f) = (remains word xs).map f := by
  induction word generalizing xs with
  | nil => rfl
  | cons e word ih => rw [remains, e.take_map, remains, ih]

theorem getElem?_of_yielded {e : End} {word : List End} {xs : List β} {i : Nat} {x : β}
    (hx : (yielded e word (sweep word xs))[i]? = some x) : (e.order xs)[i]? = some x := by
  obtain ⟨ys, hys⟩ := yielded_first e word xs
  rw [← hys, List.getElem?_append_left (List.getElem?_eq_some_iff.1 hx).1, hx]

/-- Only members are yielded. -/
theorem mem_of_mem_sweep {word : List End} {xs : List β} {x : β}
    (hx : some x ∈ (sweep word xs).map (·.1)) : x ∈ xs := by
  induction word generalizing xs with
  | nil => cases hx
  | cons e word ih =>
    rcases e.eq_nil_or_put xs with rfl | ⟨y, ys, rfl⟩
    · rw [sweep_nil] at hx
      simp at hx
    · simp only [sweep, End.take_put, List.map_cons, List.mem_cons, Option.some.injEq] at hx
      have hmem : x = y ∨ x ∈ ys := hx.imp_right ih
      cases e <;> simpa [End.put, or_comm] using hmem

/-- The members that a sweep yields, from both ends together, are different ones. -/
theorem nodup_sweep {word : List End} {xs : List β} (hnd : xs.Nodup) :
    ((sweep word xs).map (·.1)).reduceOption.Nodup := by
  induction word generalizing xs with
  | nil => exact List.nodup_nil
  | cons e word ih =>
    rcases e.eq_nil_or_put xs with rfl | ⟨x, ys, rfl⟩
    · rw [sweep_nil]
      simp [List.reduceOption]
    · have hys : ys.Nodup ∧ x ∉ ys := by
        cases e with
        | front => exact (List.nodup_cons.1 hnd).symm
        | back =>
          have happ := List.nodup_append.1 hnd
          exact ⟨happ.1, fun hx => happ.2.2 x hx x (by simp) rfl⟩
      simp only [sweep, End.take_put, List.map_cons, List.reduceOption_cons_of_some]
      refine List.nodup_cons.2 ⟨fun hx => hys.2 ?_, ih hys.1⟩
      exact mem_of_mem_sweep (List.reduceOption_mem_iff.1 hx)

/-! ## The iterator after a word -/

namespace Iter

/-- The iterator after values were taken along a word. -/
def after : List End → Iter → Action η σ α Iter
  | [], it => pure it
  | e :: word, it => do
    let (_, it) ← it.take e
    after word it

theorem clone_eq (it : Iter) : it.clone = it := rfl

variable {v : View η σ α} {l : Addr} {k : Strip η α} {it : Iter} {es : List (Addr × α)}

/-- **The iterator after a word** has left what remains. -/
theorem At.after (hm : (l, k) ∈ v.lists) (word : List End) (hin : es <:+: k.entries)
    (h : it.At es) : ∃ it', Yields (it.after word) v it' v ∧ it'.At (remains word es) ∧
      remains word es <:+: k.entries := by
  induction word generalizing it es with
  | nil => exact ⟨it, yields_pure it v, h, hin⟩
  | cons e word ih =>
    obtain ⟨it₁, htake, h₁, hin₁⟩ := h.take hm hin e
    obtain ⟨it', hafter, h', hin'⟩ := ih hin₁ h₁
    exact ⟨it', htake.bind hafter, h', hin'⟩

/-- **The last value left** is found from the back. -/
theorem At.last (hm : (l, k) ∈ v.lists) (hin : es <:+: k.entries) (h : it.At es) :
    Yields it.last v (es.map (·.2)).getLast? v := by
  obtain ⟨it', htake, -⟩ := h.take hm hin .back
  have hlast : (End.back.take es).1.map (·.2) = (es.map (·.2)).getLast? := by simp [End.take]
  rw [← hlast]
  exact Yields.bind (x := it.nextBack) htake (yields_pure _ v)

theorem At.takeMany (hm : (l, k) ∈ v.lists) (e : End) (n : Nat) (hin : es <:+: k.entries)
    (h : it.At es) : Yields (takeMany e n it) v (((e.order es).take n).map (·.2)) v := by
  induction n generalizing it es with
  | zero => exact yields_pure [] v
  | succ n ih =>
    obtain ⟨it', htake, h', hin'⟩ := h.take hm hin e
    unfold Iter.takeMany
    refine htake.bind ?_
    rcases e.eq_nil_or_put es with rfl | ⟨⟨a, x⟩, zs, rfl⟩
    · rw [End.take_nil]
      cases e <;> exact yields_pure [] v
    · rw [End.take_put] at h' hin' ⊢
      have hput : ((e.order (e.put (a, x) zs)).take (n + 1)).map (·.2) =
          x :: ((e.order zs).take n).map (·.2) := by
        cases e <;> simp [End.order, End.put]
      rw [hput]
      exact (ih hin' h').bind (yields_pure _ v)

/-- **All values left**, taken from an end. -/
theorem At.rest (hm : (l, k) ∈ v.lists) (e : End) (hin : es <:+: k.entries) (h : it.At es) :
    Yields (it.rest e) v (e.order (es.map (·.2))) v := by
  have hall : ((e.order es).take it.remaining).map (·.2) = e.order (es.map (·.2)) := by
    have hlen : (e.order es).length = it.remaining := by
      cases e <;> simp [End.order, h.remaining]
    rw [← hlen, List.take_length, e.map_order]
  rw [← hall]
  exact h.takeMany hm e it.remaining hin

end Iter

theorem World.read_debugText {w : World η σ α} {it : Iter} {vs : List α}
    (hrest : w.read (it.rest .front) = .ok vs) (debug : α → String) :
    w.read (it.debugText debug) = .ok ("Iter([" ++ ", ".intercalate (vs.map debug) ++ "])") := by
  unfold World.read at hrest ⊢
  rw [Iter.debugText, it.clone_eq, run_bind]
  cases hrun : it.rest .front w.store with
  | error why s' =>
    rw [hrun] at hrest
    cases hrest
  | ok vs' s' =>
    rw [hrun] at hrest
    cases hrest
    rfl

/-- A session that asks for the debug text of an iterator is given it, if there is one, and keeps the
iterator. -/
theorem Session.callBorrowed_debug {s : Session} {it : Iter} {vs : List Value}
    (hrest : s.world.read (it.rest .front) = .ok vs) :
    Session.callBorrowed it .debug s = .ok (.debug (if s.type.hasDebug then
      some ("Iter([" ++ ", ".intercalate (vs.map (s.type.debug false)) ++ "])") else none), it) s := by
  have hget : (get : Session.Step Session) s = .ok s s := rfl
  have hread : Session.read (it.debugText (s.type.debug false)) s =
      .ok ("Iter([" ++ ", ".intercalate (vs.map (s.type.debug false)) ++ "])") s := by
    simp only [Session.read, bind, EStateM.bind, hget, World.read_debugText hrest, pure,
      EStateM.pure]
  have hdebugged : Session.debugged (fun t => Session.read (it.debugText (t.debug false))) s =
      .ok (if s.type.hasDebug then
        some ("Iter([" ++ ", ".intercalate (vs.map (s.type.debug false)) ++ "])") else none) s := by
    simp only [Session.debugged, bind, EStateM.bind, hget]
    split
    · simp only [Functor.map, EStateM.map, hread]
    · rfl
  simp only [Session.callBorrowed, bind, EStateM.bind, hdebugged, pure, EStateM.pure]

/-! ## Lists -/

/-- **Iterating over the list `l` along a word**, with `n` values: what is `got` on the way, the iterator
`it` afterwards, and what is left then. -/
structure World.DoubleEnded (w : World η σ α) (l : Addr) (word : List End)
    (got : List (Option α × Nat)) (it : Iter) (rest : List α) : Prop where
  run : w.read (do (← Iter.start l).along word) = .ok got
  after : w.read (do (← Iter.start l).after word) = .ok it
  total : got.length = word.length
  /-- The first `n` calls yield a value and no later one does. After the call of number `i`, counted
  from 0, the iterator knows that `n - min n (i + 1)` values are left. -/
  calls : ∀ (i : Nat) p, got[i]? = some p → (p.1.isSome ↔ i < (w.valuesOf l).length) ∧
    p.2 = (w.valuesOf l).length - min (w.valuesOf l).length (i + 1)
  /-- The bounds for what is left after the word are the same. -/
  sizeHint : it.sizeHint = ((w.valuesOf l).length - min (w.valuesOf l).length word.length,
    some ((w.valuesOf l).length - min (w.valuesOf l).length word.length))
  /-- The values that are yielded at the front are the first ones, in order. -/
  front : ∀ (i : Nat) x, (yielded .front word got)[i]? = some x → (w.valuesOf l)[i]? = some x
  /-- The values that are yielded at the back are the last ones, from the last one on. -/
  back : ∀ (i : Nat) x, (yielded .back word got)[i]? = some x → (w.valuesOf l).reverse[i]? = some x
  /-- Every value is yielded once or is left. -/
  once : w.valuesOf l = yielded .front word got ++ (rest ++ (yielded .back word got).reverse)
  /-- The values are read in different nodes of the list, and never in its header. -/
  places : ∃ places, w.read (do (← Iter.start l).placesAlong word) = .ok places ∧
    got.map (·.1) = places.map (fun place => place.bind w.store.heap.value?) ∧
    places.reduceOption.Nodup ∧ (∀ a, some a ∈ places → a ∈ w.nodes l) ∧ l ∉ w.nodes l
  /-- The last value is the one that is got last when all that are left are taken from the front. -/
  last : w.read it.last = .ok rest.getLast? ∧
    ∃ more, w.read (it.along (List.replicate (rest.length + 1) .front)) = .ok more ∧
      more.map (·.1) = rest.map some ++ [none]
  /-- A clone yields the values that are left. The iterator does so itself after that. -/
  clone : ∀ e word', w.read (do
    let cloned ← it.clone.rest e
    let more ← it.along word'
    return (cloned, more)) = .ok (e.order rest, sweep word' rest)
  /-- The debug text shows the values that are left, each in its own way, and takes none of them. -/
  debug : ∀ (debug : α → String) word', w.read (do
    let text ← it.debugText debug
    let more ← it.along word'
    return (text, more)) = .ok ("Iter([" ++ ", ".intercalate (rest.map debug) ++ "])",
      sweep word' rest)

section
variable {B : Behaviour η σ α} {w : World η σ α} {v : View η σ α} {l : Addr} {k : Strip η α}

theorem World.Sound.doubleEnded (hw : w.Sound v) (hl : (l, k) ∈ v.lists) (word : List End) :
    ∃ it, w.DoubleEnded l word (sweep word (w.valuesOf l)) it (remains word (w.valuesOf l)) := by
  have hr := hw.ring hl
  have hvalues : w.valuesOf l = k.entries.map (·.2) := valuesOf_eq hw hl
  have hat := Iter.at_start l k.entries
  have hstart := iterStart_yields hl
  obtain ⟨it, hafter, h, hin⟩ := hat.after hl word List.infix_rfl
  have halong : ∀ word', Yields (it.along word') v (sweep word' (remains word (w.valuesOf l))) v := by
    intro word'
    rw [hvalues, remains_map, sweep_map]
    exact along_yields hl word' hin h
  have hrest : ∀ e, Yields (it.rest e) v (e.order (remains word (w.valuesOf l))) v := by
    intro e
    rw [hvalues, remains_map]
    exact h.rest hl e hin
  have hplaces : Yields (Iter.placesAlong word ⟨startOf l k.entries, endOf l k.entries,
      k.entries.length⟩) v ((sweep word k.nodes).map (·.1)) v := by
    rw [Strip.nodes, sweep_map, List.map_map]
    exact placesAlong_yields hl word List.infix_rfl hat
  exact ⟨it, {
    run := by
      rw [hvalues, sweep_map]
      exact hw.read_eq (hstart.bind (along_yields hl word List.infix_rfl hat))
    after := hw.read_eq (hstart.bind hafter)
    total := length_sweep _ _
    calls := fun i p hp => sweep_getElem? hp
    sizeHint := by rw [h.sizeHint, length_remains, hvalues, List.length_map]
    front := fun i x hx => getElem?_of_yielded (e := .front) hx
    back := fun i x hx => getElem?_of_yielded (e := .back) hx
    once := eq_yielded_append word _
    places := by
      refine ⟨_, hw.read_eq (hstart.bind hplaces), ?_, nodup_sweep hr.nodup, fun a ha => ?_, ?_⟩
      · rw [Strip.nodes, hvalues, sweep_map, sweep_map, List.map_map, List.map_map, List.map_map]
        refine List.map_congr_left fun t ht => ?_
        rcases t with ⟨_ | e, n⟩
        · rfl
        · have he : e ∈ k.entries := mem_of_mem_sweep (List.mem_map_of_mem (f := (·.1)) ht)
          exact (hr.value?_of_mem he).symm
      · rw [hw.nodes_eq hl]
        exact mem_of_mem_sweep ha
      · rw [hw.nodes_eq hl]
        exact hr.header_not_mem
    last := by
      refine ⟨?_, _, hw.read_eq (halong _), sweep_all .front _⟩
      rw [hvalues, remains_map]
      exact hw.read_eq (h.last hl hin)
    clone := fun e word' => hw.read_eq ((hrest e).bind ((halong word').bind (yields_pure _ v)))
    debug := fun debug word' => hw.read_eq <|
      Yields.bind ((hrest .front).bind (yields_pure _ v)) ((halong word').bind (yields_pure _ v)) }⟩

/-- **Iterating from both ends is exact** on every list of a program, along every word. A session that
asks an iterator for its debug text is given the one that shows what the iterator has left. -/
theorem World.double_ended {budgets : Array (Option Nat)} {hookState : σ}
    (hw : w.Reachable B budgets hookState) (hl : l ∈ w.holdings.lists) (word : List End) :
    (∃ got it rest, w.DoubleEnded l word got it rest) ∧
      ∀ (s : Session) (it : Iter) (rest : List Value), s.world.read (it.rest .front) = .ok rest →
        Session.callBorrowed it .debug s = .ok (.debug (if s.type.hasDebug then
          some ("Iter([" ++ ", ".intercalate (rest.map (s.type.debug false)) ++ "])") else none),
          it) s := by
  obtain ⟨v, lost, hs, -⟩ := hw.sound
  obtain ⟨k, hk⟩ := hs.mem_lists (World.owners_of_lists hl)
  obtain ⟨it, h⟩ := hs.doubleEnded hk word
  exact ⟨⟨_, it, _, h⟩, fun s it rest => Session.callBorrowed_debug⟩

/-- The ends meet in a list that was rotated, and three more calls yield nothing. After one call from
the back the debug text shows the two values that are left. -/
theorem World.double_ended_meeting :
    let B := ValueType.behaviour .char
    let w := ((World.start #[] {}).run B
      [.collect [.char 'a', .char 'b', .char 'c'], .rotate 0]).2
    let s : Session := { type := .char, world := w }
    let word : List End := [.back, .front, .front, .back, .front, .back]
    (0 ∈ w.holdings.lists ∧ w.valuesOf 0 = [.char 'c', .char 'a', .char 'b']) ∧
      w.read (do (← Iter.start 0).along word) = .ok [(some (.char 'b'), 2), (some (.char 'c'), 1),
        (some (.char 'a'), 0), (none, 0), (none, 0), (none, 0)] ∧
      (∃ got it rest, w.DoubleEnded 0 word got it rest) ∧
      ∃ it, w.read (do (← Iter.start 0).after [.back]) = .ok it ∧
        w.read (it.rest .front) = .ok [.char 'c', .char 'a'] ∧
        Session.callBorrowed it .debug s = .ok (.debug (some "Iter(['c', 'a'])"), it) s := by
  intro B w s word
  have hw : w.Reachable B #[] {} := ⟨_, rfl⟩
  have hl : 0 ∈ w.holdings.lists := by decide +kernel
  have hrest : w.read ((⟨3, 1, 2⟩ : Iter).rest .front) = .ok [.char 'c', .char 'a'] := by
    decide +kernel
  obtain ⟨hended, hdebug⟩ := World.double_ended hw hl word
  have htext : (if s.type.hasDebug then
      some ("Iter([" ++ ", ".intercalate ([.char 'c', .char 'a'].map (s.type.debug false)) ++ "])")
      else none) = some "Iter(['c', 'a'])" := by decide +kernel
  exact ⟨⟨hl, by decide +kernel⟩, by decide +kernel, hended, ⟨3, 1, 2⟩, by decide +kernel, hrest,
    htext ▸ hdebug s ⟨3, 1, 2⟩ _ hrest⟩

end

end RingList
