import RingList.Proofs.Copies
import RingList.Proofs.Encodings

/-!
# Hash feeds separate lists

A list feeds a hasher its length, as a machine word, and then the bytes of its values. If the bytes of
a value are an encoding of it (`Encoding`), then two lists feed the same bytes just if they are equal,
and no list feeds a proper beginning of what another one feeds. The length is needed for this: values
may take no bytes at all.

* `Encoding.forall₂_of_flatMap`: values in a row are told apart.
* `Encoding.pointwise_of_hashFeed`: lists are told apart.
* `World.feed_laws`: the hash feeds of the lists of a program.
-/

set_option autoImplicit false

namespace RingList

variable {η σ α : Type} {B : Behaviour η σ α} {bytes : α → List UInt8} {eq : α → α → Bool}
  {P : α → Prop} {xs ys : List α}

/-! ## Feeds of values -/

/-- **The bytes of as many values in a row** are told apart: none is a beginning of the other, unless
the values are equal. -/
theorem Encoding.forall₂_of_flatMap (henc : Encoding bytes eq P) : ∀ {xs ys : List α},
    xs.length = ys.length → (∀ x ∈ xs, P x) → (∀ y ∈ ys, P y) →
    xs.flatMap bytes <+: ys.flatMap bytes → List.Forall₂ (fun x y => eq x y = true) xs ys
  | [], [], _, _, _, _ => .nil
  | x :: xs, y :: ys, hlen, hxs, hys, h => by
    obtain ⟨hx, hxs⟩ := List.forall_mem_cons.1 hxs
    obtain ⟨hy, hys⟩ := List.forall_mem_cons.1 hys
    rw [List.flatMap_cons, List.flatMap_cons] at h
    -- the first values both feed beginnings of the longer sequence
    have hleft : bytes x <+: bytes y ++ ys.flatMap bytes := (List.prefix_append _ _).trans h
    have hright : bytes y <+: bytes y ++ ys.flatMap bytes := List.prefix_append _ _
    have hbytes : bytes x = bytes y := by
      rcases List.prefix_or_prefix_of_prefix hleft hright with hp | hp
      · exact henc.prefixFree x y hx hy hp
      · exact (henc.prefixFree y x hy hx hp).symm
    rw [hbytes, List.prefix_append_right_inj] at h
    exact .cons ((henc.agrees x y hx hy).1 hbytes)
      (henc.forall₂_of_flatMap (Nat.succ.inj hlen) hxs hys h)

/-- **The feeds of two sequences of values** are told apart in the same way, whatever their lengths,
if these are machine words. -/
theorem Encoding.pointwise_of_hashFeed (henc : Encoding bytes eq P) (hxs : ∀ x ∈ xs, P x)
    (hys : ∀ y ∈ ys, P y) (hm : xs.length < 256 ^ 8) (hn : ys.length < 256 ^ 8)
    (h : hashFeed bytes xs <+: hashFeed bytes ys) : Pointwise eq xs ys := by
  unfold hashFeed at h
  have hleft := (List.prefix_append (littleEndian 8 xs.length) _).trans h
  have hright := List.prefix_append (littleEndian 8 ys.length) (ys.flatMap bytes)
  have hwidth : (littleEndian 8 xs.length).length = (littleEndian 8 ys.length).length := by simp
  have hword : littleEndian 8 xs.length = littleEndian 8 ys.length :=
    (List.prefix_of_prefix_length_le hleft hright hwidth.le).eq_of_length hwidth
  have hlen : xs.length = ys.length := (littleEndian_inj hm hn).1 hword
  rw [hword, List.prefix_append_right_inj] at h
  exact Pointwise.iff_forall₂.2 (henc.forall₂_of_flatMap hlen hxs hys h)

/-- Sequences of equal values feed the same bytes, if equal values do. -/
theorem hashFeed_of_pointwise
    (hrespects : ∀ x ∈ xs, ∀ y ∈ ys, eq x y = true → bytes x = bytes y)
    (h : Pointwise eq xs ys) : hashFeed bytes xs = hashFeed bytes ys := by
  have hbytes : Pointwise (fun x y => bytes x == bytes y) xs ys :=
    h.imp fun x hx y hy he => beq_iff_eq.2 (hrespects x hx y hy he)
  exact hashFeed_congr ((Pointwise.iff_forall₂.1 hbytes).imp fun _ _ => beq_iff_eq.1)

theorem Encoding.respects (henc : Encoding bytes eq P) (hxs : ∀ x ∈ xs, P x)
    (hys : ∀ y ∈ ys, P y) : ∀ x ∈ xs, ∀ y ∈ ys, eq x y = true → bytes x = bytes y :=
  fun x hx y hy => (henc.agrees x y (hxs x hx) (hys y hy)).2

/-! ## Feeds of lists -/

/-- **The laws of the hash feeds** of a program's lists, when `eq` is the equality of values and
`bytes` is what a value feeds. -/
structure World.FeedLaws (B : Behaviour η σ α) (w : World η σ α) (rel : η) (eq : α → α → Bool)
    (bytes : α → List UInt8) : Prop where
  /-- Nothing but the values counts: not the nodes, nor the hooks, nor the allocator. -/
  feed : ∀ l ∈ w.holdings.lists, w.read (hash bytes l) = .ok (hashFeed bytes (w.valuesOf l))
  /-- Lists of encoded values feed the same bytes just if they are equal. -/
  separates : ∀ P, Encoding bytes eq P → ∀ l ∈ w.holdings.lists, ∀ m ∈ w.holdings.lists,
    (∀ x ∈ w.valuesOf l, P x) → (∀ y ∈ w.valuesOf m, P y) →
    (w.read (hash bytes l) = w.read (hash bytes m) ↔ w.Equals B rel l m)
  /-- What one of them feeds is no proper beginning of what another one feeds. -/
  complete : ∀ P, Encoding bytes eq P → ∀ l ∈ w.holdings.lists, ∀ m ∈ w.holdings.lists,
    (∀ x ∈ w.valuesOf l, P x) → (∀ y ∈ w.valuesOf m, P y) →
    ∀ bs bs', w.read (hash bytes l) = .ok bs → w.read (hash bytes m) = .ok bs' →
      bs <+: bs' → bs = bs'
  /-- Equal lists feed the same bytes if equal values do. -/
  respects : (∀ x y, eq x y = true → bytes x = bytes y) → ∀ l ∈ w.holdings.lists,
    ∀ m ∈ w.holdings.lists, w.Equals B rel l m → w.read (hash bytes l) = w.read (hash bytes m)

section
variable {budgets : Array (Option Nat)} {hookState : σ} {w : World η σ α} {v : View η σ α}
  {l : Addr} {rel : η}

/-- The length of a list is a machine word. -/
theorem World.Sound.length_valuesOf_lt (hs : w.Sound v) (hl : l ∈ w.holdings.lists) :
    (w.valuesOf l).length < 256 ^ 8 := by
  obtain ⟨k, hk⟩ := hs.mem_lists (owners_of_lists hl)
  have hlength : (w.valuesOf l).length = k.entries.length := by
    rw [valuesOf_eq hs hk]
    exact List.length_map _
  have hlt : k.entries.length < 1152921504606846976 := hs.length_lt hk
  omega

theorem World.Reachable.feedLaws (hw : w.Reachable B budgets hookState) (hrel : B.Computes rel eq)
    (bytes : α → List UInt8) : w.FeedLaws B rel eq bytes := by
  obtain ⟨v, -, hs, -⟩ := hw.sound
  have hfeed : ∀ l ∈ w.holdings.lists, w.read (hash bytes l) = .ok (hashFeed bytes (w.valuesOf l)) :=
    fun l hl => hs.read_hash bytes (owners_of_lists hl)
  refine ⟨hfeed, fun P henc l hl m hm hxs hys => ?_,
    fun P henc l hl m hm hxs hys bs bs' hbs hbs' hp => ?_, fun hrespects l hl m hm h => ?_⟩
  · rw [hfeed l hl, hfeed m hm, hs.equals_iff hl hm hrel, Except.ok.injEq]
    constructor
    · intro h
      exact henc.pointwise_of_hashFeed hxs hys (hs.length_valuesOf_lt hl) (hs.length_valuesOf_lt hm)
        (h ▸ List.prefix_rfl)
    · exact hashFeed_of_pointwise (henc.respects hxs hys)
  · rw [hfeed l hl, Except.ok.injEq] at hbs
    rw [hfeed m hm, Except.ok.injEq] at hbs'
    subst hbs hbs'
    exact hashFeed_of_pointwise (henc.respects hxs hys) (henc.pointwise_of_hashFeed hxs hys
      (hs.length_valuesOf_lt hl) (hs.length_valuesOf_lt hm) hp)
  · rw [hfeed l hl, hfeed m hm]
    rw [hs.equals_iff hl hm hrel] at h
    exact congrArg _ (hashFeed_of_pointwise (fun x _ y _ => hrespects x y) h)

/-- **The hash feeds of the lists of a program** separate them as equality does, if what a value feeds
encodes it, and what the values of every type with a hash feed does. -/
theorem World.feed_laws (hw : w.Reachable B budgets hookState) (hrel : B.Computes rel eq)
    (bytes : α → List UInt8) : w.FeedLaws B rel eq bytes ∧
      ∀ t : ValueType, t.hasHash = true → t.InBytes →
        Encoding t.bytes t.equal t.Contains ∧ t.behaviour.Computes .equality t.equal :=
  ⟨hw.feedLaws hrel bytes, fun _ ht hin => ⟨ValueType.encoding ht hin, fun _ _ _ => rfl⟩⟩

/-- Values without bytes: nothing but the length tells the lists apart. One of them was made by adding
at both ends and rotating. -/
theorem World.feed_laws_units :
    let B : Behaviour Unit Unit Unit := {
      dup _ s x := (.returns (some x), s)
      free _ s _ := (.returns (), s)
      freeUnwinding _ s _ := s
      matching _ s _ _ := (.returns true, s) }
    let w := ((World.start #[none] ()).run B [.collect [(), ()], .create (.limited 0),
      .addHead 3 (), .addTail 3 (), .rotate 3, .collect [()]]).2
    let bytes : Unit → List UInt8 := fun _ => []
    B.Computes () (fun _ _ => true) ∧ Encoding bytes (fun _ _ => true) (fun _ => True) ∧
      w.read (hash bytes 0) = .ok [2, 0, 0, 0, 0, 0, 0, 0] ∧
      w.read (hash bytes 3) = .ok [2, 0, 0, 0, 0, 0, 0, 0] ∧
      w.read (hash bytes 6) = .ok [1, 0, 0, 0, 0, 0, 0, 0] ∧
      (w.run B [.equal 0 3 (), .equal 0 6 ()]).1 =
        [.answered (.truth true), .answered (.truth false)] ∧
      (w.read (hash bytes 0) = w.read (hash bytes 3) ↔ w.Equals B () 0 3) ∧
      Encoding ValueType.text.bytes ValueType.text.equal ValueType.text.Contains := by
  intro B w bytes
  have hw : w.Reachable B #[none] () := ⟨_, rfl⟩
  have hrel : B.Computes () (fun _ _ => true) := fun _ _ _ => rfl
  have henc : Encoding bytes (fun _ _ => true) (fun _ => True) :=
    ⟨fun _ _ _ _ => ⟨fun _ => rfl, fun _ => rfl⟩, fun _ _ _ _ _ => rfl⟩
  have hl : 0 ∈ w.holdings.lists := by decide +kernel
  have hm : 3 ∈ w.holdings.lists := by decide +kernel
  have hin : ValueType.text.InBytes := fun _ _ h => by cases h
  obtain ⟨hlaws, htypes⟩ := World.feed_laws hw hrel bytes
  exact ⟨hrel, henc, by decide +kernel, by decide +kernel, by decide +kernel, by decide +kernel,
    hlaws.separates _ henc 0 hl 3 hm (fun _ _ => trivial) (fun _ _ => trivial),
    (htypes .text rfl hin).1⟩

end

end RingList
