import RingList.Links

/-!
# The parts of a block

A block holds a link to the next block, a link to the previous one and its content. The steps that
write links or contents change one part of one block: `next?`, `prev?` and `content?` say what is
in each part afterwards (`next?_link`, `content?_fill`, …). The rest of the file opens the single
steps on a store: `connect_run`, `record_run` and so on give the store that a step leaves behind
when the blocks that it uses are there.
-/

set_option autoImplicit false

namespace RingList

variable {η σ α β γ : Type}

namespace Heap

/-- The link from the block at `a` to the next block. -/
def next? (h : Heap η α) (a : Addr) : Option Addr := (h.get? a).map (·.next)

/-- The link from the block at `a` to the previous block. -/
def prev? (h : Heap η α) (a : Addr) : Option Addr := (h.get? a).map (·.prev)

/-- What the block at `a` holds besides its links. -/
def content? (h : Heap η α) (a : Addr) : Option (Content η α) := (h.get? a).map (·.content)

/-- Makes `q` follow `p`. -/
def link (h : Heap η α) (p q : Addr) : Heap η α :=
  (h.update p ({ · with next := q })).update q ({ · with prev := p })

def fill (h : Heap η α) (a : Addr) (content : Content η α) : Heap η α :=
  h.update a ({ · with content })

theorem get?_of_parts {h : Heap η α} {a n p : Addr} {k : Content η α} (hn : h.next? a = some n)
    (hp : h.prev? a = some p) (hk : h.content? a = some k) : h.get? a = some ⟨n, p, k⟩ := by
  unfold next? prev? content? at *
  cases hc : h.get? a with
  | none => simp [hc] at hn
  | some c =>
    simp only [hc, Option.map_some, Option.some.injEq] at hn hp hk
    subst hn hp hk
    rfl

theorem isSome_of_next? {h : Heap η α} {a n : Addr} (hn : h.next? a = some n) :
    (h.get? a).isSome := by
  obtain ⟨c, hc, -⟩ := Option.map_eq_some_iff.1 hn
  simp [hc]

theorem isSome_of_prev? {h : Heap η α} {a p : Addr} (hp : h.prev? a = some p) :
    (h.get? a).isSome := by
  obtain ⟨c, hc, -⟩ := Option.map_eq_some_iff.1 hp
  simp [hc]

theorem isSome_of_content? {h : Heap η α} {a : Addr} {k : Content η α}
    (hk : h.content? a = some k) : (h.get? a).isSome := by
  obtain ⟨c, hc, -⟩ := Option.map_eq_some_iff.1 hk
  simp [hc]

theorem lt_size_of_isSome {h : Heap η α} {a : Addr} (ha : (h.get? a).isSome) : a < h.size := by
  obtain ⟨c, hc⟩ := Option.isSome_iff_exists.1 ha
  exact lt_size_of_get? hc

/-! ## Links and contents after a change -/

@[grind =]
theorem get?_link (h : Heap η α) (p q a : Addr) :
    (h.link p q).get? a = (h.get? a).map fun c =>
      { c with next := if a = p then q else c.next, prev := if a = q then p else c.prev } := by
  unfold link
  rw [get?_update, get?_update, get?_update]
  by_cases hq : a = q
  · subst hq
    by_cases hp : a = p
    · subst hp
      simp [Function.comp_def]
    · simp [hp]
  · by_cases hp : a = p
    · subst hp
      simp [hq]
    · simp [hq, hp]

@[grind =]
theorem get?_fill (h : Heap η α) (a b : Addr) (k : Content η α) :
    (h.fill a k).get? b =
      (h.get? b).map fun c => { c with content := if b = a then k else c.content } := by
  unfold fill
  simp only [get?_update]
  by_cases hb : b = a <;> simp [hb]

theorem next?_link (h : Heap η α) (p q a : Addr) :
    (h.link p q).next? a = (h.next? a).map fun n => if a = p then q else n := by
  simp only [next?, get?_link, Option.map_map, Function.comp_def]

theorem prev?_link (h : Heap η α) (p q a : Addr) :
    (h.link p q).prev? a = (h.prev? a).map fun n => if a = q then p else n := by
  simp only [prev?, get?_link, Option.map_map, Function.comp_def]

@[simp] theorem content?_link (h : Heap η α) (p q a : Addr) :
    (h.link p q).content? a = h.content? a := by
  simp only [content?, get?_link, Option.map_map, Function.comp_def]

@[simp] theorem next?_fill (h : Heap η α) (a b : Addr) (k : Content η α) :
    (h.fill a k).next? b = h.next? b := by
  simp only [next?, get?_fill, Option.map_map, Function.comp_def]

@[simp] theorem prev?_fill (h : Heap η α) (a b : Addr) (k : Content η α) :
    (h.fill a k).prev? b = h.prev? b := by
  simp only [prev?, get?_fill, Option.map_map, Function.comp_def]

theorem content?_fill (h : Heap η α) (a b : Addr) (k : Content η α) :
    (h.fill a k).content? b = (h.content? b).map fun c => if b = a then k else c := by
  simp only [content?, get?_fill, Option.map_map, Function.comp_def]

@[simp] theorem isSome_get?_link (h : Heap η α) (p q a : Addr) :
    ((h.link p q).get? a).isSome = (h.get? a).isSome := by
  simp [get?_link]

@[simp] theorem isSome_get?_fill (h : Heap η α) (a b : Addr) (k : Content η α) :
    ((h.fill a k).get? b).isSome = (h.get? b).isSome := by
  simp [get?_fill]

@[simp] theorem size_link (h : Heap η α) (p q : Addr) : (h.link p q).size = h.size := by
  simp [link]

@[simp] theorem size_fill (h : Heap η α) (a : Addr) (k : Content η α) :
    (h.fill a k).size = h.size := by
  simp [fill]

end Heap

/-! ## Running actions -/

@[simp] theorem run_pure (b : β) (s : Store η σ α) : (pure b : Action η σ α β) s = .ok b s := rfl

@[simp] theorem run_throw (e : Stop) (s : Store η σ α) :
    (throw e : Action η σ α β) s = .error e s := rfl

@[simp] theorem run_get (s : Store η σ α) :
    (get : Action η σ α (Store η σ α)) s = .ok s s := rfl

@[simp] theorem run_modify (f : Store η σ α → Store η σ α) (s : Store η σ α) :
    (modify f : Action η σ α Unit) s = .ok () (f s) := rfl

theorem run_bind (x : Action η σ α β) (f : β → Action η σ α γ) (s : Store η σ α) :
    (x >>= f) s = match x s with
      | .ok b s => f b s
      | .error e s => .error e s := by
  show EStateM.bind x f s = _
  unfold EStateM.bind
  cases x s <;> rfl

theorem bind_ok {x : Action η σ α β} {f : β → Action η σ α γ} {s s' : Store η σ α} {b : β}
    (hx : x s = .ok b s') : (x >>= f) s = f b s' := by
  rw [run_bind, hx]

theorem bind_error {x : Action η σ α β} {f : β → Action η σ α γ} {s s' : Store η σ α} {e : Stop}
    (hx : x s = .error e s') : (x >>= f) s = .error e s' := by
  rw [run_bind, hx]

theorem run_map (f : β → γ) (x : Action η σ α β) (s : Store η σ α) :
    (f <$> x) s = match x s with
      | .ok b s => .ok (f b) s
      | .error e s => .error e s := by
  show EStateM.map f x s = _
  unfold EStateM.map
  cases x s <;> rfl

theorem map_ok {x : Action η σ α β} {f : β → γ} {s s' : Store η σ α} {b : β}
    (hx : x s = .ok b s') : (f <$> x) s = .ok (f b) s' := by
  rw [run_map, hx]

theorem run_tryCatch (x : Action η σ α β) (f : Stop → Action η σ α β) (s : Store η σ α) :
    (tryCatch x f : Action η σ α β) s = match x s with
      | .ok b s => .ok b s
      | .error e s => f e s := by
  show EStateM.tryCatch x f s = _
  unfold EStateM.tryCatch
  cases x s <;> rfl

/-! ## Single steps on blocks that are there -/

theorem cell_run {s : Store η σ α} {a : Addr} {c : Cell η α} (hc : s.heap.get? a = some c) :
    cell a s = .ok c s := by
  unfold cell
  simp [run_bind, hc]

theorem change_run {s : Store η σ α} {a : Addr} {f : Cell η α → Cell η α}
    (ha : (s.heap.get? a).isSome) : change a f s = .ok () { s with heap := s.heap.update a f } := by
  obtain ⟨c, hc⟩ := Option.isSome_iff_exists.1 ha
  unfold change
  rw [bind_ok (cell_run hc)]
  rfl

theorem nextOf_run {s : Store η σ α} {a n : Addr} (hn : s.heap.next? a = some n) :
    nextOf a s = .ok n s := by
  obtain ⟨c, hc, rfl⟩ := Option.map_eq_some_iff.1 hn
  unfold nextOf
  rw [bind_ok (cell_run hc)]
  rfl

theorem prevOf_run {s : Store η σ α} {a p : Addr} (hp : s.heap.prev? a = some p) :
    prevOf a s = .ok p s := by
  obtain ⟨c, hc, rfl⟩ := Option.map_eq_some_iff.1 hp
  unfold prevOf
  rw [bind_ok (cell_run hc)]
  rfl

theorem connect_run {s : Store η σ α} {p q : Addr} (hp : (s.heap.get? p).isSome)
    (hq : (s.heap.get? q).isSome) :
    connect p q s = .ok () { s with heap := s.heap.link p q } := by
  unfold connect setNext setPrev
  rw [bind_ok (change_run hp), change_run (by simp only [Heap.get?_update]; grind)]
  rfl

theorem expectHeader_run {s : Store η σ α} {l : Addr} {r : Record η}
    (hl : s.heap.content? l = some (.header r)) : expectKind l .header s = .ok () s := by
  obtain ⟨c, hc, hr⟩ := Option.map_eq_some_iff.1 hl
  unfold expectKind
  rw [bind_ok (cell_run hc)]
  simp [hr, Content.kind]

theorem expectNode_run {s : Store η σ α} {a : Addr} {u : Option α}
    (ha : s.heap.content? a = some (.node u)) : expectKind a .node s = .ok () s := by
  obtain ⟨c, hc, hu⟩ := Option.map_eq_some_iff.1 ha
  unfold expectKind
  rw [bind_ok (cell_run hc)]
  simp [hu, Content.kind]

theorem record_run {s : Store η σ α} {l : Addr} {r : Record η}
    (hl : s.heap.content? l = some (.header r)) : record l s = .ok r s := by
  obtain ⟨c, hc, hr⟩ := Option.map_eq_some_iff.1 hl
  unfold record
  rw [bind_ok (cell_run hc)]
  simp [hr]

theorem setRecord_run {s : Store η σ α} {l : Addr} {r : Record η} (r' : Record η)
    (hl : s.heap.content? l = some (.header r)) :
    setRecord l r' s = .ok () { s with heap := s.heap.fill l (.header r') } := by
  unfold setRecord
  rw [bind_ok (expectHeader_run hl), change_run (Heap.isSome_of_content? hl)]
  rfl

theorem value_run {s : Store η σ α} {a : Addr} {v : α}
    (ha : s.heap.content? a = some (.node (some v))) : value a s = .ok v s := by
  obtain ⟨c, hc, hv⟩ := Option.map_eq_some_iff.1 ha
  unfold value
  rw [bind_ok (cell_run hc)]
  simp [hv]

theorem write_run {s : Store η σ α} {a : Addr} {u : Option α} (v : α)
    (ha : s.heap.content? a = some (.node u)) :
    write a v s = .ok () { s with heap := s.heap.fill a (.node (some v)) } := by
  unfold write
  rw [bind_ok (expectNode_run ha), change_run (Heap.isSome_of_content? ha)]
  rfl

theorem releaseHeader_run {s : Store η σ α} {l : Addr} {r : Record η} (target : Allocator)
    (hl : s.heap.content? l = some (.header r)) :
    release target l .header s =
      .ok () ({ s with heap := s.heap.erase l }.log (.released target l .header)) := by
  unfold release
  rw [bind_ok (expectHeader_run hl)]
  rfl

theorem releaseNode_run {s : Store η σ α} {a : Addr} {u : Option α} (target : Allocator)
    (ha : s.heap.content? a = some (.node u)) :
    release target a .node s =
      .ok () ({ s with heap := s.heap.erase a }.log (.released target a .node)) := by
  unfold release
  rw [bind_ok (expectNode_run ha)]
  rfl

theorem allocate_run (source : Allocator) (k : Content η α) (s : Store η σ α) :
    allocate source k s =
      if s.serves source then
        .ok s.heap.size ({ s with budgets := s.budgetsAfter source, heap := s.heap.push k }.log
          (.served source s.heap.size k.kind))
      else .error (.refused k.kind) (s.log (.refused source k.kind)) := by
  unfold allocate emit
  by_cases hs : s.serves source <;> simp [run_bind, run_map, hs]

theorem expectAdjacent_run {s : Store η σ α} {p q : Addr} (hn : s.heap.next? p = some q)
    (hp : s.heap.prev? q = some p) : expectAdjacent p q s = .ok () s := by
  unfold expectAdjacent
  simp [run_bind, nextOf_run hn, prevOf_run hp]

end RingList
