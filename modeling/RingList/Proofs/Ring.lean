import Mathlib.Data.List.Chain
import Mathlib.Data.List.Perm.Subperm
import RingList.Proofs.Block

/-!
# Rings

A `Strip` is what is seen of a list from outside: its hooks, its allocator and its nodes with their
values, in order. `Heap.IsRing h l k` says that the blocks of the heap spell out the strip `k` from
the header `l` on: each block of `l :: k.nodes ++ [l]` is linked with the one after it in both
directions.

* `IsRing.insert`, `IsRing.remove`, `IsRing.empty`: what becomes of the ring when a chain of nodes
  is taken in between two neighbours, when one node is taken out, and when the header is linked to
  itself.
* `IsRing.congr`: a ring depends on its own blocks only.
* `IsRing.nodes_eq`, `IsRing.entries_eq`: the walk along the ring meets the nodes of the strip.
-/

set_option autoImplicit false

namespace RingList

variable {η σ α : Type}

/-- What is seen of a list from outside. -/
structure Strip (η α : Type) where
  hooks : Hooks η
  allocator : Allocator
  entries : List (Addr × α)

namespace Strip

def nodes (k : Strip η α) : List Addr := k.entries.map (·.1)

def values (k : Strip η α) : List α := k.entries.map (·.2)

/-- The record in the header of a list that shows this strip. -/
def record (k : Strip η α) : Record η := ⟨k.entries.length, k.hooks, k.allocator⟩

@[simp] theorem nodes_length (k : Strip η α) : k.nodes.length = k.entries.length := by
  simp [nodes]

@[simp] theorem record_length (k : Strip η α) : k.record.length = k.entries.length := rfl

@[simp] theorem record_hooks (k : Strip η α) : k.record.hooks = k.hooks := rfl

@[simp] theorem record_allocator (k : Strip η α) : k.record.allocator = k.allocator := rfl

/-- The blocks of a list: its header and its nodes. -/
def blocks (p : Addr × Strip η α) : List Addr := p.1 :: p.2.nodes

end Strip

/-- The last node of `xs`, or the header. -/
def endOf (l : Addr) (xs : List (Addr × α)) : Addr := (xs.map (·.1)).getLast?.getD l

/-- The first node of `ys`, or the header. -/
def startOf (l : Addr) (ys : List (Addr × α)) : Addr := (ys.map (·.1)).head?.getD l

theorem endOf_spec (l : Addr) (xs : List (Addr × α)) :
    (l :: xs.map (·.1)).getLast? = some (endOf l xs) := List.getLast?_cons

theorem startOf_spec (l : Addr) (ys : List (Addr × α)) :
    (ys.map (·.1) ++ [l]).head? = some (startOf l ys) := by
  cases ys <;> simp [startOf]

/-- A chain stays one under another relation that holds where it matters: the last member has no
successor and the first no predecessor. -/
theorem isChain_imp {R S : Addr → Addr → Prop} :
    ∀ {xs : List Addr}, (∀ a ∈ xs.dropLast, ∀ b ∈ xs.tail, R a b → S a b) →
      xs.IsChain R → xs.IsChain S
  | [], _, _ => .nil
  | [a], _, _ => .singleton a
  | a :: b :: xs, H, h => by
    rw [List.isChain_cons_cons] at h ⊢
    refine ⟨H a (by simp) b (by simp) h.1, isChain_imp (fun c hc d hd => ?_) h.2⟩
    exact H c (by simp [hc]) d (List.mem_of_mem_tail (by simpa using hd))

namespace Heap

/-- `b` follows `a`, and both know it. -/
def Linked (h : Heap η α) (a b : Addr) : Prop := h.next? a = some b ∧ h.prev? b = some a

/-- The list with header `l` is a ring that shows the strip `k`. -/
structure IsRing (h : Heap η α) (l : Addr) (k : Strip η α) : Prop where
  header : h.content? l = some (.header k.record)
  values : ∀ e ∈ k.entries, h.content? e.1 = some (.node (some e.2))
  links : (l :: k.nodes ++ [l]).IsChain h.Linked
  nodup : k.nodes.Nodup

theorem Linked.link_other {h : Heap η α} {p q a b : Addr} (hl : h.Linked a b) (ha : a ≠ p)
    (hb : b ≠ q) : (h.link p q).Linked a b := by
  constructor
  · rw [next?_link, hl.1]
    simp [ha]
  · rw [prev?_link, hl.2]
    simp [hb]

theorem linked_link {h : Heap η α} {p q : Addr} (hp : (h.get? p).isSome)
    (hq : (h.get? q).isSome) : (h.link p q).Linked p q := by
  obtain ⟨c, hc⟩ := Option.isSome_iff_exists.1 hp
  obtain ⟨d, hd⟩ := Option.isSome_iff_exists.1 hq
  constructor
  · rw [next?_link]
    simp [next?, hc]
  · rw [prev?_link]
    simp [prev?, hd]

theorem Linked.congr {h h' : Heap η α} {a b : Addr} (hl : h.Linked a b)
    (ha : h'.get? a = h.get? a) (hb : h'.get? b = h.get? b) : h'.Linked a b := by
  unfold Linked next? prev? at *
  rw [ha, hb]
  exact hl

theorem Linked.fill {h : Heap η α} {a b x : Addr} {k : Content η α} (hl : h.Linked a b) :
    (h.fill x k).Linked a b := by
  unfold Linked at *
  simpa using hl

/-! ## Chains around the header -/

section
variable {h : Heap η α} {l p q : Addr} {xs ys : List Addr}

theorem ne_head_of_mem_tail {S : List Addr} (hS : S.Nodup) (hq : S.head? = some q) {c : Addr}
    (hc : c ∈ S.tail) : c ≠ q := by
  obtain ⟨S', rfl⟩ := List.head?_eq_some_iff.1 hq
  exact fun he => (List.nodup_cons.1 hS).1 (he ▸ hc)

theorem ne_last_of_mem_dropLast {S : List Addr} (hS : S.Nodup) (hp : S.getLast? = some p)
    {a : Addr} (ha : a ∈ S.dropLast) : a ≠ p := by
  obtain ⟨S', rfl⟩ := List.getLast?_eq_some_iff.1 hp
  rw [List.dropLast_concat] at ha
  exact (List.nodup_append.1 hS).2.2 a ha p (by simp)

theorem nodup_concat (hnd : (l :: ys).Nodup) : (ys ++ [l]).Nodup :=
  List.nodup_append.2 ⟨(List.nodup_cons.1 hnd).2, by simp, fun _ ha _ hb he =>
    (List.nodup_cons.1 hnd).1 (List.mem_singleton.1 hb ▸ he ▸ ha)⟩

/-- What follows a member of the ring before the gap is not what follows the gap. -/
theorem ne_head_of_mem_before (hnd : (l :: (xs ++ ys)).Nodup) (hq : (ys ++ [l]).head? = some q)
    {c : Addr} (hc : c ∈ xs) : c ≠ q := by
  rintro rfl
  simp only [List.nodup_cons, List.nodup_append, List.mem_append, not_or] at hnd
  obtain ⟨⟨hlx, -⟩, -, -, hxy⟩ := hnd
  rcases List.mem_append.1 (List.mem_of_head? hq) with hm | hm
  · exact hxy c hc c hm rfl
  · exact hlx (List.mem_singleton.1 hm ▸ hc)

/-- A chain `M` of nodes is taken in between the last member `p` of `l :: xs` and the first member
`q` of `ys ++ [l]`. -/
theorem isChain_insert {f b : Addr} {M : List Addr}
    (hr : (l :: xs ++ (ys ++ [l])).IsChain h.Linked) (hM : M.IsChain h.Linked)
    (hp : (l :: xs).getLast? = some p) (hq : (ys ++ [l]).head? = some q)
    (hf : M.head? = some f) (hb : M.getLast? = some b)
    (hlive : ∀ a ∈ M, (h.get? a).isSome) (hnd : (l :: (xs ++ ys)).Nodup) (hMn : M.Nodup)
    (hout : ∀ a ∈ l :: (xs ++ ys), a ∉ M) :
    (l :: xs ++ (M ++ (ys ++ [l]))).IsChain ((h.link p f).link b q).Linked := by
  obtain ⟨hP, hS, hpq⟩ := List.isChain_append.1 hr
  have hpq : h.Linked p q := hpq p hp q hq
  have hqm : q ∈ ys ++ [l] := List.mem_of_head? hq
  have hfm : f ∈ M := List.mem_of_head? hf
  have hbm : b ∈ M := List.mem_of_getLast? hb
  have hPM : ∀ a ∈ l :: xs, a ∉ M := fun a ha => hout a (by grind)
  have hSM : ∀ a ∈ ys ++ [l], a ∉ M := fun a ha => hout a (by grind)
  have keep : ∀ {a c : Addr}, h.Linked a c → a ≠ p → a ≠ b → c ≠ f → c ≠ q →
      ((h.link p f).link b q).Linked a c :=
    fun hl ha hb hf hq => (hl.link_other ha hf).link_other hb hq
  -- in the old ring only `p` is followed by `q`
  have hne : ∀ {a c : Addr}, h.Linked a c → c ≠ q → a ≠ p := by
    rintro a c hac hcq rfl
    exact hcq (Option.some.inj (hac.1.symm.trans hpq.1))
  refine List.isChain_append.2 ⟨?front, List.isChain_append.2 ⟨?middle, ?back, ?last⟩, ?first⟩
  case front =>
    apply hP.imp_of_mem_tail_imp
    intro a c ha hc hac
    have hcq := ne_head_of_mem_before hnd hq hc
    exact keep hac (hne hac hcq) (fun he => hPM a ha (he ▸ hbm))
      (fun he => hPM c (List.mem_of_mem_tail hc) (he ▸ hfm)) hcq
  case back =>
    apply hS.imp_of_mem_tail_imp
    intro a c ha hc hac
    have hn : (l :: ys).Nodup := hnd.sublist (by simp)
    have hcq := ne_head_of_mem_tail (nodup_concat hn) hq hc
    exact keep hac (hne hac hcq) (fun he => hSM a ha (he ▸ hbm))
      (fun he => hSM c (List.mem_of_mem_tail hc) (he ▸ hfm)) hcq
  case middle =>
    refine isChain_imp (fun a ha c hc hac => ?_) hM
    exact keep hac
      (fun he => hPM p (List.mem_of_getLast? hp) (he ▸ List.dropLast_subset M ha))
      (ne_last_of_mem_dropLast hMn hb ha) (ne_head_of_mem_tail hMn hf hc)
      (fun he => hSM q hqm (he ▸ List.mem_of_mem_tail hc))
  case last =>
    intro a ha c hc
    obtain rfl : b = a := Option.some.inj (hb.symm.trans ha)
    obtain rfl : q = c := Option.some.inj (hq.symm.trans hc)
    exact linked_link (by simpa using hlive b hbm) (by simpa using isSome_of_prev? hpq.2)
  case first =>
    intro a ha c hc
    obtain rfl : p = a := Option.some.inj (hp.symm.trans ha)
    obtain rfl : f = c := by
      rw [List.head?_append, hf, Option.some_or] at hc
      exact Option.some.inj hc
    exact (linked_link (isSome_of_next? hpq.1) (hlive f hfm)).link_other
      (fun he => hPM p (List.mem_of_getLast? hp) (he ▸ hbm)) (fun he => hSM q hqm (he ▸ hfm))

/-- A node `n` is taken out from between the last member `p` of `l :: xs` and the first member `q`
of `ys ++ [l]`. -/
theorem isChain_remove {n : Addr} (hr : (l :: xs ++ (n :: (ys ++ [l]))).IsChain h.Linked)
    (hp : (l :: xs).getLast? = some p) (hq : (ys ++ [l]).head? = some q)
    (hnd : (l :: (xs ++ n :: ys)).Nodup) :
    (l :: xs ++ (ys ++ [l])).IsChain (h.link p q).Linked := by
  obtain ⟨hP, hnS, hpn⟩ := List.isChain_append.1 hr
  have hpn : h.Linked p n := hpn p hp n rfl
  obtain ⟨hnq, hS⟩ := List.isChain_cons.1 hnS
  have hnq : h.Linked n q := hnq q hq
  have hnd' : (l :: (xs ++ ys)).Nodup := hnd.sublist (by simp)
  have hnx : n ∉ xs ++ (ys ++ [l]) := by
    have := List.perm_middle.nodup_iff.1 (List.nodup_cons.1 hnd).2
    have hnl : n ≠ l := fun he => (List.nodup_cons.1 hnd).1 (by simp [← he])
    have hn := (List.nodup_cons.1 this).1
    simp only [List.mem_append, List.mem_singleton] at hn ⊢
    tauto
  -- in the old ring only `p` is followed by `n`
  have hne : ∀ {a c : Addr}, h.Linked a c → c ∈ xs ++ (ys ++ [l]) → a ≠ p := by
    rintro a c hac hc rfl
    exact hnx (Option.some.inj (hpn.1.symm.trans hac.1) ▸ hc)
  refine List.isChain_append.2 ⟨?front, ?back, ?gap⟩
  case front =>
    refine hP.imp_of_mem_tail_imp fun a c _ hc hac => ?_
    have hc : c ∈ xs := hc
    exact hac.link_other (hne hac (by simp [hc])) (ne_head_of_mem_before hnd' hq hc)
  case back =>
    refine hS.imp_of_mem_tail_imp fun a c _ hc hac => ?_
    have hn : (l :: ys).Nodup := hnd'.sublist (by simp)
    exact hac.link_other (hne hac (List.mem_append_right _ (List.mem_of_mem_tail hc)))
      (ne_head_of_mem_tail (nodup_concat hn) hq hc)
  case gap =>
    intro a ha c hc
    obtain rfl : p = a := Option.some.inj (hp.symm.trans ha)
    obtain rfl : q = c := Option.some.inj (hq.symm.trans hc)
    exact linked_link (isSome_of_next? hpn.1) (isSome_of_prev? hnq.2)

end

/-! ## Facts of a ring -/

theorem get?_link_other (h : Heap η α) {p q a : Addr} (hp : a ≠ p) (hq : a ≠ q) :
    (h.link p q).get? a = h.get? a := by
  rw [get?_link]
  simp [hp, hq]

theorem get?_fill_other (h : Heap η α) {a b : Addr} (k : Content η α) (hb : b ≠ a) :
    (h.fill a k).get? b = h.get? b := by
  rw [get?_fill]
  simp [hb]

namespace IsRing

variable {h h' : Heap η α} {l : Addr} {k : Strip η α}

theorem content_of_mem (hr : h.IsRing l k) {a : Addr} (ha : a ∈ k.nodes) :
    ∃ v, (a, v) ∈ k.entries ∧ h.content? a = some (.node (some v)) := by
  obtain ⟨e, he, rfl⟩ := List.mem_map.1 ha
  exact ⟨e.2, he, hr.values e he⟩

theorem header_not_mem (hr : h.IsRing l k) : l ∉ k.nodes := by
  intro hl
  obtain ⟨v, -, hv⟩ := hr.content_of_mem hl
  rw [hr.header] at hv
  simp at hv

theorem nodup_blocks (hr : h.IsRing l k) : (l :: k.nodes).Nodup :=
  List.nodup_cons.2 ⟨hr.header_not_mem, hr.nodup⟩

theorem isSome_of_mem (hr : h.IsRing l k) {a : Addr} (ha : a ∈ l :: k.nodes) :
    (h.get? a).isSome := by
  rcases List.mem_cons.1 ha with rfl | ha
  · exact isSome_of_content? hr.header
  · obtain ⟨v, -, hv⟩ := hr.content_of_mem ha
    exact isSome_of_content? hv

theorem lt_size (hr : h.IsRing l k) {a : Addr} (ha : a ∈ l :: k.nodes) : a < h.size :=
  lt_size_of_isSome (hr.isSome_of_mem ha)

/-- **The neighbours at any place in the ring**: the last node before the place, or the header, is
linked with the first node behind it, or the header. -/
theorem linked_split (hr : h.IsRing l k) {xs ys : List Addr} (hk : k.nodes = xs ++ ys) :
    h.Linked (xs.getLast?.getD l) (ys.head?.getD l) := by
  have hl := hr.links
  rw [hk, ← List.cons_append, List.append_assoc] at hl
  refine (List.isChain_append.1 hl).2.2 _ List.getLast?_cons _ ?_
  cases ys <;> simp

theorem next?_header (hr : h.IsRing l k) : h.next? l = some (k.nodes.head?.getD l) := by
  simpa using (hr.linked_split (List.nil_append _).symm).1

theorem prev?_header (hr : h.IsRing l k) : h.prev? l = some (k.nodes.getLast?.getD l) := by
  simpa using (hr.linked_split (List.append_nil _).symm).2

theorem next?_node (hr : h.IsRing l k) {xs ys : List Addr} {a : Addr}
    (hk : k.nodes = xs ++ a :: ys) : h.next? a = some (ys.head?.getD l) := by
  have hk' : k.nodes = (xs ++ [a]) ++ ys := by simp [hk]
  simpa using (hr.linked_split hk').1

theorem prev?_node (hr : h.IsRing l k) {xs ys : List Addr} {a : Addr}
    (hk : k.nodes = xs ++ a :: ys) : h.prev? a = some (xs.getLast?.getD l) := by
  simpa using (hr.linked_split hk).2

theorem nodes_append {xs ys : List (Addr × α)} (hk : k.entries = xs ++ ys) :
    k.nodes = xs.map (·.1) ++ ys.map (·.1) := by
  simp [Strip.nodes, hk]

theorem nodes_at {xs ys : List (Addr × α)} {a : Addr} {x : α}
    (hk : k.entries = xs ++ (a, x) :: ys) :
    k.nodes = xs.map (·.1) ++ a :: ys.map (·.1) := by
  simp [Strip.nodes, hk]

theorem next?_at (hr : h.IsRing l k) {xs ys : List (Addr × α)} {a : Addr} {x : α}
    (hk : k.entries = xs ++ (a, x) :: ys) : h.next? a = some (startOf l ys) :=
  hr.next?_node (nodes_at hk)

theorem prev?_at (hr : h.IsRing l k) {xs ys : List (Addr × α)} {a : Addr} {x : α}
    (hk : k.entries = xs ++ (a, x) :: ys) : h.prev? a = some (endOf l xs) :=
  hr.prev?_node (nodes_at hk)

theorem linked_at (hr : h.IsRing l k) {xs ys : List (Addr × α)} (hk : k.entries = xs ++ ys) :
    h.Linked (endOf l xs) (startOf l ys) := hr.linked_split (nodes_append hk)

theorem endOf_mem {xs ys : List (Addr × α)} (hk : k.entries = xs ++ ys) :
    endOf l xs ∈ l :: k.nodes := by
  have := List.mem_of_getLast? (endOf_spec l xs)
  rw [nodes_append hk, ← List.cons_append]
  exact List.mem_append_left _ this

theorem startOf_mem {xs ys : List (Addr × α)} (hk : k.entries = xs ++ ys) :
    startOf l ys ∈ l :: k.nodes := by
  have := List.mem_of_head? (startOf_spec l ys)
  simp only [List.mem_append, List.mem_singleton] at this
  rw [nodes_append hk]
  simp only [List.mem_cons, List.mem_append]
  tauto

/-- A ring depends on its own blocks only. -/
theorem congr (hr : h.IsRing l k) (hc : ∀ a ∈ l :: k.nodes, h'.get? a = h.get? a) :
    h'.IsRing l k := by
  have hcont : ∀ a ∈ l :: k.nodes, h'.content? a = h.content? a := fun a ha => by
    unfold content?
    rw [hc a ha]
  refine ⟨?_, fun e he => ?_, ?_, hr.nodup⟩
  · rw [hcont l (by simp)]
    exact hr.header
  · rw [hcont e.1 (List.mem_cons_of_mem _ (List.mem_map_of_mem he))]
    exact hr.values e he
  · refine hr.links.imp_of_mem_imp fun a b ha hb hab => hab.congr (hc a ?_) (hc b ?_)
    · simpa [or_comm] using ha
    · simpa [or_comm] using hb

/-! ## Changes of a ring -/

/-- **A chain of nodes is taken in** between `xs` and `ys`. -/
theorem insert {xs es ys : List (Addr × α)} {f b : Addr} (hr : h.IsRing l k)
    (hk : k.entries = xs ++ ys) (hM : (es.map (·.1)).IsChain h.Linked)
    (hf : (es.map (·.1)).head? = some f) (hb : (es.map (·.1)).getLast? = some b)
    (hv : ∀ e ∈ es, h.content? e.1 = some (.node (some e.2))) (hnd : (es.map (·.1)).Nodup)
    (hout : ∀ a ∈ l :: k.nodes, a ∉ es.map (·.1)) :
    (((h.link (endOf l xs) f).link b (startOf l ys)).fill l
      (.header { k with entries := xs ++ (es ++ ys) }.record)).IsRing l
      { k with entries := xs ++ (es ++ ys) } := by
  have hnodes : k.nodes = xs.map (·.1) ++ ys.map (·.1) := by simp [Strip.nodes, hk]
  have hvals : ∀ e ∈ xs ++ (es ++ ys), h.content? e.1 = some (.node (some e.2)) := by
    intro e he
    simp only [List.mem_append] at he
    rcases he with he | he | he
    · exact hr.values e (hk ▸ List.mem_append_left _ he)
    · exact hv e he
    · exact hr.values e (hk ▸ List.mem_append_right _ he)
  have hl : ∀ e ∈ xs ++ (es ++ ys), e.1 ≠ l := by
    rintro e he rfl
    have := hvals e he
    rw [hr.header] at this
    simp at this
  have hlinks := hr.links
  have hnb := hr.nodup_blocks
  rw [hnodes] at hlinks hnb hout
  rw [← List.cons_append, List.append_assoc] at hlinks
  refine ⟨?_, fun e he => ?_, ?_, ?_⟩
  · simp [content?_fill, hr.header]
  · simp [content?_fill, hl e he, hvals e he]
  · have := isChain_insert hlinks hM (List.getLast?_cons) (startOf_spec l ys) hf hb
      (fun a ha => ?_) hnb hnd hout
    · simp only [Strip.nodes, List.map_append, List.append_assoc, List.cons_append]
      exact this.imp fun _ _ hab => hab.fill
    · obtain ⟨e, he, rfl⟩ := List.mem_map.1 ha
      exact isSome_of_content? (hv e he)
  · simp only [Strip.nodes, List.map_append]
    refine (List.perm_append_comm_assoc _ _ _).nodup_iff.2 (List.nodup_append.2 ⟨hnd, ?_, ?_⟩)
    · exact (List.nodup_cons.1 hnb).2
    · exact fun a ha b hb he => hout b (List.mem_cons_of_mem _ hb) (he ▸ ha)

/-- **A node is taken out.** -/
theorem remove {xs ys : List (Addr × α)} {e : Addr × α} (hr : h.IsRing l k)
    (hk : k.entries = xs ++ e :: ys) :
    ((h.fill l (.header { k with entries := xs ++ ys }.record)).link (endOf l xs)
      (startOf l ys)).IsRing l { k with entries := xs ++ ys } := by
  have hnodes : k.nodes = xs.map (·.1) ++ e.1 :: ys.map (·.1) := by simp [Strip.nodes, hk]
  have hvals : ∀ e' ∈ xs ++ ys, h.content? e'.1 = some (.node (some e'.2)) := fun e' he' =>
    hr.values e' (by rw [hk]; grind)
  have hl : ∀ e' ∈ xs ++ ys, e'.1 ≠ l := by
    rintro e' he' rfl
    have := hvals e' he'
    rw [hr.header] at this
    simp at this
  have hlinks := hr.links
  have hnb := hr.nodup_blocks
  rw [hnodes] at hlinks hnb
  rw [← List.cons_append, List.append_assoc, List.cons_append] at hlinks
  refine ⟨?_, fun e' he' => ?_, ?_, ?_⟩
  · simp [content?_fill, hr.header]
  · simp [content?_fill, hl e' he', hvals e' he']
  · have hlinks : (l :: xs.map (·.1) ++ (e.1 :: (ys.map (·.1) ++ [l]))).IsChain
        (h.fill l (.header { k with entries := xs ++ ys }.record)).Linked :=
      hlinks.imp fun _ _ hab => hab.fill
    simpa [Strip.nodes] using
      isChain_remove hlinks (endOf_spec l xs) (startOf_spec l ys) hnb
  · simpa [Strip.nodes] using (List.nodup_cons.1 hnb).2.sublist (by simp)

/-- The header alone: what is left when all nodes are let go. -/
theorem emptied (hr : h.IsRing l k) :
    ((h.fill l (.header ⟨0, k.hooks, k.allocator⟩)).link l l).IsRing l
      { k with entries := [] } := by
  refine ⟨?_, by simp, ?_, List.nodup_nil⟩
  · simp [content?_fill, hr.header, Strip.record]
  · have hl : (h.get? l).isSome := isSome_of_content? hr.header
    simpa [Strip.nodes] using linked_link (by simpa using hl) (by simpa using hl)

/-- **A value is overwritten.** -/
theorem rewrite {xs ys : List (Addr × α)} {a : Addr} {v : α} (w : α) (hr : h.IsRing l k)
    (hk : k.entries = xs ++ (a, v) :: ys) :
    (h.fill a (.node (some w))).IsRing l { k with entries := xs ++ (a, w) :: ys } := by
  have hnodes : k.nodes = xs.map (·.1) ++ a :: ys.map (·.1) := by simp [Strip.nodes, hk]
  have hsame : Strip.nodes { k with entries := xs ++ (a, w) :: ys } = k.nodes := by
    simp [Strip.nodes, hk]
  have hnd := List.perm_middle.nodup_iff.1 (hnodes ▸ hr.nodup)
  have hla : l ≠ a := by
    rintro rfl
    exact hr.header_not_mem (by simp [hnodes])
  refine ⟨?_, fun e he => ?_, ?_, hsame ▸ hr.nodup⟩
  · simp [content?_fill, hla, hr.header, Strip.record, hk]
  · simp only [List.mem_append, List.mem_cons] at he
    by_cases hea : e.1 = a
    · have hmem : e = (a, w) := by
        rcases he with he | rfl | he
        · exact absurd (List.mem_append_left _ (List.mem_map_of_mem he))
            (hea ▸ (List.nodup_cons.1 hnd).1)
        · rfl
        · exact absurd (List.mem_append_right _ (List.mem_map_of_mem he))
            (hea ▸ (List.nodup_cons.1 hnd).1)
      subst hmem
      simp [content?_fill, hr.values (a, v) (by simp [hk])]
    · have hmem : e ∈ k.entries := by
        rw [hk]
        rcases he with he | rfl | he
        · exact List.mem_append_left _ he
        · exact absurd rfl hea
        · exact List.mem_append_right _ (List.mem_cons_of_mem _ he)
      simp [content?_fill, hea, hr.values e hmem]
  · rw [hsame]
    exact hr.links.imp fun _ _ hab => hab.fill

theorem setHooks (hs : Hooks η) (hr : h.IsRing l k) :
    (h.fill l (.header { k with hooks := hs }.record)).IsRing l { k with hooks := hs } := by
  refine ⟨?_, fun e he => ?_, hr.links.imp fun _ _ hab => hab.fill, hr.nodup⟩
  · simp [content?_fill, hr.header]
  · have hne : e.1 ≠ l := fun heq => hr.header_not_mem (heq ▸ List.mem_map_of_mem he)
    simp [content?_fill, hne, hr.values e he]

/-- **A new header** is a ring of its own. -/
theorem push (h : Heap η α) (hs : Hooks η) (source : Allocator) :
    (h.push (.header ⟨0, hs, source⟩)).IsRing h.size ⟨hs, source, []⟩ := by
  refine ⟨?_, by simp, ?_, List.nodup_nil⟩
  · simp [content?, get?_push, Strip.record]
  · simp [Strip.nodes, Linked, next?, prev?, get?_push]

/-- The nodes of a ring are a chain without the header. -/
theorem isChain_nodes (hr : h.IsRing l k) : k.nodes.IsChain h.Linked := by
  have := hr.links
  rw [List.cons_append] at this
  exact (List.isChain_append.1 this.tail).1

/-! ## The walk along a ring -/

theorem length_lt_size (hr : h.IsRing l k) : k.entries.length < h.size := by
  have hsub : (l :: k.nodes).Subperm (List.range h.size) :=
    List.Nodup.subperm hr.nodup_blocks fun a ha => List.mem_range.2 (hr.lt_size ha)
  simpa [Nat.succ_le_iff] using hsub.length_le

theorem nodesFrom_eq {h : Heap η α} {l : Addr} : ∀ {ns : List Addr} {p : Addr} {fuel : Nat},
    (p :: ns ++ [l]).IsChain h.Linked → l ∉ ns → ns.length < fuel →
    h.nodesFrom l fuel (ns.head?.getD l) = ns
  | [], _, fuel + 1, _, _, _ => by simp [nodesFrom]
  | n :: ns, p, fuel + 1, hc, hl, hf => by
    rw [List.cons_append, List.cons_append, List.isChain_cons_cons] at hc
    have hnl : n ≠ l := fun he => hl (by simp [he])
    have hlink : h.Linked n (ns.head?.getD l) := by
      have := hc.2
      cases ns with
      | nil => exact List.isChain_pair.1 this
      | cons m ns => exact (List.isChain_cons_cons.1 this).1
    obtain ⟨c, hg, hn⟩ := Option.map_eq_some_iff.1 hlink.1
    have ih := nodesFrom_eq hc.2 (fun hm => hl (by simp [hm]))
      (show ns.length < fuel by simpa using hf)
    simp only [List.head?_cons, Option.getD_some, nodesFrom, hnl, ↓reduceIte, hg, hn, ih]

/-- The walk along a ring meets its nodes. -/
theorem nodes_eq (hr : h.IsRing l k) : h.nodes l = k.nodes := by
  obtain ⟨c, hg, hn⟩ := Option.map_eq_some_iff.1 hr.next?_header
  unfold Heap.nodes
  simp only [hg, hn]
  exact nodesFrom_eq hr.links hr.header_not_mem (by simpa using hr.length_lt_size)

theorem value?_of_mem (hr : h.IsRing l k) {e : Addr × α} (he : e ∈ k.entries) :
    h.value? e.1 = some e.2 := by
  obtain ⟨⟨n, p, c⟩, hg, hc⟩ := Option.map_eq_some_iff.1 (hr.values e he)
  subst hc
  simp [value?, hg]

/-- The walk along a ring meets its nodes and finds their values. -/
theorem entries_eq (hr : h.IsRing l k) : h.entries l = k.entries := by
  unfold Heap.entries
  rw [hr.nodes_eq, Strip.nodes, List.filterMap_map]
  refine (List.filterMap_congr fun e he => ?_).trans List.filterMap_some
  simp [hr.value?_of_mem he]

theorem record?_eq (hr : h.IsRing l k) : h.record? l = some k.record := by
  obtain ⟨⟨n, p, c⟩, hg, hc⟩ := Option.map_eq_some_iff.1 hr.header
  subst hc
  simp [record?, hg]

theorem hasNode_iff (hr : h.IsRing l k) {a : Addr} : h.hasNode l a = true ↔ a ∈ k.nodes := by
  rw [hasNode_eq_contains, hr.nodes_eq]
  simp

/-- A header shows one strip. -/
theorem unique {k' : Strip η α} (hr : h.IsRing l k) (hr' : h.IsRing l k') : k = k' := by
  have hrec := hr.record?_eq.symm.trans hr'.record?_eq
  have hent := hr.entries_eq.symm.trans hr'.entries_eq
  obtain ⟨hooks, source, es⟩ := k
  obtain ⟨hooks', source', es'⟩ := k'
  simp only [Strip.record, Option.some.injEq, Record.mk.injEq] at hrec hent
  simp [hrec, hent]

end IsRing

end Heap

end RingList
