/-!
# Layouts of blocks

A block of memory is described by its size and its alignment. A list uses two kinds of blocks, each
with one layout per type of values: a *header* holds two links, a *node* holds two links and a value.
-/

set_option autoImplicit false

namespace RingList

/-- Size and alignment of a block, in bytes. -/
structure Layout where
  size : Nat
  align : Nat
deriving DecidableEq, Repr

/-- The least multiple of `step` that is not below `n` (for a positive `step`). -/
def roundUp (n step : Nat) : Nat := (n + step - 1) / step * step

namespace Layout

/-- A layout is valid when its alignment is a power of two and its size, rounded up to the alignment,
fits a signed machine word. -/
def valid (l : Layout) : Bool :=
  1 <<< l.align.log2 == l.align && decide (roundUp l.size l.align < 1 <<< 63)

/-- The bytes of address space that one process can use: no larger block can be had. -/
def addressSpace : Nat := 1 <<< 47

/-- The general-purpose allocator serves a block unless the address space is too small for it. -/
def available (l : Layout) : Bool := decide (l.size ≤ addressSpace)

/-- Two machine words: the links with which every block of a list starts. -/
def links : Layout := ⟨16, 8⟩

/-- The layout of a header: the links, aligned like a node of the same list. -/
def header (value : Layout) : Layout :=
  let align := max links.align value.align
  ⟨roundUp links.size align, align⟩

/-- The layout of a node: the links, then the value at its own alignment. -/
def node (value : Layout) : Layout :=
  let align := max links.align value.align
  ⟨roundUp (roundUp links.size value.align + value.size) align, align⟩

end Layout

/-- What a block of a list is used for. -/
inductive BlockKind where
  | header
  | node
deriving DecidableEq, Repr

/-- The layout of a block of each kind, in a list whose values have layout `value`. -/
def BlockKind.layout (value : Layout) : BlockKind → Layout
  | .header => .header value
  | .node => .node value

end RingList
