import Handoff.Word

/-! Blocks: a header and an array of elements in one piece of memory, whose
length is known only when it is made. -/
namespace Handoff

/-- The sizes that decide how much memory a block needs: of one element, of the
block without elements, and the alignment of the whole. -/
structure Layout where
  elementSize : UInt64
  baseSize : UInt64
  align : UInt64

namespace Layout

def half : UInt64 := 0x8000000000000000

/-- The largest size that can be had with this alignment: rounded up to it, a
size must stay below half of the address range. -/
def maxSize (l : Layout) : UInt64 := half - l.align

/-- The size of a block of `count` elements, if there can be one. -/
def size? (l : Layout) (count : UInt64) : Option UInt64 := do
  let elements ← Word.mul? l.elementSize count
  let total ← Word.add? elements l.baseSize
  if total ≤ l.maxSize then some total else none

end Layout

structure Block (η α : Type) where
  header : η
  items : Array α

namespace Block

variable {η α : Type}

structure Overflow where
  count : UInt64

def Overflow.message (o : Overflow) : String :=
  s!"DynamicArray capacity overflow: {o.count} elements"

/-- A block whose element `i` is `init i`. The size is checked first. -/
def ofFn (layout : Layout) (header : η) (count : UInt64) (init : Nat → α) :
    Except Overflow (Block η α) :=
  match layout.size? count with
  | none => .error ⟨count⟩
  | some _ => .ok ⟨header, (Array.range count.toNat).map init⟩

def size (b : Block η α) : Nat := b.items.size

structure OutOfBounds where
  size : Nat
  index : Nat

def OutOfBounds.message (e : OutOfBounds) : String :=
  s!"index out of bounds: the len is {e.size} but the index is {e.index}"

def replace (b : Block η α) (i : Nat) (v : α) : Except OutOfBounds (α × Block η α) :=
  match b.items[i]? with
  | some old => .ok (old, { b with items := b.items.setIfInBounds i v })
  | none => .error ⟨b.size, i⟩

def assign (b : Block η α) : List (Nat × α) → Except OutOfBounds (List α × Block η α)
  | [] => return ([], b)
  | (i, v) :: rest => do
    let (old, b) ← b.replace i v
    let (olds, b) ← b.assign rest
    return (old :: olds, b)

/-- What is dropped with the block, in order: the elements and then the header. -/
def destruct (b : Block η α) : List (α ⊕ η) := b.items.toList.map .inl ++ [.inr b.header]

end Block

/-- The kinds of element that a block can be asked for. A `wide` word takes 64
bytes and is aligned to them; an `item` is any value, behind a reference. -/
inductive ElementKind where
  | byte
  | half
  | word
  | wide
  | unit
  | item
  deriving DecidableEq

namespace ElementKind

/-- The header is a word and is followed by the length, unless the header is an
item itself. -/
def layout : ElementKind → Layout
  | byte => ⟨1, 16, 8⟩
  | half => ⟨2, 16, 8⟩
  | word => ⟨8, 16, 8⟩
  | wide => ⟨64, 64, 64⟩
  | unit => ⟨0, 16, 8⟩
  | item => ⟨32, 40, 8⟩

/-- What is left of a word that is stored in an element of this kind: its low
bits, as many as there is room for. -/
def store : ElementKind → UInt64 → UInt64
  | byte, w => w.toUInt8.toUInt64
  | half, w => w.toUInt16.toUInt64
  | word, w | wide, w | item, w => w
  | unit, _ => 0

end ElementKind

namespace Block

def ramp (step : UInt64) (i : Nat) : UInt64 := i.toUInt64 * step

end Block
end Handoff
