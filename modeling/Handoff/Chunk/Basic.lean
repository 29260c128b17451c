import Handoff.Act

/-! Chunks: fixed arrays of slots, the unit in which both queues keep their
elements. A chunk can name the chunk that follows it. -/
namespace Handoff

variable {α : Type}

/-- What a slot holds. A jump says that the element of this index lies in the
chunk that follows. -/
inductive Slot (α : Type) where
  | empty
  | value (v : α)
  | jump
  deriving DecidableEq

namespace Slot

def isEmpty : Slot α → Bool
  | empty => true
  | _ => false

def value? : Slot α → Option α
  | value v => some v
  | _ => none

def label : Slot α → String
  | empty => "Empty"
  | value _ => "Value"
  | jump => "Jump"

end Slot

/-- The slots, and the number of the chunk that follows, if one is linked. -/
structure Chunk (α : Type) where
  slots : Array (Slot α)
  next : Option Nat

namespace Chunk

def ofSize (size : Nat) : Chunk α := ⟨Array.replicate size .empty, none⟩

def size (c : Chunk α) : Nat := c.slots.size

def slot? (c : Chunk α) (i : Nat) : Option (Slot α) := c.slots[i]?

def setSlot (c : Chunk α) (i : Nat) (s : Slot α) : Chunk α :=
  { c with slots := c.slots.setIfInBounds i s }

/-- The stored values in slot order, which is not the order they came in. -/
def values (c : Chunk α) : List α := c.slots.toList.filterMap Slot.value?

def vacant (c : Chunk α) (i : Nat) : Bool :=
  match c.slot? i with
  | some .empty => true
  | _ => false

def write (i : Nat) (v : α) : Act (Chunk α) Unit := do
  Act.require (·.vacant i)
  modify (·.setSlot i (.value v))

def take (i : Nat) : Act (Chunk α) α := do
  match ← Act.view (·.slot? i) with
  | some (.value v) =>
    modify (·.setSlot i .empty)
    return v
  | _ => throw .misused

def get (i : Nat) : Act (Chunk α) α := do
  match ← Act.view (·.slot? i) with
  | some (.value v) => return v
  | _ => throw .misused

end Chunk
end Handoff
