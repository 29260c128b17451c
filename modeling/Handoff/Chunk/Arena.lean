import Handoff.Chunk.Basic

/-! Arenas: all chunks that were ever created, numbered in order of creation.
Chunks name each other by number and do not hold each other: whoever claimed a
place in a chunk goes on writing there while others link chunks behind it. A
chunk that was freed leaves its number unused for ever, so a number that is held
too long is seen to be stale. -/
namespace Handoff

variable {α : Type}

/-- The chunks by number; a freed one is `none`. -/
structure Arena (α : Type) where
  chunks : Array (Option (Chunk α))

namespace Arena

def empty : Arena α := ⟨#[]⟩

/-- The chunk with number `c`, if it was created and not freed. -/
def chunk? (a : Arena α) (c : Nat) : Option (Chunk α) := a.chunks[c]?.join

def slot? (a : Arena α) (c i : Nat) : Option (Slot α) := (a.chunk? c).bind (·.slot? i)

def next? (a : Arena α) (c : Nat) : Option Nat := (a.chunk? c).bind (·.next)

def vacant (a : Arena α) (c i : Nat) : Bool :=
  match a.slot? c i with
  | some .empty => true
  | _ => false

def modifyChunk (a : Arena α) (c : Nat) (f : Chunk α → Chunk α) : Arena α :=
  ⟨a.chunks.modify c (·.map f)⟩

def setSlot (a : Arena α) (c i : Nat) (s : Slot α) : Arena α :=
  a.modifyChunk c (·.setSlot i s)

def remove (a : Arena α) (c : Nat) : Arena α := ⟨a.chunks.setIfInBounds c none⟩

def push (size : Nat) : Act (Arena α) Nat := do
  let c ← Act.view (·.chunks.size)
  modify fun ⟨chunks⟩ => ⟨chunks.push (some (.ofSize size))⟩
  return c

def read (c i : Nat) : Act (Arena α) (Slot α) := do
  match ← Act.view (·.slot? c i) with
  | some s => return s
  | none => throw .misused

def write (c i : Nat) (v : α) : Act (Arena α) Unit := do
  Act.require (·.vacant c i)
  modify (·.setSlot c i (.value v))

/-- Marks an empty slot: the element of this index lies in the next chunk. -/
def markJump (c i : Nat) : Act (Arena α) Unit := do
  Act.require (·.vacant c i)
  modify (·.setSlot c i .jump)

def take (c i : Nat) : Act (Arena α) α := do
  match ← Act.view (·.slot? c i) with
  | some (.value v) =>
    modify (·.setSlot c i .empty)
    return v
  | _ => throw .misused

def get (c i : Nat) : Act (Arena α) α := do
  match ← Act.view (·.slot? c i) with
  | some (.value v) => return v
  | _ => throw .misused

def inspect {β : Type} (c : Nat) (f : Chunk α → β) : Act (Arena α) β := do
  match ← Act.view fun a => (a.chunk? c).map f with
  | some b => return b
  | none => throw .misused

/-- Makes chunk `next` the follower of chunk `c`, whatever followed it before. -/
def link (c next : Nat) : Act (Arena α) Unit := do
  Act.require fun a => (a.chunk? c).isSome
  modify (·.modifyChunk c ({ · with next := some next }))

/-- Frees chunk `c` and answers the values that were still stored, in slot
order. Its follower is left alone. -/
def destruct (c : Nat) : Act (Arena α) (List α) := do
  let values ← inspect c (·.values)
  modify (·.remove c)
  return values

structure Freed (α : Type) where
  count : Nat
  values : List α

/-- Frees `first` and all that follow it, at most `fuel` chunks. -/
def destructFrom : Nat → Option Nat → Act (Arena α) (Freed α)
  | _, none => return ⟨0, []⟩
  | 0, some _ => throw .misused
  | fuel + 1, some c => do
    let next ← inspect c (·.next)
    let values ← destruct c
    let rest ← destructFrom fuel next
    return ⟨rest.count + 1, values ++ rest.values⟩

/-- Frees chunk `first` and all that follow it. No chunk is freed twice, so the
number of chunks ever created bounds the walk. -/
def destructChain (first : Nat) : Act (Arena α) (Freed α) := do
  destructFrom (← Act.view (·.chunks.size)) (some first)

/-- The values that are dropped when all chunks that are left are freed, each for
itself and in the order of their numbers. -/
def destructRest (a : Arena α) : List α :=
  a.chunks.toList.flatMap fun
    | some chunk => chunk.values
    | none => []

end Arena
end Handoff
