import Handoff.Chunk.Arena

/-! Scripts on an arena: chunks are created, used slot by slot, linked and freed
by number. -/
namespace Handoff.Arena

variable {α : Type}

inductive Command (α : Type) where
  | push (size : Nat)
  | write (chunk slot : Nat) (v : α)
  | markJump (chunk slot : Nat)
  | take (chunk slot : Nat)
  | get (chunk slot : Nat)
  | state (chunk slot : Nat)
  | isEmpty (chunk slot : Nat)
  | size (chunk : Nat)
  | states (chunk : Nat)
  | link (chunk next : Nat)
  | next (chunk : Nat)
  | destruct (chunk : Nat)
  | destructChain (chunk : Nat)

/-- A slot's state is told by its name. -/
inductive Answer (α : Type) where
  | done
  | number (n : Nat)
  | element (v : α)
  | state (label : String)
  | states (labels : List String)
  | flag (b : Bool)
  | next (chunk : Option Nat)

/-- What a command answered, and the values it dropped. -/
structure Outcome (α : Type) where
  answer : Answer α
  drops : List α

def perform : Command α → Act (Arena α) (Outcome α)
  | .push size => return ⟨.number (← push size), []⟩
  | .write c i v => do
    write c i v
    return ⟨.done, []⟩
  | .markJump c i => do
    markJump c i
    return ⟨.done, []⟩
  | .take c i => return ⟨.element (← take c i), []⟩
  | .get c i => return ⟨.element (← get c i), []⟩
  | .state c i => return ⟨.state (← read c i).label, []⟩
  | .isEmpty c i => return ⟨.flag (← read c i).isEmpty, []⟩
  | .size c => return ⟨.number (← inspect c (·.size)), []⟩
  | .states c => return ⟨.states (← inspect c (·.slots.toList.map Slot.label)), []⟩
  | .link c next => do
    link c next
    return ⟨.done, []⟩
  | .next c => return ⟨.next (← inspect c (·.next)), []⟩
  | .destruct c => return ⟨.done, ← destruct c⟩
  | .destructChain c => do
    let freed ← destructChain c
    return ⟨.number freed.count, freed.values⟩

def performAll : List (Command α) → Act (Arena α) (List (Outcome α))
  | [] => return []
  | command :: rest => return (← perform command) :: (← performAll rest)

/-- The outcomes of a script that starts without chunks, and the values dropped
when all that is left is freed at its end. It halts only where a slot or a chunk
is used against its contract. -/
def runScript (script : List (Command α)) : Except Halt (List (Outcome α) × List α) :=
  match performAll script empty with
  | .ok outcomes a => .ok (outcomes, a.destructRest)
  | .error h _ => .error h

end Handoff.Arena
