/-! Calls and how they end. A call changes a state and returns, or it halts and
leaves the state as it was at that moment: nothing is rolled back. Callbacks are
calls too, so whatever a callback does to the queue is seen by the call around
it. -/
namespace Handoff

/-- Why a call did not return. `spinning` is a wait for a store that no step of
the present thread will make. `misused` is a slot or a link used against its
contract. `unfinished` says only that the allowance of exit polls was too small,
and `stopped` that a scenario asked to be cut short. -/
inductive Halt where
  | panicked
  | spinning
  | misused
  | unfinished
  | stopped
  deriving DecidableEq

/-- A call on the state `σ` that answers a `β` unless it halts. -/
abbrev Act (σ β : Type) : Type := EStateM Halt σ β

/-- A queue in use: the queue, and all else that its callbacks can reach. -/
structure World (Q E : Type) where
  queue : Q
  env : E

/-- What a call that may panic came to. -/
inductive Ending (β : Type) where
  | returned (value : β)
  | panicked
  deriving DecidableEq

namespace Act

variable {σ Q E F β : Type}

def onQueue (act : Act Q β) : Act (World Q E) β := fun ⟨queue, env⟩ =>
  match act queue with
  | .ok b queue => .ok b ⟨queue, env⟩
  | .error h queue => .error h ⟨queue, env⟩

/-- A call that reaches only the outer part of the environment. -/
def outward (act : Act (World Q E) β) : Act (World Q (E × F)) β := fun ⟨queue, (env, frame)⟩ =>
  match act ⟨queue, env⟩ with
  | .ok b ⟨queue, env⟩ => .ok b ⟨queue, (env, frame)⟩
  | .error h ⟨queue, env⟩ => .error h ⟨queue, (env, frame)⟩

/-- Stops a panic here. The state stays as the panic left it. -/
def attempt (act : Act σ β) : Act σ (Ending β) := fun s =>
  match act s with
  | .ok b s => .ok (.returned b) s
  | .error .panicked s => .ok .panicked s
  | .error h s => .error h s

def require (ok : σ → Bool) : Act σ Unit := fun s =>
  if ok s then .ok () s else .error .misused s

def view (f : σ → β) : Act σ β := fun s => .ok (f s) s

end Act
end Handoff
