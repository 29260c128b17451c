import Handoff.Scenario.Reply

/-! The session of a scenario: its handles, its counter for fresh values, and
what it has reported so far. Here are the steps that run no callback. -/
namespace Handoff.Scenario

variable {Q α : Type}

/-- `producers` tells which producer handles ever made are alive, `inUse` which
handles enclosing steps hold. `reported` and `returned` count the events and
the dropped values that answers have shown. `threads` wait to be joined. -/
structure Session (α : Type) where
  fresh : Nat
  producers : List Bool
  consumer : Bool
  inUse : List Handle
  reported : Nat
  returned : Nat
  threads : List (List (ThreadCall α))

namespace Session

def start : Session α := ⟨0, [true], true, [], 0, 0, []⟩

def alive (s : Session α) : Handle → Bool
  | .producer p => s.producers.getD p false
  | .consumer => s.consumer

def isOpen (s : Session α) : Bool := s.consumer || s.producers.any id

/-- Whether each side has a handle. A thread is given the consumer and a producer
handle of its own, so without one of them none can be started. -/
def bothSides (s : Session α) : Bool := s.consumer && s.producers.any id

/-- Whether an enclosing step keeps others off this handle. Shared producer
handles can be used all the same. -/
def held (s : Session α) (shared : Bool) : Handle → Bool
  | .producer p => !shared && s.inUse.contains (.producer p)
  | .consumer => s.inUse.contains .consumer

def anyFree (s : Session α) (shared : Bool) : Bool :=
  (s.consumer && !s.held shared .consumer) ||
    (List.range s.producers.length).any fun p =>
      s.alive (.producer p) && !s.held shared (.producer p)

/-- Why a handle cannot be used now, if it cannot. -/
def refusal? (s : Session α) (shared : Bool) (handle : Handle) : Option (Reply α) :=
  if !s.alive handle then some .gone
  else if s.held shared handle then some .busy
  else none

def forget (s : Session α) : Handle → Session α
  | .producer p => { s with producers := s.producers.set p false }
  | .consumer => { s with consumer := false }

end Session

abbrev Run (Q α β : Type) : Type := Act (World Q (Session α)) β

namespace Run

variable {β : Type}

def session (f : Session α → β) : Run Q α β := Act.view (f ·.env)

def update (f : Session α → Session α) : Run Q α Unit :=
  modify fun ⟨queue, env⟩ => ⟨queue, f env⟩

def fresh (value : Nat → α) : Run Q α α := do
  let n ← session Session.fresh
  update ({ · with fresh := n + 1 })
  return value n

end Run

section Calls

variable [Channel Q α]

/-- Shows the channel after a step and takes what is new to report. -/
def settle : Run Q α (After α) := fun ⟨queue, env⟩ =>
  let events := Channel.journal queue
  let discarded := Channel.discarded queue
  let after : After α :=
    { indicators :=
        if env.anyFree (Channel.shared Q) then some (Channel.indicators queue) else none
      events := (events.extract env.reported events.size).toList
      discarded := (discarded.extract env.returned discarded.size).toList }
  .ok after ⟨queue, { env with reported := events.size, returned := discarded.size }⟩

def offered : Except (Full α) Unit → Reply α
  | .ok () => .accepted
  | .error full => .refused full

/-- Offers up to `count` more fresh values; `accepted` counts those before. -/
def offerMany (value : Nat → α) : Nat → Nat → Run Q α (Reply α)
  | accepted, 0 => return .offered accepted none
  | accepted, count + 1 => do
    match ← Act.onQueue (Channel.offer (← Run.fresh value)) with
    | .ok () => offerMany value (accepted + 1) count
    | .error full => return .offered accepted (some full.value)

def pollMany : List α → Nat → Run Q α (List α)
  | taken, 0 => return taken.reverse
  | taken, count + 1 => do
    match ← Act.onQueue Channel.poll with
    | some v => pollMany (v :: taken) count
    | none => return taken.reverse

/-- Drops a handle, and with the last one the channel. -/
def dropHandle (handle : Handle) : Run Q α Unit := do
  Run.update (·.forget handle)
  unless ← Run.session Session.isOpen do
    Act.onQueue Channel.close

/-- A step without callbacks, on a handle that is there and free. -/
def perform (value : Nat → α) : Call α → Run Q α (Reply α)
  | .offer _ v => offered <$> Act.onQueue (Channel.offer v)
  | .relaxedOffer _ v => offered <$> Act.onQueue (Channel.relaxedOffer v)
  | .offerMany _ count => offerMany value 0 count
  | .poll => .element <$> Act.onQueue Channel.poll
  | .relaxedPoll => .element <$> Act.onQueue Channel.relaxedPoll
  | .peek => .element <$> Act.onQueue Channel.peek
  | .relaxedPeek => .element <$> Act.onQueue Channel.relaxedPeek
  | .pollMany count brief => (.elements ∘ Digest.of brief) <$> pollMany [] count
  | .info handle => return .info (← Act.onQueue (Act.view Channel.indicators)) handle.side
  | .lookAhead _ => do
    match ← Act.onQueue (Act.view Channel.lookAhead?) with
    | some n => return .number n
    | none => return .unfit
  | .clone _ => do
    if Channel.shared Q then
      let number ← Run.session (·.producers.length)
      Run.update fun s => { s with producers := s.producers ++ [true] }
      return .number number
    else
      return .unfit
  | .drop handle => do
    if ← Run.session (·.inUse.contains handle) then return .busy
    dropHandle handle
    return .dropped

def refusal (handle : Handle) : Run Q α (Option (Reply α)) :=
  Run.session (·.refusal? (Channel.shared Q) handle)

def threadCall : ThreadCall α → Run Q α (ThreadReply α)
  | .poll => .element <$> Act.onQueue Channel.poll
  | .peek => .element <$> Act.onQueue Channel.peek
  | .offer v => do
    match ← Act.onQueue (Channel.offer v) with
    | .ok () => return .accepted
    | .error full => return .refused full
  | .fill limit v => .count <$> Channel.fill (return v) limit

def threadCalls : List (ThreadCall α) → Run Q α (List (ThreadReply α))
  | [] => return []
  | call :: rest => return (← threadCall call) :: (← threadCalls rest)

/-- Joins the waiting threads: each has made its calls by then, and nothing can
tell that order from any other that the threads allow. -/
def joinThreads : List (List (ThreadCall α)) → Run Q α (List (List (ThreadReply α)))
  | [] => return []
  | calls :: rest => return (← threadCalls calls) :: (← joinThreads rest)

end Calls

end Handoff.Scenario
