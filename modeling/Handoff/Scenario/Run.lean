import Handoff.Scenario.Session

/-! Running a scenario. The steps of a hook run inside the callback, on the
channel as the call around them has left it. -/
namespace Handoff.Scenario

variable {Q α : Type} [Channel Q α]

/-- What a batch step keeps count of while its callbacks run. -/
structure Frame (α : Type) where
  supplies : Nat
  consumes : Nat
  idles : Nat
  exits : Nat
  values : Array α
  waits : Array (UInt64 × UInt64)
  strategy : WaitStrategy
  hooks : Array (Moment × Nat × StepReply α)

namespace Frame

def start (strategy : WaitStrategy) : Frame α := ⟨0, 0, 0, 0, #[], #[], strategy, #[]⟩

def calls (f : Frame α) : Moment → Nat
  | .supply => f.supplies
  | .consume => f.consumes
  | .wait => f.idles
  | .exit => f.exits

def bump (f : Frame α) : Moment → Frame α
  | .supply => { f with supplies := f.supplies + 1 }
  | .consume => { f with consumes := f.consumes + 1 }
  | .wait => { f with idles := f.idles + 1 }
  | .exit => { f with exits := f.exits + 1 }

end Frame

/-- A call inside a batch step. -/
abbrev Inner (Q α β : Type) : Type := Act (World Q (Session α × Frame α)) β

/-- The hooks of a batch step: what runs at which call of which callback. -/
abbrev Hooks (Q α : Type) : Type := Moment → Nat → Inner Q α Unit

namespace Inner

variable {β : Type}

def frame (f : Frame α → β) : Inner Q α β := Act.view (f ·.env.2)

def update (f : Frame α → Frame α) : Inner Q α Unit :=
  modify fun ⟨queue, (session, frame)⟩ => ⟨queue, (session, f frame)⟩

/-- Counts a call of a callback and runs its hooks. -/
def enter (hooks : Hooks Q α) (moment : Moment) : Inner Q α Unit := do
  let call ← frame (·.calls moment)
  update (·.bump moment)
  hooks moment call

def supply (value : Nat → α) (hooks : Hooks Q α) : Inner Q α α := do
  enter hooks .supply
  let v ← Act.outward (Run.fresh value)
  update fun f => { f with values := f.values.push v }
  return v

def consume (hooks : Hooks Q α) (v : α) : Inner Q α Unit := do
  update fun f => { f with values := f.values.push v }
  enter hooks .consume

def wait (hooks : Hooks Q α) (counter : UInt64) : Inner Q α UInt64 := do
  enter hooks .wait
  let (answer, strategy) ← frame (·.strategy.idle counter)
  update fun f => { f with strategy := strategy, waits := f.waits.push (counter, answer) }
  return answer

def keepRunning (rule : ExitRule) (hooks : Hooks Q α) : Inner Q α Bool := do
  let poll ← frame (·.exits)
  enter hooks .exit
  frame fun f => rule.goesOn poll f.idles (f.supplies + f.consumes)

end Inner

/-- The channel call of a batch step, with the number it answers, if any. -/
def Batch.perform (value : Nat → α) (hooks : Hooks Q α) : Batch → Inner Q α (Option Nat)
  | .fill _ limit => some <$> Channel.fill (Inner.supply value hooks) limit
  | .fillAll _ => some <$> Channel.fillAll (Inner.supply value hooks)
  | .fillWith _ _ rule => do
    Channel.fillWith (Inner.supply value hooks) (Inner.wait hooks) (Inner.keepRunning rule hooks)
      rule.allowance
    return none
  | .drain limit => some <$> Channel.drain (Inner.consume hooks) limit
  | .drainAll => some <$> Channel.drainAll (Inner.consume hooks)
  | .drainWith _ rule => do
    Channel.drainWith (Inner.consume hooks) (Inner.wait hooks) (Inner.keepRunning rule hooks)
      rule.allowance
    return none

def inFrame {β : Type} (start : Frame α) (act : Inner Q α β) : Run Q α (β × Frame α) :=
  fun ⟨queue, session⟩ =>
    match act ⟨queue, (session, start)⟩ with
    | .ok b ⟨queue, (session, frame)⟩ => .ok (b, frame) ⟨queue, session⟩
    | .error h ⟨queue, (session, _)⟩ => .error h ⟨queue, session⟩

/-- The end of a batch step: the handle is free again, and with `join` the threads that
were started meanwhile are waited for. -/
def finishBatch (batch : Batch) (brief join : Bool) (inUse : List Handle)
    (threads : List (List (ThreadCall α))) (ending : Ending (Option Nat)) (frame : Frame α) :
    Run Q α (StepReply α) := do
  let started ← Run.session (·.threads)
  Run.update fun s => { s with
    inUse := inUse
    threads := if join then threads else threads ++ started }
  let joined ← joinThreads (if join then started else [])
  let summary : Summary α :=
    { ending := ending
      values := .of brief frame.values.toList
      waits := frame.waits.toList
      exits := batch.exit?.map fun _ => frame.exits }
  return .batch summary frame.hooks.toList joined (← settle)

/-- A batch step on a handle that is there and free. A panic of a callback ends
the call, not the step. -/
def runBatch (value : Nat → α) (batch : Batch) (brief join : Bool) (hooks : Hooks Q α) :
    Run Q α (StepReply α) := do
  let (inUse, threads) ← Run.session fun s => (s.inUse, s.threads)
  Run.update fun s => { s with inUse := batch.handle :: inUse, threads := [] }
  let (ending, frame) ←
    inFrame (.start batch.strategy) (Act.attempt (batch.perform value hooks))
  finishBatch batch brief join inUse threads ending frame

def times {σ β : Type} (act : Act σ β) : Nat → Act σ (List β)
  | 0 => return []
  | n + 1 => return (← act) :: (← times act n)

mutual

def runStep (value : Nat → α) : Step α → Run Q α (StepReply α)
  | .call c => do
    match ← refusal c.handle with
    | some reply => return .call reply (← settle)
    | none =>
      let reply ← perform value c
      return .call reply (← settle)
  | .batch b brief join hooks => do
    match ← refusal b.handle with
    | some reply => return .call reply (← settle)
    | none =>
      runBatch value b brief join fun moment call => runHooks value hooks moment call
  | .repeated n steps => do
    let replies ← times (runSteps value steps) n
    return .rounds replies (← settle)
  | .spawn calls => do
    if ← Run.session Session.bothSides then
      Run.update fun s => { s with threads := s.threads ++ [calls] }
      return .thread .started
    else
      return .thread .gone
  | .stop => throw .stopped

def runSteps (value : Nat → α) : List (Step α) → Run Q α (List (StepReply α))
  | [] => return []
  | step :: rest => return (← runStep value step) :: (← runSteps value rest)

def runHook (value : Nat → α) : Hook α → Moment → Nat → Inner Q α Unit
  | .mk on trigger steps panics, moment, call => do
    if on = moment ∧ trigger.fires call then
      let replies ← Act.outward (runSteps value steps)
      Inner.update fun f => { f with hooks := f.hooks ++ replies.map fun r => (moment, call, r) }
      if panics then throw .panicked

def runHooks (value : Nat → α) : List (Hook α) → Moment → Nat → Inner Q α Unit
  | [], _, _ => return ()
  | hook :: rest, moment, call => do
    runHook value hook moment call
    runHooks value rest moment call

end

/-- All that a scenario answered: the reports of the construction, the answers
of its steps, and the values dropped with the handles that were left. -/
structure Transcript (α : Type) where
  opening : List Event
  steps : List (StepReply α)
  endDrops : List α

def runAll (value : Nat → α) (steps : List (Step α)) : Run Q α (Transcript α) := do
  let opening ← settle
  let replies ← runSteps value steps
  if ← Run.session Session.isOpen then
    Act.onQueue Channel.close
  let closing ← settle
  return ⟨opening.events, replies, closing.discarded⟩

/-- Runs a scenario on a channel. Without `stop` it halts only where a call spins
for ever. -/
def run (value : Nat → α) (queue : Q) (steps : List (Step α)) : Except Halt (Transcript α) :=
  match runAll value steps ⟨queue, Session.start⟩ with
  | .ok transcript _ => .ok transcript
  | .error h _ => .error h

end Handoff.Scenario
