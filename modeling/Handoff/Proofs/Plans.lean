import Handoff.Proofs.Client
import Handoff.Scenario.Run

/-! Scenarios as clients. A step on a handle is a call on its side; a hook is what the
client does in a callback. The session and the counts of batch steps are the client's own
memory, and so is what is known of handles: to drop one is only to forget it. What a scenario
is shown of the channel after each step, a client does not see. -/
namespace Handoff.Scenario

variable {α β : Type} {shared : Bool} {h : Handles}

/-- The sides that are free while enclosing steps use these handles. -/
def freeSides (shared : Bool) : List Handle → Handles
  | [] => .both
  | handle :: used => (freeSides shared used).lend shared handle.side

/-- What a scenario remembers: its session, and the counts of the batch steps that enclose
the present one, of the innermost first. -/
structure Memory (α : Type) where
  session : Session α
  frames : List (Frame α)

def Memory.start : Memory α := ⟨.start, []⟩

/-- A part of a scenario as a client. -/
abbrev Plan (α : Type) (shared : Bool) (h : Handles) (β : Type) : Type 1 :=
  Client α (Memory α) shared h β

/-- The session without what it counts of the channel's reports and drops. -/
def Session.plain (s : Session α) : Session α := { s with reported := 0, returned := 0 }

/-- An answer without a number that is not the channel's to tell. -/
def Reply.plain : Reply α → Reply α
  | .number _ => .unfit
  | reply => reply

def After.unseen : After α := ⟨none, [], []⟩

mutual

/-- An answer without what was shown of the channel. -/
def StepReply.plain : StepReply α → StepReply α
  | .call reply _ => .call reply.plain .unseen
  | .batch summary hooks joined _ => .batch summary (plainHooks hooks) joined .unseen
  | .rounds replies _ => .rounds (plainRounds replies) .unseen
  | .thread reply => .thread reply

def plainHooks : List (Moment × Nat × StepReply α) → List (Moment × Nat × StepReply α)
  | [] => []
  | (moment, call, reply) :: rest => (moment, call, reply.plain) :: plainHooks rest

def plainRounds : List (List (StepReply α)) → List (List (StepReply α))
  | [] => []
  | replies :: rest => plainSteps replies :: plainRounds rest

def plainSteps : List (StepReply α) → List (StepReply α)
  | [] => []
  | reply :: rest => reply.plain :: plainSteps rest

end

theorem plainHooks_append (hooks more : List (Moment × Nat × StepReply α)) :
    plainHooks (hooks ++ more) = plainHooks hooks ++ plainHooks more := by
  induction hooks with
  | nil => rfl
  | cons hook rest ih =>
      obtain ⟨moment, call, reply⟩ := hook
      rw [List.cons_append, plainHooks, plainHooks, ih, List.cons_append]

theorem plainHooks_map (moment : Moment) (call : Nat) (replies : List (StepReply α)) :
    plainHooks (replies.map fun r => (moment, call, r)) =
      (plainSteps replies).map fun r => (moment, call, r) := by
  induction replies with
  | nil => rfl
  | cons reply rest ih => rw [List.map_cons, plainHooks, ih, plainSteps, List.map_cons]

theorem plainRounds_eq (rounds : List (List (StepReply α))) :
    plainRounds rounds = rounds.map plainSteps := by
  induction rounds with
  | nil => rfl
  | cons replies rest ih => rw [plainRounds, ih, List.map_cons]

def Frame.plain (f : Frame α) : Frame α := { f with hooks := (plainHooks f.hooks.toList).toArray }

mutual

/-- Threads are joined only where both sides are free. -/
def Step.JoinsFree (shared : Bool) : Step α → List Handle → Prop
  | .batch b _ join hooks, used =>
    (join = true → freeSides shared used = .both) ∧ hooksJoinFree shared hooks (b.handle :: used)
  | .repeated _ steps, used => stepsJoinFree shared steps used
  | .call _, _ | .spawn _, _ | .stop, _ => True

def stepsJoinFree (shared : Bool) : List (Step α) → List Handle → Prop
  | [], _ => True
  | step :: rest, used => step.JoinsFree shared used ∧ stepsJoinFree shared rest used

def Hook.JoinsFree (shared : Bool) : Hook α → List Handle → Prop
  | .mk _ _ steps _, used => stepsJoinFree shared steps used

def hooksJoinFree (shared : Bool) : List (Hook α) → List Handle → Prop
  | [], _ => True
  | hook :: rest, used => hook.JoinsFree shared used ∧ hooksJoinFree shared rest used

end

namespace Plan

def session (f : Session α → β) : Plan α shared h β := .own fun m => (f m.session, m)

def update (f : Session α → Session α) : Plan α shared h Unit :=
  .own fun m => ((), { m with session := f m.session })

def frame (f : Frame α → β) : Plan α shared h β :=
  .own fun m => (f (m.frames.headD (.start .busySpin)), m)

def count (f : Frame α → Frame α) : Plan α shared h Unit :=
  .own fun m => ((), { m with frames := m.frames.modifyHead f })

def fresh (value : Nat → α) : Plan α shared h α :=
  .own fun m =>
    (value m.session.fresh, { m with session := { m.session with fresh := m.session.fresh + 1 } })

def offerMany (value : Nat → α) (free : h.has .producer = true) :
    Nat → Nat → Plan α shared h (Reply α)
  | accepted, 0 => .done (.offered accepted none)
  | accepted, count + 1 =>
    .bind (fresh value) fun v => .bind (.call free (.offer v)) fun
      | .ok () => offerMany value free (accepted + 1) count
      | .error full => .done (.offered accepted (some full.value))

def pollMany (free : h.has .consumer = true) : List α → Nat → Plan α shared h (List α)
  | taken, 0 => .done taken.reverse
  | taken, count + 1 =>
    .bind (.call free .poll) fun
      | some v => pollMany free (v :: taken) count
      | none => .done taken.reverse

def perform (value : Nat → α) :
    (c : Call α) → h.has c.handle.side = true → Plan α shared h (Reply α)
  | .offer _ v, free => .bind (.call free (.offer v)) fun answer => .done (offered answer)
  | .relaxedOffer _ v, free =>
    .bind (.call free (.relaxedOffer v)) fun answer => .done (offered answer)
  | .offerMany _ count, free => offerMany value free 0 count
  | .poll, free => .bind (.call free .poll) fun v => .done (.element v)
  | .relaxedPoll, free => .bind (.call free .relaxedPoll) fun v => .done (.element v)
  | .peek, free => .bind (.call free .peek) fun v => .done (.element v)
  | .relaxedPeek, free => .bind (.call free .relaxedPeek) fun v => .done (.element v)
  | .pollMany count brief, free =>
    .bind (pollMany free [] count) fun values => .done (.elements (.of brief values))
  | .info handle, free =>
    .bind (.call free (.look handle.side)) fun i => .done (.info i handle.side)
  | .lookAhead _, _ => .done .unfit
  | .clone _, _ =>
    .bind (update fun s => if shared then { s with producers := s.producers ++ [true] } else s)
      fun _ => .done .unfit
  | .drop handle, _ =>
    .bind (session (·.inUse.contains handle)) fun busy =>
      if busy then .done .busy else .bind (update (·.forget handle)) fun _ => .done .dropped

def threadCall (both : h = .both) : ThreadCall α → Plan α shared h (ThreadReply α)
  | .poll => .bind (.call (both ▸ rfl) .poll) fun v => .done (.element v)
  | .peek => .bind (.call (both ▸ rfl) .peek) fun v => .done (.element v)
  | .offer v => .bind (.call (both ▸ rfl) (.offer v)) fun
      | .ok () => .done .accepted
      | .error full => .done (.refused full)
  | .fill limit v => .bind (.fill (both ▸ rfl) (.done v) limit) fun n => .done (.count n)

def threadCalls (both : h = .both) : List (ThreadCall α) → Plan α shared h (List (ThreadReply α))
  | [] => .done []
  | call :: rest =>
    .bind (threadCall both call) fun reply =>
    .bind (threadCalls both rest) fun replies => .done (reply :: replies)

def joinThreads (both : h = .both) :
    List (List (ThreadCall α)) → Plan α shared h (List (List (ThreadReply α)))
  | [] => .done []
  | calls :: rest =>
    .bind (threadCalls both calls) fun replies =>
    .bind (joinThreads both rest) fun joined => .done (replies :: joined)

section Callbacks

variable (hooks : Moment → Nat → Plan α shared h Unit)

def enter (moment : Moment) : Plan α shared h Unit :=
  .bind (frame (·.calls moment)) fun call =>
  .bind (count (·.bump moment)) fun _ => hooks moment call

def supply (value : Nat → α) : Plan α shared h α :=
  .bind (enter hooks .supply) fun _ =>
  .bind (fresh value) fun v =>
  .bind (count fun f => { f with values := f.values.push v }) fun _ => .done v

def consume (v : α) : Plan α shared h Unit :=
  .bind (count fun f => { f with values := f.values.push v }) fun _ => enter hooks .consume

def wait (counter : UInt64) : Plan α shared h UInt64 :=
  .bind (enter hooks .wait) fun _ =>
  .bind (frame (·.strategy.idle counter)) fun (answer, strategy) =>
  .bind (count fun f =>
    { f with strategy := strategy, waits := f.waits.push (counter, answer) }) fun _ =>
  .done answer

def keepRunning (rule : ExitRule) : Plan α shared h Bool :=
  .bind (frame (·.exits)) fun poll =>
  .bind (enter hooks .exit) fun _ =>
  frame fun f => rule.goesOn poll f.idles (f.supplies + f.consumes)

end Callbacks

def performBatch (value : Nat → α) :
    (b : Batch) → h.has b.handle.side = true →
      (Moment → Nat → Plan α shared (h.lend shared b.handle.side) Unit) →
      Plan α shared h (Option Nat)
  | .fill _ limit, free, hooks =>
    .bind (.fill free (supply hooks value) limit) fun n => .done (some n)
  | .fillAll _, free, hooks => .bind (.fillAll free (supply hooks value)) fun n => .done (some n)
  | .fillWith _ _ rule, free, hooks =>
    .bind (.fillWith free (supply hooks value) (wait hooks) (keepRunning hooks rule)
      rule.allowance) fun _ => .done none
  | .drain limit, free, hooks => .bind (.drain free (consume hooks) limit) fun n => .done (some n)
  | .drainAll, free, hooks => .bind (.drainAll free (consume hooks)) fun n => .done (some n)
  | .drainWith _ rule, free, hooks =>
    .bind (.drainWith free (consume hooks) (wait hooks) (keepRunning hooks rule) rule.allowance)
      fun _ => .done none

/-- Threads are joined only where both sides are free. -/
def finishBatch (b : Batch) (brief join : Bool) (inUse : List Handle)
    (threads : List (List (ThreadCall α))) (ending : Ending (Option Nat)) (frame : Frame α) :
    Plan α shared h (StepReply α) :=
  .bind (session (·.threads)) fun started =>
  .bind (update fun s => { s with
    inUse := inUse
    threads := if join then threads else threads ++ started }) fun _ =>
  .bind (if join then (if both : h = .both then joinThreads both started else .stop) else .done [])
    fun joined =>
  let summary : Summary α :=
    { ending := ending
      values := .of brief frame.values.toList
      waits := frame.waits.toList
      exits := b.exit?.map fun _ => frame.exits }
  .done (.batch summary frame.hooks.toList joined .unseen)

def runBatch (value : Nat → α) (b : Batch) (brief join : Bool) (free : h.has b.handle.side = true)
    (hooks : Moment → Nat → Plan α shared (h.lend shared b.handle.side) Unit) :
    Plan α shared h (StepReply α) :=
  .bind (session fun s => (s.inUse, s.threads)) fun (inUse, threads) =>
  .bind (.own fun m => ((),
    { session := { m.session with inUse := b.handle :: inUse, threads := [] }
      frames := .start b.strategy :: m.frames })) fun _ =>
  .bind (.attempt (performBatch value b free hooks)) fun ending =>
  .bind (.own fun m => (m.frames.headD (.start .busySpin), { m with frames := m.frames.tail }))
    fun frame => finishBatch b brief join inUse threads ending frame

def times (plan : Plan α shared h β) : Nat → Plan α shared h (List β)
  | 0 => .done []
  | n + 1 => .bind plan fun b => .bind (times plan n) fun rest => .done (b :: rest)

mutual

/-- A step, in callbacks of steps that use the handles `used`. -/
def ofStep (shared : Bool) (value : Nat → α) :
    Step α → (used : List Handle) → Plan α shared (freeSides shared used) (StepReply α)
  | .call c, used =>
    .bind (session (·.refusal? shared c.handle)) fun
      | some reply => .done (.call reply .unseen)
      | none =>
        if free : (freeSides shared used).has c.handle.side = true then
          .bind (perform value c free) fun reply => .done (.call reply .unseen)
        else .stop
  | .batch b brief join hooks, used =>
    .bind (session (·.refusal? shared b.handle)) fun
      | some reply => .done (.call reply .unseen)
      | none =>
        if free : (freeSides shared used).has b.handle.side = true then
          runBatch value b brief join free fun moment call =>
            ofHooks shared value hooks moment call (b.handle :: used)
        else .stop
  | .repeated n steps, used =>
    .bind (times (ofSteps shared value steps used) n) fun replies => .done (.rounds replies .unseen)
  | .spawn calls, _ =>
    .bind (session Session.bothSides) fun both =>
      if both then .bind (update fun s => { s with threads := s.threads ++ [calls] }) fun _ =>
        .done (.thread .started)
      else .done (.thread .gone)
  | .stop, _ => .stop

def ofSteps (shared : Bool) (value : Nat → α) :
    List (Step α) → (used : List Handle) →
      Plan α shared (freeSides shared used) (List (StepReply α))
  | [], _ => .done []
  | step :: rest, used =>
    .bind (ofStep shared value step used) fun reply =>
    .bind (ofSteps shared value rest used) fun replies => .done (reply :: replies)

def ofHook (shared : Bool) (value : Nat → α) :
    Hook α → Moment → Nat → (used : List Handle) → Plan α shared (freeSides shared used) Unit
  | .mk on trigger steps panics, moment, call, used =>
    if on = moment ∧ trigger.fires call then
      .bind (ofSteps shared value steps used) fun replies =>
      .bind (count fun f => { f with hooks := f.hooks ++ replies.map fun r => (moment, call, r) })
        fun _ => if panics then .panic else .done ()
    else .done ()

def ofHooks (shared : Bool) (value : Nat → α) :
    List (Hook α) → Moment → Nat → (used : List Handle) → Plan α shared (freeSides shared used) Unit
  | [], _, _, _ => .done ()
  | hook :: rest, moment, call, used =>
    .bind (ofHook shared value hook moment call used) fun _ =>
      ofHooks shared value rest moment call used

end

end Plan
end Handoff.Scenario
