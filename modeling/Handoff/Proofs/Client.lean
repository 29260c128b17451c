import Handoff.Channel

/-! Clients: all that the users of one channel can do with it on one thread. A
client is a tree of calls in which every callback is a client again, so calls are
nested to any depth. What a client does next may depend on every answer and on a
memory of its own, and it may panic anywhere.

A handle that a call holds is not free in the callbacks of that call. Handles of
a shared side stay free: each is as good as any other, since none has a state. -/
namespace Handoff

/-- Which sides of a channel a client can call. -/
structure Handles where
  producer : Bool
  consumer : Bool
  deriving DecidableEq

namespace Handles

def both : Handles := ⟨true, true⟩

def has (h : Handles) : Side → Bool
  | .producer => h.producer
  | .consumer => h.consumer

/-- What is free in the callbacks of a call on one side. -/
def lend (h : Handles) (shared : Bool) : Side → Handles
  | .producer => { h with producer := shared }
  | .consumer => { h with consumer := false }

end Handles

/-- A call without callbacks, the side it is made on and what it answers. -/
inductive Op (α : Type) : Side → Type → Type where
  | offer (v : α) : Op α .producer (Except (Full α) Unit)
  | relaxedOffer (v : α) : Op α .producer (Except (Full α) Unit)
  | poll : Op α .consumer (Option α)
  | relaxedPoll : Op α .consumer (Option α)
  | peek : Op α .consumer (Option α)
  | relaxedPeek : Op α .consumer (Option α)
  | look (side : Side) : Op α side Indicators

def Op.perform {Q α : Type} [Channel Q α] {side : Side} {β : Type} : Op α side β → Act Q β
  | .offer v => Channel.offer v
  | .relaxedOffer v => Channel.relaxedOffer v
  | .poll => Channel.poll
  | .relaxedPoll => Channel.relaxedPoll
  | .peek => Channel.peek
  | .relaxedPeek => Channel.relaxedPeek
  | .look _ => Act.view Channel.indicators

/-- A client with the memory `E` that can call the sides `h` and answers a `β`.
`own` is work on its memory alone. `stop` ends the whole run at once and leaves
the channel as it is at that moment, also inside a callback. `attempt` stops a
panic. -/
inductive Client (α E : Type) (shared : Bool) : Handles → Type → Type 1 where
  | done {h : Handles} {β : Type} (b : β) : Client α E shared h β
  | bind {h : Handles} {β γ : Type} (first : Client α E shared h β)
      (next : β → Client α E shared h γ) : Client α E shared h γ
  | own {h : Handles} {β : Type} (work : E → β × E) : Client α E shared h β
  | panic {h : Handles} {β : Type} : Client α E shared h β
  | stop {h : Handles} {β : Type} : Client α E shared h β
  | attempt {h : Handles} {β : Type} (body : Client α E shared h β) :
      Client α E shared h (Ending β)
  | call {h : Handles} {side : Side} {β : Type} (free : h.has side = true) (op : Op α side β) :
      Client α E shared h β
  | fill {h : Handles} (free : h.has .producer = true)
      (supply : Client α E shared (h.lend shared .producer) α) (limit : Nat) :
      Client α E shared h Nat
  | fillAll {h : Handles} (free : h.has .producer = true)
      (supply : Client α E shared (h.lend shared .producer) α) : Client α E shared h Nat
  | fillWith {h : Handles} (free : h.has .producer = true)
      (supply : Client α E shared (h.lend shared .producer) α)
      (wait : UInt64 → Client α E shared (h.lend shared .producer) UInt64)
      (keepRunning : Client α E shared (h.lend shared .producer) Bool) (polls : Nat) :
      Client α E shared h Unit
  | drain {h : Handles} (free : h.has .consumer = true)
      (consume : α → Client α E shared (h.lend shared .consumer) Unit) (limit : Nat) :
      Client α E shared h Nat
  | drainAll {h : Handles} (free : h.has .consumer = true)
      (consume : α → Client α E shared (h.lend shared .consumer) Unit) : Client α E shared h Nat
  | drainWith {h : Handles} (free : h.has .consumer = true)
      (consume : α → Client α E shared (h.lend shared .consumer) Unit)
      (wait : UInt64 → Client α E shared (h.lend shared .consumer) UInt64)
      (keepRunning : Client α E shared (h.lend shared .consumer) Bool) (polls : Nat) :
      Client α E shared h Unit

namespace Client

variable {Q α E : Type} [Channel Q α] {shared : Bool}

def run {h : Handles} {β : Type} : Client α E shared h β → Act (World Q E) β
  | done b => return b
  | bind first next => first.run >>= fun b => (next b).run
  | own work => modifyGet fun ⟨queue, env⟩ => ((work env).1, ⟨queue, (work env).2⟩)
  | panic => throw .panicked
  | stop => throw .stopped
  | attempt body => Act.attempt body.run
  | call _ op => Act.onQueue op.perform
  | fill _ supply limit => Channel.fill supply.run limit
  | fillAll _ supply => Channel.fillAll supply.run
  | fillWith _ supply wait keepRunning polls =>
    Channel.fillWith supply.run (fun counter => (wait counter).run) keepRunning.run polls
  | drain _ consume limit => Channel.drain (fun v => (consume v).run) limit
  | drainAll _ consume => Channel.drainAll fun v => (consume v).run
  | drainWith _ consume wait keepRunning polls =>
    Channel.drainWith (fun v => (consume v).run) (fun counter => (wait counter).run)
      keepRunning.run polls

end Client

/-- What a client can tell of its run: the answer or why it halted, and its
memory. -/
def verdict {Q E β : Type} : EStateM.Result Halt (World Q E) β → Except Halt β × E
  | .ok b w => (.ok b, w.env)
  | .error h w => (.error h, w.env)

/-- The channel as a run leaves it, however it ends. -/
def channelAfter {Q E β : Type} : EStateM.Result Halt (World Q E) β → Q
  | .ok _ w => w.queue
  | .error _ w => w.queue

end Handoff
