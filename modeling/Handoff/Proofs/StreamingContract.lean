import Handoff.Proofs.ChainStreaming
import Handoff.Proofs.RingContract
import Handoff.Proofs.RingStreaming

/-! The contract of the streaming calls, on every ring and every chain that clients can
have left, also in the midst of a batch. Three of the four loops end on the first refusal.
The filling loop of a chain polls again after a refusal, from another place, and may go on
if the exit condition has changed its mind. All four keep to the wait strategy. -/
namespace Handoff

open Streaming

variable {α E F Q : Type}

def Act.onMemory {β : Type} (work : F → β × F) : Act (World Q F) β :=
  modifyGet fun ⟨queue, memory⟩ => ((work memory).1, ⟨queue, (work memory).2⟩)

/-- A call of `fillWith` on a ring, with clients as callbacks. -/
inductive Ring.Fills : Call (Ring α) F → Prop
  | intro {h : Handles} (free : h.has .producer = true)
      (supply : Client α F false (h.lend false .producer) α)
      (wait : UInt64 → Client α F false (h.lend false .producer) UInt64)
      (keepRunning : Client α F false (h.lend false .producer) Bool) (polls : Nat) :
      Fills (filling supply.run (fun counter => (wait counter).run) keepRunning.run polls)

/-- A call of `drainWith` on a ring, with clients as callbacks. -/
inductive Ring.Drains : Call (Ring α) F → Prop
  | intro {h : Handles} (free : h.has .consumer = true)
      (consume : α → Client α F false (h.lend false .consumer) Unit)
      (wait : UInt64 → Client α F false (h.lend false .consumer) UInt64)
      (keepRunning : Client α F false (h.lend false .consumer) Bool) (polls : Nat) :
      Drains (draining (fun v => (consume v).run) (fun counter => (wait counter).run)
        keepRunning.run polls)

/-- A call of `fillWith` on a chain, with clients as callbacks. -/
inductive Chain.Fills : Call (Chain α) F → Prop
  | intro {h : Handles} (free : h.has .producer = true)
      (supply : Client α F true (h.lend true .producer) α)
      (wait : UInt64 → Client α F true (h.lend true .producer) UInt64)
      (keepRunning : Client α F true (h.lend true .producer) Bool) (polls : Nat) :
      Fills (filling supply.run (fun counter => (wait counter).run) keepRunning.run polls)

/-- A call of `drainWith` on a chain, with clients as callbacks. -/
inductive Chain.Drains : Call (Chain α) F → Prop
  | intro {h : Handles} (free : h.has .consumer = true)
      (consume : α → Client α F true (h.lend true .consumer) Unit)
      (wait : UInt64 → Client α F true (h.lend true .consumer) UInt64)
      (keepRunning : Client α F true (h.lend true .consumer) Bool) (polls : Nat) :
      Drains (draining (fun v => (consume v).run) (fun counter => (wait counter).run)
        keepRunning.run polls)

namespace Ring.Models

variable {q : Ring α} {f : Fifo α} (hq : q.Models f) (env : F)

include hq

theorem fills {call : Call (Ring α) F} (fills : Ring.Fills call) :
    ∃ polls, call.Traced AtCapacity 1 True polls q env := by
  obtain ⟨free, supply, wait, keepRunning, polls⟩ := fills
  exact ⟨polls, filling_traced hq free (.any _) (fun _ => .any _) (.any _) polls env⟩

theorem drains {call : Call (Ring α) F} (drains : Ring.Drains call) :
    ∃ polls, call.Traced Exhausted 1 True polls q env := by
  obtain ⟨free, consume, wait, keepRunning, polls⟩ := drains
  exact ⟨polls, draining_traced hq free (fun _ => .any _) (fun _ => .any _) (.any _) polls env⟩

end Ring.Models

namespace Chain.Models

variable {q : Chain α} {t : Tape α} (hq : q.Models t) (env : F)

include hq

theorem fills {call : Call (Chain α) F} (fills : Chain.Fills call) :
    ∃ polls, call.Traced AtCapacity 3 True polls q env := by
  obtain ⟨free, supply, wait, keepRunning, polls⟩ := fills
  exact ⟨polls, filling_client_traced polls env hq supply wait keepRunning⟩

theorem drains {call : Call (Chain α) F} (drains : Chain.Drains call) :
    ∃ polls, call.Traced HeadUnwritten 1 True polls q env := by
  obtain ⟨free, consume, wait, keepRunning, polls⟩ := drains
  exact ⟨polls, draining_traced polls env hq (fun _ => .any _) (fun _ => .any _) (.any _)⟩

end Chain.Models

theorem HaltsOnly.own {R : Type} [Channel R α] {shared : Bool} {h : Handles} {β : Type}
    (work : F → β × F) :
    HaltsOnly False ((Client.own work : Client α F shared h β).run : Act (World R F) β) :=
  fun _ => trivial

/-- If no callback halts, the calls of a ring end unless they run out of polls. -/
structure Ring.Complete (q : Ring α) (memory : F) : Prop where
  fill : ∀ (supply : F → α × F) (wait : UInt64 → F → UInt64 × F) (keepRunning : F → Bool × F)
    (polls : Nat), (filling (.onMemory supply) (fun counter => .onMemory (wait counter))
      (.onMemory keepRunning) polls).Completes q memory polls
  drain : ∀ (consume : α → F → F) (wait : UInt64 → F → UInt64 × F) (keepRunning : F → Bool × F)
    (polls : Nat), (draining (fun v => .onMemory fun memory => ((), consume v memory))
      (fun counter => .onMemory (wait counter)) (.onMemory keepRunning) polls).Completes q memory
        polls

/-- The same for a chain. It cannot be filled while a chunk is being linked. -/
structure Chain.Complete (q : Chain α) (memory : F) : Prop where
  fill : Index.linking q.producerIndex = false →
    ∀ (supply : F → α × F) (wait : UInt64 → F → UInt64 × F) (keepRunning : F → Bool × F)
      (polls : Nat), (filling (.onMemory supply) (fun counter => .onMemory (wait counter))
        (.onMemory keepRunning) polls).Completes q memory polls
  drain : ∀ (consume : α → F → F) (wait : UInt64 → F → UInt64 × F) (keepRunning : F → Bool × F)
    (polls : Nat), (draining (fun v => .onMemory fun memory => ((), consume v memory))
      (fun counter => .onMemory (wait counter)) (.onMemory keepRunning) polls).Completes q memory
        polls

theorem Ring.Models.complete {q : Ring α} {f : Fifo α} (hq : q.Models f) (memory : F) :
    q.Complete memory where
  fill supply wait keepRunning polls :=
    (filling_traced (h := .both) hq rfl (.own supply) (fun counter => .own (wait counter))
      (.own keepRunning) polls memory).completes
  drain consume wait keepRunning polls :=
    (draining_traced (h := .both) hq rfl (fun v => .own fun memory => ((), consume v memory))
      (fun counter => .own (wait counter)) (.own keepRunning) polls memory).completes

theorem Chain.Models.complete {q : Chain α} {t : Tape α} (hq : q.Models t) (memory : F) :
    q.Complete memory where
  fill clear supply wait keepRunning polls :=
    (filling_own_traced polls memory hq (hq.unmarked clear) supply wait keepRunning).completes
  drain consume wait keepRunning polls :=
    (draining_traced (h := .both) polls memory hq
      (fun v => .own fun memory => ((), consume v memory)) (fun counter => .own (wait counter))
      (.own keepRunning)).completes

namespace Streaming

/-- The first poll that refuses is the last thing that a call does, and the call returns;
only `fillWith` on a chain goes on until the third refusal in a row. If callbacks do not
halt, no call fails to return but for want of polls. -/
theorem ends_on_refusal {requested maxStep : Nat} {ring₀ : Ring α}
    (accepted : Ring.withSettings requested maxStep = .ok ring₀) {chain₀ : Chain α}
    (made : chain₀.Made) {β γ : Type} (toRing : Client α E false .both β)
    (toChain : Client α E true .both γ) (env : E) :
    let ring := channelAfter (toRing.run ⟨ring₀, env⟩)
    let chain := channelAfter (toChain.run ⟨chain₀, env⟩)
    ∀ {F : Type} (memory : F),
      (∀ call, Ring.Fills call → call.EndsOnRefusal ring memory) ∧
      (∀ call, Ring.Drains call → call.EndsOnRefusal ring memory) ∧
      (∀ call, Chain.Drains call → call.EndsOnRefusal chain memory) ∧
      (∀ call, Chain.Fills call → call.EndsOnThirdRefusal chain memory) ∧
      ring.Complete memory ∧ chain.Complete memory := by
  intro ring chain F memory
  obtain ⟨f, onRing⟩ : ∃ f, ring.Models f := Ring.reached accepted toRing env
  obtain ⟨t, onChain⟩ : ∃ t, chain.Models t := Chain.reached made toChain env
  refine ⟨fun call fills => ?_, fun call drains => ?_, fun call drains => ?_, fun call fills => ?_,
    onRing.complete memory, onChain.complete memory⟩
  · obtain ⟨polls, traced⟩ := onRing.fills memory fills
    exact traced.endsOnRefusal
  · obtain ⟨polls, traced⟩ := onRing.drains memory drains
    exact traced.endsOnRefusal
  · obtain ⟨polls, traced⟩ := onChain.drains memory drains
    exact traced.endsOnRefusal
  · obtain ⟨polls, traced⟩ := onChain.fills memory fills
    exact traced.endsOnThirdRefusal

/-- A ring of four is filled by an exit condition that says three times to go on. -/
theorem ends_on_refusal_fourth :
    let ring : Ring Nat := .ofSize ⟨4, 1⟩
    let chain : Chain Nat := .ofSize ⟨2, 8⟩
    let supply : Client Nat Nat false ⟨false, true⟩ Nat := .own fun n => (n, n)
    let wait (counter : UInt64) : Client Nat Nat false ⟨false, true⟩ UInt64 := .done (counter + 1)
    let exit : Client Nat Nat false ⟨false, true⟩ Bool := .own fun n => (n < 3, n + 1)
    let call := Ring.filling supply.run (fun counter => (wait counter).run) exit.run 9
    Ring.withSettings 4 1 = .ok ring ∧ chain.Made ∧ (verdict (call.run ring 0)).1 = .ok () ∧
      answers (call.log ring 0) = [false, true, true, true] ∧ call.EndsOnRefusal ring 0 := by
  intro ring chain supply wait exit call
  have accepted : Ring.withSettings 4 1 = .ok ring := rfl
  have made : chain.Made := .inl ⟨2, 8, rfl⟩
  have laws := ends_on_refusal accepted made (.done ()) (.done ()) () (0 : Nat)
  have ended := laws.1 call (.intro (h := .both) rfl supply wait exit 9)
  exact ⟨accepted, made, by decide +kernel, by decide +kernel, ended⟩

/-- The filling loop of a chain after an exit condition that says once to go on: it is
polled three more times. -/
theorem fill_polls_after_refusal :
    let chain : Chain Nat := .ofSize ⟨2, 8⟩
    let supply : Client Nat Nat true .both Nat := .own fun n => (n, n)
    let wait (counter : UInt64) : Client Nat Nat true .both UInt64 := .done (counter + 1)
    let exit : Client Nat Nat true .both Bool := .own fun n => (n < 1, n + 1)
    let call := Chain.filling supply.run (fun counter => (wait counter).run) exit.run 9
    chain.Made ∧ Chain.Fills call ∧ answers (call.log chain 0) = [false, false, false, true] ∧
      ¬ call.EndsOnRefusal chain 0 := by
  intro chain supply wait exit call
  have polls : answers (call.log chain 0) = [false, false, false, true] := by decide +kernel
  refine ⟨.inl ⟨2, 8, rfl⟩, .intro (h := .both) rfl supply wait exit 9, polls, fun ended => ?_⟩
  have returned : (verdict (call.run chain 0)).1 = .ok () := by decide +kernel
  cases ran : call.run chain 0 with
  | error e w =>
      rw [ran] at returned
      cases returned
  | ok _ w =>
      obtain ⟨count, before, log, goOn⟩ := ended.returned w ran
      rw [log] at polls
      have again : answers before = [false, false, true] := List.tail_eq_of_cons_eq polls
      have refused : false ∈ answers before := by rw [again]; exact List.mem_cons_self
      rw [goOn] at refused
      exact absurd (List.eq_of_mem_replicate refused) Bool.false_ne_true

/-- As long as the exit condition does not take back a refusal, an idle call is given what
the last one answered, or zero at first and after progress. It is made right after an
attempt that found the queue full, or empty, or its next element not written, and each
attempt right after a poll that says to go on. -/
theorem waits_in_turn {requested maxStep : Nat} {ring₀ : Ring α}
    (accepted : Ring.withSettings requested maxStep = .ok ring₀) {chain₀ : Chain α}
    (made : chain₀.Made) {β γ : Type} (toRing : Client α E false .both β)
    (toChain : Client α E true .both γ) (env : E) :
    let ring := channelAfter (toRing.run ⟨ring₀, env⟩)
    let chain := channelAfter (toChain.run ⟨chain₀, env⟩)
    ∀ {F : Type} (memory : F),
      (∀ call, Ring.Fills call → call.WaitsInTurn ring memory Ring.AtCapacity) ∧
      (∀ call, Ring.Drains call → call.WaitsInTurn ring memory Ring.Exhausted) ∧
      (∀ call, Chain.Fills call → call.WaitsInTurn chain memory Chain.AtCapacity) ∧
      (∀ call, Chain.Drains call → call.WaitsInTurn chain memory Chain.HeadUnwritten) := by
  intro ring chain F memory
  obtain ⟨f, onRing⟩ : ∃ f, ring.Models f := Ring.reached accepted toRing env
  obtain ⟨t, onChain⟩ : ∃ t, chain.Models t := Chain.reached made toChain env
  refine ⟨fun call fills => ?_, fun call drains => ?_, fun call fills => ?_, fun call drains => ?_⟩
  · obtain ⟨polls, traced⟩ := onRing.fills memory fills
    exact traced.waitsInTurn
  · obtain ⟨polls, traced⟩ := onRing.drains memory drains
    exact traced.waitsInTurn
  · obtain ⟨polls, traced⟩ := onChain.fills memory fills
    exact traced.waitsInTurn
  · obtain ⟨polls, traced⟩ := onChain.drains memory drains
    exact traced.waitsInTurn

/-- The consumer of an empty chain waits twice, until the exit condition offers an element
by the way. It is given zero, then what the first call answered, and zero again after it
has consumed the element. -/
theorem waits_in_turn_interrupted :
    let ring : Ring Nat := .ofSize ⟨4, 1⟩
    let chain : Chain Nat := .ofSize ⟨2, 8⟩
    let consume (_ : Nat) : Client Nat Nat true ⟨true, false⟩ Unit := .done ()
    let wait (counter : UInt64) : Client Nat Nat true ⟨true, false⟩ UInt64 := .done (counter + 5)
    let exit : Client Nat Nat true ⟨true, false⟩ Bool :=
      .bind (.own fun n => (n, n + 1)) fun n =>
        if n = 2 then .bind (.call rfl (.offer 7)) fun _ => .done true else .done (n < 4)
    let call := Chain.draining (fun v => (consume v).run) (fun counter => (wait counter).run)
      exit.run 9
    Ring.withSettings 4 1 = .ok ring ∧ chain.Made ∧
      (call.log chain 0).filterMap (fun | .idle _ counter => some counter | _ => none) = [0, 5, 0] ∧
      Orderly Chain.HeadUnwritten (call.log chain 0) := by
  intro ring chain consume wait exit call
  have accepted : Ring.withSettings 4 1 = .ok ring := rfl
  have made : chain.Made := .inl ⟨2, 8, rfl⟩
  have laws := waits_in_turn accepted made (.done ()) (.done ()) () (0 : Nat)
  have turns : call.WaitsInTurn chain 0 Chain.HeadUnwritten :=
    laws.2.2.2 call (.intro (h := .both) rfl consume wait exit 9)
  exact ⟨accepted, made, by decide +kernel, turns.orderly⟩

end Streaming
end Handoff
