import Handoff.Proofs.RingFifo
import Handoff.Proofs.StreamingLoops

/-! The streaming calls of a ring. What one exit poll allows is an attempt of the loop:
a run of elements or one element on the producer's side, one element on the consumer's.
An attempt that moves nothing has found the ring full, or empty, and the wait strategy
is called before anything can change that. -/
namespace Handoff.Ring

open Streaming

variable {α β E : Type} {h : Handles}

/-- Supplies as many elements as one probe ahead allows, or one if there is room for one,
and tells how many. -/
def fillAttempt (supply : Act (World (Ring α) E) α) (index : Nat) :
    Act (World (Ring α) E) (Option Nat) := do
  if ← Act.onQueue (Act.view (·.vacantAhead index)) then
    let lookAhead ← Act.onQueue (Act.view lookAhead)
    supplyRun supply index lookAhead
    return some lookAhead
  else if ← Act.onQueue (Act.view (·.vacantAt index)) then
    supplyAt supply index
    return some 1
  else
    return none

theorem supplyAt_watches (supply : Act (World (Ring α) E) α) (index : Nat) :
    Watches (supplyAt (watchSupply supply) index) (supplyAt supply index) :=
  (Watches.supply supply).bind fun v => .onQueue (publish index v)

theorem supplyRun_watches (supply : Act (World (Ring α) E) α) (index count : Nat) :
    Watches (supplyRun (watchSupply supply) index count) (supplyRun supply index count) := by
  induction count generalizing index with
  | zero => exact .pure ()
  | succ count ih => exact (supplyAt_watches supply index).bind fun _ => ih (index + 1)

theorem fillAttempt_watches (supply : Act (World (Ring α) E) α) (index : Nat) :
    Watches (fillAttempt (watchSupply supply) index) (fillAttempt supply index) := by
  refine (Watches.onQueue _).bind fun ahead => ?_
  cases ahead with
  | true =>
      refine (Watches.onQueue _).bind fun lookAhead => ?_
      exact (supplyRun_watches supply index lookAhead).bind fun _ => .pure (some lookAhead)
  | false =>
      refine (Watches.onQueue _).bind fun vacant => ?_
      cases vacant with
      | true => exact (supplyAt_watches supply index).bind fun _ => .pure (some 1)
      | false => exact .pure none

theorem supplyAt_adds (supply : Act (World (Ring α) E) α) (index before : Nat) :
    Adds before (fun _ => before + 1) (supplyAt (watchSupply supply) index) :=
  (Adds.supply supply).bind fun v => .onQueue (publish index v)

theorem supplyRun_adds (supply : Act (World (Ring α) E) α) (count : Nat) :
    ∀ index before,
      Adds before (fun _ => before + count) (supplyRun (watchSupply supply) index count) := by
  induction count with
  | zero => exact fun index before => .pure ()
  | succ count ih =>
      intro index before
      have rest := ih (index + 1) (before + 1)
      rw [Nat.add_right_comm] at rest
      exact (supplyAt_adds supply index before).bind fun _ => rest

theorem fillAttempt_adds (supply : Act (World (Ring α) E) α) (index : Nat) :
    Adds 0 (·.getD 0) (fillAttempt (watchSupply supply) index) := by
  refine (Adds.onQueue _).bind fun ahead => ?_
  cases ahead with
  | true =>
      refine (Adds.onQueue _).bind fun lookAhead => ?_
      refine (supplyRun_adds supply lookAhead index 0).bind fun _ => ?_
      rw [Nat.zero_add]
      exact .pure (some lookAhead)
  | false =>
      refine (Adds.onQueue _).bind fun vacant => ?_
      cases vacant with
      | true => exact (supplyAt_adds supply index 0).bind fun _ => .pure (some 1)
      | false => exact .pure none

theorem fillLoop_eq_turns (supply : Act (World (Ring α) E) α)
    (wait : UInt64 → Act (World (Ring α) E) UInt64) (keepRunning : Act (World (Ring α) E) Bool) :
    ∀ polls index counter, fillLoop supply wait keepRunning polls index counter =
      turns (fillAttempt supply) wait keepRunning polls index counter := by
  refine eq_turns (fun _ _ => rfl) fun polls index counter => ?_
  rw [fillLoop, fillAttempt]
  congr 1
  funext goesOn
  congr 1
  rw [bind_assoc]
  congr 1
  funext ahead
  cases ahead with
  | true => simp only [if_true, bind_assoc, pure_bind, Option.elim_some]
  | false =>
      simp only [Bool.false_eq_true, if_false, bind_assoc]
      congr 1
      funext vacant
      cases vacant with
      | true => simp only [if_true, bind_assoc, pure_bind, Option.elim_some]
      | false => simp only [Bool.false_eq_true, if_false, pure_bind, Option.elim_none]

theorem drainLoop_eq_turns (consume : α → Act (World (Ring α) E) Unit)
    (wait : UInt64 → Act (World (Ring α) E) UInt64) (keepRunning : Act (World (Ring α) E) Bool) :
    ∀ polls index counter, drainLoop consume wait keepRunning polls index counter =
      turns (fun index => drainAttempt (Act.onQueue (pollAt index)) consume) wait keepRunning polls
        index counter := by
  refine eq_turns (fun _ _ => rfl) fun polls index counter => ?_
  simp only [drainLoop, drainAttempt_bind]
  congr 1
  funext goesOn
  congr 1
  congr 1
  funext found
  cases found <;> rfl

def filling (supply : Act (World (Ring α) E) α) (wait : UInt64 → Act (World (Ring α) E) UInt64)
    (keepRunning : Act (World (Ring α) E) Bool) (polls : Nat) : Call (Ring α) E where
  plain := fillWith supply wait keepRunning polls
  watched := do
    turns (fun index => watchAttempt (fillAttempt (watchSupply supply) index)) (watchWait wait)
      (watchExit keepRunning) polls (← Act.onQueue (Act.view producerIndex)) 0

def draining (consume : α → Act (World (Ring α) E) Unit)
    (wait : UInt64 → Act (World (Ring α) E) UInt64) (keepRunning : Act (World (Ring α) E) Bool)
    (polls : Nat) : Call (Ring α) E where
  plain := drainWith consume wait keepRunning polls
  watched := do
    turns
      (fun index => watchAttempt (drainAttempt (Act.onQueue (pollAt index)) (watchConsume consume)))
      (watchWait wait) (watchExit keepRunning) polls (← Act.onQueue (Act.view consumerIndex)) 0

def AtCapacity (q : Ring α) : Prop := q.length = q.capacity

def Exhausted (q : Ring α) : Prop := q.length = 0

/-- The ring holds a list with this count of elements ever appended, or ever removed. -/
def Counts (count : Fifo α → Nat) (index : Nat) (q : Ring α) : Prop :=
  ∃ f, q.Models f ∧ count f = index

variable {mayHalt : Prop}

theorem keeps_counts {lent : Handles} {count : Fifo α → Nat}
    (same : ∀ f g, Fifo.Later lent f g → count g = count f) {act : Act (World (Ring α) E) β}
    {act' : Act (World (Fifo α) E) β} (ha : Follows Models (Fifo.moves α lent) act act')
    (halts : HaltsOnly mayHalt act') (index : Nat) : Keeps (Counts count index) mayHalt act := by
  rintro q env ⟨f, hq, rfl⟩
  refine ((ha ⟨q, env⟩ ⟨f, env⟩ ⟨rfl, hq⟩).outcome (halts ⟨f, env⟩)).imp ?_
  rintro _ w ⟨v, ⟨⟨-, models⟩, later⟩, -⟩
  exact ⟨v.queue, models, same f v.queue later⟩

theorem keeps_produced (client : Client α E false (h.lend false .producer) β)
    (halts : HaltsOnly mayHalt (client.run (Q := Fifo α))) (index : Nat) :
    Keeps (Counts Fifo.produced index) mayHalt (client.run (Q := Ring α)) :=
  keeps_counts (fun _ _ later => later.produced rfl) ((fifo α).tracks client) halts index

theorem keeps_consumed (client : Client α E false (h.lend false .consumer) β)
    (halts : HaltsOnly mayHalt (client.run (Q := Fifo α))) (index : Nat) :
    Keeps (Counts Fifo.consumed index) mayHalt (client.run (Q := Ring α)) :=
  keeps_counts (fun _ _ later => later.consumed rfl) ((fifo α).tracks client) halts index

theorem supplyOne_halts {supply : Act (World (Fifo α) E) α} (halts : HaltsOnly mayHalt supply) :
    HaltsOnly mayHalt (Fifo.supplyOne supply) :=
  halts.bind fun _ _ => trivial

theorem supplyRun_halts {supply : Act (World (Fifo α) E) α} (halts : HaltsOnly mayHalt supply)
    (count : Nat) : HaltsOnly mayHalt (Fifo.supplyRun supply count) := by
  induction count with
  | zero => exact fun _ => trivial
  | succ count ih => exact (supplyOne_halts halts).bind fun _ => ih

theorem fillAttempt_outcome (free : h.has .producer = true)
    (supply : Client α E false (h.lend false .producer) α)
    (halts : HaltsOnly mayHalt (supply.run (Q := Fifo α))) {index : Nat} {q : Ring α}
    (hq : Counts Fifo.produced index q) (env : E) :
    Outcome (fun found w => Turn (Counts Fifo.produced) AtCapacity index found w.queue)
      (fun _ _ => mayHalt) (fillAttempt supply.run index ⟨q, env⟩) := by
  obtain ⟨f, hq, rfl⟩ := hq
  have hb := hq.balance
  have hpos := hq.burst_pos
  have hs := (fifo α).tracks supply
  have start : Filling h ⟨f, env⟩ f.produced ⟨q, env⟩ ⟨f, env⟩ := ⟨⟨⟨rfl, hq⟩, .refl h f⟩, rfl⟩
  rw [fillAttempt, Act.bind_onQueue_view, hq.vacantAhead_produced]
  split
  next ahead =>
      have ahead := of_decide_eq_true ahead
      have run := supplyRun_agree free hs f.burst f.produced _ _ start (by simp only; omega)
      rw [Act.bind_onQueue_view, hq.lookAhead]
      refine (run.outcome (supplyRun_halts halts f.burst _)).bind ?_
      rintro _ w ⟨v, ⟨⟨⟨-, models⟩, -⟩, produced⟩, -⟩
      exact ⟨⟨v.queue, models, produced⟩, by simpa using Nat.ne_of_gt hpos, by simp⟩
  next =>
      rw [Act.bind_onQueue_view, hq.vacantAt_produced]
      cases full : f.isFull with
      | false =>
          have room : f.items.length < f.capacity := by simpa [Fifo.isFull] using full
          have one := supplyAt_agree free hs start (by simp only; omega)
          refine (one.outcome (supplyOne_halts halts _)).bind ?_
          rintro _ w ⟨v, ⟨⟨⟨⟨-, models⟩, -⟩, produced⟩, -⟩, -⟩
          exact ⟨⟨v.queue, models, produced⟩, by simp, by simp⟩
      | true =>
          have full : f.capacity ≤ f.items.length := by simpa [Fifo.isFull] using full
          refine ⟨⟨f, hq, rfl⟩, by simp, fun _ => ?_⟩
          rw [AtCapacity, hq.length_eq, hq.capacity_eq]
          exact Nat.le_antisymm hq.bound full

theorem poll_outcome (f : Fifo α) (env : E) :
    Outcome (fun found v => found = none → v.queue.items = []) (fun _ _ => mayHalt)
      (Act.onQueue Fifo.poll ⟨f, env⟩) := by
  cases items : f.items with
  | nil =>
      have none : Fifo.poll f = .ok none f := by rw [Fifo.poll, Act.bind_view, items]; rfl
      rw [Act.onQueue_ok none]
      exact fun _ => items
  | cons v rest =>
      have some : Fifo.poll f =
          .ok (some v) { f with items := rest, consumed := f.consumed + 1 } := by
        rw [Fifo.poll, Act.bind_view, items]
        rfl
      rw [Act.onQueue_ok some]
      exact fun found => by cases found

theorem drainAttempt_outcome (free : h.has .consumer = true)
    (consume : α → Client α E false (h.lend false .consumer) Unit)
    (halts : ∀ v, HaltsOnly mayHalt ((consume v).run (Q := Fifo α))) {index : Nat} {q : Ring α}
    (hq : Counts Fifo.consumed index q) (env : E) :
    Outcome (fun found w => Turn (Counts Fifo.consumed) Exhausted index found w.queue)
      (fun _ _ => mayHalt)
      (drainAttempt (Act.onQueue (pollAt index)) (fun v => (consume v).run) ⟨q, env⟩) := by
  obtain ⟨f, hq, rfl⟩ := hq
  have start : Draining h ⟨f, env⟩ f.consumed ⟨q, env⟩ ⟨f, env⟩ := ⟨⟨⟨rfl, hq⟩, .refl h f⟩, rfl⟩
  refine ((start.pollAt free).outcome (poll_outcome f env)).bind ?_
  rintro found ⟨q', env'⟩ ⟨⟨f', _⟩, ⟨⟨⟨rfl, models⟩, -⟩, consumed⟩, empty⟩
  cases found with
  | none =>
      refine ⟨⟨f', models, consumed⟩, by simp, fun _ => ?_⟩
      rw [Exhausted, models.length_eq, empty rfl, List.length_nil]
  | some v =>
      have kept := keeps_consumed (consume v) (halts v) (f.consumed + 1) q' env'
        ⟨f', models, consumed⟩
      exact kept.bind fun _ w consumed => ⟨consumed, by simp, by simp⟩

theorem filling_watches (supply : Act (World (Ring α) E) α)
    (wait : UInt64 → Act (World (Ring α) E) UInt64) (keepRunning : Act (World (Ring α) E) Bool)
    (polls : Nat) :
    Watches (filling supply wait keepRunning polls).watched
      (filling supply wait keepRunning polls).plain := by
  refine (Watches.onQueue _).bind fun index => ?_
  rw [fillLoop_eq_turns]
  exact turns_watches (fillAttempt_watches supply) wait keepRunning polls index 0

theorem draining_watches (consume : α → Act (World (Ring α) E) Unit)
    (wait : UInt64 → Act (World (Ring α) E) UInt64) (keepRunning : Act (World (Ring α) E) Bool)
    (polls : Nat) :
    Watches (draining consume wait keepRunning polls).watched
      (draining consume wait keepRunning polls).plain := by
  refine (Watches.onQueue _).bind fun index => ?_
  rw [drainLoop_eq_turns]
  exact turns_watches (fun index => drainAttempt_watches (pollAt index) consume) wait keepRunning
    polls index 0

theorem filling_traced {q : Ring α} {f : Fifo α} (hq : q.Models f) (free : h.has .producer = true)
    {supply : Client α E false (h.lend false .producer) α}
    {wait : UInt64 → Client α E false (h.lend false .producer) UInt64}
    {keepRunning : Client α E false (h.lend false .producer) Bool}
    (hs : HaltsOnly mayHalt (supply.run (Q := Fifo α)))
    (hw : ∀ counter, HaltsOnly mayHalt ((wait counter).run (Q := Fifo α)))
    (hk : HaltsOnly mayHalt (keepRunning.run (Q := Fifo α))) (polls : Nat) (env : E) :
    (filling supply.run (fun counter => (wait counter).run) keepRunning.run polls).Traced
      AtCapacity 1 mayHalt polls q env where
  same := filling_watches _ _ _ polls q env []
  outcome := by
    have start : Counts Fifo.produced q.producerIndex q := ⟨f, hq, hq.produced.symm⟩
    have tries := fun index => (fillAttempt_watches supply.run index).tries
      (fillAttempt_adds supply.run index)
      fun _ env hq => fillAttempt_outcome free supply hs hq env
    have outcome := turns_outcome tries
      (fun index counter => keeps_produced (wait counter) (hw counter) index)
      (fun index => keeps_produced keepRunning hk index) polls
      q.producerIndex 0 q env [] start (.start _ 0 0)
    rwa [answers_nil, Nat.zero_add] at outcome

theorem draining_traced {q : Ring α} {f : Fifo α} (hq : q.Models f) (free : h.has .consumer = true)
    {consume : α → Client α E false (h.lend false .consumer) Unit}
    {wait : UInt64 → Client α E false (h.lend false .consumer) UInt64}
    {keepRunning : Client α E false (h.lend false .consumer) Bool}
    (hc : ∀ v, HaltsOnly mayHalt ((consume v).run (Q := Fifo α)))
    (hw : ∀ counter, HaltsOnly mayHalt ((wait counter).run (Q := Fifo α)))
    (hk : HaltsOnly mayHalt (keepRunning.run (Q := Fifo α))) (polls : Nat) (env : E) :
    (draining (fun v => (consume v).run) (fun counter => (wait counter).run) keepRunning.run
      polls).Traced Exhausted 1 mayHalt polls q env where
  same := draining_watches _ _ _ polls q env []
  outcome := by
    have start : Counts Fifo.consumed q.consumerIndex q := ⟨f, hq, hq.consumed.symm⟩
    have tries := fun index => (drainAttempt_watches (pollAt index) fun v => (consume v).run).tries
      (drainAttempt_adds (pollAt index) fun v => (consume v).run)
      fun _ env hq => drainAttempt_outcome free consume hc hq env
    have outcome := turns_outcome tries
      (fun index counter => keeps_consumed (wait counter) (hw counter) index)
      (fun index => keeps_consumed keepRunning hk index) polls
      q.consumerIndex 0 q env [] start (.start _ 0 0)
    rwa [answers_nil, Nat.zero_add] at outcome

end Handoff.Ring
