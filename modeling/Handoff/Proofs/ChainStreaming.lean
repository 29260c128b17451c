import Handoff.Proofs.ChainFill
import Handoff.Proofs.ChainLayout
import Handoff.Proofs.StreamingLoops

/-! The streaming calls of a chain. A batch that takes nothing has found the chain full
of claimed elements, written or not. Its consumer stops at the first index that is not
written, also if later ones are. -/
namespace Handoff

open Streaming

variable {α β E : Type} {mayHalt : Prop} {h : Handles}

namespace Tape

theorem fill_outcome {v : World (Tape α) E} (valid : v.queue.Valid)
    (supply : Act (World (Tape α) E) α) (wanted : Nat) (some : 0 < wanted) :
    Outcome
      (fun count w => count = 0 → w.queue.claimed = w.queue.consumed + w.queue.size.capacity)
      (fun _ _ => True) (fill supply wanted v) := by
  cases hm : v.queue.marked with
  | true =>
      have claim : claim wanted v.queue = .error .spinning v.queue := by
        rw [claim, Act.bind_view, hm]
        rfl
      rw [fill, Act.bind_error (Act.onQueue_error claim)]
      trivial
  | false =>
      have claim := claim_open hm wanted
      cases hr : v.queue.room with
      | full =>
          rw [hr] at claim
          rw [fill, Act.bind_ok (Act.onQueue_ok claim)]
          exact fun _ => valid.room_full hr
      | below limit =>
          rw [hr] at claim
          obtain ⟨-, hlt, -, -⟩ := valid.room_below hr
          rw [fill, Act.bind_ok (Act.onQueue_ok claim)]
          refine (HaltsOnly.any _ _).bind fun _ w _ none => ?_
          omega
      | link =>
          rw [hr] at claim
          rw [fill, Act.bind_ok (Act.onQueue_ok claim)]
          refine (HaltsOnly.any _ _).bind fun _ w _ => ?_
          exact fun none => by cases none

end Tape

namespace Chain

def filling (supply : Act (World (Chain α) E) α) (wait : UInt64 → Act (World (Chain α) E) UInt64)
    (keepRunning : Act (World (Chain α) E) Bool) (polls : Nat) : Call (Chain α) E where
  plain := fillWith supply wait keepRunning polls
  watched := Loop.fillPhases (watchAttempt (fill (watchSupply supply) batch)) (watchWait wait)
    (watchExit keepRunning) polls .opening

def draining (consume : α → Act (World (Chain α) E) Unit)
    (wait : UInt64 → Act (World (Chain α) E) UInt64) (keepRunning : Act (World (Chain α) E) Bool)
    (polls : Nat) : Call (Chain α) E where
  plain := drainWith consume wait keepRunning polls
  watched := turns
    (fun _ => watchAttempt (drainAttempt (Act.onQueue relaxedPoll) (watchConsume consume)))
    (watchWait wait) (watchExit keepRunning) polls 0 0

theorem fill_shadows {F : Type} {supply : Act (World (Chain α) (E × F)) α}
    {plain : Act (World (Chain α) E) α} (hs : Shadows supply plain) (wanted : Nat) :
    Shadows (fill supply wanted) (fill plain wanted) :=
  (coupled (Shadows.onQueue_coupled (Chain α) E F)).fill hs wanted

theorem fill_watches (supply : Act (World (Chain α) E) α) (wanted : Nat) :
    Watches (fill (watchSupply supply) wanted) (fill supply wanted) :=
  watches_iff.mpr (fill_shadows (watches_iff.mp (Watches.supply supply)) wanted)

theorem writeRun_adds (supply : Act (World (Chain α) E) α) (cursor : Cursor) (count : Nat) :
    ∀ index before, Adds before (fun _ => before + count)
      (writeRun (watchSupply supply) cursor index count) := by
  induction count with
  | zero => exact fun index before => .pure ()
  | succ count ih =>
      intro index before
      have rest := ih (index + 2) (before + 1)
      rw [Nat.add_right_comm] at rest
      exact (Adds.supply supply).bind fun v =>
        (Adds.onQueue (put cursor index v)).bind fun _ => rest

theorem fill_adds (supply : Act (World (Chain α) E) α) (wanted : Nat) :
    Adds 0 id (fill (watchSupply supply) wanted) := by
  refine (Adds.onQueue (claim wanted)).bind fun claim => ?_
  cases claim with
  | full => exact .pure 0
  | run site count =>
      have run := writeRun_adds supply site.cursor count site.index 0
      rw [Nat.zero_add] at run
      exact run.bind fun _ => .pure count
  | link site =>
      exact (Adds.supply supply).bind fun v =>
        (Adds.onQueue (extend site v)).bind fun _ => .pure 1

def AtCapacity (q : Chain α) : Prop := q.length = q.capacity

/-- The slot that the consumer looks at is empty: the next element is not claimed yet or
not written yet. -/
def HeadUnwritten (q : Chain α) : Prop :=
  q.store.slot? q.head.chunk (q.consumed % q.chunkSize) = some .empty

def Modeled (q : Chain α) : Prop := ∃ t, q.Models t

theorem keeps_modeled (client : Client α E true h β)
    (halts : HaltsOnly mayHalt (client.run (Q := Tape α))) :
    Keeps Modeled mayHalt (client.run (Q := Chain α)) := by
  rintro q env ⟨t, hq⟩
  have agree := (tape α).tracks client ⟨q, env⟩ ⟨t, env⟩ ⟨rfl, hq⟩
  refine (agree.outcome (halts ⟨t, env⟩)).imp ?_
  rintro _ w ⟨v, ⟨⟨-, models⟩, -⟩, -⟩
  exact ⟨v.queue, models⟩

theorem fill_outcome (supply : Client α E true h α) {q : Chain α} (hq : q.Modeled) (env : E) :
    Outcome (fun count w => Round Modeled AtCapacity count w.queue) (fun _ _ => True)
      (fill supply.run batch ⟨q, env⟩) := by
  obtain ⟨t, hq⟩ := hq
  have onTape := Tape.fill_outcome (v := ⟨t, env⟩) hq.valid supply.run batch (by decide)
  have agree := fill_tracks ((tape α).tracks supply) batch ⟨q, env⟩ ⟨t, env⟩ ⟨rfl, hq⟩
  refine (agree.outcome onTape).imp ?_
  rintro count w ⟨v, ⟨⟨-, models⟩, -⟩, full⟩
  exact ⟨⟨v.queue, models⟩, fun none => models.length_eq_capacity_iff.mpr (full none)⟩

theorem relaxedPoll_outcome {q : Chain α} (hq : q.Modeled) (env : E) :
    Outcome (fun found w => w.queue.Modeled ∧ (found = none → w.queue.HeadUnwritten))
      (fun _ _ => mayHalt) (Act.onQueue relaxedPoll ⟨q, env⟩) := by
  obtain ⟨t, hq⟩ := hq
  obtain ⟨q', harr, models, settled⟩ := hq.arrive
  cases hv : t.written t.consumed with
  | none =>
      have none : relaxedPoll q = .ok none q' := by rw [relaxedPoll, Act.bind_ok harr, hv]; rfl
      rw [Act.onQueue_ok none]
      refine ⟨⟨t, models⟩, fun _ => ?_⟩
      obtain ⟨ch, hch⟩ := models.head_live
      have slot := models.head_slot hch
      rw [Models.settled_content settled, hv] at slot
      rw [HeadUnwritten, models.consumed_eq, models.chunkSize_eq, Arena.slot?_eq hch.found]
      exact slot
  | some v =>
      have some : relaxedPoll q = .ok (some v) (Models.taken q' t) := by
        rw [relaxedPoll, Act.bind_ok harr, hv]
        exact Act.bind_ok (models.takeHead_ok settled hv) _
      rw [Act.onQueue_ok some]
      exact ⟨⟨_, models.taken_models settled hv⟩, by simp⟩

theorem drainAttempt_outcome (consume : α → Client α E true h Unit)
    (halts : ∀ v, HaltsOnly mayHalt ((consume v).run (Q := Tape α))) (index : Nat) {q : Chain α}
    (hq : q.Modeled) (env : E) :
    Outcome (fun found w => Turn (fun _ => Modeled) HeadUnwritten index found w.queue)
      (fun _ _ => mayHalt)
      (drainAttempt (Act.onQueue relaxedPoll) (fun v => (consume v).run) ⟨q, env⟩) := by
  refine (relaxedPoll_outcome hq env).bind ?_
  rintro found ⟨q', env'⟩ ⟨modeled, unwritten⟩
  cases found with
  | none => exact ⟨modeled, by simp, fun _ => unwritten rfl⟩
  | some v =>
      have kept := keeps_modeled (consume v) (halts v) q' env' modeled
      exact kept.bind fun _ w modeled => ⟨modeled, by simp, by simp⟩

/-- The chain holds a tape, and no chunk is being linked. -/
def Open (q : Chain α) : Prop := ∃ t, q.Models t ∧ t.marked = false

theorem fill_own_outcome (supply : E → α × E) {q : Chain α} (hq : q.Open) (env : E) :
    Outcome (fun count w => Round Open AtCapacity count w.queue) (fun _ _ => False)
      (fill (Client.own supply : Client α E true .both α).run batch ⟨q, env⟩) := by
  obtain ⟨t, hq, unmarked⟩ := hq
  obtain ⟨u, ran, -, unmarked'⟩ := Tape.fill_share hq.valid unmarked supply batch env
  have hs := (tape α).tracks (Client.own supply : Client α E true .both α)
  have full := Tape.fill_outcome (v := ⟨t, env⟩) hq.valid
    (Client.own supply : Client α E true .both α).run batch (by decide)
  have agree := fill_tracks hs batch ⟨q, env⟩ ⟨t, env⟩ ⟨rfl, hq⟩
  rw [ran] at full agree
  generalize fill (Client.own supply : Client α E true .both α).run batch ⟨q, env⟩ = x at agree ⊢
  cases agree with
  | ok h =>
      obtain ⟨⟨-, models⟩, -⟩ := h
      exact ⟨⟨u, models, unmarked'⟩, fun none => models.length_eq_capacity_iff.mpr (full none)⟩

theorem keeps_open (work : E → β × E) :
    Keeps Open False (Client.own work : Client α E true .both β).run (Q := Chain α) := by
  intro q env hq
  exact hq

section Calls

variable {q : Chain α} (polls : Nat) (env : E)

theorem filling_traced {inv : Chain α → Prop} (hq : inv q) {supply : Act (World (Chain α) E) α}
    {wait : UInt64 → Act (World (Chain α) E) UInt64} {keepRunning : Act (World (Chain α) E) Bool}
    (fills : ∀ q env, inv q →
      Outcome (fun count w => Round inv AtCapacity count w.queue) (fun _ _ => mayHalt)
        (fill supply batch ⟨q, env⟩))
    (waits : ∀ counter, Keeps inv mayHalt (wait counter)) (exits : Keeps inv mayHalt keepRunning) :
    (filling supply wait keepRunning polls).Traced AtCapacity 3 mayHalt polls q env where
  same := fillPhases_watches (fill_watches supply batch) wait keepRunning polls .opening q env []
  outcome := by
    have tries := (fill_watches supply batch).tries (fill_adds supply batch) fills
    have outcome := fillPhases_outcome tries waits exits polls .opening q env [] hq (.start _ 2 2)
    rwa [answers_nil, Nat.zero_add] at outcome

theorem filling_client_traced {t : Tape α} (hq : q.Models t)
    (supply : Client α E true (h.lend true .producer) α)
    (wait : UInt64 → Client α E true (h.lend true .producer) UInt64)
    (keepRunning : Client α E true (h.lend true .producer) Bool) :
    (filling supply.run (fun counter => (wait counter).run) keepRunning.run polls).Traced
      AtCapacity 3 True polls q env :=
  filling_traced polls env ⟨t, hq⟩ (fun _ env hq => fill_outcome supply hq env)
    (fun counter => keeps_modeled (wait counter) (.any _))
    (keeps_modeled keepRunning (.any _))

theorem filling_own_traced {t : Tape α} (hq : q.Models t) (unmarked : t.marked = false)
    (supply : E → α × E) (wait : UInt64 → E → UInt64 × E) (keepRunning : E → Bool × E) :
    (filling (Client.own supply : Client α E true .both α).run
      (fun counter => (Client.own (wait counter) : Client α E true .both UInt64).run)
      (Client.own keepRunning : Client α E true .both Bool).run polls).Traced
      AtCapacity 3 False polls q env :=
  filling_traced polls env ⟨t, hq, unmarked⟩ (fun _ env hq => fill_own_outcome supply hq env)
    (fun counter => keeps_open (wait counter)) (keeps_open keepRunning)

theorem draining_traced {t : Tape α} (hq : q.Models t)
    {consume : α → Client α E true (h.lend true .consumer) Unit}
    {wait : UInt64 → Client α E true (h.lend true .consumer) UInt64}
    {keepRunning : Client α E true (h.lend true .consumer) Bool}
    (hc : ∀ v, HaltsOnly mayHalt ((consume v).run (Q := Tape α)))
    (hw : ∀ counter, HaltsOnly mayHalt ((wait counter).run (Q := Tape α)))
    (hk : HaltsOnly mayHalt (keepRunning.run (Q := Tape α))) :
    (draining (fun v => (consume v).run) (fun counter => (wait counter).run) keepRunning.run
      polls).Traced HeadUnwritten 1 mayHalt polls q env where
  same := by
    have watches := turns_watches
      (fun _ => drainAttempt_watches relaxedPoll fun v => (consume v).run)
      (fun counter => (wait counter).run) keepRunning.run polls 0 0
    rw [← drainLoop_eq_turns] at watches
    exact watches q env []
  outcome := by
    have tries := fun index =>
      (drainAttempt_watches relaxedPoll fun v => (consume v).run).tries
        (drainAttempt_adds relaxedPoll fun v => (consume v).run)
        fun _ env hq => drainAttempt_outcome consume hc index hq env
    have outcome := turns_outcome tries
      (fun _ counter => keeps_modeled (wait counter) (hw counter))
      (fun _ => keeps_modeled keepRunning hk) polls
      0 0 q env [] ⟨t, hq⟩ (.start _ 0 0)
    rwa [answers_nil, Nat.zero_add] at outcome

end Calls
end Chain
end Handoff
