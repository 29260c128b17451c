import Handoff.Proofs.Quotas
import Handoff.Proofs.RingInterleavingSafety
import Handoff.Workload

/-! Workloads are runs of the machines: a turn of a thread is one move of it, or an order.
So all that is true over every order of steps is true of them. On a chain, where there can
be many producers, the turns are those of a campaign, and each producer is counted for the
parcels that were accepted from it. -/
namespace Handoff.Workload

section Rounds

variable {M Q : Type} [Machine M Q Parcel] {w : Workload} {capacity : Nat} {s s' : Shift M}
  {P : Shift M → Prop}

theorem turnProducers_keep
    (producer : ∀ p s, p < w.producers → P s → P (turnProducer w capacity p s)) {n : Nat}
    (le : n ≤ w.producers) (h : P s) : P (turnProducers w capacity n s) := by
  induction n generalizing s with
  | zero => exact h
  | succ n ih => exact ih (Nat.le_of_succ_le le) (producer n s le h)

/-- What no turn breaks holds when the rounds end. -/
theorem rounds_keep (producer : ∀ p s, p < w.producers → P s → P (turnProducer w capacity p s))
    (consumer : ∀ s, P s → P (turnConsumer w capacity s)) {fuel : Nat} (h : P s)
    (ended : rounds w capacity fuel s = .ok s') : P s' ∧ finished w s' = true := by
  induction fuel generalizing s with
  | zero => cases ended
  | succ fuel ih =>
      rw [rounds] at ended
      split at ended
      next done =>
          cases ended
          exact ⟨h, done⟩
      next => exact ih (consumer _ (turnProducers_keep producer (Nat.le_refl _) h)) ended

end Rounds

section OnRing

variable {w : Workload} {capacity : Nat} {m : RingMachine Parcel}
  {s s' : Shift (RingMachine Parcel)}

/-- The ring that a workload has come to is one that the moves of its threads lead to. -/
def Replays (m : RingMachine Parcel) (s : Shift (RingMachine Parcel)) : Prop :=
  ∃ moves, s.machine = m.replay moves

theorem Replays.move (h : Replays m s) (move : RingMachine.Move Parcel)
    (moved : s'.machine = s.machine.advance move) : Replays m s' := by
  obtain ⟨moves, same⟩ := h
  exact ⟨moves ++ [move], by rw [moved, same, RingMachine.replay_concat]⟩

theorem Replays.send (h : Replays m s) (p : Nat) : Replays m (send w p s) := by
  unfold Workload.send
  simp only
  split
  · exact h
  · split
    · exact h.move (.tellProducer (.errand (.offer _))) rfl
    · exact h.move (.tellProducer (.errand (.fill _ _))) rfl
    · exact h.move (.tellProducer (.errand (.fill _ _))) rfl

theorem Replays.turnProducer (h : Replays m s) (p : Nat) :
    Replays m (turnProducer w capacity p s) := by
  have credits : ∀ count, Replays m (Workload.credit p count s) :=
    fun _ => h.move (.tellProducer .length) rfl
  unfold Workload.turnProducer
  split
  · exact h.move .producer rfl
  · exact h.send p
  · exact credits 1
  · exact credits _
  · exact credits 0
  next n _ =>
      have looked : Replays m
          { s with withinCapacity := s.withinCapacity && decide (n ≤ capacity) } := h
      exact looked.send p

theorem Replays.receive (h : Replays m s) (seen : Bool) :
    Replays m (receive w capacity seen s) := by
  have polls : ∀ peeked,
      Replays m { s with machine := Machine.tellPoll s.machine, peeked := peeked } :=
    fun _ => h.move (.tellConsumer (.task .poll)) rfl
  unfold Workload.receive
  split
  · exact polls s.peeked
  · exact polls s.peeked
  · cases seen with
    | true => exact polls false
    | false => exact h.move (.tellConsumer (.task .peek)) rfl
  · cases seen with
    | true => exact polls false
    | false => exact h.move (.tellConsumer (.task .peek)) rfl
  · exact h.move (.tellConsumer (.task (.drain 16))) rfl
  · exact h.move (.tellConsumer (.task (.drain capacity))) rfl
  · exact h.move (.tellConsumer (.task (.stream 16))) rfl

theorem Replays.turnConsumer (h : Replays m s) : Replays m (turnConsumer w capacity s) := by
  unfold Workload.turnConsumer
  split
  · exact h.move .consumer rfl
  · split
    · exact h.receive _
    · exact h

theorem rounds_replay {fuel : Nat} (ended : rounds w capacity fuel s = .ok s') :
    Replays s.machine s' :=
  (rounds_keep (P := Replays s.machine) (fun p _ _ h => h.turnProducer p)
    (fun _ h => h.turnConsumer) ⟨[], rfl⟩ ended).1

/-- A workload on a ring keeps to what is true over every order of steps. -/
theorem rounds_safe {requested maxStep : Nat} {ring : Ring Parcel}
    (accepted : Ring.withSettings requested maxStep = .ok ring) (sent : Array Nat) {fuel : Nat}
    (ended : rounds w capacity fuel ⟨.start ring, sent, true, false⟩ = .ok s) :
    s.machine.Safe := by
  obtain ⟨moves, same⟩ := rounds_replay ended
  rw [same]
  exact (RingMachine.reached accepted moves).safe

end OnRing

section OnChain

open ChainMachine

variable {q : Chain Parcel} {w : Workload} {c : Campaign Parcel} {s : Shift (ChainMachine Parcel)}
  {p k : Nat}

/-- Producer `p` has been counted for its first `k` parcels. -/
structure Account (w : Workload) (c : Campaign Parcel) (p k : Nat) : Prop where
  accepted : c.accepted p = k + c.machine.brought p
  le : k ≤ w.per
  within : ∀ pc, c.machine.producers[p]? = some pc → pc.Within (w.per - k)

/-- The workload is where the campaign is. -/
structure Carries (w : Workload) (c : Campaign Parcel) (s : Shift (ChainMachine Parcel)) :
    Prop where
  machine : s.machine = c.machine
  size : s.sent.size = w.producers
  threads : c.machine.producers.size = w.producers
  accounts : ∀ p, Account w c p (s.sent.getD p 0)
  withinCapacity : s.withinCapacity = true

theorem Account.congr {c' : Campaign Parcel} (h : Account w c p k)
    (accepted : c'.accepted p = c.accepted p)
    (same : c'.machine.producers[p]? = c.machine.producers[p]?) : Account w c' p k where
  accepted := by rw [accepted, brought_congr same, h.accepted]
  le := h.le
  within pc found := h.within pc (same ▸ found)

/-- An idle producer is given its next order, when what it brought in is counted. -/
theorem Account.tell (h : Account w c p k) {last : Option Thread.ProducerResult}
    (idle : c.machine.producers[p]? = some (.idle last)) {order : ProducerOrder Parcel}
    (within : order.begin.Within (w.per - (k + c.machine.brought p))) :
    Account w ⟨c.machine.tellProducer p order, c.accepted⟩ p (k + c.machine.brought p) := by
  have told := tellProducer_idle idle order
  constructor
  case accepted =>
    have none : (c.machine.tellProducer p order).brought p = 0 := by
      rw [brought, told]
      cases order <;> rfl
    rw [none]
    exact h.accepted
  case le =>
    have within := h.within _ idle
    have le := h.le
    have : c.machine.brought p ≤ w.per - k := by
      rw [brought, idle]
      cases last with
      | none => exact Nat.zero_le _
      | some result => exact within result rfl
    omega
  case within =>
    intro pc found
    rw [told] at found
    cases found
    exact within

theorem Carries.tell (h : Carries w c s)
    {last : Option Thread.ProducerResult} (idle : s.machine.producers[p]? = some (.idle last))
    {order : ProducerOrder Parcel} {sent : Array Nat} (peeked : Bool)
    (within : order.begin.Within (w.per - sent.getD p 0)) (size : sent.size = s.sent.size)
    (own : sent.getD p 0 = s.sent.getD p 0 + s.machine.brought p)
    (others : ∀ p', p ≠ p' → sent.getD p' 0 = s.sent.getD p' 0) :
    Carries w ⟨c.machine.tellProducer p order, c.accepted⟩
      ⟨s.machine.tellProducer p order, sent, true, peeked⟩ where
  machine := congrArg (·.tellProducer p order) h.machine
  size := size.trans h.size
  threads := (tellProducer_size c.machine p order).trans h.threads
  accounts p' := by
    have account := h.accounts p'
    by_cases same : p = p'
    · subst same
      show Account w _ p (sent.getD p 0)
      rw [h.machine] at idle own
      rw [own] at within ⊢
      exact account.tell idle within
    · show Account w _ p' (sent.getD p' 0)
      rw [others p' same]
      exact account.congr rfl (tellProducer_other same order)
  withinCapacity := rfl

theorem Carries.send (h : Carries w c s)
    {last : Option Thread.ProducerResult} (idle : s.machine.producers[p]? = some (.idle last))
    (none : s.machine.brought p = 0) : ∃ turns, Carries w (c.run Parcel.mk turns) (send w p s) := by
  have next : c.accepted p = s.sent.getD p 0 := by
    rw [(h.accounts p).accepted, ← h.machine, none]
    rfl
  have tells : ∀ order : ProducerOrder Parcel, order.begin.Within (w.per - c.accepted p) →
      Carries w ⟨c.machine.tellProducer p order, c.accepted⟩
        { s with machine := s.machine.tellProducer p order } := by
    intro order within
    rw [next] at within
    have told := h.tell idle s.peeked within rfl (by rw [none]; rfl) fun _ _ => rfl
    rw [← h.withinCapacity] at told
    exact told
  unfold Workload.send
  rw [← next]
  simp only
  split
  next => exact ⟨[], h⟩
  next some =>
      have pos := Nat.pos_of_ne_zero some
      split
      · exact ⟨[.offer p], tells (.offer _) ⟨Nat.one_pos, pos⟩⟩
      · exact ⟨[.fill p _], tells (.fill _ _) ⟨pos, Nat.le_refl _⟩⟩
      · have few : 0 < min (w.per - c.accepted p) 3 := Nat.lt_min.mpr ⟨pos, by decide⟩
        exact ⟨[.fill p _], tells (.fill _ _) ⟨few, Nat.min_le_left _ _⟩⟩

theorem Carries.credit (h : Carries w c s) (lt : p < w.producers)
    {last : Option Thread.ProducerResult} (idle : s.machine.producers[p]? = some (.idle last)) :
    Carries w (c.turn Parcel.mk (.length p)) (credit p (s.machine.brought p) s) := by
  have inside : p < s.sent.size := h.size.symm ▸ lt
  have own : (s.sent.modify p (· + s.machine.brought p)).getD p 0 =
      s.sent.getD p 0 + s.machine.brought p := by
    simp [Array.getD, inside, Array.getElem_modify_self]
  have others : ∀ p', p ≠ p' →
      (s.sent.modify p (· + s.machine.brought p)).getD p' 0 = s.sent.getD p' 0 := by
    intro p' apart
    simp [Array.getD_eq_getD_getElem?, Array.getElem?_modify, apart]
  have told : Carries w ⟨c.machine.tellProducer p .length, c.accepted⟩ _ :=
    h.tell idle s.peeked trivial (Array.size_modify ..) own others
  rw [← h.withinCapacity] at told
  exact told

theorem Carries.moveProducer (h : Carries w c s)
    (busy : ∀ last, s.machine.producers[p]? ≠ some (.idle last)) :
    Carries w (c.turn Parcel.mk (.producer p false))
      { s with machine := s.machine.moveProducer p false } where
  machine := congrArg (·.moveProducer p false) h.machine
  size := h.size
  threads := (moveProducer_size c.machine p false).trans h.threads
  accounts p' := by
    have account := h.accounts p'
    rw [h.machine] at busy
    by_cases same : p = p'
    · subst same
      obtain ⟨none, gain⟩ := brought_gain false busy
      constructor
      case accepted =>
        show c.accepted p + c.gained p (.producer p false) = _ + _
        rw [Campaign.gained_self, account.accepted, none, ← gain, Nat.add_zero]
        rfl
      case le => exact account.le
      case within => exact fun pc found => moveProducer_within account.within found
    · refine account.congr ?_ (moveProducer_other same)
      show c.accepted p' + c.gained p' (.producer p false) = c.accepted p'
      rw [Campaign.gained_other same, Nat.add_zero]
  withinCapacity := h.withinCapacity

theorem Carries.turnProducer (h : Carries w c s) {capacity : Nat} (lt : p < w.producers)
    (sound : ∀ n, s.machine.producers[p]? = some (.idle (some (.length n))) → n ≤ capacity) :
    ∃ turns, Carries w (c.run Parcel.mk turns) (turnProducer w capacity p s) := by
  by_cases busy : ∀ last, s.machine.producers[p]? ≠ some (.idle last)
  · have none : Machine.producerResult? s.machine p = none := by
      simp only [Machine.producerResult?]
    rw [Workload.turnProducer, none]
    exact ⟨[.producer p false], h.moveProducer busy⟩
  · obtain ⟨last, idle⟩ := not_forall_not.mp busy
    have told : Machine.producerResult? s.machine p = some last := by
      simp only [Machine.producerResult?, idle]
    have credits : ∀ count, s.machine.brought p = count →
        ∃ turns, Carries w (c.run Parcel.mk turns) (Workload.credit p count s) := by
      rintro _ rfl
      exact ⟨[.length p], h.credit lt idle⟩
    rw [Workload.turnProducer, told]
    cases last with
    | none => exact h.send idle (by rw [brought, idle]; rfl)
    | some result =>
        have brings : s.machine.brought p = result.count := by
          rw [brought, idle]
          rfl
        cases result with
        | accepted => exact credits 1 brings
        | filled count => exact credits count brings
        | full => exact credits 0 brings
        | length n =>
            have fits := decide_eq_true (sound n idle)
            simp only [fits, Bool.and_true]
            exact h.send idle brings

/-- A move of the consumer leaves the producers alone. -/
theorem Carries.consume (h : Carries w c s) {move : ChainMachine Parcel → ChainMachine Parcel}
    (producers : ∀ m, (move m).producers = m.producers) (peeked : Bool) :
    Carries w ⟨move c.machine, c.accepted⟩
      { s with machine := move s.machine, peeked := peeked } where
  machine := congrArg move h.machine
  size := h.size
  threads := (congrArg Array.size (producers c.machine)).trans h.threads
  accounts p := (h.accounts p).congr rfl (by rw [producers])
  withinCapacity := h.withinCapacity

theorem Carries.receive (h : Carries w c s) (capacity : Nat) (seen : Bool) :
    ∃ turns, Carries w (c.run Parcel.mk turns) (receive w capacity seen s) := by
  have tells : ∀ order peeked, Carries w (c.turn Parcel.mk (.tellConsumer order))
      { s with machine := s.machine.tellConsumer order, peeked := peeked } := fun order peeked =>
    h.consume (fun _ => tellConsumer_producers order) peeked
  unfold Workload.receive
  split
  · exact ⟨[_], tells .poll s.peeked⟩
  · exact ⟨[_], tells .relaxedPoll s.peeked⟩
  · cases seen with
    | true => exact ⟨[_], tells .poll false⟩
    | false => exact ⟨[_], tells .peek true⟩
  · cases seen with
    | true => exact ⟨[_], tells .poll false⟩
    | false => exact ⟨[_], tells .relaxedPeek true⟩
  · exact ⟨[_], tells (.drain 16) s.peeked⟩
  · exact ⟨[_], tells (.drain capacity) s.peeked⟩
  · exact ⟨[_], tells (.drain 16) s.peeked⟩

theorem Carries.turnConsumer (h : Carries w c s) (capacity : Nat) :
    ∃ turns, Carries w (c.run Parcel.mk turns) (turnConsumer w capacity s) := by
  unfold Workload.turnConsumer
  split
  · exact ⟨[.consumer], h.consume moveConsumer_producers s.peeked⟩
  · split
    · exact h.receive capacity _
    · exact ⟨[], h⟩

theorem start_carries (w : Workload) (q : Chain Parcel) :
    Carries w (.start q w.producers)
      ⟨.start q w.producers, Array.replicate w.producers 0, true, false⟩ where
  machine := rfl
  size := Array.size_replicate ..
  threads := Array.size_replicate ..
  accounts p := by
    have none : (Array.replicate w.producers 0).getD p 0 = 0 := by
      rw [Array.getD_eq_getD_getElem?, Array.getElem?_replicate]
      split <;> rfl
    show Account w _ p ((Array.replicate w.producers 0).getD p 0)
    rw [none]
    constructor
    case accepted =>
      rw [Nat.zero_add, brought]
      cases found : (Campaign.start q w.producers).machine.producers[p]? with
      | none => rfl
      | some pc =>
          obtain rfl := start_idle found
          rfl
    case le => exact Nat.zero_le _
    case within =>
      intro pc found
      obtain rfl := start_idle found
      intro result same
      cases same
  withinCapacity := rfl

theorem run_append (values : Nat → Nat → Parcel) (c : Campaign Parcel) (turns more : List Turn) :
    c.run values (turns ++ more) = (c.run values turns).run values more := by
  induction turns generalizing c with
  | nil => rfl
  | cons t rest ih => exact ih (c.turn values t)

theorem run_replay (values : Nat → Nat → Parcel) (c : Campaign Parcel) (turns : List Turn) :
    ∃ moves, (c.run values turns).machine = c.machine.replay moves := by
  induction turns generalizing c with
  | nil => exact ⟨[], rfl⟩
  | cons t rest ih =>
      obtain ⟨moves, same⟩ := ih (c.turn values t)
      exact ⟨c.move values t :: moves, same⟩

/-- A workload on a chain is a campaign. -/
theorem rounds_carry {q : Chain Parcel} (made : q.Made) {fuel : Nat}
    (ended : rounds w q.capacity fuel
      ⟨.start q w.producers, Array.replicate w.producers 0, true, false⟩ = .ok s) :
    (∃ turns, Carries w ((Campaign.start q w.producers).run Parcel.mk turns) s) ∧
      finished w s = true := by
  refine rounds_keep (P := fun s => ∃ turns,
    Carries w ((Campaign.start q w.producers).run Parcel.mk turns) s) ?_ ?_
    ⟨[], start_carries w q⟩ ended
  · rintro p s lt ⟨turns, carries⟩
    have sound : ∀ n, s.machine.producers[p]? = some (.idle (some (.length n))) →
        n ≤ q.capacity := by
      intro n told
      obtain ⟨moves, same⟩ := run_replay Parcel.mk (.start q w.producers) turns
      rw [carries.machine, same] at told
      exact told_length_le made told
    obtain ⟨more, carries⟩ := carries.turnProducer lt sound
    exact ⟨turns ++ more, by rwa [run_append]⟩
  · rintro s ⟨turns, carries⟩
    obtain ⟨more, carries⟩ := carries.turnConsumer q.capacity
    exact ⟨turns ++ more, by rwa [run_append]⟩

end OnChain

end Handoff.Workload
