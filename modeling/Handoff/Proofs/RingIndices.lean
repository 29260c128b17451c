import Handoff.Proofs.RingInterleavingSafety
import Handoff.Proofs.Runs

/-! The two published indices of a ring while both sides are in the middle of their calls.
The consumer takes an element as soon as it lies in its slot, and the producer writes as soon
as a slot is empty, so either index may pass by one what the other allows. A length is the
distance of the two at the instant when the producer's was loaded last. -/
namespace Handoff.RingMachine

open Thread

variable {α : Type}

def Move.ofProducer : Move α → Bool
  | producer => true
  | _ => false

def Move.ofConsumer : Move α → Bool
  | consumer => true
  | _ => false

/-- What the two indices come to where the moves on the ring `q` end in `m`. -/
structure Gauged (q : Ring α) (moves : List (Move α)) (m : RingMachine α) : Prop where
  consumer_le : m.ring.consumerIndex ≤ m.ring.producerIndex + m.producer.unpublished
  producer_le : m.ring.producerIndex ≤
    m.ring.consumerIndex + m.ring.capacity + m.consumer.unreleased
  /-- The producer's handle counts what was published when it loaded its own index. -/
  producer_length : ∀ (n : Nat) (v? : Option α) (q' : Ring α),
    (∀ last, m.producer ≠ .idle last) →
    stepProducer m.producer m.ring = .ok (.idle (some (.length n)), v?) q' →
    ∃ earlier later before, moves = earlier ++ .producer :: later ∧
      (∀ move ∈ later, move.ofProducer = false) ∧
      let m₁ := (start q).replay earlier
      m₁.producer = .lengthProducer before ∧
        n + m₁.ring.consumerIndex = m₁.ring.producerIndex ∧
        n ≤ m₁.ring.capacity + m₁.consumer.unreleased
  /-- The consumer's handle counts nothing where its own index is ahead. -/
  consumer_length : ∀ (n : Nat) (v? : Option α) (q' : Ring α),
    (∀ last, m.consumer ≠ .idle last) →
    stepConsumer m.consumer m.ring = .ok (.idle (some (.length n)), v?) q' →
    ∃ earlier later before, moves = earlier ++ .consumer :: later ∧
      (∀ move ∈ later, move.ofConsumer = false) ∧
      let m₁ := (start q).replay earlier
      m₁.consumer = .lengthProducer before ∧
        n = m₁.ring.producerIndex - m₁.ring.consumerIndex ∧
        m₁.ring.consumerIndex ≤ m₁.ring.producerIndex + m₁.producer.unpublished ∧
        n ≤ m₁.ring.capacity

variable {m : RingMachine α} {q q' : Ring α} {n before producer : Nat}

theorem ProducerPc.Leads.of_length {pc : ProducerPc α} (busy : ∀ last, pc ≠ .idle last)
    (ends : pc.Leads q q' (.idle (some (.length n)))) :
    ∃ before producer, pc = .lengthAgain before producer ∧ before = q.consumerIndex ∧
      n = producer - before := by
  cases ends with
  | rests last => exact absurd rfl (busy _)
  | errand h => cases h
  | answered before producer same => exact ⟨before, producer, rfl, same, rfl⟩

theorem ConsumerPc.Leads.of_length {pc : ConsumerPc α} (busy : ∀ last, pc ≠ .idle last)
    (ends : pc.Leads q q' (.idle (some (.length n)))) :
    ∃ before producer, pc = .lengthAgain before producer ∧ before = q.consumerIndex ∧
      n = producer - before := by
  cases ends with
  | rests last => exact absurd rfl (busy _)
  | task h => cases h
  | answered before producer same => exact ⟨before, producer, rfl, same, rfl⟩

theorem ProducerPc.Leads.of_loaded {pc : ProducerPc α}
    (loads : pc.Leads q q' (.lengthAgain before producer)) :
    pc = .lengthProducer before ∧ producer = q.producerIndex ∧ q' = q := by
  cases loads with
  | errand h => cases h
  | loaded before same => exact ⟨rfl, rfl, same⟩

theorem ConsumerPc.Leads.of_loaded {pc : ConsumerPc α}
    (loads : pc.Leads q q' (.lengthAgain before producer)) :
    pc = .lengthProducer before ∧ producer = q.producerIndex ∧ q' = q := by
  cases loads with
  | task h => cases h
  | loaded before same => exact ⟨rfl, rfl, same⟩

@[simp] theorem tellProducer_ring (order : ProducerOrder α) :
    (m.tellProducer order).ring = m.ring := by
  unfold tellProducer
  split <;> rfl

@[simp] theorem tellProducer_consumer (order : ProducerOrder α) :
    (m.tellProducer order).consumer = m.consumer := by
  unfold tellProducer
  split <;> rfl

@[simp] theorem tellConsumer_ring (order : ConsumerOrder) :
    (m.tellConsumer order).ring = m.ring := by
  unfold tellConsumer
  split <;> rfl

@[simp] theorem tellConsumer_producer (order : ConsumerOrder) :
    (m.tellConsumer order).producer = m.producer := by
  unfold tellConsumer
  split <;> rfl

theorem tellProducer_loaded {order : ProducerOrder α}
    (now : (m.tellProducer order).producer = .lengthAgain before producer) :
    m.producer = .lengthAgain before producer := by
  unfold tellProducer at now
  split at now
  next => cases order <;> cases now
  next => exact now

theorem tellConsumer_loaded {order : ConsumerOrder}
    (now : (m.tellConsumer order).consumer = .lengthAgain before producer) :
    m.consumer = .lengthAgain before producer := by
  unfold tellConsumer at now
  split at now
  next => cases order <;> cases now
  next => exact now

namespace Inv

theorem consumer_le (h : m.Inv) :
    m.ring.consumerIndex ≤ m.ring.producerIndex + m.producer.unpublished := by
  have released := h.released
  have published := h.published
  have le := h.received_le
  omega

theorem producer_le (h : m.Inv) :
    m.ring.producerIndex ≤ m.ring.consumerIndex + m.ring.capacity + m.consumer.unreleased := by
  have released := h.released
  have published := h.published
  have within := h.within
  omega

theorem producer_loaded (h : m.Inv) (move : Move α)
    (now : (m.advance move).producer = .lengthAgain before producer ∧
      (m.advance move).ring.consumerIndex = before) :
    (move = .producer ∧ m.producer = .lengthProducer before ∧
      m.ring.producerIndex = producer ∧ m.ring.consumerIndex = before) ∨
    (m.producer = .lengthAgain before producer ∧ m.ring.consumerIndex = before) ∧
      move.ofProducer = false := by
  obtain ⟨now, same⟩ := now
  cases move with
  | tellProducer order =>
      rw [RingMachine.advance, tellProducer_ring] at same
      exact .inr ⟨⟨tellProducer_loaded now, same⟩, rfl⟩
  | producer =>
      obtain ⟨pc, v?, ring, ok, -⟩ := h.producer_goes_on
      rw [RingMachine.advance, moveProducer_ok ok] at now same
      obtain rfl : pc = .lengthAgain before producer := now
      obtain ⟨here, loaded, rfl⟩ := (stepProducer_leads ok).of_loaded
      exact .inl ⟨rfl, here, loaded.symm, same⟩
  | tellConsumer order =>
      rw [RingMachine.advance, tellConsumer_producer] at now
      rw [RingMachine.advance, tellConsumer_ring] at same
      exact .inr ⟨⟨now, same⟩, rfl⟩
  | consumer =>
      obtain ⟨pc, v?, ring, ok, rises, -⟩ := h.consumer_goes_on
      rw [RingMachine.advance, moveConsumer_ok ok] at now same
      have here : m.producer = .lengthAgain before producer := now
      have le := h.producer
      rw [here] at le
      exact .inr ⟨⟨here, Nat.le_antisymm (Nat.le_trans rises (Nat.le_of_eq same)) le⟩, rfl⟩

theorem consumer_loaded (h : m.Inv) (move : Move α)
    (now : (m.advance move).consumer = .lengthAgain before producer) :
    (move = .consumer ∧ m.consumer = .lengthProducer before ∧ m.ring.producerIndex = producer) ∨
    m.consumer = .lengthAgain before producer ∧ move.ofConsumer = false := by
  cases move with
  | tellProducer order =>
      rw [RingMachine.advance, tellProducer_consumer] at now
      exact .inr ⟨now, rfl⟩
  | producer =>
      obtain ⟨pc, v?, ring, ok, -⟩ := h.producer_goes_on
      rw [RingMachine.advance, moveProducer_ok ok] at now
      exact .inr ⟨now, rfl⟩
  | tellConsumer order => exact .inr ⟨tellConsumer_loaded now, rfl⟩
  | consumer =>
      obtain ⟨pc, v?, ring, ok, -, -⟩ := h.consumer_goes_on
      rw [RingMachine.advance, moveConsumer_ok ok] at now
      obtain rfl : pc = .lengthAgain before producer := now
      obtain ⟨here, loaded, -⟩ := (stepConsumer_leads ok).of_loaded
      exact .inl ⟨rfl, here, loaded.symm⟩

end Inv

section Run

variable {requested maxStep : Nat} (accepted : Ring.withSettings requested maxStep = .ok q)
  {moves : List (Move α)}
include accepted

theorem producer_load (now : ((start q).replay moves).producer = .lengthAgain before producer)
    (same : ((start q).replay moves).ring.consumerIndex = before) :
    ∃ earlier later, moves = earlier ++ .producer :: later ∧
      (∀ move ∈ later, move.ofProducer = false) ∧
      let m₁ := (start q).replay earlier
      m₁.producer = .lengthProducer before ∧ m₁.ring.producerIndex = producer ∧
        m₁.ring.consumerIndex = before := by
  obtain ⟨earlier, move, later, rfl, ⟨rfl, load⟩, quiet⟩ :=
    exists_entry (fun moves => ((start q).replay moves).producer = .lengthAgain before producer ∧
      ((start q).replay moves).ring.consumerIndex = before) nofun (fun earlier move now => by
        rw [replay_concat] at now
        exact (reached accepted earlier).producer_loaded move now) ⟨now, same⟩
  exact ⟨earlier, later, rfl, quiet, load⟩

theorem consumer_load (now : ((start q).replay moves).consumer = .lengthAgain before producer) :
    ∃ earlier later, moves = earlier ++ .consumer :: later ∧
      (∀ move ∈ later, move.ofConsumer = false) ∧
      let m₁ := (start q).replay earlier
      m₁.consumer = .lengthProducer before ∧ m₁.ring.producerIndex = producer := by
  obtain ⟨earlier, move, later, rfl, ⟨rfl, load⟩, quiet⟩ :=
    exists_entry (fun moves => ((start q).replay moves).consumer = .lengthAgain before producer)
      nofun (fun earlier move now => by
        rw [replay_concat] at now
        exact (reached accepted earlier).consumer_loaded move now) now
  exact ⟨earlier, later, rfl, quiet, load⟩

/-- Over every order of steps, each index is at most one off, and only while the side that
it belongs to, or the other side, is between its two stores. -/
theorem indices_within_one (moves : List (Move α)) :
    Gauged q moves ((start q).replay moves) where
  consumer_le := (reached accepted moves).consumer_le
  producer_le := (reached accepted moves).producer_le
  producer_length n v? q' busy ends := by
    obtain ⟨before, producer, now, same, rfl⟩ := (stepProducer_leads ends).of_length busy
    obtain ⟨earlier, later, split, quiet, here, rfl, consumed⟩ :=
      producer_load accepted now same.symm
    have ge := (reached accepted earlier).consumer_le
    have le := (reached accepted earlier).producer_le
    simp only [here, ProducerPc.unpublished] at ge
    refine ⟨earlier, later, before, split, quiet, here, ?_, ?_⟩
    · omega
    · omega
  consumer_length n v? q' busy ends := by
    obtain ⟨before, producer, now, -, rfl⟩ := (stepConsumer_leads ends).of_length busy
    obtain ⟨earlier, later, split, quiet, here, rfl⟩ := consumer_load accepted now
    have inv := reached accepted earlier
    have consumed := inv.consumer
    have le := inv.producer_le
    rw [here] at consumed
    simp only [here, ConsumerPc.unreleased] at le
    obtain rfl : before = ((start q).replay earlier).ring.consumerIndex := consumed
    refine ⟨earlier, later, _, split, quiet, here, rfl, inv.consumer_le, ?_⟩
    omega

end Run

/-- An offer has stored its element and not yet its index. A poll takes the element. -/
def passing : List (Move Nat) :=
  .tellProducer (.errand (.offer 7)) :: List.replicate 3 .producer ++
  .tellConsumer (.task .poll) :: List.replicate 4 .consumer

/-- A poll has emptied the first of four slots and not yet stored its index. The producer
writes a fifth element, and asks for the length. -/
def overtaking : List (Move Nat) :=
  lapping ++ List.replicate 4 .producer ++ .tellProducer .length :: List.replicate 3 .producer

theorem indices_within_one_overtaking :
    (Ring.withSettings 4 9 : Except CapacityError (Ring Nat)) = .ok (.ofSize ⟨4, 1⟩) ∧
      Gauged (.ofSize ⟨4, 1⟩) overtaking ((start (.ofSize ⟨4, 1⟩)).replay overtaking) := by
  have accepted : (Ring.withSettings 4 9 : Except CapacityError (Ring Nat)) =
      .ok (.ofSize ⟨4, 1⟩) := rfl
  exact ⟨accepted, indices_within_one accepted overtaking⟩

/-- The consumer's index passes the producer's, and the producer's passes the capacity. Then
the producer's handle answers a length of five for a ring of four slots. -/
theorem indices_cross :
    let passed := (start (.ofSize ⟨4, 1⟩)).replay passing
    let overtaken := (start (.ofSize ⟨4, 1⟩)).replay overtaking
    (Ring.withSettings 4 9 : Except CapacityError (Ring Nat)) = .ok (.ofSize ⟨4, 1⟩) ∧
      ¬ passed.ring.consumerIndex ≤ passed.ring.producerIndex ∧
      ¬ overtaken.ring.producerIndex ≤
        overtaken.ring.consumerIndex + overtaken.ring.capacity ∧
      overtaken.producer = .idle (some (.length 5)) ∧ overtaken.ring.capacity = 4 := by
  intro passed overtaken
  refine ⟨rfl, ?_, ?_, rfl, ?_⟩
  · decide +kernel
  · decide +kernel
  · decide +kernel

end Handoff.RingMachine
