import Handoff.Proofs.RingContract
import Handoff.RingMachine.Basic

/-! A ring that its producer and its consumer use at once, over every order of their
steps. Each side stores or empties a slot and only then its index, so in between the index
is one behind. The slots are never behind: with both indices brought up to date the ring
holds the elements that were stored and not taken, in order. One step keeps this and what
each thread knows, so every run does. -/
namespace Handoff.RingMachine

variable {α : Type}

def settled (m : RingMachine α) : Ring α :=
  { m.ring with producerIndex := m.written.size, consumerIndex := m.received.size }

def inFlight (m : RingMachine α) : Fifo α where
  items := m.written.toList.drop m.received.size
  capacity := m.ring.capacity
  burst := m.ring.lookAhead
  produced := m.written.size
  consumed := m.received.size

def ProducerPc.unpublished : ProducerPc α → Nat
  | storeIndex _ _ _ => 1
  | _ => 0

def ConsumerPc.unreleased : ConsumerPc α → Nat
  | storeIndex _ _ _ _ _ => 1
  | _ => 0

/-- What the producer relies on at its next step. After a probe ahead there is room for the
present element and those that follow it. -/
def ProducerPc.Knows (m : RingMachine α) : ProducerPc α → Prop
  | probeAhead _ p | probeHere _ p => p.index = m.written.size
  | write _ p run =>
    p.index = m.written.size ∧ m.written.size + run < m.received.size + m.ring.capacity
  | storeIndex _ p run =>
    p.index + 1 = m.written.size ∧ m.written.size + run ≤ m.received.size + m.ring.capacity
  | lengthProducer before | lengthAgain before _ => before ≤ m.ring.consumerIndex
  | idle _ | loadIndex _ | lengthFirst => True
  | fault => False

def ConsumerPc.Knows (m : RingMachine α) : ConsumerPc α → Prop
  | probe _ index _ _ => index = m.received.size
  | take _ index _ _ | showHead _ index =>
    index = m.received.size ∧ m.received.size < m.written.size
  | storeIndex _ index _ _ _ => index + 1 = m.received.size
  | lengthProducer before | lengthAgain before _ => before = m.ring.consumerIndex
  | idle _ | loadIndex _ | lengthFirst => True
  | fault => False

/-- The slots hold what was stored and not taken, and each thread is where it knows what it
needs. -/
structure Inv (m : RingMachine α) : Prop where
  models : m.settled.Models m.inFlight
  order : m.received.toList <+: m.written.toList
  published : m.ring.producerIndex + m.producer.unpublished = m.written.size
  released : m.ring.consumerIndex + m.consumer.unreleased = m.received.size
  producer : m.producer.Knows m
  consumer : m.consumer.Knows m

variable {m m' : RingMachine α} {ring : Ring α} {index limit : Nat}

theorem moveProducer_ok {pc : ProducerPc α} {v? : Option α}
    (ok : stepProducer m.producer m.ring = .ok (pc, v?) ring) :
    m.moveProducer = ⟨ring, pc, m.consumer, m.written ++ v?.toList, m.received⟩ := by
  rw [moveProducer]
  simp only [ok]

theorem moveConsumer_ok {pc : ConsumerPc α} {v? : Option α}
    (ok : stepConsumer m.consumer m.ring = .ok (pc, v?) ring) :
    m.moveConsumer = ⟨ring, m.producer, pc, m.written, m.received ++ v?.toList⟩ := by
  rw [moveConsumer]
  simp only [ok]

theorem ProducerPc.Knows.mono {pc : ProducerPc α} (knows : pc.Knows m)
    (written : m'.written = m.written) (received : m.received.size ≤ m'.received.size)
    (capacity : m'.ring.capacity = m.ring.capacity)
    (consumer : m.ring.consumerIndex ≤ m'.ring.consumerIndex) : pc.Knows m' := by
  cases pc with
  | probeAhead e p | probeHere e p =>
      rw [Knows, written]
      exact knows
  | write e p run | storeIndex e p run =>
      obtain ⟨at_, room⟩ := knows
      rw [Knows, written, capacity]
      exact ⟨at_, by omega⟩
  | lengthProducer before | lengthAgain before producer => exact Nat.le_trans knows consumer
  | idle | loadIndex | lengthFirst => trivial
  | fault => exact knows

theorem ConsumerPc.Knows.mono {pc : ConsumerPc α} (knows : pc.Knows m)
    (received : m'.received = m.received) (written : m.written.size ≤ m'.written.size)
    (consumer : m'.ring.consumerIndex = m.ring.consumerIndex) : pc.Knows m' := by
  cases pc with
  | probe t index done left =>
      rw [Knows, received]
      exact knows
  | take t index done left | showHead t index =>
      rw [Knows, received]
      exact ⟨knows.1, Nat.lt_of_lt_of_le knows.2 written⟩
  | storeIndex t index done left v =>
      rw [Knows, received]
      exact knows
  | lengthProducer before | lengthAgain before producer => exact knows.trans consumer.symm
  | idle | loadIndex | lengthFirst => trivial
  | fault => exact knows

namespace Inv

theorem length_inFlight (h : m.Inv) :
    m.received.size + m.inFlight.items.length = m.written.size :=
  h.models.balance.symm

theorem room_iff (h : m.Inv) :
    m.inFlight.items.length < m.inFlight.capacity ↔
      m.written.size < m.received.size + m.ring.capacity := by
  have length := h.length_inFlight
  have capacity : m.inFlight.capacity = m.ring.capacity := rfl
  omega

theorem within (h : m.Inv) : m.written.size ≤ m.received.size + m.ring.capacity := by
  have length := h.length_inFlight
  have bound : m.inFlight.items.length ≤ m.ring.capacity := h.models.bound
  omega

theorem received_le (h : m.Inv) : m.received.size ≤ m.written.size := by
  have length := h.length_inFlight
  omega

theorem items_inFlight (lt : m.received.size < m.written.size) :
    m.inFlight.items = m.written[m.received.size] ::
      m.written.toList.drop (m.received.size + 1) := by
  rw [inFlight, List.drop_eq_getElem_cons (by simpa using lt), Array.getElem_toList]

theorem order_taken (h : m.Inv) (lt : m.received.size < m.written.size) :
    m.received.toList ++ [m.written[m.received.size]] <+: m.written.toList := by
  obtain ⟨later, split⟩ := h.order
  have rest : later = m.inFlight.items := by
    rw [inFlight, ← split]
    simp
  rw [items_inFlight lt] at rest
  rw [← split, rest]
  exact ⟨m.written.toList.drop (m.received.size + 1), List.append_assoc _ _ _⟩

theorem producer_at (h : m.Inv) {pc : ProducerPc α}
    (published : index + pc.unpublished = m.written.size) (knows : pc.Knows m)
    (le : limit ≤ m.received.size + m.ring.capacity) :
    Inv ⟨{ m.ring with producerIndex := index, producerLimit := limit }, pc, m.consumer,
      m.written, m.received⟩ where
  models := h.models.withLimit le
  order := h.order
  published := published
  released := h.released
  producer := knows
  consumer := h.consumer

theorem producer_reads (h : m.Inv) {pc : ProducerPc α}
    (published : m.ring.producerIndex + pc.unpublished = m.written.size) (knows : pc.Knows m) :
    Inv ⟨m.ring, pc, m.consumer, m.written, m.received⟩ :=
  h.producer_at published knows h.models.limit

theorem producer_stores (h : m.Inv) {pc : ProducerPc α}
    (room : m.written.size < m.received.size + m.ring.capacity) (v : α)
    (published : m.ring.producerIndex + pc.unpublished = m.written.size + 1)
    (knows : pc.Knows { m with written := m.written.push v }) :
    Inv ⟨{ m.ring with
      chunk := m.ring.chunk.setSlot (Index.slotOf m.written.size m.ring.capacity) (.value v) },
      pc, m.consumer, m.written.push v, m.received⟩ := by
  have size : (m.written.push v).size = m.written.size + 1 := Array.size_push v
  have capacity : Ring.capacity { m.ring with
      chunk := m.ring.chunk.setSlot (Index.slotOf m.written.size m.ring.capacity) (.value v) } =
      m.ring.capacity := Chunk.size_setSlot _ _ _
  constructor
  case models =>
    have stored := h.models.stored (h.room_iff.mpr room) v
    have items : (m.written.push v).toList.drop m.received.size =
        m.written.toList.drop m.received.size ++ [v] := by
      rw [Array.toList_push, List.drop_append_of_le_length]
      exact h.received_le
    simp only [settled, inFlight, items, size, capacity]
    exact stored
  case order =>
    rw [Array.toList_push]
    exact h.order.trans (List.prefix_append _ _)
  case published => exact published.trans size.symm
  case released => exact h.released
  case producer => exact knows.mono rfl (Nat.le_refl _) capacity (Nat.le_refl _)
  case consumer => exact h.consumer.mono rfl (by rw [size]; exact Nat.le_succ _) rfl

theorem consumer_at (h : m.Inv) {pc : ConsumerPc α}
    (le : m.ring.consumerIndex ≤ index) (released : index + pc.unreleased = m.received.size)
    (knows : pc.Knows { m with ring := { m.ring with consumerIndex := index } }) :
    Inv ⟨{ m.ring with consumerIndex := index }, m.producer, pc, m.written, m.received⟩ where
  models := h.models
  order := h.order
  published := h.published
  released := released
  producer := h.producer.mono rfl (Nat.le_refl _) rfl le
  consumer := knows

theorem consumer_reads (h : m.Inv) {pc : ConsumerPc α}
    (released : m.ring.consumerIndex + pc.unreleased = m.received.size) (knows : pc.Knows m) :
    Inv ⟨m.ring, m.producer, pc, m.written, m.received⟩ :=
  h.consumer_at (Nat.le_refl _) released knows

theorem consumer_takes (h : m.Inv) {pc : ConsumerPc α} (lt : m.received.size < m.written.size)
    (released : m.ring.consumerIndex + pc.unreleased = m.received.size + 1)
    (knows : pc.Knows { m with received := m.received.push m.written[m.received.size] }) :
    Inv ⟨{ m.ring with
      chunk := m.ring.chunk.setSlot (Index.slotOf m.received.size m.ring.capacity) .empty },
      m.producer, pc, m.written, m.received.push m.written[m.received.size]⟩ := by
  have size : (m.received.push m.written[m.received.size]).size = m.received.size + 1 :=
    Array.size_push _
  have capacity : Ring.capacity { m.ring with
      chunk := m.ring.chunk.setSlot (Index.slotOf m.received.size m.ring.capacity) .empty } =
      m.ring.capacity := Chunk.size_setSlot _ _ _
  constructor
  case models =>
    have taken := h.models.taken (items_inFlight lt)
    simp only [settled, inFlight, size, capacity]
    exact taken
  case order =>
    rw [Array.toList_push]
    exact h.order_taken lt
  case published => exact h.published
  case released => exact released.trans size.symm
  case producer =>
    exact h.producer.mono rfl (by rw [size]; exact Nat.le_succ _) capacity (Nat.le_refl _)
  case consumer => exact knows.mono rfl (Nat.le_refl _) rfl

end Inv

def ProducerGoesOn (m : RingMachine α)
    (r : EStateM.Result Halt (Ring α) (ProducerPc α × Option α)) : Prop :=
  ∃ pc v? q, r = .ok (pc, v?) q ∧ Inv ⟨q, pc, m.consumer, m.written ++ v?.toList, m.received⟩

def ConsumerGoesOn (m : RingMachine α)
    (r : EStateM.Result Halt (Ring α) (ConsumerPc α × Option α)) : Prop :=
  ∃ pc v? q, r = .ok (pc, v?) q ∧ m.ring.consumerIndex ≤ q.consumerIndex ∧
    Inv ⟨q, m.producer, pc, m.written, m.received ++ v?.toList⟩

/-- Between two elements: all that was stored is published. -/
structure ProducerPc.Rests (m : RingMachine α) (pc : ProducerPc α) : Prop where
  unpublished : pc.unpublished = 0
  knows : pc.Knows m

namespace ProducerPc

variable {e : Errand α} {p : Progress} {run : Nat}

theorem attempt_rests (at_ : p.index = m.written.size) : (attempt e p).Rests m := by
  unfold attempt
  split
  next => exact ⟨rfl, trivial⟩
  next => exact ⟨rfl, trivial⟩
  next => exact ⟨rfl, at_⟩
  next => exact ⟨rfl, trivial⟩
  next => exact ⟨rfl, at_⟩

theorem noRoom_rests (at_ : p.index = m.written.size) : (noRoom e p).Rests m := by
  cases e with
  | offer v => exact ⟨rfl, trivial⟩
  | fill limit supply => exact ⟨rfl, trivial⟩
  | stream rounds supply => exact attempt_rests at_

theorem begin_rests (at_ : index = m.written.size)
    (le : limit ≤ m.received.size + m.ring.capacity) : (begin e index limit).Rests m := by
  cases e with
  | offer v =>
      rw [begin]
      split
      next below => exact ⟨rfl, at_, by omega⟩
      next => exact ⟨rfl, at_⟩
  | fill limit supply | stream rounds supply => exact attempt_rests at_

theorem published_rests (at_ : p.index + 1 = m.written.size)
    (room : m.written.size + run ≤ m.received.size + m.ring.capacity) :
    (published e p run).Rests m := by
  cases run with
  | zero => exact attempt_rests at_
  | succ run => exact ⟨rfl, at_, by omega⟩

theorem runAhead_lt {lookAhead : Nat} (pos : 0 < lookAhead) :
    runAhead e p lookAhead < lookAhead := by
  cases e with
  | offer v => exact pos
  | fill limit supply =>
      rw [runAhead]
      omega
  | stream rounds supply =>
      rw [runAhead]
      omega

end ProducerPc

open ProducerPc

namespace Inv

variable {e : Errand α} {p : Progress} {run : Nat}

theorem lookAhead_pos (h : m.Inv) : 0 < m.ring.lookAhead := h.models.burst_pos

theorem vacantAhead_iff (h : m.Inv) :
    m.ring.vacantAhead m.written.size = true ↔
      m.written.size + m.ring.lookAhead < m.received.size + m.ring.capacity := by
  have probe : m.ring.vacantAhead m.written.size =
      decide (m.inFlight.items.length + m.ring.lookAhead < m.ring.capacity) :=
    h.models.vacantAhead_produced
  have length := h.length_inFlight
  rw [probe, decide_eq_true_iff]
  omega

theorem vacant_next_iff (h : m.Inv) :
    m.ring.vacantAt m.written.size = true ↔
      m.written.size < m.received.size + m.ring.capacity := by
  have probe : m.ring.vacantAt m.written.size = !m.inFlight.isFull := h.models.vacantAt_produced
  rw [probe, ← h.room_iff, Fifo.isFull, Bool.not_eq_true', decide_eq_false_iff_not, Nat.not_le]

theorem loadIndex_step (h : m.Inv) (published : m.ring.producerIndex = m.written.size) :
    ProducerGoesOn m (stepProducer (loadIndex e) m.ring) := by
  rw [stepProducer, Act.bind_view]
  have rests : (begin e m.ring.producerIndex m.ring.producerLimit).Rests m :=
    begin_rests published h.models.limit
  exact ⟨_, none, m.ring, rfl, h.producer_reads (by rw [rests.unpublished]; exact published)
    rests.knows⟩

theorem probeAhead_step (h : m.Inv) (published : m.ring.producerIndex = m.written.size)
    (at_ : p.index = m.written.size) :
    ProducerGoesOn m (stepProducer (probeAhead e p) m.ring) := by
  rw [stepProducer, Act.bind_view, at_]
  split
  next ahead =>
      have room := h.vacantAhead_iff.mp ahead
      have run : runAhead e p m.ring.lookAhead < m.ring.lookAhead := runAhead_lt h.lookAhead_pos
      have knows : (write e p (runAhead e p m.ring.lookAhead)).Knows m := ⟨at_, by omega⟩
      rw [Act.bind_view]
      cases e with
      | offer v =>
          refine ⟨_, none, _, rfl, h.producer_at published knows ?_⟩
          omega
      | fill limit supply => exact ⟨_, none, _, rfl, h.producer_reads published knows⟩
      | stream rounds supply => exact ⟨_, none, _, rfl, h.producer_reads published knows⟩
  next => exact ⟨_, none, m.ring, rfl, h.producer_reads published at_⟩

theorem probeHere_step (h : m.Inv) (published : m.ring.producerIndex = m.written.size)
    (at_ : p.index = m.written.size) :
    ProducerGoesOn m (stepProducer (probeHere e p) m.ring) := by
  rw [stepProducer, Act.bind_view, at_]
  split
  next vacant =>
      have room := h.vacant_next_iff.mp vacant
      exact ⟨_, none, m.ring, rfl, h.producer_reads published ⟨at_, room⟩⟩
  next =>
      have rests : (noRoom e p).Rests m := noRoom_rests at_
      exact ⟨_, none, m.ring, rfl, h.producer_reads (by rw [rests.unpublished]; exact published)
        rests.knows⟩

theorem write_step (h : m.Inv) (published : m.ring.producerIndex = m.written.size)
    (at_ : p.index = m.written.size)
    (room : m.written.size + run < m.received.size + m.ring.capacity) :
    ProducerGoesOn m (stepProducer (write e p run) m.ring) := by
  have vacant := h.models.vacant_produced (h.room_iff.mpr (by omega))
  have stores := Ring.onChunk_ok (q := m.ring) (Chunk.write_ok vacant (e.element p.done))
  rw [stepProducer, Act.bind_view, at_]
  refine ⟨_, some (e.element p.done), _, Act.bind_ok stores _, h.producer_stores (by omega) _ ?_ ?_⟩
  · rw [published, unpublished]
  · simp only [Knows, Array.size_push, at_, true_and]
    omega

theorem storeIndex_step (h : m.Inv) (at_ : p.index + 1 = m.written.size)
    (room : m.written.size + run ≤ m.received.size + m.ring.capacity) :
    ProducerGoesOn m (stepProducer (storeIndex e p run) m.ring) := by
  rw [stepProducer, Act.bind_modify]
  have rests : (ProducerPc.published e p run).Rests m := published_rests at_ room
  exact ⟨_, none, _, rfl, h.producer_at (by rw [rests.unpublished]; exact at_) rests.knows
    h.models.limit⟩

theorem producer_goes_on (h : m.Inv) : ProducerGoesOn m (stepProducer m.producer m.ring) := by
  have knows := h.producer
  have published := h.published
  generalize m.producer = pc at knows published
  cases pc with
  | idle last => exact ⟨_, none, m.ring, rfl, h.producer_reads published trivial⟩
  | loadIndex e => exact h.loadIndex_step published
  | probeAhead e p => exact h.probeAhead_step published knows
  | probeHere e p => exact h.probeHere_step published knows
  | write e p run => exact h.write_step published knows.1 knows.2
  | storeIndex e p run => exact h.storeIndex_step knows.1 knows.2
  | lengthFirst => exact ⟨_, none, m.ring, rfl, h.producer_reads published (Nat.le_refl _)⟩
  | lengthProducer before => exact ⟨_, none, m.ring, rfl, h.producer_reads published knows⟩
  | lengthAgain before producer =>
      rw [stepProducer, Act.bind_view]
      split
      next => exact ⟨_, none, m.ring, rfl, h.producer_reads published trivial⟩
      next => exact ⟨_, none, m.ring, rfl, h.producer_reads published (Nat.le_refl _)⟩
  | fault => exact knows.elim

end Inv

/-- Between two elements: the slot of each element that was taken is released. -/
structure ConsumerPc.Rests (m : RingMachine α) (pc : ConsumerPc α) : Prop where
  unreleased : pc.unreleased = 0
  knows : pc.Knows m

namespace ConsumerPc

variable {t : Task} {done left : Nat} {v : α}

theorem attempt_rests (at_ : index = m.received.size) :
    (attempt t index done left : ConsumerPc α).Rests m := by
  cases left with
  | zero => exact ⟨rfl, trivial⟩
  | succ left => exact ⟨rfl, at_⟩

theorem begin_rests (at_ : index = m.received.size) :
    (begin t index : ConsumerPc α).Rests m := by
  cases t with
  | poll | peek => exact ⟨rfl, at_⟩
  | drain left | stream left => exact attempt_rests at_

theorem nothing_rests (at_ : index = m.received.size) :
    (nothing t index done left : ConsumerPc α).Rests m := by
  cases t with
  | poll | peek | drain limit => exact ⟨rfl, trivial⟩
  | stream rounds => exact attempt_rests at_

theorem found_rests (at_ : index = m.received.size) (lt : m.received.size < m.written.size) :
    (found t index done left : ConsumerPc α).Rests m := by
  cases t with
  | poll | peek | drain limit | stream rounds => exact ⟨rfl, at_, lt⟩

theorem released_rests (at_ : index + 1 = m.received.size) :
    (released t index done left v).Rests m := by
  cases t with
  | poll | peek => exact ⟨rfl, trivial⟩
  | drain limit | stream rounds => exact attempt_rests at_

end ConsumerPc

open ConsumerPc

namespace Inv

variable {t : Task} {done left : Nat} {v : α}

theorem vacant_head_iff (h : m.Inv) :
    m.ring.vacantAt m.received.size = true ↔ m.written.size ≤ m.received.size := by
  have probe : m.ring.vacantAt m.received.size = m.inFlight.items.isEmpty :=
    h.models.vacantAt_consumed
  have length := h.length_inFlight
  rw [probe, List.isEmpty_iff, ← List.length_eq_zero_iff]
  omega

theorem slot_head (h : m.Inv) (lt : m.received.size < m.written.size) :
    m.ring.chunk.slot? (Index.slotOf m.received.size m.ring.capacity) =
      some (.value m.written[m.received.size]) :=
  h.models.held_consumed (items_inFlight lt)

theorem consumer_rests (h : m.Inv) {pc : ConsumerPc α}
    (released : m.ring.consumerIndex = m.received.size) (rests : pc.Rests m) :
    Inv ⟨m.ring, m.producer, pc, m.written, m.received⟩ :=
  h.consumer_reads (by rw [rests.unreleased]; exact released) rests.knows

theorem probe_step (h : m.Inv) (released : m.ring.consumerIndex = m.received.size)
    (at_ : index = m.received.size) :
    ConsumerGoesOn m (stepConsumer (probe t index done left) m.ring) := by
  rw [stepConsumer, Act.bind_view]
  split
  next => exact ⟨_, none, m.ring, rfl, Nat.le_refl _, h.consumer_rests released (nothing_rests at_)⟩
  next taken =>
      have lt : m.received.size < m.written.size := by
        rw [at_, h.vacant_head_iff] at taken
        omega
      exact ⟨_, none, m.ring, rfl, Nat.le_refl _, h.consumer_rests released (found_rests at_ lt)⟩

theorem take_step (h : m.Inv) (released : m.ring.consumerIndex = m.received.size)
    (at_ : index = m.received.size) (lt : m.received.size < m.written.size) :
    ConsumerGoesOn m (stepConsumer (take t index done left) m.ring) := by
  have takes := Ring.onChunk_ok (q := m.ring) (Chunk.take_ok (h.slot_head lt))
  rw [stepConsumer, Act.bind_view, at_]
  refine ⟨_, some m.written[m.received.size], _, Act.bind_ok takes _, Nat.le_refl _,
    h.consumer_takes lt ?_ ?_⟩
  · rw [released, unreleased]
  · simp only [ConsumerPc.Knows, Array.size_push]

theorem showHead_step (h : m.Inv) (released : m.ring.consumerIndex = m.received.size)
    (at_ : index = m.received.size) (lt : m.received.size < m.written.size) :
    ConsumerGoesOn m (stepConsumer (showHead t index) m.ring) := by
  have shows := Ring.onChunk_ok (q := m.ring) (Chunk.get_ok (h.slot_head lt))
  rw [stepConsumer, Act.bind_view, at_]
  exact ⟨_, none, _, Act.bind_ok shows _, Nat.le_refl _, h.consumer_reads released trivial⟩

theorem storeRelease_step (h : m.Inv) (behind : m.ring.consumerIndex + 1 = m.received.size)
    (at_ : index + 1 = m.received.size) :
    ConsumerGoesOn m (stepConsumer (storeIndex t index done left v) m.ring) := by
  rw [stepConsumer, Act.bind_modify]
  have rests : (ConsumerPc.released t index done left v).Rests
      { m with ring := { m.ring with consumerIndex := index + 1 } } := released_rests at_
  have le : m.ring.consumerIndex ≤ index + 1 := by omega
  refine ⟨_, none, _, rfl, le, h.consumer_at le ?_ rests.knows⟩
  rw [rests.unreleased]
  exact at_

theorem consumer_goes_on (h : m.Inv) : ConsumerGoesOn m (stepConsumer m.consumer m.ring) := by
  have knows := h.consumer
  have released := h.released
  generalize m.consumer = pc at knows released
  cases pc with
  | idle last => exact ⟨_, none, m.ring, rfl, Nat.le_refl _, h.consumer_reads released trivial⟩
  | loadIndex t =>
      rw [stepConsumer, Act.bind_view]
      exact ⟨_, none, m.ring, rfl, Nat.le_refl _, h.consumer_rests released (begin_rests released)⟩
  | probe t index done left => exact h.probe_step released knows
  | take t index done left => exact h.take_step released knows.1 knows.2
  | showHead t index => exact h.showHead_step released knows.1 knows.2
  | storeIndex t index done left v => exact h.storeRelease_step released knows
  | lengthFirst => exact ⟨_, none, m.ring, rfl, Nat.le_refl _, h.consumer_reads released rfl⟩
  | lengthProducer before =>
      exact ⟨_, none, m.ring, rfl, Nat.le_refl _, h.consumer_reads released knows⟩
  | lengthAgain before producer =>
      rw [stepConsumer, Act.bind_view]
      split
      next => exact ⟨_, none, m.ring, rfl, Nat.le_refl _, h.consumer_reads released trivial⟩
      next => exact ⟨_, none, m.ring, rfl, Nat.le_refl _, h.consumer_reads released rfl⟩
  | fault => exact knows.elim

theorem tellProducer (h : m.Inv) (order : ProducerOrder α) : (m.tellProducer order).Inv := by
  unfold RingMachine.tellProducer
  split
  next idle =>
      have published := h.published
      rw [idle] at published
      cases order with
      | errand e => exact { h with published := published, producer := trivial }
      | length => exact { h with published := published, producer := trivial }
  next => exact h

theorem tellConsumer (h : m.Inv) (order : ConsumerOrder) : (m.tellConsumer order).Inv := by
  unfold RingMachine.tellConsumer
  split
  next idle =>
      have released := h.released
      rw [idle] at released
      cases order with
      | task t => exact { h with released := released, consumer := trivial }
      | length => exact { h with released := released, consumer := trivial }
  next => exact h

theorem moveProducer (h : m.Inv) : m.moveProducer.Inv := by
  obtain ⟨pc, v?, q, ok, inv⟩ := h.producer_goes_on
  rw [moveProducer_ok ok]
  exact inv

theorem moveConsumer (h : m.Inv) : m.moveConsumer.Inv := by
  obtain ⟨pc, v?, q, ok, -, inv⟩ := h.consumer_goes_on
  rw [moveConsumer_ok ok]
  exact inv

theorem advance (h : m.Inv) (move : Move α) : (m.advance move).Inv := by
  cases move with
  | tellProducer order => exact h.tellProducer order
  | producer => exact h.moveProducer
  | tellConsumer order => exact h.tellConsumer order
  | consumer => exact h.moveConsumer

theorem replay (h : m.Inv) (moves : List (Move α)) : (m.replay moves).Inv := by
  induction moves generalizing m with
  | nil => exact h
  | cons move rest ih => exact ih (h.advance move)

end Inv

theorem Inv.start {size : RingSize} (fits : size.Fits) :
    (RingMachine.start (Ring.ofSize size : Ring α)).Inv where
  models := by
    have capacity : Ring.capacity (Ring.ofSize size : Ring α) = size.capacity :=
      Array.size_replicate
    simp only [settled, inFlight, RingMachine.start, capacity]
    exact Ring.ofSize_models fits
  order := List.prefix_refl []
  published := rfl
  released := rfl
  producer := trivial
  consumer := trivial

theorem reached {requested maxStep : Nat} {q : Ring α}
    (accepted : Ring.withSettings requested maxStep = .ok q) (moves : List (Move α)) :
    ((start q).replay moves).Inv := by
  obtain ⟨size, planned, rfl⟩ := Ring.exists_size accepted
  exact (Inv.start (RingSize.plan_fits planned)).replay moves

end Handoff.RingMachine
