import Handoff.Proofs.ChainSteps
import Handoff.Proofs.InterleavingSafety
import Handoff.Proofs.Runs

/-! What producers and the consumer of a chain are told while others are at work. Numbers
are loaded one after another and may be stale when they are put together, but indices only
rise and elements are never more than the capacity. So a refusal is true at the instant when
the consumer's index was loaded, and a length at the instant when the producer's was. -/
namespace Handoff.ChainMachine

open Thread

variable {α : Type} {q q' : Chain α} {e : Errand α} {n before producer : Nat}

variable {g g' : Register α} {p : Nat}

theorem ProducerPc.Steps.holds_mark (valid : g.Valid) (records : q.Records g)
    {pc pc' : ProducerPc α} {vs : List α} {spurious : Bool} (knows : pc.Knows g p)
    (steps : pc.Steps spurious q pc' vs q') (marked : Index.linking q'.producerIndex = true) :
    pc'.marks = true ∨ pc.marks = false ∧ q'.producerIndex = q.producerIndex := by
  cases steps with
  | claims e d succeeds same =>
      obtain ⟨drafted, limit, claimable⟩ := knows
      obtain ⟨i, even⟩ := drafted.even
      have index : g.index = d.index := records.producer.symm.trans same
      have length := (Register.unmarked_of_even (index.trans even)).2
      obtain ⟨count, stop, -⟩ := stop_eq valid even length claimable
      rw [stop, Index.linking_double] at marked
      cases marked
  | storesIndex e d =>
      obtain ⟨m, growing, -⟩ := knows
      have even : d.index + 2 = 2 * (m + 1) := by rw [growing.index, Nat.mul_succ]
      rw [even, Index.linking_double] at marked
      cases marked
  | writes e cursor index done left put => exact .inr ⟨rfl, Chain.onStore_producerIndex put⟩
  | writesJump e d jump => exact .inr ⟨rfl, Chain.onStore_producerIndex jump⟩
  | marks | grows | storesMask | writesFirst | links | checksRoom | storesLimit =>
      exact .inl rfl
  | rests | loadsLimit | loadsIndex | meetsMark | loadsMask | loadsChunk | loadsConsumer | raises
  | losesLimit | losesMark | losesClaim | lengthBegins | lengthLoads | lengthEnds
  | lengthRepeats | fault => exact .inr ⟨rfl, rfl⟩

theorem ProducerPc.Knows.taken_le {pc : ProducerPc α} (valid : g.Valid) (knows : pc.Knows g p)
    (marks : pc.marks = true) : g.taken ≤ g.published := by
  -- The element at the mark is not written, or there is no jump to it.
  have growing_le : ∀ {e : Errand α} {d : Draft} {m : Nat}, Growing g p e d m →
      g.taken ≤ g.published := by
    intro e d m growing
    rw [growing.held.published]
    exact valid.taken_le_link (valid.head_le_of_unjumped growing.unjumped) growing.link
  cases pc with
  | grow e d =>
      obtain ⟨m, marking⟩ := knows
      rw [marking.held.published]
      exact valid.taken_le_of_unwritten marking.unwritten
  | storeMask e d next | writeFirst e d next | link e d next | checkRoom e d next =>
      obtain ⟨-, m, growing, -⟩ := knows
      exact growing_le growing
  | storeLimit e d limit =>
      obtain ⟨-, -, m, growing, -⟩ := knows
      exact growing_le growing
  | storeIndex e d =>
      obtain ⟨m, growing, -⟩ := knows
      exact growing_le growing
  | _ => cases marks

/-- A marked index has its holder, and no thread has loaded a consumer index that is not
reached. -/
structure Counting (m : ChainMachine α) : Prop where
  holder : Index.linking m.chain.producerIndex = true →
    ∃ (p : Nat) (pc : ProducerPc α), m.producers[p]? = some pc ∧ pc.marks = true
  producers : ∀ (p : Nat) (pc : ProducerPc α) (before : Nat), m.producers[p]? = some pc →
    pc.before? = some before → before ≤ m.chain.consumerIndex
  consumer : ∀ before, m.consumer.before? = some before → before ≤ m.chain.consumerIndex

variable {m : ChainMachine α}

theorem Inv.producer_steps (h : m.Inv g) {pc : ProducerPc α} (found : m.producers[p]? = some pc)
    (spurious : Bool) : ∃ pc' vs q', pc.Steps spurious m.chain pc' vs q' ∧
      q'.consumerIndex = m.chain.consumerIndex := by
  obtain ⟨pc', vs, q', g', steps, step⟩ :=
    producer_goes_on h.valid h.records (h.producers p pc found) spurious
  refine ⟨pc', vs, q', steps, ?_⟩
  rw [step.records.consumer, (Register.Feeds.of_change h.valid step.change).consumed,
    h.records.consumer]

theorem Inv.consumer_steps (h : m.Inv g) : ∃ pc' v? q',
    m.consumer.Steps m.chain pc' v? q' ∧
      q'.producerIndex = m.chain.producerIndex ∧ m.chain.consumerIndex ≤ q'.consumerIndex := by
  obtain ⟨pc', v?, q', g', steps, step⟩ := consumer_goes_on h.valid h.records h.consumer
  have index : g'.index = g.index := by cases step.progress <;> rfl
  have later := (Register.Spares.of_progress (p := 0) h.valid step.progress).consumed_le
  refine ⟨pc', v?, q', steps, ?_, ?_⟩
  · rw [step.records.producer, index, h.records.producer]
  · rw [step.records.consumer, h.records.consumer]
    omega

namespace Counting

theorem start (chain : Chain α) (even : Index.linking chain.producerIndex = false)
    (producers : Nat) : (ChainMachine.start chain producers).Counting where
  holder marked := by
    rw [ChainMachine.start, even] at marked
    cases marked
  producers p pc before found now := by
    obtain rfl := start_idle found
    cases now
  consumer before now := by cases now

theorem producers_set {pc : ProducerPc α} (h : m.Counting)
    (now : ∀ before, pc.before? = some before → before ≤ m.chain.consumerIndex)
    (p' : Nat) (pc' : ProducerPc α) (before : Nat)
    (found : (m.producers.setIfInBounds p pc)[p']? = some pc')
    (loaded : pc'.before? = some before) : before ≤ m.chain.consumerIndex := by
  rw [Array.getElem?_setIfInBounds] at found
  split at found
  next same =>
      split at found
      next =>
          cases found
          exact now before loaded
      next => cases found
  next apart => exact h.producers p' pc' before found loaded

theorem holder_set {pc pc' : ProducerPc α} (found : m.producers[p]? = some pc)
    (holder : pc'.marks = true ∨ pc.marks = false ∧
      ∃ (p₁ : Nat) (pc₁ : ProducerPc α), m.producers[p₁]? = some pc₁ ∧ pc₁.marks = true) :
    ∃ (p₁ : Nat) (pc₁ : ProducerPc α),
      (m.producers.setIfInBounds p pc')[p₁]? = some pc₁ ∧ pc₁.marks = true := by
  have inBounds : p < m.producers.size := (Array.getElem?_eq_some_iff.mp found).1
  rcases holder with marks | ⟨unmarked, p₁, pc₁, found₁, marks⟩
  · refine ⟨p, pc', ?_, marks⟩
    rw [Array.getElem?_setIfInBounds, if_pos rfl, if_pos inBounds]
  · refine ⟨p₁, pc₁, ?_, marks⟩
    have apart : p ≠ p₁ := by
      rintro rfl
      rw [found] at found₁
      cases found₁
      rw [unmarked] at marks
      cases marks
    rw [Array.getElem?_setIfInBounds, if_neg apart, found₁]

theorem tellProducer (h : m.Counting) (p : Nat) (order : ProducerOrder α) :
    (m.tellProducer p order).Counting := by
  unfold ChainMachine.tellProducer
  split
  next last found =>
      constructor
      case holder =>
        intro marked
        exact holder_set found (.inr ⟨rfl, h.holder marked⟩)
      case producers =>
        apply h.producers_set
        intro before now
        cases order <;> cases now
      case consumer => exact h.consumer
  next => exact h

theorem tellConsumer (h : m.Counting) (order : ConsumerOrder) :
    (m.tellConsumer order).Counting := by
  unfold ChainMachine.tellConsumer
  split
  next =>
      refine { h with consumer := ?_ }
      intro before now
      unfold ConsumerOrder.begin at now
      split at now <;> cases now
  next => exact h

theorem moveProducer (h : m.Counting) (inv : m.Inv g) (p : Nat) (spurious : Bool) :
    (m.moveProducer p spurious).Counting := by
  cases found : m.producers[p]? with
  | none =>
      rw [moveProducer_none found]
      exact h
  | some pc =>
      obtain ⟨pc', vs, q', steps, consumer⟩ := inv.producer_steps found spurious
      rw [moveProducer_ok found steps.run]
      constructor
      case holder =>
        intro marked
        apply holder_set found
        rcases steps.holds_mark inv.valid inv.records
          (inv.producers p pc found) marked with marks | ⟨unmarked, same⟩
        · exact .inl marks
        · exact .inr ⟨unmarked, h.holder (same ▸ marked)⟩
      case producers =>
        simp only [consumer]
        apply h.producers_set
        intro before now
        exact steps.leads.before_le (fun b => h.producers p pc b found) now
      case consumer =>
        simp only [consumer]
        exact h.consumer

theorem moveConsumer (h : m.Counting) (inv : m.Inv g) : m.moveConsumer.Counting := by
  obtain ⟨pc', v?, q', steps, producer, rises⟩ := inv.consumer_steps
  rw [moveConsumer_ok steps.run]
  constructor
  case holder =>
    simp only [producer]
    exact h.holder
  case producers =>
    intro p pc before found now
    exact Nat.le_trans (h.producers p pc before found now) rises
  case consumer =>
    intro before now
    exact Nat.le_trans (steps.leads.before_le h.consumer now) rises

theorem advance (h : m.Counting) (inv : m.Inv g) (move : Move α) : (m.advance move).Counting := by
  cases move with
  | tellProducer p order => exact h.tellProducer p order
  | producer p spurious => exact h.moveProducer inv p spurious
  | tellConsumer order => exact h.tellConsumer order
  | consumer => exact h.moveConsumer inv

end Counting

theorem reached_counting {q : Chain α} (made : q.Made) (producers : Nat)
    (moves : List (Move α)) :
    ∃ g, ((start q producers).replay moves).Inv g ∧
      ((start q producers).replay moves).Counting := by
  induction moves using List.reverseRecOn with
  | nil =>
      obtain ⟨g, inv, -⟩ := reached made producers []
      have even : Index.linking q.producerIndex = false := by
        obtain ⟨size, -, rfl⟩ := made.exists_size
        exact Index.linking_double 0
      exact ⟨g, inv, .start q even producers⟩
  | append_singleton moves move ih =>
      obtain ⟨g, inv, counting⟩ := ih
      obtain ⟨g', moved⟩ := inv.advance move
      rw [replay_concat]
      exact ⟨g', moved.inv, counting.advance inv move⟩

def Move.ofProducer (p : Nat) : Move α → Bool
  | .producer p' _ => p' = p
  | _ => false

def Move.ofConsumer : Move α → Bool
  | .consumer => true
  | _ => false

/-- In this state `n` elements are published and not consumed: the producer index has passed
them. An element whose index is only marked is in `m.claimed`, and is published when its chunk
is linked. -/
structure Sized (m : ChainMachine α) (n : Nat) : Prop where
  published : n + m.chain.consumed = m.chain.produced
  claimed : m.claimed.size = m.chain.produced + (Index.linking m.chain.producerIndex).toNat
  le : n ≤ m.chain.capacity

/-- What the threads are told by their next steps, where the moves on the chain `q` end in
`m`. -/
structure Honest (q : Chain α) (producers : Nat) (moves : List (Move α)) (m : ChainMachine α) :
    Prop where
  /-- An errand finds no room when it loads the consumer's index, and then there is none and
  nobody links a chunk. -/
  full : ∀ (p : Nat) (pc : ProducerPc α) (e : Errand α) (spurious : Bool) (vs : List α)
    (q' : Chain α), m.producers[p]? = some pc → pc.errand? = some e → 0 < e.wanted →
    stepProducer spurious pc m.chain = .ok (.idle (some e.refusal), vs) q' →
    (∃ d, pc = .loadConsumer e d) ∧ m.claimed.size = m.chain.consumed + m.chain.capacity ∧
      Index.linking m.chain.producerIndex = false
  /-- A producer is told the length at its last load of the producer index. -/
  producer_length : ∀ (p : Nat) (pc : ProducerPc α) (n : Nat) (spurious : Bool) (vs : List α)
    (q' : Chain α), m.producers[p]? = some pc → (∀ last, pc ≠ .idle last) →
    stepProducer spurious pc m.chain = .ok (.idle (some (.length n)), vs) q' →
    ∃ earlier later before any, moves = earlier ++ .producer p any :: later ∧
      (∀ move ∈ later, move.ofProducer p = false) ∧
      let m₁ := (start q producers).replay earlier
      m₁.producers[p]? = some (.lengthProducer before) ∧ m₁.Sized n
  /-- The consumer is told the same. -/
  consumer_length : ∀ (n : Nat) (v? : Option α) (q' : Chain α),
    (∀ last, m.consumer ≠ .idle last) →
    stepConsumer m.consumer m.chain = .ok (.idle (some (.length n)), v?) q' →
    ∃ earlier later before, moves = earlier ++ .consumer :: later ∧
      (∀ move ∈ later, move.ofConsumer = false) ∧
      let m₁ := (start q producers).replay earlier
      m₁.consumer = .lengthProducer before ∧ m₁.Sized n

theorem Claimable.lt_stop {d : Draft} {limit : Nat} (h : Claimable g e d limit)
    (seen : Seen g d.index) (wanted : 0 < e.wanted) : d.index + 2 ≤ ProducerPc.stop e d := by
  obtain ⟨k, even, -⟩ := h.allows
  obtain ⟨i, index⟩ := seen.even
  have lt := h.lt
  have two : 2 ≤ Word.double e.wanted := by
    simp only [Word.double, Word.largest, UInt64.size]
    omega
  rw [h.stop]
  omega

theorem ProducerPc.Leads.of_refusal {pc : ProducerPc α} (knows : pc.Knows g p)
    (errand : pc.errand? = some e) (wanted : 0 < e.wanted)
    (refusal : pc.Leads q q' (.idle (some e.refusal))) :
    ∃ d, pc = .loadConsumer e d ∧ q.consumerIndex + d.cursor.mask ≤ d.index ∧
      q.freeAt d.index = 0 := by
  have excluded : (idle (some e.refusal) : ProducerPc α).onErrand = false := by
    cases e <;> rfl
  generalize ends : (idle (some e.refusal) : ProducerPc α) = pc' at refusal excluded
  cases refusal with
  | rests last => cases errand
  | errand h =>
      rw [excluded] at h
      cases h
  | refused e' d same above full =>
      obtain rfl := Option.some.inj errand
      exact ⟨d, rfl, above, full⟩
  | nothing e' d same none =>
      obtain rfl := Option.some.inj errand
      obtain ⟨drafted, limit, claimable⟩ := knows
      have room := claimable.lt_stop drafted.toSeen wanted
      omega
  | first | loaded | answered | again | fault => cases errand

theorem Inv.claimed_size (h : m.Inv g) :
    m.claimed.size = g.published + g.marked.toNat ∧
      Index.linking m.chain.producerIndex = g.marked := by
  have size : m.claimed.size = g.claims.length := by
    rw [← Array.length_toList, h.claimed]
  cases marked : g.marked with
  | false =>
      rw [size, Register.published_open marked, h.records.producer, Register.index_open marked]
      exact ⟨rfl, Index.linking_double _⟩
  | true =>
      have pos := h.valid.marked marked
      rw [size, h.records.producer, Register.index, Register.published, marked]
      exact ⟨(Nat.sub_add_cancel pos).symm, Index.linking_double_succ _⟩

theorem Inv.claimed_le (h : m.Inv g) : m.claimed.size ≤ g.consumed + g.size.capacity := by
  rw [← Array.length_toList, h.claimed]
  exact h.valid.length_le

theorem Inv.full_at (h : m.Inv g) {d : Draft} (drafted : Drafted g d)
    (above : m.chain.consumerIndex + d.cursor.mask ≤ d.index)
    (full : m.chain.freeAt d.index = 0) :
    m.claimed.size = m.chain.consumed + m.chain.capacity ∧
      Index.linking m.chain.producerIndex = false := by
  -- The producer index that was loaded is at least the capacity ahead of the consumer, and
  -- no producer index can be more. So nothing has changed since it was loaded.
  obtain ⟨size, marked⟩ := h.claimed_size
  have le := h.claimed_le
  have loaded := drafted.le
  have consumer := h.records.consumer
  rw [Chain.freeAt, Index.distance, h.records.bound] at full
  rw [h.consumed_eq, h.capacity_eq, marked]
  rw [Register.index] at loaded
  cases linking : g.marked with
  | false =>
      rw [linking, Bool.toNat_false] at size loaded
      exact ⟨by omega, rfl⟩
  | true =>
      rw [linking, Bool.toNat_true] at size loaded
      omega

theorem Inv.taken_le_published (h : m.Inv g) (counting : m.Counting) : g.taken ≤ g.published := by
  cases marked : g.marked with
  | false =>
      rw [Register.published_open marked]
      exact h.valid.taken_le_length
  | true =>
      obtain ⟨p, pc, found, marks⟩ := counting.holder (h.claimed_size.2.trans marked)
      exact (h.producers p pc found).taken_le h.valid marks

theorem Inv.sized (h : m.Inv g) (counting : m.Counting) :
    m.Sized (Index.distance m.chain.producerIndex m.chain.consumerIndex >>> 1) := by
  have length : Index.distance m.chain.producerIndex m.chain.consumerIndex >>> 1 =
      g.published - g.consumed := by
    rw [Index.distance, h.records.producer, h.records.consumer, Register.index,
      Nat.shiftRight_eq_div_pow, Nat.pow_one]
    cases g.marked <;> simp only [Bool.toNat_true, Bool.toNat_false] <;> omega
  obtain ⟨size, marked⟩ := h.claimed_size
  have le := h.claimed_le
  have taken := h.taken_le_published counting
  have consumed := h.valid.consumed_le
  rw [length]
  constructor
  case published =>
    rw [h.consumed_eq, h.produced_eq]
    omega
  case claimed => rw [h.produced_eq, marked, size]
  case le =>
    rw [h.capacity_eq]
    omega

theorem tellProducer_chain (p : Nat) (order : ProducerOrder α) :
    (m.tellProducer p order).chain = m.chain := by
  unfold tellProducer
  split <;> rfl

theorem tellProducer_consumer (p : Nat) (order : ProducerOrder α) :
    (m.tellProducer p order).consumer = m.consumer := by
  unfold tellProducer
  split <;> rfl

theorem tellConsumer_chain (order : ConsumerOrder) : (m.tellConsumer order).chain = m.chain := by
  unfold tellConsumer
  split <;> rfl

theorem tellConsumer_producers (order : ConsumerOrder) :
    (m.tellConsumer order).producers = m.producers := by
  unfold tellConsumer
  split <;> rfl

theorem tellProducer_found {p p' : Nat} {order : ProducerOrder α} {pc : ProducerPc α}
    (now : (m.tellProducer p' order).producers[p]? = some pc) :
    pc = order.begin ∨ m.producers[p]? = some pc := by
  unfold tellProducer at now
  split at now
  next =>
      simp only [Array.getElem?_setIfInBounds] at now
      split at now
      next =>
          split at now
          next => exact .inl (Option.some.inj now).symm
          next => cases now
      next => exact .inr now
  next => exact .inr now

theorem tellProducer_loaded {p p' : Nat} {order : ProducerOrder α}
    (now : (m.tellProducer p' order).producers[p]? = some (.lengthAgain before producer)) :
    m.producers[p]? = some (.lengthAgain before producer) := by
  rcases tellProducer_found now with begins | stays
  · cases order <;> cases begins
  · exact stays

theorem tellConsumer_loaded {order : ConsumerOrder}
    (now : (m.tellConsumer order).consumer = .lengthAgain before producer) :
    m.consumer = .lengthAgain before producer := by
  unfold tellConsumer at now
  split at now
  next =>
      unfold ConsumerOrder.begin at now
      split at now <;> cases now
  next => exact now

theorem Inv.producer_loaded (h : m.Inv g) (counting : m.Counting) (move : Move α)
    (now : (m.advance move).producers[p]? = some (.lengthAgain before producer) ∧
      (m.advance move).chain.consumerIndex = before) :
    ((∃ any, move = .producer p any) ∧ m.producers[p]? = some (.lengthProducer before) ∧
      m.chain.producerIndex = producer ∧ m.chain.consumerIndex = before) ∨
    (m.producers[p]? = some (.lengthAgain before producer) ∧ m.chain.consumerIndex = before) ∧
      move.ofProducer p = false := by
  obtain ⟨now, same⟩ := now
  cases move with
  | tellProducer p' order =>
      rw [ChainMachine.advance, tellProducer_chain] at same
      exact .inr ⟨⟨tellProducer_loaded now, same⟩, rfl⟩
  | producer p' any =>
      rw [ChainMachine.advance] at now same
      cases found : m.producers[p']? with
      | none =>
          rw [moveProducer_none found] at now same
          have apart : p' ≠ p := by
            rintro rfl
            rw [found] at now
            cases now
          exact .inr ⟨⟨now, same⟩, decide_eq_false apart⟩
      | some pc =>
          obtain ⟨pc', vs, q', steps, consumer⟩ := h.producer_steps found any
          rw [moveProducer_ok found steps.run] at now same
          simp only [Array.getElem?_setIfInBounds] at now
          simp only [consumer] at same
          split at now
          next own =>
              subst own
              split at now
              next =>
                  cases now
                  obtain ⟨rfl, loaded, -⟩ := steps.leads.of_loaded
                  exact .inl ⟨⟨any, rfl⟩, found, loaded.symm, same⟩
              next => cases now
          next apart => exact .inr ⟨⟨now, same⟩, decide_eq_false apart⟩
  | tellConsumer order =>
      rw [ChainMachine.advance, tellConsumer_producers] at now
      rw [ChainMachine.advance, tellConsumer_chain] at same
      exact .inr ⟨⟨now, same⟩, rfl⟩
  | consumer =>
      obtain ⟨pc', v?, q', steps, -, rises⟩ := h.consumer_steps
      rw [ChainMachine.advance, moveConsumer_ok steps.run] at now same
      have le := counting.producers p _ before now rfl
      exact .inr ⟨⟨now, Nat.le_antisymm (Nat.le_trans rises (Nat.le_of_eq same)) le⟩, rfl⟩

theorem Inv.consumer_loaded (h : m.Inv g) (move : Move α)
    (now : (m.advance move).consumer = .lengthAgain before producer ∧
      (m.advance move).chain.consumerIndex = before) :
    (move = .consumer ∧ m.consumer = .lengthProducer before ∧
      m.chain.producerIndex = producer ∧ m.chain.consumerIndex = before) ∨
    (m.consumer = .lengthAgain before producer ∧ m.chain.consumerIndex = before) ∧
      move.ofConsumer = false := by
  obtain ⟨now, same⟩ := now
  cases move with
  | tellProducer p order =>
      rw [ChainMachine.advance, tellProducer_consumer] at now
      rw [ChainMachine.advance, tellProducer_chain] at same
      exact .inr ⟨⟨now, same⟩, rfl⟩
  | producer p any =>
      rw [ChainMachine.advance] at now same
      cases found : m.producers[p]? with
      | none =>
          rw [moveProducer_none found] at now same
          exact .inr ⟨⟨now, same⟩, rfl⟩
      | some pc =>
          obtain ⟨pc', vs, q', steps, consumer⟩ := h.producer_steps found any
          rw [moveProducer_ok found steps.run] at now same
          exact .inr ⟨⟨now, consumer.symm.trans same⟩, rfl⟩
  | tellConsumer order =>
      rw [ChainMachine.advance, tellConsumer_chain] at same
      exact .inr ⟨⟨tellConsumer_loaded now, same⟩, rfl⟩
  | consumer =>
      obtain ⟨pc', v?, q', steps, -, -⟩ := h.consumer_steps
      rw [ChainMachine.advance, moveConsumer_ok steps.run] at now same
      obtain rfl : pc' = .lengthAgain before producer := now
      obtain ⟨here, loaded, rfl⟩ := steps.leads.of_loaded
      exact .inl ⟨rfl, here, loaded.symm, same⟩

section Reached

variable {q : Chain α} (made : q.Made) {producers : Nat}

include made

theorem replay_capacity (moves : List (Move α)) :
    ((start q producers).replay moves).chain.capacity = q.capacity := by
  induction moves using List.reverseRecOn with
  | nil => rfl
  | append_singleton moves move ih =>
      obtain ⟨g, inv, -⟩ := reached made producers moves
      obtain ⟨g', moved⟩ := inv.advance move
      rw [replay_concat, moved.inv.capacity_eq, moved.size, ← inv.capacity_eq, ih]

theorem sized_at_length {moves : List (Move α)} {pc : ProducerPc α} {vs : List α} {spurious : Bool}
    (found : ((start q producers).replay moves).producers[p]? = some pc)
    (busy : ∀ last, pc ≠ .idle last)
    (ends : stepProducer spurious pc ((start q producers).replay moves).chain =
      .ok (.idle (some (.length n)), vs) q') :
    ∃ earlier later before any, moves = earlier ++ .producer p any :: later ∧
      (∀ move ∈ later, move.ofProducer p = false) ∧
      let m₁ := (start q producers).replay earlier
      m₁.producers[p]? = some (.lengthProducer before) ∧ m₁.Sized n := by
  obtain ⟨before, producer, rfl, same, rfl⟩ := (ProducerPc.Steps.of_ok ends).leads.of_length busy
  obtain ⟨earlier, move, later, rfl, ⟨⟨any, rfl⟩, here, rfl, rfl⟩, quiet⟩ :=
    exists_entry
      (fun moves => ((start q producers).replay moves).producers[p]? =
          some (.lengthAgain before producer) ∧
        ((start q producers).replay moves).chain.consumerIndex = before)
      (fun fresh => by cases start_idle fresh.1)
      (fun earlier move now => by
        obtain ⟨g, inv, counting⟩ := reached_counting made producers earlier
        rw [replay_concat] at now
        exact inv.producer_loaded counting move now) ⟨found, same.symm⟩
  obtain ⟨g, inv, counting⟩ := reached_counting made producers earlier
  exact ⟨earlier, later, _, any, rfl, quiet, here, inv.sized counting⟩

/-- No producer is ever told a length above the capacity. -/
theorem told_length_le {moves : List (Move α)}
    (told : ((start q producers).replay moves).producers[p]? = some (.idle (some (.length n)))) :
    n ≤ q.capacity := by
  induction moves using List.reverseRecOn with
  | nil => cases start_idle told
  | append_singleton moves move ih =>
      obtain ⟨g, inv, -⟩ := reached made producers moves
      rw [replay_concat] at told
      cases move with
      | tellProducer p' order =>
          rcases tellProducer_found told with begins | stays
          · cases order <;> cases begins
          · exact ih stays
      | producer p' any =>
          rw [ChainMachine.advance] at told
          cases found : ((start q producers).replay moves).producers[p']? with
          | none => exact ih (moveProducer_none found any ▸ told)
          | some pc =>
              obtain ⟨pc', vs, q', steps, -⟩ := inv.producer_steps found any
              rw [moveProducer_ok found steps.run] at told
              simp only [Array.getElem?_setIfInBounds] at told
              split at told
              next own =>
                  split at told
                  next =>
                      obtain rfl := Option.some.inj told
                      by_cases busy : ∀ last, pc ≠ .idle last
                      · obtain ⟨earlier, -, -, -, -, -, -, sized⟩ :=
                          sized_at_length made found busy steps.run
                        exact replay_capacity made earlier ▸ sized.le
                      · obtain ⟨last, rfl⟩ := not_forall_not.mp busy
                        cases steps with
                        | rests => exact ih (own ▸ found)
                  next => cases told
              next => exact ih told
      | tellConsumer order =>
          rw [ChainMachine.advance, tellConsumer_producers] at told
          exact ih told
      | consumer =>
          obtain ⟨pc', v?, q', steps, -⟩ := inv.consumer_steps
          rw [ChainMachine.advance, moveConsumer_ok steps.run] at told
          exact ih told

end Reached

/-- Over every order of steps of any number of producers and the consumer, an errand is
refused only at an instant when the chain is full, and every length is that of the instant
when the producer index was loaded last. -/
theorem answers_honestly {q : Chain α} (made : q.Made) (producers : Nat)
    (moves : List (Move α)) :
    Honest q producers moves ((start q producers).replay moves) where
  full p pc e spurious vs q' found errand wanted ends := by
    obtain ⟨g, inv, -⟩ := reached_counting made producers moves
    have knows := inv.producers p pc found
    obtain ⟨d, rfl, above, full⟩ :=
      (ProducerPc.Steps.of_ok ends).leads.of_refusal knows errand wanted
    exact ⟨⟨d, rfl⟩, inv.full_at knows.1 above full⟩
  producer_length _ _ _ _ _ _ found busy ends := sized_at_length made found busy ends
  consumer_length n v? q' busy ends := by
    obtain ⟨before, producer, now, same, rfl⟩ := (ConsumerPc.Steps.of_ok ends).leads.of_length busy
    obtain ⟨earlier, move, later, rfl, ⟨rfl, here, rfl, rfl⟩, quiet⟩ :=
      exists_entry
        (fun moves => ((start q producers).replay moves).consumer =
            .lengthAgain before producer ∧
          ((start q producers).replay moves).chain.consumerIndex = before) nofun
        (fun earlier move now => by
          obtain ⟨g, inv, counting⟩ := reached_counting made producers earlier
          rw [replay_concat] at now
          exact inv.consumer_loaded move now) ⟨now, same.symm⟩
    obtain ⟨g, inv, counting⟩ := reached_counting made producers earlier
    exact ⟨earlier, later, _, rfl, quiet, here, inv.sized counting⟩

/-- In a race for the last chunk, where one producer holds the mark, the consumer has taken
all that is published and asks for the length. -/
def countingAtMark : List (Move Nat) :=
  racing ++ .tellConsumer .length :: List.replicate 2 .consumer

theorem answers_honestly_at_mark :
    let m := (start (.ofSize ⟨4, 8⟩) 2).replay countingAtMark
    (Chain.chunked 4 8 : Except CapacityError (Chain Nat)) = .ok (.ofSize ⟨4, 8⟩) ∧
      m.consumer.before? = some 12 ∧ m.chain.producerIndex = 13 ∧ m.claimed.size = 7 ∧
      Honest (.ofSize ⟨4, 8⟩) 2 countingAtMark m := by
  intro m
  refine ⟨rfl, ?_, ?_, ?_, answers_honestly (.inl ⟨4, 8, rfl⟩) 2 countingAtMark⟩
  · decide +kernel
  · decide +kernel
  · decide +kernel

end Handoff.ChainMachine
