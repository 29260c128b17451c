import Handoff.ChainMachine.Basic
import Handoff.Proofs.ConsumerSteps
import Handoff.Proofs.ProducerSteps

/-! A chain that any number of producers and one consumer use at once, over every order
of their steps. One step keeps the memory as the register says and each thread with what it
knows, so every run does. -/
namespace Handoff

variable {α : Type}

namespace Register

def ofSize (size : ChainSize) : Register α :=
  { size
    claims := []
    written := fun _ => false
    marked := false
    links := []
    joined := fun _ => false
    jumped := fun _ => false
    head := 0
    taken := 0
    consumed := 0 }

theorem ofSize_valid {size : ChainSize} (fits : size.Fits) : (ofSize size : Register α).Valid where
  fits := fits
  consumed_le := Nat.le_refl _
  length_le := Nat.zero_le _
  published_le := Nat.zero_le _
  marked h := absurd h Bool.false_ne_true
  ordered := List.pairwise_singleton _ _
  linked _ h := absurd h List.not_mem_nil
  gap _ _ h := by cases h
  lt_length _ h := absurd h Bool.false_ne_true
  written _ h := absurd h (Nat.not_lt_zero _)
  joined _ h := absurd h Bool.false_ne_true
  jumped _ h := absurd h Bool.false_ne_true
  head_le := Nat.le_refl _
  head_start := Nat.le_refl _
  head_next _ h := by cases h
  passed _ h := absurd h (Nat.not_lt_zero _)

end Register

theorem Chain.ofSize_records {size : ChainSize} (fits : size.Fits) :
    (Chain.ofSize size : Chain α).Records (.ofSize size) where
  consumer := rfl
  producer := rfl
  limit := by
    have lt := fits.lt
    refine ⟨size.chunkSize - 1, Index.maskOf_eq size.chunkSize, ?_⟩
    simp only [Register.reach, Register.ofSize]
    omega
  bound := rfl
  head := rfl
  tail := rfl
  store :=
    { first_le := Nat.le_refl _
      created := rfl
      freed := fun _ h => absurd h (Nat.not_lt_zero _)
      live := fun c _ h => by
        obtain rfl : c = 0 := Nat.le_zero.mp h
        exact ⟨.ofSize size.chunkSize, rfl, rfl, .ofSize size.chunkSize 0⟩ }
  discarded := rfl

namespace ChainMachine

def storesLimit (m : ChainMachine α) : Move α → Bool
  | .producer p _ => m.producers[p]?.any ProducerPc.storesLimit
  | _ => false

/-- The index at which this move creates a chunk. -/
def begins? (m : ChainMachine α) : Move α → Option Nat
  | .producer p _ => m.producers[p]?.bind ProducerPc.begins?
  | _ => none

/-- Where the producers' chunk begins after the moves, if it began at `start` before
them. -/
def tailStart : ChainMachine α → Nat → List (Move α) → Nat
  | _, start, [] => start
  | m, start, move :: rest => (m.advance move).tailStart ((m.begins? move).getD start) rest

theorem moveProducer_none {m : ChainMachine α} {p : Nat} (found : m.producers[p]? = none)
    (spurious : Bool) : m.moveProducer p spurious = m := by
  rw [moveProducer, found]

theorem moveProducer_ok {m : ChainMachine α} {p : Nat} {pc pc' : ProducerPc α} {spurious : Bool}
    {vs : List α} {q' : Chain α} (found : m.producers[p]? = some pc)
    (ok : stepProducer spurious pc m.chain = .ok (pc', vs) q') :
    m.moveProducer p spurious = ⟨q', m.producers.setIfInBounds p pc', m.consumer,
      m.claimed ++ vs.map (p, ·), m.received⟩ := by
  rw [moveProducer, found]
  simp only [ok]

theorem moveConsumer_ok {m : ChainMachine α} {pc' : ConsumerPc α} {v? : Option α} {q' : Chain α}
    (ok : stepConsumer m.consumer m.chain = .ok (pc', v?) q') :
    m.moveConsumer = ⟨q', m.producers, pc', m.claimed, m.received ++ v?.toList⟩ := by
  rw [moveConsumer]
  simp only [ok]

theorem start_idle {chain : Chain α} {producers p : Nat} {pc : ProducerPc α}
    (found : (start chain producers).producers[p]? = some pc) : pc = .idle none := by
  simp only [start, Array.getElem?_replicate] at found
  split at found
  next => exact (Option.some.inj found).symm
  next => cases found

/-- The memory is as the register says, and each thread is where it knows what it needs. -/
structure Inv (m : ChainMachine α) (g : Register α) : Prop where
  valid : g.Valid
  records : m.chain.Records g
  claimed : m.claimed.toList = g.claims
  received : m.received.toList = (g.claims.take g.taken).map Prod.snd
  producers : ∀ p (pc : ProducerPc α), m.producers[p]? = some pc → pc.Knows g p
  consumer : m.consumer.Knows g

/-- One move from `m` to `m'`. -/
structure Moved (m : ChainMachine α) (g : Register α) (move : Move α) (m' : ChainMachine α)
    (g' : Register α) : Prop where
  inv : m'.Inv g'
  size : g'.size = g.size
  limit : m.storesLimit move = false → m.chain.limit ≤ m'.chain.limit
  last : 2 * g'.last = (m.begins? move).getD (2 * g.last)

namespace Inv

variable {m : ChainMachine α} {g g' : Register α} {p : Nat}

theorem start {size : ChainSize} (fits : size.Fits) (producers : Nat) :
    (ChainMachine.start (Chain.ofSize size : Chain α) producers).Inv (.ofSize size) where
  valid := Register.ofSize_valid fits
  records := Chain.ofSize_records fits
  claimed := rfl
  received := rfl
  producers p pc h := by
    obtain rfl := start_idle h
    trivial
  consumer := rfl

theorem capacity_eq (h : m.Inv g) : m.chain.capacity = g.size.capacity := by
  rw [Chain.capacity, h.records.bound, Nat.mul_div_cancel_left _ Nat.two_pos]

theorem consumed_eq (h : m.Inv g) : m.chain.consumed = g.consumed := by
  rw [Chain.consumed, h.records.consumer, Nat.mul_div_cancel_left _ Nat.two_pos]

theorem produced_eq (h : m.Inv g) : m.chain.produced = g.published := by
  rw [Chain.produced, h.records.producer, Register.index]
  cases g.marked <;> simp only [Bool.toNat_true, Bool.toNat_false] <;> omega

theorem producers_set (h : m.Inv g) (spares : ∀ p', p' ≠ p → g.Spares p' g') {pc' : ProducerPc α}
    (knows : pc'.Knows g' p) (p' : Nat) (pc : ProducerPc α)
    (found : (m.producers.setIfInBounds p pc')[p']? = some pc) : pc.Knows g' p' := by
  rw [Array.getElem?_setIfInBounds] at found
  split at found
  next same =>
      subst same
      split at found
      · cases found
        exact knows
      · cases found
  next apart => exact (h.producers p' pc found).spared (spares p' (Ne.symm apart))

theorem tellProducer (h : m.Inv g) (p : Nat) (order : ProducerOrder α) :
    (m.tellProducer p order).Inv g := by
  unfold ChainMachine.tellProducer
  split
  · refine { h with producers := h.producers_set (fun p' _ => .refl p' g) ?_ }
    cases order <;> trivial
  · exact h

theorem tellConsumer (h : m.Inv g) (order : ConsumerOrder) : (m.tellConsumer order).Inv g := by
  unfold ChainMachine.tellConsumer
  split
  next idle =>
      have knows := h.consumer
      rw [idle] at knows
      refine { h with consumer := ?_ }
      unfold ConsumerOrder.begin
      split <;> exact knows
  · exact h

theorem moveProducer (h : m.Inv g) (p : Nat) (spurious : Bool) :
    ∃ g', m.Moved g (.producer p spurious) (m.moveProducer p spurious) g' := by
  cases found : m.producers[p]? with
  | none =>
      refine ⟨g, ?_⟩
      rw [moveProducer_none found]
      refine ⟨h, rfl, fun _ => Nat.le_refl _, ?_⟩
      rw [begins?, found, Option.bind_none, Option.getD_none]
  | some pc =>
      obtain ⟨pc', vs, q', g', steps, step⟩ :=
        producer_goes_on h.valid h.records (h.producers p pc found) spurious
      have spares : ∀ p', p' ≠ p → g.Spares p' g' := fun p' apart =>
        .of_change (Ne.symm apart) step.change
      have feeds := Register.Feeds.of_change h.valid step.change
      rw [moveProducer_ok found steps.run]
      refine ⟨g', ?_⟩
      constructor
      case inv =>
        constructor
        case valid => exact h.valid.change step.change
        case records => exact step.records
        case claimed => exact Array.toList_appendList.trans (by rw [h.claimed, step.claims])
        case received =>
          rw [step.claims, feeds.taken, List.take_append_of_le_length h.valid.taken_le_length,
            h.received]
        case producers => exact h.producers_set spares step.knows
        case consumer => exact h.consumer.fed feeds
      case size => exact feeds.size
      case limit =>
        intro stores
        apply step.limit
        simpa only [storesLimit, found, Option.any_some] using stores
      case last =>
        rw [begins?, found, Option.bind_some]
        exact step.last

theorem moveConsumer (h : m.Inv g) : ∃ g', m.Moved g .consumer m.moveConsumer g' := by
  obtain ⟨pc', v?, q', g', steps, step⟩ := consumer_goes_on h.valid h.records h.consumer
  have spares : ∀ p', g.Spares p' g' := fun p' => .of_progress h.valid step.progress
  have claims : g'.claims = g.claims := by cases step.progress <;> rfl
  have last : g'.last = g.last := by cases step.progress <;> rfl
  rw [moveConsumer_ok steps.run]
  refine ⟨g', ?_⟩
  constructor
  case inv =>
    constructor
    case valid => exact h.valid.progress step.progress
    case records => exact step.records
    case claimed => rw [h.claimed, claims]
    case received => exact Array.toList_appendList.trans (by rw [h.received, claims, step.taken])
    case producers =>
      intro p pc found
      exact (h.producers p pc found).spared (spares p)
    case consumer => exact step.knows
  case size => exact (spares 0).size
  case limit =>
    intro _
    exact Nat.le_of_eq step.limit.symm
  case last => exact congrArg (2 * ·) last

theorem advance (h : m.Inv g) (move : Move α) : ∃ g', m.Moved g move (m.advance move) g' := by
  cases move with
  | tellProducer p order =>
      refine ⟨g, h.tellProducer p order, rfl, fun _ => Nat.le_of_eq ?_, rfl⟩
      rw [ChainMachine.advance, ChainMachine.tellProducer]
      split <;> rfl
  | producer p spurious => exact h.moveProducer p spurious
  | tellConsumer order =>
      refine ⟨g, h.tellConsumer order, rfl, fun _ => Nat.le_of_eq ?_, rfl⟩
      rw [ChainMachine.advance, ChainMachine.tellConsumer]
      split <;> rfl
  | consumer => exact h.moveConsumer

theorem replay (h : m.Inv g) (moves : List (Move α)) :
    ∃ g', (m.replay moves).Inv g' ∧ 2 * g'.last = m.tailStart (2 * g.last) moves := by
  induction moves generalizing m g with
  | nil => exact ⟨g, h, rfl⟩
  | cons move rest ih =>
      obtain ⟨g₁, moved⟩ := h.advance move
      obtain ⟨g₂, inv, last⟩ := ih moved.inv
      exact ⟨g₂, inv, by rw [last, moved.last, tailStart]⟩

end Inv

theorem reached {q : Chain α} (made : q.Made) (producers : Nat)
    (moves : List (Move α)) :
    ∃ g, ((start q producers).replay moves).Inv g ∧
      2 * g.last = (start q producers).tailStart 0 moves := by
  obtain ⟨size, fits, rfl⟩ := made.exists_size
  exact (Inv.start fits producers).replay moves

end ChainMachine
end Handoff
