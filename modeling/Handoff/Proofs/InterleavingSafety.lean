import Handoff.Proofs.Interleaving

/-! What no order of steps can break: claims do not overlap, nobody writes to a slot that
is in use or in a chunk that is gone, and the limit allows no claim that does not fit. -/
namespace Handoff.ChainMachine

variable {α : Type}

namespace ProducerPc

/-- The indices that are claimed here and not yet written. -/
def pending : ProducerPc α → List Nat
  | write _ _ index _ left => (List.range left).map (index + 2 * ·)
  | grow _ d | storeMask _ d _ | writeFirst _ d _ => [d.index]
  | _ => []

def jumpPlace (d : Draft) : Nat × Nat :=
  (d.cursor.chunk, Index.position d.index d.cursor.mask)

/-- The places, chunk and slot, that this producer is about to write or to mark with a
jump. -/
def targets : ProducerPc α → List (Nat × Nat)
  | write _ cursor index _ left =>
    (List.range left).map fun k => (cursor.chunk, Index.position (index + 2 * k) cursor.mask)
  | storeMask _ d next | writeFirst _ d next =>
    [(next.chunk, Index.position d.index next.mask), jumpPlace d]
  | grow _ d | link _ d _ | checkRoom _ d _ | storeLimit _ d _ | storeIndex _ d | writeJump _ d =>
    [jumpPlace d]
  | _ => []

def marks : ProducerPc α → Bool
  | grow _ _ | storeMask _ _ _ | writeFirst _ _ _ | link _ _ _ | checkRoom _ _ _
  | storeLimit _ _ _ | storeIndex _ _ => true
  | _ => false

end ProducerPc

/-- Safety of one state. The producers' chunk begins at `tail`. -/
structure Safe (m : ChainMachine α) (tail : Nat) : Prop where
  disjoint : ∀ (p p' : Nat) (pc pc' : ProducerPc α), m.producers[p]? = some pc →
    m.producers[p']? = some pc' → p ≠ p' → ∀ i ∈ pc.pending, i ∉ pc'.pending
  vacant : ∀ (p : Nat) (pc : ProducerPc α), m.producers[p]? = some pc →
    ∀ place ∈ pc.targets, m.chain.store.slot? place.1 place.2 = some .empty
  limit_le : m.chain.limit ≤ min (m.chain.consumerIndex + 2 * m.chain.capacity)
    (max m.chain.consumerIndex tail + 2 * (m.chain.chunkSize - 1))
  rising : ∀ move, m.storesLimit move = false → m.chain.limit ≤ (m.advance move).chain.limit
  storing : ∀ (p : Nat) (e : Errand α) (d : Draft) (limit : Nat),
    m.producers[p]? = some (.storeLimit e d limit) → d.index + 2 ≤ limit
  holder : ∀ (p p' : Nat) (pc pc' : ProducerPc α), m.producers[p]? = some pc →
    m.producers[p']? = some pc' → pc.marks = true → pc'.marks = true → p = p'
  marked : ∀ (p : Nat) (pc : ProducerPc α), m.producers[p]? = some pc → pc.marks = true →
    Index.linking m.chain.producerIndex = true
  producers : ∀ (p : Nat) (pc : ProducerPc α) (spurious : Bool), m.producers[p]? = some pc →
    pc ≠ .fault ∧ ∃ r q, stepProducer spurious pc m.chain = .ok r q
  consumer : m.consumer ≠ .fault ∧ ∃ r q, stepConsumer m.consumer m.chain = .ok r q

variable {m : ChainMachine α} {g : Register α} {p i : Nat} {pc : ProducerPc α}

theorem ProducerPc.Knows.own_pending (knows : pc.Knows g p) (pending : i ∈ pc.pending) :
    ∃ v, g.claims[i / 2]? = some (p, v) := by
  cases pc with
  | write e cursor index done left =>
      obtain ⟨-, -, j, rfl, holes⟩ := knows
      obtain ⟨k, hk, rfl⟩ := List.mem_map.mp pending
      refine ⟨e.element (done + k), ?_⟩
      have half : (2 * j + 2 * k) / 2 = j + k := by omega
      rw [half]
      exact (holes k (List.mem_range.mp hk)).own
  | grow e d =>
      obtain ⟨m, marking⟩ := knows
      obtain rfl := List.mem_singleton.mp pending
      refine ⟨e.element 0, ?_⟩
      rw [marking.index, Nat.mul_div_cancel_left m Nat.two_pos]
      exact marking.held.own
  | storeMask e d next | writeFirst e d next =>
      obtain ⟨-, m, growing, -⟩ := knows
      obtain rfl := List.mem_singleton.mp pending
      refine ⟨e.element 0, ?_⟩
      rw [growing.index, Nat.mul_div_cancel_left m Nat.two_pos]
      exact growing.own
  | _ => exact absurd pending List.not_mem_nil

theorem hole_empty (valid : g.Valid) {q : Chain α} (records : q.Records g) {c : Nat} {v : α}
    (hole : g.Hole p c i v) {mask : Nat} (eq : mask = Index.maskOf g.size.chunkSize) :
    q.store.slot? c (Index.position (2 * i) mask) = some .empty := by
  obtain ⟨live, lo, hi, empty⟩ := valid.hole_slot hole
  rw [eq, Chain.Records.position_eq valid, ← empty]
  exact records.store.slot live hole.within.chunk lo hi

theorem jump_empty (valid : g.Valid) {q : Chain α} (records : q.Records g) {e : Errand α}
    {d : Draft} {j : Nat} (linking : Linking g p e d j) :
    q.store.slot? (ProducerPc.jumpPlace d).1 (ProducerPc.jumpPlace d).2 = some .empty := by
  obtain ⟨live, lo, hi, empty⟩ := valid.jump_slot linking.link linking.unjumped
  rw [ProducerPc.jumpPlace, linking.mask, linking.index, Chain.Records.position_eq valid, ← empty]
  exact records.store.slot live (Nat.le_of_lt (List.getElem?_eq_some_iff.mp linking.link).1) lo hi

theorem ProducerPc.Knows.vacant (valid : g.Valid) {q : Chain α} (records : q.Records g)
    (knows : pc.Knows g p) {place : Nat × Nat} (target : place ∈ pc.targets) :
    q.store.slot? place.1 place.2 = some .empty := by
  cases pc with
  | write e cursor index done left =>
      obtain ⟨-, mask, j, rfl, holes⟩ := knows
      obtain ⟨k, hk, rfl⟩ := List.mem_map.mp target
      rw [← Nat.mul_add]
      exact hole_empty valid records (holes k (List.mem_range.mp hk)) mask
  | grow e d =>
      obtain ⟨j, marking⟩ := knows
      obtain rfl := List.mem_singleton.mp target
      have within : Links.Within g.links g.links.length j := by
        have later := Links.start_mono marking.ordered (Nat.le_succ g.links.length) (by simp)
        rw [Links.start_append (Nat.le_refl _), Nat.succ_eq_add_one, Links.start_concat] at later
        exact .last later
      have hole : g.Hole p g.links.length j (e.element 0) :=
        ⟨marking.held.own, marking.unwritten, within⟩
      rw [ProducerPc.jumpPlace, marking.cursor, marking.index]
      exact hole_empty valid records hole rfl
  | storeMask e d next | writeFirst e d next =>
      obtain ⟨rfl, j, growing, unwritten⟩ := knows
      rcases List.mem_cons.mp target with rfl | jump
      · rw [growing.index]
        exact hole_empty valid records (growing.hole unwritten) rfl
      · obtain rfl := List.mem_singleton.mp jump
        exact jump_empty valid records growing.toLinking
  | link e d next | checkRoom e d next =>
      obtain ⟨-, j, growing, -⟩ := knows
      obtain rfl := List.mem_singleton.mp target
      exact jump_empty valid records growing.toLinking
  | storeLimit e d limit =>
      obtain ⟨-, -, j, growing, -⟩ := knows
      obtain rfl := List.mem_singleton.mp target
      exact jump_empty valid records growing.toLinking
  | storeIndex e d =>
      obtain ⟨j, growing, -⟩ := knows
      obtain rfl := List.mem_singleton.mp target
      exact jump_empty valid records growing.toLinking
  | writeJump e d =>
      obtain ⟨j, linking, -⟩ := knows
      obtain rfl := List.mem_singleton.mp target
      exact jump_empty valid records linking
  | _ => exact absurd target List.not_mem_nil

theorem ProducerPc.Knows.held (knows : pc.Knows g p) (marks : pc.marks = true) :
    ∃ j v, g.Held p j v := by
  cases pc with
  | grow e d =>
      obtain ⟨j, marking⟩ := knows
      exact ⟨j, _, marking.held⟩
  | storeMask e d next | writeFirst e d next | link e d next | checkRoom e d next =>
      obtain ⟨-, j, growing, -⟩ := knows
      exact ⟨j, _, growing.held⟩
  | storeLimit e d limit =>
      obtain ⟨-, -, j, growing, -⟩ := knows
      exact ⟨j, _, growing.held⟩
  | storeIndex e d =>
      obtain ⟨j, growing, -⟩ := knows
      exact ⟨j, _, growing.held⟩
  | _ => cases marks

theorem Inv.limit_le (h : m.Inv g) :
    m.chain.limit ≤ min (m.chain.consumerIndex + 2 * m.chain.capacity)
      (max m.chain.consumerIndex (2 * g.last) + 2 * (m.chain.chunkSize - 1)) := by
  obtain ⟨k, eq, le⟩ := h.records.limit
  have size : m.chain.chunkSize = g.size.chunkSize :=
    sizeOfMask_eq h.valid (congrArg Cursor.mask h.records.tail)
  rw [h.capacity_eq, size, h.records.consumer, eq]
  simp only [Register.reach] at le
  omega

theorem Inv.safe (h : m.Inv g) : m.Safe (2 * g.last) where
  disjoint p p' pc pc' found found' apart i pending pending' := by
    obtain ⟨v, own⟩ := (h.producers p pc found).own_pending pending
    obtain ⟨v', own'⟩ := (h.producers p' pc' found').own_pending pending'
    exact apart (Register.owner_unique own own')
  vacant p pc found place target := (h.producers p pc found).vacant h.valid h.records target
  limit_le := h.limit_le
  rising move stores := by
    obtain ⟨g', moved⟩ := h.advance move
    exact moved.limit stores
  storing p e d limit found := (h.producers p _ found).2.1
  holder p p' pc pc' found found' marks marks' := by
    obtain ⟨j, v, held⟩ := (h.producers p pc found).held marks
    obtain ⟨j', v', held'⟩ := (h.producers p' pc' found').held marks'
    exact held.unique held'
  marked p pc found marks := by
    obtain ⟨j, v, held⟩ := (h.producers p pc found).held marks
    rw [h.records.producer, held.index]
    exact Index.linking_double_succ j
  producers p pc spurious found := by
    have knows := h.producers p pc found
    obtain ⟨pc', vs, q', g', steps, -⟩ := producer_goes_on h.valid h.records knows spurious
    refine ⟨?_, _, _, steps.run⟩
    rintro rfl
    exact knows
  consumer := by
    have knows := h.consumer
    obtain ⟨pc', v?, q', g', steps, -⟩ := consumer_goes_on h.valid h.records knows
    refine ⟨fun fault => ?_, _, _, steps.run⟩
    rw [fault] at knows
    exact knows

/-- Over every order of steps of any number of producers and the consumer, with any loads
stale and any compare-exchange failing, the chain stays safe. -/
theorem stays_safe {q : Chain α} (made : q.Made) (producers : Nat) (moves : List (Move α)) :
    ((start q producers).replay moves).Safe ((start q producers).tailStart 0 moves) := by
  obtain ⟨g, inv, last⟩ := reached made producers moves
  exact last ▸ inv.safe

/-- Two producers at a chain of chunks of four, for up to eight. Six elements are in when
producer 1 loads limit and index. Producer 0 marks the index, creates a chunk and works
out a limit from what is left of the capacity. Then the consumer takes all six, and
producer 1 raises the limit from what it has loaded. -/
def racing : List (Move Nat) :=
  .tellProducer 0 (.fill 3 id) :: List.replicate 8 (.producer 0 false) ++
  .tellProducer 0 (.offer 3) :: List.replicate 14 (.producer 0 false) ++
  .tellProducer 0 (.fill 2 (· + 4)) :: List.replicate 7 (.producer 0 false) ++
  .tellProducer 1 (.offer 7) :: List.replicate 4 (.producer 1 false) ++
  .tellProducer 0 (.offer 6) :: List.replicate 11 (.producer 0 false) ++
  .tellConsumer (.drain 6) :: List.replicate 27 .consumer ++
  List.replicate 2 (.producer 1 false)

theorem stays_safe_racing :
    (Chain.chunked 4 8 : Except CapacityError (Chain Nat)) = .ok (.ofSize ⟨4, 8⟩) ∧
      ((start (.ofSize ⟨4, 8⟩) 2).replay racing).Safe
        ((start (.ofSize ⟨4, 8⟩) 2).tailStart 0 racing) :=
  ⟨rfl, stays_safe (.inl ⟨4, 8, rfl⟩) 2 racing⟩

/-- Producer 0 then stores the lower limit that it has worked out before. -/
theorem limit_falls :
    ¬ ∀ (q : Chain Nat), q.Made → ∀ (producers : Nat) (moves : List (Move Nat)) (move : Move Nat),
      ((start q producers).replay moves).chain.limit ≤
        (((start q producers).replay moves).advance move).chain.limit := by
  intro rising
  have falls : ¬ ((start (.ofSize ⟨4, 8⟩) 2).replay racing).chain.limit ≤
      (((start (.ofSize ⟨4, 8⟩) 2).replay racing).advance (.producer 0 false)).chain.limit := by
    decide +kernel
  exact falls (rising (.ofSize ⟨4, 8⟩) (.inl ⟨4, 8, rfl⟩) 2 racing (.producer 0 false))

end Handoff.ChainMachine
