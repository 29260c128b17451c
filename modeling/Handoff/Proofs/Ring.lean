import Mathlib.Data.List.Basic
import Handoff.Proofs.Fifo
import Handoff.Proofs.Window

/-! A ring holds the list of its elements: at each index of the window that begins
at the consumer's index there is the element of this index or nothing. What the
producer learns from its probes then depends on the length of the list alone. -/
namespace Handoff.Ring

variable {α E : Type}

/-- The ring holds the elements of `f`, at the same indices. Whatever was probed,
the producer's limit is within the window. -/
structure Models (q : Ring α) (f : Fifo α) : Prop where
  pow : f.capacity.isPowerOfTwo
  produced : q.producerIndex = f.produced
  consumed : q.consumerIndex = f.consumed
  balance : f.produced = f.consumed + f.items.length
  bound : f.items.length ≤ f.capacity
  shown : q.chunk.Shows f.capacity f.consumed fun i => .ofCell f.items[i - f.consumed]?
  lookAhead : q.lookAhead = f.burst
  burst_pos : 0 < f.burst
  burst_lt : f.burst < f.capacity
  limit : q.producerLimit ≤ f.consumed + f.capacity

theorem onChunk_ok {β : Type} {act : Act (Chunk α) β} {q : Ring α} {b : β} {chunk : Chunk α}
    (h : act q.chunk = .ok b chunk) : onChunk act q = .ok b { q with chunk := chunk } := by
  simp only [onChunk, h]

def contents (q : Ring α) : List α :=
  (List.range' q.consumerIndex q.length).filterMap fun i =>
    (q.chunk.slot? (Index.slotOf i q.capacity)).bind Slot.value?

namespace Models

variable {q : Ring α} {f : Fifo α}

theorem capacity_eq (h : q.Models f) : q.capacity = f.capacity := h.shown.size

theorem slotOf_eq (h : q.Models f) (i : Nat) :
    Index.slotOf i q.chunk.size = i % f.capacity := by
  rw [h.shown.size, Index.slotOf_eq_mod h.pow]

theorem vacantAt_iff (h : q.Models f) {i : Nat} (lo : f.consumed ≤ i)
    (hi : i < f.consumed + f.capacity) : q.vacantAt i = true ↔ f.produced ≤ i := by
  have hb := h.balance
  rw [vacantAt, h.slotOf_eq, h.shown.vacant_iff lo hi]
  by_cases hlt : i - f.consumed < f.items.length
  · simp only [List.getElem?_eq_getElem hlt, Slot.ofCell_some, reduceCtorEq, false_iff]
    omega
  · simp only [List.getElem?_eq_none (Nat.le_of_not_lt hlt), Slot.ofCell_none, true_iff]
    omega

theorem vacantAt_produced (h : q.Models f) : q.vacantAt f.produced = !f.isFull := by
  have hb := h.balance
  have hc := h.bound
  rw [Bool.eq_iff_iff]
  by_cases full : f.items.length < f.capacity
  · rw [h.vacantAt_iff (by omega) (by omega)]
    simpa [Fifo.isFull] using full
  · have around : f.produced % f.capacity = f.consumed % f.capacity := by
      rw [hb, Nat.le_antisymm hc (Nat.le_of_not_lt full), Nat.add_mod_right]
    have pos := h.burst_lt
    rw [vacantAt, h.slotOf_eq, around, ← h.slotOf_eq, ← vacantAt,
      h.vacantAt_iff (Nat.le_refl _) (by omega)]
    simp only [Fifo.isFull, Bool.not_eq_true', decide_eq_false_iff_not]
    omega

theorem vacantAhead_produced (h : q.Models f) :
    q.vacantAhead f.produced = decide (f.items.length + f.burst < f.capacity) := by
  have hb := h.balance
  have hc := h.bound
  have hlt := h.burst_lt
  have hpos := h.burst_pos
  rw [Bool.eq_iff_iff, decide_eq_true_iff, vacantAhead, h.lookAhead]
  by_cases room : f.items.length + f.burst < f.capacity
  · rw [h.vacantAt_iff (by omega) (by omega)]
    omega
  · have around : (f.produced + f.burst) % f.capacity =
        (f.produced + f.burst - f.capacity) % f.capacity :=
      Nat.mod_eq_sub_mod (by omega)
    rw [vacantAt, h.slotOf_eq, around, ← h.slotOf_eq, ← vacantAt,
      h.vacantAt_iff (by omega) (by omega)]
    omega

theorem vacantAt_consumed (h : q.Models f) : q.vacantAt f.consumed = f.items.isEmpty := by
  have hb := h.balance
  have hlt := h.burst_lt
  rw [Bool.eq_iff_iff, h.vacantAt_iff (Nat.le_refl _) (by omega), List.isEmpty_iff,
    ← List.length_eq_zero_iff]
  omega

theorem length_eq (h : q.Models f) : q.length = f.items.length := by
  rw [length, Index.distance, h.produced, h.consumed, h.balance, Nat.add_sub_cancel_left]

theorem contents_eq (h : q.Models f) : q.contents = f.items := by
  have hb := h.bound
  have shown : ∀ i ∈ List.range' f.consumed f.items.length,
      (q.chunk.slot? (Index.slotOf i q.capacity)).bind Slot.value? = f.items[i - f.consumed]? := by
    intro i hi
    rw [List.mem_range'_1] at hi
    rw [capacity, h.slotOf_eq, h.shown.slot i hi.1 (by omega), List.getElem?_eq_getElem (by omega)]
    rfl
  rw [contents, h.length_eq, h.consumed, List.filterMap_congr shown,
    Index.filterMap_range'_getElem?]

theorem indicators_eq (h : q.Models f) :
    Channel.indicators q = Channel.indicators f := by
  have hb := h.balance
  have empty : q.isEmpty = f.items.isEmpty := by
    rw [isEmpty, Bool.eq_iff_iff, beq_iff_eq, h.produced, h.consumed, List.isEmpty_iff,
      ← List.length_eq_zero_iff]
    omega
  simp only [Channel.indicators, h.length_eq, empty, h.capacity_eq, h.produced, h.consumed]

theorem vacant_produced (h : q.Models f) (room : f.items.length < f.capacity) :
    q.chunk.vacant (Index.slotOf f.produced q.capacity) = true := by
  have vacant : q.vacantAt f.produced = true := by
    rw [h.vacantAt_produced]
    simpa [Fifo.isFull] using room
  exact vacant

/-- With the next element in its slot and its index published, the list has grown by
this element, and nothing else has changed. -/
theorem stored (h : q.Models f) (room : f.items.length < f.capacity) (v : α) :
    Models { q with
      chunk := q.chunk.setSlot (Index.slotOf f.produced q.capacity) (.value v)
      producerIndex := f.produced + 1 } (f.append v) := by
  have hb := h.balance
  rw [capacity, h.slotOf_eq]
  refine ⟨h.pow, rfl, h.consumed, ?_, ?_, ?_, h.lookAhead, h.burst_pos, h.burst_lt, h.limit⟩
  · simp only [Fifo.append, List.length_append, List.length_singleton]
    omega
  · simp only [Fifo.append, List.length_append, List.length_singleton]
    exact room
  · refine (h.shown.set (i := f.produced) (by omega) (by omega) (.value v)).congr ?_
    intro i lo hi
    simp only [Fifo.append, List.getElem?_append, List.getElem?_singleton]
    by_cases same : i = f.produced
    · have last : f.produced - f.consumed = f.items.length := by omega
      simp [same, last]
    · by_cases old : i - f.consumed < f.items.length
      · simp only [same, old, if_false, if_true]
      · have later : i - f.consumed - f.items.length ≠ 0 := by omega
        simp only [same, old, later, if_false, List.getElem?_eq_none (Nat.le_of_not_lt old)]

theorem publish (h : q.Models f) (room : f.items.length < f.capacity) (v : α) :
    ∃ q', Ring.publish f.produced v q = .ok () q' ∧ q'.Models (f.append v) := by
  refine ⟨_, ?_, h.stored room v⟩
  rw [Ring.publish, Act.bind_view,
    Act.bind_ok (onChunk_ok (Chunk.write_ok (h.vacant_produced room) v)), Act.modify_apply]

theorem withLimit (h : q.Models f) {limit : Nat} (le : limit ≤ f.consumed + f.capacity) :
    Models { q with producerLimit := limit } f :=
  { h with limit := le }

theorem hasRoom (h : q.Models f) :
    ∃ q', Ring.hasRoom f.produced q = .ok (!f.isFull) q' ∧ q'.Models f := by
  -- A cached limit, a probe ahead and a look at the slot itself come to the same.
  have hb := h.balance
  have hc := h.bound
  rw [Ring.hasRoom, Act.bind_view]
  split
  next below =>
      have room : f.isFull = false := by
        have := h.limit
        simp only [Fifo.isFull, decide_eq_false_iff_not]
        omega
      exact ⟨q, by simp [room], h⟩
  next =>
      rw [Act.bind_view, h.vacantAhead_produced]
      split
      next ahead =>
          have ahead := of_decide_eq_true ahead
          have room : f.isFull = false := by
            simp only [Fifo.isFull, decide_eq_false_iff_not]
            omega
          have reach := h.lookAhead
          refine ⟨{ q with producerLimit := f.produced + q.lookAhead }, ?_, ?_⟩
          · simp [room]
          · exact h.withLimit (by omega)
      next => exact ⟨q, congrArg (EStateM.Result.ok · q) h.vacantAt_produced, h⟩

theorem held_consumed (h : q.Models f) {v : α} {rest : List α} (items : f.items = v :: rest) :
    q.chunk.slot? (Index.slotOf f.consumed q.capacity) = some (.value v) := by
  have hlt := h.burst_lt
  rw [capacity, h.slotOf_eq, h.shown.slot f.consumed (Nat.le_refl _) (by omega), items]
  simp

/-- With the oldest element out of its slot and its index released, the list has lost
this element. The slot becomes that of the index just past the window. -/
theorem taken (h : q.Models f) {v : α} {rest : List α} (items : f.items = v :: rest) :
    Models { q with
      chunk := q.chunk.setSlot (Index.slotOf f.consumed q.capacity) .empty
      consumerIndex := f.consumed + 1 } { f with items := rest, consumed := f.consumed + 1 } := by
  have hb := h.balance
  have hc := h.bound
  have hl := h.limit
  have pos := h.burst_lt
  rw [items, List.length_cons] at hb hc
  rw [capacity, h.slotOf_eq]
  refine ⟨h.pow, h.produced, rfl, ?_, ?_, ?_, h.lookAhead, h.burst_pos, h.burst_lt, ?_⟩
  · simp only
    omega
  · simp only
    omega
  · refine (h.shown.set (Nat.le_refl _) (by omega) .empty).advance ?_ ?_
    · intro i lo hi
      have apart : i ≠ f.consumed := by omega
      have shift : i - f.consumed = i - (f.consumed + 1) + 1 := by omega
      simp only [apart, if_false, items, shift, List.getElem?_cons_succ]
    · intro _
      have past : rest.length ≤ f.consumed + f.capacity - (f.consumed + 1) := by omega
      simp [past]
  · simp only
    omega

theorem release (h : q.Models f) {v : α} {rest : List α} (items : f.items = v :: rest) :
    ∃ q', Ring.release f.consumed q = .ok v q' ∧
      q'.Models { f with items := rest, consumed := f.consumed + 1 } := by
  refine ⟨_, ?_, h.taken items⟩
  rw [Ring.release, Act.bind_view,
    Act.bind_ok (onChunk_ok (Chunk.take_ok (h.held_consumed items))), Act.bind_modify,
    Act.pure_apply]

end Models
end Handoff.Ring
