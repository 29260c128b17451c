import Handoff.Proofs.Arena
import Handoff.Proofs.TapeInvariant

/-! A chain holds a tape. Chunk numbers follow each other, since each chunk is
created when it is linked. A live chunk shows the cells from its first index on, and
from the consumer's index on if that is later, up to the jump that ends it; what is
not shown there is empty. -/
namespace Handoff

variable {α : Type}

namespace Tape

def content (t : Tape α) (c i : Nat) : Slot α :=
  match t.links[c]? with
  | none => .ofCell (t.written i)
  | some r => if i < r then .ofCell (t.written i) else if i = r then .jump else .empty

def base (t : Tape α) (c : Nat) : Nat := max t.consumed (t.start c)

variable {t u : Tape α} {c i : Nat}

theorem content_of_home (next : ∀ r, t.links[c]? = some r → i < r) :
    t.content c i = .ofCell (t.written i) := by
  unfold content
  cases hr : t.links[c]? with
  | none => rfl
  | some r => exact if_pos (next r hr)

theorem content_congr (links : u.links[c]? = t.links[c]?)
    (written : (∀ r, t.links[c]? = some r → i < r) → u.written i = t.written i) :
    u.content c i = t.content c i := by
  unfold content
  rw [links]
  cases hr : t.links[c]? with
  | none => exact congrArg Slot.ofCell (written fun r h => by rw [hr] at h; cases h)
  | some r =>
      by_cases below : i < r
      · simp only [below, if_true]
        refine congrArg Slot.ofCell (written fun r' h => ?_)
        rw [hr] at h
        cases h
        exact below
      · simp only [below, if_false]

theorem content_store {k : Nat} (v : α)
    (apart : (∀ r, t.links[c]? = some r → k < r) → k ≠ i) :
    (t.store i v).content c k = t.content c k := by
  refine content_congr rfl fun next => ?_
  simp only [store, apart next, if_false]

theorem content_store_self (v : α) (next : ∀ r, t.links[c]? = some r → i < r) :
    (t.store i v).content c i = .value v := by
  have next' : ∀ r, (t.store i v).links[c]? = some r → i < r := next
  rw [content_of_home next']
  simp only [store, if_true, Slot.ofCell_some]

theorem Valid.lt_window (h : t.Valid) (hc : c ≤ t.links.length) (hi : i < t.claimed)
    (next : ∀ r, t.links[c]? = some r → i < r) : i < t.base c + t.size.chunkSize := by
  rcases Nat.lt_or_eq_of_le hc with lt | rfl
  · have hr : t.links[c]? = some t.links[c] := List.getElem?_eq_getElem lt
    exact Nat.lt_trans (next _ hr) (h.gap c _ hr)
  · exact Nat.lt_trans (Nat.lt_of_lt_of_le hi h.claimed_le) h.limit_lt

theorem Valid.content_past (h : t.Valid) (hc : c ≤ t.links.length) :
    t.content c (t.base c + t.size.chunkSize) = .empty := by
  unfold content
  rcases Nat.lt_or_eq_of_le hc with lt | rfl
  · have hr : t.links[c]? = some t.links[c] := List.getElem?_eq_getElem lt
    have hgap := h.gap c _ hr
    have below : ¬ t.base c + t.size.chunkSize < t.links[c] := Nat.not_lt_of_gt hgap
    have apart : t.base c + t.size.chunkSize ≠ t.links[c] := Nat.ne_of_gt hgap
    simp only [hr, below, apart, if_false]
  · have past := h.unwritten (t.base t.links.length + t.size.chunkSize)
      (Nat.le_of_lt (Nat.lt_of_le_of_lt h.claimed_le h.limit_lt))
    simp only [List.getElem?_eq_none (Nat.le_refl _), past, Slot.ofCell_none]

end Tape

namespace Chain

/-- A live chunk, its follower and what it shows. -/
structure Live (q : Chain α) (t : Tape α) (c : Nat) (ch : Chunk α) : Prop where
  found : q.store.chunk? c = some ch
  next : ch.next = if c < t.links.length then some (c + 1) else none
  shown : ch.Shows t.size.chunkSize (t.base c) (t.content c)

/-- The chain holds the tape `t`. -/
structure Models (q : Chain α) (t : Tape α) : Prop where
  valid : t.Valid
  consumer : q.consumerIndex = 2 * t.consumed
  producer : q.producerIndex = 2 * t.claimed + t.marked.toNat
  limit : q.limit = 2 * t.limit
  bound : q.bound = 2 * t.size.capacity
  head_mask : q.head.mask = Index.maskOf t.size.chunkSize
  tail : q.tail = ⟨t.links.length, Index.maskOf t.size.chunkSize⟩
  created : q.store.chunks.size = t.links.length + 1
  head_le : q.head.chunk ≤ t.links.length
  head_start : t.start q.head.chunk ≤ t.consumed
  head_next : ∀ r, t.links[q.head.chunk]? = some r → t.consumed ≤ r
  freed : ∀ c, c < q.head.chunk → q.store.chunk? c = none
  live : ∀ c, q.head.chunk ≤ c → c ≤ t.links.length → ∃ ch, q.Live t c ch
  discarded : q.discarded = #[]
  journal : q.journal.toList =
    .chainCreated t.size.chunkSize t.size.capacity ::
      t.links.map (.chunkLinked · t.size.chunkSize)

theorem onStore_ok {β : Type} {act : Act (Arena α) β} {q : Chain α} {b : β} {store : Arena α}
    (h : act q.store = .ok b store) : onStore act q = .ok b { q with store := store } := by
  simp only [onStore, h]

theorem ofSize_models {size : ChainSize} (fits : size.Fits) :
    (ofSize size : Chain α).Models (Tape.ofSize size) where
  valid := .ofSize fits
  consumer := rfl
  producer := rfl
  limit := Index.maskOf_eq size.chunkSize
  bound := rfl
  head_mask := rfl
  tail := rfl
  created := rfl
  head_le := Nat.le_refl _
  head_start := Nat.le_refl _
  head_next _ _ := Nat.zero_le _
  freed _ h := absurd h (Nat.not_lt_zero _)
  live c _ h := by
    obtain rfl : c = 0 := Nat.le_zero.mp h
    exact ⟨.ofSize size.chunkSize, rfl, rfl, .ofSize size.chunkSize 0⟩
  discarded := rfl
  journal := rfl

/-- A chain as it was asked for, in either way. -/
def Made (q : Chain α) : Prop :=
  (∃ initial max, chunked initial max = .ok q) ∨ ∃ max, withMaxCapacity max = .ok q

theorem Made.exists_size {q : Chain α} (made : q.Made) :
    ∃ size : ChainSize, size.Fits ∧ q = ofSize size := by
  have planned : ∀ {plan : Except CapacityError ChainSize}, ofSize <$> plan = .ok q →
      (∀ size, plan = .ok size → size.Fits) → ∃ size : ChainSize, size.Fits ∧ q = ofSize size := by
    intro plan h fits
    cases plan with
    | error e => cases h
    | ok size =>
        cases h
        exact ⟨size, fits size rfl, rfl⟩
  rcases made with ⟨initial, max, h⟩ | ⟨max, h⟩
  · exact planned h fun _ => ChainSize.plan_fits
  · exact planned h fun _ => ChainSize.planForMax_fits

def blank (q : Chain α) : Tape α := .ofSize ⟨q.chunkSize, q.capacity⟩

theorem Made.models {q : Chain α} (made : q.Made) : q.Models q.blank := by
  obtain ⟨size, fits, rfl⟩ := made.exists_size
  have two := fits.two_le
  have chunkSize : (ofSize size : Chain α).chunkSize = size.chunkSize :=
    Index.sizeOfMask_maskOf (Nat.lt_of_lt_of_le Nat.two_pos two)
  have capacity : (ofSize size : Chain α).capacity = size.capacity :=
    Nat.mul_div_cancel_left _ Nat.two_pos
  rw [blank, chunkSize, capacity]
  exact ofSize_models fits

namespace Models

variable {q : Chain α} {t : Tape α}

theorem position_eq (h : q.Models t) (i : Nat) :
    Index.position (2 * i) (Index.maskOf t.size.chunkSize) = i % t.size.chunkSize := by
  rw [Index.position_eq_mod h.valid.fits.pow, Nat.mul_div_cancel_left i Nat.two_pos]

theorem producer_open (h : q.Models t) (unmarked : t.marked = false) :
    q.producerIndex = 2 * t.claimed := by
  rw [h.producer, unmarked]
  rfl

theorem isEmpty_eq (h : q.Models t) : q.isEmpty = t.isEmpty := by
  rw [isEmpty, Tape.isEmpty, h.producer, h.consumer, Bool.eq_iff_iff]
  cases t.marked with
  | false =>
      simp only [Bool.toNat_false, Nat.add_zero, Bool.not_false, Bool.and_true, beq_iff_eq]
      omega
  | true =>
      simp only [Bool.not_true, Bool.and_false, beq_iff_eq, Bool.toNat_true, Bool.false_eq_true,
        iff_false]
      omega

theorem length_eq (h : q.Models t) : q.length = t.claimed - t.consumed := by
  rw [length, Index.distance, h.producer, h.consumer, Nat.shiftRight_eq_div_pow]
  cases t.marked <;> simp only [Bool.toNat_true, Bool.toNat_false] <;> omega

theorem produced_eq (h : q.Models t) : q.produced = t.claimed := by
  rw [produced, h.producer]
  cases t.marked <;> simp only [Bool.toNat_true, Bool.toNat_false] <;> omega

theorem consumed_eq (h : q.Models t) : q.consumed = t.consumed := by
  rw [consumed, h.consumer]
  omega

theorem capacity_eq (h : q.Models t) : q.capacity = t.size.capacity := by
  rw [capacity, h.bound]
  omega

theorem indicators_eq (h : q.Models t) : Channel.indicators q = Channel.indicators t := by
  have hn := h.valid.fits.two_le
  have size : q.chunkSize = t.size.chunkSize := by
    rw [chunkSize, h.tail, Index.sizeOfMask_maskOf (by omega)]
  simp only [Channel.indicators, h.length_eq, h.isEmpty_eq, h.produced_eq, h.consumed_eq,
    h.capacity_eq, size]

def doubled : Room → Room
  | .below limit => .below (2 * limit)
  | .full => .full
  | .link => .link

theorem room_eq (h : q.Models t) (unmarked : t.marked = false) : q.room = doubled t.room := by
  have hp := h.producer_open unmarked
  have hreach : q.consumerIndex + q.tail.mask = 2 * (t.consumed + (t.size.chunkSize - 1)) := by
    rw [h.consumer, h.tail, Index.maskOf_eq, Nat.mul_add]
  have hfree : q.freeAt (2 * t.claimed) = 0 ↔ t.free = 0 := by
    rw [freeAt, Index.distance, h.bound, h.consumer, Tape.free]
    omega
  simp only [room, Tape.room, hp, hreach, hfree, h.limit, Nat.mul_lt_mul_left Nat.two_pos]
  split
  · rfl
  · split
    · rfl
    · split <;> rfl

theorem claim_marked (h : q.Models t) (marked : t.marked = true) (wanted : Nat) :
    claim wanted q = .error .spinning q := by
  have linking : Index.linking q.producerIndex = true := by
    rw [h.producer, marked]
    exact Index.linking_double_succ t.claimed
  rw [claim, Act.bind_view]
  simp only [linking, if_true]
  rfl

theorem claim_open (h : q.Models t) (unmarked : t.marked = false) (wanted : Nat) :
    claim wanted q =
      match t.room with
      | .full => .ok .full q
      | .below limit =>
        .ok (.run ⟨q.tail, 2 * t.claimed⟩ (min limit (t.claimed + wanted) - t.claimed))
          { q with limit := 2 * limit, producerIndex := 2 * min limit (t.claimed + wanted) }
      | .link =>
        .ok (.link ⟨q.tail, 2 * t.claimed⟩) { q with producerIndex := 2 * t.claimed + 1 } := by
  have hp := h.producer_open unmarked
  have linking : Index.linking (2 * t.claimed) = false := Index.linking_double t.claimed
  rw [claim, Act.bind_view]
  simp only [hp, linking, Bool.false_eq_true, if_false]
  rw [Act.bind_view, h.room_eq unmarked]
  cases hr : t.room with
  | full => rfl
  | link => rfl
  | below limit =>
      have hle := h.valid.consumed_le
      have hcap := (h.valid.room_below hr).2.2.1
      have hmax := h.valid.fits.le
      have stop : min (2 * limit) (2 * t.claimed + Word.double wanted) =
          2 * min limit (t.claimed + wanted) := by
        simp only [Word.double, Word.largest, UInt64.size, Capacity.largest] at hmax ⊢
        omega
      have count : (2 * min limit (t.claimed + wanted) - 2 * t.claimed) / 2 =
          min limit (t.claimed + wanted) - t.claimed := by
        omega
      simp only [doubled, stop, count, Act.bind_modify, Act.pure_apply]

theorem grant (h : q.Models t) (unmarked : t.marked = false) {limit : Nat}
    (hr : t.room = .below limit) (wanted : Nat) :
    Models { q with limit := 2 * limit, producerIndex := 2 * min limit (t.claimed + wanted) }
      (t.grant limit wanted) :=
  { h with
    valid := h.valid.grant unmarked hr wanted
    producer := by simp [Tape.grant, unmarked]
    limit := rfl
    live := fun c lo hi =>
      have ⟨ch, hch⟩ := h.live c lo hi
      ⟨ch, hch.found, hch.next, hch.shown⟩ }

theorem mark (h : q.Models t) (hr : t.room = .link) :
    Models { q with producerIndex := 2 * t.claimed + 1 } t.mark :=
  { h with
    valid := h.valid.mark hr
    producer := rfl
    live := fun c lo hi =>
      have ⟨ch, hch⟩ := h.live c lo hi
      ⟨ch, hch.found, hch.next, hch.shown⟩ }

end Models
end Chain
end Handoff
