import Handoff.Proofs.RingContract

/-! What lies in the slots of a ring. The producer writes a whole run of slots after
one probe at its end, and skips the probe below a limit that it remembers. Neither
reaches a slot that still holds an element, however the consumer moves in between. -/
namespace Handoff.Ring

variable {α E : Type}

def Occupied (q : Ring α) (j : Nat) : Prop :=
  ∃ i, q.consumerIndex ≤ i ∧ i < q.producerIndex ∧ i % q.capacity = j

/-- The slots that belong to an element hold a value and all others are empty. So are
the slots of the indices below the producer's limit, and those that a successful probe
ahead reaches over. -/
structure Layout (q : Ring α) : Prop where
  full : ∀ j, j < q.capacity → ((∃ v, q.chunk.slot? j = some (.value v)) ↔ q.Occupied j)
  vacant : ∀ j, j < q.capacity → ¬ q.Occupied j → q.chunk.slot? j = some .empty
  cached : ∀ i, q.producerIndex ≤ i → i < q.producerLimit →
    q.chunk.slot? (i % q.capacity) = some .empty
  ahead : q.chunk.slot? ((q.producerIndex + q.lookAhead) % q.capacity) = some .empty →
    ∀ k, k < q.lookAhead → q.chunk.slot? ((q.producerIndex + k) % q.capacity) = some .empty

namespace Models

variable {q : Ring α} {f : Fifo α}

theorem vacantAt_iff_slot (h : q.Models f) (i : Nat) :
    q.vacantAt i = true ↔ q.chunk.slot? (i % f.capacity) = some .empty := by
  rw [vacantAt, h.slotOf_eq, Chunk.vacant]
  cases q.chunk.slot? (i % f.capacity) with
  | none => simp
  | some s => cases s <;> simp

theorem slot_unpublished (h : q.Models f) {i : Nat} (lo : f.produced ≤ i)
    (hi : i < f.consumed + f.capacity) : q.chunk.slot? (i % f.capacity) = some .empty := by
  have hb := h.balance
  rw [← h.vacantAt_iff_slot, h.vacantAt_iff (by omega) hi]
  exact lo

theorem slot_published (h : q.Models f) {i : Nat} (lo : f.consumed ≤ i) (hi : i < f.produced) :
    ∃ v, q.chunk.slot? (i % f.capacity) = some (.value v) := by
  have hb := h.balance
  have hc := h.bound
  have held : i - f.consumed < f.items.length := by omega
  refine ⟨f.items[i - f.consumed], ?_⟩
  rw [h.shown.slot i lo (by omega), List.getElem?_eq_getElem held, Slot.ofCell_some]

theorem occupied_iff (h : q.Models f) (j : Nat) :
    q.Occupied j ↔ ∃ i, f.consumed ≤ i ∧ i < f.produced ∧ i % f.capacity = j := by
  rw [Occupied, h.consumed, h.produced, h.capacity_eq]

theorem slot_cases (h : q.Models f) {j : Nat} (hj : j < f.capacity) :
    (q.Occupied j ∧ ∃ v, q.chunk.slot? j = some (.value v)) ∨
      ¬ q.Occupied j ∧ q.chunk.slot? j = some .empty := by
  have hb := h.balance
  have hc := h.bound
  obtain ⟨i, lo, hi, rfl⟩ := Index.exists_mod_eq f.consumed hj
  rw [h.occupied_iff]
  rcases Nat.lt_or_ge i f.produced with published | unpublished
  · exact .inl ⟨⟨i, lo, published, rfl⟩, h.slot_published lo published⟩
  · refine .inr ⟨?_, h.slot_unpublished unpublished hi⟩
    rintro ⟨k, klo, khi, same⟩
    have := Index.mod_injective klo (by omega) lo hi same
    omega

theorem layout (h : q.Models f) : q.Layout := by
  have capacity := h.capacity_eq
  have hb := h.balance
  constructor
  case full =>
    intro j hj
    rw [capacity] at hj
    rcases h.slot_cases hj with ⟨occupied, value⟩ | ⟨free, empty⟩
    · exact iff_of_true value occupied
    · refine iff_of_false ?_ free
      rintro ⟨v, value⟩
      rw [empty] at value
      cases value
  case vacant =>
    intro j hj free
    rw [capacity] at hj
    rcases h.slot_cases hj with ⟨occupied, -⟩ | ⟨-, empty⟩
    · exact absurd occupied free
    · exact empty
  case cached =>
    intro i lo hi
    have limit := h.limit
    rw [h.produced] at lo
    rw [capacity]
    exact h.slot_unpublished lo (by omega)
  case ahead =>
    intro probe k hk
    rw [capacity, h.produced] at probe ⊢
    -- The probe succeeds only if the window reaches past it.
    have room : q.vacantAhead f.produced = true := (h.vacantAt_iff_slot _).mpr probe
    rw [h.vacantAhead_produced, decide_eq_true_iff, ← h.lookAhead] at room
    exact h.slot_unpublished (Nat.le_add_right _ _) (by omega)

end Models

/-- Whatever a client does and wherever it is stopped, no call has written to a slot
that was not empty or taken from one without a value, since either halts as a misuse;
and the slots are laid out as described. The capacity and the step are those of any
ring that was asked for. -/
theorem never_overwrites {requested maxStep : Nat} {q₀ : Ring α}
    (accepted : withSettings requested maxStep = .ok q₀) {β : Type}
    (client : Client α E false .both β) (env : E) :
    let run := client.run ⟨q₀, env⟩
    (verdict run).1 ≠ .error .misused ∧ (channelAfter run).Layout := by
  obtain ⟨size, planned, rfl⟩ := exists_size accepted
  have start := ofSize_models (α := α) (RingSize.plan_fits planned)
  obtain ⟨-, sound, models, -⟩ := (fifo α).agree start client env
  exact ⟨sound, Models.layout models⟩

/-- A client that is stopped in a run of four writes, in whose callbacks it has drained. -/
theorem never_overwrites_in_run :
    let client : Client Nat Nat false .both Nat :=
      .bind (.fill rfl (.done 7) 10) fun _ =>
      .fill rfl (.bind (.call rfl .poll) fun _ =>
        .bind (.own fun n => (n, n + 1)) fun n => if n = 2 then .stop else .done n) 9
    let run := client.run ⟨(ofSize ⟨16, 4⟩ : Ring Nat), 0⟩
    withSettings 16 9 = .ok (ofSize ⟨16, 4⟩ : Ring Nat) ∧
      (channelAfter run).producerIndex = 12 ∧ (channelAfter run).consumerIndex = 3 ∧
      (verdict run).1 ≠ .error .misused ∧ (channelAfter run).Layout := by
  intro client run
  have accepted : withSettings 16 9 = .ok (ofSize ⟨16, 4⟩ : Ring Nat) := rfl
  exact ⟨accepted, by decide +kernel, by decide +kernel, never_overwrites accepted client 0⟩

end Handoff.Ring
