import Mathlib.Algebra.Ring.Nat
import Mathlib.Order.Bounds.Basic
import Mathlib.Order.MinMax
import Handoff.Proofs.ChainLayout
import Handoff.Ring.Basic

/-! What is built of the numbers that a caller asks for. A refusal names the first thing
that is wrong, and nothing is built then, so that there is nothing to report either. What
is built has the least powers of two that cover the request. -/
namespace Handoff

variable {α : Type}

namespace Capacity

theorem one_le_roundUp (n : Nat) : 1 ≤ roundUp n := Nat.pos_of_isPowerOfTwo (roundUp_pow n)

theorem roundUp_isLeast (n : Nat) : IsLeast {p | p.isPowerOfTwo ∧ max n 1 ≤ p} (roundUp n) := by
  constructor
  · exact ⟨roundUp_pow n, Nat.max_le.mpr ⟨le_roundUp n, one_le_roundUp n⟩⟩
  · intro p hp
    exact roundUp_le hp.1 (Nat.le_trans (Nat.le_max_left n 1) hp.2)

theorem roundUp_mono : Monotone roundUp := by
  intro m n le
  exact roundUp_le (roundUp_pow n) (Nat.le_trans le (le_roundUp n))

theorem roundUp_of_pow {p : Nat} (pow : p.isPowerOfTwo) : roundUp p = p :=
  Nat.le_antisymm (roundUp_le pow (Nat.le_refl p)) (le_roundUp p)

theorem max_pow {m n : Nat} (hm : m.isPowerOfTwo) (hn : n.isPowerOfTwo) :
    (max m n).isPowerOfTwo := by
  rcases max_choice m n with h | h
  · rwa [h]
  · rwa [h]

theorem min_pow {m n : Nat} (hm : m.isPowerOfTwo) (hn : n.isPowerOfTwo) :
    (min m n).isPowerOfTwo := by
  rcases min_choice m n with h | h
  · rwa [h]
  · rwa [h]

theorem roundUp_min {p : Nat} (pow : p.isPowerOfTwo) (n : Nat) :
    roundUp (min n p) = min (roundUp n) p := by
  rw [roundUp_mono.map_min, roundUp_of_pow pow]

theorem round_of_le {n : Nat} (h : n ≤ largest) : round n = .ok (roundUp n) :=
  if_neg (Nat.not_lt_of_le h)

theorem round_of_lt {n : Nat} (h : largest < n) : round n = .error (.tooLarge n largest) :=
  if_pos h

end Capacity

open Capacity (roundUp largest)

namespace ChainSize

/-- All that is wrong with the numbers asked for, in the order of the checks. -/
def faults (initial bound : Nat) : List CapacityError :=
  (if initial < 2 then [.initialTooSmall initial] else []) ++
  (if bound < 4 then [.maxTooSmall bound] else []) ++
  (if largest < initial then [.tooLarge initial largest] else []) ++
  (if largest < bound then [.tooLarge bound largest] else []) ++
  (if roundUp bound ≤ roundUp initial then [.initialNotBelowMax initial bound] else [])

theorem plan_eq (initial bound : Nat) :
    plan initial bound =
      match (faults initial bound).head? with
      | some fault => .error fault
      | none => .ok ⟨roundUp initial, roundUp bound⟩ := by
  unfold plan faults
  by_cases small : initial < 2
  · simp only [if_pos small]
    rfl
  by_cases low : bound < 4
  · simp only [if_neg small, if_pos low]
    rfl
  by_cases large : largest < initial
  · simp only [if_neg small, if_neg low, if_pos large, Capacity.round_of_lt large]
    rfl
  by_cases high : largest < bound
  · simp only [if_neg small, if_neg low, if_neg large, if_pos high, Capacity.round_of_lt high,
      Capacity.round_of_le (Nat.le_of_not_lt large)]
    rfl
  simp only [if_neg small, if_neg low, if_neg large, if_neg high,
    Capacity.round_of_le (Nat.le_of_not_lt large), Capacity.round_of_le (Nat.le_of_not_lt high)]
  by_cases order : roundUp bound ≤ roundUp initial
  · simp only [bind, Except.bind, if_pos order]
    rfl
  · simp only [bind, Except.bind, if_neg order]
    rfl

def suited (bound : Nat) : Nat := max 2 (min 1024 (roundUp (bound / 8)))

theorem suited_pow (bound : Nat) : (suited bound).isPowerOfTwo := by
  apply Capacity.max_pow ⟨1, rfl⟩
  exact Capacity.min_pow ⟨10, rfl⟩ (Capacity.roundUp_pow _)

theorem two_le_suited (bound : Nat) : 2 ≤ suited bound := Nat.le_max_left _ _

theorem suited_le_largest (bound : Nat) : suited bound ≤ largest := by
  have thousand : 1024 ≤ largest := by decide
  unfold suited
  omega

theorem suited_lt {bound : Nat} (low : 4 ≤ bound) : suited bound < roundUp bound := by
  -- Where the eighth is not a power of two, rounding less than doubles it, which leaves it
  -- below the quarter.
  have covers := Capacity.le_roundUp bound
  have two : 2 < roundUp bound := by omega
  have eighth : roundUp (bound / 8) < roundUp bound := by
    rcases Nat.lt_or_ge bound 16 with small | large
    · have one : roundUp (bound / 8) = 1 := Capacity.roundUp_of_le_one (by omega)
      omega
    · obtain ⟨k, hk⟩ := Capacity.roundUp_pow bound
      have pos : k ≠ 0 := by
        rintro rfl
        simp at hk
        omega
      obtain ⟨j, rfl⟩ := Nat.exists_eq_succ_of_ne_zero pos
      have half : roundUp (bound / 8) ≤ 2 ^ j := by
        apply Capacity.roundUp_le ⟨j, rfl⟩
        rw [Nat.pow_succ] at hk
        omega
      rw [Nat.pow_succ] at hk
      omega
  unfold suited
  omega

theorem planForMax_eq (bound : Nat) : planForMax bound = plan (suited bound) bound := by
  have within : min (bound / 8) 1024 ≤ largest :=
    Nat.le_trans (Nat.min_le_right _ _) (by decide)
  have ten : Nat.isPowerOfTwo 1024 := ⟨10, rfl⟩
  have eighth : Capacity.round (min (bound / 8) 1024) = .ok (min (roundUp (bound / 8)) 1024) := by
    rw [Capacity.round_of_le within, Capacity.roundUp_min ten]
  rw [planForMax, eighth, suited, Nat.max_comm 2, Nat.min_comm 1024]
  rfl

theorem faults_suited {bound : Nat} (low : 4 ≤ bound) (high : bound ≤ largest) :
    faults (suited bound) bound = [] := by
  have covers := suited_le_largest bound
  rw [faults, Capacity.roundUp_of_pow (suited_pow bound),
    if_neg (Nat.not_lt_of_le (two_le_suited bound)), if_neg (Nat.not_lt_of_le low),
    if_neg (Nat.not_lt_of_le covers), if_neg (Nat.not_lt_of_le high),
    if_neg (Nat.not_le_of_lt (suited_lt low))]
  rfl

theorem faults_low {initial bound : Nat} (two : 2 ≤ initial) (low : bound < 4) :
    (faults initial bound).head? = some (.maxTooSmall bound) := by
  rw [faults, if_neg (Nat.not_lt_of_le two), if_pos low]
  rfl

theorem faults_high {bound : Nat} (high : largest < bound) :
    (faults (suited bound) bound).head? = some (.tooLarge bound largest) := by
  have covers := suited_le_largest bound
  have low : 4 ≤ bound := Nat.le_trans (by decide) (Nat.le_of_lt high)
  rw [faults, if_neg (Nat.not_lt_of_le (two_le_suited bound)), if_neg (Nat.not_lt_of_le low),
    if_neg (Nat.not_lt_of_le covers), if_pos high]
  rfl

end ChainSize

namespace Chain

/-- A chain as it is built: its sizes, and the one report of its creation. -/
structure Fresh (q : Chain α) (size : ChainSize) : Prop where
  chunkSize : q.chunkSize = size.chunkSize
  capacity : q.capacity = size.capacity
  journal : q.journal = #[.chainCreated size.chunkSize size.capacity]

theorem ofSize_fresh {size : ChainSize} (some : 0 < size.chunkSize) :
    (ofSize size : Chain α).Fresh size where
  chunkSize := Index.sizeOfMask_maskOf some
  capacity := Nat.mul_div_cancel_left _ Nat.two_pos
  journal := rfl

theorem chunked_of_fault {initial bound : Nat} {fault : CapacityError}
    (first : (ChainSize.faults initial bound).head? = some fault) :
    (chunked initial bound : Except CapacityError (Chain α)) = .error fault := by
  rw [chunked, ChainSize.plan_eq, first]
  rfl

theorem chunked_of_sound {initial bound : Nat} (sound : ChainSize.faults initial bound = []) :
    ∃ q : Chain α, chunked initial bound = .ok q ∧ q.Fresh ⟨roundUp initial, roundUp bound⟩ := by
  refine ⟨ofSize ⟨roundUp initial, roundUp bound⟩, ?_, ofSize_fresh (Capacity.one_le_roundUp _)⟩
  rw [chunked, ChainSize.plan_eq, sound]
  rfl

theorem withMaxCapacity_eq (bound : Nat) :
    (withMaxCapacity bound : Except CapacityError (Chain α)) =
      chunked (ChainSize.suited bound) bound := by
  rw [withMaxCapacity, ChainSize.planForMax_eq]
  rfl

end Chain

namespace Ring

theorem withSettings_of_lt {requested : Nat} (high : largest < requested) (maxStep : Nat) :
    (withSettings requested maxStep : Except CapacityError (Ring α)) =
      .error (.tooLarge requested largest) := by
  rw [withSettings, RingSize.plan, Capacity.round_of_lt high]
  rfl

theorem withSettings_of_le {requested : Nat} (fits : requested ≤ largest) (maxStep : Nat) :
    (withSettings requested maxStep : Except CapacityError (Ring α)) =
      .ok (ofSize ⟨max (roundUp requested) 4,
        max (min (max (roundUp requested) 4 / 4) maxStep) 1⟩) := by
  rw [withSettings, RingSize.plan, Capacity.round_of_le fits]
  rfl

end Ring

/-- What comes of each request. Sizes are rounded up to the least power of two. A chain is
refused for the first thing that is wrong with its two numbers, and built if nothing is; if
only the bound is given, chunks that suit it are always small enough. A ring is refused
only if it would be too large, however far its producer is to look ahead. -/
theorem builds_what_is_asked :
    (∀ n, IsLeast {p | p.isPowerOfTwo ∧ max n 1 ≤ p} (roundUp n)) ∧ largest = 2 ^ 30 ∧
    (∀ initial bound,
      (∀ fault, (ChainSize.faults initial bound).head? = some fault →
        (Chain.chunked initial bound : Except CapacityError (Chain α)) = .error fault) ∧
      (ChainSize.faults initial bound = [] → ∃ q : Chain α, Chain.chunked initial bound = .ok q ∧
        q.Fresh ⟨roundUp initial, roundUp bound⟩)) ∧
    (∀ bound,
      (bound < 4 → (Chain.withMaxCapacity bound : Except CapacityError (Chain α)) =
        .error (.maxTooSmall bound)) ∧
      (largest < bound → (Chain.withMaxCapacity bound : Except CapacityError (Chain α)) =
        .error (.tooLarge bound largest)) ∧
      (4 ≤ bound → bound ≤ largest → ∃ q : Chain α, Chain.withMaxCapacity bound = .ok q ∧
        q.Fresh ⟨max 2 (min 1024 (roundUp (bound / 8))), roundUp bound⟩ ∧
          q.chunkSize < q.capacity)) ∧
    ∀ requested maxStep,
      (largest < requested → (Ring.withSettings requested maxStep :
        Except CapacityError (Ring α)) = .error (.tooLarge requested largest)) ∧
      (requested ≤ largest → ∃ q : Ring α, Ring.withSettings requested maxStep = .ok q ∧
        q.capacity = max 4 (roundUp requested) ∧ q.capacity.isPowerOfTwo ∧
          1 ≤ q.lookAhead ∧ q.lookAhead ≤ q.capacity / 4) := by
  refine ⟨Capacity.roundUp_isLeast, by decide, ?_, ?_, ?_⟩
  · intro initial bound
    exact ⟨fun fault first => Chain.chunked_of_fault first, Chain.chunked_of_sound⟩
  · intro bound
    rw [Chain.withMaxCapacity_eq]
    refine ⟨fun low => ?_, fun high => ?_, fun low high => ?_⟩
    · exact Chain.chunked_of_fault (ChainSize.faults_low (ChainSize.two_le_suited bound) low)
    · exact Chain.chunked_of_fault (ChainSize.faults_high high)
    · obtain ⟨q, built, fresh⟩ := Chain.chunked_of_sound (ChainSize.faults_suited low high)
      rw [Capacity.roundUp_of_pow (ChainSize.suited_pow bound)] at fresh
      refine ⟨q, built, fresh, ?_⟩
      rw [fresh.chunkSize, fresh.capacity]
      exact ChainSize.suited_lt low
  · intro requested maxStep
    refine ⟨fun high => Ring.withSettings_of_lt high maxStep, fun fits => ?_⟩
    have built := Ring.withSettings_of_le (α := α) fits maxStep
    have capacity : (Ring.ofSize ⟨max (roundUp requested) 4,
        max (min (max (roundUp requested) 4 / 4) maxStep) 1⟩ : Ring α).capacity =
          max 4 (roundUp requested) := by
      simp [Ring.capacity, Ring.ofSize, Chunk.size, Chunk.ofSize, Nat.max_comm]
    refine ⟨_, built, capacity, ?_, ?_, ?_⟩
    · rw [capacity]
      exact Capacity.max_pow ⟨2, rfl⟩ (Capacity.roundUp_pow requested)
    · exact Nat.le_max_right _ _
    · rw [capacity]
      simp only [Ring.ofSize]
      omega

/-- The largest bound, one past it, a bound that is too low, and two sizes that round to
the same power of two. -/
theorem builds_what_is_asked_at_limits :
    (∃ q : Chain Nat, Chain.withMaxCapacity largest = .ok q ∧ q.Fresh ⟨1024, largest⟩) ∧
      (Chain.withMaxCapacity (largest + 1) : Except CapacityError (Chain Nat)) =
        .error (.tooLarge (largest + 1) largest) ∧
      (Chain.chunked 1 3 : Except CapacityError (Chain Nat)) = .error (.initialTooSmall 1) ∧
      (Chain.chunked 5 7 : Except CapacityError (Chain Nat)) = .error (.initialNotBelowMax 5 7) ∧
      ∃ q : Chain Nat, Chain.chunked 3 5 = .ok q ∧ q.Fresh ⟨4, 8⟩ := by
  obtain ⟨-, -, chunked, withMax, -⟩ := builds_what_is_asked (α := Nat)
  obtain ⟨q, built, fresh, -⟩ := (withMax largest).2.2 (by decide) (Nat.le_refl _)
  refine ⟨⟨q, built, fresh⟩, (withMax (largest + 1)).2.1 (Nat.lt_succ_self _), ?_, ?_, ?_⟩
  · exact (chunked 1 3).1 _ rfl
  · exact (chunked 5 7).1 _ (by decide)
  · exact (chunked 3 5).2 (by decide)

end Handoff
