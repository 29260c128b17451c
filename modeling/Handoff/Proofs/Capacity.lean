import Handoff.Capacity

/-! Sizes that are accepted: which power of two a request is rounded to, and what
holds of the sizes of every queue that is built. -/
namespace Handoff

theorem of_bind_ok {ε β γ : Type} {x : Except ε β} {f : β → Except ε γ} {c : γ}
    (h : x >>= f = .ok c) : ∃ b, x = .ok b ∧ f b = .ok c := by
  cases x with
  | error e => cases h
  | ok b => exact ⟨b, rfl, h⟩

namespace Capacity

theorem roundUp_of_one_lt {n : Nat} (large : 1 < n) : roundUp n = 1 <<< ((n - 1).log2 + 1) :=
  if_neg (Nat.not_le_of_lt large)

theorem roundUp_of_le_one {n : Nat} (small : n ≤ 1) : roundUp n = 1 := if_pos small

theorem roundUp_pow (n : Nat) : (roundUp n).isPowerOfTwo := by
  rcases Nat.lt_or_ge 1 n with large | small
  · exact ⟨_, (roundUp_of_one_lt large).trans (Nat.one_shiftLeft _)⟩
  · rw [roundUp_of_le_one small]
    exact Nat.isPowerOfTwo_one

theorem le_roundUp (n : Nat) : n ≤ roundUp n := by
  rcases Nat.lt_or_ge 1 n with large | small
  · have := Nat.lt_log2_self (n := n - 1)
    rw [roundUp_of_one_lt large, Nat.one_shiftLeft]
    omega
  · rw [roundUp_of_le_one small]
    exact small

theorem roundUp_le {n p : Nat} (pow : p.isPowerOfTwo) (h : n ≤ p) : roundUp n ≤ p := by
  rcases Nat.lt_or_ge 1 n with large | small
  · obtain ⟨k, rfl⟩ := pow
    have below : (n - 1).log2 < k := (Nat.log2_lt (by omega)).mpr (by omega)
    rw [roundUp_of_one_lt large, Nat.one_shiftLeft]
    exact Nat.pow_le_pow_right (by decide) below
  · rw [roundUp_of_le_one small]
    exact Nat.pos_of_isPowerOfTwo pow

theorem largest_pow : largest.isPowerOfTwo := ⟨30, by decide⟩

theorem round_ok {n c : Nat} (h : round n = .ok c) : c = roundUp n ∧ c ≤ largest := by
  unfold round at h
  split at h
  · cases h
  next small =>
      cases h
      exact ⟨rfl, roundUp_le largest_pow (Nat.le_of_not_lt small)⟩

end Capacity

namespace RingSize

/-- What holds of the sizes of every ring. -/
structure Fits (size : RingSize) : Prop where
  pow : size.capacity.isPowerOfTwo
  four_le : 4 ≤ size.capacity
  lookAhead_pos : 0 < size.lookAhead
  lookAhead_lt : size.lookAhead < size.capacity

theorem plan_capacity {requested maxStep : Nat} {size : RingSize}
    (h : plan requested maxStep = .ok size) :
    size.capacity = max 4 (Capacity.roundUp requested) := by
  obtain ⟨c, hc, h⟩ := of_bind_ok h
  cases h
  rw [(Capacity.round_ok hc).1]
  exact Nat.max_comm _ _

theorem plan_fits {requested maxStep : Nat} {size : RingSize}
    (h : plan requested maxStep = .ok size) : size.Fits := by
  have hc := plan_capacity h
  have pow : size.capacity.isPowerOfTwo := by
    rw [hc]
    rcases Nat.le_total 4 (Capacity.roundUp requested) with le | le
    · rw [Nat.max_eq_right le]
      exact Capacity.roundUp_pow requested
    · rw [Nat.max_eq_left le]
      exact ⟨2, rfl⟩
  have four : 4 ≤ size.capacity := hc ▸ Nat.le_max_left _ _
  have ahead : size.lookAhead = max (min (size.capacity / 4) maxStep) 1 := by
    obtain ⟨c, -, h⟩ := of_bind_ok h
    cases h
    rfl
  exact ⟨pow, four, by omega, by omega⟩

end RingSize

namespace ChainSize

/-- What holds of the sizes of every chain. -/
structure Fits (size : ChainSize) : Prop where
  pow : size.chunkSize.isPowerOfTwo
  two_le : 2 ≤ size.chunkSize
  lt : size.chunkSize < size.capacity
  le : size.capacity ≤ Capacity.largest

theorem plan_fits {initial max : Nat} {size : ChainSize} (h : plan initial max = .ok size) :
    size.Fits := by
  unfold plan at h
  by_cases small : initial < 2
  · simp only [if_pos small] at h
    cases h
  by_cases maxSmall : max < 4
  · simp only [if_neg small, if_pos maxSmall] at h
    cases h
  simp only [if_neg small, if_neg maxSmall] at h
  obtain ⟨chunkSize, hi, h⟩ := of_bind_ok h
  obtain ⟨capacity, hm, h⟩ := of_bind_ok h
  by_cases order : capacity ≤ chunkSize
  · simp only [if_pos order] at h
    cases h
  simp only [if_neg order] at h
  cases h
  obtain ⟨rfl, -⟩ := Capacity.round_ok hi
  have two_le := Nat.le_trans (Nat.le_of_not_lt small) (Capacity.le_roundUp initial)
  exact ⟨Capacity.roundUp_pow initial, two_le, Nat.lt_of_not_le order, (Capacity.round_ok hm).2⟩

theorem planForMax_fits {max : Nat} {size : ChainSize} (h : planForMax max = .ok size) :
    size.Fits := by
  obtain ⟨eighth, -, h⟩ := of_bind_ok h
  exact plan_fits h

end ChainSize
end Handoff
