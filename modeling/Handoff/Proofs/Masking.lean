import Mathlib.Data.Nat.ModEq
import Mathlib.Data.Set.Function
import Mathlib.Order.Interval.Set.Basic
import Handoff.Proofs.Capacity
import Handoff.Proofs.Index

/-! Slots that are found by masking are used round and round: an index has the slot of its
remainder, so that two indices share a slot only if whole rounds lie between them, and one
round takes every slot once. Masking is done on words of sixty-four bits, which must be wide
enough for the largest chunk and for every index. -/
namespace Handoff

namespace Index

/-- Indices take the `n` slots in turn. -/
structure GoesRound (n : Nat) (slot : Nat → Nat) : Prop where
  lt : ∀ i, slot i < n
  eq_iff : ∀ i j, slot i = slot j ↔ (n : Int) ∣ i - j
  bijOn : ∀ lo, Set.BijOn slot (Set.Ico lo (lo + n)) (Set.Iio n)

theorem mod_eq_iff_dvd_sub {n i j : Nat} : i % n = j % n ↔ (n : Int) ∣ i - j := by
  rw [eq_comm]
  exact Nat.modEq_iff_dvd

theorem mod_bijOn {n : Nat} (pos : 0 < n) (lo : Nat) :
    Set.BijOn (· % n) (Set.Ico lo (lo + n)) (Set.Iio n) := by
  refine ⟨?_, ?_, ?_⟩
  · intro i _
    exact Nat.mod_lt i pos
  · intro i hi j hj same
    exact mod_injective hi.1 hi.2 hj.1 hj.2 same
  · intro slot inside
    obtain ⟨i, from_lo, to_hi, rfl⟩ := exists_mod_eq lo inside
    exact ⟨i, ⟨from_lo, to_hi⟩, rfl⟩

theorem GoesRound.of_mod {n : Nat} {slot : Nat → Nat} (pos : 0 < n)
    (remainder : ∀ i, slot i = i % n) : GoesRound n slot := by
  obtain rfl : slot = (· % n) := funext remainder
  exact ⟨fun i => Nat.mod_lt i pos, fun _ _ => mod_eq_iff_dvd_sub, mod_bijOn pos⟩

theorem position_double {n : Nat} (pow : n.isPowerOfTwo) (i : Nat) :
    position (2 * i) (maskOf n) = i % n := by
  rw [position_eq_mod pow, Nat.mul_div_cancel_left i Nat.two_pos]

theorem position_marked {n : Nat} (pow : n.isPowerOfTwo) (i : Nat) :
    position (2 * i + 1) (maskOf n) = i % n := by
  rw [position_eq_mod pow]
  congr 1
  omega

end Index

namespace Word

def maskOf (size : UInt64) : UInt64 := (size - 1) <<< 1

def sizeOfMask (mask : UInt64) : UInt64 := (mask >>> 1) + 1

def position (index mask : UInt64) : UInt64 := (index &&& mask) >>> 1

def slotOf (index size : UInt64) : UInt64 := index &&& (size - 1)

theorem toNat_pred {size : UInt64} (pos : 0 < size.toNat) :
    (size - 1).toNat = size.toNat - 1 :=
  UInt64.toNat_sub_of_le _ _ (UInt64.le_iff_toNat_le.mpr pos)

theorem toNat_maskOf {size : UInt64} (pos : 0 < size.toNat) (fits : size.toNat ≤ 2 ^ 63) :
    (maskOf size).toNat = Index.maskOf size.toNat := by
  rw [maskOf, Index.maskOf_eq, UInt64.toNat_shiftLeft, toNat_pred pos, Nat.shiftLeft_eq,
    Nat.mod_eq_of_lt]
  · exact Nat.mul_comm _ _
  · change (size.toNat - 1) * 2 < 2 ^ 64
    omega

theorem toNat_sizeOfMask (mask : UInt64) :
    (sizeOfMask mask).toNat = Index.sizeOfMask mask.toNat := by
  -- The sum stays a word because half of a word is far from the largest.
  have half : mask.toNat >>> 1 + 1 < 2 ^ 64 := by
    have := mask.toNat_lt
    omega
  rw [sizeOfMask, Index.sizeOfMask, UInt64.toNat_add, UInt64.toNat_shiftRight]
  exact Nat.mod_eq_of_lt half

theorem toNat_position (index mask : UInt64) :
    (position index mask).toNat = Index.position index.toNat mask.toNat := by
  rw [position, Index.position, UInt64.toNat_shiftRight, UInt64.toNat_and]
  rfl

theorem toNat_slotOf {size : UInt64} (pos : 0 < size.toNat) (index : UInt64) :
    (slotOf index size).toNat = Index.slotOf index.toNat size.toNat := by
  rw [slotOf, Index.slotOf, UInt64.toNat_and, toNat_pred pos]

theorem masks_of_pow {size : UInt64} (pow : size.toNat.isPowerOfTwo)
    (fits : size.toNat ≤ 2 ^ 63) :
    sizeOfMask (maskOf size) = size ∧
    (∀ x, (position x (maskOf size)).toNat = x.toNat / 2 % size.toNat) ∧
    ∀ i, (slotOf i size).toNat = i.toNat % size.toNat := by
  have pos := Nat.pos_of_isPowerOfTwo pow
  refine ⟨?_, ?_, ?_⟩
  · apply UInt64.toNat_inj.mp
    rw [toNat_sizeOfMask, toNat_maskOf pos fits, Index.sizeOfMask_maskOf pos]
  · intro x
    rw [toNat_position, toNat_maskOf pos fits, Index.position_eq_mod pow]
  · intro i
    rw [toNat_slotOf pos, Index.slotOf_eq_mod pow]

end Word

open Index

/-- In a chunk of `n` slots, as large as they come, the slot of an index is its remainder by
`n`. A doubled index is halved first, so that a mark on it makes no difference. Each way of
counting takes the slots in turn, and words are wide enough for all of it. -/
theorem masks_go_round {n : Nat} (pow : n.isPowerOfTwo) (fits : n ≤ Capacity.largest) :
    sizeOfMask (maskOf n) = n ∧
    (∀ x, position x (maskOf n) = x / 2 % n ∧ position x (maskOf n) < n) ∧
    (∀ i, slotOf i n = i % n) ∧
    GoesRound n (fun i => position (2 * i) (maskOf n)) ∧
    (∀ i, position (2 * i + 1) (maskOf n) = position (2 * i) (maskOf n)) ∧
    GoesRound n (fun i => slotOf i n) ∧
    ∀ size : UInt64, size.toNat = n →
      Word.sizeOfMask (Word.maskOf size) = size ∧
      (∀ x, (Word.position x (Word.maskOf size)).toNat = x.toNat / 2 % n) ∧
      ∀ i, (Word.slotOf i size).toNat = i.toNat % n := by
  have pos := Nat.pos_of_isPowerOfTwo pow
  refine ⟨sizeOfMask_maskOf pos, ?_, slotOf_eq_mod pow, ?_, ?_, ?_, ?_⟩
  · intro x
    have halved := position_eq_mod pow x
    exact ⟨halved, halved ▸ Nat.mod_lt _ pos⟩
  · exact GoesRound.of_mod pos (position_double pow)
  · intro i
    rw [position_marked pow, position_double pow]
  · exact GoesRound.of_mod pos (slotOf_eq_mod pow)
  · rintro size rfl
    have wide : Capacity.largest ≤ 2 ^ 63 := by decide
    exact Word.masks_of_pow pow (Nat.le_trans fits wide)

/-- The largest chunk, and the largest word as an index: all its bits are set, the mark too. -/
theorem masks_go_round_at_limits :
    Capacity.largest.isPowerOfTwo ∧ Capacity.largest ≤ Capacity.largest ∧
    GoesRound Capacity.largest (fun i => slotOf i Capacity.largest) ∧
    Word.sizeOfMask (Word.maskOf 1073741824) = 1073741824 ∧
    (Word.position 18446744073709551615 (Word.maskOf 1073741824)).toNat = 1073741823 := by
  have pow := Capacity.largest_pow
  have fits := Nat.le_refl Capacity.largest
  obtain ⟨-, -, -, -, -, round, words⟩ := masks_go_round pow fits
  obtain ⟨whole, position, -⟩ := words 1073741824 rfl
  exact ⟨pow, fits, round, whole, position 18446744073709551615⟩

end Handoff
