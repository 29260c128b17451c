import Handoff.Index

/-! Masked indexing is indexing modulo the number of slots, as long as that is a
power of two. Within a window of as many indices each slot has one index. -/
namespace Handoff.Index

theorem and_pred {size : Nat} (pow : size.isPowerOfTwo) (i : Nat) :
    i &&& (size - 1) = i % size := by
  obtain ⟨k, rfl⟩ := pow
  exact Nat.and_two_pow_sub_one_eq_mod i k

theorem slotOf_eq_mod {size : Nat} (pow : size.isPowerOfTwo) (i : Nat) :
    slotOf i size = i % size := and_pred pow i

theorem maskOf_eq (size : Nat) : maskOf size = 2 * (size - 1) := by
  rw [maskOf, Nat.shiftLeft_eq, Nat.mul_comm]

theorem sizeOfMask_maskOf {size : Nat} (pos : 0 < size) : sizeOfMask (maskOf size) = size := by
  rw [sizeOfMask, maskOf, Nat.shiftLeft_shiftRight]
  exact Nat.sub_add_cancel pos

theorem position_eq_mod {size : Nat} (pow : size.isPowerOfTwo) (x : Nat) :
    position x (maskOf size) = x / 2 % size := by
  rw [position, maskOf, Nat.shiftRight_and_distrib, Nat.shiftLeft_shiftRight, and_pred pow]
  rfl

theorem linking_eq (x : Nat) : linking x = decide (x % 2 = 1) := by
  rw [linking, bit, Nat.shiftLeft_eq, Nat.pow_zero, Nat.one_mul, Nat.and_one_is_mod]
  rcases Nat.mod_two_eq_zero_or_one x with h | h <;> rw [h] <;> rfl

@[simp] theorem linking_double (i : Nat) : linking (2 * i) = false := by
  simp [linking_eq]

@[simp] theorem linking_double_succ (i : Nat) : linking (2 * i + 1) = true := by
  simp [linking_eq]

theorem mod_injective {n lo i j : Nat} (hi : lo ≤ i) (hi' : i < lo + n) (hj : lo ≤ j)
    (hj' : j < lo + n) (same : i % n = j % n) : i = j := by
  have hij := Nat.sub_mod_eq_zero_of_mod_eq same
  have hji := Nat.sub_mod_eq_zero_of_mod_eq same.symm
  rw [Nat.mod_eq_of_lt (by omega)] at hij hji
  omega

theorem exists_mod_eq {n slot : Nat} (lo : Nat) (h : slot < n) :
    ∃ i, lo ≤ i ∧ i < lo + n ∧ i % n = slot := by
  have hn : 0 < n := Nat.zero_lt_of_lt h
  have hr := Nat.mod_lt lo hn
  have hlo := Nat.div_add_mod lo n
  by_cases hs : lo % n ≤ slot
  · refine ⟨n * (lo / n) + slot, by omega, by omega, ?_⟩
    rw [Nat.mul_add_mod, Nat.mod_eq_of_lt h]
  · refine ⟨n * (lo / n) + (slot + n), by omega, by omega, ?_⟩
    rw [Nat.mul_add_mod, Nat.add_mod_right, Nat.mod_eq_of_lt h]

theorem map_range'_getElem? {α : Type} (lo : Nat) (l : List α) :
    (List.range' lo l.length).map (fun i => l[i - lo]?) = l.map some := by
  apply List.ext_getElem
  · simp
  · intro i hi hi'
    rw [List.length_map] at hi'
    simp [List.getElem_range', hi']

theorem filterMap_range'_getElem? {α : Type} (lo : Nat) (l : List α) :
    (List.range' lo l.length).filterMap (fun i => l[i - lo]?) = l := by
  have all := congrArg (List.filterMap id) (map_range'_getElem? lo l)
  rw [List.filterMap_map, List.filterMap_map] at all
  exact all.trans List.filterMap_some

end Handoff.Index
