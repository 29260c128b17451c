import Handoff.Word

/-! Words as numbers. A checked operation answers with a word exactly if that word is the
unbounded result. -/
namespace Handoff.Word

variable {a b c : UInt64} {n : Nat}

theorem toNat_le_largest (a : UInt64) : a.toNat ≤ largest := Nat.le_pred_of_lt a.toNat_lt

theorem exists_word (fits : n ≤ largest) : ∃ a : UInt64, a.toNat = n :=
  ⟨UInt64.ofNat n, UInt64.toNat_ofNat_of_lt' (Nat.lt_of_le_pred (by decide) fits)⟩

theorem checked_eq_some_iff (wraps : a.toNat = n % UInt64.size) :
    (if n ≤ largest then some a else none) = some c ↔ c.toNat = n := by
  by_cases fits : n ≤ largest
  · have whole : a.toNat = n := wraps.trans (Nat.mod_eq_of_lt (Nat.lt_of_le_pred (by decide) fits))
    rw [if_pos fits, Option.some_inj, ← UInt64.toNat_inj, whole, eq_comm]
  · have no_word : c.toNat ≠ n := fun same => fits (same ▸ toNat_le_largest c)
    simp only [if_neg fits, reduceCtorEq, no_word]

theorem mul?_eq_some_iff : mul? a b = some c ↔ c.toNat = a.toNat * b.toNat :=
  checked_eq_some_iff (UInt64.toNat_mul a b)

theorem add?_eq_some_iff : add? a b = some c ↔ c.toNat = a.toNat + b.toNat :=
  checked_eq_some_iff (UInt64.toNat_add a b)

end Handoff.Word
