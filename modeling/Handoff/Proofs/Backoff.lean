import Mathlib.Logic.Function.Iterate
import Handoff.Proofs.Word
import Handoff.Wait

/-! Backing off. As long as a call does not park, it moves the counter up by one, towards the
larger of the two limits. That limit is a word, so the counter below it is not yet the largest
word and does not go round. At the limit or past it calls park and leave the counter as it
is. -/
namespace Handoff

namespace Backoff

variable (b : Backoff)

/-- The counter at which the first call parks: the larger limit, whichever of the two it is. -/
def rest : Nat := max b.spinLimit.toNat b.yieldLimit.toNat

variable {b} {counter : UInt64}

theorem pause_eq_park_iff : b.pause counter = .park ↔ b.rest ≤ counter.toNat := by
  rw [rest, Nat.max_le, pause]
  by_cases spins : counter < b.spinLimit
  · have below := UInt64.lt_iff_toNat_lt.mp spins
    simp only [if_pos spins, reduceCtorEq, false_iff]
    omega
  · have above := UInt64.not_lt.mp spins
    by_cases yields : counter < b.yieldLimit
    · have below := UInt64.lt_iff_toNat_lt.mp yields
      simp only [if_neg spins, if_pos yields, reduceCtorEq, false_iff]
      omega
    · have above' := UInt64.not_lt.mp yields
      simp only [if_neg spins, if_neg yields, true_iff]
      exact ⟨UInt64.le_iff_toNat_le.mp above, UInt64.le_iff_toNat_le.mp above'⟩

theorem idle_of_park (parks : b.pause counter = .park) : b.idle counter = counter := by
  rw [idle, parks]

theorem idle_of_awake (awake : b.pause counter ≠ .park) : b.idle counter = counter + 1 := by
  unfold idle
  cases pauses : b.pause counter with
  | spin => rfl
  | yield => rfl
  | park => exact absurd pauses awake

theorem rest_le_largest (b : Backoff) : b.rest ≤ Word.largest :=
  Nat.max_le.mpr ⟨Word.toNat_le_largest b.spinLimit, Word.toNat_le_largest b.yieldLimit⟩

theorem add?_of_awake (awake : b.pause counter ≠ .park) :
    Word.add? counter 1 = some (b.idle counter) := by
  have below : counter.toNat < b.rest := Nat.lt_of_not_le (mt pause_eq_park_iff.mpr awake)
  have fits : counter.toNat + (1 : UInt64).toNat ≤ Word.largest :=
    Nat.le_trans below (rest_le_largest b)
  rw [Word.add?, if_pos fits, idle_of_awake awake]

theorem toNat_idle (b : Backoff) (counter : UInt64) :
    (b.idle counter).toNat =
      if b.rest ≤ counter.toNat then counter.toNat else counter.toNat + 1 := by
  by_cases parks : b.pause counter = .park
  · rw [idle_of_park parks, if_pos (pause_eq_park_iff.mp parks)]
  · rw [if_neg (mt pause_eq_park_iff.mpr parks)]
    exact Word.add?_eq_some_iff.mp (add?_of_awake parks)

theorem idle_iterate_of_park (parks : b.pause counter = .park) (n : Nat) :
    b.idle^[n] counter = counter :=
  Function.iterate_fixed (idle_of_park parks) n

theorem toNat_idle_iterate_of_lt {start : UInt64} (below : start.toNat < b.rest) (n : Nat) :
    (b.idle^[n] start).toNat = min (start.toNat + n) b.rest := by
  induction n with
  | zero =>
    have none_yet : b.idle^[0] start = start := rfl
    rw [none_yet, Nat.add_zero, Nat.min_eq_left (Nat.le_of_lt below)]
  | succ n ih =>
    -- the call either takes the counter one step nearer to its rest or finds it there
    rw [Function.iterate_succ_apply', toNat_idle, ih]
    split <;> omega

theorem toNat_idle_iterate (b : Backoff) (start : UInt64) (n : Nat) :
    (b.idle^[n] start).toNat =
      if b.rest ≤ start.toNat then start.toNat else min (start.toNat + n) b.rest := by
  by_cases past : b.rest ≤ start.toNat
  · rw [if_pos past, idle_iterate_of_park (pause_eq_park_iff.mpr past)]
  · rw [if_neg past]
    exact toNat_idle_iterate_of_lt (Nat.lt_of_not_le past) n

end Backoff

namespace WaitStrategy

theorem idleChain_backoff (b : Backoff) (start : UInt64) (n : Nat) :
    (backoff b).idleChain start n = (List.range n).map fun k => b.idle^[k + 1] start := by
  induction n generalizing start with
  | zero => rfl
  | succ n ih =>
    rw [List.range_succ_eq_map, List.map_cons, List.map_map]
    exact congrArg (b.idle start :: ·) (ih (b.idle start))

end WaitStrategy

/-- The counters of calls that follow one another. They go up one by one to the larger limit
and stay there, and from a start past it they do not move. No step up leaves the word, and once
a call parks, every later one does, with the same counter. -/
theorem comes_to_rest (b : Backoff) (start : UInt64) (n : Nat) :
    (WaitStrategy.backoff b).idleChain start n =
      (List.range n).map (fun k => b.idle^[k + 1] start) ∧
    (b.idle^[n] start).toNat =
      (if max b.spinLimit.toNat b.yieldLimit.toNat ≤ start.toNat then start.toNat
        else min (start.toNat + n) (max b.spinLimit.toNat b.yieldLimit.toNat)) ∧
    (∀ counter, b.pause counter ≠ .park → Word.add? counter 1 = some (b.idle counter)) ∧
    (b.pause (b.idle^[n] start) = .park → ∀ k,
      b.pause (b.idle^[n + k] start) = .park ∧ b.idle^[n + k] start = b.idle^[n] start) := by
  refine ⟨WaitStrategy.idleChain_backoff b start n, Backoff.toNat_idle_iterate b start n, ?_, ?_⟩
  · intro counter awake
    exact Backoff.add?_of_awake awake
  · intro parks k
    have still : b.idle^[n + k] start = b.idle^[n] start := by
      rw [Nat.add_comm, Function.iterate_add_apply, Backoff.idle_iterate_of_park parks]
    exact ⟨still ▸ parks, still⟩

/-- The spin limit is the larger one and the largest word; the start is three calls below. -/
theorem comes_to_rest_at_top :
    let b : Backoff := ⟨18446744073709551615, 5, 50⟩
    (b.idle^[3] 18446744073709551612).toNat = 18446744073709551615 ∧
      b.pause 18446744073709551614 ≠ .park ∧
      Word.add? 18446744073709551614 1 = some (b.idle 18446744073709551614) ∧
      b.pause (b.idle^[3] 18446744073709551612) = .park ∧
      b.idle^[3 + 7] 18446744073709551612 = b.idle^[3] 18446744073709551612 := by
  intro b
  obtain ⟨-, counted, rises, stays⟩ := comes_to_rest b 18446744073709551612 3
  have awake : b.pause 18446744073709551614 ≠ .park := by decide
  have parks : b.pause (b.idle^[3] 18446744073709551612) = .park := by decide
  exact ⟨counted.trans (by decide), awake, rises _ awake, parks, (stays parks 7).2⟩

end Handoff
