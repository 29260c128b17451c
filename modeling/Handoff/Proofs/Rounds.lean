import Mathlib.Algebra.BigOperators.Group.List.Basic
import Mathlib.Algebra.Ring.Nat
import Handoff.Proofs.Streaming

/-! Rounds of a filling loop. The loop knows of its queue only how many elements each
round adds, and that a round adds none once the queue is full. -/
namespace Handoff

variable {σ E Q : Type}

/-- How rounds have ended that added `counts`, in this order: with one that added nothing,
or past the capacity. -/
structure FilledUp (capacity bound : Nat) (full : Prop) (counts : List Nat) (total : Nat) :
    Prop where
  sum : counts.sum = total
  bounded : ∀ count ∈ counts, count ≤ bound
  rounds : (counts.filter (0 < ·)).length ≤ capacity + 1
  total_le : total ≤ capacity + bound
  ended : counts.getLast? = some 0 ∧ full ∨ capacity < total

/-- Rounds that have not ended the loop: each has added something, and the total is
within the capacity. -/
structure Filling (capacity bound : Nat) (counts : List Nat) : Prop where
  bounded : ∀ count ∈ counts, 0 < count ∧ count ≤ bound
  sum_le : counts.sum ≤ capacity

namespace Filling

variable {capacity bound count : Nat} {counts : List Nat}

theorem nil : Filling capacity bound [] :=
  ⟨fun _ member => absurd member List.not_mem_nil, Nat.zero_le _⟩

theorem length_le (h : Filling capacity bound counts) : counts.length ≤ capacity := by
  have each := List.length_le_sum_of_one_le counts fun count member => (h.bounded count member).1
  exact Nat.le_trans each h.sum_le

theorem mem_concat (h : Filling capacity bound counts) (le : count ≤ bound) :
    ∀ k ∈ counts ++ [count], k ≤ bound := by
  intro k member
  rcases List.mem_append.mp member with old | new
  · exact (h.bounded k old).2
  · rw [List.mem_singleton.mp new]
    exact le

theorem push (h : Filling capacity bound counts) (pos : 0 < count) (le : count ≤ bound)
    (within : counts.sum + count ≤ capacity) : Filling capacity bound (counts ++ [count]) where
  bounded k member := by
    rcases List.mem_append.mp member with old | new
    · exact h.bounded k old
    · rw [List.mem_singleton.mp new]
      exact ⟨pos, le⟩
  sum_le := by rwa [List.sum_append, List.sum_singleton]

theorem last (h : Filling capacity bound counts) (le : count ≤ bound) {full : Prop}
    (ended : count = 0 ∧ full ∨ capacity < counts.sum + count) :
    FilledUp capacity bound full (counts ++ [count]) (counts.sum + count) where
  sum := by rw [List.sum_append, List.sum_singleton]
  bounded := h.mem_concat le
  rounds := by
    have := List.length_filter_le (0 < ·) (counts ++ [count])
    rw [List.length_append, List.length_singleton] at this
    exact Nat.le_trans this (Nat.succ_le_succ h.length_le)
  total_le := Nat.add_le_add h.sum_le le
  ended := by
    rw [List.getLast?_concat]
    exact ended.imp_left fun ended => ⟨congrArg some ended.1, ended.2⟩

end Filling

theorem fillRounds_allowance (attempt : Act σ Nat) {capacity : Nat} (m n : Nat) {total : Nat}
    (hm : capacity - total < m) (hn : capacity - total < n) (within : total ≤ capacity) :
    Loop.fillRounds attempt capacity m total = Loop.fillRounds attempt capacity n total := by
  induction m generalizing n total with
  | zero => exact absurd hm (Nat.not_lt_zero _)
  | succ m ih =>
      cases n with
      | zero => exact absurd hn (Nat.not_lt_zero _)
      | succ n =>
          apply bind_congr
          intro filled
          by_cases none : filled = 0
          · rw [if_pos none, if_pos none]
          · rw [if_neg none, if_neg none]
            by_cases past : capacity < total + filled
            · rw [if_pos past, if_pos past]
            · rw [if_neg past, if_neg past]
              exact ih n (by omega) (by omega) (by omega)

theorem fillRounds_listed {attempt : Act (World Q E) Nat} {inv : World Q E → Prop}
    {full : Q → Prop} {left : Halt → World Q E → Prop} {capacity bound rounds : Nat}
    (round : ∀ w, inv w → Outcome
      (fun count v => inv v ∧ count ≤ bound ∧ (count = 0 → full v.queue)) left (attempt w))
    {q : Q} {env : E} (hw : inv ⟨q, env⟩) {counts : List Nat}
    (filling : Filling capacity bound counts) (enough : capacity - counts.sum < rounds) :
    Outcome (fun total v => FilledUp capacity bound (full v.queue) v.env.2 total)
      (fun e v => Filling capacity bound v.env.2 ∧ left e ⟨v.queue, v.env.1⟩)
      (Loop.fillRounds (Act.listed attempt) capacity rounds counts.sum ⟨q, (env, counts)⟩) := by
  -- The invariant is that the rounds so far have not ended the loop. As each has added to
  -- the total, the capacity bounds how many there are.
  induction rounds generalizing q env counts with
  | zero => exact absurd enough (Nat.not_lt_zero _)
  | succ rounds ih =>
      have once := round ⟨q, env⟩ hw
      cases hx : attempt ⟨q, env⟩ with
      | error e w =>
          have ran : Act.listed attempt ⟨q, (env, counts)⟩ = .error e ⟨w.queue, (w.env, counts)⟩ :=
            Act.bind_error (Act.outward_error hx counts) _
          rw [hx] at once
          rw [Loop.fillRounds, Act.bind_error ran]
          exact ⟨filling, once⟩
      | ok count w =>
          have ran : Act.listed attempt ⟨q, (env, counts)⟩ =
              .ok count ⟨w.queue, (w.env, counts ++ [count])⟩ :=
            Act.bind_ok (Act.outward_ok hx counts) _
          rw [hx] at once
          obtain ⟨hw', le, found⟩ := once
          rw [Loop.fillRounds, Act.bind_ok ran]
          by_cases none : count = 0
          · subst none
            rw [if_pos rfl]
            exact filling.last le (.inl ⟨rfl, found rfl⟩)
          · rw [if_neg none]
            by_cases past : capacity < counts.sum + count
            · rw [if_pos past]
              exact filling.last le (.inr past)
            · have pos := Nat.pos_of_ne_zero none
              have sum : (counts ++ [count]).sum = counts.sum + count := by
                rw [List.sum_append, List.sum_singleton]
              rw [if_neg past, ← sum]
              exact ih hw' (filling.push pos le (Nat.le_of_not_lt past)) (by omega)

end Handoff
