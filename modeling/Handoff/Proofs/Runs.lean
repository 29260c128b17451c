import Mathlib.Data.List.Induction
import Handoff.ChainMachine.Basic
import Handoff.RingMachine.Basic

/-! Runs, looked at from their ends: what the last move was, and when a thread came to the
place where it is now. -/
namespace Handoff

variable {α μ : Type}

/-- What holds at the end of a run and did not hold at its start began with one move and
was left alone by all later ones. -/
theorem exists_entry (here : List μ → Prop) {enters : List μ → μ → Prop} {waits : μ → Prop}
    (fresh : ¬ here [])
    (back : ∀ earlier move, here (earlier ++ [move]) →
      enters earlier move ∨ here earlier ∧ waits move)
    {moves : List μ} (now : here moves) :
    ∃ earlier move later, moves = earlier ++ move :: later ∧ enters earlier move ∧
      ∀ other ∈ later, waits other := by
  induction moves using List.reverseRecOn with
  | nil => exact absurd now fresh
  | append_singleton moves last ih =>
      rcases back moves last now with entry | ⟨before, quiet⟩
      · exact ⟨moves, last, [], rfl, entry, by simp⟩
      · obtain ⟨earlier, move, later, rfl, entry, waits⟩ := ih before
        refine ⟨earlier, move, later ++ [last], by simp, entry, ?_⟩
        intro other member
        rcases List.mem_append.mp member with old | new
        · exact waits other old
        · rw [List.mem_singleton.mp new]
          exact quiet

theorem RingMachine.replay_concat (m : RingMachine α) (moves : List (RingMachine.Move α))
    (move : RingMachine.Move α) :
    m.replay (moves ++ [move]) = (m.replay moves).advance move := by
  induction moves generalizing m with
  | nil => rfl
  | cons first rest ih => exact ih (m.advance first)

theorem ChainMachine.replay_concat (m : ChainMachine α) (moves : List (ChainMachine.Move α))
    (move : ChainMachine.Move α) :
    m.replay (moves ++ [move]) = (m.replay moves).advance move := by
  induction moves generalizing m with
  | nil => rfl
  | cons first rest ih => exact ih (m.advance first)

end Handoff
