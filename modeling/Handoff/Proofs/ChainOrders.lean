import Handoff.Proofs.ChainTape
import Handoff.Proofs.TapeOrders

/-! What a chain answers to orders made one after another: what a list would that
holds at most as many elements as the chain can. -/
namespace Handoff.Chain

variable {α E : Type}

theorem Models.shows_ledger {q : Chain α} {t : Tape α} (h : q.Models t) {l : Ledger α E}
    (holds : t.Holds l) :
    q.length = l.items.length ∧ q.isEmpty = l.items.isEmpty ∧ q.produced = l.appended ∧
      q.consumed = l.removed :=
  ⟨h.length_eq.trans holds.length_eq.symm, h.isEmpty_eq.trans holds.isEmpty_eq,
    h.produced_eq.trans holds.appended.symm, h.consumed_eq.trans holds.removed.symm⟩

/-- Every list of orders on a new chain ends, with answers that a queue bounded by
the capacity may give from the start, and the chain then shows what is left in. -/
theorem serves_fifo {q₀ : Chain α} (made : q₀.Made) (orders : List (Order α E)) (env : E) :
    let run := (Order.clientOf orders).run ⟨q₀, env⟩
    let q := channelAfter run
    ∃ answers l, verdict run = (.ok answers, l.memory) ∧
      ServesAll q₀.capacity orders ⟨[], 0, 0, env⟩ answers l ∧
      q.length = l.items.length ∧ q.isEmpty = l.items.isEmpty ∧ q.produced = l.appended ∧
      q.consumed = l.removed ∧ q.capacity = q₀.capacity := by
  intro run q
  have empty : q₀.blank.Holds (⟨[], 0, 0, env⟩ : Ledger α E) :=
    ⟨made.models.valid, rfl, rfl, rfl, rfl⟩
  obtain ⟨answers, l, serves, t, ran, holds, size⟩ := Tape.serveAll empty orders
  obtain ⟨same, -, models, -⟩ := (tape α).agree made.models (Order.clientOf orders) env
  rw [ran] at same models
  obtain ⟨length, isEmpty, produced, consumed⟩ := Models.shows_ledger models holds
  refine ⟨answers, l, same, serves, length, isEmpty, produced, consumed, ?_⟩
  exact (Models.capacity_eq models).trans (congrArg ChainSize.capacity size)

theorem serves_fifo_four :
    let q₀ : Chain Nat := ofSize ⟨2, 4⟩
    let orders : List (Order Nat Nat) :=
      [.fillAll fun n => (n, n + 1), .offer 9, .poll, .relaxedOffer 9, .drainAll fun v n => n + v]
    q₀.Made ∧ ∃ answers l, verdict ((Order.clientOf orders).run ⟨q₀, 0⟩) = (.ok answers, l.memory) ∧
      ServesAll 4 orders ⟨[], 0, 0, 0⟩ answers l := by
  intro q₀ orders
  have made : q₀.Made := .inl ⟨2, 4, rfl⟩
  obtain ⟨answers, l, same, serves, -⟩ := serves_fifo made orders 0
  have capacity : q₀.capacity = 4 := by decide +kernel
  rw [capacity] at serves
  exact ⟨made, answers, l, same, serves⟩

end Handoff.Chain
