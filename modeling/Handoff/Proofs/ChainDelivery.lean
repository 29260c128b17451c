import Handoff.Proofs.ChainTape
import Handoff.Proofs.Recording

/-! What a chain delivers. Callbacks may use the chain while a batch is half written,
link chunks behind the one that is written to, and panic: the values come out in the
order of their indices all the same, up to the first index that is not written. -/
namespace Handoff.Chain

variable {α E : Type}

theorem relaxedPoll_eq {q : Chain α} {t : Tape α} (h : q.Models t) :
    ∃ q', relaxedPoll q = .ok (t.written q.consumed) q' := by
  have agree := relaxedPoll_tracks q t h
  rw [Tape.relaxedPoll_eq] at agree
  rw [h.consumed_eq]
  exact agree.eq_ok

theorem relaxedPeek_eq {q : Chain α} {t : Tape α} (h : q.Models t) :
    ∃ q', relaxedPeek q = .ok (t.written q.consumed) q' := by
  have agree := relaxedPeek_tracks q t h
  rw [h.consumed_eq]
  exact agree.eq_ok

/-- The values that a client is given, in the order in which it gets them, are those
written at the indices that are consumed: none is missing, and no index that is not
written was passed. The next index decides what a relaxed call answers. That the
client keeps a log makes no difference to it. -/
theorem delivers_in_order {q₀ : Chain α} (made : q₀.Made) {β : Type}
    (client : Client α E true .both β) (env : E) :
    let run := client.recorded.run ⟨q₀, (env, [])⟩
    let q := channelAfter run
    let written := (channelAfter (client.run ⟨q₀.blank, env⟩)).written
    (verdict run).2.2.map some = (List.range q.consumed).map written ∧
      (∀ i, written i = none → q.consumed ≤ i) ∧ (∀ i, q.produced ≤ i → written i = none) ∧
      (∃ q', relaxedPoll q = .ok (written q.consumed) q') ∧
      (∃ q', relaxedPeek q = .ok (written q.consumed) q') ∧
      (verdict run).1 = (verdict (client.run ⟨q₀, env⟩)).1 ∧
      (verdict run).2.1 = (verdict (client.run ⟨q₀, env⟩)).2 := by
  obtain ⟨same, -, models, -⟩ := (tape α).agree made.models client.recorded (env, [])
  obtain ⟨same', -, -, -⟩ := (tape α).agree made.models client env
  obtain ⟨answer, memory, left⟩ := Noted.recorded_run client (t := q₀.blank) rfl env
  rw [left] at models
  have valid := Models.valid models
  have consumed := Models.consumed_eq models
  have produced := Models.produced_eq models
  intro run q written
  have log : (verdict run).2.2 = (channelAfter (client.run ⟨q₀.blank, env⟩)).handed := by
    rw [same, memory]
  refine ⟨?_, ?_, ?_, relaxedPoll_eq models, relaxedPeek_eq models, ?_, ?_⟩
  · rw [log, consumed]
    exact valid.handed
  · intro i hi
    rw [consumed]
    exact valid.consumed_le_of_unwritten hi
  · intro i hi
    rw [produced] at hi
    exact valid.unwritten i hi
  · rw [same, same', answer]
  · rw [same, same', memory]

/-- A batch of three that panics after its first value: that value is delivered, and
the two holes hold up all that follows. -/
theorem delivers_up_to_hole :
    let q₀ : Chain Nat := ofSize ⟨4, 8⟩
    let client : Client Nat Nat true .both (Option Nat) :=
      .bind (.attempt (.fill rfl (.bind (.own fun n => (n, n + 1)) fun n =>
        if n = 0 then .done 5 else .panic) 3)) fun _ =>
      .bind (.call rfl (.offer 6)) fun _ =>
      .bind (.call rfl .relaxedPoll) fun _ => .call rfl .relaxedPoll
    q₀.Made ∧ (verdict (client.recorded.run ⟨q₀, (0, [])⟩)).2.2.map some = [some 5] := by
  intro q₀ client
  have made : q₀.Made := .inl ⟨4, 8, rfl⟩
  refine ⟨made, (delivers_in_order made client 0).1.trans ?_⟩
  decide +kernel

end Handoff.Chain
