import Handoff.Channel
import Handoff.Proofs.Streaming

/-! What the calls of a ring leave alone. No call drops a value: a ring gives up what it
holds only when it is closed. -/
namespace Handoff

variable {α γ δ σ E Q : Type} {shared : Bool}

/-- However the call ends, `part` of the state is as it was. -/
def Retains {ρ : Type} (part : σ → ρ) (act : Act σ γ) : Prop :=
  ∀ s, Outcome (fun _ s' => part s' = part s) (fun _ s' => part s' = part s) (act s)

namespace Retains

variable {ρ : Type} {part : σ → ρ} {act : Act σ γ}

theorem pure (b : γ) : Retains part (pure b : Act σ γ) := fun _ => rfl

theorem throw (e : Halt) : Retains part (throw e : Act σ γ) := fun _ => rfl

theorem view (f : σ → γ) : Retains part (Act.view f) := fun _ => rfl

theorem bind {next : γ → Act σ δ} (h : Retains part act) (hn : ∀ b, Retains part (next b)) :
    Retains part (act >>= next) := by
  intro s
  have first := h s
  cases hx : act s with
  | error e s' =>
      rw [hx] at first
      rw [Act.bind_error hx]
      exact first
  | ok b s' =>
      rw [hx] at first
      rw [Act.bind_ok hx]
      have second := hn b s'
      rwa [show part s' = part s from first] at second

theorem attempt (h : Retains part act) : Retains part (Act.attempt act) := by
  intro s
  have hs := h s
  unfold Act.attempt
  cases hx : act s with
  | ok b s' =>
      rw [hx] at hs
      exact hs
  | error e s' =>
      rw [hx] at hs
      cases e <;> exact hs

theorem onQueue {part : Q → ρ} {act : Act Q γ} (h : Retains part act) :
    Retains (fun w : World Q E => part w.queue) (Act.onQueue act) := by
  intro w
  have hq := h w.queue
  cases hx : act w.queue with
  | ok b q' =>
      rw [hx] at hq
      rw [Act.onQueue_ok hx]
      exact hq
  | error e q' =>
      rw [hx] at hq
      rw [Act.onQueue_error hx]
      exact hq

end Retains

namespace Ring

theorem retains_onChunk (act : Act (Chunk α) γ) : Retains discarded (onChunk act) := by
  rintro ⟨chunk, producer, consumer, limit, lookAhead, discarded, journal⟩
  simp only [onChunk]
  cases act chunk <;> rfl

theorem retains_publish (index : Nat) (v : α) : Retains discarded (publish index v) :=
  .bind (.view _) fun _ => .bind (retains_onChunk _) fun _ _ => rfl

theorem retains_hasRoom (index : Nat) : Retains discarded (hasRoom index : Act (Ring α) Bool) := by
  refine .bind (.view _) fun limit => ?_
  split
  · exact .pure true
  · refine .bind (.view _) fun ahead => ?_
    cases ahead with
    | true => exact .bind (fun _ => rfl) fun _ => .pure true
    | false => exact .view _

theorem retains_offer (v : α) : Retains discarded (offer v) := by
  refine .bind (.view _) fun index => .bind (retains_hasRoom index) fun room => ?_
  cases room with
  | true => exact .bind (retains_publish index v) fun _ => .pure _
  | false => exact .pure _

theorem retains_pollAt (index : Nat) :
    Retains discarded (pollAt index : Act (Ring α) (Option α)) := by
  refine .bind (.view _) fun vacant => ?_
  cases vacant with
  | true => exact .pure none
  | false =>
      refine .bind ?_ fun v => .pure _
      refine .bind (.view _) fun _ => .bind (retains_onChunk _) fun v => ?_
      exact .bind (fun _ => rfl) fun _ => .pure v

theorem retains_op {side : Side} {β : Type} (op : Op α side β) :
    Retains discarded (op.perform (Q := Ring α)) := by
  have poll : Retains discarded (poll : Act (Ring α) (Option α)) := .bind (.view _) retains_pollAt
  have peek : Retains discarded (peek : Act (Ring α) (Option α)) := by
    refine .bind (.view _) fun index => .bind (.view _) fun vacant => ?_
    cases vacant with
    | true => exact .pure none
    | false => exact .bind (.view _) fun _ => .bind (retains_onChunk _) fun v => .pure _
  cases op with
  | offer v => exact retains_offer v
  | relaxedOffer v => exact retains_offer v
  | poll => exact poll
  | relaxedPoll => exact poll
  | peek => exact peek
  | relaxedPeek => exact peek
  | look side => exact .view _

/-- A call with callbacks, in which nothing is dropped. -/
abbrev DropsNothing (act : Act (World (Ring α) E) γ) : Prop :=
  Retains (fun w : World (Ring α) E => w.queue.discarded) act

/-- Nothing is dropped where calls are put together that drop nothing. -/
def dropless (α E : Type) : Coupling (World (Ring α) E) (World (Ring α) E) :=
  .diagonal DropsNothing .pure .bind (.throw _)

theorem coupled_dropless : Coupled (dropless α E) where
  view f := ⟨rfl, .onQueue (.view f)⟩
  publish index v := ⟨rfl, .onQueue (retains_publish index v)⟩
  poll index := ⟨rfl, .onQueue (retains_pollAt index)⟩

/-- No client makes a ring drop anything. -/
theorem dropsNothing_run {h : Handles} {β : Type} (client : Client α E shared h β) :
    DropsNothing (client.run (Q := Ring α)) := by
  have calls := coupled_dropless (α := α) (E := E)
  induction client with
  | done b => exact .pure b
  | bind first next first_ih next_ih => exact first_ih.bind next_ih
  | own work => exact fun _ => rfl
  | panic => exact .throw _
  | stop => exact .throw _
  | attempt body ih => exact ih.attempt
  | call free op => exact .onQueue (retains_op op)
  | fill free supply limit ih => exact (calls.fill ⟨rfl, ih⟩ limit).2
  | fillAll free supply ih => exact (calls.fillAll ⟨rfl, ih⟩).2
  | fillWith free supply wait keepRunning polls ih wait_ih keep_ih =>
      exact (calls.fillWith ⟨rfl, ih⟩ (fun c => ⟨rfl, wait_ih c⟩) ⟨rfl, keep_ih⟩ polls).2
  | drain free consume limit ih => exact (calls.drain (fun v => ⟨rfl, ih v⟩) limit).2
  | drainAll free consume ih => exact (calls.drainAll fun v => ⟨rfl, ih v⟩).2
  | drainWith free consume wait keepRunning polls ih wait_ih keep_ih =>
      exact (calls.drainWith (fun v => ⟨rfl, ih v⟩) (fun c => ⟨rfl, wait_ih c⟩) ⟨rfl, keep_ih⟩
        polls).2

theorem discarded_after {h : Handles} {β : Type} (client : Client α E shared h β)
    (w : World (Ring α) E) : (channelAfter (client.run w)).discarded = w.queue.discarded := by
  have kept := dropsNothing_run client w
  cases hx : client.run w with
  | ok b w' =>
      rw [hx] at kept
      exact kept
  | error e w' =>
      rw [hx] at kept
      exact kept

end Ring
end Handoff
