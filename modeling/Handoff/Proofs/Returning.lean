import Handoff.Proofs.Bookkeeping
import Handoff.Proofs.Streaming

/-! Calls that answer. A call that halts leaves things as they are at that moment, a claim
half written or a chunk half linked. A call that answers has put right what it began, as
long as nobody stops a panic on the way. Where a call halts can be told by a flag that is
up while its supply runs. -/
namespace Handoff

variable {α β γ σ E Q R : Type} {shared : Bool} {h : Handles}

/-- Where the call answers, it has made moves `m`. -/
def Returns (m : Moves σ) (act : Act σ β) : Prop :=
  ∀ s, Outcome (fun _ s' => m.rel s s') (fun _ _ => True) (act s)

namespace Returns

variable {m : Moves σ}

theorem pure (b : β) : Returns m (pure b : Act σ β) := fun s => m.refl s

theorem throw (e : Halt) : Returns m (throw e : Act σ β) := fun _ => trivial

theorem bind {act : Act σ γ} {next : γ → Act σ β} (h : Returns m act)
    (hn : ∀ b, Returns m (next b)) : Returns m (act >>= next) := by
  intro s
  refine (h s).bind fun b s' first => ?_
  exact (hn b s').imp fun _ _ second => m.trans first second

theorem onQueue {m : Moves Q} {act : Act Q β} (h : Returns m act) :
    Returns (m.onWorld E) (Act.onQueue act) := by
  intro w
  have hq := h w.queue
  cases hx : act w.queue with
  | ok b q' =>
      rw [hx] at hq
      rw [Act.onQueue_ok hx]
      exact hq
  | error e q' =>
      rw [Act.onQueue_error hx]
      trivial

/-- Returning is kept where calls are put together. -/
def coupling (m : Moves σ) : Coupling σ σ := .diagonal (Returns m) pure bind (throw _)

end Returns

/-- A supply with a flag that is up while the supply is under way. -/
def Act.flagged (supply : Act (World Q E) α) : Act (World Q (E × Bool)) α := do
  annotate fun _ => true
  let v ← outward supply
  annotate fun _ => false
  return v

theorem Tracks.flagged {rel : Q → R → Prop} {m : Moves R} {supply : Act (World Q E) α}
    {supply' : Act (World R E) α} (h : Follows rel m supply supply') :
    Follows rel m (Act.flagged supply) (Act.flagged supply') :=
  .bind (.annotate _) fun _ => .bind h.outward fun v => .bind (.annotate _) fun _ => .pure v

theorem Shadows.flagged (supply : Act (World Q E) α) : Shadows (Act.flagged supply) supply :=
  ((Shadows.outward supply).answered fun _ _ => false).annotated fun _ => true

theorem Returns.flagged {m : Moves Q} {supply : Act (World Q E) α}
    (h : Returns (m.onWorld E) supply) : Returns (m.onWorld (E × Bool)) (Act.flagged supply) := by
  have annotated : ∀ up : Bool → Bool,
      Returns (m.onWorld (E × Bool)) (Act.annotate up : Act (World Q (E × Bool)) Unit) :=
    fun _ w => m.refl w.queue
  refine (annotated _).bind fun _ => .bind ?_ fun v => (annotated _).bind fun _ => .pure v
  rintro ⟨q, env, up⟩
  have hs := h ⟨q, env⟩
  cases hx : supply ⟨q, env⟩ with
  | ok v w =>
      rw [hx] at hs
      rw [Act.outward_ok hx]
      exact hs
  | error e w =>
      rw [Act.outward_error hx]
      trivial

def HaltsWithin (act : Act (World Q (E × Bool)) β) : Prop :=
  ∀ w, Outcome (fun _ _ => True) (fun _ v => v.env.2 = true) (act w)

namespace HaltsWithin

theorem pure (b : β) : HaltsWithin (pure b : Act (World Q (E × Bool)) β) := fun _ => trivial

theorem bind {act : Act (World Q (E × Bool)) β} {next : β → Act (World Q (E × Bool)) α}
    (h : HaltsWithin act) (hn : ∀ b, HaltsWithin (next b)) : HaltsWithin (act >>= next) :=
  fun w => (h w).bind fun b v _ => hn b v

theorem flagged (supply : Act (World Q E) α) : HaltsWithin (Act.flagged supply) := by
  rintro ⟨q, env, up⟩
  cases hx : supply ⟨q, env⟩ with
  | ok v w =>
      have ran : Act.flagged supply ⟨q, (env, up)⟩ = .ok v ⟨w.queue, (w.env, false)⟩ :=
        Act.bind_ok (Act.outward_ok hx true) _
      rw [ran]
      trivial
  | error e w =>
      have ran : Act.flagged supply ⟨q, (env, up)⟩ = .error e ⟨w.queue, (w.env, true)⟩ :=
        Act.bind_error (Act.outward_error hx true) _
      rw [ran]
      rfl

end HaltsWithin

/-- The client stops no panic, so it answers only if nothing in it has panicked. -/
def Client.Unguarded {h : Handles} {β : Type} : Client α E shared h β → Prop
  | .done _ => True
  | .bind first next => first.Unguarded ∧ ∀ b, (next b).Unguarded
  | .own _ => True
  | .panic => True
  | .stop => True
  | .attempt _ => False
  | .call _ _ => True
  | .fill _ supply _ => supply.Unguarded
  | .fillAll _ supply => supply.Unguarded
  | .fillWith _ supply wait keepRunning _ =>
    supply.Unguarded ∧ (∀ counter, (wait counter).Unguarded) ∧ keepRunning.Unguarded
  | .drain _ consume _ => ∀ v, (consume v).Unguarded
  | .drainAll _ consume => ∀ v, (consume v).Unguarded
  | .drainWith _ consume wait keepRunning _ =>
    (∀ v, (consume v).Unguarded) ∧ (∀ counter, (wait counter).Unguarded) ∧ keepRunning.Unguarded

namespace Tape

/-- If single calls and batches come back by moves `m`, every unguarded client does. -/
theorem returns_client {m : Moves (Tape α)}
    (ops : ∀ {side : Side} {β : Type} (op : Op α side β), Returns m (op.perform (Q := Tape α)))
    (fills : ∀ {supply : Act (World (Tape α) E) α}, Returns (m.onWorld E) supply →
      ∀ wanted, Returns (m.onWorld E) (fill supply wanted))
    (client : Client α E shared h β) (unguarded : client.Unguarded) :
    Returns (m.onWorld E) (client.run (Q := Tape α)) := by
  have polls : Returns (m.onWorld E) (Act.onQueue relaxedPoll : Act (World (Tape α) E) _) :=
    .onQueue (ops .relaxedPoll)
  let C := Returns.coupling (m.onWorld E)
  induction client with
  | done b => exact .pure b
  | bind first next first_ih next_ih =>
      exact (first_ih unguarded.1).bind fun b => next_ih b (unguarded.2 b)
  | own work => exact fun w => m.refl w.queue
  | panic => exact .throw _
  | stop => exact .throw _
  | attempt body ih => exact unguarded.elim
  | call free op => exact .onQueue (ops op)
  | fill free supply limit ih => exact fills (ih unguarded) limit
  | fillAll free supply ih =>
      exact .bind (fun w => m.refl w.queue) fun capacity =>
        (C.fillRounds ⟨rfl, fills (ih unguarded) _⟩ capacity (capacity + 1) 0).2
  | fillWith free supply wait keepRunning polls ih wait_ih keep_ih =>
      exact (C.fillPhases ⟨rfl, fills (ih unguarded.1) _⟩
        (fun c => ⟨rfl, wait_ih c (unguarded.2.1 c)⟩) ⟨rfl, keep_ih unguarded.2.2⟩ polls .opening).2
  | drain free consume limit ih =>
      exact (C.drainFrom ⟨rfl, polls⟩ (fun v => ⟨rfl, ih v (unguarded v)⟩) 0 limit).2
  | drainAll free consume ih =>
      exact .bind (fun w => m.refl w.queue) fun capacity =>
        (C.drainFrom ⟨rfl, polls⟩ (fun v => ⟨rfl, ih v (unguarded v)⟩) 0 capacity).2
  | drainWith free consume wait keepRunning allowed ih wait_ih keep_ih =>
      exact (C.drainLoop ⟨rfl, polls⟩ (fun v => ⟨rfl, ih v (unguarded.1 v)⟩)
        (fun c => ⟨rfl, wait_ih c (unguarded.2.1 c)⟩) ⟨rfl, keep_ih unguarded.2.2⟩ allowed 0).2

def sameMark (α : Type) : Moves (Tape α) :=
  ⟨fun t u => u.marked = t.marked, fun _ => rfl, fun h h' => h'.trans h⟩

theorem Reads.sameMark {act : Act (Tape α) β} (h : Reads act) : Returns (sameMark α) act := by
  intro t
  have ht := h t
  cases hx : act t with
  | error e u => trivial
  | ok b u =>
      rw [hx] at ht
      rcases ht with rfl | ⟨v, -, rfl⟩
      · rfl
      · rfl

theorem offer_sameMark (v : α) : Returns (sameMark α) (offer v) := by
  intro t
  rcases claim_cases t 1 with hx | hx | ⟨limit, -, -, hx⟩ | ⟨unmarked, -, hx⟩
  · rw [offer, Act.bind_error hx]
    trivial
  · rw [offer, Act.bind_ok hx]
    rfl
  · rw [offer, Act.bind_ok hx]
    rfl
  · rw [offer, Act.bind_ok hx]
    exact unmarked.symm

theorem op_sameMark {side : Side} {β : Type} (op : Op α side β) :
    Returns (sameMark α) (op.perform (Q := Tape α)) := by
  cases op with
  | offer v => exact offer_sameMark v
  | relaxedOffer v => exact offer_sameMark v
  | look side => exact (reads_view _).sameMark
  | poll | relaxedPoll | peek | relaxedPeek => exact (reads_op _).sameMark

theorem writeRun_sameMark {supply : Act (World (Tape α) E) α}
    (hs : Returns ((sameMark α).onWorld E) supply) (i count : Nat) :
    Returns ((sameMark α).onWorld E) (writeRun supply i count) := by
  induction count generalizing i with
  | zero => exact .pure ()
  | succ count ih => exact hs.bind fun v => .bind (fun _ => rfl) fun _ => ih (i + 1)

theorem fill_sameMark {supply : Act (World (Tape α) E) α}
    (hs : Returns ((sameMark α).onWorld E) supply) (wanted : Nat) :
    Returns ((sameMark α).onWorld E) (fill supply wanted) := by
  rintro ⟨t, e⟩
  rcases claim_cases t wanted with hx | hx | ⟨limit, -, -, hx⟩ | ⟨unmarked, -, hx⟩
  · rw [fill, Act.bind_error (Act.onQueue_error hx)]
    trivial
  · rw [fill, Act.bind_ok (Act.onQueue_ok hx)]
    rfl
  · rw [fill, Act.bind_ok (Act.onQueue_ok hx)]
    exact (writeRun_sameMark hs _ _).bind (fun _ => .pure _) ⟨t.grant limit wanted, e⟩
  · rw [fill, Act.bind_ok (Act.onQueue_ok hx)]
    refine (hs ⟨t.mark, e⟩).bind fun v w _ => ?_
    exact unmarked.symm

/-- An unguarded client that answers leaves the mark as it was. -/
theorem client_sameMark (client : Client α E shared h β) (unguarded : client.Unguarded) :
    Returns ((sameMark α).onWorld E) (client.run (Q := Tape α)) :=
  returns_client op_sameMark fill_sameMark client unguarded

end Tape
end Handoff
