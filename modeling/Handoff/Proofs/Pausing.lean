import Handoff.Proofs.Framing
import Handoff.Proofs.Gauges

/-! Clients that pause. Before and after each step of a client, also inside callbacks,
something else is done that the client does not know of, for example a look at the next
element. -/
namespace Handoff

variable {α β σ τ E F Q R : Type} {shared : Bool} {h : Handles}

def Act.between (pause : Act σ Unit) (act : Act σ β) : Act σ β := do
  pause
  let b ← act
  pause
  return b

theorem Tracks.between {rel : σ → τ → Prop} {m : Moves τ} {pause : Act σ Unit}
    {pause' : Act τ Unit} {act : Act σ β} {act' : Act τ β} (hp : Tracks rel m pause pause')
    (h : Tracks rel m act act') : Tracks rel m (Act.between pause act) (Act.between pause' act') :=
  hp.bind fun _ => h.bind fun b => hp.bind fun _ => .pure b

theorem Shadows.between {pause : Act (World Q (E × F)) Unit} {act : Act (World Q (E × F)) β}
    {plain : Act (World Q E) β} (hp : Shadows pause (Pure.pure ())) (h : Shadows act plain) :
    Shadows (Act.between pause act) plain := by
  have paused : Shadows (Act.between pause act)
      (Pure.pure () >>= fun _ => plain >>= fun b => Pure.pure () >>= fun _ => Pure.pure b) :=
    hp.bind fun _ => h.bind fun b => hp.bind fun _ => .pure b
  simpa only [pure_bind, bind_pure] using paused

/-- The client with pauses. What is done in a pause depends on which handles are free. -/
def Client.paced [Channel Q α] (pause : Handles → Act (World Q (E × F)) Unit) {h : Handles}
    {β : Type} : Client α E shared h β → Act (World Q (E × F)) β
  | done b => Act.between (pause h) (return b)
  | bind first next => first.paced pause >>= fun b => (next b).paced pause
  | own work => Act.between (pause h) (modifyGet fun ⟨queue, (env, notes)⟩ =>
      ((work env).1, ⟨queue, ((work env).2, notes)⟩))
  | panic => Act.between (pause h) (throw .panicked)
  | stop => Act.between (pause h) (throw .stopped)
  | attempt body => Act.between (pause h) (Act.attempt (body.paced pause))
  | call _ op => Act.between (pause h) (Act.onQueue op.perform)
  | fill _ supply limit => Act.between (pause h) (Channel.fill (supply.paced pause) limit)
  | fillAll _ supply => Act.between (pause h) (Channel.fillAll (supply.paced pause))
  | fillWith _ supply wait keepRunning polls =>
    Act.between (pause h) (Channel.fillWith (supply.paced pause)
      (fun counter => (wait counter).paced pause) (keepRunning.paced pause) polls)
  | drain _ consume limit =>
    Act.between (pause h) (Channel.drain (fun v => (consume v).paced pause) limit)
  | drainAll _ consume => Act.between (pause h) (Channel.drainAll fun v => (consume v).paced pause)
  | drainWith _ consume wait keepRunning polls =>
    Act.between (pause h) (Channel.drainWith (fun v => (consume v).paced pause)
      (fun counter => (wait counter).paced pause) (keepRunning.paced pause) polls)

theorem Client.paced_follows [Channel Q α] [Channel R α] (S : Refinement Q R shared)
    {pause : Handles → Act (World Q (E × F)) Unit} {pause' : Handles → Act (World R (E × F)) Unit}
    (hp : ∀ h, Follows S.rel (S.moves h) (pause h) (pause' h)) (client : Client α E shared h β) :
    Follows S.rel (S.moves h) (client.paced pause) (client.paced pause') := by
  induction client with
  | done b => exact (hp _).between (.pure b)
  | bind first next first_ih next_ih => exact .bind first_ih next_ih
  | own work =>
      apply (hp _).between
      rintro ⟨q, env⟩ ⟨t, _⟩ ⟨rfl, related⟩
      exact .ok ⟨⟨rfl, related⟩, (S.moves _).refl t⟩
  | panic => exact (hp _).between (.throw (by decide))
  | stop => exact (hp _).between (.throw (by decide))
  | attempt body ih => exact (hp _).between (.attempt ih)
  | call free op => exact (hp _).between (.onQueue (S.call free op))
  | fill free supply limit ih => exact (hp _).between (S.fill free ih limit)
  | fillAll free supply ih => exact (hp _).between (S.fillAll free ih)
  | fillWith free supply wait keepRunning polls ih wait_ih keep_ih =>
      exact (hp _).between (S.fillWith free ih wait_ih keep_ih polls)
  | drain free consume limit ih => exact (hp _).between (S.drain free ih limit)
  | drainAll free consume ih => exact (hp _).between (S.drainAll free ih)
  | drainWith free consume wait keepRunning polls ih wait_ih keep_ih =>
      exact (hp _).between (S.drainWith free ih wait_ih keep_ih polls)

/-- A call that is left out where it would spin. Its answer is lost. -/
def Act.unlessSpinning (act : Act σ β) : Act σ Unit := fun s =>
  match act s with
  | .ok _ s => .ok () s
  | .error .spinning _ => .ok () s
  | .error e s => .error e s

theorem Tracks.unlessSpinning {rel : σ → τ → Prop} {m : Moves τ} {act : Act σ β} {act' : Act τ β}
    (h : Tracks rel m act act') :
    Tracks rel m (Act.unlessSpinning act) (Act.unlessSpinning act') := by
  intro s t related
  have agree := h s t related
  unfold Act.unlessSpinning
  generalize act s = x at agree ⊢
  generalize act' t = y at agree ⊢
  cases agree with
  | ok lands => exact .ok lands
  | @error e _ _ sound lands =>
      cases e with
      | spinning => exact .ok ⟨related, m.refl t⟩
      | panicked | misused | unfinished | stopped => exact .error sound lands

/-- The two ways to look at the next element. -/
inductive Glimpse where
  | peek
  | relaxedPeek

namespace Glimpse

def op : Glimpse → Op α .consumer (Option α)
  | peek => .peek
  | relaxedPeek => .relaxedPeek

def all [Channel Q α] : List Glimpse → Act Q Unit
  | [] => return ()
  | glimpse :: rest => do
    Act.unlessSpinning glimpse.op.perform
    all rest

/-- In each pause, looks at the next element as planned for the number of this pause if
the consumer's side is free, and notes what is seen of the channel. The notes number the
pauses. -/
def planned {ρ : Type} [Channel Q α] (view : Q → ρ) (plan : Nat → List Glimpse) (h : Handles) :
    Act (World Q (E × List ρ)) Unit := do
  let number ← Act.view fun w => w.env.2.length
  if h.has .consumer then
    Act.onQueue (all (plan number))
  Client.glance view

theorem all_tracks [Channel Q α] [Channel R α] (S : Refinement Q R shared)
    (free : h.has .consumer = true) (glimpses : List Glimpse) :
    Tracks S.rel (S.moves h) (all glimpses : Act Q Unit) (all glimpses) := by
  induction glimpses with
  | nil => exact .pure ()
  | cons glimpse rest ih => exact (S.call free glimpse.op).unlessSpinning.bind fun _ => ih

theorem planned_follows {ρ : Type} [Channel Q α] [Channel R α] (S : Refinement Q R shared)
    {view : Q → ρ} {view' : R → ρ} (same : ∀ q t, S.rel q t → view q = view' t)
    (plan : Nat → List Glimpse) (h : Handles) :
    Follows S.rel (S.moves h) (planned (E := E) view plan h) (planned view' plan h) := by
  have numbered : Follows S.rel (S.moves h)
      (Act.view fun w : World Q (E × List ρ) => w.env.2.length)
      (Act.view fun w : World R (E × List ρ) => w.env.2.length) := by
    rintro ⟨q, env⟩ ⟨t, _⟩ ⟨rfl, related⟩
    exact .of_ok rfl rfl ⟨⟨rfl, related⟩, (S.moves h).refl t⟩
  refine numbered.bind fun number => ?_
  by_cases free : h.has .consumer = true
  · simp only [free, if_true]
    exact (all_tracks S free (plan number)).onQueue.bind fun _ => Client.glance_follows same
  · simp only [free]
    exact Client.glance_follows same

end Glimpse
end Handoff
