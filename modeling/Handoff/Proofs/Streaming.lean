import Handoff.Proofs.Framing

/-! Streaming calls with a log. The log of a call tells in what order it asked its exit
condition, tried to make progress, moved elements and waited. It is kept beside the
memory of the callbacks and out of their reach, so that a call with a log does what it
does without one. -/
namespace Handoff

variable {α β γ σ Q E : Type}

/-- `post` holds of the answer and the state, or `left` of the halt and the state. -/
def Outcome (post : β → σ → Prop) (left : Halt → σ → Prop) : EStateM.Result Halt σ β → Prop
  | .ok b s => post b s
  | .error e s => left e s

namespace Outcome

variable {post post' : β → σ → Prop} {left left' : Halt → σ → Prop}
  {x : EStateM.Result Halt σ β}

theorem imp (h : Outcome post left x) (next : ∀ b s, post b s → post' b s) :
    Outcome post' left x := by
  cases x with
  | ok b s => exact next b s h
  | error e s => exact h

theorem mono (h : Outcome post left x) (next : ∀ b s, post b s → post' b s)
    (halt : ∀ e s, left e s → left' e s) : Outcome post' left' x := by
  cases x with
  | ok b s => exact next b s h
  | error e s => exact halt e s h

theorem and (h : Outcome post left x) (h' : Outcome post' left' x) :
    Outcome (fun b s => post b s ∧ post' b s) (fun e s => left e s ∧ left' e s) x := by
  cases x with
  | ok b s => exact ⟨h, h'⟩
  | error e s => exact ⟨h, h'⟩

theorem bind {mid : γ → σ → Prop} {act : Act σ γ} {f : γ → Act σ β} {s : σ}
    (h : Outcome mid left (act s)) (next : ∀ c s', mid c s' → Outcome post left (f c s')) :
    Outcome post left ((act >>= f) s) := by
  cases hx : act s with
  | ok c s' =>
      rw [hx] at h
      rw [Act.bind_ok hx]
      exact next c s' h
  | error e s' =>
      rw [hx] at h
      rw [Act.bind_error hx]
      exact h

end Outcome

def HaltsOnly (mayHalt : Prop) (act : Act σ β) : Prop :=
  ∀ s, Outcome (fun _ _ => True) (fun _ _ => mayHalt) (act s)

theorem HaltsOnly.any (act : Act σ β) : HaltsOnly True act := by
  intro s
  cases act s with
  | ok _ _ => trivial
  | error _ _ => trivial

theorem HaltsOnly.bind {mayHalt : Prop} {act : Act σ γ} {f : γ → Act σ β}
    (h : HaltsOnly mayHalt act) (next : ∀ c, HaltsOnly mayHalt (f c)) :
    HaltsOnly mayHalt (act >>= f) :=
  fun s => (h s).bind fun c s' _ => next c s'

theorem Agree.outcome {τ : Type} {post : β → σ → τ → Prop} {left : σ → τ → Prop}
    {x : EStateM.Result Halt σ β} {y : EStateM.Result Halt τ β} (h : Agree post left x y)
    {post' : β → τ → Prop} {mayHalt : Prop} (hy : Outcome post' (fun _ _ => mayHalt) y) :
    Outcome (fun b s => ∃ t, post b s t ∧ post' b t) (fun _ _ => mayHalt) x := by
  cases h with
  | ok h => exact ⟨_, h, hy⟩
  | error _ _ => exact hy

theorem Agree.transfer {τ : Type} {post : β → σ → τ → Prop} {left : σ → τ → Prop}
    {x : EStateM.Result Halt σ β} {y : EStateM.Result Halt τ β} (h : Agree post left x y)
    {post' : β → τ → Prop} {left' : Halt → τ → Prop} (hy : Outcome post' left' y) :
    Outcome (fun b s => ∃ t, post b s t ∧ post' b t) (fun e s => ∃ t, left s t ∧ left' e t) x := by
  cases h with
  | ok h => exact ⟨_, h, hy⟩
  | error _ h => exact ⟨_, h, hy⟩

namespace Streaming

/-- What a streaming call does. `moved` is an element that was supplied, or that is about
to be consumed. `idle` is a call of the wait strategy, with the queue as it is then, and
`resumed` its answer. -/
inductive Entry (Q : Type) where
  | polled (goesOn : Bool)
  | attempted
  | moved
  | idle (queue : Q) (counter : UInt64)
  | resumed (counter : UInt64)

/-- The newest entry comes first. -/
abbrev Log (Q : Type) : Type := List (Entry Q)

def enter (entry : Entry Q) : Act (World Q (E × Log Q)) Unit :=
  modify fun w => { w with env := (w.env.1, entry :: w.env.2) }

def watchSupply (supply : Act (World Q E) α) : Act (World Q (E × Log Q)) α := do
  let v ← Act.outward supply
  enter .moved
  return v

def watchConsume (consume : α → Act (World Q E) Unit) (v : α) :
    Act (World Q (E × Log Q)) Unit := do
  enter .moved
  Act.outward (consume v)

def watchWait (wait : UInt64 → Act (World Q E) UInt64) (counter : UInt64) :
    Act (World Q (E × Log Q)) UInt64 := do
  let queue ← Act.onQueue (Act.view id)
  enter (.idle queue counter)
  let next ← Act.outward (wait counter)
  enter (.resumed next)
  return next

def watchExit (keepRunning : Act (World Q E) Bool) : Act (World Q (E × Log Q)) Bool := do
  let goesOn ← Act.outward keepRunning
  enter (.polled goesOn)
  return goesOn

def watchAttempt (attempt : Act (World Q (E × Log Q)) β) : Act (World Q (E × Log Q)) β := do
  enter .attempted
  attempt

def answers : Log Q → List Bool :=
  List.filterMap fun
    | .polled goesOn => some goesOn
    | .attempted | .moved | .idle _ _ | .resumed _ => none

/-- The counter that the next idle call should be given: what the last one answered, or
zero if there was none or an element was moved since. -/
def due : Log Q → UInt64
  | [] | .moved :: _ => 0
  | .resumed counter :: _ => counter
  | .polled _ :: log | .attempted :: log | .idle _ _ :: log => due log

/-- Once the exit condition has refused, it does not say again to go on. -/
def Steady (log : Log Q) : Prop :=
  ∀ before, .polled true :: before <:+ log → .polled false ∉ before

/-- An attempt comes right after a poll that says to go on. The elements that it moves
come right after it. An idle call comes right after an attempt that moved nothing, and
finds the queue `stuck`; it is given the counter that is due. -/
inductive Orderly (stuck : Q → Prop) : Log Q → Prop
  | nil : Orderly stuck []
  | polled {log : Log Q} (goesOn : Bool) (h : Orderly stuck log) :
      Orderly stuck (.polled goesOn :: log)
  | attempted {log : Log Q} (h : Orderly stuck (.polled true :: log)) :
      Orderly stuck (.attempted :: .polled true :: log)
  | first {log : Log Q} (h : Orderly stuck (.attempted :: log)) :
      Orderly stuck (.moved :: .attempted :: log)
  | further {log : Log Q} (h : Orderly stuck (.moved :: log)) :
      Orderly stuck (.moved :: .moved :: log)
  | idle {log : Log Q} {queue : Q} {counter : UInt64} (h : Orderly stuck (.attempted :: log))
      (found : stuck queue) (given : Steady (.attempted :: log) → counter = due log) :
      Orderly stuck (.idle queue counter :: .attempted :: log)
  | resumed {log : Log Q} {queue : Q} {counter : UInt64} (next : UInt64)
      (h : Orderly stuck (.idle queue counter :: log)) :
      Orderly stuck (.resumed next :: .idle queue counter :: log)

def refusals (count : Nat) : Log Q := List.replicate count (.polled false)

def unwatched : EStateM.Result Halt (World Q (E × Log Q)) β → EStateM.Result Halt (World Q E) β
  | .ok b w => .ok b ⟨w.queue, w.env.1⟩
  | .error e w => .error e ⟨w.queue, w.env.1⟩

def Watches (act : Act (World Q (E × Log Q)) β) (plain : Act (World Q E) β) : Prop :=
  ∀ q env log, unwatched (act ⟨q, (env, log)⟩) = plain ⟨q, env⟩

theorem watches_iff {act : Act (World Q (E × Log Q)) β} {plain : Act (World Q E) β} :
    Watches act plain ↔ Shadows act plain := by
  have same : ∀ x : EStateM.Result Halt (World Q (E × Log Q)) β, unwatched x = unframed x := by
    intro x
    cases x <;> rfl
  constructor
  · intro h q env log
    rw [← same]
    exact h q env log
  · intro h q env log
    rw [same]
    exact h q env log

namespace Watches

variable {act : Act (World Q (E × Log Q)) β} {plain : Act (World Q E) β}

theorem pure (b : β) : Watches (pure b : Act (World Q (E × Log Q)) β) (pure b) :=
  fun _ _ _ => rfl

theorem throw (e : Halt) : Watches (throw e : Act (World Q (E × Log Q)) β) (throw e) :=
  fun _ _ _ => rfl

theorem bind {f : β → Act (World Q (E × Log Q)) γ} {g : β → Act (World Q E) γ}
    (h : Watches act plain) (next : ∀ b, Watches (f b) (g b)) :
    Watches (act >>= f) (plain >>= g) :=
  watches_iff.mpr ((watches_iff.mp h).bind fun b => watches_iff.mp (next b))

theorem onQueue (act : Act Q β) :
    Watches (Act.onQueue act : Act (World Q (E × Log Q)) β) (Act.onQueue act) :=
  watches_iff.mpr (.onQueue act)

theorem outward (plain : Act (World Q E) β) : Watches (Act.outward plain) plain :=
  watches_iff.mpr (.outward plain)

theorem entered (h : Watches act plain) (entry : Entry Q) :
    Watches (enter entry >>= fun _ => act) plain :=
  fun q env log => h q env (entry :: log)

theorem noted (h : Watches act plain) (entry : β → Entry Q) :
    Watches (do let b ← act; enter (entry b); return b) plain := by
  have again : Watches (do let b ← act; enter (entry b); return b) (plain >>= Pure.pure) :=
    h.bind fun b => (Watches.pure b).entered (entry b)
  rwa [bind_pure] at again

theorem supply (supply : Act (World Q E) α) : Watches (watchSupply supply) supply :=
  (Watches.outward supply).noted fun _ => .moved

theorem consume (consume : α → Act (World Q E) Unit) (v : α) :
    Watches (watchConsume consume v) (consume v) :=
  (Watches.outward (consume v)).entered .moved

theorem wait (wait : UInt64 → Act (World Q E) UInt64) (counter : UInt64) :
    Watches (watchWait wait counter) (wait counter) :=
  fun q env log =>
    ((Watches.outward (wait counter)).noted .resumed) q env (.idle q counter :: log)

theorem exit (keepRunning : Act (World Q E) Bool) : Watches (watchExit keepRunning) keepRunning :=
  (Watches.outward keepRunning).noted .polled

theorem attempt (h : Watches act plain) : Watches (watchAttempt act) plain := h.entered .attempted

theorem outcome (h : Watches act plain) {post : β → Q → Prop} {mayHalt : Prop} {q : Q} {env : E}
    (ran : Outcome (fun b w => post b w.queue) (fun _ _ => mayHalt) (plain ⟨q, env⟩))
    (log : Log Q) :
    Outcome (fun b w => post b w.queue) (fun _ _ => mayHalt) (act ⟨q, (env, log)⟩) := by
  rw [← h q env log] at ran
  cases hx : act ⟨q, (env, log)⟩ with
  | ok b w => rw [hx] at ran; exact ran
  | error e w => rw [hx] at ran; exact ran

end Watches

/-- A streaming call, as it is and with a log. -/
structure Call (Q E : Type) where
  plain : Act (World Q E) Unit
  watched : Act (World Q (E × Log Q)) Unit

namespace Call

variable (call : Call Q E) (q : Q) (env : E)

def run : EStateM.Result Halt (World Q (E × Log Q)) Unit := call.watched ⟨q, (env, [])⟩

def log : Log Q := (verdict (call.run q env)).2.2

/-- The first poll that refuses is the last thing that the call does, and it returns. -/
structure EndsOnRefusal : Prop where
  same : unwatched (call.run q env) = call.plain ⟨q, env⟩
  returned : ∀ w, call.run q env = .ok () w → ∃ count before,
    call.log q env = .polled false :: before ∧ answers before = List.replicate count true
  halted : ∀ e w, call.run q env = .error e w → .polled false ∉ call.log q env

/-- The third refusal in a row is the last thing that the call does, and it returns. It
may return on an earlier one. Until the exit condition has said again to go on, it is
polled and nothing else is done. -/
structure EndsOnThirdRefusal : Prop where
  same : unwatched (call.run q env) = call.plain ⟨q, env⟩
  returned : ∀ w, call.run q env = .ok () w → ∃ before,
    call.log q env = .polled false :: before ∧ ¬ refusals 3 <:+: before
  halted : ∀ e w, call.run q env = .error e w → ¬ refusals 3 <:+: call.log q env
  polls : ∀ entry before, entry :: .polled false :: before <:+ call.log q env →
    ∃ goesOn, entry = .polled goesOn

/-- The call halts only if it was not allowed a further poll. -/
structure Completes (polls : Nat) : Prop where
  halted : ∀ e w, call.run q env = .error e w →
    e = .unfinished ∧ (answers (call.log q env)).length = polls

/-- The wait strategy is called in turn, as long as the exit condition is steady. -/
structure WaitsInTurn (stuck : Q → Prop) : Prop where
  same : unwatched (call.run q env) = call.plain ⟨q, env⟩
  orderly : Orderly stuck (call.log q env)

end Call
end Streaming
end Handoff
