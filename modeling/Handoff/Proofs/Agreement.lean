import Handoff.Proofs.Client
import Handoff.Proofs.Coupling

/-! Agreement of two channels. A call on one channel tracks a call on another if
from related states both answer the same, or halt for the same reason, and leave
related states. No tracked call misuses a slot.

A callback may change both channels, so a call that goes on after it must know
what callbacks leave alone. That is said of the second channel, which is the
simpler one: its moves are the changes that a call may make to it. Where every
call of one channel tracks the same call of another, so does every client. -/
namespace Handoff

variable {σ τ Q R E α β γ : Type}

namespace Act

theorem bind_ok {a : Act σ β} {s s' : σ} {b : β} (h : a s = .ok b s') (f : β → Act σ γ) :
    (a >>= f) s = f b s' := by
  simp only [bind, EStateM.bind, h]

theorem bind_error {a : Act σ β} {s s' : σ} {e : Halt} (h : a s = .error e s')
    (f : β → Act σ γ) : (a >>= f) s = .error e s' := by
  simp only [bind, EStateM.bind, h]

theorem of_bind_ok {a : Act σ β} {f : β → Act σ γ} {s s' : σ} {c : γ}
    (h : (a >>= f) s = .ok c s') : ∃ b t, a s = .ok b t ∧ f b t = .ok c s' := by
  cases ha : a s with
  | ok b t =>
      rw [bind_ok ha] at h
      exact ⟨b, t, rfl, h⟩
  | error e t =>
      rw [bind_error ha] at h
      cases h

@[simp] theorem pure_apply (b : β) (s : σ) : (pure b : Act σ β) s = .ok b s := rfl

@[simp] theorem modify_apply (f : σ → σ) (s : σ) : (modify f : Act σ Unit) s = .ok () (f s) := rfl

theorem bind_require (ok : σ → Bool) (k : Unit → Act σ γ) (s : σ) :
    (require ok >>= k) s = if ok s then k () s else .error .misused s := by
  by_cases h : ok s = true
  · simp only [bind, EStateM.bind, require, h, if_true]
  · simp only [bind, EStateM.bind, require, h, if_false, Bool.false_eq_true]

@[simp] theorem bind_view (f : σ → β) (k : β → Act σ γ) (s : σ) :
    (view f >>= k) s = k (f s) s := rfl

@[simp] theorem bind_modify (f : σ → σ) (k : Unit → Act σ γ) (s : σ) :
    ((modify f : Act σ Unit) >>= k) s = k () (f s) := rfl

@[simp] theorem bind_onQueue_view (f : Q → β) (k : β → Act (World Q E) γ) (w : World Q E) :
    (onQueue (view f) >>= k) w = k (f w.queue) w := rfl

theorem onQueue_ok {a : Act Q β} {w : World Q E} {q' : Q} {b : β} (h : a w.queue = .ok b q') :
    onQueue a w = .ok b ⟨q', w.env⟩ := by
  simp only [onQueue, h]

theorem onQueue_error {a : Act Q β} {w : World Q E} {q' : Q} {e : Halt}
    (h : a w.queue = .error e q') : onQueue a w = .error e ⟨q', w.env⟩ := by
  simp only [onQueue, h]

theorem of_onQueue_ok {a : Act Q β} {w w' : World Q E} {b : β} (h : onQueue a w = .ok b w') :
    a w.queue = .ok b w'.queue ∧ w'.env = w.env := by
  cases ran : a w.queue with
  | ok b q' =>
      rw [onQueue_ok ran] at h
      cases h
      exact ⟨rfl, rfl⟩
  | error e q' =>
      rw [onQueue_error ran] at h
      cases h

end Act

/-- Both calls answered the same, with `post` of the answer and the two states, or
both halted for the same reason, with `left` of the states. -/
inductive Agree (post : β → σ → τ → Prop) (left : σ → τ → Prop) :
    EStateM.Result Halt σ β → EStateM.Result Halt τ β → Prop
  | ok {b : β} {s : σ} {t : τ} (h : post b s t) : Agree post left (.ok b s) (.ok b t)
  | error {e : Halt} {s : σ} {t : τ} (sound : e ≠ .misused) (h : left s t) :
      Agree post left (.error e s) (.error e t)

namespace Agree

variable {post post' : β → σ → τ → Prop} {left left' : σ → τ → Prop}

theorem mono {x : EStateM.Result Halt σ β} {y : EStateM.Result Halt τ β}
    (h : Agree post left x y) (hp : ∀ b s t, post b s t → post' b s t)
    (hl : ∀ s t, left s t → left' s t) : Agree post' left' x y := by
  cases h with
  | ok h => exact .ok (hp _ _ _ h)
  | error sound h => exact .error sound (hl _ _ h)

theorem bind {mid : γ → σ → τ → Prop} {a : Act σ γ} {b : Act τ γ} {f : γ → Act σ β}
    {g : γ → Act τ β} {s : σ} {t : τ} (h : Agree mid left (a s) (b t))
    (next : ∀ x s' t', mid x s' t' → Agree post left (f x s') (g x t')) :
    Agree post left ((a >>= f) s) ((b >>= g) t) := by
  generalize hx : a s = x at h
  generalize hy : b t = y at h
  cases h with
  | ok h => rw [Act.bind_ok hx, Act.bind_ok hy]; exact next _ _ _ h
  | error sound h => rw [Act.bind_error hx, Act.bind_error hy]; exact .error sound h

theorem eq_ok {x : EStateM.Result Halt σ β} {b : β} {t : τ}
    (h : Agree post left x (.ok b t)) : ∃ s, x = .ok b s := by
  cases h with
  | ok h => exact ⟨_, rfl⟩

theorem of_ok {a : Act σ β} {b : Act τ β} {s s' : σ} {t t' : τ} {x : β} (hx : a s = .ok x s')
    (hy : b t = .ok x t') (h : post x s' t') : Agree post left (a s) (b t) := by
  rw [hx, hy]
  exact .ok h

theorem of_error {a : Act σ β} {b : Act τ β} {s s' : σ} {t t' : τ} {e : Halt}
    (hx : a s = .error e s') (hy : b t = .error e t') (sound : e ≠ .misused) (h : left s' t') :
    Agree post left (a s) (b t) := by
  rw [hx, hy]
  exact .error sound h

end Agree

def Joint (rel : Q → R → Prop) (E : Type) (w : World Q E) (v : World R E) : Prop :=
  w.env = v.env ∧ rel w.queue v.queue

theorem Agree.onQueue {post : β → Q → R → Prop} {left : Q → R → Prop} {a : Act Q β} {b : Act R β}
    {w : World Q E} {v : World R E} (env : w.env = v.env)
    (h : Agree post left (a w.queue) (b v.queue)) :
    Agree (fun x => Joint (post x) E) (Joint left E) (Act.onQueue a w) (Act.onQueue b v) := by
  generalize hx : a w.queue = x at h
  generalize hy : b v.queue = y at h
  cases h with
  | ok h => exact .of_ok (Act.onQueue_ok hx) (Act.onQueue_ok hy) ⟨env, h⟩
  | error sound h =>
      exact .of_error (Act.onQueue_error hx) (Act.onQueue_error hy) sound ⟨env, h⟩

/-- The changes that calls may make to a channel. -/
structure Moves (τ : Type) where
  rel : τ → τ → Prop
  refl : ∀ t, rel t t
  trans : ∀ {t u v}, rel t u → rel u v → rel t v

namespace Moves

def onWorld (m : Moves R) (E : Type) : Moves (World R E) :=
  ⟨fun w v => m.rel w.queue v.queue, fun w => m.refl w.queue, fun h h' => m.trans h h'⟩

end Moves

/-- Related states, of which the second could be reached from `t`. -/
def Lands (rel : σ → τ → Prop) (m : Moves τ) (t : τ) (s' : σ) (t' : τ) : Prop :=
  rel s' t' ∧ m.rel t t'

/-- From related states both calls agree, and lead to related states. -/
def Tracks (rel : σ → τ → Prop) (m : Moves τ) (a : Act σ β) (b : Act τ β) : Prop :=
  ∀ s t, rel s t → Agree (fun _ => Lands rel m t) (Lands rel m t) (a s) (b t)

/-- Related channels beside the same memory, of which the second could be reached from
the channel in `v₀`. -/
abbrev Reaches (rel : Q → R → Prop) (m : Moves R) (v₀ : World R E) (w : World Q E)
    (v : World R E) : Prop :=
  Lands (Joint rel E) (m.onWorld E) v₀ w v

abbrev Follows (rel : Q → R → Prop) (m : Moves R) (a : Act (World Q E) β)
    (b : Act (World R E) β) : Prop :=
  Tracks (Joint rel E) (m.onWorld E) a b

namespace Tracks

variable {rel : σ → τ → Prop} {m : Moves τ}

theorem pure (b : β) : Tracks rel m (pure b : Act σ β) (pure b) :=
  fun _ t h => .ok ⟨h, m.refl t⟩

theorem throw {e : Halt} (sound : e ≠ .misused) :
    Tracks rel m (throw e : Act σ β) (throw e) :=
  fun _ t h => .error sound ⟨h, m.refl t⟩

theorem after {a : Act σ β} {b : Act τ β} (h : Tracks rel m a b) {s : σ} {t₀ t : τ}
    (hs : Lands rel m t₀ s t) : Agree (fun _ => Lands rel m t₀) (Lands rel m t₀) (a s) (b t) :=
  (h s t hs.1).mono (fun _ _ _ h' => ⟨h'.1, m.trans hs.2 h'.2⟩)
    (fun _ _ h' => ⟨h'.1, m.trans hs.2 h'.2⟩)

theorem bind {a : Act σ γ} {b : Act τ γ} {f : γ → Act σ β} {g : γ → Act τ β}
    (h : Tracks rel m a b) (next : ∀ x, Tracks rel m (f x) (g x)) :
    Tracks rel m (a >>= f) (b >>= g) :=
  fun s t hst => (h s t hst).bind fun x _ _ h' => (next x).after h'

theorem attempt {a : Act σ β} {b : Act τ β} (h : Tracks rel m a b) :
    Tracks rel m (Act.attempt a) (Act.attempt b) := by
  intro s t hst
  have hab := h s t hst
  unfold Act.attempt
  generalize a s = x at hab ⊢
  generalize b t = y at hab ⊢
  cases hab with
  | ok h' => exact .ok h'
  | @error e _ _ sound h' =>
      cases e with
      | panicked => exact .ok h'
      | spinning | misused | unfinished | stopped => exact .error sound h'

theorem onQueue {rel : Q → R → Prop} {m : Moves R} {a : Act Q β} {b : Act R β}
    (h : Tracks rel m a b) :
    Follows rel m (Act.onQueue a : Act (World Q E) β) (Act.onQueue b) := by
  rintro w v ⟨env, hqt⟩
  refine (Agree.onQueue env (h w.queue v.queue hqt)).mono ?_ ?_
  · exact fun _ _ _ h' => ⟨⟨h'.1, h'.2.1⟩, h'.2.2⟩
  · exact fun _ _ h' => ⟨⟨h'.1, h'.2.1⟩, h'.2.2⟩

/-- Tracking is kept where calls are put together. -/
def coupling (rel : σ → τ → Prop) (m : Moves τ) : Coupling σ τ where
  holds := Tracks rel m
  pure := pure
  bind := bind
  unfinished := throw (by decide)

theorem fillRounds {a : Act σ Nat} {b : Act τ Nat} (h : Tracks rel m a b) (capacity : Nat)
    (rounds total : Nat) :
    Tracks rel m (Loop.fillRounds a capacity rounds total)
      (Loop.fillRounds b capacity rounds total) :=
  (coupling rel m).fillRounds h capacity rounds total

theorem fillPhases {a : Act σ Nat} {b : Act τ Nat} {wait : UInt64 → Act σ UInt64}
    {wait' : UInt64 → Act τ UInt64} {keep : Act σ Bool} {keep' : Act τ Bool}
    (h : Tracks rel m a b) (hw : ∀ counter, Tracks rel m (wait counter) (wait' counter))
    (hk : Tracks rel m keep keep') (polls : Nat) (phase : Loop.Phase) :
    Tracks rel m (Loop.fillPhases a wait keep polls phase)
      (Loop.fillPhases b wait' keep' polls phase) :=
  (coupling rel m).fillPhases h hw hk polls phase

theorem drainFrom {a : Act σ (Option α)} {b : Act τ (Option α)} {consume : α → Act σ Unit}
    {consume' : α → Act τ Unit} (h : Tracks rel m a b)
    (hc : ∀ v, Tracks rel m (consume v) (consume' v)) (done left : Nat) :
    Tracks rel m (Loop.drainFrom a consume done left) (Loop.drainFrom b consume' done left) :=
  (coupling rel m).drainFrom h hc done left

theorem drainLoop {a : Act σ (Option α)} {b : Act τ (Option α)} {consume : α → Act σ Unit}
    {consume' : α → Act τ Unit} {wait : UInt64 → Act σ UInt64} {wait' : UInt64 → Act τ UInt64}
    {keep : Act σ Bool} {keep' : Act τ Bool} (h : Tracks rel m a b)
    (hc : ∀ v, Tracks rel m (consume v) (consume' v))
    (hw : ∀ counter, Tracks rel m (wait counter) (wait' counter)) (hk : Tracks rel m keep keep')
    (polls : Nat) (counter : UInt64) :
    Tracks rel m (Loop.drainLoop a consume wait keep polls counter)
      (Loop.drainLoop b consume' wait' keep' polls counter) :=
  (coupling rel m).drainLoop h hc hw hk polls counter

end Tracks

/-- The calls of `Q` track those of `R`. A call on one side is given callbacks that
track each other by the moves of the handles that stay free. -/
structure Refinement (Q R : Type) {α : Type} [Channel Q α] [Channel R α] (shared : Bool) where
  rel : Q → R → Prop
  moves : Handles → Moves R
  call : ∀ {h : Handles} {side : Side} {β : Type}, h.has side = true → ∀ op : Op α side β,
    Tracks rel (moves h) (op.perform (Q := Q)) (op.perform (Q := R))
  fill : ∀ {E : Type} {h : Handles}, h.has .producer = true →
    ∀ {supply : Act (World Q E) α} {supply' : Act (World R E) α},
      Follows rel (moves (h.lend shared .producer)) supply supply' →
      ∀ limit, Follows rel (moves h) (Channel.fill supply limit) (Channel.fill supply' limit)
  fillAll : ∀ {E : Type} {h : Handles}, h.has .producer = true →
    ∀ {supply : Act (World Q E) α} {supply' : Act (World R E) α},
      Follows rel (moves (h.lend shared .producer)) supply supply' →
      Follows rel (moves h) (Channel.fillAll supply) (Channel.fillAll supply')
  fillWith : ∀ {E : Type} {h : Handles}, h.has .producer = true →
    ∀ {supply : Act (World Q E) α} {supply' : Act (World R E) α}
      {wait : UInt64 → Act (World Q E) UInt64} {wait' : UInt64 → Act (World R E) UInt64}
      {keep : Act (World Q E) Bool} {keep' : Act (World R E) Bool},
      Follows rel (moves (h.lend shared .producer)) supply supply' →
      (∀ counter, Follows rel (moves (h.lend shared .producer)) (wait counter) (wait' counter)) →
      Follows rel (moves (h.lend shared .producer)) keep keep' →
      ∀ polls, Follows rel (moves h) (Channel.fillWith supply wait keep polls)
        (Channel.fillWith supply' wait' keep' polls)
  drain : ∀ {E : Type} {h : Handles}, h.has .consumer = true →
    ∀ {consume : α → Act (World Q E) Unit} {consume' : α → Act (World R E) Unit},
      (∀ v, Follows rel (moves (h.lend shared .consumer)) (consume v) (consume' v)) →
      ∀ limit, Follows rel (moves h) (Channel.drain consume limit) (Channel.drain consume' limit)
  drainAll : ∀ {E : Type} {h : Handles}, h.has .consumer = true →
    ∀ {consume : α → Act (World Q E) Unit} {consume' : α → Act (World R E) Unit},
      (∀ v, Follows rel (moves (h.lend shared .consumer)) (consume v) (consume' v)) →
      Follows rel (moves h) (Channel.drainAll consume) (Channel.drainAll consume')
  drainWith : ∀ {E : Type} {h : Handles}, h.has .consumer = true →
    ∀ {consume : α → Act (World Q E) Unit} {consume' : α → Act (World R E) Unit}
      {wait : UInt64 → Act (World Q E) UInt64} {wait' : UInt64 → Act (World R E) UInt64}
      {keep : Act (World Q E) Bool} {keep' : Act (World R E) Bool},
      (∀ v, Follows rel (moves (h.lend shared .consumer)) (consume v) (consume' v)) →
      (∀ counter, Follows rel (moves (h.lend shared .consumer)) (wait counter) (wait' counter)) →
      Follows rel (moves (h.lend shared .consumer)) keep keep' →
      ∀ polls, Follows rel (moves h)
        (Channel.drainWith consume wait keep polls) (Channel.drainWith consume' wait' keep' polls)

namespace Refinement

variable [Channel Q α] [Channel R α] {shared : Bool}

theorem tracks (S : Refinement Q R shared) {h : Handles} {β : Type}
    (client : Client α E shared h β) :
    Follows S.rel (S.moves h) (client.run (Q := Q)) (client.run (Q := R)) := by
  induction client with
  | done b => exact .pure b
  | bind first next first_ih next_ih => exact .bind first_ih next_ih
  | own work =>
      rintro ⟨q, env⟩ ⟨t, _⟩ ⟨rfl, hqt⟩
      exact .ok ⟨⟨rfl, hqt⟩, (S.moves _).refl t⟩
  | panic => exact .throw (by decide)
  | stop => exact .throw (by decide)
  | attempt body ih => exact .attempt ih
  | call free op => exact .onQueue (S.call free op)
  | fill free supply limit ih => exact S.fill free ih limit
  | fillAll free supply ih => exact S.fillAll free ih
  | fillWith free supply wait keepRunning polls ih wait_ih keep_ih =>
      exact S.fillWith free ih wait_ih keep_ih polls
  | drain free consume limit ih => exact S.drain free ih limit
  | drainAll free consume ih => exact S.drainAll free ih
  | drainWith free consume wait keepRunning polls ih wait_ih keep_ih =>
      exact S.drainWith free ih wait_ih keep_ih polls

/-- A client cannot tell related channels apart, and leaves them related. -/
theorem agree (S : Refinement Q R shared) {β : Type} {q : Q} {t : R} (hqt : S.rel q t)
    (client : Client α E shared .both β) (env : E) :
    verdict (client.run ⟨q, env⟩) = verdict (client.run ⟨t, env⟩) ∧
      (verdict (client.run ⟨q, env⟩)).1 ≠ .error .misused ∧
      Lands S.rel (S.moves .both) t (channelAfter (client.run ⟨q, env⟩))
        (channelAfter (client.run ⟨t, env⟩)) := by
  have h := S.tracks client ⟨q, env⟩ ⟨t, env⟩ ⟨rfl, hqt⟩
  generalize client.run (Q := Q) ⟨q, env⟩ = x at h ⊢
  generalize client.run (Q := R) ⟨t, env⟩ = y at h ⊢
  cases h with
  | ok h => exact ⟨congrArg (Prod.mk _) h.1.1, by simp [verdict], h.1.2, h.2⟩
  | error sound h =>
      exact ⟨congrArg (Prod.mk _) h.1.1, by simpa [verdict] using sound, h.1.2, h.2⟩

end Refinement
end Handoff
