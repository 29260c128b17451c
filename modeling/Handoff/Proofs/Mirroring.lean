import Handoff.Proofs.Agreement

/-! Calls that mirror each other. From related states they answer alike and leave related
states, or they halt for the same reason; what is left of the states then may be less. -/
namespace Handoff

variable {σ τ Q E F β β' γ γ' : Type}

/-- Both calls answered, and alike, with `rel` of the states, or both halted for one reason,
with `left` of it and the states. -/
inductive Like (out : β → γ → Prop) (rel : σ → τ → Prop) (left : Halt → σ → τ → Prop) :
    EStateM.Result Halt σ β → EStateM.Result Halt τ γ → Prop
  | ok {b : β} {c : γ} {s : σ} {t : τ} (alike : out b c) (related : rel s t) :
      Like out rel left (.ok b s) (.ok c t)
  | error {e : Halt} {s : σ} {t : τ} (halted : left e s t) :
      Like out rel left (.error e s) (.error e t)

/-- From related states both calls come to like results. -/
def Mirrors (out : β → γ → Prop) (rel : σ → τ → Prop) (left : Halt → σ → τ → Prop)
    (a : Act σ β) (b : Act τ γ) : Prop :=
  ∀ s t, rel s t → Like out rel left (a s) (b t)

variable {rel : σ → τ → Prop} {left : Halt → σ → τ → Prop} {out : β → γ → Prop}
  {out' : β' → γ' → Prop}

namespace Like

theorem imp {rel' : σ → τ → Prop} {left' : Halt → σ → τ → Prop} {out₁ : β → γ → Prop}
    {x : EStateM.Result Halt σ β} {y : EStateM.Result Halt τ γ} (h : Like out rel left x y)
    (ho : ∀ b c, out b c → out₁ b c) (hr : ∀ s t, rel s t → rel' s t)
    (hl : ∀ e s t, left e s t → left' e s t) : Like out₁ rel' left' x y := by
  cases h with
  | ok alike related => exact .ok (ho _ _ alike) (hr _ _ related)
  | error halted => exact .error (hl _ _ _ halted)

theorem bind {rel' : σ → τ → Prop} {a : Act σ β} {b : Act τ γ} {f : β → Act σ β'}
    {g : γ → Act τ γ'} {s : σ} {t : τ} (h : Like out rel' left (a s) (b t))
    (next : ∀ x y s' t', out x y → rel' s' t' → Like out' rel left (f x s') (g y t')) :
    Like out' rel left ((a >>= f) s) ((b >>= g) t) := by
  generalize hx : a s = x at h
  generalize hy : b t = y at h
  cases h with
  | ok alike related =>
      rw [Act.bind_ok hx, Act.bind_ok hy]
      exact next _ _ _ _ alike related
  | error halted =>
      rw [Act.bind_error hx, Act.bind_error hy]
      exact .error halted

end Like

namespace Mirrors

theorem bind {a : Act σ β} {b : Act τ γ} {f : β → Act σ β'} {g : γ → Act τ γ'}
    (h : Mirrors out rel left a b)
    (next : ∀ x y, out x y → Mirrors out' rel left (f x) (g y)) :
    Mirrors out' rel left (a >>= f) (b >>= g) :=
  fun s t related => (h s t related).bind fun x y s' t' alike => next x y alike s' t'

theorem map {a : Act σ β} {b : Act τ γ} {f : β → β'} {g : γ → γ'} (h : Mirrors out rel left a b)
    (alike : ∀ x y, out x y → out' (f x) (g y)) :
    Mirrors out' rel left (f <$> a) (b >>= fun y => Pure.pure (g y)) := by
  rw [← bind_pure_comp]
  exact h.bind fun x y same _ _ related => .ok (alike x y same) related

theorem pure {b : β} {c : γ} (alike : out b c) :
    Mirrors out rel left (pure b : Act σ β) (pure c) :=
  fun _ _ related => .ok alike related

theorem throw {e : Halt} (halts : ∀ s t, rel s t → left e s t) :
    Mirrors out rel left (throw e : Act σ β) (throw e) :=
  fun s t related => .error (halts s t related)

/-- A panic is stopped on both sides, if all is still related then. -/
theorem attempt {a : Act σ β} {b : Act τ β} (h : Mirrors Eq rel left a b)
    (panics : ∀ s t, left .panicked s t → rel s t) :
    Mirrors Eq rel (fun e s t => e ≠ .panicked ∧ left e s t) (Act.attempt a) (Act.attempt b) := by
  intro s t related
  have like := h s t related
  unfold Act.attempt
  generalize a s = x at like ⊢
  generalize b t = y at like ⊢
  cases like with
  | ok alike related' =>
      subst alike
      exact .ok rfl related'
  | @error e _ _ halted =>
      cases e with
      | panicked => exact .ok rfl (panics _ _ halted)
      | spinning | misused | unfinished | stopped => exact .error ⟨by decide, halted⟩

/-- Mirroring, with the same answers, is kept where calls are put together. -/
def coupling (rel : σ → τ → Prop) (left : Halt → σ → τ → Prop)
    (halts : ∀ s t, rel s t → left .unfinished s t) : Coupling σ τ where
  holds := Mirrors Eq rel left
  pure _ := pure rfl
  bind first next := first.bind fun x _ same => same ▸ next x
  unfinished := throw halts

/-- The same channel, beside related memories. -/
def SameQueue (env : E → F → Prop) (v : World Q E) (w : World Q F) : Prop :=
  v.queue = w.queue ∧ env v.env w.env

theorem onQueue {env : E → F → Prop} {left : Halt → World Q E → World Q F → Prop}
    (halts : ∀ e v w, SameQueue env v w → left e v w) (act : Act Q β) :
    Mirrors Eq (SameQueue env) left (Act.onQueue act) (Act.onQueue act) := by
  rintro ⟨q, e⟩ ⟨_, f⟩ ⟨rfl, related⟩
  cases ran : act q with
  | ok b q' =>
      rw [Act.onQueue_ok (w := ⟨q, e⟩) ran, Act.onQueue_ok (w := ⟨q, f⟩) ran]
      exact .ok rfl ⟨rfl, related⟩
  | error h q' =>
      rw [Act.onQueue_error (w := ⟨q, e⟩) ran, Act.onQueue_error (w := ⟨q, f⟩) ran]
      exact .error (halts h _ _ ⟨rfl, related⟩)

end Mirrors
end Handoff
