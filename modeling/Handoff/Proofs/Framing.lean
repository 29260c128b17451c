import Handoff.Proofs.Agreement

/-! Notes beside the memory of callbacks. A call can be given more memory than its
callbacks reach and keep notes there of what they come to. Such notes change nothing,
and related channels lead to the same ones. -/
namespace Handoff

variable {α β γ Q R E F : Type}

namespace Act

theorem outward_ok {act : Act (World Q E) β} {q : Q} {env : E} {b : β} {w : World Q E}
    (h : act ⟨q, env⟩ = .ok b w) (notes : F) :
    outward act ⟨q, (env, notes)⟩ = .ok b ⟨w.queue, (w.env, notes)⟩ := by
  simp only [outward, h]

theorem outward_error {act : Act (World Q E) β} {q : Q} {env : E} {e : Halt} {w : World Q E}
    (h : act ⟨q, env⟩ = .error e w) (notes : F) :
    outward act ⟨q, (env, notes)⟩ = .error e ⟨w.queue, (w.env, notes)⟩ := by
  simp only [outward, h]

def annotate (f : F → F) : Act (World Q (E × F)) Unit :=
  modify fun ⟨queue, (env, notes)⟩ => ⟨queue, (env, f notes)⟩

/-- A call with a list of its answers, which is out of its reach. -/
def listed (act : Act (World Q E) β) : Act (World Q (E × List β)) β := do
  let b ← outward act
  annotate (· ++ [b])
  return b

end Act

theorem Agree.answered {post : β → World Q E → World R F → Prop}
    {left : World Q E → World R F → Prop} {x : EStateM.Result Halt (World Q E) β}
    {y : EStateM.Result Halt (World R F) β} (h : Agree post left x y) {b : β}
    (ran : (verdict y).1 = .ok b) :
    post b ⟨channelAfter x, (verdict x).2⟩ ⟨channelAfter y, (verdict y).2⟩ := by
  cases h with
  | ok h =>
      cases ran
      exact h
  | error _ _ => cases ran

theorem Agree.halted {post : β → World Q E → World R F → Prop}
    {left : World Q E → World R F → Prop} {x : EStateM.Result Halt (World Q E) β}
    {y : EStateM.Result Halt (World R F) β} (h : Agree post left x y) {e : Halt}
    (ran : (verdict y).1 = .error e) :
    e ≠ .misused ∧ left ⟨channelAfter x, (verdict x).2⟩ ⟨channelAfter y, (verdict y).2⟩ := by
  cases h with
  | ok _ => cases ran
  | error sound h =>
      cases ran
      exact ⟨sound, h⟩

theorem Agree.listed {post : α → World Q E → World R F → Prop} {left : World Q E → World R F → Prop}
    {x : EStateM.Result Halt (World Q E) α} {supply : Act (World R F) α} {t : R} {f : F}
    (h : Agree post left x (supply ⟨t, f⟩)) (before : List α) :
    Agree (fun b w v => post b w ⟨v.queue, v.env.1⟩ ∧ v.env.2 = before ++ [b])
      (fun w v => left w ⟨v.queue, v.env.1⟩) x (Act.listed supply ⟨t, (f, before)⟩) := by
  generalize hy : supply ⟨t, f⟩ = y at h
  cases h with
  | ok h =>
      rw [Act.listed, Act.bind_ok (Act.outward_ok hy before)]
      exact .ok ⟨h, rfl⟩
  | error sound h =>
      rw [Act.listed, Act.bind_error (Act.outward_error hy before)]
      exact .error sound h

namespace Tracks

variable {rel : Q → R → Prop} {m : Moves R} {act : Act (World Q E) β} {act' : Act (World R E) β}

theorem outward (h : Follows rel m act act') :
    Follows rel m (Act.outward act : Act (World Q (E × F)) β) (Act.outward act') := by
  rintro ⟨q, env, notes⟩ ⟨t, _⟩ ⟨rfl, related⟩
  have agree := h ⟨q, env⟩ ⟨t, env⟩ ⟨rfl, related⟩
  generalize hx : act ⟨q, env⟩ = x at agree
  generalize hy : act' ⟨t, env⟩ = y at agree
  cases agree with
  | ok lands =>
      exact .of_ok (Act.outward_ok hx notes) (Act.outward_ok hy notes)
        ⟨⟨congrArg (·, notes) lands.1.1, lands.1.2⟩, lands.2⟩
  | error sound lands =>
      exact .of_error (Act.outward_error hx notes) (Act.outward_error hy notes) sound
        ⟨⟨congrArg (·, notes) lands.1.1, lands.1.2⟩, lands.2⟩

theorem annotate (f : F → F) :
    Follows rel m (Act.annotate f : Act (World Q (E × F)) Unit) (Act.annotate f) := by
  rintro ⟨q, env⟩ ⟨t, _⟩ ⟨rfl, related⟩
  exact .of_ok rfl rfl ⟨⟨rfl, related⟩, m.refl t⟩

theorem listed (h : Follows rel m act act') : Follows rel m (Act.listed act) (Act.listed act') :=
  h.outward.bind fun b => (Tracks.annotate _).bind fun _ => .pure b

end Tracks

def unframed : EStateM.Result Halt (World Q (E × F)) β → EStateM.Result Halt (World Q E) β
  | .ok b w => .ok b ⟨w.queue, w.env.1⟩
  | .error e w => .error e ⟨w.queue, w.env.1⟩

/-- The call does what the plain one does, whatever is in the notes. -/
def Shadows (act : Act (World Q (E × F)) β) (plain : Act (World Q E) β) : Prop :=
  ∀ q env notes, unframed (act ⟨q, (env, notes)⟩) = plain ⟨q, env⟩

namespace Shadows

variable {act : Act (World Q (E × F)) β} {plain : Act (World Q E) β}

theorem pure (b : β) : Shadows (pure b : Act (World Q (E × F)) β) (pure b) := fun _ _ _ => rfl

theorem throw (e : Halt) : Shadows (throw e : Act (World Q (E × F)) β) (throw e) :=
  fun _ _ _ => rfl

theorem bind {f : β → Act (World Q (E × F)) γ} {g : β → Act (World Q E) γ}
    (h : Shadows act plain) (next : ∀ b, Shadows (f b) (g b)) :
    Shadows (act >>= f) (plain >>= g) := by
  intro q env notes
  have same := h q env notes
  cases hx : act ⟨q, (env, notes)⟩ with
  | ok b w =>
      rw [hx] at same
      rw [Act.bind_ok hx, Act.bind_ok same.symm]
      exact next b w.queue w.env.1 w.env.2
  | error e w =>
      rw [hx] at same
      rw [Act.bind_error hx, Act.bind_error same.symm]
      rfl

theorem onQueue (act : Act Q β) :
    Shadows (Act.onQueue act : Act (World Q (E × F)) β) (Act.onQueue act) := by
  intro q env notes
  cases hx : act q with
  | ok b q' => rw [Act.onQueue_ok hx, Act.onQueue_ok hx]; rfl
  | error e q' => rw [Act.onQueue_error hx, Act.onQueue_error hx]; rfl

theorem outward (plain : Act (World Q E) β) :
    Shadows (Act.outward plain : Act (World Q (E × F)) β) plain := by
  intro q env notes
  cases hx : plain ⟨q, env⟩ with
  | ok b w => rw [Act.outward_ok hx]; rfl
  | error e w => rw [Act.outward_error hx]; rfl

theorem annotated (h : Shadows act plain) (f : F → F) :
    Shadows (Act.annotate f >>= fun _ => act) plain :=
  fun q env notes => h q env (f notes)

theorem answered (h : Shadows act plain) (f : β → F → F) :
    Shadows (do let b ← act; Act.annotate (f b); return b) plain := by
  have again : Shadows (do let b ← act; Act.annotate (f b); return b) (plain >>= Pure.pure) :=
    h.bind fun b => (Shadows.pure b).annotated (f b)
  rwa [bind_pure] at again

theorem listed (plain : Act (World Q E) β) : Shadows (Act.listed plain) plain :=
  (Shadows.outward plain).answered fun b => (· ++ [b])

theorem attempt (h : Shadows act plain) : Shadows (Act.attempt act) (Act.attempt plain) := by
  intro q env notes
  have same := h q env notes
  unfold Act.attempt
  rw [← same]
  cases act ⟨q, (env, notes)⟩ with
  | ok b w => rfl
  | error e w => cases e <;> rfl

/-- Notes leave no trace where calls are put together. -/
def coupling (Q E F : Type) : Coupling (World Q (E × F)) (World Q E) where
  holds := Shadows
  pure := pure
  bind := bind
  unfinished := throw _

theorem onQueue_coupled (Q E F : Type) : (coupling Q E F).OnQueue := fun _ act => onQueue act

theorem fillRounds {act : Act (World Q (E × F)) Nat} {plain : Act (World Q E) Nat}
    (h : Shadows act plain) (capacity rounds total : Nat) :
    Shadows (Loop.fillRounds act capacity rounds total)
      (Loop.fillRounds plain capacity rounds total) :=
  (coupling Q E F).fillRounds h capacity rounds total

end Shadows
end Handoff
