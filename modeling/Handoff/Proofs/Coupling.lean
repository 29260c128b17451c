import Handoff.Channel

/-! Two calls side by side. Whatever is said of pairs of calls, if it holds of calls that
answer at once and of calls made one after the other, then it holds of loops of such calls,
and of batch calls if it holds of what they do to the queue. -/
namespace Handoff

variable {σ τ α Q E F : Type}

/-- A way to pair calls that is kept where calls are put together. -/
structure Coupling (σ τ : Type) where
  holds : ∀ {β : Type}, Act σ β → Act τ β → Prop
  pure : ∀ {β : Type} (b : β), holds (pure b) (pure b)
  bind : ∀ {β γ : Type} {a : Act σ γ} {b : Act τ γ} {f : γ → Act σ β} {g : γ → Act τ β},
    holds a b → (∀ x, holds (f x) (g x)) → holds (a >>= f) (b >>= g)
  unfinished : holds (throw .unfinished : Act σ Unit) (throw .unfinished)

namespace Coupling

/-- What is said of single calls, as a coupling of each with itself. -/
def diagonal (P : ∀ {β : Type}, Act σ β → Prop) (pure : ∀ {β : Type} (b : β), P (Pure.pure b))
    (bind : ∀ {β γ : Type} {a : Act σ γ} {f : γ → Act σ β}, P a → (∀ x, P (f x)) → P (a >>= f))
    (unfinished : P (throw .unfinished : Act σ Unit)) : Coupling σ σ where
  holds a b := a = b ∧ P a
  pure b := ⟨rfl, pure b⟩
  bind := by
    rintro β γ a b f g ⟨rfl, first⟩ next
    exact ⟨congrArg (a >>= ·) (funext fun x => (next x).1), bind first fun x => (next x).2⟩
  unfinished := ⟨rfl, unfinished⟩

variable (C : Coupling σ τ) {wait : UInt64 → Act σ UInt64} {wait' : UInt64 → Act τ UInt64}
  {keep : Act σ Bool} {keep' : Act τ Bool}

theorem fillRounds {a : Act σ Nat} {b : Act τ Nat} (h : C.holds a b)
    (capacity rounds total : Nat) :
    C.holds (Loop.fillRounds a capacity rounds total)
      (Loop.fillRounds b capacity rounds total) := by
  induction rounds generalizing total with
  | zero => exact C.pure total
  | succ rounds ih =>
      refine C.bind h fun filled => ?_
      split
      · exact C.pure total
      · split
        · exact C.pure (total + filled)
        · exact ih (total + filled)

theorem fillPhases {a : Act σ Nat} {b : Act τ Nat} (h : C.holds a b)
    (hw : ∀ counter, C.holds (wait counter) (wait' counter)) (hk : C.holds keep keep')
    (polls : Nat) (phase : Loop.Phase) :
    C.holds (Loop.fillPhases a wait keep polls phase)
      (Loop.fillPhases b wait' keep' polls phase) := by
  induction polls generalizing phase with
  | zero => exact C.unfinished
  | succ polls ih =>
      have filling : C.holds
          (a >>= fun filled => if filled = 0 then Loop.fillPhases a wait keep polls (.idling 0)
            else Loop.fillPhases a wait keep polls .filling)
          (b >>= fun filled => if filled = 0 then Loop.fillPhases b wait' keep' polls (.idling 0)
            else Loop.fillPhases b wait' keep' polls .filling) := by
        refine C.bind h fun filled => ?_
        split
        · exact ih _
        · exact ih _
      refine C.bind hk fun goesOn => ?_
      cases phase with
      | opening =>
          cases goesOn with
          | false => exact C.pure ()
          | true => exact filling
      | filling =>
          cases goesOn with
          | false => exact ih _
          | true => exact filling
      | idling counter =>
          cases goesOn with
          | false => exact ih _
          | true =>
              refine C.bind h fun filled => ?_
              split
              · exact C.bind (hw counter) fun counter => ih _
              · exact ih _

variable {a : Act σ (Option α)} {b : Act τ (Option α)} {consume : α → Act σ Unit}
  {consume' : α → Act τ Unit}

theorem drainFrom (h : C.holds a b) (hc : ∀ v, C.holds (consume v) (consume' v))
    (done left : Nat) :
    C.holds (Loop.drainFrom a consume done left) (Loop.drainFrom b consume' done left) := by
  induction left generalizing done with
  | zero => exact C.pure done
  | succ left ih =>
      refine C.bind h fun found => ?_
      cases found with
      | none => exact C.pure done
      | some v => exact C.bind (hc v) fun _ => ih (done + 1)

theorem drainLoop (h : C.holds a b) (hc : ∀ v, C.holds (consume v) (consume' v))
    (hw : ∀ counter, C.holds (wait counter) (wait' counter)) (hk : C.holds keep keep')
    (polls : Nat) (counter : UInt64) :
    C.holds (Loop.drainLoop a consume wait keep polls counter)
      (Loop.drainLoop b consume' wait' keep' polls counter) := by
  induction polls generalizing counter with
  | zero => exact C.unfinished
  | succ polls ih =>
      refine C.bind hk fun goesOn => ?_
      cases goesOn with
      | false => exact C.pure ()
      | true =>
          refine C.bind h fun found => ?_
          cases found with
          | none => exact C.bind (hw counter) fun counter => ih counter
          | some v => exact C.bind (hc v) fun _ => ih 0

end Coupling

/-- A coupling on one channel that holds of every call without callbacks. -/
def Coupling.OnQueue (C : Coupling (World Q E) (World Q F)) : Prop :=
  ∀ ⦃β : Type⦄ (act : Act Q β), C.holds (Act.onQueue act) (Act.onQueue act)

/-- Batch calls do nothing with their callbacks but to call them. -/
structure Parametric (Q : Type) {α : Type} [Channel Q α] : Prop where
  fill : ∀ {E F : Type} {C : Coupling (World Q E) (World Q F)}, C.OnQueue →
    ∀ {supply : Act (World Q E) α} {supply' : Act (World Q F) α}, C.holds supply supply' →
      ∀ limit, C.holds (Channel.fill supply limit) (Channel.fill supply' limit)
  fillAll : ∀ {E F : Type} {C : Coupling (World Q E) (World Q F)}, C.OnQueue →
    ∀ {supply : Act (World Q E) α} {supply' : Act (World Q F) α}, C.holds supply supply' →
      C.holds (Channel.fillAll supply) (Channel.fillAll supply')
  fillWith : ∀ {E F : Type} {C : Coupling (World Q E) (World Q F)}, C.OnQueue →
    ∀ {supply : Act (World Q E) α} {supply' : Act (World Q F) α}
      {wait : UInt64 → Act (World Q E) UInt64} {wait' : UInt64 → Act (World Q F) UInt64}
      {keep : Act (World Q E) Bool} {keep' : Act (World Q F) Bool}, C.holds supply supply' →
      (∀ counter, C.holds (wait counter) (wait' counter)) → C.holds keep keep' →
      ∀ polls, C.holds (Channel.fillWith supply wait keep polls)
        (Channel.fillWith supply' wait' keep' polls)
  drain : ∀ {E F : Type} {C : Coupling (World Q E) (World Q F)}, C.OnQueue →
    ∀ {consume : α → Act (World Q E) Unit} {consume' : α → Act (World Q F) Unit},
      (∀ v, C.holds (consume v) (consume' v)) →
      ∀ limit, C.holds (Channel.drain consume limit) (Channel.drain consume' limit)
  drainAll : ∀ {E F : Type} {C : Coupling (World Q E) (World Q F)}, C.OnQueue →
    ∀ {consume : α → Act (World Q E) Unit} {consume' : α → Act (World Q F) Unit},
      (∀ v, C.holds (consume v) (consume' v)) →
      C.holds (Channel.drainAll consume) (Channel.drainAll consume')
  drainWith : ∀ {E F : Type} {C : Coupling (World Q E) (World Q F)}, C.OnQueue →
    ∀ {consume : α → Act (World Q E) Unit} {consume' : α → Act (World Q F) Unit}
      {wait : UInt64 → Act (World Q E) UInt64} {wait' : UInt64 → Act (World Q F) UInt64}
      {keep : Act (World Q E) Bool} {keep' : Act (World Q F) Bool},
      (∀ v, C.holds (consume v) (consume' v)) →
      (∀ counter, C.holds (wait counter) (wait' counter)) → C.holds keep keep' →
      ∀ polls, C.holds (Channel.drainWith consume wait keep polls)
        (Channel.drainWith consume' wait' keep' polls)

namespace Chain

/-- The coupling holds of what a batch does to a chain. -/
structure Coupled (C : Coupling (World (Chain α) E) (World (Chain α) F)) : Prop where
  claim : ∀ wanted, C.holds (Act.onQueue (claim wanted)) (Act.onQueue (claim wanted))
  put : ∀ cursor index v,
    C.holds (Act.onQueue (put cursor index v)) (Act.onQueue (put cursor index v))
  extend : ∀ site v, C.holds (Act.onQueue (extend site v)) (Act.onQueue (extend site v))

namespace Coupled

variable {C : Coupling (World (Chain α) E) (World (Chain α) F)} (h : Coupled C)
  {supply : Act (World (Chain α) E) α} {supply' : Act (World (Chain α) F) α}

include h

theorem writeRun (hs : C.holds supply supply') (cursor : Cursor) (index count : Nat) :
    C.holds (writeRun supply cursor index count) (writeRun supply' cursor index count) := by
  induction count generalizing index with
  | zero => exact C.pure ()
  | succ count ih =>
      exact C.bind hs fun v => C.bind (h.put cursor index v) fun _ => ih (index + 2)

theorem fill (hs : C.holds supply supply') (wanted : Nat) :
    C.holds (fill supply wanted) (fill supply' wanted) := by
  refine C.bind (h.claim wanted) fun claim => ?_
  cases claim with
  | full => exact C.pure 0
  | run site count =>
      exact C.bind (h.writeRun hs site.cursor site.index count) fun _ => C.pure count
  | link site => exact C.bind hs fun v => C.bind (h.extend site v) fun _ => C.pure 1

end Coupled

theorem coupled {C : Coupling (World (Chain α) E) (World (Chain α) F)} (same : C.OnQueue) :
    Coupled C :=
  ⟨fun _ => same _, fun _ _ _ => same _, fun _ _ => same _⟩

theorem parametric (α : Type) : Parametric (Chain α) where
  fill same _ _ hs limit := (coupled same).fill hs limit
  fillAll {_ _ C} same _ _ hs :=
    C.bind (same (Act.view capacity)) fun capacity =>
      C.fillRounds ((coupled same).fill hs batch) capacity (capacity + 1) 0
  fillWith {_ _ C} same _ _ _ _ _ _ hs hw hk polls :=
    C.fillPhases ((coupled same).fill hs batch) hw hk polls .opening
  drain {_ _ C} same _ _ hc limit := C.drainFrom (same relaxedPoll) hc 0 limit
  drainAll {_ _ C} same _ _ hc :=
    C.bind (same (Act.view capacity)) fun capacity => C.drainFrom (same relaxedPoll) hc 0 capacity
  drainWith {_ _ C} same _ _ _ _ _ _ hc hw hk polls :=
    C.drainLoop (same relaxedPoll) hc hw hk polls 0

end Chain

namespace Ring

/-- The coupling holds of what batch calls do to a ring. -/
structure Coupled (C : Coupling (World (Ring α) E) (World (Ring α) F)) : Prop where
  view : ∀ {β : Type} (f : Ring α → β),
    C.holds (Act.onQueue (Act.view f)) (Act.onQueue (Act.view f))
  publish : ∀ index v, C.holds (Act.onQueue (publish index v)) (Act.onQueue (publish index v))
  poll : ∀ index, C.holds (Act.onQueue (pollAt index)) (Act.onQueue (pollAt index))

namespace Coupled

variable {C : Coupling (World (Ring α) E) (World (Ring α) F)} (h : Coupled C)
  {supply : Act (World (Ring α) E) α} {supply' : Act (World (Ring α) F) α}
  {wait : UInt64 → Act (World (Ring α) E) UInt64} {wait' : UInt64 → Act (World (Ring α) F) UInt64}
  {keep : Act (World (Ring α) E) Bool} {keep' : Act (World (Ring α) F) Bool}
  {consume : α → Act (World (Ring α) E) Unit} {consume' : α → Act (World (Ring α) F) Unit}

include h

theorem supplyAt (hs : C.holds supply supply') (index : Nat) :
    C.holds (supplyAt supply index) (supplyAt supply' index) :=
  C.bind hs fun v => h.publish index v

theorem fillFrom (hs : C.holds supply supply') (index free done left : Nat) :
    C.holds (fillFrom supply index free done left) (fillFrom supply' index free done left) := by
  induction left generalizing index free done with
  | zero => cases free <;> exact C.pure done
  | succ left ih =>
      have one : ∀ free, C.holds
          (Ring.supplyAt supply index >>= fun _ =>
            Ring.fillFrom supply (index + 1) free (done + 1) left)
          (Ring.supplyAt supply' index >>= fun _ =>
            Ring.fillFrom supply' (index + 1) free (done + 1) left) :=
        fun free => C.bind (h.supplyAt hs index) fun _ => ih (index + 1) free (done + 1)
      cases free with
      | succ free => exact one free
      | zero =>
          refine C.bind (h.view _) fun ahead => ?_
          cases ahead with
          | true => exact C.bind (h.view _) fun lookAhead => one (lookAhead - 1)
          | false =>
              refine C.bind (h.view _) fun vacant => ?_
              cases vacant with
              | true => exact one 0
              | false => exact C.pure done

theorem fill (hs : C.holds supply supply') (limit : Nat) :
    C.holds (fill supply limit) (fill supply' limit) :=
  C.bind (h.view _) fun index => h.fillFrom hs index 0 0 limit

theorem fillAll (hs : C.holds supply supply') : C.holds (fillAll supply) (fillAll supply') :=
  C.bind (h.view _) fun capacity => h.fill hs capacity

theorem supplyRun (hs : C.holds supply supply') (index count : Nat) :
    C.holds (supplyRun supply index count) (supplyRun supply' index count) := by
  induction count generalizing index with
  | zero => exact C.pure ()
  | succ count ih => exact C.bind (h.supplyAt hs index) fun _ => ih (index + 1)

theorem fillLoop (hs : C.holds supply supply')
    (hw : ∀ counter, C.holds (wait counter) (wait' counter)) (hk : C.holds keep keep')
    (polls index : Nat) (counter : UInt64) :
    C.holds (fillLoop supply wait keep polls index counter)
      (fillLoop supply' wait' keep' polls index counter) := by
  induction polls generalizing index counter with
  | zero => exact C.unfinished
  | succ polls ih =>
      refine C.bind hk fun goesOn => ?_
      cases goesOn with
      | false => exact C.pure ()
      | true =>
          refine C.bind (h.view _) fun ahead => ?_
          cases ahead with
          | true =>
              exact C.bind (h.view _) fun lookAhead =>
                C.bind (h.supplyRun hs index lookAhead) fun _ => ih (index + lookAhead) 0
          | false =>
              refine C.bind (h.view _) fun vacant => ?_
              cases vacant with
              | true => exact C.bind (h.supplyAt hs index) fun _ => ih (index + 1) 0
              | false => exact C.bind (hw counter) fun counter => ih index counter

theorem fillWith (hs : C.holds supply supply')
    (hw : ∀ counter, C.holds (wait counter) (wait' counter)) (hk : C.holds keep keep')
    (polls : Nat) :
    C.holds (fillWith supply wait keep polls) (fillWith supply' wait' keep' polls) :=
  C.bind (h.view _) fun index => h.fillLoop hs hw hk polls index 0

theorem drainFrom (hc : ∀ v, C.holds (consume v) (consume' v)) (index done left : Nat) :
    C.holds (drainFrom consume index done left) (drainFrom consume' index done left) := by
  induction left generalizing index done with
  | zero => exact C.pure done
  | succ left ih =>
      refine C.bind (h.poll index) fun found => ?_
      cases found with
      | none => exact C.pure done
      | some v => exact C.bind (hc v) fun _ => ih (index + 1) (done + 1)

theorem drain (hc : ∀ v, C.holds (consume v) (consume' v)) (limit : Nat) :
    C.holds (drain consume limit) (drain consume' limit) :=
  C.bind (h.view _) fun index => h.drainFrom hc index 0 limit

theorem drainAll (hc : ∀ v, C.holds (consume v) (consume' v)) :
    C.holds (drainAll consume) (drainAll consume') :=
  C.bind (h.view _) fun capacity => h.drain hc capacity

theorem drainLoop (hc : ∀ v, C.holds (consume v) (consume' v))
    (hw : ∀ counter, C.holds (wait counter) (wait' counter)) (hk : C.holds keep keep')
    (polls index : Nat) (counter : UInt64) :
    C.holds (drainLoop consume wait keep polls index counter)
      (drainLoop consume' wait' keep' polls index counter) := by
  induction polls generalizing index counter with
  | zero => exact C.unfinished
  | succ polls ih =>
      refine C.bind hk fun goesOn => ?_
      cases goesOn with
      | false => exact C.pure ()
      | true =>
          refine C.bind (h.poll index) fun found => ?_
          cases found with
          | none => exact C.bind (hw counter) fun counter => ih index counter
          | some v => exact C.bind (hc v) fun _ => ih (index + 1) 0

theorem drainWith (hc : ∀ v, C.holds (consume v) (consume' v))
    (hw : ∀ counter, C.holds (wait counter) (wait' counter)) (hk : C.holds keep keep')
    (polls : Nat) :
    C.holds (drainWith consume wait keep polls) (drainWith consume' wait' keep' polls) :=
  C.bind (h.view _) fun index => h.drainLoop hc hw hk polls index 0

end Coupled

theorem coupled {C : Coupling (World (Ring α) E) (World (Ring α) F)} (same : C.OnQueue) :
    Coupled C :=
  ⟨fun _ => same _, fun _ _ => same _, fun _ => same _⟩

theorem parametric (α : Type) : Parametric (Ring α) where
  fill same _ _ hs limit := (coupled same).fill hs limit
  fillAll same _ _ hs := (coupled same).fillAll hs
  fillWith same _ _ _ _ _ _ hs hw hk polls := (coupled same).fillWith hs hw hk polls
  drain same _ _ hc limit := (coupled same).drain hc limit
  drainAll same _ _ hc := (coupled same).drainAll hc
  drainWith same _ _ _ _ _ _ hc hw hk polls := (coupled same).drainWith hc hw hk polls

end Ring
end Handoff
