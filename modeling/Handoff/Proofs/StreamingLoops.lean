import Mathlib.Data.List.Infix
import Handoff.Proofs.Streaming

/-! The logs of the two streaming loops. Between two polls a log is orderly, tells the
counter that the loop holds, and does not end with more refusals than the loop puts up
with. Each poll, with what it leads to, keeps it so. -/
namespace Handoff.Streaming

variable {α β γ σ Q E : Type} {stuck : Q → Prop} {patience row : Nat} {counter : UInt64}
  {log : Log Q}

theorem Orderly.tail {entry : Entry Q} (h : Orderly stuck (entry :: log)) : Orderly stuck log := by
  cases h <;> assumption

theorem Orderly.of_suffix {before : Log Q} (h : Orderly stuck log) (suffix : before <:+ log) :
    Orderly stuck before := by
  obtain ⟨later, rfl⟩ := suffix
  induction later with
  | nil => exact h
  | cons entry later ih => exact ih h.tail

theorem Orderly.after_refusal {entry : Entry Q}
    (h : Orderly stuck (entry :: .polled false :: log)) : ∃ goesOn, entry = .polled goesOn := by
  cases h with
  | polled goesOn h => exact ⟨goesOn, rfl⟩

theorem Orderly.moved (h : Orderly stuck (.attempted :: log)) (count : Nat) :
    Orderly stuck (List.replicate count .moved ++ .attempted :: log) := by
  induction count with
  | zero => exact h
  | succ count ih =>
      cases count with
      | zero => exact .first h
      | succ count => exact .further ih

theorem answers_moved (count : Nat) :
    answers (List.replicate count .moved ++ .attempted :: log) = answers log := by
  induction count with
  | zero => rfl
  | succ count ih => exact ih

theorem answers_nil : (answers ([] : Log Q)).length = 0 := rfl

theorem polls_succ (goesOn : Bool) (polls : Nat) :
    (answers (.polled goesOn :: log)).length + polls = (answers log).length + (polls + 1) :=
  Nat.add_right_comm _ 1 polls

theorem due_moved {count : Nat} (some : 0 < count) (log : Log Q) :
    due (List.replicate count .moved ++ log) = 0 := by
  cases count with
  | zero => exact absurd some (Nat.lt_irrefl 0)
  | succ count => rfl

theorem answers_of_no_refusal (none : .polled false ∉ log) :
    answers log = List.replicate (answers log).length true := by
  refine List.eq_replicate_of_mem fun goesOn mem => ?_
  obtain ⟨entry, mem, found⟩ := List.mem_filterMap.mp mem
  cases entry with
  | polled said =>
      cases said with
      | true => exact (Option.some.inj found).symm
      | false => exact absurd mem none
  | attempted | moved | idle _ _ | resumed _ => cases found

theorem Steady.no_refusal (h : Steady (.attempted :: .polled true :: log)) :
    .polled false ∉ log :=
  h log (List.suffix_cons _ _)

theorem refusals_prefix_cons {count : Nat} :
    refusals (count + 1) <+: .polled false :: log ↔ refusals count <+: log :=
  (List.prefix_cons_inj _)

theorem not_refusals_prefix {entry : Entry Q} (other : entry ≠ .polled false) (count : Nat) :
    ¬ refusals (count + 1) <+: entry :: log :=
  fun h => other (List.cons_prefix_cons.mp h).1.symm

/-- The log is orderly, and there were never `patience` refusals in a row. -/
structure Kept (stuck : Q → Prop) (patience : Nat) (log : Log Q) : Prop where
  orderly : Orderly stuck log
  patient : ¬ refusals patience <:+: log

theorem Kept.push (h : Kept stuck patience log) {entry : Entry Q} (other : entry ≠ .polled false)
    (orderly : Orderly stuck (entry :: log)) : Kept stuck patience (entry :: log) := by
  refine ⟨orderly, fun infix' => ?_⟩
  rcases List.infix_cons_iff.mp infix' with front | inside
  · cases patience with
    | zero => exact h.patient (List.nil_infix)
    | succ patience => exact not_refusals_prefix other patience front
  · exact h.patient inside

theorem Kept.goOn (h : Kept stuck patience log) : Kept stuck patience (.polled true :: log) :=
  h.push (by simp) (.polled true h.orderly)

theorem Kept.moved (h : Kept stuck patience log) (count : Nat) :
    Kept stuck patience (List.replicate count .moved ++ .attempted :: .polled true :: log) := by
  have attempted := h.goOn.push (by simp) (.attempted h.goOn.orderly)
  induction count with
  | zero => exact attempted
  | succ count ih => exact ih.push (by simp) (attempted.orderly.moved (count + 1))

/-- The log between two polls. -/
structure Resting (stuck : Q → Prop) (patience row : Nat) (counter : UInt64) (log : Log Q) : Prop
    extends Kept stuck patience log where
  due : .polled false ∉ log → due log = counter
  row : ¬ refusals (row + 1) <+: log

namespace Resting

theorem start (stuck : Q → Prop) (patience row : Nat) : Resting stuck (patience + 1) row 0 [] where
  orderly := .nil
  patient h := by cases List.infix_nil.mp h
  due _ := rfl
  row h := by cases List.prefix_nil.mp h

theorem refused (h : Resting stuck patience row counter log) (le : row + 1 < patience)
    (counter' : UInt64) : Resting stuck patience (row + 1) counter' (.polled false :: log) where
  orderly := .polled false h.orderly
  patient infix' := by
    rcases List.infix_cons_iff.mp infix' with front | inside
    · obtain ⟨more, rfl⟩ := Nat.exists_eq_add_of_lt le
      refine h.row (List.IsPrefix.trans ?_ (refusals_prefix_cons.mp front))
      exact ⟨refusals more, by simp [refusals]⟩
    · exact h.patient inside
  due none := absurd List.mem_cons_self none
  row := fun front => h.row (refusals_prefix_cons.mp front)

theorem stalled (h : Resting stuck patience row counter log) (row' : Nat) :
    Resting stuck patience row' counter (.attempted :: .polled true :: log) where
  toKept := h.moved 0
  due none := h.due fun mem => none (List.mem_cons_of_mem _ (List.mem_cons_of_mem _ mem))
  row := not_refusals_prefix (by simp) row'

theorem advanced (h : Resting stuck patience row counter log) {count : Nat} (some : 0 < count)
    (row' : Nat) :
    Resting stuck patience row' 0
      (List.replicate count .moved ++ .attempted :: .polled true :: log) where
  toKept := h.moved count
  due _ := due_moved some _
  row := by
    obtain ⟨count, rfl⟩ := Nat.exists_eq_add_one_of_ne_zero (Nat.ne_of_gt some)
    exact not_refusals_prefix (by simp) row'

theorem idle (h : Resting stuck patience row counter log) {queue : Q} (found : stuck queue) :
    Kept stuck patience (.idle queue counter :: .attempted :: .polled true :: log) := by
  have attempted := h.toKept.moved 0
  refine attempted.push (by simp) (.idle attempted.orderly found fun steady => ?_)
  exact (h.due steady.no_refusal).symm

theorem waited (h : Resting stuck patience row counter log) {queue : Q} (found : stuck queue)
    (next : UInt64) (row' : Nat) :
    Resting stuck patience row' next
      (.resumed next :: .idle queue counter :: .attempted :: .polled true :: log) where
  toKept := (h.idle found).push (by simp) (.resumed next (h.idle found).orderly)
  due _ := rfl
  row := not_refusals_prefix (by simp) row'

end Resting

def Keeps (inv : Q → Prop) (mayHalt : Prop) (act : Act (World Q E) β) : Prop :=
  ∀ q env, inv q → Outcome (fun _ w => inv w.queue) (fun _ _ => mayHalt) (act ⟨q, env⟩)

variable {inv : Q → Prop} {mayHalt : Prop}

/-- An attempt that moves `moves b` elements if it answers `b`, with `post` of the queue
that it leaves. -/
def Tries (pre : Q → Prop) (moves : β → Nat) (post : β → Q → Prop) (mayHalt : Prop)
    (attempt : Act (World Q (E × Log Q)) β) : Prop :=
  ∀ q env log, pre q →
    Outcome
      (fun b w => post b w.queue ∧ w.env.2 = List.replicate (moves b) .moved ++ .attempted :: log)
      (fun _ w => mayHalt ∧ ∃ count, w.env.2 = List.replicate count .moved ++ .attempted :: log)
      (attempt ⟨q, (env, log)⟩)

def Adds (before : Nat) (moves : β → Nat) (act : Act (World Q (E × Log Q)) β) : Prop :=
  ∀ q env log, Outcome (fun b w => w.env.2 = List.replicate (moves b) .moved ++ log)
    (fun _ w => ∃ count, w.env.2 = List.replicate count .moved ++ log)
    (act ⟨q, (env, List.replicate before .moved ++ log)⟩)

namespace Adds

variable {before : Nat} {moves : β → Nat}

theorem pure (b : β) : Adds (moves b) moves (pure b : Act (World Q (E × Log Q)) β) :=
  fun _ _ _ => rfl

theorem bind {moves' : γ → Nat} {act : Act (World Q (E × Log Q)) γ}
    {f : γ → Act (World Q (E × Log Q)) β} (h : Adds before moves' act)
    (next : ∀ c, Adds (moves' c) moves (f c)) : Adds before moves (act >>= f) := by
  intro q env log
  refine (h q env log).bind ?_
  rintro c ⟨q', env', _⟩ rfl
  exact next c q' env' log

theorem onQueue (act : Act Q β) :
    Adds before (fun _ => before) (Act.onQueue act : Act (World Q (E × Log Q)) β) := by
  intro q env log
  cases hx : act q with
  | ok b q' =>
      rw [Act.onQueue_ok hx]
      exact rfl
  | error e q' =>
      rw [Act.onQueue_error hx]
      exact ⟨before, rfl⟩

theorem supply (supply : Act (World Q E) α) :
    Adds before (fun _ => before + 1) (watchSupply supply) := by
  intro q env log
  cases hx : supply ⟨q, env⟩ with
  | ok v w =>
      rw [watchSupply, Act.bind_ok (Act.outward_ok hx _)]
      exact rfl
  | error e w =>
      rw [watchSupply, Act.bind_error (Act.outward_error hx _)]
      exact ⟨before, rfl⟩

theorem consume (consume : α → Act (World Q E) Unit) (v : α) :
    Adds before (fun _ => before + 1) (watchConsume consume v) := by
  intro q env log
  let entered : Log Q := .moved :: (List.replicate before .moved ++ log)
  cases hx : consume v ⟨q, env⟩ with
  | ok b w =>
      have ran : watchConsume consume v ⟨q, (env, List.replicate before .moved ++ log)⟩ =
          .ok b ⟨w.queue, (w.env, entered)⟩ := Act.outward_ok hx entered
      rw [ran]
      exact rfl
  | error e w =>
      have ran : watchConsume consume v ⟨q, (env, List.replicate before .moved ++ log)⟩ =
          .error e ⟨w.queue, (w.env, entered)⟩ := Act.outward_error hx entered
      rw [ran]
      exact ⟨before + 1, rfl⟩

end Adds

theorem Watches.tries {act : Act (World Q (E × Log Q)) β} {plain : Act (World Q E) β}
    (h : Watches act plain) {pre : Q → Prop} {moves : β → Nat} {post : β → Q → Prop}
    (adds : Adds 0 moves act)
    (ran : ∀ q env, pre q →
      Outcome (fun b w => post b w.queue) (fun _ _ => mayHalt) (plain ⟨q, env⟩)) :
    Tries pre moves post mayHalt (watchAttempt act) := by
  intro q env log hq
  exact (h.outcome (ran q env hq) (.attempted :: log)).and (adds q env (.attempted :: log))

def drainAttempt (poll : Act σ (Option α)) (consume : α → Act σ Unit) : Act σ (Option Nat) := do
  match ← poll with
  | none => return none
  | some v =>
    consume v
    return some 1

theorem drainAttempt_watches (poll : Act Q (Option α)) (consume : α → Act (World Q E) Unit) :
    Watches (drainAttempt (Act.onQueue poll) (watchConsume consume))
      (drainAttempt (Act.onQueue poll) consume) := by
  refine (Watches.onQueue poll).bind fun found => ?_
  cases found with
  | none => exact .pure none
  | some v => exact (Watches.consume consume v).bind fun _ => .pure (some 1)

theorem drainAttempt_adds (poll : Act Q (Option α)) (consume : α → Act (World Q E) Unit) :
    Adds 0 (·.getD 0) (drainAttempt (Act.onQueue poll) (watchConsume consume)) := by
  refine (Adds.onQueue poll).bind fun found => ?_
  cases found with
  | none => exact .pure none
  | some v => exact (Adds.consume consume v).bind fun _ => .pure (some 1)

theorem drainAttempt_bind (poll : Act σ (Option α)) (consume : α → Act σ Unit)
    (none : Act σ β) (some : Nat → Act σ β) :
    (drainAttempt poll consume >>= fun found => found.elim none some) =
      poll >>= fun found => found.elim none fun v => consume v >>= fun _ => some 1 := by
  rw [drainAttempt, bind_assoc]
  congr 1
  funext found
  cases found with
  | none => rfl
  | some v => simp only [bind_assoc, pure_bind, Option.elim_some]

def Ended (stuck : Q → Prop) (patience : Nat) (log : Log Q) : Prop :=
  Orderly stuck log ∧ ∃ before, log = .polled false :: before ∧ ¬ refusals patience <:+: before

/-- The log of a loop that did not come to its end, and why not: it was halted, or it was
not allowed more polls. -/
def Broken (stuck : Q → Prop) (patience : Nat) (mayHalt : Prop) (polls : Nat) (e : Halt)
    (log : Log Q) : Prop :=
  Kept stuck patience log ∧ (mayHalt ∨ e = .unfinished ∧ (answers log).length = polls)

namespace Resting

variable {polls : Nat} {q : Q}

theorem ended (h : Resting stuck patience row counter log) :
    Ended stuck patience (.polled false :: log) :=
  ⟨.polled false h.orderly, log, rfl, h.patient⟩

theorem exit (h : Resting stuck patience row counter log) {keepRunning : Act (World Q E) Bool}
    (exits : Keeps inv mayHalt keepRunning) (hq : inv q) (env : E) :
    Outcome (fun goesOn w => inv w.queue ∧ w.env.2 = .polled goesOn :: log)
      (fun e w => Broken stuck patience mayHalt polls e w.env.2)
      (watchExit keepRunning ⟨q, (env, log)⟩) := by
  have ran := exits q env hq
  cases hx : keepRunning ⟨q, env⟩ with
  | ok goesOn w =>
      rw [hx] at ran
      rw [watchExit, Act.bind_ok (Act.outward_ok hx log)]
      exact ⟨ran, rfl⟩
  | error e w =>
      rw [hx] at ran
      rw [watchExit, Act.bind_error (Act.outward_error hx log)]
      exact ⟨h.toKept, .inl ran⟩

theorem tried (h : Resting stuck patience row counter log) {pre : Q → Prop} {moves : β → Nat}
    {post : β → Q → Prop} {attempt : Act (World Q (E × Log Q)) β}
    (tries : Tries pre moves post mayHalt attempt) (hq : pre q) (env : E) :
    Outcome
      (fun b w => post b w.queue ∧
        w.env.2 = List.replicate (moves b) .moved ++ .attempted :: .polled true :: log)
      (fun e w => Broken stuck patience mayHalt polls e w.env.2)
      (attempt ⟨q, (env, .polled true :: log)⟩) := by
  have ran := tries q env (.polled true :: log) hq
  cases hx : attempt ⟨q, (env, .polled true :: log)⟩ with
  | ok b w =>
      rw [hx] at ran
      exact ran
  | error e w =>
      rw [hx] at ran
      obtain ⟨may, count, same⟩ := ran
      exact ⟨same ▸ h.moved count, .inl may⟩

theorem wait (h : Resting stuck patience row counter log) (found : stuck q)
    {wait : UInt64 → Act (World Q E) UInt64} (waits : Keeps inv mayHalt (wait counter))
    (hq : inv q) (env : E) :
    Outcome
      (fun next w => inv w.queue ∧
        w.env.2 = .resumed next :: .idle q counter :: .attempted :: .polled true :: log)
      (fun e w => Broken stuck patience mayHalt polls e w.env.2)
      (watchWait wait counter ⟨q, (env, .attempted :: .polled true :: log)⟩) := by
  let entered : Log Q := .idle q counter :: .attempted :: .polled true :: log
  have ran := waits q env hq
  cases hx : wait counter ⟨q, env⟩ with
  | ok next w =>
      rw [hx] at ran
      have resumed : watchWait wait counter ⟨q, (env, .attempted :: .polled true :: log)⟩ =
          .ok next ⟨w.queue, (w.env, .resumed next :: entered)⟩ :=
        Act.bind_ok (Act.outward_ok hx entered) _
      rw [resumed]
      exact ⟨ran, rfl⟩
  | error e w =>
      rw [hx] at ran
      have halted : watchWait wait counter ⟨q, (env, .attempted :: .polled true :: log)⟩ =
          .error e ⟨w.queue, (w.env, entered)⟩ := Act.bind_error (Act.outward_error hx entered) _
      rw [halted]
      exact ⟨h.idle found, .inl ran⟩

end Resting

/-- The loop of three of the four calls, around an attempt that tells how many elements it
moved on from an index. -/
def turns (attempt : Nat → Act σ (Option Nat)) (wait : UInt64 → Act σ UInt64)
    (keepRunning : Act σ Bool) : Nat → Nat → UInt64 → Act σ Unit
  | 0, _, _ => throw .unfinished
  | polls + 1, index, counter => do
    if ← keepRunning then
      match ← attempt index with
      | some count => turns attempt wait keepRunning polls (index + count) 0
      | none =>
        let counter ← wait counter
        turns attempt wait keepRunning polls index counter
    else
      return ()

theorem eq_turns {attempt : Nat → Act σ (Option Nat)} {wait : UInt64 → Act σ UInt64}
    {keepRunning : Act σ Bool} {loop : Nat → Nat → UInt64 → Act σ Unit}
    (zero : ∀ index counter, loop 0 index counter = throw .unfinished)
    (succ : ∀ polls index counter, loop (polls + 1) index counter =
      keepRunning >>= fun goesOn => if goesOn then
          attempt index >>= fun found =>
            found.elim (wait counter >>= loop polls index) fun n => loop polls (index + n) 0
        else pure ())
    (polls : Nat) :
    ∀ index counter, loop polls index counter =
      turns attempt wait keepRunning polls index counter := by
  induction polls with
  | zero => exact zero
  | succ polls ih =>
      intro index counter
      rw [succ, turns]
      congr 1
      funext goesOn
      congr 1
      congr 1
      funext found
      cases found with
      | none => exact congrArg (wait counter >>= ·) (funext (ih index))
      | some n => exact ih (index + n) 0

/-- The consuming loop of a chain, which has no index of its own. -/
theorem drainLoop_eq_turns (poll : Act σ (Option α)) (consume : α → Act σ Unit)
    (wait : UInt64 → Act σ UInt64) (keepRunning : Act σ Bool) :
    ∀ polls index counter, Loop.drainLoop poll consume wait keepRunning polls counter =
      turns (fun _ => drainAttempt poll consume) wait keepRunning polls index counter := by
  refine eq_turns (fun _ _ => rfl) fun polls index counter => ?_
  simp only [Loop.drainLoop, drainAttempt_bind]
  congr 1
  funext goesOn
  congr 1
  congr 1
  funext found
  cases found <;> rfl

theorem turns_watches {attempt : Nat → Act (World Q (E × Log Q)) (Option Nat)}
    {plain : Nat → Act (World Q E) (Option Nat)}
    (h : ∀ index, Watches (attempt index) (plain index))
    (wait : UInt64 → Act (World Q E) UInt64) (keepRunning : Act (World Q E) Bool) (polls : Nat) :
    ∀ index counter, Watches
      (turns (fun i => watchAttempt (attempt i)) (watchWait wait) (watchExit keepRunning) polls
        index counter)
      (turns plain wait keepRunning polls index counter) := by
  induction polls with
  | zero => exact fun index counter => .throw .unfinished
  | succ polls ih =>
      intro index counter
      refine (Watches.exit keepRunning).bind fun goesOn => ?_
      cases goesOn with
      | false => exact .pure ()
      | true =>
          refine (h index).attempt.bind fun found => ?_
          cases found with
          | some count => exact ih (index + count) 0
          | none => exact (Watches.wait wait counter).bind fun counter => ih index counter

/-- What an attempt at an index came to: it moved elements, or it found the queue `stuck`. -/
structure Turn (inv : Nat → Q → Prop) (stuck : Q → Prop) (index : Nat) (found : Option Nat)
    (q : Q) : Prop where
  inv : inv (index + found.getD 0) q
  productive : found ≠ some 0
  stuck : found = none → stuck q

theorem turns_outcome {inv : Nat → Q → Prop} {wait : UInt64 → Act (World Q E) UInt64}
    {keepRunning : Act (World Q E) Bool}
    {attempt : Nat → Act (World Q (E × Log Q)) (Option Nat)}
    (tries : ∀ index, Tries (inv index) (·.getD 0) (Turn inv stuck index) mayHalt (attempt index))
    (waits : ∀ index counter, Keeps (inv index) mayHalt (wait counter))
    (exits : ∀ index, Keeps (inv index) mayHalt keepRunning) (polls : Nat) :
    ∀ index counter q env log, inv index q → Resting stuck 1 0 counter log →
      Outcome (fun _ w => Ended stuck 1 w.env.2)
        (fun e w => Broken stuck 1 mayHalt ((answers log).length + polls) e w.env.2)
        (turns attempt (watchWait wait) (watchExit keepRunning) polls index counter
          ⟨q, (env, log)⟩) := by
  -- One poll with its attempt and its idle call takes a resting log to a resting log.
  induction polls with
  | zero => exact fun index counter q env log _ rest => ⟨rest.toKept, .inr ⟨rfl, rfl⟩⟩
  | succ polls ih =>
      intro index counter q env log hq rest
      refine (rest.exit (exits index) hq env).bind ?_
      rintro goesOn ⟨q', env', _⟩ ⟨hq', rfl⟩
      cases goesOn with
      | false => exact rest.ended
      | true =>
          rw [← polls_succ true polls]
          refine (rest.tried (tries index) hq' env').bind ?_
          rintro found ⟨q'', env'', _⟩ ⟨⟨hq'', productive, full⟩, rfl⟩
          cases found with
          | some count =>
              have some : 0 < count := Nat.pos_of_ne_zero fun none => productive (none ▸ rfl)
              have next := ih (index + count) 0 q'' env'' _ hq'' (rest.advanced some 0)
              rwa [answers_moved] at next
          | none =>
              refine (rest.wait (full rfl) (waits index counter) hq'' env'').bind ?_
              rintro next ⟨q₃, env₃, _⟩ ⟨hq₃, rfl⟩
              exact ih index next q₃ env₃ _ hq₃ (rest.waited (full rfl) next 0)

/-- How many refusals a filling loop may have met right before its next poll. -/
def refusalsBefore : Loop.Phase → Nat
  | .opening => 2
  | .filling => 0
  | .idling _ => 1

def counterOf : Loop.Phase → UInt64
  | .opening | .filling => 0
  | .idling counter => counter

theorem fillPhases_watches {attempt : Act (World Q (E × Log Q)) Nat} {plain : Act (World Q E) Nat}
    (h : Watches attempt plain) (wait : UInt64 → Act (World Q E) UInt64)
    (keepRunning : Act (World Q E) Bool) (polls : Nat) (phase : Loop.Phase) :
    Watches
      (Loop.fillPhases (watchAttempt attempt) (watchWait wait) (watchExit keepRunning) polls phase)
      (Loop.fillPhases plain wait keepRunning polls phase) :=
  watches_iff.mpr ((Shadows.coupling Q E (Log Q)).fillPhases (watches_iff.mp h.attempt)
    (fun counter => watches_iff.mp (Watches.wait wait counter))
    (watches_iff.mp (Watches.exit keepRunning)) polls phase)

/-- What a batch came to: it moved elements, or it found the queue `stuck`. -/
structure Round (inv : Q → Prop) (stuck : Q → Prop) (filled : Nat) (q : Q) : Prop where
  inv : inv q
  stuck : filled = 0 → stuck q

theorem fillPhases_outcome {wait : UInt64 → Act (World Q E) UInt64}
    {keepRunning : Act (World Q E) Bool} {attempt : Act (World Q (E × Log Q)) Nat}
    (tries : Tries inv id (Round inv stuck) mayHalt attempt)
    (waits : ∀ counter, Keeps inv mayHalt (wait counter)) (exits : Keeps inv mayHalt keepRunning)
    (polls : Nat) :
    ∀ phase q env log, inv q → Resting stuck 3 (refusalsBefore phase) (counterOf phase) log →
      Outcome (fun _ w => Ended stuck 3 w.env.2)
        (fun e w => Broken stuck 3 mayHalt ((answers log).length + polls) e w.env.2)
        (Loop.fillPhases attempt (watchWait wait) (watchExit keepRunning) polls phase
          ⟨q, (env, log)⟩) := by
  induction polls with
  | zero => exact fun phase q env log _ rest => ⟨rest.toKept, .inr ⟨rfl, rfl⟩⟩
  | succ polls ih =>
      intro phase q env log hq rest
      refine (rest.exit exits hq env).bind ?_
      rintro goesOn ⟨q', env', _⟩ ⟨hq', rfl⟩
      cases goesOn with
      | false =>
          rw [← polls_succ false polls]
          cases phase with
          -- The opening poll may have followed two refusals, so it is the last.
          | opening => exact rest.ended
          | filling => exact ih (.idling 0) q' env' _ hq' (rest.refused (by decide) 0)
          | idling counter => exact ih .opening q' env' _ hq' (rest.refused (Nat.lt_add_one 2) 0)
      | true =>
          rw [← polls_succ true polls]
          cases phase with
          | opening | filling =>
              refine (rest.tried tries hq' env').bind ?_
              rintro filled ⟨q'', env'', _⟩ ⟨⟨hq'', full⟩, rfl⟩
              by_cases none : filled = 0
              · subst none
                -- The idle phase starts at zero. That is due: unless a poll has refused, the
                -- loop has not waited since it last moved an element.
                exact ih (.idling 0) q'' env'' _ hq'' (rest.stalled 1)
              · have next := ih .filling q'' env'' _ hq''
                  (rest.advanced (Nat.pos_of_ne_zero none) 0)
                rw [answers_moved] at next
                rwa [if_neg none]
          | idling counter =>
              refine (rest.tried tries hq' env').bind ?_
              rintro filled ⟨q'', env'', _⟩ ⟨⟨hq'', full⟩, rfl⟩
              by_cases none : filled = 0
              · subst none
                refine (rest.wait (full rfl) (waits counter) hq'' env'').bind ?_
                rintro next ⟨q₃, env₃, _⟩ ⟨hq₃, rfl⟩
                exact ih (.idling next) q₃ env₃ _ hq₃ (rest.waited (full rfl) next 1)
              · have next := ih .opening q'' env'' _ hq''
                  (rest.advanced (Nat.pos_of_ne_zero none) 2)
                rw [answers_moved] at next
                rwa [if_neg none]

namespace Call

variable {call : Call Q E} {q : Q} {env : E} {polls : Nat}

/-- What a loop does as a call: it leaves a log as the loop should, and the log changes
nothing. -/
structure Traced (call : Call Q E) (stuck : Q → Prop) (patience : Nat) (mayHalt : Prop)
    (polls : Nat) (q : Q) (env : E) : Prop where
  same : unwatched (call.run q env) = call.plain ⟨q, env⟩
  outcome : Outcome (fun _ w => Ended stuck patience w.env.2)
    (fun e w => Broken stuck patience mayHalt polls e w.env.2) (call.run q env)

namespace Traced

theorem ended (h : call.Traced stuck patience mayHalt polls q env)
    {w : World Q (E × Log Q)} (ran : call.run q env = .ok () w) :
    Ended stuck patience (call.log q env) := by
  have outcome := h.outcome
  rw [ran] at outcome
  rwa [log, ran]

theorem broken (h : call.Traced stuck patience mayHalt polls q env) {e : Halt}
    {w : World Q (E × Log Q)} (ran : call.run q env = .error e w) :
    Broken stuck patience mayHalt polls e (call.log q env) := by
  have outcome := h.outcome
  rw [ran] at outcome
  rwa [log, ran]

theorem orderly (h : call.Traced stuck patience mayHalt polls q env) :
    Orderly stuck (call.log q env) := by
  cases ran : call.run q env with
  | ok _ w => exact (h.ended ran).1
  | error e w => exact (h.broken ran).1.orderly

theorem waitsInTurn (h : call.Traced stuck patience mayHalt polls q env) :
    call.WaitsInTurn q env stuck :=
  ⟨h.same, h.orderly⟩

theorem completes (h : call.Traced stuck patience False polls q env) :
    call.Completes q env polls where
  halted _ _ ran := (h.broken ran).2.resolve_left id

theorem endsOnRefusal (h : call.Traced stuck 1 mayHalt polls q env) :
    call.EndsOnRefusal q env where
  same := h.same
  returned _ ran := by
    obtain ⟨-, before, log, patient⟩ := h.ended ran
    have none : .polled false ∉ before := fun mem =>
      patient ((List.singleton_infix_iff _ _).mpr mem)
    exact ⟨(answers before).length, before, log, answers_of_no_refusal none⟩
  halted _ _ ran mem :=
    (h.broken ran).1.patient ((List.singleton_infix_iff _ _).mpr mem)

theorem endsOnThirdRefusal (h : call.Traced stuck 3 mayHalt polls q env) :
    call.EndsOnThirdRefusal q env where
  same := h.same
  returned _ ran := (h.ended ran).2
  halted _ _ ran := (h.broken ran).1.patient
  polls _ _ suffix := (h.orderly.of_suffix suffix).after_refusal

end Traced
end Call
end Handoff.Streaming
