import Handoff.Proofs.Sessions

/-! A scenario does what its client does, in callbacks too. What is proved of every client
is so true of scenarios, in which handles may be dropped at any depth: the channel is
closed when the last of them goes, and no other drop changes it. -/
namespace Handoff.Scenario

variable {Q α β γ : Type} [Channel Q α] {sound : Q → Prop} {shared : Bool} {used : List Handle}
  {frames : List (Frame α)} {v : World Q (Session α)} {w : World Q (Memory α)}

/-- In a callback of a batch step on `handle`, the counts of which are the innermost. -/
def Inside (sound : Q → Prop) (handle : Handle) (used : List Handle) (frames : List (Frame α))
    (v : World Q (Session α × Frame α)) (w : World Q (Memory α)) : Prop :=
  Level sound (handle :: used) (v.env.2.plain :: frames) ⟨v.queue, v.env.1⟩ w

/-- What is left of that where both have halted. -/
def LeftInside (sound : Q → Prop) (handle : Handle) (used : List Handle) (frames : List (Frame α))
    (e : Halt) (v : World Q (Session α × Frame α)) (w : World Q (Memory α)) : Prop :=
  (e = .panicked → Inside sound handle used frames v w) ∧ Linked v.env.1 v.queue w.queue

/-- A part of a callback and its plan. -/
abbrev Answers (sound : Q → Prop) (handle : Handle) (used : List Handle) (frames : List (Frame α))
    (out : β → γ → Prop) (act : Inner Q α β)
    (plan : PlanFor Q (handle :: used) γ) : Prop :=
  Mirrors out (Inside sound handle used frames) (LeftInside sound handle used frames) act plan.run

section Callbacks

variable {handle : Handle}

theorem Inside.opened {v : World Q (Session α × Frame α)}
    (h : Inside sound handle used frames v w) : v.env.1.isOpen = true :=
  Session.isOpen_of_alive (h.alive handle (List.mem_cons_self ..))

theorem Inside.left {v : World Q (Session α × Frame α)} (h : Inside sound handle used frames v w)
    (e : Halt) : LeftInside sound handle used frames e v w :=
  ⟨fun _ => h, h.linked⟩

theorem inside_frame {f : Frame α → β} (same : ∀ frame, f frame.plain = f frame) :
    Answers sound handle used frames Eq (Inner.frame f) (Plan.frame f) := by
  rintro ⟨q, s, frame⟩ ⟨q', m⟩ inside
  obtain rfl := inside.memory
  exact .ok (same frame).symm inside

theorem inside_count {f g : Frame α → Frame α} (same : ∀ frame, g frame.plain = (f frame).plain) :
    Answers sound handle used frames Eq (Inner.update f) (Plan.count g) := by
  rintro ⟨q, s, frame⟩ ⟨q', m⟩ inside
  obtain rfl := inside.memory
  refine .ok rfl ?_
  exact { inside with memory := congrArg (fun f => Memory.mk s.plain (f :: frames)) (same frame) }

/-- Steps in a callback, from those of the enclosing scenario. -/
theorem inside_outward {act : Run Q α β}
    {plan : PlanFor Q (handle :: used) γ}
    {out : β → γ → Prop}
    (h : ∀ frames, Mirrors out (Level sound (handle :: used) frames)
      (Left sound (handle :: used) frames) act plan.run) :
    Answers sound handle used frames out (Act.outward act) plan := by
  rintro ⟨q, s, frame⟩ w inside
  have like := h (frame.plain :: frames) ⟨q, s⟩ w inside
  generalize hx : act ⟨q, s⟩ = x at like
  generalize plan.run w = y at like ⊢
  cases like with
  | ok alike related =>
      rw [Act.outward_ok hx]
      exact .ok alike related
  | error halted =>
      rw [Act.outward_error hx]
      exact .error halted

theorem inside_fresh (value : Nat → α) :
    Answers sound handle used frames Eq (Act.outward (Run.fresh value)) (Plan.fresh value) := by
  refine inside_outward fun frames v w level => ?_
  have ready : Ready sound (handle :: used) frames v w :=
    ⟨level, Session.isOpen_of_alive (level.alive handle (List.mem_cons_self ..))⟩
  exact (ready_fresh value v w ready).imp (fun _ _ h => h) (fun _ _ h => h.1) (fun _ _ _ h => h)

variable {hooks : Hooks Q α}
  {hooks' : Moment → Nat → PlanFor Q (handle :: used) Unit}
  (same : ∀ moment call, Answers sound handle used frames Eq (hooks moment call)
    (hooks' moment call))

include same

theorem inside_enter (moment : Moment) :
    Answers sound handle used frames Eq (Inner.enter hooks moment) (Plan.enter hooks' moment) := by
  refine Mirrors.bind (inside_frame fun frame => ?_) ?_
  · cases moment <;> rfl
  · rintro call _ rfl
    refine Mirrors.bind (inside_count fun frame => ?_) ?_
    · cases moment <;> rfl
    · rintro _ _ rfl
      exact same moment call

theorem inside_supply (value : Nat → α) :
    Answers sound handle used frames Eq (Inner.supply value hooks) (Plan.supply hooks' value) := by
  refine Mirrors.bind (inside_enter same .supply) ?_
  rintro _ _ rfl
  refine Mirrors.bind (inside_fresh value) ?_
  rintro v _ rfl
  refine Mirrors.bind (inside_count fun frame => rfl) ?_
  rintro _ _ rfl
  exact .pure rfl

theorem inside_consume (v : α) :
    Answers sound handle used frames Eq (Inner.consume hooks v) (Plan.consume hooks' v) := by
  refine Mirrors.bind (inside_count fun frame => rfl) ?_
  rintro _ _ rfl
  exact inside_enter same .consume

theorem inside_wait (counter : UInt64) :
    Answers sound handle used frames Eq (Inner.wait hooks counter)
      (Plan.wait hooks' counter) := by
  refine Mirrors.bind (inside_enter same .wait) ?_
  rintro _ _ rfl
  refine Mirrors.bind (inside_frame fun frame => rfl) ?_
  rintro ⟨answer, strategy⟩ _ rfl
  refine Mirrors.bind (inside_count fun frame => rfl) ?_
  rintro _ _ rfl
  exact .pure rfl

theorem inside_keepRunning (rule : ExitRule) :
    Answers sound handle used frames Eq (Inner.keepRunning rule hooks)
      (Plan.keepRunning hooks' rule) := by
  refine Mirrors.bind (inside_frame fun frame => rfl) ?_
  rintro poll _ rfl
  refine Mirrors.bind (inside_enter same .exit) ?_
  rintro _ _ rfl
  exact inside_frame fun frame => rfl

omit same in
/-- Batch calls mirror each other if their callbacks do. -/
theorem inside_onQueue {β : Type} (act : Act Q β) :
    Mirrors Eq (Inside sound handle used frames) (LeftInside sound handle used frames)
      (Act.onQueue act) (Act.onQueue act) := by
  intro v w inside
  let env : Session α × Frame α → Memory α → Prop :=
    fun e m => ∃ q, Inside sound handle used frames ⟨q, e⟩ ⟨q, m⟩
  have next : ∀ v w, Mirrors.SameQueue env v w → Inside sound handle used frames v w := by
    rintro ⟨q, e⟩ ⟨q', m⟩ ⟨rfl, q₀, inside⟩
    exact { inside with
      linked := Linked.of_open inside.opened q
      settled := nofun }
  have related : Mirrors.SameQueue env v w := by
    obtain ⟨⟨q, e⟩, ⟨q', m⟩⟩ := v, w
    obtain rfl : q = q' := inside.linked.here inside.opened
    exact ⟨rfl, q, inside⟩
  have halts : ∀ e v w, Mirrors.SameQueue env v w → LeftInside sound handle used frames e v w :=
    fun e v w same => (next v w same).left e
  exact (Mirrors.onQueue halts act v w related).imp (fun _ _ h => h) next (fun _ _ _ h => h)

end Callbacks

theorem inside_batch (parametric : Parametric Q) (value : Nat → α) {b : Batch}
    {hooks : Hooks Q α}
    {hooks' : Moment → Nat → PlanFor Q (b.handle :: used) Unit}
    (same : ∀ moment call, Answers sound b.handle used frames Eq (hooks moment call)
      (hooks' moment call))
    (free : (freeSides (Channel.shared Q) used).has b.handle.side = true) :
    Mirrors Eq (Inside sound b.handle used frames) (LeftInside sound b.handle used frames)
      (b.perform value hooks) (Plan.performBatch value b free hooks').run := by
  let C := Mirrors.coupling (Inside (Q := Q) sound b.handle used frames)
    (LeftInside sound b.handle used frames) fun v w inside => inside.left _
  have onQueue : C.OnQueue := fun _ act => inside_onQueue act
  have supply := inside_supply same value
  have consume := inside_consume same
  have wait := inside_wait same
  have keep := inside_keepRunning same
  cases b with
  | fill p limit =>
      exact Mirrors.map (parametric.fill onQueue supply limit) (by rintro n _ rfl; rfl)
  | fillAll p => exact Mirrors.map (parametric.fillAll onQueue supply) (by rintro n _ rfl; rfl)
  | fillWith p strategy rule =>
      refine Mirrors.bind (parametric.fillWith onQueue supply wait (keep rule) rule.allowance) ?_
      exact fun _ _ _ => .pure rfl
  | drain limit =>
      exact Mirrors.map (parametric.drain onQueue consume limit) (by rintro n _ rfl; rfl)
  | drainAll => exact Mirrors.map (parametric.drainAll onQueue consume) (by rintro n _ rfl; rfl)
  | drainWith strategy rule =>
      refine Mirrors.bind (parametric.drainWith onQueue consume wait (keep rule) rule.allowance) ?_
      exact fun _ _ _ => .pure rfl

/-- What a scenario is shown of the channel changes nothing. -/
theorem Level.settle (h : Level sound used frames v w) :
    ∃ after v', Scenario.settle v = .ok after v' ∧ Level sound used frames v' w :=
  ⟨_, _, rfl, { h with linked := ⟨h.linked.here, h.linked.closed⟩ }⟩

theorem shown {act : Run Q α β}
    {plan : PlanFor Q used γ} {out : β → γ → Prop}
    (h : Like out (Level sound used frames) (Left sound used frames) (act v) (plan.run w))
    {f : β → After α → StepReply α} {g : γ → StepReply α}
    (alike : ∀ x y after, out x y → (f x after).plain = g y) :
    Like (fun r r' => r.plain = r') (Level sound used frames) (Left sound used frames)
      ((act >>= fun x => Scenario.settle >>= fun after => pure (f x after)) v)
      ((Client.bind plan fun y => .done (g y)).run w) := by
  refine h.bind fun x y v' w' same level => ?_
  obtain ⟨after, v'', shown, level'⟩ := level.settle
  rw [Act.bind_ok shown]
  exact .ok (alike x y after same) level'

theorem enacts_finish (regular : Regular Q sound) {b : Batch} (brief join : Bool)
    (joins : join = true → freeSides (Channel.shared Q) used = .both)
    (threads : List (List (ThreadCall α))) (ending : Ending (Option Nat)) {q q' : Q}
    {s : Session α} {f : Frame α} {m : Memory α}
    (inside : Inside sound b.handle used frames ⟨q, (s, f)⟩ ⟨q', m⟩)
    (settled : used = [] → sound q') :
    Like (fun r r' => r.plain = r') (Level sound used frames) (Left sound used frames)
      (finishBatch b brief join used threads ending f ⟨q, s⟩)
      ((Plan.finishBatch b brief join used threads ending f.plain :
        PlanFor Q used _).run
        ⟨q', ⟨s.plain, frames⟩⟩) := by
  let s' : Session α :=
    { s with inUse := used, threads := if join then threads else threads ++ s.threads }
  have level : Level sound used frames ⟨q, s'⟩ ⟨q', ⟨s'.plain, frames⟩⟩ :=
    inside.goOn rfl (fun handle mem => inside.alive handle (List.mem_cons_of_mem _ mem))
      inside.single rfl settled
  let plan : PlanFor Q used _ :=
    if join then (if both : freeSides (Channel.shared Q) used = .both
      then Plan.joinThreads both s.threads else .stop) else .done []
  have joined : Like Eq (Level sound used frames) (Left sound used frames)
      (joinThreads (if join then s.threads else []) ⟨q, s'⟩)
      (plan.run ⟨q', ⟨s'.plain, frames⟩⟩) := by
    cases join with
    | false => exact .ok rfl level
    | true =>
        have both := joins rfl
        have like := enacts_joinThreads regular both s.threads ⟨q, s'⟩ ⟨q', ⟨s'.plain, frames⟩⟩
          ⟨level, inside.opened⟩
        have same : plan = Plan.joinThreads both s.threads := dif_pos both
        rw [same]
        exact like.imp (fun _ _ h => h) (fun _ _ h => h.1) (fun _ _ _ h => h)
  refine shown joined fun joined _ after same => ?_
  subst same
  rfl

theorem enacts_batch (regular : Regular Q sound) (value : Nat → α) {b : Batch} (brief join : Bool)
    {hooks : Hooks Q α}
    {hooks' : Moment → Nat → PlanFor Q (b.handle :: used) Unit}
    (same : ∀ moment call, Answers sound b.handle used frames Eq (hooks moment call)
      (hooks' moment call))
    (free : (freeSides (Channel.shared Q) used).has b.handle.side = true)
    (joins : join = true → freeSides (Channel.shared Q) used = .both)
    (level : Level sound used frames v w) (alive : v.env.alive b.handle = true) :
    Like (fun r r' => r.plain = r') (Level sound used frames) (Left sound used frames)
      (runBatch value b brief join hooks v)
      ((Plan.runBatch value b brief join free hooks').run w) := by
  obtain ⟨⟨q, s⟩, ⟨q', m⟩⟩ := v, w
  obtain rfl := level.memory
  obtain rfl : s.inUse = used := level.inUse
  let s₁ : Session α := { s with inUse := b.handle :: s.inUse, threads := [] }
  let m₁ : Memory α := ⟨s₁.plain, .start b.strategy :: frames⟩
  have inside : Inside sound b.handle s.inUse frames ⟨q, (s₁, .start b.strategy)⟩ ⟨q', m₁⟩ :=
    level.goOn rfl (List.forall_mem_cons.mpr ⟨alive, level.alive⟩) level.single rfl nofun
  have ran := Mirrors.attempt (inside_batch regular.parametric value same free)
    (fun _ _ left => left.1 rfl) _ _ inside
  have settled := regular.settled (w := ⟨q', m₁⟩)
    (.attempt (Plan.performBatch value b free hooks')) level.settled
  change s.inUse = [] → sound (channelAfter
    (Act.attempt (Plan.performBatch value b free hooks').run ⟨q', m₁⟩)) at settled
  change Like _ _ _
    ((inFrame (.start b.strategy) (Act.attempt (b.perform value hooks)) >>= fun answer =>
      finishBatch b brief join s.inUse s.threads answer.1 answer.2) ⟨q, s₁⟩)
    ((Act.attempt (Plan.performBatch value b free hooks').run >>= fun ending =>
      Client.run (.bind (.own fun m =>
        (m.frames.headD (.start .busySpin), { m with frames := m.frames.tail }))
        fun frame => Plan.finishBatch b brief join s.inUse s.threads ending frame)) ⟨q', m₁⟩)
  generalize hx : Act.attempt (b.perform value hooks) ⟨q, (s₁, .start b.strategy)⟩ = x at ran
  generalize hy : Act.attempt (Plan.performBatch value b free hooks').run ⟨q', m₁⟩ = y
    at ran settled
  cases ran with
  | @ok ending _ v' w' alike inside' =>
      obtain ⟨⟨q₂, s₂, f⟩, ⟨q₂', m₂⟩⟩ := v', w'
      obtain rfl := inside'.memory
      subst alike
      have framed : inFrame (.start b.strategy) (Act.attempt (b.perform value hooks)) ⟨q, s₁⟩ =
          .ok (ending, f) ⟨q₂, s₂⟩ := by
        rw [inFrame, hx]
      rw [Act.bind_ok framed, Act.bind_ok hy]
      exact enacts_finish regular brief join joins s.threads ending inside' settled
  | @error e v' w' halted =>
      obtain ⟨⟨q₂, s₂, f⟩, ⟨q₂', m₂⟩⟩ := v', w'
      have framed : inFrame (.start b.strategy) (Act.attempt (b.perform value hooks)) ⟨q, s₁⟩ =
          .error e ⟨q₂, s₂⟩ := by
        rw [inFrame, hx]
      rw [Act.bind_error framed, Act.bind_error hy]
      exact .error ⟨fun panicked => absurd panicked halted.1, halted.2.2⟩

theorem plain_of_refused {s : Session α} {handle : Handle} {reply : Reply α}
    (refused : s.refusal? shared handle = some reply) : reply.plain = reply := by
  unfold Session.refusal? at refused
  split at refused
  · cases refused
    rfl
  · split at refused
    · cases refused
      rfl
    · cases refused

/-- A step on a handle. Where the handle cannot be used, both answer why. -/
theorem mirrors_refusal {handle : Handle} {act : Run Q α (StepReply α)}
    {plan : (freeSides (Channel.shared Q) used).has handle.side = true →
      PlanFor Q used (StepReply α)}
    (usable : ∀ v w (level : Level sound used frames v w)
      (usable : v.env.refusal? (Channel.shared Q) handle = none),
      Like (fun r r' => r.plain = r') (Level sound used frames) (Left sound used frames) (act v)
        ((plan (level.free usable)).run w)) :
    Mirrors (fun r r' => r.plain = r') (Level sound used frames) (Left sound used frames)
      (refusal handle >>= fun
        | some reply => settle >>= fun after => pure (.call reply after)
        | none => act)
      (Client.run (.bind (Plan.session (·.refusal? (Channel.shared Q) handle)) fun
        | some reply => .done (.call reply .unseen)
        | none => if free : (freeSides (Channel.shared Q) used).has handle.side = true
            then plan free else .stop)) := by
  intro v w level
  have asked : refusal handle v = .ok (v.env.refusal? (Channel.shared Q) handle) v := rfl
  have asked' : (Plan.session (·.refusal? (Channel.shared Q) handle) :
      PlanFor Q used _).run w =
      .ok (v.env.refusal? (Channel.shared Q) handle) w := by
    obtain ⟨q', m⟩ := w
    obtain rfl := level.memory
    rfl
  rw [Client.run, Act.bind_ok asked, Act.bind_ok asked']
  cases refused : v.env.refusal? (Channel.shared Q) handle with
  | some reply =>
      obtain ⟨after, v', shown, level'⟩ := level.settle
      simp only [Act.bind_ok shown]
      exact .ok (by rw [StepReply.plain, plain_of_refused refused]) level'
  | none =>
      simp only [dif_pos (level.free refused)]
      exact usable v w level refused

theorem times_mirror {act : Run Q α β}
    {plan : PlanFor Q used γ} {f : β → γ}
    (h : Mirrors (fun b c => f b = c) (Level sound used frames) (Left sound used frames) act
      plan.run)
    (n : Nat) :
    Mirrors (fun bs cs => bs.map f = cs) (Level sound used frames) (Left sound used frames)
      (times act n) (Plan.times plan n).run := by
  induction n with
  | zero => exact .pure rfl
  | succ n ih =>
      refine Mirrors.bind h ?_
      rintro b _ rfl
      refine Mirrors.bind ih ?_
      rintro bs _ rfl
      exact .pure rfl

theorem mirrors_session {f : Session α → β} (same : ∀ s, f s.plain = f s) :
    Mirrors Eq (Level sound used frames) (Left sound used frames) (Run.session f)
      (Plan.session f : PlanFor Q used β).run := by
  rintro ⟨q, s⟩ ⟨q', m⟩ level
  obtain rfl := level.memory
  exact .ok (same s).symm level

theorem mirrors_started (calls : List (ThreadCall α)) :
    let start (s : Session α) := { s with threads := s.threads ++ [calls] }
    Mirrors Eq (Level sound used frames) (Left sound used frames) (Run.update start)
      (Plan.update start : PlanFor Q used Unit).run := by
  rintro start ⟨q, s⟩ ⟨q', m⟩ level
  obtain rfl := level.memory
  exact .ok rfl (level.goOn level.inUse level.alive level.single rfl level.settled)

mutual

theorem step_mirrors (regular : Regular Q sound) (value : Nat → α) :
    ∀ (step : Step α) (used : List Handle),
    step.JoinsFree (Channel.shared Q) used → ∀ frames,
      Mirrors (fun r r' => r.plain = r') (Level sound used frames) (Left sound used frames)
        (runStep value step) (Plan.ofStep (Channel.shared Q) value step used).run
  | .call c, used, _, frames => by
      refine mirrors_refusal fun v w level usable => ?_
      have free := level.free usable
      have ready : Ready sound used frames v w := ⟨level, Level.open_of_usable usable⟩
      refine shown (performs regular value c free v w ready) fun reply _ after same => ?_
      rw [StepReply.plain, same]
  | .batch b brief join hooks, used, joins, frames => by
      refine mirrors_refusal fun v w level usable => ?_
      have same := fun moment call =>
        hooks_mirror regular value hooks moment call b.handle used joins.2 frames
      exact enacts_batch regular value brief join same (level.free usable) joins.1 level
        (Session.usable usable).1
  | .repeated n steps, used, joins, frames => by
      intro v w level
      have rounds := times_mirror (steps_mirror regular value steps used joins frames) n v w level
      refine shown rounds fun replies _ after same => ?_
      rw [StepReply.plain, plainRounds_eq, same]
  | .spawn calls, used, _, frames => by
      refine Mirrors.bind (mirrors_session (f := Session.bothSides) fun _ => rfl) ?_
      rintro both _ rfl
      cases both with
      | true =>
          refine Mirrors.bind (mirrors_started calls) fun _ _ _ => ?_
          exact Mirrors.pure (b := StepReply.thread .started) rfl
      | false => exact Mirrors.pure (b := StepReply.thread .gone) rfl
  | .stop, used, _, frames => .throw fun v w level => level.left _

theorem steps_mirror (regular : Regular Q sound) (value : Nat → α) :
    ∀ (steps : List (Step α)) (used : List Handle),
    stepsJoinFree (Channel.shared Q) steps used → ∀ frames,
      Mirrors (fun rs rs' => plainSteps rs = rs') (Level sound used frames) (Left sound used frames)
        (runSteps value steps) (Plan.ofSteps (Channel.shared Q) value steps used).run
  | [], used, _, frames => .pure rfl
  | step :: rest, used, joins, frames => by
      refine Mirrors.bind (step_mirrors regular value step used joins.1 frames) ?_
      rintro reply _ rfl
      refine Mirrors.bind (steps_mirror regular value rest used joins.2 frames) ?_
      rintro replies _ rfl
      exact .pure rfl

theorem hook_mirrors (regular : Regular Q sound) (value : Nat → α) :
    ∀ (hook : Hook α) (moment : Moment) (call : Nat) (handle : Handle)
    (used : List Handle), hook.JoinsFree (Channel.shared Q) (handle :: used) → ∀ frames,
      Answers sound handle used frames Eq (runHook value hook moment call)
        (Plan.ofHook (Channel.shared Q) value hook moment call (handle :: used))
  | .mk on trigger steps panics, moment, call, handle, used, joins, frames => by
      unfold runHook Plan.ofHook
      split
      · have inner := steps_mirror regular value steps (handle :: used) joins
        refine Mirrors.bind (inside_outward inner) ?_
        rintro replies _ rfl
        refine Mirrors.bind (inside_count fun frame => ?_) ?_
        · rw [Frame.plain, Frame.plain, Array.toList_appendList, plainHooks_append, plainHooks_map]
          simp
        · rintro _ _ rfl
          split
          · exact .throw fun _ _ inside => inside.left _
          · exact .pure rfl
      · exact .pure rfl

theorem hooks_mirror (regular : Regular Q sound) (value : Nat → α) :
    ∀ (hooks : List (Hook α)) (moment : Moment) (call : Nat) (handle : Handle)
    (used : List Handle), hooksJoinFree (Channel.shared Q) hooks (handle :: used) → ∀ frames,
      Answers sound handle used frames Eq (runHooks value hooks moment call)
        (Plan.ofHooks (Channel.shared Q) value hooks moment call (handle :: used))
  | [], moment, call, handle, used, _, frames => .pure rfl
  | hook :: rest, moment, call, handle, used, joins, frames => by
      have first := hook_mirrors regular value hook moment call handle used joins.1 frames
      refine Mirrors.bind first ?_
      exact fun _ _ _ => hooks_mirror regular value rest moment call handle used joins.2 frames

end

/-- A drop on which a handle is left changes nothing in the channel, whatever uses it. -/
theorem drop_midway (value : Nat → α) {q : Q} {s : Session α} {handle : Handle}
    (left : (s.forget handle).isOpen = true) :
    ∃ reply s', perform value (.drop handle) ⟨q, s⟩ = .ok reply ⟨q, s'⟩ ∧ s'.isOpen = true := by
  have asked : (Run.session (·.inUse.contains handle) : Run Q α Bool) ⟨q, s⟩ =
      .ok (s.inUse.contains handle) ⟨q, s⟩ := rfl
  rw [perform, Act.bind_ok asked]
  cases s.inUse.contains handle with
  | true => exact ⟨.busy, s, rfl, Session.isOpen_of_forget left⟩
  | false => exact ⟨.dropped, _, Act.bind_ok (dropHandle_open left) _, left⟩

theorem level_start {q : Q} (start : sound q) :
    Level sound [] [] ⟨q, Session.start⟩ ⟨q, Memory.start⟩ where
  memory := rfl
  inUse := rfl
  alive := nofun
  single _ := Nat.le_refl 1
  linked := Linked.of_open rfl q
  settled _ := start

/-- A scenario that comes to its end answers as its client does, and leaves the channel as
the client does, but closed. One that halts does so where its client does. -/
theorem runAll_mirrors (regular : Regular Q sound) (value : Nat → α) {q : Q} (start : sound q)
    {steps : List (Step α)} (joins : stepsJoinFree (Channel.shared Q) steps []) :
    Like (fun transcript replies => plainSteps transcript.steps = replies)
      (fun v w => Channel.close w.queue = .ok () v.queue)
      (fun _ v w => Linked v.env v.queue w.queue)
      (runAll value steps ⟨q, Session.start⟩)
      ((Plan.ofSteps (Channel.shared Q) value steps []).run ⟨q, Memory.start⟩) := by
  obtain ⟨opening, v, shown, level⟩ := (level_start start).settle
  have like := steps_mirror regular value steps [] joins [] v ⟨q, Memory.start⟩ level
  replace like := like.imp (fun _ _ same => same) (fun _ _ level => level)
    (fun _ _ _ left => left.2)
  rw [runAll, Act.bind_ok shown, ← bind_pure (Client.run _)]
  refine like.bind fun replies _ v w same level => ?_
  have asked : Run.session Session.isOpen v = .ok v.env.isOpen v := rfl
  rw [Act.bind_ok asked]
  cases opened : v.env.isOpen with
  | true =>
      obtain ⟨q', closed⟩ := regular.closes (level.settled rfl)
      have ran : Act.onQueue (Channel.close (Q := Q)) v = .ok () ⟨q', v.env⟩ :=
        Act.onQueue_ok ((level.linked.here opened) ▸ closed)
      simp only [if_true, Act.bind_ok ran]
      exact .ok same closed
  | false => exact .ok same (level.linked.closed opened)

/-- No scenario misuses a slot. -/
theorem run_safe (regular : Regular Q sound) (value : Nat → α) {q : Q} (start : sound q)
    {steps : List (Step α)} (joins : stepsJoinFree (Channel.shared Q) steps []) :
    run value q steps ≠ .error .misused := by
  have like := runAll_mirrors regular value start joins
  have safe : (verdict ((Plan.ofSteps (Channel.shared Q) value steps []).run
      ⟨q, Memory.start⟩)).1 ≠ .error .misused := regular.safe _ _ start
  unfold run
  generalize runAll value steps ⟨q, Session.start⟩ = x at like ⊢
  generalize (Plan.ofSteps (Channel.shared Q) value steps []).run ⟨q, Memory.start⟩ = y
    at like safe
  cases like with
  | ok => nofun
  | @error e v w halted =>
      intro misused
      obtain rfl : e = .misused := Except.error.inj misused
      exact safe rfl

end Handoff.Scenario

namespace Handoff

variable {α : Type}

open Scenario

theorem Chain.regular : Regular (Chain α) fun q => ∃ t, q.Models t where
  parametric := Chain.parametric α
  keeps client w := fun ⟨_, models⟩ => ⟨_, ((tape α).agree models client w.env).2.2.1⟩
  safe client w := fun ⟨_, models⟩ => ((tape α).agree models client w.env).2.1
  closes := fun ⟨_, models⟩ =>
    have ⟨q', closed, _⟩ := Models.close_ok models
    ⟨q', closed⟩

theorem Ring.regular : Regular (Ring α) fun q => ∃ f, q.Models f where
  parametric := Ring.parametric α
  keeps client w := fun ⟨_, models⟩ => ⟨_, ((fifo α).agree models client w.env).2.2.1⟩
  safe client w := fun ⟨_, models⟩ => ((fifo α).agree models client w.env).2.1
  closes _ := ⟨_, rfl⟩

theorem Chain.scenarios_safe {q : Chain α} (made : q.Made) (value : Nat → α)
    {steps : List (Step α)} (joins : stepsJoinFree true steps []) :
    run value q steps ≠ .error .misused :=
  run_safe Chain.regular value ⟨_, made.models⟩ joins

theorem Ring.scenarios_safe {requested maxStep : Nat} {q : Ring α}
    (planned : withSettings requested maxStep = .ok q) (value : Nat → α) {steps : List (Step α)}
    (joins : stepsJoinFree false steps []) : run value q steps ≠ .error .misused := by
  obtain ⟨size, plan, rfl⟩ := exists_size planned
  exact run_safe Ring.regular value ⟨_, ofSize_models (RingSize.plan_fits plan)⟩ joins

end Handoff
