import Handoff.Proofs.Departures
import Handoff.Proofs.Mirroring
import Handoff.Proofs.Plans

/-! The session of a scenario beside the memory of its client: the steps that run no
callback. As long as a handle is left, the two work on the same channel. -/
namespace Handoff.Scenario

variable {Q α β β' γ γ' : Type} [Channel Q α] {sound : Q → Prop} {shared : Bool}
  {used : List Handle} {frames : List (Frame α)}

namespace Session

variable {s : Session α} {handle other : Handle}

theorem isOpen_of_alive (h : s.alive handle = true) : s.isOpen = true := by
  rw [isOpen, Bool.or_eq_true, List.any_eq_true]
  cases handle with
  | consumer => exact .inl h
  | producer p =>
      rw [alive, List.getD_eq_getElem?_getD] at h
      cases found : s.producers[p]? with
      | none =>
          rw [found] at h
          cases h
      | some here =>
          rw [found] at h
          exact .inr ⟨here, List.mem_of_getElem? found, h⟩

theorem alive_forget (apart : other ≠ handle) (h : s.alive other = true) :
    (s.forget handle).alive other = true := by
  cases handle with
  | consumer =>
      cases other with
      | consumer => exact absurd rfl apart
      | producer p => exact h
  | producer p =>
      cases other with
      | consumer => exact h
      | producer p' =>
          have ne : p ≠ p' := fun same => apart (congrArg Handle.producer same.symm)
          rw [alive, List.getD_eq_getElem?_getD] at h ⊢
          rw [forget, List.getElem?_set_ne ne]
          exact h

theorem alive_append (h : s.alive handle = true) (more : List Bool) :
    ({ s with producers := s.producers ++ more } : Session α).alive handle = true := by
  cases handle with
  | consumer => exact h
  | producer p =>
      rw [alive, List.getD_eq_getElem?_getD] at h ⊢
      cases found : s.producers[p]? with
      | none =>
          rw [found] at h
          cases h
      | some here =>
          rw [found] at h
          have lt := (List.getElem?_eq_some_iff.mp found).1
          simp only [List.getElem?_append_left lt, found]
          exact h

theorem usable (h : s.refusal? shared handle = none) :
    s.alive handle = true ∧ s.held shared handle = false := by
  unfold refusal? at h
  cases alive : s.alive handle with
  | false => simp [alive] at h
  | true =>
      cases held : s.held shared handle with
      | true => simp [alive, held] at h
      | false => exact ⟨rfl, rfl⟩

end Session

theorem freeSides_has (used : List Handle) (side : Side) :
    (freeSides shared used).has side = true ↔
      shared = true ∧ side = .producer ∨ ∀ handle ∈ used, handle.side ≠ side := by
  induction used with
  | nil => cases side <;> simp [freeSides, Handles.both, Handles.has]
  | cons handle rest ih =>
      rw [freeSides]
      cases handle <;> cases side <;>
        simp_all [Handles.lend, Handles.has, Handle.side]

/-- A plan in callbacks of steps that use the handles `used`. -/
abbrev PlanFor (Q : Type) {α : Type} [Channel Q α] (used : List Handle) (β : Type) : Type 1 :=
  Plan α (Channel.shared Q) (freeSides (Channel.shared Q) used) β

/-- A channel on which scenarios can run. Clients keep it `sound`, and never misuse a slot
of a sound channel, which can also be closed. -/
structure Regular (Q : Type) {α : Type} [Channel Q α] (sound : Q → Prop) : Prop where
  parametric : Parametric Q
  keeps : ∀ {E β : Type} (client : Client α E (Channel.shared Q) .both β) (w : World Q E),
    sound w.queue → sound (channelAfter (client.run w))
  safe : ∀ {E β : Type} (client : Client α E (Channel.shared Q) .both β) (w : World Q E),
    sound w.queue → (verdict (client.run w)).1 ≠ .error .misused
  closes : ∀ {q : Q}, sound q → ∃ q', Channel.close q = .ok () q'

/-- The channel of a scenario in session `s`, and that of its client. As long as any handle
is left they are the same, and then the one is the other closed. -/
structure Linked (s : Session α) (q q' : Q) : Prop where
  here : s.isOpen = true → q = q'
  closed : s.isOpen = false → Channel.close q' = .ok () q

/-- A scenario and its client, in callbacks of steps that use the handles `used`. -/
structure Level (sound : Q → Prop) (used : List Handle) (frames : List (Frame α))
    (v : World Q (Session α)) (w : World Q (Memory α)) : Prop where
  memory : w.env = ⟨v.env.plain, frames⟩
  inUse : v.env.inUse = used
  alive : ∀ handle ∈ used, v.env.alive handle = true
  single : Channel.shared Q = false → v.env.producers.length ≤ 1
  linked : Linked v.env v.queue w.queue
  settled : used = [] → sound w.queue

/-- What is left of that where both have halted. -/
def Left (sound : Q → Prop) (used : List Handle) (frames : List (Frame α)) (e : Halt)
    (v : World Q (Session α)) (w : World Q (Memory α)) : Prop :=
  (e = .panicked → Level sound used frames v w) ∧ Linked v.env v.queue w.queue

variable {v : World Q (Session α)} {w : World Q (Memory α)}

namespace Level

theorem left (h : Level sound used frames v w) (e : Halt) : Left sound used frames e v w :=
  ⟨fun _ => h, h.linked⟩

theorem free (h : Level sound used frames v w) {handle : Handle}
    (usable : v.env.refusal? (Channel.shared Q) handle = none) :
    (freeSides (Channel.shared Q) used).has handle.side = true := by
  obtain ⟨alive, held⟩ := Session.usable usable
  rw [freeSides_has]
  cases handle with
  | consumer =>
      have mine : Handle.consumer ∉ used := by
        rw [← h.inUse]
        simpa [Session.held] using held
      refine .inr fun other mem same => ?_
      cases other with
      | consumer => exact mine mem
      | producer p => cases same
  | producer p =>
      cases shared : Channel.shared Q with
      | true => exact .inl ⟨rfl, rfl⟩
      | false =>
          have mine : Handle.producer p ∉ used := by
            rw [← h.inUse]
            simpa [Session.held, shared] using held
          -- There is only one producer handle.
          have first : ∀ p, v.env.alive (.producer p) = true → p = 0 := by
            intro p alive
            rw [Session.alive, List.getD_eq_getElem?_getD] at alive
            have := h.single shared
            by_contra later
            rw [List.getElem?_eq_none (by omega)] at alive
            cases alive
          refine .inr fun other mem same => ?_
          cases other with
          | consumer => cases same
          | producer p' =>
              rw [first p alive, ← first p' (h.alive _ mem)] at mine
              exact mine mem

theorem open_of_usable {handle : Handle}
    (usable : v.env.refusal? (Channel.shared Q) handle = none) : v.env.isOpen = true :=
  Session.isOpen_of_alive (Session.usable usable).1

end Level

/-- With a handle left, the two channels are the same. -/
def Ready (sound : Q → Prop) (used : List Handle) (frames : List (Frame α))
    (v : World Q (Session α)) (w : World Q (Memory α)) : Prop :=
  Level sound used frames v w ∧ v.env.isOpen = true

theorem Linked.of_open {s : Session α} (opened : s.isOpen = true) (q : Q) : Linked s q q where
  here _ := rfl
  closed none := absurd (opened.symm.trans none) (by simp)

/-- A call that both make on the same channel leaves it the same. -/
theorem Ready.move (h : Ready sound used frames v w) {q : Q} (settled : used = [] → sound q) :
    Ready sound used frames ⟨q, v.env⟩ ⟨q, w.env⟩ :=
  ⟨{ h.1 with
    linked := Linked.of_open h.2 q
    settled := settled }, h.2⟩

/-- A part of a scenario and its plan, as long as a handle is left. -/
abbrev Enacts (sound : Q → Prop) (used : List Handle) (frames : List (Frame α))
    (out : β → γ → Prop) (act : Run Q α β)
    (plan : PlanFor Q used γ) : Prop :=
  Mirrors out (Ready sound used frames) (Left sound used frames) act plan.run

/-- The same of a part after which there may be no handle left. -/
abbrev EnactsLast (sound : Q → Prop) (used : List Handle) (frames : List (Frame α))
    (out : β → γ → Prop) (act : Run Q α β)
    (plan : PlanFor Q used γ) : Prop :=
  ∀ v w, Ready sound used frames v w →
    Like out (Level sound used frames) (Left sound used frames) (act v) (plan.run w)

theorem Regular.settled (regular : Regular Q sound) {E : Type} {w : World Q E}
    (client : Client α E (Channel.shared Q) (freeSides (Channel.shared Q) used) β)
    (before : used = [] → sound w.queue) :
    used = [] → sound (channelAfter (client.run w)) := by
  intro none
  subst none
  exact regular.keeps client w (before rfl)

/-- Both go on with a session that is as open as before. -/
theorem Level.goOn (h : Level sound used frames v w) {s : Session α} {used' : List Handle}
    {frames' : List (Frame α)} (inUse : s.inUse = used')
    (alive : ∀ handle ∈ used', s.alive handle = true)
    (single : Channel.shared Q = false → s.producers.length ≤ 1)
    (same : s.isOpen = v.env.isOpen) (settled : used' = [] → sound w.queue) :
    Level sound used' frames' ⟨v.queue, s⟩ ⟨w.queue, ⟨s.plain, frames'⟩⟩ where
  memory := rfl
  inUse := inUse
  alive := alive
  single := single
  linked := ⟨fun here => h.linked.here (same ▸ here), fun none => h.linked.closed (same ▸ none)⟩
  settled := settled

section Calls

variable (regular : Regular Q sound) {side : Side}

theorem ready_fresh (value : Nat → α) :
    Enacts sound used frames Eq (Run.fresh value) (Plan.fresh value) := by
  rintro v ⟨q, m⟩ ⟨level, opened⟩
  obtain rfl := level.memory
  exact .ok rfl ⟨level.goOn level.inUse level.alive level.single rfl level.settled, opened⟩

include regular

theorem ready_call (free : (freeSides (Channel.shared Q) used).has side = true) (op : Op α side β) :
    Enacts sound used frames Eq (Act.onQueue op.perform) (.call free op) := by
  rintro ⟨q, s⟩ w ready
  obtain rfl : q = w.queue := ready.1.linked.here ready.2
  have settled := regular.settled (.call free op) ready.1.settled
  change Like _ _ _ _ (Act.onQueue op.perform w)
  change used = [] → sound (channelAfter (Act.onQueue op.perform w)) at settled
  cases ran : op.perform (Q := Q) w.queue with
  | ok b q' =>
      rw [Act.onQueue_ok (w := w) ran] at settled ⊢
      rw [Act.onQueue_ok (w := ⟨w.queue, s⟩) ran]
      exact .ok rfl (ready.move settled)
  | error e q' =>
      rw [Act.onQueue_error (w := w) ran] at settled ⊢
      rw [Act.onQueue_error (w := ⟨w.queue, s⟩) ran]
      exact .error ((ready.move settled).1.left e)

theorem ready_offerMany (value : Nat → α)
    (free : (freeSides (Channel.shared Q) used).has .producer = true) (accepted count : Nat) :
    Enacts sound used frames (fun r r' => r.plain = r') (offerMany value accepted count)
      (Plan.offerMany value free accepted count) := by
  induction count generalizing accepted with
  | zero => exact .pure rfl
  | succ count ih =>
      refine (ready_fresh value).bind ?_
      rintro v _ rfl
      refine (ready_call regular free (.offer v)).bind ?_
      rintro answer _ rfl
      cases answer with
      | ok _ => exact ih (accepted + 1)
      | error full => exact .pure rfl

theorem ready_pollMany (free : (freeSides (Channel.shared Q) used).has .consumer = true)
    (taken : List α) (count : Nat) :
    Enacts sound used frames Eq (pollMany taken count) (Plan.pollMany free taken count) := by
  induction count generalizing taken with
  | zero => exact .pure rfl
  | succ count ih =>
      refine (ready_call regular free .poll).bind ?_
      rintro answer _ rfl
      cases answer with
      | some v => exact ih (v :: taken)
      | none => exact .pure rfl

omit regular in
theorem enacts_clone (p : Nat) (value : Nat → α)
    (free : (freeSides (Channel.shared Q) used).has .producer = true) :
    Enacts sound used frames (fun r r' => r.plain = r') (perform (Q := Q) value (.clone p))
      (Plan.perform value (.clone p) free) := by
  rintro ⟨q, s⟩ ⟨q', m⟩ ⟨level, opened⟩
  obtain rfl := level.memory
  let s' : Session α := { s with producers := s.producers ++ [true] }
  by_cases shared : Channel.shared Q = true
  · have opened' : s'.isOpen = true := by simp [s', Session.isOpen]
    have next : Level sound used frames ⟨q, s'⟩ ⟨q', ⟨s'.plain, frames⟩⟩ :=
      level.goOn level.inUse
        (fun handle mem => Session.alive_append (level.alive handle mem) [true])
        (fun single => absurd (shared.symm.trans single) (by simp)) (opened'.trans opened.symm)
        level.settled
    have left : perform (Q := Q) value (.clone p) ⟨q, s⟩ =
        .ok (.number s.producers.length) ⟨q, s'⟩ := by
      rw [perform, if_pos shared]
      rfl
    rw [left]
    refine .ok (c := Reply.unfit) rfl ?_
    simp only [if_pos shared]
    exact ⟨next, opened'⟩
  · have left : perform (Q := Q) value (.clone p) ⟨q, s⟩ = .ok .unfit ⟨q, s⟩ := by
      rw [perform, if_neg shared]
      rfl
    rw [left]
    refine .ok (c := Reply.unfit) rfl ?_
    simp only [if_neg shared]
    exact ⟨level, opened⟩

/-- The last handle goes only where no step uses one. -/
theorem drops_handle {handle : Handle} (mine : handle ∉ used) :
    EnactsLast sound used frames Eq (dropHandle (Q := Q) handle)
      (Plan.update (·.forget handle)) := by
  rintro ⟨q, s⟩ ⟨q', m⟩ ⟨level, opened⟩
  obtain rfl := level.memory
  obtain rfl : q = q' := level.linked.here opened
  have alive : ∀ other ∈ used, (s.forget handle).alive other = true := by
    intro other mem
    exact Session.alive_forget (fun same => mine (same ▸ mem)) (level.alive other mem)
  have single : Channel.shared Q = false → (s.forget handle).producers.length ≤ 1 := by
    intro single
    have := level.single single
    cases handle with
    | consumer => exact this
    | producer p => simpa [Session.forget] using this
  have inUse : (s.forget handle).inUse = used := by
    cases handle <;> exact level.inUse
  have memory : s.plain.forget handle = (s.forget handle).plain := by
    cases handle <;> rfl
  have forgotten : (Plan.update (·.forget handle) : PlanFor Q used Unit).run
      ⟨q, ⟨s.plain, frames⟩⟩ = .ok () ⟨q, ⟨(s.forget handle).plain, frames⟩⟩ := by
    rw [← memory]
    rfl
  rw [forgotten]
  cases last : (s.forget handle).isOpen with
  | true =>
      rw [dropHandle_open last]
      exact .ok rfl (level.goOn inUse alive single (last.trans opened.symm) level.settled)
  | false =>
      -- A step that uses a handle would keep the session open.
      have none : used = [] := by
        cases used with
        | nil => rfl
        | cons other rest =>
            have left := Session.isOpen_of_alive (alive other (List.mem_cons_self ..))
            exact absurd (left.symm.trans last) (by simp)
      obtain ⟨q', closed⟩ := regular.closes (level.settled none)
      rw [dropHandle_last closed last]
      refine .ok rfl ?_
      exact {
        memory := rfl
        inUse := inUse
        alive := alive
        single := single
        linked := ⟨fun left => absurd (left.symm.trans last) (by simp), fun _ => closed⟩
        settled := level.settled }

omit regular in
theorem Enacts.bind_last {act : Run Q α β} {next : β → Run Q α β'} {out : β → γ → Prop}
    {out' : β' → γ' → Prop} {plan : PlanFor Q used γ}
    {next' : γ → PlanFor Q used γ'}
    (first : Enacts sound used frames out act plan)
    (rest : ∀ x y, out x y → EnactsLast sound used frames out' (next x) (next' y)) :
    EnactsLast sound used frames out' (act >>= next) (.bind plan next') :=
  fun v w ready => (first v w ready).bind fun x y v' w' same => rest x y same v' w'

omit regular in
theorem EnactsLast.answer {act : Run Q α β} {out : β → γ → Prop} {f : β → β'} {g : γ → γ'}
    {out' : β' → γ' → Prop} {plan : PlanFor Q used γ}
    (h : EnactsLast sound used frames out act plan) (alike : ∀ x y, out x y → out' (f x) (g y)) :
    EnactsLast sound used frames out' (act >>= fun x => pure (f x))
      (.bind plan fun y => .done (g y)) :=
  fun v w ready => (h v w ready).bind fun x y _ _ same related => .ok (alike x y same) related

theorem enacts_drop (handle : Handle) (value : Nat → α)
    (free : (freeSides (Channel.shared Q) used).has handle.side = true) :
    EnactsLast sound used frames (fun r r' => r.plain = r') (perform (Q := Q) value (.drop handle))
      (Plan.perform value (.drop handle) free) := by
  have asks : Enacts sound used frames (fun b c => b = used.contains handle ∧ c = b)
      (Run.session (·.inUse.contains handle)) (Plan.session (·.inUse.contains handle)) := by
    rintro ⟨q, s⟩ ⟨q', m⟩ ⟨level, opened⟩
    obtain rfl := level.memory
    exact .ok ⟨congrArg (·.contains handle) level.inUse, rfl⟩ ⟨level, opened⟩
  refine asks.bind_last ?_
  rintro busy _ ⟨rfl, rfl⟩
  split
  next => exact fun v w ready => .ok rfl ready.1
  next mine =>
      exact (drops_handle regular (by simpa using mine)).answer fun _ _ _ => rfl

theorem performs (value : Nat → α) (c : Call α)
    (free : (freeSides (Channel.shared Q) used).has c.handle.side = true) :
    EnactsLast sound used frames (fun r r' => r.plain = r') (perform (Q := Q) value c)
      (Plan.perform value c free) := by
  have enough : ∀ {act : Run Q α (Reply α)}
      {plan : PlanFor Q used (Reply α)},
      Enacts sound used frames (fun r r' => r.plain = r') act plan →
      EnactsLast sound used frames (fun r r' => r.plain = r') act plan :=
    fun enacts v w ready =>
      (enacts v w ready).imp (fun _ _ same => same) (fun _ _ h => h.1) (fun _ _ _ h => h)
  cases c with
  | offer p v =>
      refine enough (Mirrors.map (ready_call regular free (.offer v)) ?_)
      rintro answer _ rfl
      cases answer <;> rfl
  | relaxedOffer p v =>
      refine enough (Mirrors.map (ready_call regular free (.relaxedOffer v)) ?_)
      rintro answer _ rfl
      cases answer <;> rfl
  | offerMany p count => exact enough (ready_offerMany regular value free 0 count)
  | poll => exact enough (Mirrors.map (ready_call regular free .poll) (by rintro v _ rfl; rfl))
  | relaxedPoll =>
      exact enough (Mirrors.map (ready_call regular free .relaxedPoll) (by rintro v _ rfl; rfl))
  | peek => exact enough (Mirrors.map (ready_call regular free .peek) (by rintro v _ rfl; rfl))
  | relaxedPeek =>
      exact enough (Mirrors.map (ready_call regular free .relaxedPeek) (by rintro v _ rfl; rfl))
  | pollMany count brief =>
      exact enough (Mirrors.map (ready_pollMany regular free [] count) (by rintro v _ rfl; rfl))
  | info handle =>
      refine enough (Mirrors.bind (ready_call regular free (.look handle.side)) ?_)
      rintro i _ rfl
      exact .pure rfl
  | lookAhead p =>
      refine enough fun v w ready => ?_
      have asked : Act.onQueue (Act.view (Channel.lookAhead? (Q := Q))) v =
          .ok (Channel.lookAhead? v.queue) v := rfl
      rw [perform, Act.bind_ok asked]
      cases Channel.lookAhead? v.queue <;> exact .ok rfl ready
  | clone p => exact enough (enacts_clone p value free)
  | drop handle => exact enacts_drop regular handle value free

/-- A batch whose supply is at hand leaves the memories alone. -/
theorem ready_fill (free : (freeSides (Channel.shared Q) used).has .producer = true) (v : α)
    (limit : Nat) :
    Enacts sound used frames Eq (Channel.fill (pure v) limit) (.fill free (.done v) limit) := by
  rintro ⟨q, s⟩ ⟨q', m⟩ ready
  obtain rfl : q = q' := ready.1.linked.here ready.2
  let env : Session α → Memory α → Prop := fun s' m' => s' = s ∧ m' = m
  let C : Coupling (World Q (Session α)) (World Q (Memory α)) :=
    Mirrors.coupling (Mirrors.SameQueue env) (fun _ => Mirrors.SameQueue env) fun _ _ h => h
  have same : C.OnQueue := fun _ act => Mirrors.onQueue (fun _ _ _ h => h) act
  have like := regular.parametric.fill same (C.pure v) limit ⟨q, s⟩ ⟨q, m⟩ ⟨rfl, rfl, rfl⟩
  have settled := regular.settled (.fill free (.done v) limit) ready.1.settled
  change Like _ _ _ _ (Channel.fill (pure v) limit ⟨q, m⟩)
  change used = [] → sound (channelAfter (Channel.fill (pure v) limit ⟨q, m⟩)) at settled
  generalize Channel.fill (pure v) limit (⟨q, s⟩ : World Q (Session α)) = x at like ⊢
  generalize Channel.fill (pure v) limit (⟨q, m⟩ : World Q (Memory α)) = y at like settled ⊢
  cases like with
  | @ok n _ v' w' alike related =>
      obtain ⟨⟨q', s'⟩, ⟨_, m'⟩⟩ := v', w'
      obtain ⟨rfl, rfl, rfl⟩ := related
      exact .ok alike (ready.move settled)
  | @error e v' w' halted =>
      obtain ⟨⟨q', s'⟩, ⟨_, m'⟩⟩ := v', w'
      obtain ⟨rfl, rfl, rfl⟩ := halted
      exact .error ((ready.move settled).1.left e)

/-- The calls of another thread are made in both where both sides are free. -/
theorem enacts_threadCall (both : freeSides (Channel.shared Q) used = .both)
    (call : ThreadCall α) :
    Enacts sound used frames Eq (threadCall (Q := Q) call) (Plan.threadCall both call) := by
  cases call with
  | poll => exact Mirrors.map (ready_call regular _ .poll) (by rintro v _ rfl; rfl)
  | peek => exact Mirrors.map (ready_call regular _ .peek) (by rintro v _ rfl; rfl)
  | offer v =>
      refine Mirrors.bind (ready_call regular _ (.offer v)) ?_
      rintro answer _ rfl
      cases answer <;> exact .pure rfl
  | fill limit v => exact Mirrors.map (ready_fill regular _ v limit) (by rintro n _ rfl; rfl)

theorem enacts_threadCalls (both : freeSides (Channel.shared Q) used = .both)
    (calls : List (ThreadCall α)) :
    Enacts sound used frames Eq (threadCalls (Q := Q) calls) (Plan.threadCalls both calls) := by
  induction calls with
  | nil => exact .pure rfl
  | cons call rest ih =>
      refine Mirrors.bind (enacts_threadCall regular both call) ?_
      rintro reply _ rfl
      refine Mirrors.bind ih ?_
      rintro replies _ rfl
      exact .pure rfl

theorem enacts_joinThreads (both : freeSides (Channel.shared Q) used = .both)
    (threads : List (List (ThreadCall α))) :
    Enacts sound used frames Eq (joinThreads (Q := Q) threads)
      (Plan.joinThreads both threads) := by
  induction threads with
  | nil => exact .pure rfl
  | cons calls rest ih =>
      refine Mirrors.bind (enacts_threadCalls regular both calls) ?_
      rintro replies _ rfl
      refine Mirrors.bind ih ?_
      rintro joined _ rfl
      exact .pure rfl

end Calls

end Handoff.Scenario
