import Handoff.Proofs.Capacity
import Handoff.Proofs.RingFifo

/-! The contract of a ring. A ring that was asked for can be told from a list by
none of its clients, whatever was asked for as the look-ahead step. What this means
for batch calls is spelled out for callbacks that make no calls but may panic. -/
namespace Handoff

variable {α E Q : Type} {shared : Bool} {h : Handles}

/-- A supply that works on its memory alone, and panics where it has no value. -/
def Client.supplying (work : E → Option α × E) : Client α E shared h α :=
  .bind (.own work) fun
    | some v => .done v
    | none => .panic

/-- A consumer that works on its memory alone, and panics at a value it refuses. -/
def Client.consuming (work : α → E → Bool × E) (v : α) : Client α E shared h Unit :=
  .bind (.own (work v)) fun
    | true => .done ()
    | false => .panic

section Callbacks

variable [Channel Q α] (q : Q) {memory memory' : E}

theorem bind_own {β γ : Type} {work : E → β × E} {b : β} (hw : work memory = (b, memory'))
    (next : β → Client α E shared h γ) :
    (Client.bind (.own work) next).run ⟨q, memory⟩ = (next b).run ⟨q, memory'⟩ := by
  have own : (Client.own work : Client α E shared h β).run ⟨q, memory⟩ = .ok b ⟨q, memory'⟩ :=
    congrArg (fun r : β × E => EStateM.Result.ok r.1 (⟨q, r.2⟩ : World Q E)) hw
  exact Act.bind_ok own _

theorem supplying_some {work : E → Option α × E} {v : α} (hw : work memory = (some v, memory')) :
    (Client.supplying work : Client α E shared h α).run ⟨q, memory⟩ = .ok v ⟨q, memory'⟩ :=
  bind_own q hw _

theorem supplying_none {work : E → Option α × E} (hw : work memory = (none, memory')) :
    (Client.supplying work : Client α E shared h α).run ⟨q, memory⟩ =
      .error .panicked ⟨q, memory'⟩ :=
  bind_own q hw _

theorem consuming_true {work : α → E → Bool × E} {v : α} (hw : work v memory = (true, memory')) :
    (Client.consuming work v : Client α E shared h Unit).run ⟨q, memory⟩ = .ok () ⟨q, memory'⟩ :=
  bind_own q hw _

theorem consuming_false {work : α → E → Bool × E} {v : α}
    (hw : work v memory = (false, memory')) :
    (Client.consuming work v : Client α E shared h Unit).run ⟨q, memory⟩ =
      .error .panicked ⟨q, memory'⟩ :=
  bind_own q hw _

end Callbacks

/-- What a row of callbacks came to: the values that went through, whether none of
the callbacks panicked, and the memory they left. -/
structure Yield (α E : Type) where
  values : List α
  whole : Bool
  memory : E

def harvest (work : E → Option α × E) : Nat → E → Yield α E
  | 0, memory => ⟨[], true, memory⟩
  | count + 1, memory =>
    match work memory with
    | (none, memory) => ⟨[], false, memory⟩
    | (some v, memory) =>
      let rest := harvest work count memory
      { rest with values := v :: rest.values }

/-- Calls of a consumer on the values of a list. A value that it panics at went
through. -/
def spend (work : α → E → Bool × E) : List α → E → Yield α E
  | [], memory => ⟨[], true, memory⟩
  | v :: later, memory =>
    match work v memory with
    | (false, memory) => ⟨[v], false, memory⟩
    | (true, memory) =>
      let rest := spend work later memory
      { rest with values := v :: rest.values }

theorem harvest_length (work : E → Option α × E) (count : Nat) (memory : E)
    (whole : (harvest work count memory).whole = true) :
    (harvest work count memory).values.length = count := by
  induction count generalizing memory with
  | zero => rfl
  | succ count ih =>
      unfold harvest at whole ⊢
      rcases hw : work memory with ⟨_ | v, next⟩
      · rw [hw] at whole
        exact absurd whole Bool.false_ne_true
      · rw [hw] at whole
        exact congrArg (· + 1) (ih next whole)

theorem spend_take (work : α → E → Bool × E) (l : List α) (memory : E) :
    (spend work l memory).values <+: l ∧
      ((spend work l memory).whole = true → (spend work l memory).values = l) := by
  induction l generalizing memory with
  | nil => exact ⟨List.prefix_rfl, fun _ => rfl⟩
  | cons v later ih =>
      unfold spend
      rcases work v memory with ⟨_ | _, next⟩
      · exact ⟨⟨later, rfl⟩, fun whole => absurd whole Bool.false_ne_true⟩
      · obtain ⟨front, all⟩ := ih next
        exact ⟨List.prefix_cons_inj v |>.mpr front, fun whole => congrArg (v :: ·) (all whole)⟩

namespace Yield

/-- The result of a batch call that handled `done` elements before and leaves `q`. -/
def result (y : Yield α E) (done : Nat) (q : Q) : EStateM.Result Halt (World Q E) Nat :=
  if y.whole then .ok (done + y.values.length) ⟨q, y.memory⟩ else .error .panicked ⟨q, y.memory⟩

def answer (y : Yield α E) : Except Halt Nat × E :=
  (if y.whole then .ok y.values.length else .error .panicked, y.memory)

theorem verdict_result (y : Yield α E) (q : Q) : verdict (y.result 0 q) = y.answer := by
  unfold result answer
  cases y.whole with
  | false => rfl
  | true => exact congrArg (fun n => (Except.ok n, y.memory)) (Nat.zero_add _)

theorem channelAfter_result (y : Yield α E) (done : Nat) (q : Q) :
    channelAfter (y.result done q) = q := by
  unfold result
  cases y.whole <;> rfl

end Yield

namespace Fifo

def appendAll (f : Fifo α) (values : List α) : Fifo α :=
  { f with items := f.items ++ values, produced := f.produced + values.length }

def dropFront (f : Fifo α) (count : Nat) : Fifo α :=
  { f with items := f.items.drop count, consumed := f.consumed + count }

theorem fillFrom_supplying (work : E → Option α × E) (left done : Nat) (f : Fifo α) (memory : E)
    (bound : f.items.length ≤ f.capacity) :
    fillFrom (Client.supplying work : Client α E shared h α).run done left ⟨f, memory⟩ =
      let y := harvest work (min left (f.capacity - f.items.length)) memory
      y.result done (f.appendAll y.values) := by
  induction left generalizing done f memory with
  | zero => simp [fillFrom, harvest, Yield.result, appendAll]
  | succ left ih =>
      rw [fillFrom, Act.bind_onQueue_view]
      cases full : f.isFull with
      | true =>
          have none : f.capacity - f.items.length = 0 := by
            simp only [Fifo.isFull, decide_eq_true_eq] at full
            omega
          simp [none, harvest, Yield.result, appendAll]
      | false =>
          have room : f.items.length < f.capacity := by
            simpa only [Fifo.isFull, decide_eq_false_iff_not, Nat.not_le] using full
          have fewer : min (left + 1) (f.capacity - f.items.length) =
              min left (f.capacity - (f.items.length + 1)) + 1 := by omega
          simp only [Bool.false_eq_true, if_false, fewer]
          unfold harvest
          rcases hw : work memory with ⟨_ | v, next⟩
          · have nothing : f.appendAll [] = f := by simp [appendAll]
            refine (Act.bind_error (Act.bind_error (supplying_none f hw) _) _).trans ?_
            simp only [Yield.result, nothing]
            rfl
          · have supplied : supplyOne (Client.supplying work : Client α E shared h α).run
                ⟨f, memory⟩ = .ok () ⟨f.append v, next⟩ := Act.bind_ok (supplying_some f hw) _
            have length : (f.append v).items.length = f.items.length + 1 := by
              simp [append]
            have rest := ih (done + 1) (f.append v) next (by rw [length]; exact room)
            rw [Act.bind_ok supplied, rest, length]
            simp [Yield.result, appendAll, append, Nat.add_assoc, Nat.add_comm 1]

theorem drainFrom_consuming (work : α → E → Bool × E) (left done : Nat) (f : Fifo α) (memory : E) :
    Loop.drainFrom (Act.onQueue poll)
        (fun v => (Client.consuming work v : Client α E shared h Unit).run) done left ⟨f, memory⟩ =
      let y := spend work (f.items.take left) memory
      y.result done (f.dropFront y.values.length) := by
  induction left generalizing done f memory with
  | zero => rfl
  | succ left ih =>
      cases items : f.items with
      | nil =>
          have none : poll f = .ok none f := by rw [poll, Act.bind_view, items]; rfl
          rw [Loop.drainFrom, Act.bind_ok (Act.onQueue_ok none)]
          rfl
      | cons v rest =>
          have polled : poll f = .ok (some v) (f.dropFront 1) := by
            rw [poll, Act.bind_view, items, dropFront, items]
            rfl
          rw [Loop.drainFrom, Act.bind_ok (Act.onQueue_ok polled), List.take_succ_cons]
          unfold spend
          rcases hw : work v memory with ⟨_ | _, next⟩
          · exact Act.bind_error (consuming_false (f.dropFront 1) hw) _
          · have later := ih (done + 1) (f.dropFront 1) next
            have items' : (f.dropFront 1).items = rest := by rw [dropFront, items]; rfl
            refine (Act.bind_ok (consuming_true (f.dropFront 1) hw) _).trans ?_
            rw [later, items']
            simp [Yield.result, dropFront, Nat.add_assoc, Nat.add_comm 1]

end Fifo

namespace Ring

theorem ofSize_models {size : RingSize} (fits : size.Fits) :
    (ofSize size : Ring α).Models (Fifo.ofSize size.capacity size.lookAhead) where
  pow := fits.pow
  produced := rfl
  consumed := rfl
  balance := rfl
  bound := Nat.zero_le _
  shown := Chunk.Shows.ofSize size.capacity 0
  lookAhead := rfl
  burst_pos := fits.lookAhead_pos
  burst_lt := fits.lookAhead_lt
  limit := Nat.zero_le _

theorem exists_size {requested maxStep : Nat} {q : Ring α}
    (accepted : withSettings requested maxStep = .ok q) :
    ∃ size, RingSize.plan requested maxStep = .ok size ∧ q = ofSize size := by
  cases hp : RingSize.plan requested maxStep with
  | error e =>
      rw [withSettings, hp] at accepted
      cases accepted
  | ok size =>
      rw [withSettings, hp] at accepted
      cases accepted
      exact ⟨size, rfl, rfl⟩

/-- A ring holds a list whatever has been called on it. -/
theorem reached {requested maxStep : Nat} {q : Ring α}
    (accepted : withSettings requested maxStep = .ok q) {β : Type}
    (client : Client α E false .both β) (env : E) :
    ∃ f, (channelAfter (client.run ⟨q, env⟩)).Models f := by
  obtain ⟨size, planned, rfl⟩ := exists_size accepted
  obtain ⟨-, -, models, -⟩ :=
    (fifo α).agree (ofSize_models (RingSize.plan_fits planned)) client env
  exact ⟨_, models⟩

/-- What batch calls do to a ring with room for `capacity` elements, if their
callbacks make no calls. A panic leaves in place what went through before it. -/
structure BatchContract (q : Ring α) (capacity : Nat) : Prop where
  fill : ∀ {E : Type} (work : E → Option α × E) (limit : Nat) (memory : E),
    let count := min limit (capacity - q.contents.length)
    let y := harvest work count memory
    let x := (Client.fill rfl (.supplying work) limit : Client α E false .both Nat).run ⟨q, memory⟩
    verdict x = y.answer ∧ (channelAfter x).contents = q.contents ++ y.values ∧
      (y.whole = true → y.values.length = count)
  drain : ∀ {E : Type} (work : α → E → Bool × E) (limit : Nat) (memory : E),
    let front := q.contents.take limit
    let y := spend work front memory
    let x := (Client.drain rfl (.consuming work) limit : Client α E false .both Nat).run ⟨q, memory⟩
    verdict x = y.answer ∧ (channelAfter x).contents = q.contents.drop y.values.length ∧
      y.values <+: front ∧ (y.whole = true → y.values = front)

theorem Models.batchContract {q : Ring α} {f : Fifo α} (h : q.Models f) :
    q.BatchContract f.capacity := by
  constructor
  · intro E work limit memory
    let client : Client α E false .both Nat := .fill rfl (.supplying work) limit
    let y := harvest work (min limit (f.capacity - f.items.length)) memory
    have onList : client.run ⟨f, memory⟩ = y.result 0 (f.appendAll y.values) :=
      Fifo.fillFrom_supplying work limit 0 f memory h.bound
    obtain ⟨same, -, models, -⟩ := (fifo α).agree h client memory
    have after := Models.contents_eq models
    rw [onList] at same after
    rw [Yield.verdict_result] at same
    rw [Yield.channelAfter_result] at after
    rw [h.contents_eq]
    exact ⟨same, after, harvest_length work _ memory⟩
  · intro E work limit memory
    let client : Client α E false .both Nat := .drain rfl (.consuming work) limit
    let y := spend work (f.items.take limit) memory
    have onList : client.run ⟨f, memory⟩ = y.result 0 (f.dropFront y.values.length) :=
      Fifo.drainFrom_consuming work limit 0 f memory
    obtain ⟨same, -, models, -⟩ := (fifo α).agree h client memory
    have after := Models.contents_eq models
    rw [onList] at same after
    rw [Yield.verdict_result] at same
    rw [Yield.channelAfter_result] at after
    rw [h.contents_eq]
    exact ⟨same, after, spend_take work _ memory⟩

/-- No client can tell a ring from a list of the least power of two that is neither
below four nor below the request, and the ring holds what the list holds. The step
that was asked for decides only how many elements an exit poll of `fillWith` allows. -/
theorem refines_fifo {requested maxStep : Nat} {q : Ring α}
    (accepted : withSettings requested maxStep = .ok q) {β : Type}
    (client : Client α E false .both β) (env : E) :
    let capacity := max 4 (Capacity.roundUp requested)
    let onRing := client.run ⟨q, env⟩
    let onList := client.run ⟨Fifo.ofSize capacity q.lookAhead, env⟩
    verdict onRing = verdict onList ∧ (verdict onRing).1 ≠ .error .misused ∧
      (channelAfter onRing).contents = (channelAfter onList).items ∧
      (channelAfter onRing).contents.length ≤ capacity ∧
      (channelAfter onRing).BatchContract capacity := by
  obtain ⟨size, planned, rfl⟩ := exists_size accepted
  have start := ofSize_models (α := α) (RingSize.plan_fits planned)
  rw [RingSize.plan_capacity planned] at start
  obtain ⟨same, sound, models, later⟩ := (fifo α).agree start client env
  have capacity := Fifo.Later.capacity later
  have contents := Models.contents_eq models
  have bound := Models.bound models
  have batch := Models.batchContract models
  rw [capacity] at bound batch
  exact ⟨same, sound, contents, contents ▸ bound, batch⟩

theorem refines_fifo_eight :
    let client : Client Nat Nat false .both Nat :=
      .fill rfl (.supplying fun memory => (some memory, memory + 1)) 9
    withSettings 5 0 = .ok (ofSize ⟨8, 1⟩ : Ring Nat) ∧
      verdict (client.run ⟨(ofSize ⟨8, 1⟩ : Ring Nat), 0⟩) = (.ok 8, 8) := by
  intro client
  have accepted : withSettings 5 0 = .ok (ofSize ⟨8, 1⟩ : Ring Nat) := rfl
  exact ⟨accepted, (refines_fifo accepted client 0).1.trans rfl⟩

end Ring
end Handoff
