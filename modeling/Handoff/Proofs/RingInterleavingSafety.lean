import Handoff.Proofs.RingInterleaving
import Handoff.Proofs.RingLayout

/-! What no order of steps of a ring's producer and consumer can break: neither touches a
slot that is not its own at that moment, elements arrive in order, and a refusal or a look
at nothing is true at the instant of its last probe. -/
namespace Handoff.RingMachine

open Thread

variable {α : Type}

/-- Safety of one state. -/
structure Safe (m : RingMachine α) : Prop where
  /-- What the producer writes next, and all that it will write without another probe,
  goes to the next indices, whose slots are empty. -/
  writes : ∀ (e : Errand α) (p : Progress) (run : Nat), m.producer = .write e p run →
    p.index = m.written.size ∧ ∀ k, k ≤ run →
      m.ring.chunk.slot? (Index.slotOf (p.index + k) m.ring.capacity) = some .empty
  /-- What the consumer takes next is the element of its own index. -/
  takes : ∀ (t : Task) (index done left : Nat), m.consumer = .take t index done left →
    index = m.received.size ∧ ∃ v, m.written[index]? = some v ∧
      m.ring.chunk.slot? (Index.slotOf index m.ring.capacity) = some (.value v)
  shows : ∀ (t : Task) (index : Nat), m.consumer = .showHead t index →
    index = m.received.size ∧ ∃ v, m.written[index]? = some v ∧
      m.ring.chunk.slot? (Index.slotOf index m.ring.capacity) = some (.value v)
  order : m.received.toList <+: m.written.toList
  /-- An offer is refused by the probe of its own slot, and then all slots are taken. -/
  refuses : ∀ (v? : Option α) (q : Ring α), (∀ last, m.producer ≠ .idle last) →
    stepProducer m.producer m.ring = .ok (.idle (some .full), v?) q →
    (∃ e p, m.producer = .probeHere e p) ∧
      m.written.size - m.received.size = m.ring.capacity
  /-- A poll finds nothing by the probe of its own slot, and then nothing is left. -/
  misses : ∀ (v? : Option α) (q : Ring α), (∀ last, m.consumer ≠ .idle last) →
    stepConsumer m.consumer m.ring = .ok (.idle (some (.element none)), v?) q →
    (∃ t index done left, m.consumer = .probe t index done left) ∧ m.received = m.written
  producer : m.producer ≠ .fault ∧ ∃ r q, stepProducer m.producer m.ring = .ok r q
  consumer : m.consumer ≠ .fault ∧ ∃ r q, stepConsumer m.consumer m.ring = .ok r q

variable {m : RingMachine α} {q q' : Ring α} {v? : Option α}

def ProducerPc.onErrand : ProducerPc α → Bool
  | idle (some .full) | idle (some (.length _)) => false
  | lengthFirst | lengthProducer _ | lengthAgain _ _ | fault => false
  | _ => true

def ConsumerPc.onTask : ConsumerPc α → Bool
  | idle (some (.element none)) | idle (some (.length _)) => false
  | lengthFirst | lengthProducer _ | lengthAgain _ _ | fault => false
  | _ => true

/-- A step of the producer from one place to another, on a ring that was `q` and is `q'`. -/
inductive ProducerPc.Leads (q q' : Ring α) : ProducerPc α → ProducerPc α → Prop
  | rests (last : Option ProducerResult) : Leads q q' (idle last) (idle last)
  | errand {pc pc' : ProducerPc α} (h : pc'.onErrand = true) : Leads q q' pc pc'
  | refused (e : Errand α) (p : Progress) (taken : q.vacantAt p.index = false) :
      Leads q q' (probeHere e p) (idle (some .full))
  | first : Leads q q' lengthFirst (lengthProducer q.consumerIndex)
  | loaded (before : Nat) (same : q' = q) :
      Leads q q' (lengthProducer before) (lengthAgain before q.producerIndex)
  | answered (before producer : Nat) (same : before = q.consumerIndex) :
      Leads q q' (lengthAgain before producer)
        (idle (some (.length (Index.distance producer before))))
  | again (before producer : Nat) :
      Leads q q' (lengthAgain before producer) (lengthProducer q.consumerIndex)
  | fault : Leads q q' fault fault

/-- A step of the consumer from one place to another, on a ring that was `q` and is `q'`. -/
inductive ConsumerPc.Leads (q q' : Ring α) : ConsumerPc α → ConsumerPc α → Prop
  | rests (last : Option (ConsumerResult α)) : Leads q q' (idle last) (idle last)
  | task {pc pc' : ConsumerPc α} (h : pc'.onTask = true) : Leads q q' pc pc'
  | missed (t : Task) (index done left : Nat) (vacant : q.vacantAt index = true) :
      Leads q q' (probe t index done left) (idle (some (.element none)))
  | first : Leads q q' lengthFirst (lengthProducer q.consumerIndex)
  | loaded (before : Nat) (same : q' = q) :
      Leads q q' (lengthProducer before) (lengthAgain before q.producerIndex)
  | answered (before producer : Nat) (same : before = q.consumerIndex) :
      Leads q q' (lengthAgain before producer)
        (idle (some (.length (Index.distance producer before))))
  | again (before producer : Nat) :
      Leads q q' (lengthAgain before producer) (lengthProducer q.consumerIndex)
  | fault : Leads q q' fault fault

theorem ProducerPc.attempt_onErrand (e : Errand α) (p : Progress) :
    (attempt e p).onErrand = true := by
  unfold attempt
  split <;> rfl

theorem ProducerPc.begin_onErrand (e : Errand α) (index limit : Nat) :
    (begin e index limit).onErrand = true := by
  cases e with
  | offer v =>
      rw [begin]
      split <;> rfl
  | fill limit supply | stream rounds supply => exact attempt_onErrand _ _

theorem ProducerPc.published_onErrand (e : Errand α) (p : Progress) (run : Nat) :
    (published e p run).onErrand = true := by
  cases run with
  | zero => exact attempt_onErrand _ _
  | succ run => rfl

theorem ProducerPc.noRoom_leads (e : Errand α) (p : Progress)
    (taken : q.vacantAt p.index = false) : Leads q q' (probeHere e p) (noRoom e p) := by
  cases e with
  | offer v => exact .refused _ p taken
  | fill limit supply => exact .errand rfl
  | stream rounds supply => exact .errand (attempt_onErrand _ _)

theorem ConsumerPc.attempt_onTask (t : Task) (index done left : Nat) :
    (attempt t index done left : ConsumerPc α).onTask = true := by
  cases left with
  | zero => rfl
  | succ left => rfl

theorem ConsumerPc.begin_onTask (t : Task) (index : Nat) :
    (begin t index : ConsumerPc α).onTask = true := by
  cases t with
  | poll | peek => rfl
  | drain left | stream left => exact attempt_onTask _ _ _ _

theorem ConsumerPc.nothing_leads (t : Task) (index done left : Nat)
    (vacant : q.vacantAt index = true) :
    Leads q q' (probe t index done left) (nothing t index done left) := by
  cases t with
  | poll | peek => exact .missed _ index done left vacant
  | drain limit => exact .task rfl
  | stream rounds => exact .task (attempt_onTask _ _ _ _)

theorem ConsumerPc.found_onTask (t : Task) (index done left : Nat) :
    (found t index done left : ConsumerPc α).onTask = true := by
  cases t <;> rfl

theorem ConsumerPc.released_onTask (t : Task) (index done left : Nat) (v : α) :
    (released t index done left v).onTask = true := by
  cases t with
  | poll | peek => rfl
  | drain limit | stream rounds => exact attempt_onTask _ _ _ _

theorem stepProducer_leads {pc pc' : ProducerPc α}
    (ok : stepProducer pc q = .ok (pc', v?) q') : pc.Leads q q' pc' := by
  cases pc with
  | idle last =>
      cases ok
      exact .rests last
  | loadIndex e =>
      cases ok
      exact .errand (ProducerPc.begin_onErrand _ _ _)
  | probeAhead e p =>
      rw [stepProducer, Act.bind_view] at ok
      split at ok
      next =>
          rw [Act.bind_view] at ok
          cases e with
          | offer v =>
              cases ok
              exact .errand rfl
          | fill limit supply =>
              cases ok
              exact .errand rfl
          | stream rounds supply =>
              cases ok
              exact .errand rfl
      next =>
          cases ok
          exact .errand rfl
  | probeHere e p =>
      rw [stepProducer, Act.bind_view] at ok
      split at ok
      next =>
          cases ok
          exact .errand rfl
      next taken =>
          cases ok
          exact ProducerPc.noRoom_leads e p (Bool.eq_false_iff.mpr taken)
  | write e p run =>
      rw [stepProducer, Act.bind_view] at ok
      obtain ⟨_, q₁, -, ends⟩ := Act.of_bind_ok ok
      cases ends
      exact .errand rfl
  | storeIndex e p run =>
      cases ok
      exact .errand (ProducerPc.published_onErrand _ _ _)
  | lengthFirst =>
      cases ok
      exact .first
  | lengthProducer before =>
      cases ok
      exact .loaded before rfl
  | lengthAgain before producer =>
      rw [stepProducer, Act.bind_view] at ok
      split at ok
      next same =>
          cases ok
          rw [← same]
          exact .answered before producer same
      next =>
          cases ok
          exact .again before producer
  | fault =>
      cases ok
      exact .fault

theorem stepConsumer_leads {pc pc' : ConsumerPc α}
    (ok : stepConsumer pc q = .ok (pc', v?) q') : pc.Leads q q' pc' := by
  cases pc with
  | idle last =>
      cases ok
      exact .rests last
  | loadIndex t =>
      cases ok
      exact .task (ConsumerPc.begin_onTask _ _)
  | probe t index done left =>
      rw [stepConsumer, Act.bind_view] at ok
      split at ok
      next vacant =>
          cases ok
          exact ConsumerPc.nothing_leads t index done left vacant
      next =>
          cases ok
          exact .task (ConsumerPc.found_onTask _ _ _ _)
  | take t index done left =>
      rw [stepConsumer, Act.bind_view] at ok
      obtain ⟨_, q₁, -, ends⟩ := Act.of_bind_ok ok
      cases ends
      exact .task rfl
  | showHead t index =>
      rw [stepConsumer, Act.bind_view] at ok
      obtain ⟨_, q₁, -, ends⟩ := Act.of_bind_ok ok
      cases ends
      exact .task rfl
  | storeIndex t index done left v =>
      cases ok
      exact .task (ConsumerPc.released_onTask _ _ _ _ _)
  | lengthFirst =>
      cases ok
      exact .first
  | lengthProducer before =>
      cases ok
      exact .loaded before rfl
  | lengthAgain before producer =>
      rw [stepConsumer, Act.bind_view] at ok
      split at ok
      next same =>
          cases ok
          rw [← same]
          exact .answered before producer same
      next =>
          cases ok
          exact .again before producer
  | fault =>
      cases ok
      exact .fault

theorem ProducerPc.Leads.of_full {pc : ProducerPc α} (busy : ∀ last, pc ≠ .idle last)
    (full : pc.Leads q q' (.idle (some .full))) :
    ∃ e p, pc = .probeHere e p ∧ q.vacantAt p.index = false := by
  cases full with
  | rests last => exact absurd rfl (busy _)
  | errand h => cases h
  | refused e p taken => exact ⟨e, p, rfl, taken⟩

theorem ConsumerPc.Leads.of_none {pc : ConsumerPc α} (busy : ∀ last, pc ≠ .idle last)
    (nothing : pc.Leads q q' (.idle (some (.element none)))) :
    ∃ t index done left, pc = .probe t index done left ∧ q.vacantAt index = true := by
  cases nothing with
  | rests last => exact absurd rfl (busy _)
  | task h => cases h
  | missed t index done left vacant => exact ⟨t, index, done, left, rfl, vacant⟩

namespace Inv

theorem slot_next (h : m.Inv) {k : Nat}
    (room : m.written.size + k < m.received.size + m.ring.capacity) :
    m.ring.chunk.slot? (Index.slotOf (m.written.size + k) m.ring.capacity) = some .empty := by
  have slot : Index.slotOf (m.written.size + k) m.ring.capacity =
      (m.written.size + k) % m.ring.capacity := h.models.slotOf_eq _
  rw [slot]
  exact h.models.slot_unpublished (Nat.le_add_right _ _) room

theorem head_at (h : m.Inv) {index : Nat} (at_ : index = m.received.size)
    (lt : m.received.size < m.written.size) :
    index = m.received.size ∧ ∃ v, m.written[index]? = some v ∧
      m.ring.chunk.slot? (Index.slotOf index m.ring.capacity) = some (.value v) := by
  subst at_
  exact ⟨rfl, m.written[m.received.size], Array.getElem?_eq_getElem lt, h.slot_head lt⟩

theorem safe (h : m.Inv) : m.Safe where
  writes e p run here := by
    have knows := h.producer
    rw [here] at knows
    obtain ⟨at_, room⟩ := knows
    refine ⟨at_, fun k le => ?_⟩
    rw [at_]
    exact h.slot_next (by omega)
  takes t index done left here := by
    have knows := h.consumer
    rw [here] at knows
    exact h.head_at knows.1 knows.2
  shows t index here := by
    have knows := h.consumer
    rw [here] at knows
    exact h.head_at knows.1 knows.2
  order := h.order
  refuses v? q busy full := by
    obtain ⟨e, p, here, taken⟩ := (stepProducer_leads full).of_full busy
    have at_ := h.producer
    rw [here] at at_
    have within := h.within
    rw [at_, ← Bool.not_eq_true, h.vacant_next_iff] at taken
    exact ⟨⟨e, p, here⟩, by omega⟩
  misses v? q busy nothing := by
    obtain ⟨t, index, done, left, here, vacant⟩ := (stepConsumer_leads nothing).of_none busy
    have at_ := h.consumer
    rw [here] at at_
    rw [at_, h.vacant_head_iff] at vacant
    have same := h.order.eq_of_length_le (by simpa using vacant)
    exact ⟨⟨t, index, done, left, here⟩, Array.toList_inj.mp same⟩
  producer := by
    obtain ⟨pc, v?, q, ok, -⟩ := h.producer_goes_on
    refine ⟨fun fault => ?_, _, _, ok⟩
    have knows := h.producer
    rw [fault] at knows
    exact knows
  consumer := by
    obtain ⟨pc, v?, q, ok, -⟩ := h.consumer_goes_on
    refine ⟨fun fault => ?_, _, _, ok⟩
    have knows := h.consumer
    rw [fault] at knows
    exact knows

end Inv

/-- Over every order of steps, whatever capacity and look-ahead step were asked for, the
ring hands over what is written in order, slot by slot. -/
theorem hands_over {requested maxStep : Nat} {q : Ring α}
    (accepted : Ring.withSettings requested maxStep = .ok q) (moves : List (Move α)) :
    ((start q).replay moves).Safe :=
  (reached accepted moves).safe

/-- A ring of four slots. Four elements of a fill are in when the consumer takes the first
one. Before it stores its index the producer finds the slot empty and is about to write. -/
def lapping : List (Move Nat) :=
  .tellProducer (.errand (.fill 6 (10 + ·))) :: List.replicate 14 .producer ++
  .tellConsumer (.task .poll) :: List.replicate 3 .consumer ++ List.replicate 2 .producer

theorem hands_over_lapping :
    let m := (start (.ofSize ⟨4, 1⟩)).replay lapping
    (Ring.withSettings 4 9 : Except CapacityError (Ring Nat)) = .ok (.ofSize ⟨4, 1⟩) ∧
      m.written = #[10, 11, 12, 13] ∧ m.received = #[10] ∧ m.ring.consumerIndex = 0 ∧
      (∃ e, m.producer = .write e ⟨4, 4, 2⟩ 0) ∧ m.Safe := by
  intro m
  have accepted : (Ring.withSettings 4 9 : Except CapacityError (Ring Nat)) =
      .ok (.ofSize ⟨4, 1⟩) := rfl
  exact ⟨accepted, by decide +kernel, by decide +kernel, by decide +kernel, ⟨_, rfl⟩,
    hands_over accepted lapping⟩

end Handoff.RingMachine
