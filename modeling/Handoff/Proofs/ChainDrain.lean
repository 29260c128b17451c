import Handoff.Proofs.ChainLayout
import Handoff.Proofs.Orders

/-! A drain takes the values that are written from the consumer's index on, up to the
first index that is not. What stands behind that index, whether later elements, the
rest of a batch or the mark of a producer that never finished, is nothing to it, and
stays as it is. -/
namespace Handoff

variable {α E : Type}

/-- The values written from an index on, up to the first that is not written. -/
inductive Visible (written : Nat → Option α) : Nat → List α → Prop
  | hole {i : Nat} (empty : written i = none) : Visible written i []
  | cell {i : Nat} {v : α} {rest : List α} (found : written i = some v)
      (next : Visible written (i + 1) rest) : Visible written i (v :: rest)

namespace Visible

variable {written : Nat → Option α} {i bound : Nat} {values others : List α}

theorem unique (h : Visible written i values) (h' : Visible written i others) :
    values = others := by
  induction h generalizing others with
  | hole empty =>
      cases h' with
      | hole => rfl
      | cell found => simp [empty] at found
  | cell found next ih =>
      cases h' with
      | hole empty => simp [empty] at found
      | cell found' next' =>
          obtain rfl := Option.some.inj (found.symm.trans found')
          rw [ih next']

theorem exists_of (unwritten : ∀ k, bound ≤ k → written k = none) (le : i ≤ bound) :
    ∃ values, Visible written i values ∧ i + values.length ≤ bound := by
  generalize size : bound - i = left
  induction left generalizing i with
  | zero => exact ⟨[], .hole (unwritten i (by omega)), le⟩
  | succ left ih =>
      cases cell : written i with
      | none => exact ⟨[], .hole cell, le⟩
      | some v =>
          obtain ⟨rest, next, le'⟩ := ih (i := i + 1) (by omega) (by omega)
          refine ⟨v :: rest, .cell cell next, ?_⟩
          rw [List.length_cons]
          omega

end Visible

namespace Tape

variable {t : Tape α} {values : List α}

def handOutAll (t : Tape α) (values : List α) : Tape α :=
  { t with consumed := t.consumed + values.length, handed := t.handed ++ values }

theorem handOut_handOutAll (t : Tape α) (v : α) (rest : List α) :
    (t.handOut v).handOutAll rest = t.handOutAll (v :: rest) := by
  simp [handOut, handOutAll, Nat.add_assoc, Nat.add_comm 1]

theorem drainFrom_visible (consume : α → E → E) (memory : E) (done left : Nat)
    (visible : Visible t.written t.consumed values) :
    Loop.drainFrom (Act.onQueue relaxedPoll) (fun v => (Order.consumer consume v).run) done left
        ⟨t, memory⟩ =
      .ok (done + min left values.length)
        ⟨t.handOutAll (values.take left),
          (values.take left).foldl (fun memory v => consume v memory) memory⟩ := by
  induction left generalizing t values memory done with
  | zero => simp [Loop.drainFrom, handOutAll]
  | succ left ih =>
      have found := relaxedPoll_eq t
      cases visible with
      | hole empty =>
          rw [empty] at found
          rw [Loop.drainFrom, Act.bind_ok (Act.onQueue_ok (w := ⟨t, memory⟩) found)]
          simp [handOutAll]
      | @cell _ v rest cell next =>
          rw [cell] at found
          have count :
              done + 1 + min left rest.length = done + min (left + 1) (rest.length + 1) := by
            omega
          have onward := ih (t := t.handOut v) (consume v memory) (done + 1) next
          rw [Loop.drainFrom, Act.bind_ok (Act.onQueue_ok (w := ⟨t, memory⟩) found),
            List.take_succ_cons, List.length_cons, List.foldl_cons, ← handOut_handOutAll, ← count]
          exact onward

end Tape

namespace Chain

/-- What a drain of `count` elements comes to. `visible` is what could be seen before
it, `written` what was written at each index; `consume` is what the callback makes of
its memory, `run` how the drain ended. -/
structure Drained (q : Chain α) (written : Nat → Option α) (visible : List α)
    (consume : α → E → E) (memory : E) (count : Nat)
    (run : EStateM.Result Halt (World (Chain α) E) Nat) : Prop where
  answer : verdict run =
    (.ok count, (visible.take count).foldl (fun memory v => consume v memory) memory)
  consumer : (channelAfter run).consumerIndex = q.consumerIndex + 2 * count
  producer : (channelAfter run).producerIndex = q.producerIndex
  limit : (channelAfter run).limit = q.limit
  tail : (channelAfter run).tail = q.tail
  capacity : (channelAfter run).capacity = q.capacity
  discarded : (channelAfter run).discarded = q.discarded
  journal : (channelAfter run).journal = q.journal
  remaining : ∃ live links, (channelAfter run).Layout written live links

namespace Models

variable {q : Chain α} {t : Tape α} {visible : List α}

theorem drained (h : q.Models t) {drain : Client α E true .both Nat} {consume : α → E → E}
    {memory : E} {count : Nat} (le : count ≤ visible.length)
    (ran : drain.run ⟨t, memory⟩ = .ok count ⟨t.handOutAll (visible.take count),
      (visible.take count).foldl (fun memory v => consume v memory) memory⟩) :
    q.Drained t.written visible consume memory count (drain.run ⟨q, memory⟩) := by
  obtain ⟨answer, -, after, -⟩ := (tape α).agree h drain memory
  rw [ran] at answer after
  have taken : (visible.take count).length = count := List.length_take_of_le le
  constructor
  case answer => exact answer
  case consumer =>
    rw [after.consumer, h.consumer, ← Nat.mul_add]
    exact congrArg (fun n => 2 * (t.consumed + n)) taken
  case producer => exact after.producer.trans h.producer.symm
  case limit => exact after.limit.trans h.limit.symm
  case tail => exact after.tail.trans h.tail.symm
  case capacity => exact after.capacity_eq.trans h.capacity_eq.symm
  case discarded => exact after.discarded.trans h.discarded.symm
  case journal => exact Array.toList_inj.mp (after.journal.trans h.journal.symm)
  case remaining => exact ⟨_, _, after.layout⟩

theorem drain_visible (h : q.Models t) (seen : Visible t.written t.consumed visible)
    (consume : α → E → E) (memory : E) (limit : Nat) :
    q.Drained t.written visible consume memory (min limit visible.length)
      ((Client.drain rfl (Order.consumer consume) limit).run ⟨q, memory⟩) := by
  have ran := Tape.drainFrom_visible consume memory 0 limit seen
  rw [Nat.zero_add, List.take_eq_take_min] at ran
  exact h.drained (Nat.min_le_right _ _) ran

theorem drainAll_visible (h : q.Models t) (seen : Visible t.written t.consumed visible)
    (room : visible.length ≤ t.size.capacity) (consume : α → E → E) (memory : E) :
    q.Drained t.written visible consume memory visible.length
      ((Client.drainAll rfl (Order.consumer consume)).run ⟨q, memory⟩) := by
  have ran := Tape.drainFrom_visible consume memory 0 t.size.capacity seen
  rw [Nat.zero_add, List.take_eq_take_min, Nat.min_eq_right room] at ran
  exact h.drained (Nat.le_refl _) ran

end Models

/-- On whatever a client has left of a chain, with cells that will never be written, a
batch that was not finished or an index that stays marked, a drain takes what is written
from the consumer's index on, as far as its limit goes, and leaves the rest alone. A
limit of the capacity is no limit. -/
theorem drain_takes_visible {q₀ : Chain α} (made : q₀.Made) {β : Type}
    (client : Client α E true .both β) (env : E) :
    let q := channelAfter (client.run ⟨q₀, env⟩)
    let written := (channelAfter (client.run ⟨q₀.blank, env⟩)).written
    (∃ live links, q.Layout written live links) ∧ (∀ i, q.produced ≤ i → written i = none) ∧
      ∃ visible, Visible written q.consumed visible ∧
        visible.length ≤ q.capacity ∧ visible.length ≤ q.length ∧
        ∀ {F : Type} (consume : α → F → F) (memory : F),
          (∀ limit, q.Drained written visible consume memory (min limit visible.length)
            ((Client.drain rfl (Order.consumer consume) limit).run ⟨q, memory⟩)) ∧
          q.Drained written visible consume memory visible.length
            ((Client.drainAll rfl (Order.consumer consume)).run ⟨q, memory⟩) := by
  intro q written
  obtain ⟨-, -, models, -⟩ := (tape α).agree made.models client env
  have valid := models.valid
  obtain ⟨visible, seen, le⟩ := Visible.exists_of valid.unwritten valid.consumed_le
  have claimed := Nat.le_trans valid.claimed_le valid.limit_le
  have room := Nat.le_of_add_le_add_left (Nat.le_trans le claimed)
  refine ⟨⟨_, _, models.layout⟩, ?_, visible, ?_, ?_, ?_, ?_⟩
  · intro i hi
    rw [models.produced_eq] at hi
    exact valid.unwritten i hi
  · rw [models.consumed_eq]
    exact seen
  · rw [models.capacity_eq]
    exact room
  · rw [models.length_eq]
    exact Nat.le_sub_of_add_le' le
  · intro F consume memory
    exact ⟨models.drain_visible seen consume memory,
      models.drainAll_visible seen room consume memory⟩

/-- Four elements in two chunks, a cell whose supply panicked, one more element behind
it, and an index that a panic left marked. -/
theorem drain_takes_visible_to_hole :
    let q₀ : Chain Nat := ofSize ⟨4, 8⟩
    let broken : Client Nat Unit true .both (Ending Nat) := .attempt (.fill rfl .panic 1)
    let client : Client Nat Unit true .both (Ending Nat) :=
      .bind (.fill rfl (.done 1) 3) fun _ => .bind (.call rfl (.offer 2)) fun _ =>
      .bind broken fun _ => .bind (.call rfl (.offer 3)) fun _ => broken
    let q := channelAfter (client.run ⟨q₀, ()⟩)
    let drain : Client Nat (List Nat) true .both Nat :=
      .drain rfl (Order.consumer fun v seen => seen ++ [v]) 9
    q₀.Made ∧ q.length = 6 ∧ Index.linking q.producerIndex = true ∧
      verdict (drain.run ⟨q, []⟩) = (.ok 4, [1, 1, 1, 2]) := by
  intro q₀ broken client q drain
  have made : q₀.Made := .inl ⟨4, 8, rfl⟩
  obtain ⟨-, -, visible, seen, -, -, drained⟩ := drain_takes_visible made client ()
  have cells : Visible (channelAfter (client.run ⟨q₀.blank, ()⟩)).written q.consumed [1, 1, 1, 2] :=
    .cell (by decide +kernel) (.cell (by decide +kernel) (.cell (by decide +kernel)
      (.cell (by decide +kernel) (.hole (by decide +kernel)))))
  obtain rfl := seen.unique cells
  have length : q.length = 6 := by decide +kernel
  have marked : Index.linking q.producerIndex = true := by decide +kernel
  exact ⟨made, length, marked, ((drained fun v seen => seen ++ [v]) []).1 9 |>.answer⟩

end Chain
end Handoff
