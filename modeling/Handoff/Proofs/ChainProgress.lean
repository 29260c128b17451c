import Handoff.Proofs.ChainFillAll
import Handoff.Proofs.Closing
import Handoff.Proofs.Oversight
import Handoff.Proofs.SoloConsumer
import Handoff.Proofs.TapeOrders

/-! Calls on a chain that decide at once. A producer starts over, or the consumer waits,
only for what somebody else has begun: a chunk that is being linked, an element that is
claimed and not written. As long as no batch is under way and none was given up there is
neither, and a thread that moves alone comes straight to its answer. -/
namespace Handoff

variable {α β E : Type}

namespace Tape

variable {t : Tape α}

theorem Valid.exists_holds (valid : t.Valid) (unmarked : t.marked = false)
    (whole : ∀ i, t.consumed ≤ i → i < t.claimed → (t.written i).isSome = true) (memory : E) :
    ∃ l : Ledger α E, t.Holds l := by
  let cells := List.range' t.consumed (t.claimed - t.consumed)
  have all : cells.filter (fun i => (t.written i).isSome) = cells := by
    refine List.filter_eq_self.mpr fun i mem => ?_
    obtain ⟨lo, hi⟩ := List.mem_range'_1.mp mem
    exact whole i lo (by omega)
  have items : (cells.filterMap t.written).map some = cells.map t.written := by
    rw [map_some_filterMap, all]
  exact ⟨⟨cells.filterMap t.written, t.claimed, t.consumed, memory⟩, valid, unmarked, items, rfl,
    rfl⟩

theorem offer_returns (unmarked : t.marked = false) (v : α) :
    ∃ answer u, offer v t = .ok answer u := by
  rcases claim_cases t 1 with hx | hx | ⟨limit, -, -, hx⟩ | ⟨-, -, hx⟩
  · have marked := marked_of_spinning hx
    rw [unmarked] at marked
    cases marked
  · exact ⟨_, _, Act.bind_ok hx _⟩
  · exact ⟨_, _, Act.bind_ok hx _⟩
  · exact ⟨_, _, Act.bind_ok hx _⟩

end Tape

theorem Slot.ofCell_injective : Function.Injective (Slot.ofCell : Option α → Slot α) := by
  intro a b same
  cases a <;> cases b <;> simp_all [Slot.ofCell]

namespace Chain

open ChainMachine

/-- Nothing is being linked, and the elements that are claimed and not consumed are all
written. Every call returns, or halts in its own callback. A thread that makes it alone
does not wait: an offer decides on its first pass and a fill on its first or, if it raises
the limit, on its second; the consumer reads a slot that is not empty or has come up with
the producers. -/
structure Unhindered (q : Chain α) (written : Nat → Option α) : Prop where
  clear : Index.linking q.producerIndex = false
  laidOut : ∃ live links, q.Layout written live links
  whole : ∀ i, q.consumed ≤ i → i < q.produced → (written i).isSome = true
  offers : ∀ v, ∃ answer q' path, offer v q = .ok answer q' ∧ OnePass path ∧
    ProducesAlone (.loadLimit (.offer v)) q path (.idle (some (offered answer))) q'
  fills : ∀ wanted supply, ∃ count w path, fill (numbered supply).run wanted ⟨q, 0⟩ = .ok count w ∧
    OneOrTwoPasses path ∧
    ProducesAlone (.loadLimit (.fill wanted supply)) q path (.idle (some (.filled count))) w.queue
  supplied : ∀ {F : Type} (supply : Client α F true (Handles.both.lend true .producer) α)
    (wanted : Nat) (memory : F),
    let run := fill (Act.flagged supply.run) wanted ⟨q, (memory, false)⟩
    unframed run = fill supply.run wanted ⟨q, memory⟩ ∧
      Outcome (fun _ _ => True) (fun _ w => w.env.2 = true) run
  knows : KnowsAtOnce q
  polls : ∃ found q' path, poll q = .ok found q' ∧ NeverSpins path ∧
    ConsumesAlone (.loadIndex .poll) q path (.idle (some (.element found))) q'
  peeks : ∃ found q' path, peek q = .ok found q' ∧ NeverSpins path ∧
    ConsumesAlone (.loadIndex .peek) q path (.idle (some (.element found))) q'

namespace Models

variable {q : Chain α} {t u : Tape α}

theorem written_eq (h : q.Models t) (h' : q.Models u) {i : Nat} (lo : q.consumed ≤ i)
    (hi : i < q.produced) : u.written i = t.written i := by
  obtain ⟨-, linked⟩ := List.cons.inj (h.journal.symm.trans h'.journal)
  have size : t.size.chunkSize = u.size.chunkSize := h.chunkSize_eq.symm.trans h'.chunkSize_eq
  have links : t.links = u.links := by
    rw [size] at linked
    refine List.map_injective_iff.mpr (fun a b same => ?_) linked
    cases same
    rfl
  have live : liveChunks q t = liveChunks q u := by rw [liveChunks, liveChunks, links]
  obtain ⟨k, c, place, home⟩ := h.layout.housed i lo hi
  have here := h.layout.element k c i place lo hi home
  rw [live] at place
  rw [links] at home
  have there := h'.layout.element k c i place lo hi home
  exact Slot.ofCell_injective (Option.some.inj (there.symm.trans here))

theorem room_above (h : q.Models t) (unmarked : t.marked = false) {limit : Nat}
    (room : q.room = .below limit) : q.producerIndex + 2 ≤ limit := by
  rw [h.room_eq unmarked] at room
  rw [h.producer_open unmarked]
  cases below : t.room with
  | full | link =>
      rw [below] at room
      cases room
  | below half =>
      rw [below] at room
      cases room
      obtain ⟨-, lt, -, -⟩ := h.valid.room_below below
      omega

theorem unhindered (h : q.Models t) (unmarked : t.marked = false)
    (whole : ∀ i, q.consumed ≤ i → i < q.produced → (t.written i).isSome = true) :
    q.Unhindered t.written := by
  have clear : Index.linking q.producerIndex = false := h.linking_eq.trans unmarked
  have above : ∀ limit, q.room = .below limit → q.producerIndex + 2 ≤ limit :=
    fun _ => h.room_above unmarked
  rw [h.consumed_eq, h.produced_eq] at whole
  obtain ⟨l, holds⟩ := h.valid.exists_holds unmarked whole ()
  obtain ⟨_, -, polled, -⟩ := holds.poll
  obtain ⟨q₁, popped⟩ := (polled ▸ poll_tracks q t h).eq_ok
  obtain ⟨q₂, shown⟩ := (holds.peek.2 ▸ peek_tracks q t h).eq_ok
  obtain ⟨knows, way, never, consumes⟩ := consumes_poll popped
  obtain ⟨-, way', never', consumes'⟩ := consumes_peek shown
  refine
    { clear := clear
      laidOut := ⟨_, _, h.layout⟩
      whole := fun i lo hi => ?_
      offers := fun v => ?_
      fills := fun wanted supply => ?_
      supplied := fun {F} supply wanted memory => ⟨?_, ?_⟩
      knows := knows
      polls := ⟨_, q₁, way, popped, never, consumes⟩
      peeks := ⟨_, q₂, way', shown, never', consumes'⟩ }
  · rw [h.consumed_eq] at lo
    rw [h.produced_eq] at hi
    exact whole i lo hi
  · obtain ⟨answer, u, onTape⟩ := Tape.offer_returns unmarked v
    obtain ⟨q', ran⟩ := (onTape ▸ offer_tracks v q t h).eq_ok
    obtain ⟨path, one, produces⟩ := produces_offer clear above ran
    exact ⟨answer, q', path, ran, one, produces⟩
  · obtain ⟨u, onTape, -⟩ := Tape.fill_share h.valid unmarked (fun k => (supply k, k + 1)) wanted 0
    have agree := fill_tracks ((tape α).tracks (numbered supply)) wanted ⟨q, 0⟩ ⟨t, 0⟩ ⟨rfl, h⟩
    obtain ⟨w, ran⟩ := (onTape ▸ agree).eq_ok
    obtain ⟨path, passes, produces⟩ := produces_fill clear above ran
    exact ⟨_, w, path, ran, passes, produces⟩
  · exact fill_shadows (Shadows.flagged supply.run) wanted q memory false
  · have onTape := Tape.fill_within (t := t) (HaltsWithin.flagged supply.run) wanted (memory, false)
    have agree := fill_tracks ((tape α).tracks supply).flagged wanted ⟨q, (memory, false)⟩
      ⟨t, (memory, false)⟩ ⟨rfl, h⟩
    refine (agree.transfer onTape).mono (fun _ _ _ => trivial) ?_
    rintro e w ⟨v, ⟨⟨same, -⟩, -⟩, up | ⟨-, -, marked⟩⟩
    · rw [same]
      exact up
    · exact absurd (unmarked.symm.trans marked) Bool.false_ne_true

end Models

/-- A client has made calls on a chain, which are counted while their supplies are under
way. Wherever it is, if no supply is under way and none was given up, the chain answers
every call at once. -/
theorem never_spins {q₀ : Chain α} (made : q₀.Made) {β : Type} (client : Client α E true .both β)
    (env : E) :
    let run := client.overseen.run ⟨q₀, (env, 0)⟩
    let written := (channelAfter (client.run ⟨q₀.blank, env⟩)).written
    unframed run = client.run ⟨q₀, env⟩ ∧
      ((verdict run).2.2 = 0 → (channelAfter run).Unhindered written) := by
  intro run written
  have plain : unframed run = client.run ⟨q₀, env⟩ := client.overseen_shadows q₀ env 0
  refine ⟨plain, fun settled => ?_⟩
  have here : channelAfter run = channelAfter (client.run ⟨q₀, env⟩) := by
    rw [← plain]
    cases run <;> rfl
  obtain ⟨-, -, models, -⟩ := (tape α).agree made.models client env
  obtain ⟨same, -, models', -⟩ := (tape α).agree made.models client.overseen (env, 0)
  obtain ⟨unmarked, whole⟩ := Tape.settled_of_overseen client env (same ▸ settled)
  rw [← here] at models
  have found : (channelAfter run).Models _ := models'
  have open' : Index.linking (channelAfter run).producerIndex = false :=
    found.linking_eq.trans unmarked
  refine models.unhindered (models.unmarked open') fun i lo hi => ?_
  rw [← models.written_eq found lo hi]
  exact whole i (found.produced_eq ▸ hi)

/-- A batch whose supply offers values on its own, and a drain that is cut short while it
passes on the first. A batch whose supply panics stays counted, and the next peek waits. -/
theorem never_spins_within_drain :
    let q₀ : Chain Nat := ofSize ⟨4, 8⟩
    let supply : Client Nat Nat true (Handles.both.lend true .producer) Nat :=
      .bind (.call rfl (.offer 7)) fun _ => .own fun n => (n, n + 1)
    let client : Client Nat Nat true .both Nat :=
      .bind (.fill rfl supply 2) fun _ => .drain rfl (fun _ => .stop) 4
    let broken : Client Nat Nat true .both (Option Nat) :=
      .bind (.attempt (.fill rfl .panic 2)) fun _ => .call rfl .peek
    let run := client.overseen.run (Q := Chain Nat) ⟨q₀, (0, 0)⟩
    q₀.Made ∧ verdict run = (.error .stopped, (2, 0)) ∧ (channelAfter run).length = 3 ∧
      (channelAfter run).Unhindered (channelAfter (client.run ⟨q₀.blank, 0⟩)).written ∧
      verdict (broken.overseen.run (Q := Chain Nat) ⟨q₀, (0, 0)⟩) = (.error .spinning, (0, 1)) := by
  intro q₀ supply client broken run
  have made : q₀.Made := .inl ⟨4, 8, rfl⟩
  have ended : verdict run = (.error .stopped, (2, 0)) := by decide +kernel
  have settled : (verdict run).2.2 = 0 := congrArg (fun x => x.2.2) ended
  exact ⟨made, ended, by decide +kernel, (never_spins made client 0).2 settled, by decide +kernel⟩

end Chain
end Handoff
