import Handoff.Proofs.ChainLayout
import Handoff.Proofs.Gauges

/-! The capacity of a chain. Three ways of moving the producer's limit, in each of which
it is compared with an index of the consumer that goes on moving, come to one law:
whatever is claimed and not consumed is within the capacity at each moment, and an offer
is refused only if all of it is claimed. -/
namespace Handoff

variable {α E : Type}

namespace Tape

variable {t : Tape α}

theorem offer_stores (h : t.Valid) (unmarked : t.marked = false) (room : t.room ≠ .full) (v : α) :
    ∃ u, offer v t = .ok (.ok ()) u ∧ u.claimed = t.claimed + 1 ∧ u.consumed = t.consumed ∧
      u.marked = false ∧ u.written t.claimed = some v ∧ u.start u.links.length ≤ t.claimed := by
  have claim := claim_open unmarked 1
  cases hr : t.room with
  | full => exact absurd hr room
  | below limit =>
      rw [hr] at claim
      obtain ⟨-, below, -, -⟩ := h.room_below hr
      refine ⟨(t.grant limit 1).store t.claimed v, Act.bind_ok claim _, ?_, rfl, unmarked, ?_, ?_⟩
      · simp only [store, grant]
        omega
      · simp only [store, if_true]
      · exact h.start_le_claimed (Nat.le_refl _)
  | link =>
      rw [hr] at claim
      refine ⟨t.mark.link v, Act.bind_ok claim _, rfl, rfl, rfl, ?_, ?_⟩
      · simp only [link, store, mark, if_true]
      · have links : (t.mark.link v).links = t.links ++ [t.claimed] := rfl
        rw [links, List.length_append]
        exact Nat.le_of_eq (start_succ (by rw [links, List.getElem?_concat_length]))

theorem room_full_iff (h : t.Valid) :
    t.room = .full ↔ t.claimed = t.consumed + t.size.capacity := by
  refine ⟨h.room_full, fun all => ?_⟩
  cases hr : t.room with
  | full => rfl
  | below limit =>
      obtain ⟨-, below, within, -⟩ := h.room_below hr
      omega
  | link =>
      obtain ⟨-, -, free⟩ := Valid.room_link hr
      simp only [Tape.free] at free
      omega

end Tape

namespace Chain

def gauges (q : Chain α) : Gauges :=
  { producer := q.producerIndex
    consumer := q.consumerIndex
    limit := q.limit
    length := q.length
    capacity := q.capacity
    isEmpty := q.isEmpty }

/-- What an offer does. It is refused, and nothing at all is changed, if the length is
the capacity. Else the value is stored at the producer's index, in the last chunk. -/
structure OfferLaw (q : Chain α) : Prop where
  refused : q.length = q.capacity → ∀ v, offer v q = .ok (.error ⟨v⟩) q
  accepted : q.length ≠ q.capacity → ∀ v, ∃ q', offer v q = .ok (.ok ()) q' ∧
    q'.producerIndex = q.producerIndex + 2 ∧
    q'.store.slot? q'.tail.chunk (q.produced % q.chunkSize) = some (.value v)

namespace Models

variable {q : Chain α} {t : Tape α}

theorem gauges_eq (h : q.Models t) : q.gauges = t.gauges := by
  simp only [gauges, Tape.gauges, h.producer, h.consumer, h.limit, h.length_eq, h.capacity_eq,
    h.isEmpty_eq]

theorem last_slot (h : q.Models t) {i : Nat} {v : α} (written : t.written i = some v)
    (start : t.start t.links.length ≤ i) (lo : t.consumed ≤ i) :
    q.store.slot? q.tail.chunk (i % t.size.chunkSize) = some (.value v) := by
  have next : ∀ r, t.links[t.links.length]? = some r → i < r := Links.lt_next_last i
  have window := h.valid.lt_window (Nat.le_refl _) (h.valid.lt_claimed_of_written written) next
  rw [h.tail, h.slot_eq h.head_le (Nat.le_refl _) (Nat.max_le.mpr ⟨lo, start⟩) window,
    Tape.content_of_home next, written, Slot.ofCell_some]

theorem offerLaw (h : q.Models t) (unmarked : t.marked = false) : q.OfferLaw := by
  have full := Tape.room_full_iff h.valid
  rw [← h.length_eq_capacity_iff] at full
  constructor
  case refused =>
    intro all v
    have claim := h.claim_open unmarked 1
    rw [full.mpr all] at claim
    exact Act.bind_ok claim _
  case accepted =>
    intro some v
    obtain ⟨u, onTape, claimed, consumed, unmarked', written, start⟩ :=
      Tape.offer_stores h.valid unmarked (fun room => some (full.mp room)) v
    have agree := offer_tracks v q t h
    rw [onTape] at agree
    generalize offer v q = x at agree ⊢
    cases agree with
    | ok lands =>
        obtain ⟨models, later⟩ := lands
        refine ⟨_, rfl, ?_, ?_⟩
        · rw [models.producer_open unmarked', h.producer_open unmarked, claimed]
          rfl
        · have lo : u.consumed ≤ t.claimed := consumed ▸ h.valid.consumed_le
          rw [h.produced_eq, h.chunkSize_eq, ← later.size]
          exact models.last_slot written start lo

end Models

/-- At every moment of a client's run the counters are sound, and none is ever lower
than at a moment before. Where no chunk is being linked, the chain takes an offer
unless its length is its capacity, however much of that is holes. The client that is
watched does what it does unwatched. -/
theorem keeps_accounts {q₀ : Chain α} (made : q₀.Made) {β : Type}
    (client : Client α E true .both β) (env : E) :
    let run := client.run ⟨q₀, env⟩
    let watched := client.watched gauges ⟨q₀, (env, [])⟩
    let q := channelAfter run
    let moments := (verdict watched).2.2 ++ [q.gauges]
    (∀ g ∈ moments, g.Sound) ∧ moments.Pairwise Gauges.Below ∧
      (Index.linking q.producerIndex = false → q.OfferLaw) ∧
      (verdict watched).1 = (verdict run).1 ∧ (verdict watched).2.1 = (verdict run).2 := by
  intro run watched q moments
  obtain ⟨same, -, models, -⟩ := (tape α).agree made.models client env
  have seen := client.watched_follows (tape α) (fun _ _ h => h.gauges_eq) ⟨q₀, (env, [])⟩
    ⟨q₀.blank, (env, [])⟩ ⟨rfl, made.models⟩
  have nothing : Gauges.Rising [] q₀.blank.gauges := List.pairwise_singleton _ _
  have kept := Tape.keeps_watched client ⟨q₀.blank, env⟩ ⟨q₀.blank, (env, [])⟩
    ⟨made.models.valid, rfl, nothing, fun _ h => absurd h List.not_mem_nil⟩
  obtain ⟨answer, ⟨log, -⟩, -⟩ := seen.ends
  obtain ⟨answer', beside, -⟩ := kept.ends
  obtain ⟨-, valid, memory, rising, sound⟩ := beside.holds
  rw [← log] at memory rising sound
  have last : q.gauges = (channelAfter (client.run ⟨q₀.blank, env⟩)).gauges :=
    Models.gauges_eq models
  have plain := congrArg Prod.fst same
  rw [← last] at rising
  refine ⟨?_, rising, fun clear => ?_, ?_, ?_⟩
  · intro g hg
    rcases List.mem_append.mp hg with old | new
    · exact sound g old
    · rw [List.mem_singleton.mp new, last]
      exact valid.sound
  · exact Models.offerLaw models (Models.unmarked models clear)
  · exact answer.trans (answer'.symm.trans plain.symm)
  · exact memory.trans (congrArg Prod.snd same).symm

/-- A batch of three that panics after its first value leaves two holes, and they count:
once the chain is filled up behind them, six values are in and the seventh is refused. -/
theorem keeps_accounts_with_holes :
    let q₀ : Chain Nat := ofSize ⟨4, 8⟩
    let client : Client Nat Nat true .both Nat :=
      .bind (.attempt (.fill rfl (.bind (.own fun n => (n, n + 1)) fun n =>
        if n = 0 then .done 5 else .panic) 3)) fun _ => .fillAll rfl (.done 6)
    let q := channelAfter (client.run ⟨q₀, 0⟩)
    q₀.Made ∧ verdict (client.run ⟨q₀, 0⟩) = (.ok 5, 2) ∧ q.length = q.capacity ∧
      Index.linking q.producerIndex = false ∧ offer 7 q = .ok (.error ⟨7⟩) q := by
  intro q₀ client q
  have made : q₀.Made := .inl ⟨4, 8, rfl⟩
  have clear : Index.linking q.producerIndex = false := by decide +kernel
  have full : q.length = q.capacity := by decide +kernel
  obtain ⟨-, -, law, -, -⟩ := keeps_accounts made client 0
  exact ⟨made, by decide +kernel, full, clear, (law clear).refused full 7⟩

end Chain
end Handoff
