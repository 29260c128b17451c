import Handoff.Proofs.ChainBatch
import Handoff.Proofs.ChainStreaming
import Handoff.Proofs.Returning
import Handoff.Proofs.Rounds

/-! Filling a chain to its capacity. Left alone, the rounds of batches take what there is
room for. Callbacks that drain the chain can make more of them, but each that does not end
the loop adds to a total that has to stay within the capacity. -/
namespace Handoff

variable {α E F : Type} {h : Handles}

namespace Tape

variable {t : Tape α}

theorem fill_le (valid : t.Valid) (supply : Act (World (Tape α) E) α) {wanted : Nat}
    (some : 0 < wanted) (e : E) :
    Outcome (fun count _ => count ≤ min wanted (t.size.chunkSize - 1)) (fun _ _ => True)
      (fill supply wanted ⟨t, e⟩) := by
  have two := valid.fits.two_le
  rcases claim_cases t wanted with hx | hx | ⟨limit, -, room, hx⟩ | ⟨-, -, hx⟩
  · rw [fill, Act.bind_error (Act.onQueue_error hx)]
    trivial
  · rw [fill, Act.bind_ok (Act.onQueue_ok hx)]
    exact Nat.zero_le _
  · rw [fill, Act.bind_ok (Act.onQueue_ok hx)]
    obtain ⟨-, -, -, window⟩ := valid.room_below room
    have consumed := valid.consumed_le
    have start := valid.start_le_claimed (Nat.le_refl t.links.length)
    refine (HaltsOnly.any _ _).bind fun _ w _ => ?_
    exact Nat.le_min.mpr ⟨by omega, by omega⟩
  · rw [fill, Act.bind_ok (Act.onQueue_ok hx)]
    refine (HaltsOnly.any _ _).bind fun _ w _ => ?_
    exact Nat.le_min.mpr ⟨some, by omega⟩

section Flagged

variable {supply : Act (World (Tape α) (E × Bool)) α}

theorem writeRun_within (hs : HaltsWithin supply) (i count : Nat) :
    HaltsWithin (writeRun supply i count) := by
  induction count generalizing i with
  | zero => exact .pure ()
  | succ count ih => exact hs.bind fun v w => ih (i + 1) ⟨w.queue.store i v, w.env⟩

theorem fill_within (hs : HaltsWithin supply) (wanted : Nat) (env : E × Bool) :
    Outcome (fun _ _ => True)
      (fun e w => w.env.2 = true ∨ e = .spinning ∧ w.queue = t ∧ t.marked = true)
      (fill supply wanted ⟨t, env⟩) := by
  rcases claim_cases t wanted with hx | hx | ⟨limit, -, -, hx⟩ | ⟨-, -, hx⟩
  · rw [fill, Act.bind_error (Act.onQueue_error hx)]
    exact .inr ⟨rfl, rfl, marked_of_spinning hx⟩
  · rw [fill, Act.bind_ok (Act.onQueue_ok hx)]
    trivial
  · rw [fill, Act.bind_ok (Act.onQueue_ok hx)]
    have within := (writeRun_within hs t.claimed (min limit (t.claimed + wanted) - t.claimed)).bind
      fun _ => .pure (min limit (t.claimed + wanted) - t.claimed)
    exact (within ⟨t.grant limit wanted, env⟩).mono (fun _ _ _ => trivial) fun _ _ up => .inl up
  · rw [fill, Act.bind_ok (Act.onQueue_ok hx)]
    have within : HaltsWithin (supply >>= fun v =>
        Act.onQueue (modify (·.link v)) >>= fun _ => pure 1) := hs.bind fun _ _ => trivial
    exact (within ⟨t.mark, env⟩).mono (fun _ _ _ => trivial) fun _ _ up => .inl up

end Flagged

theorem free_eq_add {u : Tape α} (valid : t.Valid) (valid' : u.Valid) (size : u.size = t.size)
    (consumed : u.consumed = t.consumed) {count : Nat} (claimed : u.claimed = t.claimed + count) :
    t.free = count + u.free := by
  have := valid.consumed_le
  have := valid'.claimed_le
  have := valid'.limit_le
  have capacity : u.size.capacity = t.size.capacity := congrArg ChainSize.capacity size
  simp only [free]
  omega

end Tape

namespace Chain

/-- The chain holds a tape of this size, on which no chunk is being linked if `bare`. -/
def Between (size : ChainSize) (bare : Prop) (q : Chain α) : Prop :=
  ∃ t, q.Models t ∧ t.size = size ∧ (bare → t.marked = false)

/-- One round. It can halt in its supply. Otherwise it halts only if a chunk is being
linked, and then somebody has stopped a panic. -/
theorem fill_round (supply : Client α E true h α) {size : ChainSize}
    {w : World (Chain α) (E × Bool)} (hw : w.queue.Between size supply.Unguarded) :
    Outcome
      (fun count v => v.queue.Between size supply.Unguarded ∧
        count ≤ min batch (size.chunkSize - 1) ∧ (count = 0 → v.queue.AtCapacity))
      (fun e v => v.env.2 = true ∨
        e = .spinning ∧ Index.linking v.queue.producerIndex = true ∧ ¬ supply.Unguarded)
      (fill (Act.flagged supply.run) batch w) := by
  obtain ⟨q, env⟩ := w
  obtain ⟨t, models, rfl, unmarked⟩ := hw
  have kept : Outcome (fun _ v => supply.Unguarded → v.queue.marked = false) (fun _ _ => True)
      (Tape.fill (Act.flagged supply.run) batch ⟨t, env⟩) := by
    by_cases bare : supply.Unguarded
    · have returns := Tape.fill_sameMark (Tape.client_sameMark supply bare).flagged batch ⟨t, env⟩
      exact returns.imp fun _ _ same _ => same.trans (unmarked bare)
    · exact (HaltsOnly.any _ _).imp fun _ _ _ guarded => absurd guarded bare
  -- All that is said of a batch on the tape, taken over to the chain.
  have onTape := (((Tape.fill_le models.valid (Act.flagged supply.run) (by decide) env).and
    (Tape.fill_outcome (v := ⟨t, env⟩) models.valid (Act.flagged supply.run) batch (by decide))).and
      kept).and (Tape.fill_within (HaltsWithin.flagged supply.run) batch env)
  have agree := fill_tracks ((tape α).tracks supply).flagged batch ⟨q, env⟩ ⟨t, env⟩ ⟨rfl, models⟩
  refine (agree.transfer onTape).mono ?_ ?_
  · rintro count v ⟨v', ⟨⟨-, models'⟩, later⟩, ⟨⟨le, full⟩, unmarked'⟩, -⟩
    exact ⟨⟨v'.queue, models', later.size, unmarked'⟩, le,
      fun none => models'.length_eq_capacity_iff.mpr (full none)⟩
  · rintro e v ⟨v', ⟨⟨same, models'⟩, -⟩, -, halted⟩
    rw [same]
    refine halted.imp_right ?_
    rintro ⟨spins, rfl, marked⟩
    refine ⟨spins, models'.linking_eq.trans marked, fun bare => ?_⟩
    exact absurd (unmarked bare) (by simp [marked])

theorem fill_own (supply : E → α × E) {q : Chain α} {t : Tape α} (models : q.Models t)
    (unmarked : t.marked = false) (memory : E) :
    ∃ q' u, fill (Client.own supply : Client α E true .both α).run batch ⟨q, memory⟩ =
        .ok (t.share batch) ⟨q', (produce supply (t.share batch) memory).2⟩ ∧
      q'.Models u ∧ u.marked = false ∧ u.size = t.size ∧ t.free = t.share batch + u.free := by
  obtain ⟨u, onTape, claimed, unmarked'⟩ :=
    Tape.fill_share models.valid unmarked supply batch memory
  have tracks := fill_tracks ((tape α).tracks (.own supply : Client α E true .both α)) batch
  have quiet : KeepsConsumer (.own supply : Client α E true .both α).run := fun _ => rfl
  obtain ⟨⟨q', _⟩, ran, ⟨⟨rfl, models'⟩, later⟩, side⟩ :=
    tracks.of_ok (keepsConsumer_fill quiet batch) (s := ⟨q, memory⟩) ⟨rfl, models⟩ onTape
  have consumed : u.consumed = t.consumed := by
    have index : q'.consumerIndex = q.consumerIndex := congrArg Prod.snd side
    have doubled : 2 * u.consumed = 2 * t.consumed :=
      (Models.consumer models').symm.trans (index.trans models.consumer)
    omega
  exact ⟨q', u, ran, models', unmarked', later.size,
    Tape.free_eq_add models.valid (Models.valid models') later.size consumed claimed⟩

theorem fillRounds_own (supply : E → α × E) {capacity rounds : Nat} {q : Chain α} {t : Tape α}
    (models : q.Models t) (unmarked : t.marked = false) {total : Nat}
    (enough : t.free < rounds) (within : total + t.free ≤ capacity) (memory : E) :
    ∃ q', Loop.fillRounds (fill (Client.own supply : Client α E true .both α).run batch) capacity
        rounds total ⟨q, memory⟩ = .ok (total + t.free) ⟨q', (produce supply t.free memory).2⟩ ∧
      q'.AtCapacity := by
  induction rounds generalizing q t total memory with
  | zero => exact absurd enough (Nat.not_lt_zero _)
  | succ rounds ih =>
      obtain ⟨q', u, ran, models', unmarked', size, left⟩ :=
        fill_own supply models unmarked memory
      have none_iff : t.share batch = 0 ↔ batch = 0 ∨ t.claimed = t.consumed + t.size.capacity :=
        Tape.share_eq_zero_iff models.valid fun _ => by decide
      rw [Loop.fillRounds, Act.bind_ok ran]
      by_cases none : t.share batch = 0
      · have free : t.free = 0 := (Tape.free_eq_zero_iff models.valid).mpr
          ((none_iff.mp none).resolve_left (by decide))
        have full : u.free = 0 := by omega
        rw [if_pos none, none, free]
        exact ⟨q', rfl, models'.length_eq_capacity_iff.mpr
          ((Tape.free_eq_zero_iff models'.valid).mp full)⟩
      · -- The share is within the room, so the total cannot pass the capacity here.
        have after : total + t.free = total + t.share batch + u.free := by
          rw [left, Nat.add_assoc]
        have within' : total + t.share batch + u.free ≤ capacity := by omega
        obtain ⟨q'', ran', full⟩ := ih models' unmarked' (by omega) within'
          (produce supply (t.share batch) memory).2
        rw [if_neg none, if_neg (by omega), ran', after, left, produce_add]
        exact ⟨q'', rfl, full⟩

/-- Both ways to fill a chain while no chunk is being linked. A supply that makes no calls
is called once for each element that there is room for. Any other is watched through the
rounds: it does what `fillAll` does, for every allowance of rounds that covers the
capacity, and the last round has found the chain full or gone past its capacity. The
rounds halt only in a call of the supply, or at a mark that the supply has left there by
stopping a panic. -/
theorem fillAll_fills {q₀ : Chain α} (made : q₀.Made) {β : Type}
    (before : Client α E true .both β) (env : E)
    (clear : Index.linking (channelAfter (before.run ⟨q₀, env⟩)).producerIndex = false) :
    let q := channelAfter (before.run ⟨q₀, env⟩)
    (∀ (supply : F → α × F) (memory : F),
      let filling : Client α F true .both Nat := .fillAll rfl (.own supply)
      let run := filling.run ⟨q, memory⟩
      let room := q.capacity - q.length
      verdict run = (.ok room, (produce supply room memory).2) ∧ (channelAfter run).AtCapacity) ∧
    ∀ (supply : Client α F true (Handles.both.lend true .producer) α) (memory : F)
      (allowance : Nat), q.capacity < allowance →
      let filling : Client α F true .both Nat := .fillAll rfl supply
      let run := Loop.fillRounds (Act.listed (fill (Act.flagged supply.run) batch)) q.capacity
        allowance 0 ⟨q, ((memory, false), [])⟩
      unframed (unframed run) = filling.run ⟨q, memory⟩ ∧
        Outcome
          (fun total w => FilledUp q.capacity (min batch (q.chunkSize - 1)) w.queue.AtCapacity
            w.env.2 total)
          (fun e w => w.env.2.length ≤ q.capacity ∧ (w.env.1.2 = true ∨
            e = .spinning ∧ Index.linking w.queue.producerIndex = true ∧ ¬ supply.Unguarded))
          run := by
  intro q
  obtain ⟨t, models⟩ : ∃ t, q.Models t := reached made before env
  have unmarked := models.unmarked clear
  have capacity : q.capacity = t.size.capacity := Models.capacity_eq models
  constructor
  · intro supply memory filling run room
    have free : room = t.free := by
      rw [Tape.free, ← capacity, ← Models.length_eq models]
    have rounds : t.free < q.capacity + 1 := free ▸ Nat.lt_succ_of_le (Nat.sub_le _ _)
    have within : 0 + t.free ≤ q.capacity := by omega
    obtain ⟨q', ran, full⟩ := fillRounds_own supply models unmarked rounds within memory
    have ran' : run = .ok (0 + t.free) ⟨q', (produce supply t.free memory).2⟩ := ran
    rw [ran', free, Nat.zero_add]
    exact ⟨rfl, full⟩
  · intro supply memory allowance enough filling run
    constructor
    · have listed := (Shadows.listed (fill (Act.flagged supply.run) batch)).fillRounds q.capacity
        allowance 0 q (memory, false) []
      have flagged := (fill_shadows (Shadows.flagged supply.run) batch).fillRounds q.capacity
        allowance 0 q memory false
      have same := fillRounds_allowance (fill supply.run batch) allowance (q.capacity + 1)
        (by omega) (by omega) (Nat.zero_le q.capacity)
      rw [listed, flagged, same]
      rfl
    · have start : q.Between t.size supply.Unguarded := ⟨t, models, rfl, fun _ => unmarked⟩
      have outcome : Outcome _ _ run :=
        fillRounds_listed (fun w hw => fill_round supply hw) start .nil enough
      rw [Models.chunkSize_eq models]
      exact outcome.mono (fun _ _ filled => filled) fun _ _ halted => ⟨halted.1.length_le, halted.2⟩

/-- A chain with room for seven more. A supply that polls before each value keeps it from
filling up, and the rounds end as soon as they have added more than eight. -/
theorem fillAll_fills_while_drained :
    let q₀ : Chain Nat := ofSize ⟨4, 8⟩
    let before : Client Nat Nat true .both (Except (Full Nat) Unit) := .call rfl (.offer 9)
    let supply : Client Nat Nat true (Handles.both.lend true .producer) Nat :=
      .bind (.call rfl .relaxedPoll) fun _ => .own fun n => (n, n + 1)
    let q := channelAfter (before.run ⟨q₀, 0⟩)
    let run := Loop.fillRounds (Act.listed (fill (Act.flagged supply.run) batch)) q.capacity 9 0
      ⟨q, ((0, false), [])⟩
    let alone : Client Nat Nat true .both Nat := .fillAll rfl (.own fun n => (n, n + 1))
    q₀.Made ∧ Index.linking q.producerIndex = false ∧ q.capacity < 9 ∧
      verdict (alone.run ⟨q, 0⟩) = (.ok 7, 7) ∧
      FilledUp 8 3 (channelAfter run).AtCapacity [2, 2, 2, 2, 2] 10 := by
  intro q₀ before supply q run alone
  have made : q₀.Made := .inl ⟨4, 8, rfl⟩
  have clear : Index.linking q.producerIndex = false := by decide +kernel
  have eight : q.capacity = 8 := by decide +kernel
  have four : q.chunkSize = 4 := by decide +kernel
  have one : q.length = 1 := by decide +kernel
  have below : q.capacity < 9 := by omega
  obtain ⟨left, watched⟩ := fillAll_fills made before 0 clear (F := Nat)
  have answer := (left (fun n => (n, n + 1)) 0).1
  have ended := (watched supply 0 9 below).2
  have ran : verdict run = (.ok 10, ((10, false), [2, 2, 2, 2, 2])) := by decide +kernel
  refine ⟨made, clear, below, ?_, ?_⟩
  · rw [eight, one] at answer
    exact answer
  · change Outcome _ _ run at ended
    rw [eight, four] at ended
    clear_value run
    cases run with
    | error e w => cases ran
    | ok total w =>
        obtain ⟨q', env⟩ := w
        cases ran
        exact ended

end Chain
end Handoff
