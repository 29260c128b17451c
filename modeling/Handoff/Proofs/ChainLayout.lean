import Handoff.Proofs.ChainTape

/-! The chunks of a chain. What is said here of a chain and the values written to it
mentions no tape: which chunks are live, how they follow each other, and what stands
in every one of their slots. -/
namespace Handoff.Chain

variable {α E : Type}

/-- Index `i` has its place in the chunk that is `k` chunks behind the consumer's: of
all live chunks that begin at `i` or before, that is the last. -/
structure Home (links : List Nat) (k i : Nat) : Prop where
  begun : ∀ j r, j < k → links[j]? = some r → r ≤ i
  below : ∀ r, links[k]? = some r → i < r

theorem Home.exists_of (links : List Nat) (i : Nat) : ∃ k, k ≤ links.length ∧ Home links k i := by
  induction links with
  | nil =>
      refine ⟨0, Nat.le_refl _, fun _ _ h => absurd h (Nat.not_lt_zero _), fun _ h => ?_⟩
      cases h
  | cons r rest ih =>
      by_cases first : i < r
      · refine ⟨0, Nat.zero_le _, fun _ _ h => absurd h (Nat.not_lt_zero _), fun r' h => ?_⟩
        cases h
        exact first
      · obtain ⟨k, le, home⟩ := ih
        refine ⟨k + 1, Nat.succ_le_succ le, fun j r' hj hr => ?_, fun r' hr => home.below r' hr⟩
        cases j with
        | zero =>
            cases hr
            exact Nat.le_of_not_lt first
        | succ j => exact home.begun j r' (Nat.lt_of_succ_lt_succ hj) hr

theorem lt_of_getElem? {l : List Nat} (sorted : l.Pairwise (· < ·)) {i j a b : Nat}
    (ha : l[i]? = some a) (hb : l[j]? = some b) (lt : i < j) : a < b := by
  obtain ⟨hi, rfl⟩ := List.getElem?_eq_some_iff.mp ha
  obtain ⟨hj, rfl⟩ := List.getElem?_eq_some_iff.mp hb
  exact List.pairwise_iff_getElem.mp sorted i j hi hj lt

/-- The chunks `live` from the consumer's to the producers', the indices `links` at
which all of them but the first were linked, and the slots of each: the elements that
are claimed and not consumed, as far as they are written, and at the end of each chunk
but the last a jump. -/
structure Layout (q : Chain α) (written : Nat → Option α) (live links : List Nat) : Prop where
  first : live.head? = some q.head.chunk
  last : live.getLast? = some q.tail.chunk
  nodup : live.Nodup
  complete : ∀ c, (q.store.chunk? c).isSome = true ↔ c ∈ live
  chained : ∀ k c : Nat, live[k]? = some c → q.store.next? c = live[k + 1]?
  sized : ∀ c ch, q.store.chunk? c = some ch → ch.size = q.chunkSize
  length : live.length = links.length + 1
  ordered : links.Pairwise (· < ·)
  reported : ∃ before, q.journal.toList = before ++ links.map (.chunkLinked · q.chunkSize)
  housed : ∀ i, q.consumed ≤ i → i < q.produced → ∃ k c, live[k]? = some c ∧ Home links k i
  element : ∀ k c i : Nat, live[k]? = some c → q.consumed ≤ i → i < q.produced → Home links k i →
    q.store.slot? c (i % q.chunkSize) = some (.ofCell (written i))
  jump : ∀ k c r : Nat, live[k]? = some c → links[k]? = some r →
    q.store.slot? c (r % q.chunkSize) = some .jump
  behind : ∀ k c r : Nat, live[k + 1]? = some c → links[k]? = some r →
    ∃ v, q.store.slot? c (r % q.chunkSize) = some (.value v)
  vacant : ∀ k c s : Nat, live[k]? = some c → s < q.chunkSize →
    (∀ i, q.consumed ≤ i → i < q.produced → Home links k i → i % q.chunkSize ≠ s) →
    (∀ r : Nat, links[k]? = some r → r % q.chunkSize ≠ s) → q.store.slot? c s = some .empty

namespace Models

variable {q : Chain α} {t : Tape α}

def liveChunks (q : Chain α) (t : Tape α) : List Nat :=
  List.range' q.head.chunk (t.links.length + 1 - q.head.chunk)

theorem live_get {k c : Nat} (hk : (liveChunks q t)[k]? = some c) :
    c = q.head.chunk + k ∧ c ≤ t.links.length := by
  obtain ⟨lt, eq⟩ := List.getElem?_eq_some_iff.mp hk
  rw [liveChunks, List.length_range'] at lt
  simp only [liveChunks, List.getElem_range', Nat.one_mul] at eq
  omega

theorem get_live {k : Nat} (hk : q.head.chunk + k ≤ t.links.length) :
    (liveChunks q t)[k]? = some (q.head.chunk + k) := by
  rw [liveChunks, List.getElem?_range' (by omega), Nat.one_mul]

theorem chunkSize_eq (h : q.Models t) : q.chunkSize = t.size.chunkSize := by
  have two := h.valid.fits.two_le
  rw [chunkSize, h.tail, Index.sizeOfMask_maskOf (by omega)]

theorem base_le_of_home (h : q.Models t) {k i : Nat} (hc : q.head.chunk + k ≤ t.links.length)
    (home : Home (t.links.drop q.head.chunk) k i) (lo : t.consumed ≤ i) :
    t.base (q.head.chunk + k) ≤ i := by
  refine Nat.max_le.mpr ⟨lo, ?_⟩
  cases k with
  | zero => exact Nat.le_trans h.head_start lo
  | succ k =>
      have hr : t.links[q.head.chunk + k]? = some t.links[q.head.chunk + k] :=
        List.getElem?_eq_getElem (by omega)
      rw [← Nat.add_assoc, Tape.start_succ hr]
      exact home.begun k _ (Nat.lt_succ_self k) (by rw [List.getElem?_drop, hr])

theorem slot_eq (h : q.Models t) {c i : Nat} (lo : q.head.chunk ≤ c) (hi : c ≤ t.links.length)
    (hlo : t.base c ≤ i) (hhi : i < t.base c + t.size.chunkSize) :
    q.store.slot? c (i % t.size.chunkSize) = some (t.content c i) := by
  obtain ⟨ch, hch⟩ := h.live c lo hi
  rw [Arena.slot?_eq hch.found, hch.shown.slot i hlo hhi]

theorem home_next {k i : Nat} (home : Home (t.links.drop q.head.chunk) k i) :
    ∀ r, t.links[q.head.chunk + k]? = some r → i < r := by
  intro r hr
  exact home.below r (by rw [List.getElem?_drop, hr])

theorem element_slot (h : q.Models t) {k i : Nat} (hc : q.head.chunk + k ≤ t.links.length)
    (home : Home (t.links.drop q.head.chunk) k i) (lo : t.consumed ≤ i) (hi : i < t.claimed) :
    q.store.slot? (q.head.chunk + k) (i % t.size.chunkSize) = some (.ofCell (t.written i)) := by
  have next := home_next home
  rw [h.slot_eq (Nat.le_add_right _ _) hc (h.base_le_of_home hc home lo)
    (h.valid.lt_window hc hi next), Tape.content_of_home next]

theorem base_le_link (h : q.Models t) {c r : Nat} (lo : q.head.chunk ≤ c)
    (hr : t.links[c]? = some r) : t.base c ≤ r := by
  obtain ⟨lt, -⟩ := List.getElem?_eq_some_iff.mp hr
  have begun := h.valid.start_lt (Nat.lt_succ_self c) lt
  rw [Tape.start_succ hr] at begun
  refine Nat.max_le.mpr ⟨?_, Nat.le_of_lt begun⟩
  rcases Nat.lt_or_eq_of_le lo with after | rfl
  · have hhead : t.links[q.head.chunk]? = some t.links[q.head.chunk] :=
      List.getElem?_eq_getElem (Nat.lt_trans after lt)
    have first := h.head_next _ hhead
    have later : t.start (q.head.chunk + 1) ≤ t.start c := by
      rcases Nat.lt_or_eq_of_le (Nat.succ_le_of_lt after) with after' | eq
      · exact Nat.le_of_lt (h.valid.start_lt after' (Nat.le_of_lt lt))
      · exact Nat.le_of_eq (congrArg t.start eq)
    rw [Tape.start_succ hhead] at later
    omega
  · exact h.head_next r hr

theorem jump_slot (h : q.Models t) {c r : Nat} (lo : q.head.chunk ≤ c)
    (hr : t.links[c]? = some r) :
    q.store.slot? c (r % t.size.chunkSize) = some .jump := by
  obtain ⟨lt, -⟩ := List.getElem?_eq_some_iff.mp hr
  rw [h.slot_eq lo (Nat.le_of_lt lt) (h.base_le_link lo hr) (h.valid.gap c r hr)]
  simp [Tape.content, hr]

theorem begun_of_base (h : q.Models t) {k i : Nat} (hc : q.head.chunk + k ≤ t.links.length)
    (lo : t.base (q.head.chunk + k) ≤ i) :
    ∀ j r, j < k → (t.links.drop q.head.chunk)[j]? = some r → r ≤ i := by
  intro j r hj hr
  rw [List.getElem?_drop] at hr
  have start : t.start (q.head.chunk + j + 1) ≤ t.start (q.head.chunk + k) := by
    rcases Nat.lt_or_eq_of_le (Nat.succ_le_of_lt hj) with lt | rfl
    · exact Nat.le_of_lt (h.valid.start_lt (Nat.add_lt_add_left lt _) hc)
    · exact Nat.le_refl _
  rw [Tape.start_succ hr] at start
  exact Nat.le_trans start (Nat.le_trans (Nat.le_max_right _ _) lo)

theorem vacant_slot (h : q.Models t) {k s : Nat} (hc : q.head.chunk + k ≤ t.links.length)
    (hs : s < t.size.chunkSize)
    (noElement : ∀ i, t.consumed ≤ i → i < t.claimed →
      Home (t.links.drop q.head.chunk) k i → i % t.size.chunkSize ≠ s)
    (noJump : ∀ r, t.links[q.head.chunk + k]? = some r → r % t.size.chunkSize ≠ s) :
    q.store.slot? (q.head.chunk + k) s = some .empty := by
  obtain ⟨i, lo, hi, rfl⟩ := Index.exists_mod_eq (t.base (q.head.chunk + k)) hs
  have hlo : t.consumed ≤ i := Nat.le_trans (Nat.le_max_left _ _) lo
  have begun := h.begun_of_base hc lo
  have unclaimed : (∀ r, t.links[q.head.chunk + k]? = some r → i < r) → t.written i = none := by
    intro next
    refine h.valid.unwritten i (Nat.le_of_not_lt fun lt => ?_)
    refine noElement i hlo lt ⟨begun, fun r hr => ?_⟩ rfl
    rw [List.getElem?_drop] at hr
    exact next r hr
  rw [h.slot_eq (Nat.le_add_right _ _) hc lo hi, Tape.content]
  cases hr : t.links[q.head.chunk + k]? with
  | none =>
      rw [hr] at unclaimed
      simp [unclaimed]
  | some r =>
      rw [hr] at unclaimed
      by_cases below : i < r
      · simp [below, unclaimed]
      · have apart : i ≠ r := by
          rintro rfl
          exact noJump i hr rfl
        simp only [below, apart, if_false]

theorem mem_live (h : q.Models t) {c : Nat} :
    c ∈ liveChunks q t ↔ q.head.chunk ≤ c ∧ c ≤ t.links.length := by
  have hhead := h.head_le
  rw [liveChunks, List.mem_range'_1]
  omega

theorem isSome_chunk_iff (h : q.Models t) (c : Nat) :
    (q.store.chunk? c).isSome = true ↔ q.head.chunk ≤ c ∧ c ≤ t.links.length := by
  by_cases freed : c < q.head.chunk
  · rw [h.freed c freed]
    simp only [Option.isSome_none, Bool.false_eq_true, false_iff]
    omega
  · by_cases created : c ≤ t.links.length
    · obtain ⟨ch, hch⟩ := h.live c (Nat.le_of_not_lt freed) created
      rw [hch.found]
      simp only [Option.isSome_some, true_iff]
      omega
    · rw [Arena.chunk?_of_le (by rw [h.created]; omega)]
      simp only [Option.isSome_none, Bool.false_eq_true, false_iff]
      omega

theorem size_of_found (h : q.Models t) {c : Nat} {ch : Chunk α}
    (found : q.store.chunk? c = some ch) : ch.size = t.size.chunkSize := by
  obtain ⟨lo, hi⟩ := (h.isSome_chunk_iff c).mp (by rw [found]; rfl)
  obtain ⟨ch', hch'⟩ := h.live c lo hi
  rw [hch'.found] at found
  cases found
  exact hch'.shown.size

theorem next_live (h : q.Models t) {k : Nat} (hc : q.head.chunk + k ≤ t.links.length) :
    q.store.next? (q.head.chunk + k) = (liveChunks q t)[k + 1]? := by
  obtain ⟨ch, hch⟩ := h.live _ (Nat.le_add_right _ _) hc
  rw [Arena.next?, hch.found, Option.bind_some, hch.next]
  by_cases more : q.head.chunk + k < t.links.length
  · rw [if_pos more, get_live (by omega), Nat.add_assoc]
  · rw [if_neg more, List.getElem?_eq_none]
    rw [liveChunks, List.length_range']
    omega

theorem behind_slot (h : q.Models t) {k r : Nat} (hc : q.head.chunk + (k + 1) ≤ t.links.length)
    (hr : (t.links.drop q.head.chunk)[k]? = some r) :
    ∃ v, q.store.slot? (q.head.chunk + (k + 1)) (r % t.size.chunkSize) = some (.value v) := by
  obtain ⟨claimed, written⟩ := h.valid.linked r (List.mem_of_mem_drop (List.mem_of_getElem? hr))
  obtain ⟨v, hv⟩ := Option.isSome_iff_exists.mp written
  have sorted : (t.links.drop q.head.chunk).Pairwise (· < ·) :=
    (List.pairwise_cons.mp h.valid.ordered).2.sublist (List.drop_sublist _ _)
  have lo : t.consumed ≤ r := by
    refine Nat.le_trans (Nat.le_max_left _ _) (h.base_le_link (Nat.le_add_right _ k) ?_)
    rw [← hr, List.getElem?_drop]
  have home : Home (t.links.drop q.head.chunk) (k + 1) r := by
    refine ⟨fun j r' hj hr' => ?_, fun r' hr' => lt_of_getElem? sorted hr hr' (Nat.lt_succ_self k)⟩
    rcases Nat.lt_or_eq_of_le (Nat.le_of_lt_succ hj) with lt | rfl
    · exact Nat.le_of_lt (lt_of_getElem? sorted hr' hr lt)
    · exact Nat.le_of_eq (Option.some.inj (hr'.symm.trans hr))
  refine ⟨v, ?_⟩
  rw [h.element_slot hc home lo claimed, hv, Slot.ofCell_some]

theorem layout (h : q.Models t) :
    q.Layout t.written (liveChunks q t) (t.links.drop q.head.chunk) := by
  have size := h.chunkSize_eq
  have consumed := h.consumed_eq
  have produced := h.produced_eq
  have hhead := h.head_le
  have dropped : ∀ k, (t.links.drop q.head.chunk)[k]? = t.links[q.head.chunk + k]? :=
    fun k => List.getElem?_drop
  have count : (t.links.drop q.head.chunk).length + 1 = t.links.length + 1 - q.head.chunk := by
    rw [List.length_drop]
    omega
  constructor
  case first =>
    rw [liveChunks, Nat.sub_add_comm hhead, List.range'_succ]
    rfl
  case last =>
    have position : q.head.chunk + (t.links.length + 1 - q.head.chunk) - 1 = t.links.length := by
      omega
    rw [liveChunks, List.getLast?_range', h.tail, if_neg (by omega), position]
  case nodup => exact List.nodup_range'
  case complete => exact fun c => (h.isSome_chunk_iff c).trans h.mem_live.symm
  case chained =>
    intro k c hk
    obtain ⟨rfl, le⟩ := live_get hk
    exact h.next_live le
  case sized =>
    intro c ch found
    rw [size]
    exact h.size_of_found found
  case length => rw [liveChunks, List.length_range', count]
  case ordered =>
    exact (List.pairwise_cons.mp h.valid.ordered).2.sublist (List.drop_sublist _ _)
  case reported =>
    refine ⟨.chainCreated t.size.chunkSize t.size.capacity ::
      (t.links.take q.head.chunk).map (.chunkLinked · t.size.chunkSize), ?_⟩
    rw [h.journal, size, List.cons_append, ← List.map_append, List.take_append_drop]
  case housed =>
    intro i _ _
    obtain ⟨k, le, home⟩ := Home.exists_of (t.links.drop q.head.chunk) i
    exact ⟨k, _, get_live (by omega), home⟩
  case element =>
    intro k c i hk lo hi home
    obtain ⟨rfl, le⟩ := live_get hk
    rw [size]
    exact h.element_slot le home (consumed ▸ lo) (produced ▸ hi)
  case jump =>
    intro k c r hk hr
    obtain ⟨rfl, -⟩ := live_get hk
    rw [size]
    exact h.jump_slot (Nat.le_add_right _ _) (dropped k ▸ hr)
  case behind =>
    intro k c r hk hr
    obtain ⟨rfl, le⟩ := live_get hk
    rw [size]
    exact h.behind_slot le hr
  case vacant =>
    intro k c s hk hs noElement noJump
    obtain ⟨rfl, le⟩ := live_get hk
    rw [size] at hs noElement noJump
    rw [consumed, produced] at noElement
    exact h.vacant_slot le hs noElement fun r hr => noJump r (dropped k ▸ hr)

end Models

/-- Whatever a client does and wherever it is stopped, no call has used a slot or a
link against its contract, and the chunks are laid out as described, with the values
that were written at the indices that are not consumed. -/
theorem laid_out {q₀ : Chain α} (made : q₀.Made) {β : Type} (client : Client α E true .both β)
    (env : E) :
    let run := client.run ⟨q₀, env⟩
    let written := (channelAfter (client.run ⟨q₀.blank, env⟩)).written
    (verdict run).1 ≠ .error .misused ∧
      ∃ live links, (channelAfter run).Layout written live links := by
  obtain ⟨-, sound, models, -⟩ := (tape α).agree made.models client env
  exact ⟨sound, _, _, Models.layout models⟩

/-- A client that is stopped while it supplies the second element of a batch, behind a
chunk that was just linked. -/
theorem laid_out_in_batch :
    let q₀ : Chain Nat := ofSize ⟨4, 8⟩
    let client : Client Nat Nat true .both Nat :=
      .bind (.fill rfl (.done 1) 3) fun _ =>
      .bind (.call rfl (.offer 2)) fun _ =>
      .fill rfl (.bind (.own fun n => (n, n + 1)) fun n => if n = 0 then .done 3 else .stop) 3
    let run := client.run ⟨q₀, 0⟩
    let written := (channelAfter (client.run ⟨q₀.blank, 0⟩)).written
    q₀.Made ∧ (channelAfter run).produced = 6 ∧
      ∃ live links, (channelAfter run).Layout written live links := by
  intro q₀ client run written
  have made : q₀.Made := .inl ⟨4, 8, rfl⟩
  have produced : (channelAfter run).produced = 6 := by decide +kernel
  exact ⟨made, produced, (laid_out made client 0).2⟩

end Handoff.Chain
