import Handoff.Proofs.Chain
import Handoff.Proofs.RegisterSharing

/-! A chain that many threads use is at every moment as its register says. Each access to
the memory of the chain is described by the change that it makes to the register. -/
namespace Handoff

variable {α : Type}

namespace Register

variable {g g' : Register α} {p m c i r : Nat} {v : α}

theorem cell_congr (h : g.Valid) (claims : g.claims <+: g'.claims)
    (written : g'.written i = g.written i) : g'.cell i = g.cell i := by
  unfold cell
  rw [written]
  cases hi : g.written i with
  | false => rfl
  | true =>
      have lt := h.lt_length i hi
      have own : g.claims[i]? = some g.claims[i] := List.getElem?_eq_getElem lt
      rw [own_later claims own, own]

theorem Valid.hole_slot (h : g.Valid) (hole : g.Hole p c i v) :
    g.head ≤ c ∧ g.base c ≤ i ∧ i < g.base c + g.size.chunkSize ∧ g.content c i = .empty := by
  have lt := le_published_of_lt (lt_length_of_own hole.own)
  refine ⟨h.head_le_of_hole hole, ?_, h.lt_window lt hole.within, ?_⟩
  · exact Nat.max_le.mpr ⟨h.taken_le_of_unwritten hole.unwritten, hole.within.start_le⟩
  · rw [content_of_home hole.within.lt_next, cell_of_unwritten hole.unwritten, Slot.ofCell_none]

theorem Valid.jump_slot (h : g.Valid) (link : g.links[c]? = some r)
    (unjumped : g.jumped c = false) :
    g.head ≤ c ∧ g.base c ≤ r ∧ r < g.base c + g.size.chunkSize ∧ g.content c r = .empty := by
  have live := h.head_le_of_unjumped unjumped
  refine ⟨live, ?_, h.gap c r link, ?_⟩
  · exact Nat.max_le.mpr ⟨h.taken_le_link live link, Nat.le_of_lt (h.start_lt_link link)⟩
  · simp only [content_link link, unjumped, Bool.false_eq_true, if_false]

theorem Valid.base_head (h : g.Valid) : g.base g.head = g.taken :=
  Nat.max_eq_left (Nat.le_trans h.head_start h.consumed_le)

theorem Valid.content_past (h : g.Valid) (hc : c ≤ g.links.length) :
    g.content c (g.base c + g.size.chunkSize) = .empty := by
  unfold content
  rcases Nat.lt_or_eq_of_le hc with lt | rfl
  · have hr : g.links[c]? = some g.links[c] := List.getElem?_eq_getElem lt
    have hgap := h.gap c _ hr
    have below : ¬ g.base c + g.size.chunkSize < g.links[c] := Nat.not_lt_of_gt hgap
    have apart : g.base c + g.size.chunkSize ≠ g.links[c] := Nat.ne_of_gt hgap
    simp only [hr, below, apart, false_and, if_false]
  · have unwritten : g.written (g.base g.links.length + g.size.chunkSize) = false := by
      apply Bool.eq_false_iff.mpr
      intro written
      have := le_published_of_lt (h.lt_length _ written)
      exact absurd h.published_lt (Nat.not_lt_of_le this)
    simp only [List.getElem?_eq_none (Nat.le_refl _), cell_of_unwritten unwritten,
      Slot.ofCell_none]

variable {a : Arena α}

theorem Valid.row_claims (h : g.Valid) (claims : g.claims <+: g'.claims)
    (same : g'.row = { g.row with content := g'.content }) (written : g'.written = g.written)
    (links : g'.links = g.links) (jumped : g'.jumped = g.jumped) (row : a.Shows g.row) :
    a.Shows g'.row := by
  rw [same]
  refine row.congr rfl rfl rfl (fun _ _ _ => rfl) (fun _ _ _ => rfl) fun c _ _ i _ _ => ?_
  exact content_congr (by rw [links]) (fun _ => cell_congr h claims (by rw [written]))
    fun _ => by rw [jumped]

theorem Valid.row_store (h : g.Valid) (hole : g.Hole p c i v) (row : a.Shows g.row) :
    (a.setSlot c (i % g.size.chunkSize) (.value v)).Shows (g.store i).row := by
  obtain ⟨live, lo, hi, -⟩ := h.hole_slot hole
  refine row.set live lo hi (.value v) rfl ?here fun d hd k hlo other => ?others
  case here =>
    have stored : (g.store i).written i = true := by simp only [Register.store, if_true]
    have next : ∀ r, (g.store i).links[c]? = some r → i < r := hole.within.lt_next
    refine (content_of_home next).trans ?_
    rw [cell_of_written stored hole.own, Slot.ofCell_some]
  case others =>
    refine content_congr rfl (fun next => cell_congr h (List.prefix_refl _) ?_) fun _ => rfl
    -- The index has its place in one chunk only, and that is not this one.
    have apart : k ≠ i := by
      rintro rfl
      have within : Links.Within g.links d k :=
        ⟨hd, Nat.le_trans (Nat.le_max_right _ _) hlo, next⟩
      exact other ⟨within.unique h.ordered hole.within, rfl⟩
    simp only [Register.store, apart, if_false]

theorem Valid.row_jump (h : g.Valid) (link : g.links[c]? = some r)
    (unjumped : g.jumped c = false) (row : a.Shows g.row) :
    (a.setSlot c (r % g.size.chunkSize) .jump).Shows (g.jump c).row := by
  obtain ⟨live, lo, hi, -⟩ := h.jump_slot link unjumped
  refine row.set live lo hi .jump rfl ?here fun d _ k _ other => ?others
  case here =>
    have jumped : (g.jump c).jumped c = true := by simp only [Register.jump, if_true]
    have link' : (g.jump c).links[c]? = some r := link
    exact (content_link link').trans (if_pos jumped)
  case others =>
    refine content_congr rfl (fun _ => rfl) fun link' => ?_
    have apart : d ≠ c := by
      rintro rfl
      exact other ⟨rfl, Option.some.inj (link'.symm.trans link)⟩
    simp only [Register.jump, apart, if_false]

theorem Valid.content_grow (h : g.Valid) (held : g.Held p m v) (unwritten : g.written m = false)
    (hc : c ≤ g.links.length) : g.grow.content c i = g.content c i := by
  have links := links_grow held
  rcases Nat.lt_or_eq_of_le hc with lt | rfl
  · exact content_congr (by rw [links, List.getElem?_append_left lt]) (fun _ => rfl) fun _ => rfl
  · have link : g.grow.links[g.links.length]? = some m := by
      rw [links, List.getElem?_concat_length]
    have unjumped : g.jumped g.links.length = false := Bool.eq_false_iff.mpr fun jumped =>
      Nat.lt_irrefl _ (h.joined_lt (h.jumped _ jumped))
    have before : g.content g.links.length i = .ofCell (g.cell i) :=
      content_of_home (Links.lt_next_last i)
    rw [before, content]
    simp only [link]
    split
    · rfl
    next past =>
        have blank : g.written i = false := Bool.eq_false_iff.mpr fun written => by
          have lt := h.lt_length i written
          rw [held.length] at lt
          obtain rfl : i = m := by omega
          rw [unwritten] at written
          cases written
        have same : g.grow.jumped = g.jumped := rfl
        simp only [same, unjumped, Bool.false_eq_true, and_false, if_false,
          cell_of_unwritten blank, Slot.ofCell_none]

theorem Valid.row_grow (h : g.Valid) (held : g.Held p m v) (unwritten : g.written m = false)
    (row : a.Shows g.row) : (a.extended g.size.chunkSize).Shows g.grow.row := by
  have links := links_grow held
  have length : g.grow.links.length = g.links.length + 1 := by
    rw [links, List.length_append, List.length_singleton]
  have before : a.Shows { g.grow.row with last := g.links.length } := by
    refine row.congr rfl rfl rfl (fun _ _ _ => rfl) (fun c _ hc => ?_) fun c _ hc i _ _ => ?_
    · simp only [Register.row, base, links, Links.start_append hc]
      rfl
    · exact h.content_grow held unwritten hc
  have alone : g.grow.joined (g.links.length + 1) = false := by
    apply Bool.eq_false_iff.mpr
    intro joined
    have lt := h.joined_lt (c := g.links.length + 1) joined
    omega
  have same : g.grow.row = { g.grow.row with last := g.links.length + 1 } := by
    simp only [Register.row, length]
  rw [same]
  apply before.push alone
  intro i lo
  have none : g.grow.links[g.links.length + 1]? = none :=
    List.getElem?_eq_none (Nat.le_of_eq length)
  have blank : g.written i = false := Bool.eq_false_iff.mpr fun written => by
    have lt := h.lt_length i written
    have start : m ≤ i := by
      refine Nat.le_trans (Nat.le_of_eq ?_) (Nat.le_trans (Nat.le_max_right _ _) lo)
      rw [links, Links.start_concat]
    rw [held.length] at lt
    obtain rfl : i = m := by omega
    rw [unwritten] at written
    cases written
  have blank' : g.grow.written i = false := blank
  have blank'' : g.grow.content (g.links.length + 1) i = .ofCell (g.grow.cell i) := by
    rw [content, none]
  exact blank''.trans (congrArg Slot.ofCell (cell_of_unwritten blank'))

theorem row_leave (link : g.links[g.head]? = some g.consumed)
    (row : a.Shows g.row) : (a.remove g.head).Shows g.leave.row :=
  row.remove (List.getElem?_eq_some_iff.mp link).1

theorem Valid.lt_start_of_settled (h : g.Valid) (settled : g.Settled) (lt : g.head < c)
    (hc : c ≤ g.links.length) : g.taken < Links.start g.links c := by
  have hlt : g.head < g.links.length := Nat.lt_of_lt_of_le lt hc
  have hr : g.links[g.head]? = some g.links[g.head] := List.getElem?_eq_getElem hlt
  have first := settled _ hr
  have later := Links.start_mono h.ordered (c := g.head + 1) lt hc
  rw [Links.start_succ hr] at later
  exact Nat.lt_of_lt_of_le first later

theorem Valid.row_take (h : g.Valid) (settled : g.Settled) (row : a.Shows g.row) :
    (a.setSlot g.head (g.taken % g.size.chunkSize) .empty).Shows g.take.row := by
  have two := h.fits.two_le
  have base := h.base_head
  have start := Nat.le_trans h.head_start h.consumed_le
  have moved : g.take.row.base g.head = g.row.base g.head + 1 := by
    refine (Nat.max_eq_left (Nat.le_succ_of_le start)).trans ?_
    exact congrArg (· + 1) base.symm
  have behind : ∀ d, g.head ≤ d → d ≤ g.links.length → d ≠ g.head →
      g.take.row.base d = g.row.base d ∧ g.take.row.content d = g.row.content d := by
    intro d live hd apart
    have lt : g.head < d := Nat.lt_of_le_of_ne live (Ne.symm apart)
    have past := h.lt_start_of_settled settled lt hd
    constructor
    · exact (Nat.max_eq_right past).trans (Nat.max_eq_right (Nat.le_of_lt past)).symm
    · rfl
  have turned : (a.setSlot g.head (g.row.base g.head % g.row.size) .empty).Shows g.take.row :=
    row.turn (Nat.le_refl _) (Nat.lt_of_lt_of_le Nat.two_pos two) rfl moved
      (h.content_past h.head_le) (fun _ _ => rfl) behind
  have first : g.row.base g.head = g.taken := base
  rw [first] at turned
  exact turned

end Register

namespace Chain

theorem onStore_store {β : Type} {act : Act (Arena α) β} {q q' : Chain α} {b : β}
    (h : onStore act q = .ok b q') : ∃ store, q' = { q with store := store } := by
  cases hact : act q.store with
  | ok b store =>
      rw [onStore_ok hact] at h
      cases h
      exact ⟨store, rfl⟩
  | error e store =>
      simp only [onStore, hact] at h
      cases h

theorem onStore_limit {β : Type} {act : Act (Arena α) β} {q q' : Chain α} {b : β}
    (h : onStore act q = .ok b q') : q'.limit = q.limit := by
  obtain ⟨store, rfl⟩ := onStore_store h
  rfl

theorem onStore_producerIndex {β : Type} {act : Act (Arena α) β} {q q' : Chain α} {b : β}
    (h : onStore act q = .ok b q') : q'.producerIndex = q.producerIndex := by
  obtain ⟨store, rfl⟩ := onStore_store h
  rfl

/-- The memory of the chain is as the register says. -/
structure Records (q : Chain α) (g : Register α) : Prop where
  consumer : q.consumerIndex = 2 * g.consumed
  producer : q.producerIndex = g.index
  limit : g.Allows q.limit
  bound : q.bound = 2 * g.size.capacity
  head : q.head = ⟨g.head, Index.maskOf g.size.chunkSize⟩
  tail : q.tail = ⟨g.links.length, Index.maskOf g.size.chunkSize⟩
  store : q.store.Shows g.row
  discarded : q.discarded = #[]

namespace Records

variable {q : Chain α} {g : Register α} {p m c i r : Nat} {v : α}

theorem position_eq (valid : g.Valid) (i : Nat) :
    Index.position (2 * i) (Index.maskOf g.size.chunkSize) = i % g.size.chunkSize := by
  rw [Index.position_eq_mod valid.fits.pow, Nat.mul_div_cancel_left i Nat.two_pos]

theorem live (h : q.Records g) (lo : g.head ≤ c) (hi : c ≤ g.links.length) :
    ∃ ch, q.store.Live g.row c ch := h.store.live c lo hi

theorem vacant {ch : Chunk α} (hch : q.store.Live g.row c ch)
    (lo : g.base c ≤ i) (hi : i < g.base c + g.size.chunkSize) (empty : g.content c i = .empty) :
    ch.vacant (i % g.size.chunkSize) = true := (hch.shown.vacant_iff lo hi).mpr empty

theorem raise (h : q.Records g) {limit : Nat} (allows : g.Allows limit) :
    Records { q with limit := limit } g := { h with limit := allows }

theorem claim (h : q.Records g) (valid : g.Valid) (unmarked : g.marked = false) {vs : List α}
    {index : Nat} (eq : index = 2 * (g.claims.length + vs.length)) :
    Records { q with producerIndex := index } (g.claim p vs) :=
  { h with
    producer := eq.trans (Register.index_claim unmarked vs).symm
    store := valid.row_claims (Register.claims_claim g p vs) rfl rfl rfl rfl h.store }

theorem mark (h : q.Records g) (valid : g.Valid) {index : Nat}
    (eq : index = 2 * g.claims.length + 1) :
    Records { q with producerIndex := index } (g.mark p v) :=
  { h with
    producer := eq.trans (Register.index_mark g p v).symm
    store := valid.row_claims (Register.claims_mark g p v) rfl rfl rfl rfl h.store }

theorem settle (h : q.Records g) (held : g.Held p m v) {index : Nat} (eq : index = 2 * (m + 1)) :
    Records { q with producerIndex := index } g.settle :=
  { h with producer := eq.trans held.index_settle.symm }

theorem put (h : q.Records g) (valid : g.Valid) (hole : g.Hole p c i v) :
    ∃ q', Chain.put ⟨c, Index.maskOf g.size.chunkSize⟩ (2 * i) v q = .ok () q' ∧
      q'.Records (g.store i) := by
  obtain ⟨live, lo, hi, empty⟩ := valid.hole_slot hole
  obtain ⟨ch, hch⟩ := h.live live hole.within.chunk
  refine ⟨{ q with store := q.store.setSlot c (i % g.size.chunkSize) (.value v) }, ?_,
    { h with store := valid.row_store hole h.store }⟩
  rw [Chain.put, position_eq valid]
  exact onStore_ok (Arena.write_ok hch.found (vacant hch lo hi empty) v)

theorem created (h : q.Records g) : q.store.chunks.size = g.links.length + 1 := h.store.created

theorem push (h : q.Records g) : onStore (Arena.push g.size.chunkSize) q =
    .ok (g.links.length + 1) { q with store := q.store.extended g.size.chunkSize } := by
  rw [onStore_ok (Arena.push_ok q.store g.size.chunkSize), h.created]

theorem grow (h : q.Records g) (valid : g.Valid) (held : g.Held p m v)
    (unwritten : g.written m = false) (ordered : (0 :: (g.links ++ [m])).Pairwise (· < ·)) :
    Records { q with
      store := q.store.extended g.size.chunkSize
      tail := ⟨g.links.length + 1, Index.maskOf g.size.chunkSize⟩ } g.grow := by
  have spared := Register.Spares.grow (Nat.ne_of_lt (Nat.lt_succ_self p)) held ordered
  refine { h with
    limit := spared.allows h.limit
    tail := ?_
    store := valid.row_grow held unwritten h.store }
  rw [Register.links_grow held, List.length_append]
  rfl

theorem link (h : q.Records g) (live : g.head ≤ c) (hi : c ≤ g.links.length) :
    ∃ q', onStore (Arena.link c (c + 1)) q = .ok () q' ∧ q'.Records (g.join c) := by
  obtain ⟨ch, hch⟩ := h.live live hi
  exact ⟨_, onStore_ok (Arena.link_ok hch.found _), { h with store := h.store.join c }⟩

theorem markJump (h : q.Records g) (valid : g.Valid) (link : g.links[c]? = some r)
    (unjumped : g.jumped c = false) :
    ∃ q', onStore (Arena.markJump c (r % g.size.chunkSize)) q = .ok () q' ∧
      q'.Records (g.jump c) := by
  obtain ⟨live, lo, hi, empty⟩ := valid.jump_slot link unjumped
  obtain ⟨ch, hch⟩ := h.live live (Nat.le_of_lt (List.getElem?_eq_some_iff.mp link).1)
  exact ⟨_, onStore_ok (Arena.markJump_ok hch.found (vacant hch lo hi empty)),
    { h with store := valid.row_jump link unjumped h.store }⟩

theorem head_live (h : q.Records g) (valid : g.Valid) :
    ∃ ch, q.store.Live g.row g.head ch := h.live (Nat.le_refl _) valid.head_le

theorem head_slot (valid : g.Valid) {ch : Chunk α} (hch : q.store.Live g.row g.head ch) :
    ch.slot? (g.taken % g.size.chunkSize) = some (g.content g.head g.taken) := by
  have two := valid.fits.two_le
  have base : g.row.base g.head = g.taken := valid.base_head
  have size : g.row.size = g.size.chunkSize := rfl
  exact hch.shown.slot g.taken (by omega) (by omega)

theorem leave (h : q.Records g) (link : g.links[g.head]? = some g.consumed) :
    Records { q with
      store := q.store.remove g.head
      head := ⟨g.head + 1, Index.maskOf g.size.chunkSize⟩ } g.leave :=
  { h with
    head := rfl
    store := Register.row_leave link h.store }

theorem take (h : q.Records g) (valid : g.Valid) (settled : g.Settled) :
    Records { q with store := q.store.setSlot g.head (g.taken % g.size.chunkSize) .empty } g.take :=
  { h with store := valid.row_take settled h.store }

theorem pass (h : q.Records g) (valid : g.Valid) {index : Nat} (eq : index = 2 * g.taken) :
    Records { q with consumerIndex := index } g.pass :=
  { h with
    consumer := eq
    limit := (Register.Spares.of_progress (p := 0) valid .pass).allows h.limit }

end Records
end Chain
end Handoff
