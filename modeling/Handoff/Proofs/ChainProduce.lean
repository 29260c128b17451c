import Handoff.Proofs.Chain

/-! Writing to a chain. Every store is into an empty slot of a chunk that is live,
also if the call that claimed the cell has been held up by callbacks that linked
further chunks. -/
namespace Handoff.Chain.Models

variable {α : Type} {q : Chain α} {t : Tape α} {c i : Nat}

theorem head_le_of_hole (h : q.Models t) (hole : t.Hole c i) : q.head.chunk ≤ c := by
  -- The consumer does not pass a hole, so its chunk is not freed.
  refine Nat.le_of_not_lt fun lt => ?_
  have hc : c < t.links.length := Nat.lt_of_lt_of_le lt h.head_le
  have hr : t.links[c]? = some t.links[c] := List.getElem?_eq_getElem hc
  have hi := hole.lt_next _ hr
  have hlo := h.valid.consumed_le_of_unwritten hole.written
  have hstart := h.head_start
  rcases Nat.lt_or_eq_of_le (Nat.succ_le_of_lt lt) with lt' | eq
  · have := h.valid.start_lt lt' h.head_le
    rw [Tape.start_succ hr] at this
    omega
  · rw [← eq, Tape.start_succ hr] at hstart
    omega

theorem hole_slot (h : q.Models t) (hole : t.Hole c i) :
    t.base c ≤ i ∧ i < t.base c + t.size.chunkSize ∧ t.content c i = .empty := by
  refine ⟨?_, h.valid.lt_window hole.chunk hole.claimed hole.lt_next, ?_⟩
  · exact Nat.max_le.mpr ⟨h.valid.consumed_le_of_unwritten hole.written, hole.start_le⟩
  · rw [Tape.content_of_home hole.lt_next, hole.written, Slot.ofCell_none]

theorem put (h : q.Models t) (hole : t.Hole c i) (v : α) :
    ∃ q', Chain.put ⟨c, Index.maskOf t.size.chunkSize⟩ (2 * i) v q = .ok () q' ∧
      q'.Models (t.store i v) := by
  obtain ⟨ch, hch⟩ := h.live c (h.head_le_of_hole hole) hole.chunk
  obtain ⟨lo, hi, empty⟩ := h.hole_slot hole
  have vacant := (hch.shown.vacant_iff lo hi).mpr empty
  refine ⟨{ q with store := q.store.setSlot c (i % t.size.chunkSize) (.value v) }, ?_, ?_⟩
  · rw [Chain.put, h.position_eq]
    exact onStore_ok (Arena.write_ok hch.found vacant v)
  · refine { h with
      valid := h.valid.store hole.claimed hole.written v
      created := (Arena.created_setSlot _ _ _ _).trans h.created
      freed := fun d hd => ?_
      live := fun d lo' hi' => ?_ }
    · have apart : c ≠ d := Nat.ne_of_gt (Nat.lt_of_lt_of_le hd (h.head_le_of_hole hole))
      rw [Arena.chunk?_setSlot_of_ne apart]
      exact h.freed d hd
    · obtain ⟨ch', hch'⟩ := h.live d lo' hi'
      by_cases same : c = d
      · subst same
        refine ⟨_, Arena.chunk?_setSlot hch.found _ _, hch.next,
          (hch.shown.set lo hi (.value v)).congr ?_⟩
        intro k _ _
        by_cases here : k = i
        · subst here
          rw [if_pos rfl, Tape.content_store_self v hole.lt_next]
        · rw [if_neg here, Tape.content_store v fun _ => here]
      · refine ⟨ch', (Arena.chunk?_setSlot_of_ne same _ _).trans hch'.found, hch'.next,
          hch'.shown.congr ?_⟩
        intro k hlo _
        refine (Tape.content_store v fun next => ?_).symm
        -- The cell has its place in one chunk only, and that is not this one.
        rintro rfl
        exact same (h.valid.home_unique hole.chunk hi' hole.start_le
          (Nat.le_trans (Nat.le_max_right _ _) hlo) hole.lt_next next)

def begun (q : Chain α) (t : Tape α) (v : α) : Chain α :=
  { q with
    store := q.store.begun t.size.chunkSize (t.claimed % t.size.chunkSize) v
    tail := ⟨q.store.chunks.size, Index.maskOf t.size.chunkSize⟩ }

def joined (q : Chain α) (t : Tape α) (v : α) : Chain α :=
  { begun q t v with
    store := q.store.joined t.links.length t.size.chunkSize (t.claimed % t.size.chunkSize) v }

/-- The chain with a chunk linked at the marked index. -/
def linked (q : Chain α) (t : Tape α) (v : α) : Chain α :=
  let n := t.size.chunkSize
  { q with
    store := q.store.grown t.links.length n (t.claimed % n) v
    tail := ⟨q.store.chunks.size, Index.maskOf n⟩
    limit := 2 * (t.claimed + min (n - 1) t.free)
    producerIndex := 2 * (t.claimed + 1)
    journal := q.journal.push (.chunkLinked t.claimed n) }

theorem last_created (h : q.Models t) : t.links.length < q.store.chunks.size := by
  rw [h.created]
  exact Nat.lt_succ_self _

theorem last_vacant (h : q.Models t) {ch : Chunk α} (hch : q.Live t t.links.length ch) :
    ch.vacant (t.claimed % t.size.chunkSize) = true := by
  have lo : t.base t.links.length ≤ t.claimed :=
    Nat.max_le.mpr ⟨h.valid.consumed_le, h.valid.start_le_claimed (Nat.le_refl _)⟩
  have hi := Nat.lt_of_le_of_lt h.valid.claimed_le h.valid.limit_lt
  refine (hch.shown.vacant_iff lo hi).mpr ?_
  rw [Tape.content_of_home (Links.lt_next_last _), h.valid.unwritten _ (Nat.le_refl _),
    Slot.ofCell_none]

theorem freeAt_claimed (h : q.Models t) (marked : t.marked = true) :
    q.freeAt (2 * t.claimed) = 2 * t.free ∧ 0 < t.free := by
  obtain ⟨-, -, room⟩ := h.valid.marked marked
  have hcons := h.valid.consumed_le
  rw [freeAt, Index.distance, h.bound, h.consumer, Tape.free]
  omega

theorem extend_ok (h : q.Models t) (marked : t.marked = true) (v : α) :
    Chain.extend ⟨q.tail, 2 * t.claimed⟩ v q = .ok () (linked q t v) := by
  have two := h.valid.fits.two_le
  obtain ⟨free, positive⟩ := h.freeAt_claimed marked
  obtain ⟨ch, hch⟩ := h.live t.links.length h.head_le (Nat.le_refl _)
  have size : Index.sizeOfMask (Index.maskOf t.size.chunkSize) = t.size.chunkSize :=
    Index.sizeOfMask_maskOf (by omega)
  have slot : t.claimed % t.size.chunkSize < t.size.chunkSize := Nat.mod_lt _ (by omega)
  have limit : 2 * t.claimed + min (Index.maskOf t.size.chunkSize) (2 * t.free) =
      2 * (t.claimed + min (t.size.chunkSize - 1) t.free) := by
    rw [Index.maskOf_eq]
    omega
  have half : (2 * t.claimed) >>> 1 = t.claimed := by
    rw [Nat.shiftRight_eq_div_pow]
    omega
  have put : Chain.put ⟨q.store.chunks.size, Index.maskOf t.size.chunkSize⟩ (2 * t.claimed) v
      { q with
        store := q.store.extended t.size.chunkSize
        tail := ⟨q.store.chunks.size, Index.maskOf t.size.chunkSize⟩ } =
      .ok () (begun q t v) := by
    rw [Chain.put, h.position_eq]
    exact onStore_ok (Arena.write_begun slot v)
  have link : onStore (Arena.link t.links.length q.store.chunks.size) (begun q t v) =
      .ok () (joined q t v) :=
    onStore_ok (Arena.link_begun h.last_created hch.found _ _ v)
  rw [Chain.extend, h.tail]
  simp only [size, h.position_eq]
  rw [Act.bind_ok (onStore_ok (Arena.push_ok q.store t.size.chunkSize)), Act.bind_modify,
    Act.bind_ok put, Act.bind_ok link, Act.bind_view]
  have room : (joined q t v).freeAt (2 * t.claimed) = 2 * t.free := free
  have some : ¬ 2 * t.free = 0 := by omega
  simp only [room, some, if_false]
  rw [Act.bind_modify, limit, half]
  exact onStore_ok (Arena.markJump_joined h.last_created hch.found (h.last_vacant hch) _ v)

theorem linked_front (h : q.Models t) {ch : Chunk α} (hch : q.Live t c ch)
    (lt : c < t.links.length) (v : α) : (linked q t v).Live (t.link v) c ch := by
  have links : (t.link v).links = t.links ++ [t.claimed] := rfl
  have base : (t.link v).base c = t.base c := by
    rw [Tape.base, Tape.start_append links (Nat.le_of_lt lt)]
    rfl
  refine ⟨?_, ?_, ?_⟩
  · refine (Arena.grown_other ?_ (Nat.ne_of_gt lt) _ _ _).trans hch.found
    rw [h.created]
    omega
  · rw [hch.next, if_pos lt, links, List.length_append, if_pos (Nat.lt_add_right _ lt)]
  · rw [base]
    refine hch.shown.congr fun k _ _ => (Tape.content_congr ?_ fun next => ?_).symm
    · rw [links, List.getElem?_append_left lt]
    · -- The marked cell lies past the jump of this chunk.
      have hr : t.links[c]? = some t.links[c] := List.getElem?_eq_getElem lt
      have past := (h.valid.linked _ (List.mem_of_getElem? hr)).1
      have apart : k ≠ t.claimed := Nat.ne_of_lt (Nat.lt_trans (next _ hr) past)
      simp only [Tape.link, Tape.store, apart, if_false]

theorem linked_last (h : q.Models t) {ch : Chunk α} (hch : q.Live t t.links.length ch) (v : α) :
    (linked q t v).Live (t.link v) t.links.length
      (Chunk.setSlot { ch with next := some q.store.chunks.size }
        (t.claimed % t.size.chunkSize) .jump) := by
  have links : (t.link v).links = t.links ++ [t.claimed] := rfl
  have hr : (t.link v).links[t.links.length]? = some t.claimed := by
    rw [links, List.getElem?_concat_length]
  have base : (t.link v).base t.links.length = t.base t.links.length := by
    rw [Tape.base, Tape.start_append links (Nat.le_refl _)]
    rfl
  have lo : t.base t.links.length ≤ t.claimed :=
    Nat.max_le.mpr ⟨h.valid.consumed_le, h.valid.start_le_claimed (Nat.le_refl _)⟩
  have hi := Nat.lt_of_le_of_lt h.valid.claimed_le h.valid.limit_lt
  refine ⟨Arena.grown_old h.last_created hch.found _ _ _, ?_, ?_⟩
  · rw [Chunk.next_setSlot, h.created, links, List.length_append, List.length_singleton,
      if_pos (Nat.lt_succ_self _)]
  · rw [base]
    refine ((hch.shown.relink _).set lo hi .jump).congr fun k _ _ => ?_
    have before : t.content t.links.length k = .ofCell (t.written k) :=
      Tape.content_of_home (Links.lt_next_last k)
    rw [before]
    unfold Tape.content
    rw [hr]
    rcases Nat.lt_trichotomy k t.claimed with lt | rfl | gt
    · simp [lt, Nat.ne_of_lt lt, Tape.link, Tape.store]
    · simp
    · simp [Nat.ne_of_gt gt, Nat.not_lt_of_gt gt, h.valid.unwritten k (Nat.le_of_lt gt)]

theorem linked_new (h : q.Models t) (v : α) :
    (linked q t v).Live (t.link v) (t.links.length + 1)
      ((Chunk.ofSize t.size.chunkSize).setSlot (t.claimed % t.size.chunkSize) (.value v)) := by
  have hn := h.valid.fits.two_le
  have links : (t.link v).links = t.links ++ [t.claimed] := rfl
  have none : (t.link v).links[t.links.length + 1]? = none := by
    rw [links]
    refine List.getElem?_eq_none (Nat.le_of_eq ?_)
    rw [List.length_append, List.length_singleton]
  have start : (t.link v).start (t.links.length + 1) = t.claimed :=
    Tape.start_succ (by rw [links, List.getElem?_concat_length])
  have base : (t.link v).base (t.links.length + 1) = t.claimed := by
    rw [Tape.base, start]
    exact Nat.max_eq_right h.valid.consumed_le
  refine ⟨?_, ?_, ?_⟩
  · have found := Arena.grown_new h.last_created t.size.chunkSize (t.claimed % t.size.chunkSize) v
    rwa [h.created] at found
  · rw [links, List.length_append, List.length_singleton, if_neg (Nat.lt_irrefl _)]
    rfl
  · rw [base]
    refine ((Chunk.Shows.ofSize _ t.claimed).set (Nat.le_refl _) (by omega) (.value v)).congr ?_
    intro k lo _
    have home : ∀ r, (t.link v).links[t.links.length + 1]? = some r → k < r := by
      intro r hr
      rw [none] at hr
      cases hr
    rw [Tape.content_of_home home]
    by_cases here : k = t.claimed
    · simp [here, Tape.link, Tape.store]
    · simp [here, Tape.link, Tape.store, h.valid.unwritten k lo]

theorem linked_models (h : q.Models t) (marked : t.marked = true) (v : α) :
    (linked q t v).Models (t.link v) := by
  have links : (t.link v).links = t.links ++ [t.claimed] := rfl
  have length : (t.link v).links.length = t.links.length + 1 := by
    rw [links, List.length_append, List.length_singleton]
  have hhead := h.head_le
  have hcons := h.valid.consumed_le
  have created := h.created
  refine { h with
    valid := h.valid.link marked v
    producer := rfl
    limit := rfl
    tail := by rw [length, ← created]; rfl
    created := by rw [length, ← created]; exact Arena.created_grown _ _ _ _ _
    head_le := length ▸ Nat.le_succ_of_le hhead
    head_start := Nat.le_trans (Nat.le_of_eq (Tape.start_append links hhead)) h.head_start
    head_next := fun r hr => ?_
    freed := fun c hc => ?_
    live := fun c lo hi => ?_
    journal := ?_ }
  · have jump : (t.links ++ [t.claimed])[q.head.chunk]? = some r := hr
    rcases Nat.lt_or_eq_of_le hhead with lt | eq
    · rw [List.getElem?_append_left lt] at jump
      exact h.head_next r jump
    · rw [eq, List.getElem?_concat_length, Option.some.injEq] at jump
      exact jump ▸ hcons
  · have lt : c < t.links.length := Nat.lt_of_lt_of_le hc hhead
    refine (Arena.grown_other ?_ (Nat.ne_of_gt lt) _ _ _).trans (h.freed c hc)
    omega
  · rw [length] at hi
    rcases Nat.lt_or_eq_of_le hi with lt | rfl
    · rcases Nat.lt_or_eq_of_le (Nat.le_of_lt_succ lt) with lt' | rfl
      · obtain ⟨ch, hch⟩ := h.live c lo (Nat.le_of_lt lt')
        exact ⟨ch, h.linked_front hch lt' v⟩
      · obtain ⟨ch, hch⟩ := h.live _ lo (Nat.le_refl _)
        exact ⟨_, h.linked_last hch v⟩
    · exact ⟨_, h.linked_new v⟩
  · have hj := h.journal
    simp only [linked, Array.toList_push, hj, links, List.map_append, List.map_singleton,
      List.cons_append]
    rfl

theorem extend (h : q.Models t) (marked : t.marked = true) (v : α) :
    ∃ q', Chain.extend ⟨q.tail, 2 * t.claimed⟩ v q = .ok () q' ∧ q'.Models (t.link v) :=
  ⟨linked q t v, h.extend_ok marked v, h.linked_models marked v⟩

end Handoff.Chain.Models
