import Handoff.Proofs.Chain

/-! Reading from a chain. The consumer finds its next element in its own chunk, or
behind the jump in the chunk that follows, which is written before the jump is. -/
namespace Handoff.Chain

variable {α : Type}

/-- The consumer's next index does not lie behind a jump. -/
def Settled (q : Chain α) (t : Tape α) : Prop :=
  ∀ r, t.links[q.head.chunk]? = some r → t.consumed < r

namespace Models

variable {q : Chain α} {t : Tape α} {v : α}

theorem base_head (h : q.Models t) : t.base q.head.chunk = t.consumed :=
  Nat.max_eq_left h.head_start

theorem head_live (h : q.Models t) : ∃ ch, q.Live t q.head.chunk ch :=
  h.live _ (Nat.le_refl _) h.head_le

theorem head_slot (h : q.Models t) {ch : Chunk α} (hch : q.Live t q.head.chunk ch) :
    ch.slot? (t.consumed % t.size.chunkSize) = some (t.content q.head.chunk t.consumed) := by
  have hn := h.valid.fits.two_le
  have base := h.base_head
  exact hch.shown.slot t.consumed (by omega) (by omega)

theorem settled_content (settled : q.Settled t) :
    t.content q.head.chunk t.consumed = .ofCell (t.written t.consumed) :=
  Tape.content_of_home settled

def hopped (q : Chain α) (t : Tape α) : Chain α :=
  { q with
    store := q.store.remove q.head.chunk
    head := ⟨q.head.chunk + 1, Index.maskOf t.size.chunkSize⟩ }

theorem values_eq_nil (h : q.Models t) (jump : t.links[q.head.chunk]? = some t.consumed)
    {ch : Chunk α} (hch : q.Live t q.head.chunk ch) : ch.values = [] := by
  -- The chunk holds nothing but the jump.
  refine hch.shown.values_eq_nil fun i lo _ => ?_
  have past : ¬ i < t.consumed := Nat.not_lt_of_le (h.base_head ▸ lo)
  simp only [Tape.content, jump, past, if_false]
  split <;> rfl

theorem hop_ok (h : q.Models t) (jump : t.links[q.head.chunk]? = some t.consumed) :
    Chain.hop q = .ok () (hopped q t) := by
  obtain ⟨lt, -⟩ := List.getElem?_eq_some_iff.mp jump
  obtain ⟨ch, hch⟩ := h.head_live
  obtain ⟨after, hafter⟩ := h.live (q.head.chunk + 1) (Nat.le_succ _) lt
  have next : ch.next = some (q.head.chunk + 1) := by rw [hch.next, if_pos lt]
  have found : (q.store.remove q.head.chunk).chunk? (q.head.chunk + 1) = some after := by
    rw [Arena.chunk?_remove, if_neg (Nat.ne_of_lt (Nat.lt_succ_self _)), hafter.found]
  rw [Chain.hop, Act.bind_view, Act.bind_ok (onStore_ok (Arena.inspect_ok hch.found _)), next]
  simp only
  rw [Act.bind_ok (onStore_ok (Arena.destruct_ok hch.found)),
    Act.bind_ok (onStore_ok (q := { q with store := q.store.remove q.head.chunk })
      (Arena.inspect_ok found _)), Act.modify_apply, hafter.shown.size, h.values_eq_nil jump hch]
  rfl

theorem hopped_settled (h : q.Models t) (jump : t.links[q.head.chunk]? = some t.consumed) :
    (hopped q t).Settled t := by
  intro r (hr : t.links[q.head.chunk + 1]? = some r)
  obtain ⟨lt, -⟩ := List.getElem?_eq_some_iff.mp hr
  have := h.valid.start_lt (Nat.lt_succ_self (q.head.chunk + 1)) lt
  rwa [Tape.start_succ jump, Tape.start_succ hr] at this

theorem hopped_models (h : q.Models t) (jump : t.links[q.head.chunk]? = some t.consumed) :
    (hopped q t).Models t := by
  obtain ⟨lt, -⟩ := List.getElem?_eq_some_iff.mp jump
  refine { h with
    head_mask := rfl
    created := (Arena.created_remove _ _).trans h.created
    head_le := lt
    head_start := Nat.le_of_eq (Tape.start_succ jump)
    head_next := fun r hr => Nat.le_of_lt (h.hopped_settled jump r hr)
    freed := fun c hc => ?_
    live := fun c lo hi => ?_ }
  · refine (Arena.chunk?_remove _ _ _).trans ?_
    split
    · rfl
    next apart =>
        have le : c ≤ q.head.chunk := Nat.le_of_lt_succ hc
        exact h.freed c (Nat.lt_of_le_of_ne le (Ne.symm apart))
  · obtain ⟨ch, hch⟩ := h.live c (Nat.le_of_lt lo) hi
    refine ⟨ch, (Arena.chunk?_remove _ _ _).trans ?_, hch.next, hch.shown⟩
    rw [if_neg (Nat.ne_of_lt lo), hch.found]

theorem arrive (h : q.Models t) :
    ∃ q', Chain.arrive q = .ok (t.written t.consumed).isSome q' ∧ q'.Models t ∧ q'.Settled t := by
  obtain ⟨ch, hch⟩ := h.head_live
  have read := onStore_ok (Arena.read_ok hch.found (h.head_slot hch))
  rw [Chain.arrive, Act.bind_view]
  simp only [h.consumer, h.head_mask, h.position_eq]
  rw [Act.bind_ok read]
  by_cases jump : t.links[q.head.chunk]? = some t.consumed
  · have content : t.content q.head.chunk t.consumed = .jump := by
      simp [Tape.content, jump]
    have written := (h.valid.linked _ (List.mem_of_getElem? jump)).2
    refine ⟨hopped q t, ?_, h.hopped_models jump, h.hopped_settled jump⟩
    rw [content, written]
    exact Act.bind_ok (h.hop_ok jump) _
  · have settled : q.Settled t := by
      intro r hr
      refine Nat.lt_of_le_of_ne (h.head_next r hr) fun same => ?_
      exact jump (same ▸ hr)
    refine ⟨q, ?_, h, settled⟩
    rw [settled_content settled]
    cases t.written t.consumed with
    | none => rfl
    | some v => rfl

theorem lt_start_of_settled (h : q.Models t) (settled : q.Settled t) {c : Nat}
    (lt : q.head.chunk < c) (hc : c ≤ t.links.length) : t.consumed < t.start c := by
  have hlt : q.head.chunk < t.links.length := Nat.lt_of_lt_of_le lt hc
  have hr : t.links[q.head.chunk]? = some t.links[q.head.chunk] := List.getElem?_eq_getElem hlt
  have first := settled _ hr
  rw [← Tape.start_succ hr] at first
  rcases Nat.lt_or_eq_of_le (Nat.succ_le_of_lt lt) with lt' | rfl
  · exact Nat.lt_trans first (h.valid.start_lt lt' hc)
  · exact first

def taken (q : Chain α) (t : Tape α) : Chain α :=
  { q with
    store := q.store.setSlot q.head.chunk (t.consumed % t.size.chunkSize) .empty
    consumerIndex := 2 * t.consumed + 2 }

theorem takeHead_ok (h : q.Models t) (settled : q.Settled t)
    (hv : t.written t.consumed = some v) : Chain.takeHead q = .ok v (taken q t) := by
  obtain ⟨ch, hch⟩ := h.head_live
  have slot := h.head_slot hch
  rw [settled_content settled, hv] at slot
  rw [Chain.takeHead, Act.bind_view]
  simp only [h.consumer, h.head_mask, h.position_eq]
  rw [Act.bind_ok (onStore_ok (Arena.take_ok hch.found slot)), Act.bind_modify, Act.pure_apply,
    taken]

theorem taken_head (h : q.Models t) {ch : Chunk α} (hch : q.Live t q.head.chunk ch) (v : α) :
    (taken q t).Live (t.handOut v) q.head.chunk
      (ch.setSlot (t.consumed % t.size.chunkSize) .empty) := by
  have two := h.valid.fits.two_le
  have base := h.base_head
  have base' : (t.handOut v).base q.head.chunk = t.consumed + 1 :=
    Nat.max_eq_left (Nat.le_succ_of_le h.head_start)
  have past := h.valid.content_past h.head_le
  rw [base] at past
  refine ⟨Arena.chunk?_setSlot hch.found _ _, hch.next, ?_⟩
  rw [base']
  refine ((base ▸ hch.shown).set (Nat.le_refl _) (by omega) .empty).advance ?_ ?_
  · intro i lo _
    rw [if_neg (Nat.ne_of_gt lo)]
    rfl
  · intro _
    rw [if_pos rfl]
    exact past

theorem taken_behind (h : q.Models t) (settled : q.Settled t) {c : Nat} {ch : Chunk α}
    (hch : q.Live t c ch) (lt : q.head.chunk < c) (hc : c ≤ t.links.length) (v : α) :
    (taken q t).Live (t.handOut v) c ch := by
  have hstart := h.lt_start_of_settled settled lt hc
  have base : (t.handOut v).base c = t.base c := by
    rw [Tape.base, Tape.base, Tape.start_congr rfl, Nat.max_eq_right (Nat.le_of_lt hstart)]
    exact Nat.max_eq_right hstart
  refine ⟨(Arena.chunk?_setSlot_of_ne (Nat.ne_of_lt lt) _ _).trans hch.found, hch.next, ?_⟩
  rw [base]
  exact hch.shown

theorem taken_models (h : q.Models t) (settled : q.Settled t)
    (hv : t.written t.consumed = some v) : (taken q t).Models (t.handOut v) := by
  refine { h with
    valid := h.valid.handOut hv
    consumer := rfl
    created := (Arena.created_setSlot _ _ _ _).trans h.created
    head_start := Nat.le_succ_of_le h.head_start
    head_next := fun r hr => settled r hr
    freed := fun c hc => ?_
    live := fun c lo hi => ?_ }
  · exact (Arena.chunk?_setSlot_of_ne (Nat.ne_of_gt hc) _ _).trans (h.freed c hc)
  · obtain ⟨ch, hch⟩ := h.live c lo hi
    rcases Nat.lt_or_eq_of_le lo with lt | rfl
    · exact ⟨ch, h.taken_behind settled hch lt hi v⟩
    · exact ⟨_, h.taken_head hch v⟩

theorem showHead (h : q.Models t) (settled : q.Settled t) (hv : t.written t.consumed = some v) :
    Chain.showHead q = .ok v q := by
  obtain ⟨ch, hch⟩ := h.head_live
  have slot := h.head_slot hch
  rw [settled_content settled, hv] at slot
  rw [Chain.showHead, Act.bind_view]
  simp only [h.consumer, h.head_mask, h.position_eq]
  exact onStore_ok (Arena.get_ok hch.found slot)

end Models
end Handoff.Chain
