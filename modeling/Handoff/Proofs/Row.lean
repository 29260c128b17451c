import Handoff.Proofs.Arena

/-! What the chunks of an arena hold, described for all of them at once. Chunks are
created and freed in the order of their numbers, so the live ones stand in a row, and
each is followed by the next. -/
namespace Handoff.Arena

variable {α : Type}

/-- The live chunks `first` to `last`, of `size` slots each. Chunk `c` holds
`content c i` at each index `i` of its window, which begins at `base c`, and names its
follower once it is `joined`. -/
structure Row (α : Type) where
  size : Nat
  first : Nat
  last : Nat
  base : Nat → Nat
  content : Nat → Nat → Slot α
  joined : Nat → Bool

/-- A live chunk, its follower and what it shows. -/
structure Live (a : Arena α) (s : Row α) (c : Nat) (ch : Chunk α) : Prop where
  found : a.chunk? c = some ch
  next : ch.next = if s.joined c then some (c + 1) else none
  shown : ch.Shows s.size (s.base c) (s.content c)

/-- The chunks hold what `s` says. -/
structure Shows (a : Arena α) (s : Row α) : Prop where
  first_le : s.first ≤ s.last
  created : a.chunks.size = s.last + 1
  freed : ∀ c, c < s.first → a.chunk? c = none
  live : ∀ c, s.first ≤ c → c ≤ s.last → ∃ ch, a.Live s c ch

namespace Shows

variable {a : Arena α} {s s' : Row α} {c i : Nat}

theorem slot (h : a.Shows s) (lo : s.first ≤ c) (hi : c ≤ s.last) (hlo : s.base c ≤ i)
    (hhi : i < s.base c + s.size) : a.slot? c (i % s.size) = some (s.content c i) := by
  obtain ⟨ch, hch⟩ := h.live c lo hi
  rw [slot?_eq hch.found, hch.shown.slot i hlo hhi]

theorem congr (h : a.Shows s) (size : s'.size = s.size) (first : s'.first = s.first)
    (last : s'.last = s.last)
    (joined : ∀ c, s.first ≤ c → c ≤ s.last → s'.joined c = s.joined c)
    (base : ∀ c, s.first ≤ c → c ≤ s.last → s'.base c = s.base c)
    (content : ∀ c, s.first ≤ c → c ≤ s.last → ∀ i, s.base c ≤ i → i < s.base c + s.size →
      s'.content c i = s.content c i) : a.Shows s' where
  first_le := by rw [first, last]; exact h.first_le
  created := last ▸ h.created
  freed := first ▸ h.freed
  live c lo hi := by
    rw [first] at lo
    rw [last] at hi
    obtain ⟨ch, hch⟩ := h.live c lo hi
    refine ⟨ch, hch.found, by rw [joined c lo hi, hch.next], ?_⟩
    rw [size, base c lo hi]
    exact hch.shown.congr fun i hlo hhi => (content c lo hi i hlo hhi).symm

theorem set (h : a.Shows s) (lo : s.first ≤ c) (hlo : s.base c ≤ i)
    (hhi : i < s.base c + s.size) (slot : Slot α) (same : s' = { s with content := s'.content })
    (here : s'.content c i = slot)
    (others : ∀ d, d ≤ s.last → ∀ k, s.base d ≤ k → ¬ (d = c ∧ k = i) →
      s'.content d k = s.content d k) : (a.setSlot c (i % s.size) slot).Shows s' := by
  rw [same]
  refine ⟨h.first_le, (created_setSlot a c _ slot).trans h.created, fun d hd => ?_,
    fun d lo' hi' => ?_⟩
  · rw [chunk?_setSlot_of_ne (Nat.ne_of_gt (Nat.lt_of_lt_of_le hd lo))]
    exact h.freed d hd
  · obtain ⟨ch, hch⟩ := h.live d lo' hi'
    by_cases own : c = d
    · subst own
      refine ⟨_, chunk?_setSlot hch.found _ slot, hch.next, ?_⟩
      apply (hch.shown.set hlo hhi slot).congr
      intro k hk _
      by_cases at_i : k = i
      · rw [if_pos at_i, at_i, here]
      · rw [if_neg at_i, others c hi' k hk fun both => at_i both.2]
    · refine ⟨ch, (chunk?_setSlot_of_ne own _ slot).trans hch.found, hch.next, ?_⟩
      apply hch.shown.congr
      intro k hk _
      exact (others d hi' k hk fun both => own both.1.symm).symm

theorem turn (h : a.Shows s) (lo : s.first ≤ c) (pos : 0 < s.size)
    (same : s' = { s with base := s'.base, content := s'.content })
    (moved : s'.base c = s.base c + 1)
    (past : s'.content c (s.base c + s.size) = .empty)
    (kept : ∀ k, s.base c < k → s'.content c k = s.content c k)
    (others : ∀ d, s.first ≤ d → d ≤ s.last → d ≠ c →
      s'.base d = s.base d ∧ s'.content d = s.content d) :
    (a.setSlot c (s.base c % s.size) .empty).Shows s' := by
  rw [same]
  refine ⟨h.first_le, (created_setSlot a c _ .empty).trans h.created, fun d hd => ?_,
    fun d lo' hi' => ?_⟩
  · rw [chunk?_setSlot_of_ne (Nat.ne_of_gt (Nat.lt_of_lt_of_le hd lo))]
    exact h.freed d hd
  · obtain ⟨ch, hch⟩ := h.live d lo' hi'
    by_cases own : c = d
    · subst own
      refine ⟨_, chunk?_setSlot hch.found _ .empty, hch.next, ?_⟩
      simp only [moved]
      refine (hch.shown.set (Nat.le_refl _) (Nat.lt_add_of_pos_right pos) .empty).advance ?_ ?_
      · intro k lt _
        rw [if_neg (Nat.ne_of_gt lt), kept k lt]
      · intro _
        rw [if_pos rfl, past]
    · obtain ⟨base, content⟩ := others d lo' hi' (Ne.symm own)
      refine ⟨ch, (chunk?_setSlot_of_ne own _ .empty).trans hch.found, hch.next, ?_⟩
      simp only [base, content]
      exact hch.shown

theorem push (h : a.Shows s) (alone : s.joined (s.last + 1) = false)
    (blank : ∀ i, s.base (s.last + 1) ≤ i → s.content (s.last + 1) i = .empty) :
    (a.extended s.size).Shows { s with last := s.last + 1 } where
  first_le := Nat.le_succ_of_le h.first_le
  created := (created_extended a s.size).trans (congrArg (· + 1) h.created)
  freed c hc := by
    have old : c ≠ a.chunks.size := by
      have first_le := h.first_le
      rw [h.created]
      exact Nat.ne_of_lt (Nat.lt_succ_of_lt (Nat.lt_of_lt_of_le hc first_le))
    rw [chunk?_extended, if_neg old]
    exact h.freed c hc
  live c lo hi := by
    rcases Nat.lt_or_eq_of_le hi with lt | rfl
    · obtain ⟨ch, hch⟩ := h.live c lo (Nat.le_of_lt_succ lt)
      refine ⟨ch, ?_, hch.next, hch.shown⟩
      rw [chunk?_extended, if_neg (h.created ▸ Nat.ne_of_lt lt), hch.found]
    · refine ⟨.ofSize s.size, ?_, by rw [alone]; rfl, ?_⟩
      · rw [chunk?_extended, if_pos h.created.symm]
      · exact (Chunk.Shows.ofSize s.size _).congr fun i lo _ => (blank i lo).symm

theorem join (h : a.Shows s) (c : Nat) :
    (a.modifyChunk c ({ · with next := some (c + 1) })).Shows
      { s with joined := fun d => if d = c then true else s.joined d } where
  first_le := h.first_le
  created := (created_modifyChunk a c _).trans h.created
  freed d hd := by
    rw [chunk?_modifyChunk, h.freed d hd]
    split <;> rfl
  live d lo hi := by
    obtain ⟨ch, hch⟩ := h.live d lo hi
    by_cases same : c = d
    · subst same
      refine ⟨{ ch with next := some (c + 1) }, ?_, ?_, hch.shown.relink _⟩
      · rw [chunk?_modifyChunk, if_pos rfl, hch.found, Option.map_some]
      · simp only [if_true]
    · refine ⟨ch, ?_, ?_, hch.shown⟩
      · rw [chunk?_modifyChunk, if_neg same, hch.found]
      · simp only [Ne.symm same, if_false, hch.next]

theorem remove (h : a.Shows s) (lt : s.first < s.last) :
    (a.remove s.first).Shows { s with first := s.first + 1 } where
  first_le := lt
  created := (created_remove a s.first).trans h.created
  freed c hc := by
    rw [chunk?_remove]
    split
    · rfl
    next apart =>
        exact h.freed c (Nat.lt_of_le_of_ne (Nat.le_of_lt_succ hc) (Ne.symm apart))
  live c lo hi := by
    obtain ⟨ch, hch⟩ := h.live c (Nat.le_of_lt lo) hi
    refine ⟨ch, ?_, hch.next, hch.shown⟩
    rw [chunk?_remove, if_neg (Nat.ne_of_lt lo), hch.found]

end Shows
end Handoff.Arena
