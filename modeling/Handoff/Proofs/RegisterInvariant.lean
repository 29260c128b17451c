import Handoff.Proofs.Register

/-! The invariant of the register is kept by every change, and what one thread relies on
is left alone by the changes of the others. -/
namespace Handoff.Register

variable {α : Type} {g g' : Register α} {p m c i r : Nat} {v : α}

namespace Valid

theorem last_le_length (h : g.Valid) : g.last ≤ g.claims.length := by
  unfold last
  rcases Nat.eq_zero_or_pos g.links.length with zero | pos
  · rw [zero]
    exact Nat.zero_le _
  · exact Nat.le_of_lt (h.linked _ (Links.start_mem pos (Nat.le_refl _)))

theorem taken_le_of_unwritten (h : g.Valid) (unwritten : g.written i = false) : g.taken ≤ i := by
  apply Nat.le_of_not_lt
  intro lt
  rw [h.written i lt] at unwritten
  cases unwritten

theorem taken_le_length (h : g.Valid) : g.taken ≤ g.claims.length := by
  refine h.taken_le_of_unwritten (Bool.eq_false_iff.mpr fun written => ?_)
  exact Nat.lt_irrefl _ (h.lt_length _ written)

theorem published_lt (h : g.Valid) :
    g.published < g.base g.links.length + g.size.chunkSize := by
  have two := h.fits.two_le
  have hcons := h.consumed_le
  have hpub := h.published_le
  simp only [reach, base, last] at hpub ⊢
  omega

theorem lt_window (h : g.Valid) (hi : i ≤ g.published) (within : Links.Within g.links c i) :
    i < g.base c + g.size.chunkSize := by
  rcases Nat.lt_or_eq_of_le within.chunk with lt | rfl
  · have hr : g.links[c]? = some g.links[c] := List.getElem?_eq_getElem lt
    exact Nat.lt_trans (within.lt_next _ hr) (h.gap c _ hr)
  · exact Nat.lt_of_le_of_lt hi h.published_lt

theorem joined_lt (h : g.Valid) (joined : g.joined c = true) : c < g.links.length := by
  obtain ⟨r, hr, -⟩ := h.joined c joined
  exact (List.getElem?_eq_some_iff.mp hr).1

theorem head_le_of_hole (h : g.Valid) (hole : g.Hole p c i v) : g.head ≤ c := by
  -- The consumer does not pass a hole, so its chunk is not freed.
  apply Nat.le_of_not_lt
  intro lt
  have hc : c < g.links.length := Nat.lt_of_lt_of_le lt h.head_le
  have hr : g.links[c]? = some g.links[c] := List.getElem?_eq_getElem hc
  have next := hole.within.lt_next _ hr
  have later := Links.start_mono h.ordered (c := c + 1) lt h.head_le
  rw [Links.start_succ hr] at later
  have start := h.head_start
  have cons := h.consumed_le
  have past := h.taken_le_of_unwritten hole.unwritten
  omega

theorem head_le_of_unjumped (h : g.Valid) (unjumped : g.jumped c = false) : g.head ≤ c := by
  apply Nat.le_of_not_lt
  intro lt
  rw [h.passed c lt] at unjumped
  cases unjumped

theorem start_lt_link (h : g.Valid) (link : g.links[c]? = some r) : Links.start g.links c < r := by
  have lt := (List.getElem?_eq_some_iff.mp link).1
  have := Links.start_lt h.ordered (Nat.lt_succ_self c) lt
  rwa [Links.start_succ link] at this

theorem taken_le_link (h : g.Valid) (live : g.head ≤ c) (link : g.links[c]? = some r) :
    g.taken ≤ r := by
  rcases Nat.lt_or_eq_of_le live with lt | rfl
  · have hc := (List.getElem?_eq_some_iff.mp link).1
    have hhead : g.head < g.links.length := Nat.lt_trans lt hc
    have hr : g.links[g.head]? = some g.links[g.head] := List.getElem?_eq_getElem hhead
    have first := h.head_next _ hr
    have later := Links.start_mono h.ordered (c := g.head + 1) lt (Nat.le_of_lt hc)
    rw [Links.start_succ hr] at later
    have own := h.start_lt_link link
    omega
  · exact h.head_next r link

theorem claim (h : g.Valid) {vs : List α} (unmarked : g.marked = false)
    (room : g.claims.length + vs.length ≤ g.reach) : (g.claim p vs).Valid := by
  have grows : g.claims.length ≤ (g.claim p vs).claims.length := by
    rw [Register.claim, List.length_append]
    exact Nat.le_add_right _ _
  have length : (g.claim p vs).claims.length = g.claims.length + vs.length := by
    rw [Register.claim, List.length_append, List.length_map]
  refine { h with
    length_le := ?_
    published_le := ?_
    marked := fun marked => absurd (unmarked.symm.trans marked) Bool.false_ne_true
    linked := fun r hr => Nat.lt_of_lt_of_le (h.linked r hr) grows
    lt_length := fun i hi => Nat.lt_of_lt_of_le (h.lt_length i hi) grows }
  · rw [length]
    exact Nat.le_trans room (Nat.min_le_left _ _)
  · rw [published_open (g := g.claim p vs) unmarked, length]
    exact room

theorem mark (h : g.Valid) (unmarked : g.marked = false)
    (room : g.claims.length < g.consumed + g.size.capacity) : (g.mark p v).Valid := by
  have length : (g.mark p v).claims.length = g.claims.length + 1 := by
    rw [Register.mark, List.length_append, List.length_singleton]
  have published : (g.mark p v).published = g.published := by
    rw [published_open unmarked, Register.published, length]
    rfl
  refine { h with
    length_le := ?_
    published_le := published ▸ h.published_le
    marked := fun _ => ?_
    linked := fun r hr => ?_
    lt_length := fun i hi => ?_ }
  · rw [length]
    exact room
  · rw [length]
    exact Nat.succ_pos _
  · rw [length]
    exact Nat.lt_succ_of_lt (h.linked r hr)
  · rw [length]
    exact Nat.lt_succ_of_lt (h.lt_length i hi)

theorem written_store (hi : g.written i = true) (k : Nat) : (g.store k).written i = true := by
  simp only [Register.store, hi, ite_self]

theorem store (h : g.Valid) (hole : g.Hole p c i v) : (g.store i).Valid := by
  refine { h with
    lt_length := fun k hk => ?_
    written := fun k hk => written_store (h.written k hk) i
    joined := fun d hd => ?_ }
  · by_cases here : k = i
    · rw [here]
      exact lt_length_of_own hole.own
    · simp only [Register.store, here, if_false] at hk
      exact h.lt_length k hk
  · obtain ⟨r, hr, written⟩ := h.joined d hd
    exact ⟨r, hr, written_store written i⟩

theorem grow (h : g.Valid) (held : g.Held p m v) (unwritten : g.written m = false)
    (ordered : (0 :: (g.links ++ [m])).Pairwise (· < ·)) : g.grow.Valid := by
  have links : g.grow.links = g.links ++ [m] := by rw [Register.grow, held.published]
  have length : g.grow.links.length = g.links.length + 1 := by
    rw [links, List.length_append, List.length_singleton]
  have last : g.grow.last = m := by rw [Register.last, length, links, Links.start_concat]
  have start : ∀ {d}, d ≤ g.links.length → Links.start g.grow.links d = Links.start g.links d := by
    intro d hd
    rw [links, Links.start_append hd]
  have le : g.last ≤ m := by
    have later := Links.start_mono ordered (Nat.le_succ g.links.length)
      (Nat.le_of_eq (by rw [← links, length]))
    rw [Nat.succ_eq_add_one, Links.start_concat, ← links, start (Nat.le_refl _)] at later
    exact later
  refine { h with
    published_le := ?published_le
    ordered := links ▸ ordered
    linked := fun r hr => ?linked
    gap := fun d r hr => ?gap
    joined := fun d hd => ?joined
    head_le := length ▸ Nat.le_succ_of_le h.head_le
    head_start := (start h.head_le).symm ▸ h.head_start
    head_next := fun r hr => ?head_next }
  case published_le =>
    have hpub : g.grow.published ≤ g.reach := h.published_le
    exact Nat.le_trans hpub (reach_mono rfl (Nat.le_refl _) (last ▸ le))
  case linked =>
    rw [links, List.mem_append, List.mem_singleton] at hr
    rcases hr with hr | rfl
    · exact h.linked r hr
    · exact lt_length_of_own held.own
  case gap =>
    have hd : d < g.links.length + 1 := length ▸ (List.getElem?_eq_some_iff.mp hr).1
    have base : g.grow.base d = g.base d := by
      rw [Register.base, start (Nat.le_of_lt_succ hd)]
      rfl
    rw [base]
    rw [links] at hr
    rcases Nat.lt_or_eq_of_le (Nat.le_of_lt_succ hd) with lt | rfl
    · rw [List.getElem?_append_left lt] at hr
      exact h.gap d r hr
    · rw [List.getElem?_concat_length, Option.some.injEq] at hr
      have := h.published_lt
      rwa [held.published, hr] at this
  case joined =>
    obtain ⟨r, hr, written⟩ := h.joined d hd
    refine ⟨r, ?_, written⟩
    rw [links, List.getElem?_append_left (h.joined_lt hd), hr]
  case head_next =>
    rw [links] at hr
    rcases Nat.lt_or_eq_of_le h.head_le with lt | eq
    · have hr : (g.links ++ [m])[g.head]? = some r := hr
      rw [List.getElem?_append_left lt] at hr
      exact h.head_next r hr
    · have hr : (g.links ++ [m])[g.head]? = some r := hr
      rw [eq, List.getElem?_concat_length, Option.some.injEq] at hr
      exact hr ▸ h.taken_le_of_unwritten unwritten

theorem join (h : g.Valid) (link : g.links[c]? = some r) (written : g.written r = true) :
    (g.join c).Valid := by
  refine { h with
    joined := fun d hd => ?_
    jumped := fun d hd => ?_ }
  · by_cases here : d = c
    · exact ⟨r, here ▸ link, written⟩
    · simp only [Register.join, here, if_false] at hd
      exact h.joined d hd
  · have := h.jumped d hd
    simp only [Register.join, this, ite_self]

theorem settle (h : g.Valid) (held : g.Held p m v) (last : g.last = m) : g.settle.Valid := by
  have two := h.fits.two_le
  have hlen := h.length_le
  refine { h with
    published_le := ?_
    marked := fun marked => absurd marked Bool.false_ne_true }
  rw [held.length] at hlen
  have reach : g.settle.reach = g.reach := rfl
  rw [published_open rfl, reach, Register.reach, last]
  refine Nat.le_min.mpr ⟨?_, ?_⟩
  · simp only [Register.settle, held.length]
    exact hlen
  · simp only [Register.settle, held.length]
    omega

theorem jump (h : g.Valid) (joined : g.joined c = true) : (g.jump c).Valid := by
  refine { h with
    jumped := fun d hd => ?_
    passed := fun d hd => ?_ }
  · by_cases here : d = c
    · exact here ▸ joined
    · simp only [Register.jump, here, if_false] at hd
      exact h.jumped d hd
  · have := h.passed d hd
    simp only [Register.jump, this, ite_self]

theorem change (h : g.Valid) (change : Change p g g') : g'.Valid := by
  cases change with
  | stay => exact h
  | claim unmarked room => exact h.claim unmarked room
  | mark unmarked room => exact h.mark unmarked room
  | store hole => exact h.store hole
  | grow held unwritten ordered => exact h.grow held unwritten ordered
  | join link own written => exact h.join link written
  | settle held last => exact h.settle held last
  | jump link own joined => exact h.jump joined

theorem leave (h : g.Valid) (link : g.links[g.head]? = some g.consumed)
    (taken : g.taken = g.consumed) (jumped : g.jumped g.head = true) : g.leave.Valid := by
  have lt := (List.getElem?_eq_some_iff.mp link).1
  refine { h with
    head_le := lt
    head_start := Nat.le_of_eq (Links.start_succ link)
    head_next := fun r hr => ?_
    passed := fun c hc => ?_ }
  · have later := h.start_lt_link hr
    rw [Register.leave, Links.start_succ link] at later
    exact taken ▸ Nat.le_of_lt later
  · rcases Nat.lt_or_eq_of_le (Nat.le_of_lt_succ hc) with lt | rfl
    · exact h.passed c lt
    · exact jumped

theorem take (h : g.Valid) (settled : g.Settled) (written : g.written g.taken = true) :
    g.take.Valid := by
  refine { h with
    consumed_le := Nat.le_succ_of_le h.consumed_le
    gap := fun c r hr => ?_
    written := fun i hi => ?_
    head_next := fun r hr => settled r hr }
  · have := h.gap c r hr
    simp only [base, Register.take] at this ⊢
    omega
  · rcases Nat.lt_or_eq_of_le (Nat.le_of_lt_succ hi) with lt | rfl
    · exact h.written i lt
    · exact written

theorem pass (h : g.Valid) : g.pass.Valid := by
  have cons := h.consumed_le
  refine { h with
    consumed_le := Nat.le_refl _
    length_le := Nat.le_trans h.length_le (Nat.add_le_add_right cons _)
    published_le := Nat.le_trans h.published_le (reach_mono rfl cons (Nat.le_refl _))
    head_start := Nat.le_trans h.head_start cons }

theorem progress (h : g.Valid) (progress : Progress g g') : g'.Valid := by
  cases progress with
  | stay => exact h
  | leave link taken jumped => exact h.leave link taken jumped
  | take settled written => exact h.take settled written
  | pass => exact h.pass

end Valid
end Handoff.Register
