import Handoff.Proofs.Tape
import Handoff.Proofs.Links

/-! What holds of a tape at any moment, also in the midst of a batch and after a
panic, and what a callback leaves alone in the claims of the calls around it. -/
namespace Handoff.Tape

variable {α : Type} {t u : Tape α}

theorem start_eq (t : Tape α) (c : Nat) : t.start c = Links.start t.links c := by
  cases c <;> rfl

theorem start_append {new : List Nat} (h : u.links = t.links ++ new) {c : Nat}
    (hc : c ≤ t.links.length) : u.start c = t.start c := by
  rw [start_eq, start_eq, h, Links.start_append hc]

theorem start_congr (h : u.links = t.links) (c : Nat) : u.start c = t.start c := by
  rw [start_eq, start_eq, h]

theorem start_succ {c r : Nat} (h : t.links[c]? = some r) : t.start (c + 1) = r := by
  rw [start_eq, Links.start_succ h]

/-- The invariant. Whatever may be claimed without a look at the consumer fits into
the last chunk beside the one slot that is kept for a jump, and each jump lies in
the window of its chunk. -/
structure Valid (t : Tape α) : Prop where
  fits : t.size.Fits
  consumed_le : t.consumed ≤ t.claimed
  claimed_le : t.claimed ≤ t.limit
  limit_le : t.limit ≤ t.consumed + t.size.capacity
  limit_lt : t.limit < max t.consumed (t.start t.links.length) + t.size.chunkSize
  marked : t.marked = true →
    t.limit ≤ t.claimed ∧ 0 < t.claimed ∧ t.claimed < t.consumed + t.size.capacity
  ordered : (0 :: t.links).Pairwise (· < ·)
  linked : ∀ r ∈ t.links, r < t.claimed ∧ (t.written r).isSome = true
  gap : ∀ c r, t.links[c]? = some r → r < max t.consumed (t.start c) + t.size.chunkSize
  unwritten : ∀ i, t.claimed ≤ i → t.written i = none
  handed : t.handed.map some = (List.range t.consumed).map t.written

/-- What a call may change. Cells claimed before are left alone, and while one is
marked nothing is claimed and nothing linked. -/
structure Later (t u : Tape α) : Prop where
  size : u.size = t.size
  claimed : t.claimed ≤ u.claimed
  consumed : t.consumed ≤ u.consumed
  written : ∀ i, i < t.claimed → u.written i = t.written i
  links : ∃ new, u.links = t.links ++ new ∧ ∀ r ∈ new, t.claimed ≤ r
  marked : t.marked = true → u.marked = true ∧ u.claimed = t.claimed ∧ u.links = t.links

/-- Cell `i` is claimed and not written, and its place is in chunk `c`. -/
structure Hole (t : Tape α) (c i : Nat) : Prop where
  claimed : i < t.claimed
  written : t.written i = none
  chunk : c ≤ t.links.length
  start_le : t.start c ≤ i
  lt_next : ∀ r, t.links[c]? = some r → i < r

theorem Hole.within {c i : Nat} (hole : t.Hole c i) : Links.Within t.links c i where
  chunk := hole.chunk
  start_le := by
    rw [← start_eq]
    exact hole.start_le
  lt_next := hole.lt_next

namespace Later

theorem refl (t : Tape α) : Later t t where
  size := rfl
  claimed := Nat.le_refl _
  consumed := Nat.le_refl _
  written _ _ := rfl
  links := ⟨[], (List.append_nil _).symm, fun _ h => absurd h List.not_mem_nil⟩
  marked h := ⟨h, rfl, rfl⟩

theorem trans {v : Tape α} (htu : Later t u) (huv : Later u v) : Later t v where
  size := huv.size.trans htu.size
  claimed := Nat.le_trans htu.claimed huv.claimed
  consumed := Nat.le_trans htu.consumed huv.consumed
  written i hi := (huv.written i (Nat.lt_of_lt_of_le hi htu.claimed)).trans (htu.written i hi)
  links := by
    obtain ⟨new, hnew, le⟩ := htu.links
    obtain ⟨new', hnew', le'⟩ := huv.links
    refine ⟨new ++ new', by rw [hnew', hnew, List.append_assoc], fun r hr => ?_⟩
    rcases List.mem_append.mp hr with h | h
    · exact le r h
    · exact Nat.le_trans htu.claimed (le' r h)
  marked h := by
    obtain ⟨mu, cu, lu⟩ := htu.marked h
    obtain ⟨mv, cv, lv⟩ := huv.marked mu
    exact ⟨mv, cv.trans cu, lv.trans lu⟩

theorem hole (h : Later t u) {c i : Nat} (hole : t.Hole c i) : u.Hole c i := by
  obtain ⟨new, hnew, le⟩ := h.links
  have place : Links.Within u.links c i := by
    rw [hnew]
    exact hole.within.append fun r hr => Nat.lt_of_lt_of_le hole.claimed (le r hr)
  constructor
  case claimed => exact Nat.lt_of_lt_of_le hole.claimed h.claimed
  case written => rw [h.written i hole.claimed, hole.written]
  case chunk => exact place.chunk
  case start_le =>
    rw [start_eq]
    exact place.start_le
  case lt_next => exact place.lt_next

end Later

def moves (α : Type) : Moves (Tape α) := ⟨Later, Later.refl, Later.trans⟩

namespace Valid

theorem ofSize {size : ChainSize} (fits : size.Fits) : (ofSize size : Tape α).Valid where
  fits := fits
  consumed_le := Nat.le_refl _
  claimed_le := Nat.zero_le _
  limit_le := by
    have := fits.lt
    simp only [Tape.ofSize]
    omega
  limit_lt := by
    have := fits.two_le
    simp only [Tape.ofSize, start, List.length_nil]
    omega
  marked h := absurd h Bool.false_ne_true
  ordered := List.pairwise_singleton _ _
  linked _ h := absurd h List.not_mem_nil
  gap _ _ h := by cases h
  unwritten _ _ := rfl
  handed := rfl

theorem start_lt (h : t.Valid) {c c' : Nat} (lt : c < c') (hc' : c' ≤ t.links.length) :
    t.start c < t.start c' := by
  rw [start_eq, start_eq]
  exact Links.start_lt h.ordered lt hc'

theorem start_le_claimed (h : t.Valid) {c : Nat} (hc : c ≤ t.links.length) :
    t.start c ≤ t.claimed := by
  cases c with
  | zero => exact Nat.zero_le _
  | succ c =>
      have hr : t.links[c]? = some t.links[c] := List.getElem?_eq_getElem hc
      rw [start_succ hr]
      exact Nat.le_of_lt (h.linked _ (List.mem_of_getElem? hr)).1

theorem home_unique (h : t.Valid) {c c' i : Nat} (hc : c ≤ t.links.length)
    (hc' : c' ≤ t.links.length) (start_le : t.start c ≤ i) (start_le' : t.start c' ≤ i)
    (next : ∀ r, t.links[c]? = some r → i < r) (next' : ∀ r, t.links[c']? = some r → i < r) :
    c = c' := by
  rw [start_eq] at start_le start_le'
  exact Links.Within.unique h.ordered ⟨hc, start_le, next⟩ ⟨hc', start_le', next'⟩

theorem written_of_lt (h : t.Valid) {i : Nat} (hi : i < t.consumed) :
    ∃ v, t.written i = some v := by
  have mem : t.written i ∈ t.handed.map some := by
    rw [h.handed]
    exact List.mem_map_of_mem (List.mem_range.mpr hi)
  obtain ⟨v, -, hv⟩ := List.mem_map.mp mem
  exact ⟨v, hv.symm⟩

theorem consumed_le_of_unwritten (h : t.Valid) {i : Nat} (hi : t.written i = none) :
    t.consumed ≤ i := by
  refine Nat.le_of_not_lt fun lt => ?_
  obtain ⟨v, hv⟩ := h.written_of_lt lt
  rw [hi] at hv
  cases hv

theorem lt_claimed_of_written (h : t.Valid) {i : Nat} {v : α} (hi : t.written i = some v) :
    i < t.claimed := by
  refine Nat.lt_of_not_le fun le => ?_
  rw [h.unwritten i le] at hi
  cases hi

theorem room_below (h : t.Valid) {limit : Nat} (hr : t.room = .below limit) :
    t.limit ≤ limit ∧ t.claimed < limit ∧ limit ≤ t.consumed + t.size.capacity ∧
      limit < max t.consumed (t.start t.links.length) + t.size.chunkSize := by
  have hle := h.claimed_le
  have hcap := h.limit_le
  have hlt := h.limit_lt
  have hn := h.fits.lt
  have htwo := h.fits.two_le
  unfold room at hr
  split at hr
  next below =>
      cases hr
      exact ⟨Nat.le_refl _, below, hcap, hlt⟩
  next =>
      split at hr
      next below =>
          cases hr
          exact ⟨by omega, below, by omega, by omega⟩
      next =>
          split at hr <;> cases hr

theorem room_full (h : t.Valid) (hr : t.room = .full) :
    t.claimed = t.consumed + t.size.capacity := by
  have hle := h.claimed_le
  have hcap := h.limit_le
  have hn := h.fits.lt
  have htwo := h.fits.two_le
  unfold room at hr
  split at hr
  · cases hr
  · split at hr
    · cases hr
    · split at hr
      next none =>
          have := h.consumed_le
          unfold free at none
          omega
      next => cases hr

theorem room_link (hr : t.room = .link) :
    t.limit ≤ t.claimed ∧ t.consumed + (t.size.chunkSize - 1) ≤ t.claimed ∧ 0 < t.free := by
  unfold room at hr
  split at hr
  · cases hr
  next past =>
      split at hr
      · cases hr
      next reach =>
          split at hr
          · cases hr
          next some =>
              exact ⟨Nat.le_of_not_lt past, Nat.le_of_not_lt reach, Nat.pos_of_ne_zero some⟩

theorem grant (h : t.Valid) (unmarked : t.marked = false) {limit : Nat}
    (hr : t.room = .below limit) (wanted : Nat) : (t.grant limit wanted).Valid := by
  obtain ⟨-, hlt, hcap, hwin⟩ := h.room_below hr
  have grows : t.claimed ≤ min limit (t.claimed + wanted) := by omega
  exact { h with
    consumed_le := Nat.le_trans h.consumed_le grows
    claimed_le := Nat.min_le_left _ _
    limit_le := hcap
    limit_lt := hwin
    marked := fun marked => absurd (unmarked.symm.trans marked) Bool.false_ne_true
    linked := fun r hr => ⟨Nat.lt_of_lt_of_le (h.linked r hr).1 grows, (h.linked r hr).2⟩
    unwritten := fun i hi => h.unwritten i (Nat.le_trans grows hi) }

theorem mark (h : t.Valid) (hr : t.room = .link) : t.mark.Valid := by
  obtain ⟨hle, hreach, hfree⟩ := room_link hr
  have htwo := h.fits.two_le
  refine { h with marked := fun _ => ⟨hle, ?_, ?_⟩ }
  · simp only [Tape.mark]
    omega
  · have := h.consumed_le
    simp only [free, Tape.mark] at hfree ⊢
    omega

theorem store (h : t.Valid) {i : Nat} (hi : i < t.claimed) (vacant : t.written i = none) (v : α) :
    (t.store i v).Valid := by
  have hlo := h.consumed_le_of_unwritten vacant
  refine { h with
    linked := fun r hr => ⟨(h.linked r hr).1, ?linked⟩
    unwritten := fun k hk => ?unwritten
    handed := h.handed.trans (List.map_congr_left fun k hk => ?handed) }
  case linked =>
    by_cases same : r = i
    · simp [Tape.store, same]
    · simpa [Tape.store, same] using (h.linked r hr).2
  case unwritten =>
    have apart : k ≠ i := Nat.ne_of_gt (Nat.lt_of_lt_of_le hi hk)
    simpa [Tape.store, apart] using h.unwritten k hk
  case handed =>
    have apart : k ≠ i := Nat.ne_of_lt (Nat.lt_of_lt_of_le (List.mem_range.mp hk) hlo)
    simp [Tape.store, apart]

theorem handOut (h : t.Valid) {v : α} (hv : t.written t.consumed = some v) :
    (t.handOut v).Valid := by
  have hcap := h.limit_le
  have hwin := h.limit_lt
  have same := start_congr (t := t) (u := t.handOut v) rfl
  refine { h with
    consumed_le := h.lt_claimed_of_written hv
    limit_le := ?limit_le
    limit_lt := ?limit_lt
    marked := fun marked => ?marked
    gap := fun c r hr => ?gap
    handed := ?handed }
  case limit_le =>
    simp only [Tape.handOut]
    omega
  case limit_lt =>
    rw [same]
    simp only [Tape.handOut]
    omega
  case marked =>
    obtain ⟨hle, pos, room⟩ := h.marked marked
    refine ⟨hle, pos, ?_⟩
    simp only [Tape.handOut]
    omega
  case gap =>
    have := h.gap c r hr
    rw [same]
    simp only [Tape.handOut]
    omega
  case handed =>
    rw [Tape.handOut, List.map_append, h.handed, List.range_succ, List.map_append,
      List.map_singleton, List.map_singleton, hv]

theorem written_link (v : α) {i : Nat} (apart : i ≠ t.claimed) :
    (t.link v).written i = t.written i := by
  simp only [Tape.link, Tape.store, apart, if_false]

theorem ordered_link (h : t.Valid) (pos : 0 < t.claimed) :
    (0 :: (t.links ++ [t.claimed])).Pairwise (· < ·) := by
  rw [← List.cons_append, List.pairwise_append]
  refine ⟨h.ordered, List.pairwise_singleton _ _, fun r hr s hs => ?_⟩
  rw [List.mem_singleton.mp hs]
  rcases List.mem_cons.mp hr with rfl | hr
  · exact pos
  · exact (h.linked r hr).1

theorem gap_link (h : t.Valid) (v : α) {c r : Nat} (hr : (t.links ++ [t.claimed])[c]? = some r) :
    r < max t.consumed ((t.link v).start c) + t.size.chunkSize := by
  have links : (t.link v).links = t.links ++ [t.claimed] := rfl
  rcases Nat.lt_or_ge c t.links.length with lt | ge
  · rw [List.getElem?_append_left lt] at hr
    rw [start_append links (Nat.le_of_lt lt)]
    exact h.gap c r hr
  · obtain rfl : c = t.links.length := by
      have := (List.getElem?_eq_some_iff.mp hr).1
      rw [List.length_append, List.length_singleton] at this
      omega
    rw [List.getElem?_concat_length, Option.some.injEq] at hr
    rw [start_append links (Nat.le_refl _), ← hr]
    exact Nat.lt_of_le_of_lt h.claimed_le h.limit_lt

theorem link (h : t.Valid) (marked : t.marked = true) (v : α) : (t.link v).Valid := by
  obtain ⟨hle, pos, room⟩ := h.marked marked
  have htwo := h.fits.two_le
  have hcons := h.consumed_le
  have links : (t.link v).links = t.links ++ [t.claimed] := rfl
  have last : (t.link v).start (t.link v).links.length = t.claimed := by
    rw [links, List.length_append]
    exact start_succ (by rw [links, List.getElem?_concat_length])
  refine { h with
    consumed_le := Nat.le_succ_of_le hcons
    claimed_le := ?claimed_le
    limit_le := ?limit_le
    limit_lt := ?limit_lt
    marked := fun marked => absurd marked Bool.false_ne_true
    ordered := h.ordered_link pos
    linked := fun r hr => ?linked
    gap := fun c r hr => h.gap_link v hr
    unwritten := fun i hi => ?unwritten
    handed := h.handed.trans (List.map_congr_left fun k hk => (written_link v ?handed).symm) }
  case claimed_le =>
    simp only [Tape.link, free]
    omega
  case limit_le =>
    simp only [Tape.link, Tape.store, free]
    omega
  case limit_lt =>
    rw [last]
    simp only [Tape.link, Tape.store, free]
    omega
  case linked =>
    rw [links, List.mem_append, List.mem_singleton] at hr
    rcases hr with hr | rfl
    · obtain ⟨lt, written⟩ := h.linked r hr
      refine ⟨Nat.lt_succ_of_lt lt, ?_⟩
      rw [written_link v (Nat.ne_of_lt lt)]
      exact written
    · exact ⟨Nat.lt_succ_self _, by simp [Tape.link, Tape.store]⟩
  case unwritten =>
    rw [written_link v (Nat.ne_of_gt hi)]
    exact h.unwritten i (Nat.le_of_lt hi)
  case handed => exact Nat.ne_of_lt (Nat.lt_of_lt_of_le (List.mem_range.mp hk) hcons)

end Valid

namespace Later

theorem grant (h : t.Valid) (unmarked : t.marked = false) {limit : Nat}
    (hr : t.room = .below limit) (wanted : Nat) : Later t (t.grant limit wanted) := by
  obtain ⟨-, hlt, -, -⟩ := h.room_below hr
  refine ⟨rfl, ?_, Nat.le_refl _, fun _ _ => rfl, (Later.refl t).links, fun marked => ?_⟩
  · simp only [Tape.grant]
    omega
  · exact absurd (unmarked.symm.trans marked) Bool.false_ne_true

theorem mark (t : Tape α) : Later t t.mark :=
  { Later.refl t with marked := fun _ => ⟨rfl, rfl, rfl⟩ }

theorem handOut (t : Tape α) (v : α) : Later t (t.handOut v) :=
  { Later.refl t with consumed := Nat.le_succ _ }

theorem store (h : Later t u) {i : Nat} (new : t.claimed ≤ i) (v : α) : Later t (u.store i v) where
  size := h.size
  claimed := h.claimed
  consumed := h.consumed
  written k hk := by
    have apart : k ≠ i := Nat.ne_of_lt (Nat.lt_of_lt_of_le hk new)
    simp only [Tape.store, apart, if_false]
    exact h.written k hk
  links := h.links
  marked := h.marked

theorem link (h : Later t u) (unmarked : t.marked = false) (v : α) : Later t (u.link v) where
  size := h.size
  claimed := Nat.le_succ_of_le h.claimed
  consumed := h.consumed
  written := (h.store h.claimed v).written
  links := by
    obtain ⟨new, hnew, le⟩ := h.links
    refine ⟨new ++ [u.claimed], by rw [← List.append_assoc, ← hnew]; rfl, fun r hr => ?_⟩
    rcases List.mem_append.mp hr with hr | hr
    · exact le r hr
    · exact List.mem_singleton.mp hr ▸ h.claimed
  marked marked := absurd (unmarked.symm.trans marked) Bool.false_ne_true

end Later

theorem Hole.of_grant (h : t.Valid) {limit wanted i : Nat} (lo : t.claimed ≤ i)
    (hi : i < min limit (t.claimed + wanted)) : (t.grant limit wanted).Hole t.links.length i where
  claimed := hi
  written := h.unwritten i lo
  chunk := Nat.le_refl _
  start_le := by
    rw [start_congr rfl]
    exact Nat.le_trans (h.start_le_claimed (Nat.le_refl _)) lo
  lt_next := Links.lt_next_last i

theorem Hole.store {c i k : Nat} (hole : t.Hole c k) (apart : k ≠ i) (v : α) :
    (t.store i v).Hole c k where
  claimed := hole.claimed
  written := by
    simp only [Tape.store, apart, if_false]
    exact hole.written
  chunk := hole.chunk
  start_le := by
    rw [start_congr rfl]
    exact hole.start_le
  lt_next := hole.lt_next

end Handoff.Tape
