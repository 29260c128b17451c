import Handoff.Proofs.ChainTape
import Handoff.Proofs.TapeOrders

/-! How many elements a batch takes. Below the limit that is what is wanted, as far as
the chunk has room. Past it a chunk is linked, which takes one element, and this is not
asked for: a batch of none takes one as well. -/
namespace Handoff

variable {α E F : Type}

namespace Tape

def share (t : Tape α) (wanted : Nat) : Nat :=
  match t.room with
  | .full => 0
  | .below limit => min limit (t.claimed + wanted) - t.claimed
  | .link => 1

variable {t : Tape α} {wanted : Nat}

theorem free_eq_zero_iff (valid : t.Valid) :
    t.free = 0 ↔ t.claimed = t.consumed + t.size.capacity := by
  have := valid.consumed_le
  have := valid.claimed_le
  have := valid.limit_le
  rw [free]
  omega

theorem share_link (hr : t.room = .link) : t.share wanted = 1 := by
  rw [share, hr]

theorem share_le (asked : t.room = .link → 0 < wanted) : t.share wanted ≤ wanted := by
  unfold share
  cases hr : t.room with
  | full => exact Nat.zero_le _
  | below limit =>
      simp only
      omega
  | link => exact asked hr

theorem share_eq_zero_iff (h : t.Valid) (asked : t.room = .link → 0 < wanted) :
    t.share wanted = 0 ↔ wanted = 0 ∨ t.claimed = t.consumed + t.size.capacity := by
  have hle := h.consumed_le
  unfold share
  cases hr : t.room with
  | full => exact iff_of_true rfl (.inr (h.room_full hr))
  | below limit =>
      obtain ⟨-, hlt, hcap, -⟩ := h.room_below hr
      simp only
      omega
  | link =>
      have some := asked hr
      obtain ⟨-, -, hfree⟩ := Valid.room_link hr
      rw [free] at hfree
      simp only
      omega

theorem fill_share (h : t.Valid) (unmarked : t.marked = false) (supply : E → α × E)
    (wanted : Nat) (memory : E) :
    ∃ u, fill (Client.own supply : Client α E true .both α).run wanted ⟨t, memory⟩ =
        .ok (t.share wanted) ⟨u, (produce supply (t.share wanted) memory).2⟩ ∧
      u.claimed = t.claimed + t.share wanted ∧ u.marked = false := by
  have claim := claim_open unmarked wanted
  unfold share
  cases hr : t.room with
  | full =>
      rw [hr] at claim
      refine ⟨t, ?_, rfl, unmarked⟩
      exact Act.bind_ok (Act.onQueue_ok (w := ⟨t, memory⟩) claim) _
  | below limit =>
      rw [hr] at claim
      obtain ⟨-, hlt, -, -⟩ := h.room_below hr
      refine ⟨(t.grant limit wanted).storeAll t.claimed
        (produce supply (min limit (t.claimed + wanted) - t.claimed) memory).1, ?_, ?_, ?_⟩
      · refine (Act.bind_ok (Act.onQueue_ok (w := ⟨t, memory⟩) claim) _).trans ?_
        exact Act.bind_ok (writeRun_own supply _ t.claimed _ memory) _
      · rw [storeAll_eq]
        simp only [grant]
        omega
      · rw [storeAll_eq]
        exact unmarked
  | link =>
      rw [hr] at claim
      refine ⟨t.mark.link (supply memory).1, ?_, rfl, rfl⟩
      exact Act.bind_ok (Act.onQueue_ok (w := ⟨t, memory⟩) claim) _

end Tape

namespace Chain

namespace Models

variable {q : Chain α} {t : Tape α}

theorem linking_eq (h : q.Models t) : Index.linking q.producerIndex = t.marked := by
  rw [h.producer]
  cases t.marked with
  | false => exact Index.linking_double t.claimed
  | true => exact Index.linking_double_succ t.claimed

theorem unmarked (h : q.Models t) (clear : Index.linking q.producerIndex = false) :
    t.marked = false := h.linking_eq.symm.trans clear

theorem room_link_iff (h : q.Models t) (unmarked : t.marked = false) :
    q.room = .link ↔ t.room = .link := by
  rw [h.room_eq unmarked]
  cases t.room <;> simp [doubled]

theorem length_eq_capacity_iff (h : q.Models t) :
    q.length = q.capacity ↔ t.claimed = t.consumed + t.size.capacity := by
  have hle := h.valid.consumed_le
  rw [h.length_eq, h.capacity_eq]
  omega

end Models

/-- As long as no chunk is being linked, a batch ends, calls its supply as often as it
answers and moves the index by as much. It stays within what is wanted and takes none
only if none is wanted or the chain is full, except where the next claim links a chunk:
there it takes one even if none is wanted. -/
theorem fill_takes_share {q₀ : Chain α} (made : q₀.Made) {β : Type}
    (before : Client α E true .both β) (env : E)
    (clear : Index.linking (channelAfter (before.run ⟨q₀, env⟩)).producerIndex = false)
    (supply : F → α × F) (wanted : Nat) (memory : F) :
    let q := channelAfter (before.run ⟨q₀, env⟩)
    let run := (Client.fill rfl (.own supply) wanted : Client α F true .both Nat).run ⟨q, memory⟩
    ∃ count, verdict run = (.ok count, (produce supply count memory).2) ∧
      (channelAfter run).producerIndex = q.producerIndex + 2 * count ∧
      ((q.room = .link → 0 < wanted) →
        count ≤ wanted ∧ (count = 0 ↔ wanted = 0 ∨ q.length = q.capacity)) ∧
      (q.room = .link → count = 1) := by
  intro q run
  obtain ⟨t, models⟩ : ∃ t, q.Models t := reached made before env
  have unmarked := models.unmarked clear
  obtain ⟨u, ran, claimed, unmarked'⟩ :=
    Tape.fill_share models.valid unmarked supply wanted memory
  obtain ⟨same, -, after, -⟩ := (tape α).agree models
    (.fill rfl (.own supply) wanted : Client α F true .both Nat) memory
  have onTape : (Client.fill rfl (.own supply) wanted : Client α F true .both Nat).run
      (⟨t, memory⟩ : World (Tape α) F) =
        .ok (t.share wanted) ⟨u, (produce supply (t.share wanted) memory).2⟩ := ran
  rw [onTape] at same after
  have index := (Models.producer_open after unmarked').trans (congrArg (2 * ·) claimed)
  refine ⟨t.share wanted, same, ?_, fun asked => ?_, fun link => ?_⟩
  · rw [models.producer_open unmarked, ← Nat.mul_add]
    exact index
  · rw [models.room_link_iff unmarked] at asked
    rw [models.length_eq_capacity_iff]
    exact ⟨Tape.share_le asked, Tape.share_eq_zero_iff models.valid asked⟩
  · exact Tape.share_link ((models.room_link_iff unmarked).mp link)

/-- A batch of seven in a chunk with room for three, behind a hole that a panic left. -/
theorem fill_takes_share_behind_hole :
    let q₀ : Chain Nat := ofSize ⟨8, 16⟩
    let before : Client Nat Nat true .both (Ending Nat) :=
      .bind (.fill rfl (.done 1) 3) fun _ => .attempt (.fill rfl .panic 1)
    let q := channelAfter (before.run ⟨q₀, 0⟩)
    let run := (Client.fill rfl (.own fun n => (n, n + 1)) 7 : Client Nat Nat true .both Nat).run
      ⟨q, 10⟩
    q₀.Made ∧ Index.linking q.producerIndex = false ∧ verdict run = (.ok 3, 13) := by
  intro q₀ before q run
  have made : q₀.Made := .inl ⟨8, 16, rfl⟩
  have clear : Index.linking q.producerIndex = false := by decide +kernel
  obtain ⟨count, answered, moved, -, -⟩ :=
    fill_takes_share made before 0 clear (fun n => (n, n + 1)) 7 10
  have index : (channelAfter run).producerIndex = 14 := by decide +kernel
  have start : q.producerIndex = 8 := by decide +kernel
  have three : count = 3 := by
    rw [index, start] at moved
    omega
  subst three
  exact ⟨made, clear, answered⟩

/-- A batch of none that takes an element: the only chunk is out of room and the chain
is not. -/
theorem fill_none_takes_one :
    let q₀ : Chain Nat := ofSize ⟨2, 8⟩
    let before : Client Nat Nat true .both (Except (Full Nat) Unit) := .call rfl (.offer 7)
    let q := channelAfter (before.run ⟨q₀, 0⟩)
    let run := (Client.fill rfl (.own fun n => (n, n + 1)) 0 : Client Nat Nat true .both Nat).run
      ⟨q, 0⟩
    q₀.Made ∧ Index.linking q.producerIndex = false ∧
      ¬ ∃ count, verdict run = (.ok count, count) ∧ count ≤ 0 := by
  intro q₀ before q run
  have answered : verdict run = (.ok 1, 1) := by decide +kernel
  refine ⟨.inl ⟨2, 8, rfl⟩, by decide +kernel, ?_⟩
  rintro ⟨count, answered', le⟩
  rw [answered] at answered'
  cases answered'
  exact absurd le (by decide)

end Chain
end Handoff
