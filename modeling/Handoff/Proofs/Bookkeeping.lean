import Handoff.Proofs.TapeInvariant

/-! Records beside a tape. Of two runs on the same tape one has more memory and keeps a
record in it. What the record says must be kept by every step of the tape. A value that
a supply has answered is owed to the tape until it is stored, and callbacks of the calls
in between see the record as it is then. -/
namespace Handoff

variable {α E F Q R γ : Type}

theorem Agree.ends {left : World Q E → World R F → Prop} {x : EStateM.Result Halt (World Q E) γ}
    {y : EStateM.Result Halt (World R F) γ} (h : Agree (fun _ => left) left x y) :
    (verdict x).1 = (verdict y).1 ∧
      left ⟨channelAfter x, (verdict x).2⟩ ⟨channelAfter y, (verdict y).2⟩ := by
  cases h with
  | ok related => exact ⟨rfl, related⟩
  | error _ related => exact ⟨rfl, related⟩

namespace Tape

variable {t u : Tape α}

theorem claim_cases (t : Tape α) (wanted : Nat) :
    claim wanted t = .error .spinning t ∨ claim wanted t = .ok .full t ∨
      (∃ limit, t.marked = false ∧ t.room = .below limit ∧
        claim wanted t = .ok (.run t.claimed (min limit (t.claimed + wanted) - t.claimed))
          (t.grant limit wanted)) ∨
      t.marked = false ∧ t.room = .link ∧ claim wanted t = .ok .link t.mark := by
  cases marked : t.marked with
  | true =>
      left
      rw [claim, Act.bind_view, marked]
      rfl
  | false =>
      right
      rw [claim_open marked]
      cases room : t.room with
      | full => exact .inl rfl
      | below limit => exact .inr (.inl ⟨limit, rfl, rfl, rfl⟩)
      | link => exact .inr (.inr ⟨rfl, rfl, rfl⟩)

theorem marked_of_spinning {wanted : Nat} (hx : claim wanted t = .error .spinning t) :
    t.marked = true := by
  cases marked : t.marked with
  | true => rfl
  | false =>
      rw [claim_open marked] at hx
      cases room : t.room <;> simp [room] at hx

/-- What a record says of the tape, given the memory of either run, and that each step
keeps it. The cells before `lo` were claimed before the record was begun, so no step
stores there. -/
structure Bookkeeping (lo : Nat) (record : List α → E → F → Tape α → Prop) : Prop where
  begun : ∀ {owed e f t}, record owed e f t → lo ≤ t.claimed
  grant : ∀ {owed e f t limit}, record owed e f t → t.Valid → t.marked = false →
    t.room = .below limit → ∀ wanted, record owed e f (t.grant limit wanted)
  mark : ∀ {owed e f t}, record owed e f t → t.Valid → t.marked = false → t.room = .link →
    record owed e f t.mark
  store : ∀ {v e f t i}, record [v] e f t → t.Valid → lo ≤ i → i < t.claimed →
    t.written i = none → record [] e f (t.store i v)
  link : ∀ {v e f t}, record [v] e f t → t.Valid → t.marked = true → record [] e f (t.link v)
  handOut : ∀ {v e f t}, record [] e f t → t.Valid → t.written t.consumed = some v →
    record [] e f (t.handOut v)

/-- The two runs, with the same tape. -/
inductive Beside (record : List α → E → F → Tape α → Prop) (owed : List α) :
    World (Tape α) E → World (Tape α) F → Prop
  | intro {t : Tape α} {e : E} {f : F} (valid : t.Valid) (kept : record owed e f t) :
      Beside record owed ⟨t, e⟩ ⟨t, f⟩

variable {record : List α → E → F → Tape α → Prop}

theorem Beside.holds {owed : List α} {w : World (Tape α) E} {v : World (Tape α) F}
    (h : Beside record owed w v) :
    v.queue = w.queue ∧ w.queue.Valid ∧ record owed w.env v.env w.queue := by
  cases h with
  | intro valid kept => exact ⟨rfl, valid, kept⟩

/-- Both runs make the same call and the record is kept. -/
abbrev Keeps (record : List α → E → F → Tape α → Prop) (act : Act (World (Tape α) E) γ)
    (act' : Act (World (Tape α) F) γ) : Prop :=
  Tracks (Beside record []) ((moves α).onWorld F) act act'

/-- Both runs supply the same value, which is then owed. -/
def Supplies (record : List α → E → F → Tape α → Prop) (supply : Act (World (Tape α) E) α)
    (supply' : Act (World (Tape α) F) α) : Prop :=
  ∀ w v, Beside record [] w v →
    Agree (fun x => Lands (Beside record [x]) ((moves α).onWorld F) v)
      (Lands (Beside record []) ((moves α).onWorld F) v) (supply w) (supply' v)

/-- A call that takes the next value at most. -/
def Reads (act : Act (Tape α) γ) : Prop :=
  ∀ t, match act t with
    | .ok _ u => u = t ∨ ∃ v, t.written t.consumed = some v ∧ u = t.handOut v
    | .error e u => e ≠ .misused ∧ u = t

theorem reads_view (f : Tape α → γ) : Reads (Act.view f) := fun _ => .inl rfl

theorem reads_relaxedPoll : Reads (relaxedPoll : Act (Tape α) (Option α)) := by
  intro t
  rw [relaxedPoll_eq]
  cases written : t.written t.consumed with
  | none => exact .inl rfl
  | some v => exact .inr ⟨v, rfl, rfl⟩

theorem Reads.waiting {attempt : Act (Tape α) (Option α)} (h : Reads attempt)
    (nothing : ∀ t u, attempt t = .ok none u → u = t) : Reads (waiting attempt) := by
  intro t
  have ht := h t
  cases hx : attempt t with
  | error e u =>
      rw [hx] at ht
      rw [Tape.waiting, Act.bind_error hx]
      exact ht
  | ok found u =>
      rw [hx] at ht
      rw [Tape.waiting, Act.bind_ok hx]
      cases found with
      | some v => exact ht
      | none =>
          have same := nothing t u hx
          simp only
          rw [Act.bind_view]
          cases u.isEmpty with
          | true => exact ht
          | false => exact ⟨by decide, same⟩

theorem reads_op {β : Type} (op : Op α .consumer β) : Reads (op.perform (Q := Tape α)) := by
  cases op with
  | poll =>
      apply reads_relaxedPoll.waiting
      intro t u hx
      rw [relaxedPoll_eq] at hx
      cases written : t.written t.consumed with
      | none =>
          rw [written] at hx
          cases hx
          rfl
      | some v =>
          rw [written] at hx
          cases hx
  | relaxedPoll => exact reads_relaxedPoll
  | peek => exact (reads_view _).waiting fun t u hx => (EStateM.Result.ok.inj hx).2.symm
  | relaxedPeek => exact reads_view _
  | look _ => exact reads_view _

namespace Bookkeeping

variable {lo : Nat} (books : Bookkeeping lo record)
include books

theorem keeps_reads {act : Act (Tape α) γ} (h : Reads act) :
    Keeps record (Act.onQueue act) (Act.onQueue act) := by
  rintro _ _ ⟨valid, kept⟩
  rename_i t e f
  have ht := h t
  cases hx : act t with
  | error e u =>
      rw [hx] at ht
      obtain ⟨sound, rfl⟩ := ht
      exact .of_error (Act.onQueue_error hx) (Act.onQueue_error hx) sound
        ⟨.intro valid kept, Later.refl u⟩
  | ok b u =>
      rw [hx] at ht
      refine .of_ok (Act.onQueue_ok hx) (Act.onQueue_ok hx) ?_
      rcases ht with rfl | ⟨v, written, rfl⟩
      · exact ⟨.intro valid kept, Later.refl u⟩
      · exact ⟨.intro (valid.handOut written) (books.handOut kept valid written), .handOut t v⟩

theorem keeps_relaxedPoll :
    Keeps record (Act.onQueue relaxedPoll) (Act.onQueue relaxedPoll) :=
  books.keeps_reads reads_relaxedPoll

theorem offer_cases (valid : t.Valid) (v : α) :
    offer v t = .error .spinning t ∨ offer v t = .ok (.error ⟨v⟩) t ∨
      ∃ u, offer v t = .ok (.ok ()) u ∧ u.Valid ∧ Later t u ∧
        ∀ {e f}, record [v] e f t → record [] e f u := by
  rcases claim_cases t 1 with hx | hx | ⟨limit, unmarked, room, hx⟩ | ⟨unmarked, room, hx⟩
  · exact .inl (Act.bind_error hx _)
  · exact .inr (.inl (Act.bind_ok hx _))
  · obtain ⟨-, below, -, -⟩ := valid.room_below room
    have granted := valid.grant unmarked room 1
    have claimed : t.claimed < (t.grant limit 1).claimed := by
      simp only [Tape.grant]
      omega
    have vacant : (t.grant limit 1).written t.claimed = none := valid.unwritten _ (Nat.le_refl _)
    refine .inr (.inr ⟨_, Act.bind_ok hx _, granted.store claimed vacant v, ?_, ?_⟩)
    · exact (Later.grant valid unmarked room 1).store (Nat.le_refl _) v
    · intro e f kept
      exact books.store (books.grant kept valid unmarked room 1) granted (books.begun kept) claimed
        vacant
  · have marked := valid.mark room
    refine .inr (.inr ⟨_, Act.bind_ok hx _, marked.link rfl v, ?_, ?_⟩)
    · exact (Later.mark t).link unmarked v
    · intro e f kept
      exact books.link (books.mark kept valid unmarked room) marked rfl

variable {supply : Act (World (Tape α) E) α} {supply' : Act (World (Tape α) F) α}

theorem writeRun_agree (hs : Supplies record supply supply') {v₀ : World (Tape α) F}
    (begun : lo ≤ v₀.queue.claimed) (count : Nat) :
    ∀ (i : Nat) (w : World (Tape α) E) (v : World (Tape α) F),
      Lands (Beside record []) ((moves α).onWorld F) v₀ w v → v₀.queue.claimed ≤ i →
      (∀ k, i ≤ k → k < i + count → k < v.queue.claimed ∧ v.queue.written k = none) →
      Agree (fun _ => Lands (Beside record []) ((moves α).onWorld F) v₀)
        (Lands (Beside record []) ((moves α).onWorld F) v₀)
        (writeRun supply i count w) (writeRun supply' i count v) := by
  -- The cells from `i` on that the batch has yet to write are claimed and not written.
  induction count with
  | zero => exact fun i w v lands _ _ => .ok lands
  | succ count ih =>
      intro i w v lands own holes
      refine .bind ((hs w v lands.1).mono (fun _ _ _ h => h) fun _ _ h =>
        ⟨h.1, lands.2.trans h.2⟩) ?_
      rintro x _ _ ⟨@⟨t, e, f, valid, kept⟩, later⟩
      have later₀ : Later v₀.queue t := lands.2.trans later
      have left : ∀ k, i ≤ k → k < i + (count + 1) → k < t.claimed ∧ t.written k = none := by
        intro k lo hi
        obtain ⟨claimed, vacant⟩ := holes k lo hi
        exact ⟨Nat.lt_of_lt_of_le claimed later.claimed, (later.written k claimed).trans vacant⟩
      obtain ⟨claimed, vacant⟩ := left i (Nat.le_refl i) (by omega)
      have stored : Beside record [] ⟨t.store i x, e⟩ ⟨t.store i x, f⟩ :=
        .intro (valid.store claimed vacant x)
          (books.store kept valid (Nat.le_trans begun own) claimed vacant)
      refine ih (i + 1) _ _ ⟨stored, later₀.store own x⟩ (Nat.le_succ_of_le own) ?_
      intro k lo hi
      obtain ⟨claimed', vacant'⟩ := left k (Nat.le_of_succ_le lo) (by omega)
      have apart : k ≠ i := Nat.ne_of_gt lo
      exact ⟨claimed', by simp only [Tape.store, apart, if_false, vacant']⟩

theorem keeps_fill (hs : Supplies record supply supply') (wanted : Nat) :
    Keeps record (Tape.fill supply wanted) (Tape.fill supply' wanted) := by
  rintro _ _ ⟨valid, kept⟩
  rename_i t e f
  rcases claim_cases t wanted with hx | hx | ⟨limit, unmarked, room, hx⟩ | ⟨unmarked, room, hx⟩
  · exact .of_error (Act.bind_error (Act.onQueue_error hx) _)
      (Act.bind_error (Act.onQueue_error hx) _) (by decide) ⟨.intro valid kept, Later.refl t⟩
  · exact .of_ok (Act.bind_ok (Act.onQueue_ok (w := ⟨t, e⟩) hx) _)
      (Act.bind_ok (Act.onQueue_ok (w := ⟨t, f⟩) hx) _) ⟨.intro valid kept, Later.refl t⟩
  · rw [Tape.fill, Act.bind_ok (Act.onQueue_ok hx), Tape.fill, Act.bind_ok (Act.onQueue_ok hx)]
    have granted : Lands (Beside record []) ((moves α).onWorld F) ⟨t, f⟩
        ⟨t.grant limit wanted, e⟩ ⟨t.grant limit wanted, f⟩ :=
      ⟨.intro (valid.grant unmarked room wanted) (books.grant kept valid unmarked room wanted),
        .grant valid unmarked room wanted⟩
    refine .bind
      (books.writeRun_agree hs (books.begun kept) _ t.claimed _ _ granted (Nat.le_refl _) ?_) ?_
    · intro k lo hi
      refine ⟨?_, valid.unwritten k lo⟩
      simp only [Tape.grant]
      omega
    · exact fun _ _ _ lands => .ok lands
  · rw [Tape.fill, Act.bind_ok (Act.onQueue_ok hx), Tape.fill, Act.bind_ok (Act.onQueue_ok hx)]
    have mark := Later.mark t
    have marked : Beside record [] ⟨t.mark, e⟩ ⟨t.mark, f⟩ :=
      .intro (valid.mark room) (books.mark kept valid unmarked room)
    refine .bind ((hs _ _ marked).mono (fun _ _ _ h => h) fun _ _ h =>
      ⟨h.1, mark.trans h.2⟩) ?_
    rintro x _ _ ⟨@⟨u, e', f', valid', kept'⟩, later⟩
    obtain ⟨still, -, -⟩ := later.marked rfl
    exact .ok ⟨.intro (valid'.link still x) (books.link kept' valid' still),
      (mark.trans later).link unmarked x⟩

end Bookkeeping
end Tape
end Handoff
