import Mathlib.Data.List.Basic
import Handoff.Proofs.Bookkeeping
import Handoff.Proofs.Recording

/-! Clients that write down what they give. A value is accepted when an offer of it
succeeds, or when a supply answers it; from then on it is the channel's. On a tape all
accepted values are in the cells, though not in the order in which they were accepted,
since calls may be made in the midst of a batch. -/
namespace Handoff

variable {α E F : Type} {shared : Bool}

def Op.accepted {side : Side} {β : Type} : Op α side β → β → List α
  | .offer v, .ok () | .relaxedOffer v, .ok () => [v]
  | .offer _, .error _ | .relaxedOffer _, .error _ => []
  | .poll, _ | .relaxedPoll, _ | .peek, _ | .relaxedPeek, _ | .look _, _ => []

namespace Client

/-- A supply that writes down the value it answers. -/
def signed {h : Handles} (supply : Client α (E × List α) shared h α) :
    Client α (E × List α) shared h α :=
  .bind supply fun v => .bind (note [v]) fun _ => .done v

/-- The client with a log of the values that it gave. -/
def audited {h : Handles} {β : Type} : Client α E shared h β → Client α (E × List α) shared h β
  | done b => .done b
  | bind first next => .bind first.audited fun b => (next b).audited
  | own work => .own fun (env, log) => ((work env).1, ((work env).2, log))
  | panic => .panic
  | stop => .stop
  | attempt body => .attempt body.audited
  | call free op => .bind (.call free op) fun b => .bind (note (op.accepted b)) fun _ => .done b
  | fill free supply limit => .fill free supply.audited.signed limit
  | fillAll free supply => .fillAll free supply.audited.signed
  | fillWith free supply wait keepRunning polls =>
    .fillWith free supply.audited.signed (fun counter => (wait counter).audited)
      keepRunning.audited polls
  | drain free consume limit => .drain free (fun v => (consume v).audited) limit
  | drainAll free consume => .drainAll free fun v => (consume v).audited
  | drainWith free consume wait keepRunning polls =>
    .drainWith free (fun v => (consume v).audited) (fun counter => (wait counter).audited)
      keepRunning.audited polls

end Client

theorem perm_filterMap_insert {i : Nat} {f : Nat → Option α} (v : α) (vacant : f i = none)
    {l : List Nat} (nodup : l.Nodup) (mem : i ∈ l) :
    (l.filterMap fun k => if k = i then some v else f k).Perm (l.filterMap f ++ [v]) := by
  induction l with
  | nil => cases mem
  | cons k l ih =>
      obtain ⟨fresh, nodup⟩ := List.nodup_cons.mp nodup
      rcases List.mem_cons.mp mem with rfl | mem
      · have rest : l.filterMap (fun k => if k = i then some v else f k) = l.filterMap f := by
          refine List.filterMap_congr fun k hk => if_neg ?_
          rintro rfl
          exact fresh hk
        rw [List.filterMap_cons, if_pos rfl, List.filterMap_cons, vacant, rest]
        exact (List.perm_append_singleton v _).symm
      · have apart : k ≠ i := by
          rintro rfl
          exact fresh mem
        rw [List.filterMap_cons, if_neg apart, List.filterMap_cons]
        cases f k with
        | none => exact ih nodup mem
        | some u => exact (ih nodup mem).cons u

theorem range_split {a b : Nat} (le : a ≤ b) :
    List.range b = List.range a ++ List.range' a (b - a) := by
  obtain ⟨c, rfl⟩ := Nat.exists_eq_add_of_le le
  rw [List.range_eq_range', List.range_eq_range', Nat.add_sub_cancel_left,
    ← List.range'_append_1, Nat.zero_add]

namespace Tape

variable {t : Tape α} {lo : Nat}

/-- What is written from cell `lo` on, consumed or not, in the order of the cells. -/
def cells (t : Tape α) (lo : Nat) : List α :=
  (List.range' lo (t.claimed - lo)).filterMap t.written

def left (t : Tape α) : List α :=
  (List.range' t.consumed (t.claimed - t.consumed)).filterMap t.written

theorem Valid.cells_eq (h : t.Valid) (begun : lo ≤ t.claimed) {n : Nat} (le : t.claimed ≤ n) :
    (List.range' lo (n - lo)).filterMap t.written = t.cells lo := by
  have none : (List.range' t.claimed (n - t.claimed)).filterMap t.written = [] :=
    List.filterMap_eq_nil_iff.mpr fun i hi => h.unwritten i (List.mem_range'_1.mp hi).1
  have split : n - lo = (t.claimed - lo) + (n - t.claimed) := by omega
  have start : lo + (t.claimed - lo) = t.claimed := by omega
  rw [split, ← List.range'_append_1, start, List.filterMap_append, none, List.append_nil, cells]

theorem Valid.cells_grant (h : t.Valid) (begun : lo ≤ t.claimed) {limit : Nat}
    (room : t.room = .below limit) (wanted : Nat) :
    (t.grant limit wanted).cells lo = t.cells lo := by
  obtain ⟨-, below, -, -⟩ := h.room_below room
  exact h.cells_eq begun (Nat.le_min.mpr ⟨Nat.le_of_lt below, Nat.le_add_right _ _⟩)

theorem perm_cells_store {i : Nat} (new : lo ≤ i) (claimed : i < t.claimed)
    (vacant : t.written i = none) (v : α) :
    ((t.store i v).cells lo).Perm (t.cells lo ++ [v]) :=
  perm_filterMap_insert v vacant (l := List.range' lo (t.claimed - lo)) List.nodup_range'
    (List.mem_range'_1.mpr ⟨new, by omega⟩)

theorem Valid.perm_cells_link (h : t.Valid) (begun : lo ≤ t.claimed) (v : α) :
    ((t.link v).cells lo).Perm (t.cells lo ++ [v]) := by
  have new := perm_filterMap_insert v (h.unwritten t.claimed (Nat.le_refl _))
    (l := List.range' lo (t.claimed + 1 - lo)) List.nodup_range'
    (List.mem_range'_1.mpr ⟨begun, by omega⟩)
  rw [h.cells_eq begun (Nat.le_succ _)] at new
  exact new

theorem Valid.cells_split (h : t.Valid) : t.cells 0 = t.handed ++ t.left := by
  have handed : (List.range t.consumed).filterMap t.written = t.handed := by
    have all := congrArg (List.filterMap id) h.handed
    rw [List.filterMap_map, List.filterMap_map] at all
    exact all.symm.trans List.filterMap_some
  rw [cells, Nat.sub_zero, ← List.range_eq_range', range_split h.consumed_le,
    List.filterMap_append, handed, left]

/-- The log of the given values: they are in the cells from `lo` on, but for one that is
about to be stored. -/
structure Audited (lo : Nat) (owed : List α) (e : E) (f : E × List α) (t : Tape α) : Prop where
  same : f.1 = e
  begun : lo ≤ t.claimed
  given : f.2.Perm (t.cells lo ++ owed)

theorem audited_books (lo : Nat) : Bookkeeping lo (Audited (α := α) (E := E) lo) where
  begun h := h.begun
  grant h valid _ room wanted := by
    obtain ⟨-, below, -, -⟩ := valid.room_below room
    have begun := h.begun
    refine ⟨h.same, ?_, ?_⟩
    · simp only [Tape.grant]
      omega
    · rw [valid.cells_grant begun room wanted]
      exact h.given
  mark h _ _ _ := ⟨h.same, h.begun, h.given⟩
  store h _ new claimed vacant := by
    refine ⟨h.same, h.begun, h.given.trans ?_⟩
    rw [List.append_nil]
    exact (perm_cells_store new claimed vacant _).symm
  link h valid _ := by
    refine ⟨h.same, Nat.le_succ_of_le h.begun, h.given.trans ?_⟩
    rw [List.append_nil]
    exact (valid.perm_cells_link h.begun _).symm
  handOut h _ _ := ⟨h.same, h.begun, h.given⟩

theorem Audited.noted {e : E} {f : E × List α} (h : Audited lo [] e f t) (v : α) :
    Audited lo [v] e (f.1, f.2 ++ [v]) t where
  same := h.same
  begun := h.begun
  given := by
    have given := h.given
    rw [List.append_nil] at given
    exact given.append_right [v]

variable {h : Handles}

theorem supplies_signed {supply : Act (World (Tape α) E) α}
    {supply' : Client α (E × List α) shared h α}
    (hs : Keeps (Audited lo) supply (supply'.run (Q := Tape α))) :
    Supplies (Audited lo) supply (supply'.signed.run (Q := Tape α)) := by
  intro w v beside
  have agree : Agree (fun x => Lands (Beside (Audited lo) [x]) ((moves α).onWorld _) v)
      (Lands (Beside (Audited lo) []) ((moves α).onWorld _) v) ((supply >>= pure) w)
      (supply'.signed.run v) := by
    refine (hs w v beside).bind ?_
    rintro x _ _ ⟨⟨valid, kept⟩, later⟩
    exact .ok ⟨.intro valid (kept.noted x), later⟩
  rwa [bind_pure] at agree

theorem keeps_call {side : Side} {β : Type} (op : Op α side β) :
    Keeps (Audited (E := E) lo) (Act.onQueue (op.perform (Q := Tape α)))
      (Noted.noting op.accepted (Act.onQueue op.perform)) := by
  -- Where nothing is accepted, the note is empty.
  have quiet : ∀ {side : Side} {β : Type} {op : Op α side β}, (∀ b, op.accepted b = []) →
      Reads (op.perform (Q := Tape α)) →
      Keeps (Audited (E := E) lo) (Act.onQueue (op.perform (Q := Tape α)))
        (Noted.noting op.accepted (Act.onQueue op.perform)) := by
    intro side β op none reads
    have noting : Keeps (Audited (E := E) lo) (Act.onQueue (op.perform (Q := Tape α)) >>= pure)
        (Noted.noting op.accepted (Act.onQueue op.perform)) := by
      apply ((audited_books lo).keeps_reads reads).bind
      intro b
      rintro _ _ ⟨valid, kept⟩
      rename_i t e f
      refine .ok ⟨.intro valid ?_, Later.refl t⟩
      rw [none b, List.append_nil]
      exact kept
    rwa [bind_pure] at noting
  have offers : ∀ {op : Op α .producer (Except (Full α) Unit)} {v : α},
      op.accepted (.ok ()) = [v] → op.accepted (.error ⟨v⟩) = [] →
      op.perform (Q := Tape α) = offer v →
      Keeps (Audited (E := E) lo) (Act.onQueue (op.perform (Q := Tape α)))
        (Noted.noting op.accepted (Act.onQueue op.perform)) := by
    intro op v accepted refused perform
    rw [perform]
    rintro _ _ ⟨valid, kept⟩
    rename_i t e f
    rcases (audited_books lo).offer_cases valid v with hx | hx | ⟨u, hx, valid', later, stored⟩
    · exact .of_error (Act.onQueue_error hx) (Act.bind_error (Act.onQueue_error hx) _) (by decide)
        ⟨.intro valid kept, Later.refl t⟩
    · refine .of_ok (Act.onQueue_ok hx) (Act.bind_ok (Act.onQueue_ok (w := ⟨t, f⟩) hx) _)
        ⟨.intro valid ?_, Later.refl t⟩
      rw [refused, List.append_nil]
      exact kept
    · refine .of_ok (Act.onQueue_ok hx) (Act.bind_ok (Act.onQueue_ok (w := ⟨t, f⟩) hx) _)
        ⟨.intro valid' (stored ?_), later⟩
      rw [accepted]
      exact kept.noted v
  cases op with
  | offer v => exact offers rfl rfl rfl
  | relaxedOffer v => exact offers rfl rfl rfl
  | look side => exact quiet (fun _ => rfl) (reads_view _)
  | poll | relaxedPoll | peek | relaxedPeek => exact quiet (fun _ => rfl) (reads_op _)

theorem keeps_audited {β : Type} (client : Client α E shared h β) :
    Keeps (Audited lo) (client.run (Q := Tape α)) (client.audited.run (Q := Tape α)) := by
  have books := audited_books (α := α) (E := E) lo
  induction client with
  | done b => exact .pure b
  | bind first next first_ih next_ih => exact .bind first_ih next_ih
  | own work =>
      rintro ⟨t, e⟩ _ ⟨valid, same, begun, given⟩
      cases same
      exact .ok ⟨.intro valid ⟨rfl, begun, given⟩, Later.refl t⟩
  | panic => exact .throw (by decide)
  | stop => exact .throw (by decide)
  | attempt body ih => exact .attempt ih
  | call free op => exact keeps_call op
  | fill free supply limit ih => exact books.keeps_fill (supplies_signed ih) limit
  | fillAll free supply ih =>
      exact .bind (books.keeps_reads (reads_view _)) fun capacity =>
        .fillRounds (books.keeps_fill (supplies_signed ih) _) capacity (capacity + 1) 0
  | fillWith free supply wait keepRunning polls ih wait_ih keep_ih =>
      exact .fillPhases (books.keeps_fill (supplies_signed ih) _) wait_ih keep_ih polls .opening
  | drain free consume limit ih => exact .drainFrom books.keeps_relaxedPoll ih 0 limit
  | drainAll free consume ih =>
      exact .bind (books.keeps_reads (reads_view _)) fun capacity =>
        .drainFrom books.keeps_relaxedPoll ih 0 capacity
  | drainWith free consume wait keepRunning polls ih wait_ih keep_ih =>
      exact .drainLoop books.keeps_relaxedPoll ih wait_ih keep_ih polls 0

/-- What an audited and recorded client gave on a tape that was empty is what it was
given and what is left. -/
theorem audited_run {β : Type} (client : Client α E shared h β) {t : Tape α} (valid : t.Valid)
    (fresh : t.claimed = 0) (start : t.handed = []) (env : E) :
    let x := client.run ⟨t, env⟩
    let y := client.recorded.audited.run ⟨t, ((env, []), [])⟩
    (verdict y).1 = (verdict x).1 ∧ (verdict y).2.1 = ((verdict x).2, (channelAfter x).handed) ∧
      (verdict y).2.2.Perm ((channelAfter x).handed ++ (channelAfter x).left) ∧
      channelAfter y = channelAfter x := by
  intro x y
  obtain ⟨answer, memory, after⟩ := Noted.recorded_run client start env
  have empty : ([] : List α).Perm (t.cells 0 ++ []) := by
    rw [cells, fresh]
    exact .nil
  have kept := keeps_audited client.recorded ⟨t, (env, [])⟩ ⟨t, ((env, []), [])⟩
    ⟨valid, rfl, Nat.zero_le _, empty⟩
  obtain ⟨answer', beside, -⟩ := kept.ends
  obtain ⟨after', valid', same, -, given⟩ := beside.holds
  rw [List.append_nil, valid'.cells_split, after] at given
  exact ⟨answer'.symm.trans answer, same.trans memory, given, after'.trans after⟩

end Tape
end Handoff
