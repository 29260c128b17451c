import Handoff.Proofs.Auditing
import Handoff.Proofs.ChainLayout
import Handoff.Proofs.Framing

/-! Batches whose callbacks use the chain. A batch claims all its cells before it asks
for the first value, so whatever a callback claims lies behind them, however deep it is
nested. As long as one of these cells is not written, the consumer cannot leave the
chunk that they are in. -/
namespace Handoff

variable {α β E F Q R : Type} {shared : Bool} {h : Handles}

namespace Tape

variable {t u : Tape α} {c lo : Nat}

/-- The chunk cannot be left: it is the last, or one of its cells is claimed and not
written. -/
def Needs (t : Tape α) (c : Nat) : Prop := c = t.links.length ∨ ∃ i, t.Hole c i

theorem cells_store_before {i : Nat} (before : i < lo) (v : α) :
    (t.store i v).cells lo = t.cells lo := by
  refine List.filterMap_congr fun k hk => if_neg ?_
  have := (List.mem_range'_1.mp hk).1
  omega

theorem cells_self (t : Tape α) : t.cells t.claimed = [] := by
  rw [cells, Nat.sub_self]
  rfl

/-- A batch has written its cells from `i` up to `lo`, in the order in which they were
supplied, and its callbacks have given what is in the cells from `lo` on. -/
structure Nested (lo i : Nat) (u : Tape α) (before : List α) (w : World (Tape α) E)
    (v : World (Tape α) ((E × List α) × List α)) : Prop where
  queue : v.queue = w.queue
  audited : Audited lo [] w.env v.env.1 v.queue
  listed : ∃ values, v.env.2 = before ++ values ∧
    values.map some = (List.range' i (lo - i)).map v.queue.written
  earlier : ∀ k, k < i → v.queue.written k = u.written k

/-- A batch has halted in a callback, and the chunk that it writes to is still needed. -/
structure Cut (c : Nat) (w : World (Tape α) E)
    (v : World (Tape α) ((E × List α) × List α)) : Prop where
  queue : v.queue = w.queue
  same : v.env.1.1 = w.env
  needed : v.queue.Needs c

theorem Nested.cons {u' : Tape α} {i : Nat} {x : α} {before : List α} {w : World (Tape α) E}
    {v : World (Tape α) ((E × List α) × List α)} (lt : i < lo)
    (rest : Nested lo (i + 1) (u'.store i x) (before ++ [x]) w v)
    (same : ∀ k, k < i → u'.written k = u.written k) : Nested lo i u before w v where
  queue := rest.queue
  audited := rest.audited
  listed := by
    obtain ⟨values, log, found⟩ := rest.listed
    have here : v.queue.written i = some x :=
      (rest.earlier i (Nat.lt_succ_self i)).trans (if_pos rfl)
    have split : lo - i = (lo - (i + 1)) + 1 := by omega
    refine ⟨x :: values, by rw [log, List.append_assoc]; rfl, ?_⟩
    rw [split, List.range'_succ, List.map_cons, List.map_cons, found, here]
  earlier k before := by
    have apart : (u'.store i x).written k = u'.written k := if_neg (Nat.ne_of_lt before)
    rw [rest.earlier k (Nat.lt_succ_of_lt before), apart, same k before]

variable {supply : Act (World (Tape α) E) α} {supply' : Act (World (Tape α) (E × List α)) α}

theorem writeRun_nested (hs : Keeps (Audited lo) supply supply') (count : Nat) :
    ∀ (i : Nat) (u : Tape α) (e : E) (f : E × List α) (before : List α), u.Valid →
      Audited lo [] e f u → i + count = lo → (∀ k, i ≤ k → k < lo → u.Hole c k) →
      Agree (fun _ => Nested lo i u before) (Cut c) (writeRun supply i count ⟨u, e⟩)
        (writeRun (Act.listed supply') i count ⟨u, (f, before)⟩) := by
  -- The cells of the batch from `i` on are holes of chunk `c`.
  induction count with
  | zero =>
      rintro i u e f before - kept rfl -
      refine .ok ⟨rfl, kept, ⟨[], (List.append_nil _).symm, ?_⟩, fun _ _ => rfl⟩
      rw [Nat.add_zero, Nat.sub_self]
      rfl
  | succ count ih =>
      intro i u e f before valid kept upTo holes
      have supplied := (hs ⟨u, e⟩ ⟨u, f⟩ (.intro valid kept)).listed before
      refine (supplied.mono (fun _ _ _ x => x) ?cut).bind ?next
      case cut =>
        rintro w v ⟨beside, later⟩
        obtain ⟨queue, -, kept⟩ := beside.holds
        exact ⟨queue, kept.same, .inr ⟨i, later.hole (holes i (Nat.le_refl i) (by omega))⟩⟩
      case next =>
        rintro x ⟨_, e'⟩ ⟨u', f', _⟩ ⟨⟨beside, later⟩, rfl⟩
        obtain ⟨rfl, valid', kept'⟩ := beside.holds
        -- Whatever the callback did, the cells of the batch are still its own.
        have left : ∀ k, i ≤ k → k < lo → u'.Hole c k := fun k le lt => later.hole (holes k le lt)
        have hole := left i (Nat.le_refl i) (by omega)
        have stored : Audited lo [] e' f' (u'.store i x) := by
          refine ⟨kept'.same, kept'.begun, ?_⟩
          rw [cells_store_before (by omega)]
          exact kept'.given
        have rest := ih (i + 1) (u'.store i x) e' f' (before ++ [x])
          (valid'.store hole.claimed hole.written x) stored (by omega)
          fun k le lt => (left k (Nat.le_of_succ_le le) lt).store (Nat.ne_of_gt le) x
        have same : ∀ k, k < i → u'.written k = u.written k :=
          fun k lt => later.written k (Nat.lt_of_lt_of_le (by omega) kept.begun)
        exact rest.mono (fun _ _ _ nested => nested.cons (by omega) same) fun _ _ cut => cut

/-- A batch of `count` that is done: its values are in the cells from `start` on, in the
order in which they were supplied, and those that its callbacks gave are behind them. -/
structure Done (start count : Nat) (w : World (Tape α) E)
    (v : World (Tape α) ((E × List α) × List α)) : Prop where
  queue : v.queue = w.queue
  same : v.env.1.1 = w.env
  supplied : v.env.2.map some = (List.range' start count).map v.queue.written
  given : v.env.1.2.Perm (v.queue.cells (start + count))

theorem fill_nested (hs : ∀ lo, Keeps (Audited lo) supply supply') (valid : t.Valid) (wanted : Nat)
    (e : E) :
    Agree (fun count => Done t.claimed count) (Cut t.links.length) (fill supply wanted ⟨t, e⟩)
      (fill (Act.listed supply') wanted ⟨t, ((e, []), [])⟩) := by
  have start : ∀ u : Tape α, Audited u.claimed [] e (e, []) u := by
    intro u
    refine ⟨rfl, Nat.le_refl _, ?_⟩
    rw [cells_self]
    exact .nil
  rcases claim_cases t wanted with hx | hx | ⟨limit, unmarked, room, hx⟩ | ⟨unmarked, room, hx⟩
  · exact .of_error (Act.bind_error (Act.onQueue_error hx) _)
      (Act.bind_error (Act.onQueue_error hx) _) (by decide) ⟨rfl, rfl, .inl rfl⟩
  · refine .of_ok (Act.bind_ok (Act.onQueue_ok (w := ⟨t, e⟩) hx) _)
      (Act.bind_ok (Act.onQueue_ok (w := ⟨t, _⟩) hx) _) ⟨rfl, rfl, rfl, ?_⟩
    rw [Nat.add_zero, cells_self]
  · rw [fill, Act.bind_ok (Act.onQueue_ok hx), fill, Act.bind_ok (Act.onQueue_ok hx)]
    obtain ⟨-, below, -, -⟩ := valid.room_below room
    have run := writeRun_nested (hs (t.grant limit wanted).claimed) (c := t.links.length)
      (min limit (t.claimed + wanted) - t.claimed) t.claimed (t.grant limit wanted) e (e, []) []
      (valid.grant unmarked room wanted) (start _) (by simp only [grant]; omega)
      fun k le lt => .of_grant valid le lt
    refine run.bind fun _ w v nested => .ok ?_
    obtain ⟨values, log, found⟩ := nested.listed
    have upTo : t.claimed + (min limit (t.claimed + wanted) - t.claimed) =
        (t.grant limit wanted).claimed := by
      simp only [grant]
      omega
    refine ⟨nested.queue, nested.audited.same, ?_, ?_⟩
    · rw [log]
      exact found
    · rw [upTo]
      simpa using nested.audited.given
  · rw [fill, Act.bind_ok (Act.onQueue_ok hx), fill, Act.bind_ok (Act.onQueue_ok hx)]
    have supplied := (hs t.claimed ⟨t.mark, e⟩ ⟨t.mark, (e, [])⟩
      (.intro (valid.mark room) (start t.mark))).listed []
    refine (supplied.mono (fun _ _ _ x => x) ?cut).bind ?next
    case cut =>
      rintro w v ⟨beside, later⟩
      obtain ⟨queue, -, kept⟩ := beside.holds
      obtain ⟨-, -, links⟩ := later.marked rfl
      exact ⟨queue, kept.same, .inl (congrArg List.length links).symm⟩
    case next =>
      rintro x ⟨_, e'⟩ ⟨u, f', _⟩ ⟨⟨beside, later⟩, rfl⟩
      obtain ⟨rfl, -, kept⟩ := beside.holds
      have claimed : u.claimed = t.claimed := (later.marked rfl).2.1
      have none : f'.2 = [] := by
        have given := kept.given
        rw [← claimed, cells_self] at given
        exact given.eq_nil
      refine .ok ⟨rfl, kept.same, ?_, ?_⟩
      · have here : (u.link x).written t.claimed = some x := if_pos claimed.symm
        exact congrArg (· :: []) here.symm
      · have behind : (u.link x).cells (t.claimed + 1) = [] := by
          rw [← claimed]
          exact cells_self (u.link x)
        rw [behind]
        exact none ▸ .nil

theorem fill_unrecorded (supply : Client α F true (h.lend true .producer) α)
    (free : h.has .producer = true) (valid : t.Valid) (wanted : Nat) (memory : F) :
    let plain := (Client.fill free supply wanted : Client α F true h Nat).run ⟨t, memory⟩
    let run := fill (Act.listed supply.recorded.audited.run) wanted
      ⟨t, (((memory, t.handed), []), [])⟩
    (verdict run).1 = (verdict plain).1 ∧ channelAfter run = channelAfter plain ∧
      (verdict run).2.1.1 = ((verdict plain).2, (channelAfter plain).handed) := by
  intro plain run
  have nested := fill_nested (fun _ => keeps_audited supply.recorded) valid wanted
    (memory, t.handed)
  have alike : Agree (fun _ w v => v.queue = w.queue ∧ v.env.1.1 = w.env)
      (fun w v => v.queue = w.queue ∧ v.env.1.1 = w.env)
      (fill supply.recorded.run wanted ⟨t, (memory, t.handed)⟩) run :=
    nested.mono (fun _ _ _ done => ⟨done.queue, done.same⟩) fun _ _ cut => ⟨cut.queue, cut.same⟩
  have noted : Agree (fun _ => Noted) Noted plain
      (fill supply.recorded.run wanted ⟨t, (memory, t.handed)⟩) :=
    (Noted.recorded_tracks (.fill free supply wanted) ⟨t, memory⟩ ⟨t, (memory, t.handed)⟩ rfl).mono
      (fun _ _ _ lands => lands.1) fun _ _ lands => lands.1
  obtain ⟨answer, queue, same⟩ := alike.ends
  obtain ⟨answer', log⟩ := noted.ends
  refine ⟨answer.symm.trans answer'.symm, queue.trans (congrArg World.queue log), ?_⟩
  exact same.trans (congrArg World.env log)

end Tape

namespace Chain

variable {q : Chain α} {t : Tape α}

theorem Models.isSome_of_needs (h : q.Models t) {c : Nat} (needs : t.Needs c) :
    (q.store.chunk? c).isSome = true := by
  rw [h.isSome_chunk_iff]
  rcases needs with rfl | ⟨i, hole⟩
  · exact ⟨h.head_le, Nat.le_refl _⟩
  · exact ⟨h.head_le_of_hole hole, hole.chunk⟩

/-- A batch on `q` with three lists of values: those that were delivered, up to then and
since, those that its callbacks gave, and those that it was supplied with. If it answers
`k`, the values it was supplied with are those written at the next `k` indices, in this
order, and all that the callbacks gave is at later ones. If it halts in a callback, the
chunk that it writes to has not been freed. What is written was delivered or is still in
its place. -/
structure Contiguous (q : Chain α)
    (run : EStateM.Result Halt (World (Chain α) (((E × List α) × List α) × List α)) Nat)
    (written : Nat → Option α) : Prop where
  supplied : ∀ k, (verdict run).1 = .ok k →
    (verdict run).2.2.map some = (List.range' q.produced k).map written
  given : ∀ k, (verdict run).1 = .ok k → (verdict run).2.1.2.Perm
    ((List.range' (q.produced + k) ((channelAfter run).produced - (q.produced + k))).filterMap
      written)
  unfreed : ∀ e, (verdict run).1 = .error e →
    e ≠ .misused ∧ ((channelAfter run).store.chunk? q.tail.chunk).isSome = true
  delivered : (verdict run).2.1.1.2.map some =
    (List.range (channelAfter run).consumed).map written
  laid : ∃ live links, (channelAfter run).Layout written live links

/-- The values of a batch get consecutive indices, whatever its callbacks call, and what
they give comes after them. The consumer cannot free the chunk under a batch, at whatever
moment within a callback it is looked at. -/
theorem fill_contiguous {q₀ : Chain α} (made : q₀.Made) {β : Type}
    (before : Client α E true .both β) (env : E)
    (supply : Client α F true (Handles.both.lend true .producer) α) (wanted : Nat) (memory : F) :
    let q := channelAfter (before.run ⟨q₀, env⟩)
    let t := channelAfter (before.run ⟨q₀.blank, env⟩)
    let batch : Client α F true .both Nat := .fill rfl supply wanted
    let run := fill (Act.listed supply.recorded.audited.run) wanted
      ⟨q, (((memory, t.handed), []), [])⟩
    q.Contiguous run (channelAfter (batch.run ⟨t, memory⟩)).written ∧
      (verdict run).1 = (verdict (batch.run ⟨q, memory⟩)).1 ∧
      (verdict run).2.1.1.1 = (verdict (batch.run ⟨q, memory⟩)).2 := by
  intro q t batch run
  obtain ⟨-, -, models, -⟩ := (tape α).agree made.models before env
  have chained := fill_tracks (Tracks.listed ((tape α).tracks supply.recorded.audited)) wanted
    ⟨q, (((memory, t.handed), []), [])⟩ ⟨t, (((memory, t.handed), []), [])⟩ ⟨rfl, models⟩
  have nested := Tape.fill_nested (fun _ => Tape.keeps_audited supply.recorded) models.valid wanted
    (memory, t.handed)
  obtain ⟨answer', rest, same⟩ :=
    Tape.fill_unrecorded (h := .both) supply rfl models.valid wanted memory
  have produced := Models.produced_eq models
  have tail := Models.tail models
  rw [((tape α).agree models batch memory).1]
  change Agree _ _ run _ at chained
  -- The run on the tape has all that is said of the one on the chain.
  generalize Tape.fill (Act.listed supply.recorded.audited.run) wanted
    (⟨t, (((memory, t.handed), []), [])⟩ : World (Tape α) _) = y at chained nested answer' rest same
  generalize batch.run (⟨t, memory⟩ : World (Tape α) F) = p at answer' rest same ⊢
  clear_value run
  obtain ⟨answer, ⟨notes, after⟩, -⟩ := chained.ends
  have models' : (channelAfter run).Models (channelAfter p) := rest ▸ after
  have handed : (verdict run).2.1.1 = ((verdict p).2, (channelAfter p).handed) :=
    (congrArg (·.1.1) notes).trans same
  refine ⟨?_, answer.trans answer', congrArg Prod.fst handed⟩
  constructor
  case supplied =>
    intro k ran
    have done := nested.answered (answer.symm.trans ran)
    rw [produced, ← rest]
    exact (congrArg (·.2.map some) notes).trans done.supplied
  case given =>
    intro k ran
    have done := nested.answered (answer.symm.trans ran)
    rw [produced, Models.produced_eq models', ← rest, congrArg (·.1.2) notes]
    exact done.given
  case unfreed =>
    intro e ran
    obtain ⟨sound, cut⟩ := nested.halted (answer.symm.trans ran)
    refine ⟨sound, Models.isSome_of_needs models' ?_⟩
    rw [tail, ← rest]
    exact cut.needed
  case delivered =>
    rw [handed, Models.consumed_eq models']
    exact (Models.valid models').handed
  case laid => exact ⟨_, _, Models.layout models'⟩

/-- Each callback of a batch of two offers a value, for which the first has to link a
chunk, and polls. Both offers end behind the batch, though they are accepted before its
values are there. -/
theorem fill_contiguous_across_chunks :
    let q₀ : Chain Nat := ofSize ⟨4, 8⟩
    let before : Client Nat Nat true .both (Except (Full Nat) Unit) := .call rfl (.offer 9)
    let supply : Client Nat Nat true (Handles.both.lend true .producer) Nat :=
      .bind (.own fun n => (n, n + 1)) fun n => .bind (.call rfl (.offer (10 + n))) fun _ =>
      .bind (.call rfl .relaxedPoll) fun _ => .done n
    let q := channelAfter (before.run ⟨q₀, 0⟩)
    let t := channelAfter (before.run ⟨q₀.blank, 0⟩)
    let run := fill (Act.listed supply.recorded.audited.run) 2 ⟨q, (((0, t.handed), []), [])⟩
    q₀.Made ∧ verdict run = (.ok 2, (((2, [9, 0]), [10, 11]), [0, 1])) ∧
      ∃ written : Nat → Option Nat, [0, 1].map some = [1, 2].map written ∧
        [10, 11].Perm ([3, 4].filterMap written) := by
  intro q₀ before supply q t run
  have made : q₀.Made := .inl ⟨4, 8, rfl⟩
  have logs : verdict run = (.ok 2, (((2, [9, 0]), [10, 11]), [0, 1])) := by decide +kernel
  obtain ⟨law, -, -⟩ := fill_contiguous made before 0 supply 2 0
  have supplied := law.supplied 2 (congrArg Prod.fst logs)
  have given := law.given 2 (congrArg Prod.fst logs)
  have first : q.produced = 1 := by decide +kernel
  have last : (channelAfter run).produced = 5 := by decide +kernel
  change (verdict run).2.2.map some = _ at supplied
  change (verdict run).2.1.2.Perm _ at given
  rw [logs, first] at supplied
  rw [logs, first, last] at given
  exact ⟨made, logs, _, supplied, given⟩

end Chain
end Handoff
