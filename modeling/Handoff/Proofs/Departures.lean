import Handoff.Proofs.Closing
import Handoff.Proofs.RingAudit
import Handoff.Proofs.RingContract
import Handoff.Proofs.Untouched
import Handoff.Scenario.Session

/-! Where the values go. A value that a channel has accepted is handed out once or
dropped once. The drop is that of the last handle, whichever it is, and then values are
dropped in the order of the slots. A handle that goes before it, in the middle of a run or
in a callback, changes nothing: a scenario in which handles are dropped at any depth has
the channel of a client that drops none, and closes it at the end. -/
namespace Handoff

variable {α E Q : Type}

namespace Scenario

def dropHandles [Channel Q α] : List Handle → Run Q α Unit
  | [] => return ()
  | handle :: rest => do
    dropHandle handle
    dropHandles rest

theorem Session.isOpen_of_forget {s : Session α} {handle : Handle}
    (h : (s.forget handle).isOpen = true) : s.isOpen = true := by
  rw [isOpen, Bool.or_eq_true, List.any_eq_true] at h ⊢
  cases handle with
  | consumer =>
      rcases h with none | producers
      · exact absurd none Bool.false_ne_true
      · exact .inr producers
  | producer p =>
      rcases h with consumer | ⟨alive, mem, yes⟩
      · exact .inl consumer
      · rcases List.mem_or_eq_of_mem_set mem with old | rfl
        · exact .inr ⟨alive, old, yes⟩
        · exact absurd yes Bool.false_ne_true

theorem Session.isOpen_of_forgetAll (handles : List Handle) {s : Session α}
    (h : (handles.foldl forget s).isOpen = true) : s.isOpen = true := by
  induction handles generalizing s with
  | nil => exact h
  | cons handle rest ih => exact isOpen_of_forget (ih h)

variable [Channel Q α] {q q' : Q}

theorem dropHandle_open {s : Session α} {handle : Handle}
    (left : (s.forget handle).isOpen = true) :
    dropHandle handle ⟨q, s⟩ = .ok () ⟨q, s.forget handle⟩ := by
  have forgotten : (Run.update (·.forget handle) : Run Q α Unit) ⟨q, s⟩ =
      .ok () ⟨q, s.forget handle⟩ := rfl
  have asked : Run.session Session.isOpen ⟨q, s.forget handle⟩ = .ok true ⟨q, s.forget handle⟩ :=
    congrArg (EStateM.Result.ok · _) left
  rw [dropHandle, Act.bind_ok forgotten, Act.bind_ok asked]
  rfl

theorem dropHandle_last (closed : Channel.close q = .ok () q') {s : Session α} {handle : Handle}
    (none : (s.forget handle).isOpen = false) :
    dropHandle handle ⟨q, s⟩ = .ok () ⟨q', s.forget handle⟩ := by
  have asked : Run.session Session.isOpen ⟨q, s.forget handle⟩ = .ok false ⟨q, s.forget handle⟩ :=
    congrArg (EStateM.Result.ok · _) none
  have forgotten : (Run.update (·.forget handle) : Run Q α Unit) ⟨q, s⟩ =
      .ok () ⟨q, s.forget handle⟩ := rfl
  rw [dropHandle, Act.bind_ok forgotten, Act.bind_ok asked]
  exact Act.onQueue_ok (w := ⟨q, s.forget handle⟩) closed

/-- In whatever order handles are dropped, it is the last of them that closes the
channel, and no other drop changes it. -/
theorem dropHandles_close (closed : Channel.close q = .ok () q') (handles : List Handle)
    (last : Handle) {s : Session α} (left : (handles.foldl Session.forget s).isOpen = true)
    (none : ((handles ++ [last]).foldl Session.forget s).isOpen = false) :
    dropHandles (handles ++ [last]) ⟨q, s⟩ =
      .ok () ⟨q', (handles ++ [last]).foldl Session.forget s⟩ := by
  induction handles generalizing s with
  | nil => exact (Act.bind_ok (dropHandle_last closed none) _).trans rfl
  | cons handle rest ih =>
      have first := dropHandle_open (q := q) (Session.isOpen_of_forgetAll rest left)
      exact (Act.bind_ok first _).trans (ih left none)

end Scenario

/-- What becomes of the accepted values. `q` is closed with the last handle, in whatever
order the handles go, and `q'` is what is left. `value i` is what was written at index
`i`, and those from `first` on are still in; the values of two indices are dropped one
`before` the other. -/
structure Settles [Channel Q α] (accepted handed : List α) (first : Nat)
    (value : Nat → Option α) (before : Nat → Nat → Prop) (q q' : Q) : Prop where
  kept : Channel.discarded q = #[]
  closed : ∀ (handles : List Scenario.Handle) (last : Scenario.Handle) (s : Scenario.Session α),
    (handles.foldl Scenario.Session.forget s).isOpen = true →
    ((handles ++ [last]).foldl Scenario.Session.forget s).isOpen = false →
    Scenario.dropHandles (handles ++ [last]) ⟨q, s⟩ =
      .ok () ⟨q', (handles ++ [last]).foldl Scenario.Session.forget s⟩
  once : accepted.Perm (handed ++ (Channel.discarded q').toList)
  ordered : ∃ places : List Nat, (Channel.discarded q').toList.map some = places.map value ∧
    (∀ i, i ∈ places ↔ first ≤ i ∧ (value i).isSome = true) ∧ places.Pairwise before

namespace Chain

/-- What a client on a chain gave and was given, and the chain it leaves. No chunk was
freed twice, since that halts as a misuse; those that are live are `live`, and closing
the chain frees them all. -/
def SettlesAfter (q₀ : Chain α) {β : Type} (client : Client α E true .both β) (env : E) : Prop :=
  let run := client.recorded.audited.run ⟨q₀, ((env, []), [])⟩
  let written := (channelAfter (client.run ⟨q₀.blank, env⟩)).written
  let q := channelAfter run
  (verdict run).1 = (verdict (client.run ⟨q₀, env⟩)).1 ∧ (verdict run).1 ≠ .error .misused ∧
    ∃ live links q', q.Layout written live links ∧ live.length ≤ q.length + 1 ∧
      Settles (verdict run).2.2 (verdict run).2.1.2 q.consumed written (Before links q.chunkSize)
        q q' ∧
      ∀ c, q'.store.chunk? c = none

theorem settles {q₀ : Chain α} (made : q₀.Made) {β : Type} (client : Client α E true .both β)
    (env : E) : q₀.SettlesAfter client env := by
  unfold SettlesAfter
  intro run written q
  obtain ⟨same, sound, models, -⟩ :=
    (tape α).agree made.models client.recorded.audited ((env, []), [])
  obtain ⟨same', -, -, -⟩ := (tape α).agree made.models client env
  obtain ⟨answer, handed, given, after⟩ :=
    Tape.audited_run client made.models.valid rfl rfl env
  rw [after] at models
  have consumed := Models.consumed_eq models
  have size := Models.chunkSize_eq models
  obtain ⟨q', closed, found, gone⟩ := Models.close_ok models
  have plain := congrArg Prod.fst same
  refine ⟨?_, sound, _, _, q', Models.layout models, Models.live_le models, ?_, gone⟩
  · exact plain.trans (answer.trans (congrArg Prod.fst same').symm)
  · constructor
    case kept => exact Models.discarded models
    case closed => exact fun handles last _ => Scenario.dropHandles_close closed handles last
    case once =>
      have memory := congrArg Prod.snd same
      rw [memory, handed]
      exact given.trans ((Models.perm_left models found).symm.append_left _)
    case ordered =>
      refine ⟨_, found, fun i => ?_, ?_⟩
      · rw [consumed]
        exact Models.mem_dropOrder models i
      · rw [size]
        exact Models.pairwise_dropOrder models

end Chain

namespace Ring

/-- What a client on a ring gave and was given, and the ring it leaves. Index `i` has the
value that was accepted as number `i`. -/
def SettlesAfter (q₀ : Ring α) {β : Type} (client : Client α E false .both β) (env : E) : Prop :=
  let run := client.recorded.audited.run ⟨q₀, ((env, []), [])⟩
  let q := channelAfter run
  (verdict run).1 = (verdict (client.run ⟨q₀, env⟩)).1 ∧ (verdict run).1 ≠ .error .misused ∧
    ∃ q', Settles (verdict run).2.2 (verdict run).2.1.2 q.consumerIndex ((verdict run).2.2[·]?)
      (fun i j => i % q.capacity < j % q.capacity) q q'

theorem Models.values_eq {q : Ring α} {f : Fifo α} (h : q.Models f) :
    q.chunk.values =
      (Index.slotOrder f.consumed f.capacity).filterMap fun i => f.items[i - f.consumed]? := by
  rw [h.shown.values_eq]
  congr 1
  funext i
  cases f.items[i - f.consumed]? <;> rfl

def dropOrder (f : Fifo α) : List Nat :=
  (Index.slotOrder f.consumed f.capacity).filter fun i => (f.items[i - f.consumed]?).isSome

theorem Models.mem_dropOrder {q : Ring α} {f : Fifo α} (h : q.Models f) (i : Nat) :
    i ∈ dropOrder f ↔ (f.consumed ≤ i ∧ i < f.consumed + f.items.length) ∧
      (f.items[i - f.consumed]?).isSome = true := by
  have bound := h.bound
  rw [dropOrder, List.mem_filter, Index.mem_slotOrder]
  apply and_congr_left
  intro found
  rw [Option.isSome_iff_exists] at found
  obtain ⟨v, hv⟩ := found
  have lt := (List.getElem?_eq_some_iff.mp hv).1
  omega

theorem settles {requested maxStep : Nat} {q₀ : Ring α}
    (planned : withSettings requested maxStep = .ok q₀) {β : Type}
    (client : Client α E false .both β) (env : E) : q₀.SettlesAfter client env := by
  unfold SettlesAfter
  intro run q
  obtain ⟨size, plan, rfl⟩ := exists_size planned
  have start := ofSize_models (α := α) (RingSize.plan_fits plan)
  obtain ⟨same, sound, models, -⟩ :=
    (fifo α).agree start client.recorded.audited ((env, []), [])
  obtain ⟨same', -, -, -⟩ := (fifo α).agree start client env
  obtain ⟨answer, -, count, balance, after⟩ := Fifo.logged_run client
    (f := Fifo.ofSize size.capacity size.lookAhead) rfl rfl env
  rw [after] at models
  rw [← same] at count balance
  generalize channelAfter (client.run ⟨Fifo.ofSize size.capacity size.lookAhead, env⟩) = f
    at models count balance
  have plain := congrArg Prod.fst same
  have nothing : q.discarded = #[] := discarded_after client.recorded.audited _
  -- The values from the consumer's index on are those in the list.
  have found : ∀ i, f.consumed ≤ i → (verdict run).2.2[i]? = f.items[i - f.consumed]? := by
    intro i lo
    rw [balance, List.getElem?_append_right (by omega), count]
  have places : q.chunk.values.map some =
      (dropOrder f).map fun i => f.items[i - f.consumed]? := by
    rw [Models.values_eq models, map_some_filterMap, dropOrder]
  have sorted : (dropOrder f).Pairwise fun i j => i % f.capacity < j % f.capacity :=
    (Index.pairwise_slotOrder _ _).filter _
  have once : q.chunk.values.Perm f.items := by
    have perm := perm_of_places places (sorted.imp fun lt same => by simp [same] at lt)
      (Models.mem_dropOrder models)
    rwa [Index.filterMap_range'_getElem?] at perm
  have dropped : (q.discarded ++ q.chunk.values).toList = q.chunk.values := by
    simp [nothing]
  let q' : Ring α := { q with
    chunk := { q.chunk with slots := #[] }
    discarded := q.discarded ++ q.chunk.values }
  refine ⟨plain.trans (answer.trans (congrArg Prod.fst same').symm), sound, q', ?_⟩
  constructor
  case kept => exact nothing
  case closed =>
    have closed : Ring.close q = .ok () q' := rfl
    exact fun handles last _ => Scenario.dropHandles_close closed handles last
  case once =>
    have given := once.symm.append_left (verdict run).2.1.2
    rw [← balance, ← dropped] at given
    exact given
  case ordered =>
    refine ⟨dropOrder f, ?_, fun i => ?_, ?_⟩
    · refine (congrArg (List.map some) dropped).trans (places.trans ?_)
      refine List.map_congr_left fun i mem => (found i ?_).symm
      exact ((Models.mem_dropOrder models i).mp mem).1.1
    · rw [Models.mem_dropOrder models, Models.consumed models]
      constructor
      · rintro ⟨⟨lo, -⟩, written⟩
        exact ⟨lo, by rwa [found i lo]⟩
      · rintro ⟨lo, written⟩
        rw [found i lo] at written
        obtain ⟨v, hv⟩ := Option.isSome_iff_exists.mp written
        have lt := (List.getElem?_eq_some_iff.mp hv).1
        exact ⟨⟨lo, by omega⟩, written⟩
    · rw [Models.capacity_eq models]
      exact sorted

end Ring

/-- Of every accepted value it holds, on a chain as on a ring and whatever the callbacks
do, that it is handed out once or dropped with the last handle once; no chunk that the
consumer leaves drops any. The values that are dropped are those written and not
consumed, in the order of the slots. -/
theorem values_leave_once {q₀ : Chain α} (made : q₀.Made) {requested maxStep : Nat} {r₀ : Ring α}
    (planned : Ring.withSettings requested maxStep = .ok r₀) {β γ : Type}
    (many : Client α E true .both β) (single : Client α E false .both γ) (env : E) :
    q₀.SettlesAfter many env ∧ r₀.SettlesAfter single env :=
  ⟨Chain.settles made many env, Ring.settles planned single env⟩

/-- On the chain, a batch whose first callback offers another value, for which a chunk is
linked, and whose second panics; on the ring, a batch that goes round. Six values are left
in, and all of them go with the last handle. -/
theorem values_leave_once_behind_panic :
    let q₀ : Chain Nat := .ofSize ⟨4, 8⟩
    let r₀ : Ring Nat := .ofSize ⟨4, 1⟩
    let many : Client Nat Nat true .both (Except (Full Nat) Unit) :=
      .bind (.attempt (.fill rfl (.bind (.own fun n => (n, n + 1)) fun n =>
        if n = 0 then .bind (.call rfl (.offer 6)) fun _ => .done 5 else .panic) 3)) fun _ =>
      .bind (.call rfl .poll) fun _ => .call rfl (.offer 7)
    let single : Client Nat Nat false .both Nat :=
      .bind (.fill rfl (.own fun n => (n, n + 1)) 3) fun _ =>
      .bind (.call rfl .poll) fun _ => .fill rfl (.own fun n => (n, n + 1)) 5
    let q := channelAfter (many.recorded.audited.run ⟨q₀, ((0, []), [])⟩)
    let r := channelAfter (single.recorded.audited.run ⟨r₀, ((0, []), [])⟩)
    let drop {Q : Type} [Channel Q Nat] : Scenario.Run Q Nat Unit :=
      Scenario.dropHandles [.consumer, .producer 0]
    q₀.Made ∧ Ring.withSettings 3 0 = .ok r₀ ∧
      (∃ q' s', drop ⟨q, .start⟩ = .ok () ⟨q', s'⟩ ∧
        [6, 5, 7].Perm ([5] ++ q'.discarded.toList)) ∧
      ∃ r' s', drop ⟨r, .start⟩ = .ok () ⟨r', s'⟩ ∧
        [0, 1, 2, 3, 4].Perm ([0] ++ r'.discarded.toList) := by
  intro q₀ r₀ many single q r drop
  have made : q₀.Made := .inl ⟨4, 8, rfl⟩
  have planned : Ring.withSettings 3 0 = .ok r₀ := rfl
  obtain ⟨⟨-, -, _, _, q', -, -, chain, -⟩, -, -, r', ring⟩ :=
    values_leave_once made planned many single 0
  have onChain : (verdict (many.recorded.audited.run ⟨q₀, ((0, []), [])⟩)).2 =
      ((2, [5]), [6, 5, 7]) := by decide +kernel
  have onRing : (verdict (single.recorded.audited.run ⟨r₀, ((0, []), [])⟩)).2 =
      ((5, [0]), [0, 1, 2, 3, 4]) := by decide +kernel
  have gone := chain.once
  have gone' := ring.once
  rw [onChain] at gone
  rw [onRing] at gone'
  exact ⟨made, planned, ⟨q', _, chain.closed [.consumer] (.producer 0) .start rfl rfl, gone⟩,
    r', _, ring.closed [.consumer] (.producer 0) .start rfl rfl, gone'⟩

end Handoff
