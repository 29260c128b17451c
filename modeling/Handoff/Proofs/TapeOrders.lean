import Handoff.Proofs.Index
import Handoff.Proofs.Orders
import Handoff.Proofs.TapeInvariant

/-! Orders on a tape. Between orders nothing is marked and every claimed cell is
written, so the tape is no more than the list of its cells that are not consumed. -/
namespace Handoff.Tape

variable {α E : Type}

/-- Between orders the tape holds the elements of the ledger. -/
structure Holds (t : Tape α) (l : Ledger α E) : Prop where
  valid : t.Valid
  settled : t.marked = false
  items : l.items.map some = (List.range' t.consumed (t.claimed - t.consumed)).map t.written
  appended : l.appended = t.claimed
  removed : l.removed = t.consumed

namespace Holds

variable {t u : Tape α} {l : Ledger α E}

theorem length_eq (h : t.Holds l) : l.items.length = t.claimed - t.consumed := by
  have := congrArg List.length h.items
  rwa [List.length_map, List.length_map, List.length_range'] at this

theorem length_le (h : t.Holds l) : l.items.length ≤ t.size.capacity := by
  have hle := h.valid.claimed_le
  have hcap := h.valid.limit_le
  rw [h.length_eq]
  omega

theorem head_eq (h : t.Holds l) : t.written t.consumed = l.items.head? := by
  have length := h.length_eq
  have items := h.items
  cases hl : l.items with
  | nil =>
      rw [hl, List.length_nil] at length
      exact h.valid.unwritten _ (by omega)
  | cons v rest =>
      rw [hl, List.length_cons] at length
      rw [hl, ← length, List.range'_succ] at items
      exact (List.cons.inj items).1.symm

theorem isEmpty_eq (h : t.Holds l) : t.isEmpty = l.items.isEmpty := by
  have length := h.length_eq
  have hle := h.valid.consumed_le
  rw [isEmpty, h.settled, Bool.not_false, Bool.and_true, Bool.eq_iff_iff, beq_iff_eq,
    List.isEmpty_iff, ← List.length_eq_zero_iff]
  omega

theorem append (h : t.Holds l) (valid : u.Valid) (settled : u.marked = false)
    (consumed : u.consumed = t.consumed) {values : List α}
    (claimed : u.claimed = t.claimed + values.length)
    (old : ∀ i, i < t.claimed → u.written i = t.written i)
    (new : ∀ i, t.claimed ≤ i → i < t.claimed + values.length →
      u.written i = values[i - t.claimed]?) (memory : E) :
    u.Holds (l.append values memory) := by
  have hle := h.valid.consumed_le
  refine ⟨valid, settled, ?_, ?_, h.removed.trans consumed.symm⟩
  · have split : u.claimed - u.consumed = (t.claimed - t.consumed) + values.length := by
      rw [claimed, consumed]
      omega
    have start : t.consumed + 1 * (t.claimed - t.consumed) = t.claimed := by omega
    have front : (List.range' t.consumed (t.claimed - t.consumed)).map u.written =
        l.items.map some := by
      rw [h.items]
      refine List.map_congr_left fun i hi => old i ?_
      have := (List.mem_range'_1.mp hi).2
      omega
    have back : (List.range' t.claimed values.length).map u.written = values.map some := by
      rw [← Index.map_range'_getElem? t.claimed values]
      refine List.map_congr_left fun i hi => ?_
      obtain ⟨lo, hi⟩ := List.mem_range'_1.mp hi
      exact new i lo hi
    rw [split, consumed, ← List.range'_append, List.map_append, start, front, back]
    exact List.map_append
  · simp only [Ledger.append, h.appended, claimed]

theorem handOut (h : t.Holds l) {v : α} {rest : List α} (items : l.items = v :: rest)
    (memory : E) :
    (t.handOut v).Holds { l with items := rest, removed := l.removed + 1, memory := memory } := by
  have hv : t.written t.consumed = some v := by rw [h.head_eq, items]; rfl
  have hlt := h.valid.lt_claimed_of_written hv
  have all := h.items
  refine ⟨h.valid.handOut hv, h.settled, ?_, h.appended, congrArg (· + 1) h.removed⟩
  have split : t.claimed - t.consumed = (t.claimed - (t.consumed + 1)) + 1 := by omega
  rw [items, split, List.range'_succ] at all
  exact (List.cons.inj all).2

end Holds

def storeAll (t : Tape α) : Nat → List α → Tape α
  | _, [] => t
  | i, v :: rest => (t.store i v).storeAll (i + 1) rest

theorem storeAll_eq (t : Tape α) (i : Nat) (values : List α) :
    t.storeAll i values = { t with
      written := fun k =>
        if i ≤ k ∧ k < i + values.length then values[k - i]? else t.written k } := by
  induction values generalizing t i with
  | nil =>
      have outside : ∀ k, ¬(i ≤ k ∧ k < i + 0) := fun k => by omega
      simp only [storeAll, List.length_nil, outside, if_false]
  | cons v rest ih =>
      rw [storeAll, ih]
      simp only [store, Tape.mk.injEq, true_and, and_true, List.length_cons]
      funext k
      rcases Nat.lt_trichotomy k i with lt | rfl | gt
      · rw [if_neg (by omega), if_neg (by omega), if_neg (by omega)]
      · rw [if_neg (by omega), if_pos rfl, if_pos (by omega), Nat.sub_self]
        rfl
      · have shift : k - i = k - (i + 1) + 1 := by omega
        by_cases inside : k < i + 1 + rest.length
        · rw [if_pos (by omega), if_pos (by omega), shift, List.getElem?_cons_succ]
        · rw [if_neg (by omega), if_neg (by omega), if_neg (by omega)]

theorem Valid.storeAll {t : Tape α} (h : t.Valid) {i : Nat} {values : List α}
    (claimed : i + values.length ≤ t.claimed)
    (vacant : ∀ k, i ≤ k → k < i + values.length → t.written k = none) :
    (t.storeAll i values).Valid := by
  induction values generalizing t i with
  | nil => exact h
  | cons v rest ih =>
      rw [List.length_cons] at claimed vacant
      have here := vacant i (Nat.le_refl _) (by omega)
      refine ih (h.store (by omega) here v) ?_ fun k lo hi => ?_
      · simp only [Tape.store]
        omega
      · have apart : k ≠ i := Nat.ne_of_gt lo
        simp only [Tape.store, apart, if_false]
        exact vacant k (by omega) (by omega)

theorem writeRun_own (supply : E → α × E) (count i : Nat) (t : Tape α) (memory : E) :
    writeRun (Client.own supply : Client α E true .both α).run i count ⟨t, memory⟩ =
      .ok () ⟨t.storeAll i (produce supply count memory).1, (produce supply count memory).2⟩ := by
  induction count generalizing i t memory with
  | zero => rfl
  | succ count ih => exact ih (i + 1) (t.store i (supply memory).1) (supply memory).2

variable {t : Tape α} {l : Ledger α E}

namespace Holds

theorem granted (h : t.Holds l) {limit wanted : Nat} (hr : t.room = .below limit)
    {values : List α} (length : values.length = min limit (t.claimed + wanted) - t.claimed)
    (memory : E) :
    ((t.grant limit wanted).storeAll t.claimed values).Holds (l.append values memory) := by
  obtain ⟨-, hlt, -, -⟩ := h.valid.room_below hr
  have claimed : min limit (t.claimed + wanted) = t.claimed + values.length := by omega
  have valid : ((t.grant limit wanted).storeAll t.claimed values).Valid :=
    (h.valid.grant h.settled hr wanted).storeAll (Nat.le_of_eq claimed.symm)
      fun k lo _ => h.valid.unwritten k lo
  rw [storeAll_eq] at valid ⊢
  refine h.append valid h.settled rfl claimed (fun i hi => ?_) (fun i lo hi => ?_) memory
  · exact if_neg (by omega)
  · exact if_pos ⟨lo, hi⟩

theorem linked (h : t.Holds l) (hr : t.room = .link) (v : α) (memory : E) :
    (t.mark.link v).Holds (l.append [v] memory) := by
  refine h.append ((h.valid.mark hr).link rfl v) rfl rfl rfl (fun i hi => ?_) (fun i lo hi => ?_)
    memory
  · exact if_neg (Nat.ne_of_lt hi)
  · have here : i = t.claimed := Nat.le_antisymm (Nat.le_of_lt_succ hi) lo
    subst here
    rw [Nat.sub_self]
    exact if_pos rfl

theorem full_iff (h : t.Holds l) :
    l.items.length = t.size.capacity ↔ t.claimed = t.consumed + t.size.capacity := by
  have hle := h.valid.consumed_le
  rw [h.length_eq]
  omega

end Holds

/-- A call on a tape that holds `l` answers `b` and leaves one that holds `l'`. -/
def Runs (t : Tape α) (l : Ledger α E) {β : Type} (run : Act (World (Tape α) E) β) (b : β)
    (l' : Ledger α E) : Prop :=
  ∃ t', run ⟨t, l.memory⟩ = .ok b ⟨t', l'.memory⟩ ∧ t'.Holds l' ∧ t'.size = t.size

namespace Runs

variable {u : Tape α} {β γ : Type} {l' l'' : Ledger α E} {b : β} {c : γ}

theorem done (h : t.Holds l) (b : β) : t.Runs l (return b) b l := ⟨t, rfl, h, rfl⟩

theorem bind {a : Act (World (Tape α) E) β} {f : β → Act (World (Tape α) E) γ}
    (h : t.Runs l a b l')
    (next : ∀ u : Tape α, u.Holds l' → u.size = t.size → u.Runs l' (f b) c l'') :
    t.Runs l (a >>= f) c l'' := by
  obtain ⟨u, ran, holds, size⟩ := h
  obtain ⟨w, ran', holds', size'⟩ := next u holds size
  refine ⟨w, ?_, holds', size'.trans size⟩
  rw [Act.bind_ok ran, ran']

theorem answer {a : Act (World (Tape α) E) β} (h : t.Runs l a b l') (f : β → γ) :
    t.Runs l (a >>= fun b => return f b) (f b) l' :=
  h.bind fun _ holds _ => done holds (f b)

theorem onQueue {a : Act (Tape α) β} (ran : a t = .ok b u) (holds : u.Holds l')
    (size : u.size = t.size) (memory : l'.memory = l.memory) : t.Runs l (Act.onQueue a) b l' := by
  refine ⟨u, ?_, holds, size⟩
  rw [memory]
  exact Act.onQueue_ok (w := ⟨t, l.memory⟩) ran

end Runs

theorem fill_own (h : t.Holds l) (supply : E → α × E) (wanted : Nat) (some : 0 < wanted) :
    ∃ count, t.Runs l (fill (Client.own supply : Client α E true .both α).run wanted) count
        (l.fill supply count) ∧
      (count = 0 ↔ l.items.length = t.size.capacity) ∧
      count ≤ min wanted (t.size.capacity - l.items.length) := by
  have length := h.length_eq
  have hle := h.valid.consumed_le
  have hfull := h.full_iff
  have claim := claim_open h.settled wanted
  cases hr : t.room with
  | full =>
      rw [hr] at claim
      have full := h.valid.room_full hr
      refine ⟨0, ⟨t, ?_, ?_, rfl⟩, by omega, Nat.zero_le _⟩
      · rw [Ledger.fill_zero]
        exact Act.bind_ok (Act.onQueue_ok (w := ⟨t, l.memory⟩) claim) _
      · rw [Ledger.fill_zero]
        exact h
  | below limit =>
      rw [hr] at claim
      obtain ⟨-, hlt, hcap, -⟩ := h.valid.room_below hr
      refine ⟨min limit (t.claimed + wanted) - t.claimed, ⟨_, ?_,
        h.granted hr (produce_length _ _ _) _, ?_⟩, by omega, by omega⟩
      · refine (Act.bind_ok (Act.onQueue_ok (w := ⟨t, l.memory⟩) claim) _).trans ?_
        exact Act.bind_ok (writeRun_own supply _ t.claimed _ l.memory) _
      · rw [storeAll_eq]
        rfl
  | link =>
      rw [hr] at claim
      obtain ⟨-, -, hfree⟩ := Valid.room_link hr
      rw [free] at hfree
      refine ⟨1, ⟨t.mark.link (supply l.memory).1, ?_, h.linked hr _ _, rfl⟩, by omega, by omega⟩
      exact Act.bind_ok (Act.onQueue_ok (w := ⟨t, l.memory⟩) claim) _

theorem fillRounds_own (supply : E → α × E) {capacity rounds : Nat} (total : Nat)
    (h : t.Holds l) (size : t.size.capacity = capacity)
    (enough : capacity - l.items.length < rounds)
    (bound : total + (capacity - l.items.length) ≤ capacity) :
    t.Runs l
      (Loop.fillRounds (fill (Client.own supply : Client α E true .both α).run Chain.batch)
        capacity rounds total)
      (total + (capacity - l.items.length)) (l.fill supply (capacity - l.items.length)) := by
  -- Each round adds an element while there is room, so a round for each free cell and one
  -- more are enough.
  induction rounds generalizing t l total with
  | zero => exact absurd enough (Nat.not_lt_zero _)
  | succ rounds ih =>
      obtain ⟨count, ran, none_iff, le⟩ := fill_own h supply Chain.batch (by decide)
      rw [size] at none_iff le
      refine ran.bind fun u holds same => ?_
      by_cases none : count = 0
      · subst none
        rw [none_iff.mp rfl, Nat.sub_self, if_pos rfl, Nat.add_zero]
        exact .done holds total
      · have grown : (l.fill supply count).items.length = l.items.length + count :=
          Ledger.length_fill ..
        have fits := h.length_le
        have split : capacity - l.items.length =
            count + (capacity - (l.fill supply count).items.length) := by omega
        rw [if_neg none, if_neg (by omega), split, ← Ledger.fill_add, ← Nat.add_assoc]
        exact ih _ holds ((congrArg ChainSize.capacity same).trans size) (by omega) (by omega)

theorem relaxedPoll_head (h : t.Holds l) :
    (∃ v rest, l.items = v :: rest ∧ relaxedPoll t = .ok (some v) (t.handOut v)) ∨
      l.items = [] ∧ relaxedPoll t = .ok none t := by
  have next := relaxedPoll_eq t
  rw [h.head_eq] at next
  cases items : l.items with
  | nil =>
      rw [items] at next
      exact .inr ⟨rfl, next⟩
  | cons v rest =>
      rw [items] at next
      exact .inl ⟨v, rest, rfl, next⟩

theorem drainFrom_own (consume : α → E → E) (done left : Nat) (h : t.Holds l) :
    t.Runs l
      (Loop.drainFrom (Act.onQueue relaxedPoll) (fun v => (Order.consumer consume v).run) done left)
      (done + min left l.items.length) (l.drain consume left) := by
  induction left generalizing t l done with
  | zero =>
      rw [Ledger.drain_zero, Nat.zero_min]
      exact .done h done
  | succ left ih =>
      rcases relaxedPoll_head h with ⟨v, rest, items, ran⟩ | ⟨items, ran⟩
      · have holds := h.handOut items (consume v l.memory)
        obtain ⟨u, ran', holds', size⟩ := ih (done + 1) holds
        have count : done + min (left + 1) (rest.length + 1) = done + 1 + min left rest.length := by
          omega
        rw [Ledger.drain_cons items, items, List.length_cons, count]
        refine ⟨u, ?_, holds', size⟩
        rw [Loop.drainFrom, Act.bind_ok (Act.onQueue_ok (w := ⟨t, l.memory⟩) ran)]
        exact ran'
      · rw [Ledger.drain_nil items, items]
        exact ⟨t, Act.bind_ok (Act.onQueue_ok (w := ⟨t, l.memory⟩) ran) _, h, rfl⟩

theorem waiting_settled {attempt : Act (Tape α) (Option α)} {found : Option α} {u : Tape α}
    (ran : attempt t = .ok found u) (empty : found = none → u.isEmpty = true) :
    waiting attempt t = .ok found u := by
  rw [waiting, Act.bind_ok ran]
  cases found with
  | some v => rfl
  | none => simp only [Act.bind_view, empty rfl, if_true, Act.pure_apply]

namespace Holds

theorem poll (h : t.Holds l) :
    ∃ u : Tape α, relaxedPoll t = .ok l.items.head? u ∧
      waiting relaxedPoll t = .ok l.items.head? u ∧
      u.Holds (l.drain (fun _ memory => memory) 1) ∧ u.size = t.size := by
  rcases relaxedPoll_head h with ⟨v, rest, items, ran⟩ | ⟨items, ran⟩
  · refine ⟨t.handOut v, ?_, ?_, ?_, rfl⟩
    · rw [items]
      exact ran
    · rw [items]
      exact waiting_settled ran nofun
    · rw [Ledger.drain_cons items, Ledger.drain_zero]
      exact h.handOut items l.memory
  · refine ⟨t, ?_, ?_, ?_, rfl⟩
    · rw [items]
      exact ran
    · rw [items]
      refine waiting_settled ran fun _ => ?_
      rw [h.isEmpty_eq, items]
      rfl
    · rw [Ledger.drain_nil items]
      exact h

theorem peek (h : t.Holds l) :
    relaxedPeek t = .ok l.items.head? t ∧ waiting relaxedPeek t = .ok l.items.head? t := by
  have ran : relaxedPeek t = .ok l.items.head? t := by
    rw [← h.head_eq]
    rfl
  refine ⟨ran, waiting_settled ran fun none => ?_⟩
  rw [h.isEmpty_eq, List.isEmpty_iff]
  exact List.head?_eq_none_iff.mp none

theorem offer (h : t.Holds l) (v : α) :
    (l.items.length < t.size.capacity ∧
        ∃ u : Tape α, Tape.offer v t = .ok (.ok ()) u ∧ u.Holds (l.append [v] l.memory) ∧
          u.size = t.size) ∨
      l.items.length = t.size.capacity ∧ Tape.offer v t = .ok (.error ⟨v⟩) t := by
  have length := h.length_eq
  have hle := h.valid.consumed_le
  have claim := claim_open h.settled 1
  cases hr : t.room with
  | full =>
      rw [hr] at claim
      exact .inr ⟨h.full_iff.mpr (h.valid.room_full hr), Act.bind_ok claim _⟩
  | below limit =>
      rw [hr] at claim
      obtain ⟨-, hlt, hcap, -⟩ := h.valid.room_below hr
      have one : [v].length = min limit (t.claimed + 1) - t.claimed := by
        rw [List.length_singleton]
        omega
      exact .inl ⟨by omega, _, Act.bind_ok claim _, h.granted hr one l.memory, rfl⟩
  | link =>
      rw [hr] at claim
      obtain ⟨-, -, hfree⟩ := Valid.room_link hr
      rw [free] at hfree
      exact .inl ⟨by omega, _, Act.bind_ok claim _, h.linked hr v l.memory, rfl⟩

end Holds

/-- Every order ends, with an answer that a bounded queue may give. -/
theorem serve (h : t.Holds l) (order : Order α E) :
    ∃ answer l', Serves t.size.capacity order l answer l' ∧
      t.Runs l order.client.run answer l' := by
  cases order with
  | offer v =>
      rcases h.offer v with ⟨room, u, ran, holds, size⟩ | ⟨full, ran⟩
      · have call := Runs.onQueue (l := l) ran holds size rfl
        exact ⟨_, _, .offer room, call.answer Answer.tried⟩
      · have call := Runs.onQueue (l := l) ran h rfl rfl
        exact ⟨_, _, .offerFull full, call.answer Answer.tried⟩
  | relaxedOffer v =>
      rcases h.offer v with ⟨room, u, ran, holds, size⟩ | ⟨full, ran⟩
      · have call := Runs.onQueue (l := l) ran holds size rfl
        exact ⟨_, _, .relaxedOffer room, call.answer Answer.tried⟩
      · have call := Runs.onQueue (l := l) ran h rfl rfl
        exact ⟨_, _, .relaxedOfferFull full, call.answer Answer.tried⟩
  | fill supply wanted some =>
      obtain ⟨count, call, none_iff, le⟩ := fill_own h supply wanted some
      exact ⟨_, _, .fill none_iff le, call.answer Answer.moved⟩
  | fillAll supply =>
      have rounds : t.size.capacity - l.items.length < t.size.capacity + 1 :=
        Nat.lt_succ_of_le (Nat.sub_le _ _)
      have call := fillRounds_own supply 0 h rfl rounds (by omega)
      rw [Nat.zero_add] at call
      exact ⟨_, _, .fillAll, call.answer Answer.moved⟩
  | poll =>
      obtain ⟨u, -, ran, holds, size⟩ := h.poll
      have call := Runs.onQueue (l := l) ran holds size Ledger.drain_memory
      exact ⟨_, _, .poll, call.answer Answer.found⟩
  | relaxedPoll =>
      obtain ⟨u, ran, -, holds, size⟩ := h.poll
      have call := Runs.onQueue (l := l) ran holds size Ledger.drain_memory
      exact ⟨_, _, .relaxedPoll, call.answer Answer.found⟩
  | peek =>
      have call := Runs.onQueue (l := l) h.peek.2 h rfl rfl
      exact ⟨_, _, .peek, call.answer Answer.found⟩
  | relaxedPeek =>
      have call := Runs.onQueue (l := l) h.peek.1 h rfl rfl
      exact ⟨_, _, .relaxedPeek, call.answer Answer.found⟩
  | drain consume limit =>
      have call := drainFrom_own consume 0 limit h
      rw [Nat.zero_add] at call
      exact ⟨_, _, .drain, call.answer Answer.moved⟩
  | drainAll consume =>
      have call := drainFrom_own consume 0 t.size.capacity h
      rw [Nat.zero_add, Nat.min_eq_right h.length_le, Ledger.drain_of_le h.length_le] at call
      exact ⟨_, _, .drainAll, call.answer Answer.moved⟩
  | look side =>
      have call := Runs.onQueue (l := l) (b := Channel.indicators t) rfl h rfl rfl
      exact ⟨_, _, .look h.length_eq.symm h.isEmpty_eq rfl h.appended.symm h.removed.symm,
        call.answer Answer.seen⟩

theorem serveAll (h : t.Holds l) (orders : List (Order α E)) :
    ∃ answers l', ServesAll t.size.capacity orders l answers l' ∧
      t.Runs l (Order.clientOf orders).run answers l' := by
  induction orders generalizing t l with
  | nil => exact ⟨[], l, .nil, .done h []⟩
  | cons order rest ih =>
      obtain ⟨answer, l', serves, u, ran, holds, size⟩ := serve h order
      obtain ⟨answers, l'', later, ranLater⟩ := ih holds
      rw [size] at later
      obtain ⟨w, ranRest, holds', size'⟩ := ranLater.answer (answer :: ·)
      refine ⟨answer :: answers, l'', .cons serves later, w, ?_, holds', size'.trans size⟩
      exact (Act.bind_ok ran _).trans ranRest

end Handoff.Tape
