import Mathlib.Algebra.BigOperators.Group.Finset.Basic
import Mathlib.Algebra.BigOperators.Ring.Finset
import Handoff.Proofs.Workloads

/-! What a workload on a chain has done when it comes to its end. Then the producers have
been counted for all their parcels and claim for no more, so what has arrived is all that
was claimed. -/
namespace Handoff.Workload

open ChainMachine

variable {w : Workload} {c : Campaign Parcel} {s : Shift (ChainMachine Parcel)}

theorem inOrderFrom_range (p : Nat) {arrived : List Parcel} {n count : Nat}
    (own : arrived.filter (·.producer == p) = (List.range' n count).map (Parcel.mk p)) :
    inOrderFrom p n arrived = true := by
  induction arrived generalizing n count with
  | nil => rfl
  | cons parcel rest ih =>
      rw [inOrderFrom]
      by_cases mine : parcel.producer = p
      · rw [List.filter_cons_of_pos (by simpa using mine)] at own
        cases count with
        | zero => cases own
        | succ count =>
            rw [List.range'_succ, List.map_cons] at own
            obtain ⟨rfl, later⟩ := List.cons.inj own
            rw [if_pos rfl, ih later, beq_self_eq_true, Bool.and_true]
      · rw [List.filter_cons_of_neg (by simpa using mine)] at own
        rw [if_neg mine]
        exact ih own

/-- The elements of each of `n` classes together are all. -/
theorem sum_countP {β : Type} (key : β → Nat) {n : Nat} {l : List β} (small : ∀ x ∈ l, key x < n) :
    (Finset.range n).sum (fun p => l.countP (key · == p)) = l.length := by
  induction l with
  | nil => simp
  | cons x rest ih =>
      have lt := small x (List.mem_cons_self ..)
      have rest := ih fun y mem => small y (List.mem_cons_of_mem _ mem)
      simp [List.countP_cons, Finset.sum_add_distrib, rest, lt]

/-- The threads of the workload when it has ended. -/
structure Rests (w : Workload) (s : Shift (ChainMachine Parcel)) : Prop where
  received : s.machine.received.size = w.total
  consumer : ∃ last, s.machine.consumer = .idle last
  sent : ∀ p, p < w.producers → s.sent.getD p 0 = w.per
  producers : ∀ p, p < w.producers → ∃ last, s.machine.producers[p]? = some (.idle last)

theorem rests_of_finished (done : finished w s = true) : Rests w s := by
  simp only [finished, Bool.and_eq_true, beq_iff_eq, List.all_eq_true, List.mem_range] at done
  obtain ⟨⟨received, consumer⟩, producers⟩ := done
  refine ⟨received, ?_, fun p lt => (producers p lt).1, fun p lt => ?_⟩
  · simp only [Machine.consumerResult?] at consumer
    split at consumer
    next last idle => exact ⟨last, idle⟩
    next => cases consumer
  · have told := (producers p lt).2
    simp only [Machine.producerResult?] at told
    split at told
    next last idle => exact ⟨last, idle⟩
    next => cases told

/-- A poll finds nothing where the consumer has taken all that was claimed. -/
theorem poll_nothing {m : ChainMachine Parcel} {g : Register Parcel} (inv : m.Inv g)
    {last : Option (Thread.ConsumerResult Parcel)} (idle : m.consumer = .idle last)
    (all : g.claims.length = g.taken) (unmarked : g.marked = false) :
    Chain.poll m.chain = .ok none m.chain := by
  have rest : g.taken = g.consumed := by
    have knows := inv.consumer
    rw [idle] at knows
    exact knows
  have index : m.chain.consumerIndex = 2 * g.taken := by rw [inv.records.consumer, rest]
  have nothing : g.written g.taken = false := Bool.eq_false_iff.mpr fun written => by
    have := inv.valid.lt_length _ written
    omega
  have empty : g.content g.head g.taken = .empty := by
    rcases content_cases inv.valid ⟨index, rest⟩ with empty | ⟨v, -, ready⟩ | ⟨-, blocked⟩
    · exact empty
    · exact absurd (nothing.symm.trans ready.written) (by simp)
    · have := inv.valid.linked _ (List.mem_of_getElem? blocked.link)
      omega
  have read : readHead m.chain.consumerIndex m.chain = .ok .empty m.chain := by
    rw [readHead_ok inv.valid inv.records index, empty]
  have arrive : Chain.arrive m.chain = .ok false m.chain := by
    rw [Chain.arrive, Act.bind_view]
    exact Act.bind_ok read _
  have same : m.chain.isEmpty = true := by
    rw [Chain.isEmpty, index, inv.records.producer, Register.index_open unmarked, all]
    exact beq_self_eq_true _
  have await : Chain.await m.chain = .ok false m.chain := by
    rw [Chain.await, Act.bind_ok arrive]
    simp only [Bool.false_eq_true, if_false, Act.bind_view, same, if_true]
    rfl
  rw [Chain.poll, Act.bind_ok await]
  rfl

/-- A workload on a chain that has come to its end, and the campaign that it was. -/
structure Ended (w : Workload) (c : Campaign Parcel) (s : Shift (ChainMachine Parcel))
    (g : Register Parcel) : Prop where
  carries : Carries w c s
  rests : Rests w s
  tallies : c.Tallies Parcel.mk
  inv : s.machine.Inv g
  counting : s.machine.Counting

theorem rounds_end {q : Chain Parcel} (made : q.Made) {fuel : Nat}
    (ended : rounds w q.capacity fuel
      ⟨.start q w.producers, Array.replicate w.producers 0, true, false⟩ = .ok s) :
    ∃ c g, Ended w c s g := by
  obtain ⟨⟨turns, carries⟩, done⟩ := rounds_carry made ended
  have tallies : ((Campaign.start q w.producers).run Parcel.mk turns).Tallies Parcel.mk := by
    obtain ⟨size, fits, rfl⟩ := made.exists_size
    obtain ⟨-, -, tallies⟩ := (Campaign.start_tallies Parcel.mk (.ofSize size) w.producers).run
      (Inv.start fits w.producers) turns
    exact tallies
  obtain ⟨moves, same⟩ := run_replay Parcel.mk (.start q w.producers) turns
  obtain ⟨g, inv, counting⟩ := reached_counting made w.producers moves
  have machine : (start q w.producers).replay moves = s.machine :=
    same.symm.trans carries.machine.symm
  rw [machine] at inv counting
  exact ⟨_, g, carries, rests_of_finished done, tallies, inv, counting⟩

namespace Ended

variable {g : Register Parcel}

theorem claims (h : Ended w c s g) (p : Nat) :
    c.claimsOf p = if p < w.producers then (List.range w.per).map (Parcel.mk p) else [] := by
  have account := h.carries.accounts p
  rw [h.tallies.claims p]
  split
  next lt =>
      obtain ⟨last, idle⟩ := h.rests.producers p lt
      rw [h.carries.machine] at idle
      rw [h.rests.sent p lt] at account
      have none : c.machine.brought p = 0 := by
        have within := account.within _ idle
        rw [brought, idle]
        cases last with
        | none => rfl
        | some result =>
            have le : result.count ≤ w.per - w.per := within result rfl
            show result.count = 0
            omega
      have quiet : c.underwayOf p = 0 := by
        rw [Campaign.underwayOf, idle]
        rfl
      rw [account.accepted, none, quiet]
      rfl
  next outside =>
      have nobody : c.machine.producers[p]? = none := by
        rw [Array.getElem?_eq_none_iff, h.carries.threads]
        exact Nat.le_of_not_lt outside
      have unsent : s.sent.getD p 0 = 0 := by
        rw [Array.getD_eq_getD_getElem?, Array.getElem?_eq_none (by rw [h.carries.size]; omega)]
        rfl
      rw [account.accepted, unsent, brought, Campaign.underwayOf, nobody]
      rfl

theorem mem_claims (h : Ended w c s g) {p : Nat} {v : Parcel}
    (mem : (p, v) ∈ s.machine.claimed.toList) : p < w.producers ∧ v.producer = p := by
  rw [h.carries.machine] at mem
  have own : v ∈ c.claimsOf p := by
    rw [Campaign.claimsOf, List.mem_map]
    exact ⟨(p, v), List.mem_filter.mpr ⟨mem, beq_self_eq_true p⟩, rfl⟩
  rw [h.claims p] at own
  split at own
  next lt =>
      obtain ⟨k, -, rfl⟩ := List.mem_map.mp own
      exact ⟨lt, rfl⟩
  next => cases own

theorem claimed_length (h : Ended w c s g) : s.machine.claimed.toList.length = w.total := by
  have small : ∀ x ∈ s.machine.claimed.toList, x.1 < w.producers :=
    fun x mem => (h.mem_claims (p := x.1) (v := x.2) mem).1
  have each : ∀ p ∈ Finset.range w.producers,
      s.machine.claimed.toList.countP (·.1 == p) = w.per := by
    intro p mem
    have claims := congrArg List.length (h.claims p)
    rw [if_pos (Finset.mem_range.mp mem), Campaign.claimsOf, List.length_map, List.length_map,
      List.length_range, ← List.countP_eq_length_filter, ← h.carries.machine] at claims
    exact claims
  rw [← sum_countP Prod.fst small, Finset.sum_const_nat each, Finset.card_range, total]

/-- The consumer has taken all that was claimed. -/
theorem taken (h : Ended w c s g) : g.claims.length = g.taken := by
  rw [← Campaign.received_size (s := ⟨s.machine, c.accepted⟩) h.inv, h.rests.received,
    ← h.claimed_length, h.inv.claimed]

theorem received (h : Ended w c s g) :
    s.machine.received.toList = s.machine.claimed.toList.map Prod.snd := by
  rw [h.inv.received, ← h.inv.claimed, List.take_of_length_le]
  rw [h.inv.claimed, h.taken]

theorem arrived (h : Ended w c s g) {p : Nat} (lt : p < w.producers) :
    s.machine.received.toList.filter (·.producer == p) = (List.range w.per).map (Parcel.mk p) := by
  have claims := h.claims p
  rw [if_pos lt] at claims
  rw [h.received, List.filter_map, ← claims, Campaign.claimsOf, ← h.carries.machine]
  congr 1
  refine List.filter_congr fun x mem => ?_
  rw [Function.comp_apply, (h.mem_claims (p := x.1) (v := x.2) mem).2]

/-- The mark is that of a producer at work. -/
theorem unmarked (h : Ended w c s g) : g.marked = false := by
  refine Bool.eq_false_iff.mpr fun marked => ?_
  obtain ⟨p, pc, found, marks⟩ := h.counting.holder (h.inv.claimed_size.2.trans marked)
  have lt : p < w.producers := by
    rw [← h.carries.threads, ← h.carries.machine]
    exact (Array.getElem?_eq_some_iff.mp found).1
  obtain ⟨last, idle⟩ := h.rests.producers p lt
  cases idle.symm.trans found
  cases marks

theorem polled (h : Ended w c s g) :
    Channel.poll (Machine.queue s.machine) = .ok none s.machine.chain := by
  obtain ⟨last, idle⟩ := h.rests.consumer
  exact poll_nothing h.inv idle h.taken h.unmarked

theorem counts (h : Ended w c s g) :
    ((List.range w.producers).map fun p => s.machine.received.toList.countP (·.producer == p)) =
      List.replicate w.producers w.per := by
  refine List.eq_replicate_iff.mpr ⟨?_, fun n mem => ?_⟩
  · rw [List.length_map, List.length_range]
  · obtain ⟨p, inside, rfl⟩ := List.mem_map.mp mem
    have own := congrArg List.length (h.arrived (List.mem_range.mp inside))
    rw [← List.countP_eq_length_filter, List.length_map, List.length_range] at own
    exact own

theorem in_order (h : Ended w c s g) :
    ((List.range w.producers).all fun p => inOrderFrom p 0 s.machine.received.toList) = true := by
  refine List.all_eq_true.mpr fun p inside => ?_
  have own := h.arrived (List.mem_range.mp inside)
  rw [List.range_eq_range'] at own
  exact inOrderFrom_range p own

end Ended

/-- A workload on a chain that comes to its end has delivered: all parcels of each producer
have arrived, in its order, nothing is left, and no length was above the capacity. -/
theorem runOnChain_delivers {q : Chain Parcel} (made : q.Made) {w : Workload} {r : Report}
    (ended : w.runOnChain q = .ok r) :
    r.received = List.replicate w.producers w.per ∧ r.inOrder = true ∧ r.left = false ∧
      r.withinCapacity = true := by
  simp only [runOnChain, run] at ended
  cases ran : rounds w (Channel.indicators q).capacity w.allowance
      ⟨ChainMachine.start q w.producers, Array.replicate w.producers 0, true, false⟩ with
  | error e =>
      rw [ran] at ended
      cases ended
  | ok s =>
      obtain ⟨c, g, h⟩ := rounds_end made ran
      rw [ran] at ended
      simp only [bind, Except.bind, h.polled] at ended
      cases ended
      exact ⟨h.counts, h.in_order, rfl, h.carries.withinCapacity⟩

example : ((⟨2, 2, .fill, .poll⟩ : Workload).runOnChain (.ofSize ⟨2, 4⟩)).toBool = true := by
  decide +kernel

end Handoff.Workload
