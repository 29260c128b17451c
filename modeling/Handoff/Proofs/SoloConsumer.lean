import Handoff.ChainMachine.Consumer
import Handoff.Proofs.ChainRegister
import Handoff.Proofs.ChunkScript
import Handoff.Proofs.Solo

/-! The consumer of a chain that moves alone. A call that waits for its element can come to
an end only if it did not have to wait, since nobody else writes. -/
namespace Handoff.ChainMachine

open Chain

variable {α : Type} {q q' : Chain α} {slot : Slot α} {seen : Bool}

def ConsumerPc.spins : ConsumerPc α → Bool
  | spin _ _ => true
  | _ => false

def NeverSpins (path : List (ConsumerPc α)) : Prop := ∀ pc ∈ path, pc.spins = false

theorem NeverSpins.append {path more : List (ConsumerPc α)} (first : NeverSpins path)
    (rest : NeverSpins more) : NeverSpins (path ++ more) :=
  List.forall_mem_append.mpr ⟨first, rest⟩

/-- A consumer moves alone. -/
abbrev ConsumesAlone : ConsumerPc α → Chain α → List (ConsumerPc α) → ConsumerPc α → Chain α →
    Prop :=
  Alone stepConsumer

theorem onStore_still {β : Type} {act : Act (Arena α) β} {b : β}
    (still : ∀ a x, act q.store = .ok x a → a = q.store) (ran : onStore act q = .ok b q') :
    q' = q := by
  cases hact : act q.store with
  | ok x a =>
      obtain rfl := still a x hact
      rw [onStore_ok hact] at ran
      cases ran
      rfl
  | error e a =>
      simp only [onStore, hact] at ran
      cases ran

theorem inspect_still {β : Type} {c : Nat} {f : Chunk α → β} {b : β}
    (ran : onStore (Arena.inspect c f) q = .ok b q') : q' = q := by
  refine onStore_still (fun a x seen => ?_) ran
  obtain ⟨-, -, -, same⟩ := Arena.inspect_ran seen
  exact same

theorem read_still {index : Nat} (ran : readHead index q = .ok slot q') : q' = q := by
  refine onStore_still (fun a x seen => ?_) ran
  obtain ⟨s, found⟩ := Arena.slot_of_read seen
  rw [Arena.read, Act.bind_view, found] at seen
  cases seen
  rfl

theorem consumes_hop (task : Task) (index : Nat) (ran : hop q = .ok () q') :
    q'.consumerIndex = q.consumerIndex ∧ ∃ path, NeverSpins path ∧
      ConsumesAlone (.loadNext task index) q path (.readFirst task index) q' := by
  rw [hop, Act.bind_view] at ran
  obtain ⟨next?, q₁, looked, moving⟩ := Act.of_bind_ok ran
  obtain rfl := inspect_still looked
  cases next? with
  | none => cases moving
  | some next =>
      obtain ⟨lost, q₂, freed, entering⟩ := Act.of_bind_ok moving
      obtain ⟨size, q₃, measured, moved⟩ := Act.of_bind_ok entering
      obtain rfl := inspect_still measured
      obtain ⟨store, rfl⟩ := onStore_store freed
      cases moved
      refine ⟨rfl, [.loadNext task index, .leave task index next],
        by simp [NeverSpins, ConsumerPc.spins], ?_⟩
      exact .step (ConsumerPc.Steps.loadsNext task index looked).run
        (.once (ConsumerPc.Steps.leaves task index next freed measured).run)

theorem arrive_cases (ran : arrive q = .ok seen q') :
    ∃ slot, readHead q.consumerIndex q = .ok slot q ∧
      match slot with
      | .empty => seen = false ∧ q' = q
      | .value _ => seen = true ∧ q' = q
      | .jump => seen = true ∧ hop q = .ok () q' := by
  rw [arrive, Act.bind_view] at ran
  obtain ⟨slot, q₁, looked, onward⟩ := Act.of_bind_ok ran
  have read : readHead q.consumerIndex q = .ok slot q₁ := looked
  obtain rfl := read_still read
  refine ⟨slot, read, ?_⟩
  cases slot with
  | empty | value v =>
      cases onward
      exact ⟨rfl, rfl⟩
  | jump =>
      obtain ⟨_, q₂, hopped, told⟩ := Act.of_bind_ok onward
      cases told
      exact ⟨rfl, hopped⟩

/-- The consumer knows at once whether there is an element: its slot is not empty, or it
has come up with the producers. -/
def KnowsAtOnce (q : Chain α) : Prop :=
  (∃ slot, readHead q.consumerIndex q = .ok slot q ∧ slot ≠ .empty) ∨
    q.consumerIndex = q.producerIndex

def AtHand (q : Chain α) : Prop := ∃ v, readHead q.consumerIndex q = .ok (.value v) q

theorem consumes_look (task : Task) (waits : task.waits = true)
    (read : readHead q.consumerIndex q = .ok slot q) :
    ConsumesAlone (.loadIndex task) q [.loadIndex task, .readSlot task q.consumerIndex]
      (.seen task q.consumerIndex (.loadProducer task q.consumerIndex) slot) q := by
  have reads := ConsumerPc.Steps.readsSlot task q.consumerIndex read
  rw [if_pos waits] at reads
  exact .step (ConsumerPc.Steps.loadsIndex task).run (.once reads.run)

/-- A wait that ends has not waited. If it ends because there is an element, that element
has to be at hand. -/
theorem consumes_await (task : Task) (waits : task.waits = true) (ran : await q = .ok seen q')
    (there : seen = true → AtHand q') :
    KnowsAtOnce q ∧ q'.consumerIndex = q.consumerIndex ∧ ∃ path, NeverSpins path ∧
      ConsumesAlone (.loadIndex task) q path
        (if seen then .found task q.consumerIndex else .nothing task) q' := by
  rw [await] at ran
  obtain ⟨seen', q₁, arrived, onward⟩ := Act.of_bind_ok ran
  obtain ⟨slot, read, after⟩ := arrive_cases arrived
  have looks := consumes_look task waits read
  have never : NeverSpins ([.loadIndex task, .readSlot task q.consumerIndex] :
      List (ConsumerPc α)) := by
    simp [NeverSpins, ConsumerPc.spins]
  cases slot with
  | empty =>
      obtain ⟨rfl, rfl⟩ := after
      simp only [Bool.false_eq_true, if_false] at onward
      rw [Act.bind_view] at onward
      have up : q₁.consumerIndex = q₁.producerIndex := by
        by_contra behind
        have waiting : q₁.isEmpty = false := beq_eq_false_iff_ne.mpr behind
        rw [waiting] at onward
        cases onward
      have empty : q₁.isEmpty = true := beq_iff_eq.mpr up
      have compares := ConsumerPc.Steps.givesUp task q₁.consumerIndex up
      rw [empty] at onward
      cases onward
      refine ⟨.inr up, rfl, _, never.append ?_, looks.trans (.once compares.run)⟩
      simp [NeverSpins, ConsumerPc.spins, ConsumerPc.seen]
  | value v =>
      obtain ⟨rfl, rfl⟩ := after
      cases onward
      exact ⟨.inl ⟨_, read, by simp⟩, rfl, _, never, looks⟩
  | jump =>
      obtain ⟨rfl, hopped⟩ := after
      cases onward
      obtain ⟨same, path, never', hops⟩ := consumes_hop task q.consumerIndex hopped
      obtain ⟨v, reread⟩ := there rfl
      rw [same] at reread
      have rereads := ConsumerPc.Steps.readsFirst task q.consumerIndex reread
      refine ⟨.inl ⟨_, read, by simp⟩, same, _, never.append (never'.append ?_),
        looks.trans (hops.trans (.once rereads.run))⟩
      simp [NeverSpins, ConsumerPc.spins]

theorem atHand_of_ran {act : Act (Arena α) α} {v : α}
    (cases : (∃ v, q.store.slot? q.head.chunk (Index.position q.consumerIndex q.head.mask) =
      some (.value v)) ∨ act q.store = .error .misused q.store)
    (ran : onStore act q = .ok v q') : AtHand q := by
  rcases cases with ⟨v, slot⟩ | refused
  · refine ⟨v, onStore_ok ?_⟩
    rw [Arena.read, Act.bind_view, slot]
    rfl
  · simp only [onStore, refused] at ran
    cases ran

theorem consumes_waiting {next : Act (Chain α) α} (task : Task) (waits : task.waits = true)
    (none : (ConsumerPc.nothing task : ConsumerPc α) = .idle (some (.element none)))
    (found : ∀ q₁ v, next q₁ = .ok v q' → AtHand q₁ ∧ ∃ path, NeverSpins path ∧
      ConsumesAlone (.found task q₁.consumerIndex) q₁ path (.idle (some (.element (some v)))) q')
    {answer : Option α}
    (ran : (do if ← await then return some (← next) else return .none :
      Act (Chain α) (Option α)) q = .ok answer q') :
    KnowsAtOnce q ∧ ∃ path, NeverSpins path ∧
      ConsumesAlone (.loadIndex task) q path (.idle (some (.element answer))) q' := by
  obtain ⟨seen, q₁, awaited, onward⟩ := Act.of_bind_ok ran
  cases seen with
  | false =>
      cases onward
      obtain ⟨knows, -, path, never, way⟩ := consumes_await task waits awaited nofun
      refine ⟨knows, path, never, ?_⟩
      rw [← none]
      exact way
  | true =>
      obtain ⟨v, q₂, read, told⟩ := Act.of_bind_ok onward
      cases told
      obtain ⟨there, more, never', reads⟩ := found q₁ v read
      obtain ⟨knows, same, path, never, way⟩ := consumes_await task waits awaited fun _ => there
      rw [same] at reads
      exact ⟨knows, path ++ more, never.append never', way.trans reads⟩

theorem consumes_poll {found : Option α} (ran : poll q = .ok found q') :
    KnowsAtOnce q ∧ ∃ path, NeverSpins path ∧
      ConsumesAlone (.loadIndex .poll) q path (.idle (some (.element found))) q' := by
  apply consumes_waiting .poll rfl rfl _ ran
  intro q₁ v taken
  rw [takeHead, Act.bind_view] at taken
  obtain ⟨v', q₂, took, stored⟩ := Act.of_bind_ok taken
  cases stored
  have there : AtHand q₁ := atHand_of_ran ((Arena.value_cases _ _ _).imp_right And.left) took
  refine ⟨there, [.take .poll q₁.consumerIndex, .storeIndex .poll q₁.consumerIndex v], ?_, ?_⟩
  · simp [NeverSpins, ConsumerPc.spins]
  · exact .step (Act.bind_ok took _) (.once rfl)

theorem consumes_peek {found : Option α} (ran : peek q = .ok found q') :
    KnowsAtOnce q ∧ ∃ path, NeverSpins path ∧
      ConsumesAlone (.loadIndex .peek) q path (.idle (some (.element found))) q' := by
  apply consumes_waiting .peek rfl rfl _ ran
  intro q₁ v shown
  rw [showHead, Act.bind_view] at shown
  have there : AtHand q₁ := atHand_of_ran ((Arena.value_cases _ _ _).imp_right And.right) shown
  refine ⟨there, [.showHead .peek q₁.consumerIndex], ?_, ?_⟩
  · simp [NeverSpins, ConsumerPc.spins]
  · exact .once (Act.bind_ok shown _)

end Handoff.ChainMachine
