import Handoff.Proofs.ChainMoves
import Handoff.Proofs.Interleaving

/-! Deliveries over every order of steps. Each producer has values of its own, which it
brings in by offers and fills as far as they are accepted. What arrives is what was
claimed, in the order of the claims. -/
namespace Handoff

variable {α : Type}

def Thread.ProducerResult.count : Thread.ProducerResult → Nat
  | accepted => 1
  | filled n => n
  | full | length _ => 0

namespace ChainMachine

namespace ProducerPc

def gain : ProducerPc α → ProducerPc α → Nat
  | idle _, _ => 0
  | _, idle (some result) => result.count
  | _, _ => 0

/-- How many elements the present order has claimed. -/
def underway : ProducerPc α → Nat
  | write _ _ _ done left => done + left
  | grow _ _ | storeMask _ _ _ | writeFirst _ _ _ | link _ _ _ | checkRoom _ _ _
  | storeLimit _ _ _ | storeIndex _ _ | writeJump _ _ => 1
  | _ => 0

def isIdle : ProducerPc α → Bool
  | idle _ => true
  | _ => false

end ProducerPc

namespace ConsumerPc

/-- What the consumer is at, unless it is idle or asks for a length. -/
def task? : ConsumerPc α → Option Task
  | loadIndex t | readSlot t _ | loadProducer t _ | spin t _ | loadNext t _ | leave t _ _
  | readFirst t _ | take t _ | showHead t _ | storeIndex t _ _ => some t
  | _ => none

end ConsumerPc

/-- The machine, and how many elements of each producer have been accepted. -/
structure Campaign (α : Type) where
  machine : ChainMachine α
  accepted : Nat → Nat

/-- Who moves next. A producer that is told to offer or fill goes on from the first of
its values that is not accepted. -/
inductive Turn where
  | offer (p : Nat)
  | fill (p wanted : Nat)
  | length (p : Nat)
  | producer (p : Nat) (spurious : Bool)
  | tellConsumer (order : ConsumerOrder)
  | consumer

namespace Campaign

def start (chain : Chain α) (producers : Nat) : Campaign α :=
  ⟨.start chain producers, fun _ => 0⟩

def gain (m : ChainMachine α) (p : Nat) (spurious : Bool) : Nat :=
  match m.producers[p]?, (m.moveProducer p spurious).producers[p]? with
  | some pc, some pc' => pc.gain pc'
  | _, _ => 0

def move (values : Nat → Nat → α) (s : Campaign α) : Turn → Move α
  | .offer p => .tellProducer p (.offer (values p (s.accepted p)))
  | .fill p wanted => .tellProducer p (.fill wanted fun k => values p (s.accepted p + k))
  | .length p => .tellProducer p .length
  | .producer p spurious => .producer p spurious
  | .tellConsumer order => .tellConsumer order
  | .consumer => .consumer

def gained (s : Campaign α) (p : Nat) : Turn → Nat
  | .producer p' spurious => if p' = p then gain s.machine p spurious else 0
  | _ => 0

def turn (values : Nat → Nat → α) (s : Campaign α) (t : Turn) : Campaign α :=
  ⟨s.machine.advance (s.move values t), fun p => s.accepted p + s.gained p t⟩

def run (values : Nat → Nat → α) : Campaign α → List Turn → Campaign α
  | s, [] => s
  | s, t :: rest => (s.turn values t).run values rest

/-- The values that producer `p` has claimed an index for, in the order of the claims. -/
def claimsOf (s : Campaign α) (p : Nat) : List α :=
  (s.machine.claimed.toList.filter (·.1 == p)).map Prod.snd

/-- The values of producer `p` among those received, in the order of their arrival: what
was received first was claimed first. -/
def arrivalsOf (s : Campaign α) (p : Nat) : List α :=
  ((s.machine.claimed.toList.take s.machine.received.size).filter (·.1 == p)).map Prod.snd

end Campaign

/-- The elements of the errand are those of `own` from number `n` on. -/
def Errand.Draws (own : Nat → α) (n : Nat) : Errand α → Prop
  | offer v => v = own n
  | fill _ supply => ∀ k, supply k = own (n + k)

def Errand.Claims : Errand α → Nat → Prop
  | offer _, count => count = 1
  | fill _ _, _ => True

def ProducerPc.Draws (own : Nat → α) (n : Nat) : ProducerPc α → Prop
  | idle _ | lengthFirst | lengthProducer _ | lengthAgain _ _ | fault => True
  | loadLimit e | loadIndex e _ | loadMask e _ _ | loadChunk e _ _ _ | loadConsumer e _
  | raiseLimit e _ _ | mark e _ | claim e _ | grow e _ | storeMask e _ _ | writeFirst e _ _
  | link e _ _ | checkRoom e _ _ | storeLimit e _ _ | storeIndex e _ | writeJump e _ =>
    e.Draws own n
  | write e _ _ done left => e.Draws own n ∧ 0 < left ∧ e.Claims (done + left)

/-- What a step from `pc` to `pc'` that claims for `vs` means for the values of the
producer, of which `n` were accepted before: it claims for the next ones, and a claim is
underway until it is reported. -/
structure Drawn (own : Nat → α) (n : Nat) (pc pc' : ProducerPc α) (vs : List α) : Prop where
  draws : pc'.Draws own (n + pc.gain pc')
  next : vs = (List.range vs.length).map fun k => own (n + pc.underway + k)
  sum : pc.underway + vs.length = pc.gain pc' + pc'.underway

variable {own : Nat → α} {n : Nat} {e : Errand α}

theorem Errand.Draws.element (draws : e.Draws own n) (k : Nat) (small : e.Claims (k + 1)) :
    e.element k = own (n + k) := by
  cases e with
  | offer v =>
      obtain rfl : k = 0 := Nat.succ.inj small
      exact draws
  | fill wanted supply => exact draws k

theorem Errand.Draws.elements (draws : e.Draws own n) {count : Nat} (claims : e.Claims count) :
    e.elements count = (List.range count).map fun k => own (n + k) := by
  refine List.map_congr_left fun k hk => draws.element k ?_
  cases e with
  | offer v =>
      obtain rfl : count = 1 := claims
      obtain rfl : k = 0 := Nat.lt_one_iff.mp (List.mem_range.mp hk)
      rfl
  | fill wanted supply => trivial

theorem Drawn.stay {pc pc' : ProducerPc α} (draws : pc'.Draws own n) (gain : pc.gain pc' = 0)
    (underway : pc'.underway = pc.underway) : Drawn own n pc pc' [] where
  draws := by
    rw [gain]
    exact draws
  next := rfl
  sum := by
    rw [gain, underway, List.length_nil, Nat.add_zero, Nat.zero_add]

theorem Drawn.finish {pc : ProducerPc α} {count : Nat} (claims : e.Claims count)
    (busy : pc.isIdle = false) (underway : pc.underway = count) :
    Drawn own n pc (.finished e count) [] := by
  have gain : pc.gain (.finished e count) = count := by
    cases e with
    | offer v =>
        obtain rfl : count = 1 := claims
        cases pc <;> first | rfl | cases busy
    | fill wanted supply => cases pc <;> first | rfl | cases busy
  have idle : (ProducerPc.finished e count).underway = 0 := by cases e <;> rfl
  refine ⟨by cases e <;> trivial, rfl, ?_⟩
  rw [gain, idle, underway, List.length_nil]

theorem reconsider_drawn (draws : e.Draws own n) (d : Draft) (bound consumer : Nat) :
    Drawn own n (.loadConsumer e d) (.reconsider e d bound consumer) [] := by
  unfold ProducerPc.reconsider
  split
  · exact .stay draws rfl rfl
  · split
    · cases e with
      | offer v => exact .stay trivial rfl rfl
      | fill wanted supply => exact .stay trivial rfl rfl
    · exact .stay draws rfl rfl

theorem raised_drawn (draws : e.Draws own n) (d : Draft) (limit : Nat) :
    Drawn own n (.raiseLimit e d limit) (.raised e d) [] := by
  cases e with
  | offer v => exact .stay draws rfl rfl
  | fill wanted supply => exact .stay draws rfl rfl

theorem mark_drawn (draws : e.Draws own n) (d : Draft) :
    Drawn own n (.mark e d) (.grow e d) [e.element 0] where
  draws := draws
  next := by
    have claims : e.Claims 1 := by cases e <;> trivial
    exact congrArg (· :: []) (draws.element 0 claims)
  sum := rfl

theorem claim_drawn (draws : e.Draws own n) (d : Draft) {count : Nat} (claims : e.Claims count) :
    Drawn own n (.claim e d) (.writing e d.cursor d.index 0 count) (e.elements count) := by
  have elements := draws.elements claims
  have length : (e.elements count).length = count := by
    rw [Errand.elements, List.length_map, List.length_range]
  unfold ProducerPc.writing
  split
  next none =>
      subst none
      exact .finish claims rfl rfl
  next some =>
      refine ⟨⟨draws, Nat.pos_of_ne_zero some, (Nat.zero_add count).symm ▸ claims⟩, ?_, ?_⟩
      · rw [length]
        exact elements
      · rw [length]
        show 0 + count = 0 + (0 + count)
        omega

theorem write_drawn {cursor : Cursor} {index done left : Nat} (draws : e.Draws own n)
    (pos : 0 < left) (claims : e.Claims (done + left)) :
    Drawn own n (.write e cursor index done left)
      (.writing e cursor (index + 2) (done + 1) (left - 1)) [] := by
  have same : done + left = done + 1 + (left - 1) := by omega
  unfold ProducerPc.writing
  split
  next last =>
      rw [last] at same
      exact .finish (same ▸ claims) rfl same
  next some => exact .stay ⟨draws, Nat.pos_of_ne_zero some, same ▸ claims⟩ rfl same.symm

theorem ProducerPc.Steps.drawn {pc pc' : ProducerPc α} {q q' : Chain α} {vs : List α}
    {spurious : Bool} (draws : pc.Draws own n) (steps : pc.Steps spurious q pc' vs q') :
    Drawn own n pc pc' vs := by
  cases steps with
  | loadsChunk e limit index mask =>
      unfold ProducerPc.decide
      split
      · exact .stay draws rfl rfl
      · exact .stay draws rfl rfl
  | loadsConsumer e d => exact reconsider_drawn draws d _ _
  | raises e d limit same => exact raised_drawn draws d limit
  | marks e d same => exact mark_drawn draws d
  | claims e d succeeds same =>
      refine claim_drawn draws d ?_
      cases e with
      | fill wanted supply => trivial
      | offer v =>
          show (d.index + 2 - d.index) / 2 = 1
          omega
  | writes e cursor index done left put => exact write_drawn draws.1 draws.2.1 draws.2.2
  | writesJump e d jump => exact .finish (by cases e <;> trivial) rfl rfl
  | loadsLimit | loadsIndex | meetsMark | loadsMask | losesLimit | losesMark | losesClaim | grows
  | storesMask | writesFirst | links | checksRoom | storesLimit | storesIndex =>
      exact .stay draws rfl rfl
  | rests | lengthBegins | lengthLoads | lengthEnds | lengthRepeats | fault =>
      exact .stay trivial rfl rfl

namespace Campaign

variable {values : Nat → Nat → α} {s : Campaign α} {g : Register α} {p : Nat}

def underwayOf (s : Campaign α) (p : Nat) : Nat :=
  s.machine.producers[p]?.elim 0 ProducerPc.underway

/-- Each producer has claimed for the first of its values, and goes on with the next. -/
structure Tallies (values : Nat → Nat → α) (s : Campaign α) : Prop where
  claims : ∀ p, s.claimsOf p =
    (List.range (s.accepted p + s.underwayOf p)).map (values p)
  draws : ∀ (p : Nat) (pc : ProducerPc α), s.machine.producers[p]? = some pc →
    pc.Draws (values p) (s.accepted p)

theorem start_tallies (values : Nat → Nat → α) (chain : Chain α) (producers : Nat) :
    (start chain producers).Tallies values := by
  constructor
  case claims =>
    intro p
    have none : (start chain producers).underwayOf p = 0 := by
      unfold underwayOf
      cases found : (start chain producers).machine.producers[p]? with
      | none => rfl
      | some pc =>
          obtain rfl := start_idle found
          rfl
    rw [none]
    rfl
  case draws =>
    intro p pc found
    obtain rfl := start_idle found
    trivial

theorem Tallies.tell (h : s.Tallies values) (order : ProducerOrder α)
    (draws : order.begin.Draws (values p) (s.accepted p)) (idle : order.begin.underway = 0) :
    Tallies values ⟨s.machine.tellProducer p order, s.accepted⟩ := by
  unfold ChainMachine.tellProducer
  split
  next last found =>
      refine ⟨fun p' => (h.claims p').trans ?_, fun p' pc found' => ?_⟩
      · simp only [underwayOf, Array.getElem?_setIfInBounds]
        split
        next same =>
            subst same
            rw [found]
            split
            · rw [Option.elim_some, Option.elim_some, idle]
              rfl
            · rfl
        next apart => rfl
      · simp only [Array.getElem?_setIfInBounds] at found'
        split at found'
        next same =>
            subst same
            split at found'
            · cases found'
              exact draws
            · cases found'
        next apart => exact h.draws p' pc found'
  next => exact h

theorem gained_self (p : Nat) (spurious : Bool) :
    s.gained p (.producer p spurious) = gain s.machine p spurious := if_pos rfl

theorem gained_other {p' : Nat} (apart : p ≠ p') (spurious : Bool) :
    s.gained p' (.producer p spurious) = 0 := if_neg apart

theorem range_append (own : Nat → α) {vs : List α} {before : Nat}
    (next : vs = (List.range vs.length).map fun k => own (before + k)) :
    (List.range before).map own ++ vs = (List.range (before + vs.length)).map own := by
  rw [List.range_add, List.map_append, List.map_map, Function.comp_def, ← next]

theorem filter_claims (claims : List (Nat × α)) (p p' : Nat) (vs : List α) :
    ((claims ++ vs.map (p, ·)).filter (·.1 == p')).map Prod.snd =
      (claims.filter (·.1 == p')).map Prod.snd ++ if p = p' then vs else [] := by
  rw [List.filter_append, List.map_append, List.filter_map, Function.comp_def]
  by_cases same : p = p'
  · simp [same, Function.comp_def]
  · simp [same]

theorem turn_none (found : s.machine.producers[p]? = none) (spurious : Bool) :
    s.turn values (.producer p spurious) = s := by
  have same : s.machine.moveProducer p spurious = s.machine := moveProducer_none found spurious
  have gained : ∀ p', s.gained p' (.producer p spurious) = 0 := by
    intro p'
    by_cases apart : p = p'
    · subst apart
      rw [gained_self, gain, found]
    · exact gained_other apart spurious
  simp only [turn, move, advance, same, gained, Nat.add_zero]

section Producer

variable {pc pc' : ProducerPc α} {vs : List α} {q' : Chain α} {spurious : Bool}

theorem turn_producers (found : s.machine.producers[p]? = some pc)
    (steps : pc.Steps spurious s.machine.chain pc' vs q') :
    (s.turn values (.producer p spurious)).machine.producers =
      s.machine.producers.setIfInBounds p pc' := by
  rw [turn, move, advance, moveProducer_ok found steps.run]

theorem turn_claims (found : s.machine.producers[p]? = some pc)
    (steps : pc.Steps spurious s.machine.chain pc' vs q') (p' : Nat) :
    (s.turn values (.producer p spurious)).claimsOf p' =
      s.claimsOf p' ++ if p = p' then vs else [] := by
  rw [claimsOf, claimsOf, ← filter_claims, turn, move, advance, moveProducer_ok found steps.run]
  exact congrArg (fun l : List (Nat × α) => (l.filter (·.1 == p')).map Prod.snd)
    Array.toList_appendList

theorem set_self (found : s.machine.producers[p]? = some pc) :
    (s.machine.producers.setIfInBounds p pc')[p]? = some pc' := by
  have lt : p < s.machine.producers.size := (Array.getElem?_eq_some_iff.mp found).1
  rw [Array.getElem?_setIfInBounds_self, if_pos lt]

theorem gained_step (found : s.machine.producers[p]? = some pc)
    (steps : pc.Steps spurious s.machine.chain pc' vs q') :
    s.gained p (.producer p spurious) = pc.gain pc' := by
  rw [gained_self, gain, found, moveProducer_ok found steps.run]
  simp only [set_self found]

end Producer

theorem Tallies.step (h : s.Tallies values) (inv : s.machine.Inv g) (p : Nat) (spurious : Bool) :
    (s.turn values (.producer p spurious)).Tallies values := by
  cases found : s.machine.producers[p]? with
  | none =>
      rw [turn_none found]
      exact h
  | some pc =>
      have knows := inv.producers p pc found
      obtain ⟨pc', vs, q', g', steps, -⟩ := producer_goes_on inv.valid inv.records knows spurious
      have drawn := steps.drawn (h.draws p pc found)
      have gained := gained_step found steps
      have producers : (s.turn values (.producer p spurious)).machine.producers = _ :=
        turn_producers found steps
      have accepted : ∀ p', (s.turn values (.producer p spurious)).accepted p' =
          s.accepted p' + s.gained p' (.producer p spurious) := fun _ => rfl
      constructor
      case claims =>
        intro p'
        rw [turn_claims found steps, accepted, underwayOf, producers, h.claims p']
        by_cases same : p = p'
        · subst same
          have before : s.underwayOf p = pc.underway := by
            rw [underwayOf, found, Option.elim_some]
          have sum : s.accepted p + pc.underway + vs.length =
              s.accepted p + pc.gain pc' + pc'.underway := by
            have := drawn.sum
            omega
          rw [if_pos rfl, gained, set_self found, Option.elim_some, before,
            range_append _ drawn.next, sum]
        · rw [if_neg same, gained_other same, Array.getElem?_setIfInBounds_ne same,
            List.append_nil, Nat.add_zero, underwayOf]
      case draws =>
        intro p' pc₁ found₁
        rw [accepted]
        rw [producers] at found₁
        by_cases same : p = p'
        · subst same
          obtain rfl := Option.some.inj ((set_self found).symm.trans found₁)
          exact gained.symm ▸ drawn.draws
        · rw [Array.getElem?_setIfInBounds_ne same] at found₁
          rw [gained_other same]
          exact h.draws p' pc₁ found₁

theorem Tallies.consume (h : s.Tallies values) {m : ChainMachine α}
    (claimed : m.claimed = s.machine.claimed) (producers : m.producers = s.machine.producers) :
    Tallies values ⟨m, s.accepted⟩ where
  claims p := by
    simp only [claimsOf, underwayOf, claimed, producers]
    exact h.claims p
  draws p pc found := h.draws p pc (producers ▸ found)

theorem Tallies.turn (h : s.Tallies values) (inv : s.machine.Inv g) (t : Turn) :
    (s.turn values t).Tallies values := by
  cases t with
  | offer p => exact h.tell (.offer (values p (s.accepted p))) rfl rfl
  | fill p wanted =>
      exact h.tell (.fill wanted fun k => values p (s.accepted p + k)) (fun _ => rfl) rfl
  | length p => exact h.tell .length trivial rfl
  | producer p spurious => exact h.step inv p spurious
  | tellConsumer order =>
      refine h.consume (m := s.machine.tellConsumer order) ?_ ?_
      · unfold ChainMachine.tellConsumer
        split <;> rfl
      · unfold ChainMachine.tellConsumer
        split <;> rfl
  | consumer =>
      obtain ⟨pc', v?, q', g', steps, -⟩ := consumer_goes_on inv.valid inv.records inv.consumer
      have moved := moveConsumer_ok steps.run
      exact h.consume (m := s.machine.moveConsumer) (by rw [moved]) (by rw [moved])

theorem Tallies.run (h : s.Tallies values) (inv : s.machine.Inv g) (turns : List Turn) :
    ∃ g', (s.run values turns).machine.Inv g' ∧ (s.run values turns).Tallies values := by
  induction turns generalizing s g with
  | nil => exact ⟨g, inv, h⟩
  | cons t rest ih =>
      obtain ⟨g', moved⟩ := inv.advance (s.move values t)
      exact ih (s := s.turn values t) (h.turn inv t) moved.inv

theorem found_busy (t : Task) (index : Nat) :
    (ConsumerPc.found t index : ConsumerPc α).task? = some t := by
  unfold ConsumerPc.found
  split <;> rfl

theorem seen_busy {t : Task} {index : Nat} {empty : ConsumerPc α} (busy : empty.task? = some t)
    (slot : Slot α) : (ConsumerPc.seen t index empty slot).task? = some t := by
  cases slot with
  | empty => exact busy
  | value v => exact found_busy t index
  | jump => rfl

theorem nothing_found {q q' : Chain α} {pc : ConsumerPc α} {t : Task} {v? : Option α}
    (task : pc.task? = some t) (waits : t.waits = true)
    (steps : pc.Steps q (.idle (some (.element none))) v? q') :
    ∃ index, pc = .loadProducer t index ∧ q.producerIndex = index := by
  generalize ends : (ConsumerPc.idle (some (.element none)) : ConsumerPc α) = pc' at steps
  have ended : pc'.task? = none := by
    rw [← ends]
    rfl
  cases steps with
  | givesUp t' index same =>
      obtain rfl := Option.some.inj task
      exact ⟨index, rfl, same.symm⟩
  | readsSlot t' index read =>
      obtain rfl := Option.some.inj task
      rw [if_pos waits, seen_busy rfl] at ended
      cases ended
  | spins t' index read =>
      rw [seen_busy rfl] at ended
      cases ended
  | readsFirst t' index read =>
      rw [found_busy] at ended
      cases ended
  | storesIndex t' index v =>
      obtain rfl := Option.some.inj task
      cases t' with
      | poll | peek => cases ends
      | relaxedPoll | relaxedPeek | drain => cases waits
  | shows => cases ends
  | loadsIndex | loadsProducer | loadsNext | leaves | takes => cases ended
  | rests | lengthBegins | lengthLoads | lengthEnds | lengthRepeats | fault => cases task

/-- What has arrived in state `s`, where the values of producer `p` are `values p`. The
first two say that what was received are the first of the claims, and that each producer
has claimed for the first of its values. The last two are about a consumer that is about
to end a poll or a peek without an element. -/
structure Delivers (values : Nat → Nat → α) (s : Campaign α) : Prop where
  in_order : s.machine.received.toList =
    (s.machine.claimed.toList.take s.machine.received.size).map Prod.snd
  claims : ∀ p, s.claimsOf p = (List.range (s.claimsOf p).length).map (values p)
  accepted_le : ∀ p, s.accepted p ≤ (s.claimsOf p).length
  arrivals : ∀ p, s.arrivalsOf p = (List.range (s.arrivalsOf p).length).map (values p)
  none_left : ∀ t, s.machine.consumer.task? = some t → t.waits = true →
    s.machine.moveConsumer.consumer = .idle (some (.element none)) →
    (∃ index, s.machine.consumer = .loadProducer t index) ∧
      s.machine.received.toList = s.machine.claimed.toList.map Prod.snd
  complete : ∀ t, s.machine.consumer.task? = some t → t.waits = true →
    s.machine.moveConsumer.consumer = .idle (some (.element none)) →
    (∀ (p : Nat) (pc : ProducerPc α), s.machine.producers[p]? = some pc → pc.isIdle = true) →
    ∀ p, s.arrivalsOf p = (List.range (s.accepted p)).map (values p)

theorem received_size (inv : s.machine.Inv g) : s.machine.received.size = g.taken := by
  rw [← Array.length_toList, inv.received, List.length_map, List.length_take]
  exact Nat.min_eq_left inv.valid.taken_le_length

theorem arrivals_eq (inv : s.machine.Inv g) (p : Nat) :
    s.arrivalsOf p = ((g.claims.take g.taken).filter (·.1 == p)).map Prod.snd := by
  rw [arrivalsOf, received_size inv, inv.claimed]

theorem arrivals_le (inv : s.machine.Inv g) (p : Nat) : s.arrivalsOf p <+: s.claimsOf p := by
  have first : g.claims.take g.taken <+: g.claims := List.take_prefix g.taken g.claims
  rw [arrivals_eq inv, claimsOf, inv.claimed]
  exact (first.filter _).map _

theorem all_taken (inv : s.machine.Inv g) {t : Task} (task : s.machine.consumer.task? = some t)
    (waits : t.waits = true)
    (none : s.machine.moveConsumer.consumer = .idle (some (.element none))) :
    (∃ index, s.machine.consumer = .loadProducer t index) ∧ g.claims.length = g.taken := by
  obtain ⟨pc', v?, q', g', steps, -⟩ := consumer_goes_on inv.valid inv.records inv.consumer
  rw [moveConsumer_ok steps.run] at none
  obtain rfl : pc' = .idle (some (.element .none)) := none
  obtain ⟨index, pc, same⟩ := nothing_found task waits steps
  have knows := inv.consumer
  rw [pc] at knows
  have even : g.index = 2 * g.taken :=
    (inv.records.producer.symm.trans same).trans knows.index
  exact ⟨⟨index, pc⟩, (Register.unmarked_of_even even).2⟩

theorem Tallies.delivers (h : s.Tallies values) (inv : s.machine.Inv g) : s.Delivers values := by
  have claims : ∀ p, s.claimsOf p = (List.range (s.claimsOf p).length).map (values p) := by
    intro p
    have length : (s.claimsOf p).length = s.accepted p + s.underwayOf p := by
      rw [h.claims p, List.length_map, List.length_range]
    rw [length]
    exact h.claims p
  refine ⟨?in_order, claims, ?accepted_le, ?arrivals, ?none_left, ?complete⟩
  case in_order => rw [received_size inv, inv.claimed, inv.received]
  case accepted_le =>
    intro p
    rw [h.claims p, List.length_map, List.length_range]
    exact Nat.le_add_right _ _
  case arrivals =>
    intro p
    have first := arrivals_le inv p
    have le := first.length_le
    rw [List.prefix_iff_eq_take, claims p, ← List.map_take, List.take_range,
      Nat.min_eq_left le] at first
    exact first
  case none_left =>
    intro t task waits none
    obtain ⟨pc, all⟩ := all_taken inv task waits none
    refine ⟨pc, ?_⟩
    rw [inv.received, inv.claimed, ← all, List.take_length]
  case complete =>
    intro t task waits none idle p
    obtain ⟨-, all⟩ := all_taken inv task waits none
    have nothing : s.underwayOf p = 0 := by
      unfold underwayOf
      cases found : s.machine.producers[p]? with
      | none => rfl
      | some pc =>
          have := idle p pc found
          cases pc with
          | idle last => rfl
          | _ => cases this
    have same : s.arrivalsOf p = s.claimsOf p := by
      rw [arrivals_eq inv, claimsOf, inv.claimed, ← all, List.take_length]
    rw [same, h.claims p, nothing, Nat.add_zero]

/-- Over every order of steps of any number of producers, each with values of its own,
and a consumer that polls, peeks and drains as it likes, nothing is lost, doubled or
taken out of its producer's order. -/
theorem delivers_all {q : Chain α} (made : q.Made) (producers : Nat)
    (values : Nat → Nat → α) (turns : List Turn) :
    ((start q producers).run values turns).Delivers values := by
  obtain ⟨size, fits, rfl⟩ := made.exists_size
  obtain ⟨g, inv, tallies⟩ :=
    (start_tallies values (.ofSize size) producers).run (Inv.start fits producers) turns
  exact tallies.delivers inv

/-- Two producers at a chain of chunks of two, for up to four. Producer 0 loads its
numbers while producer 1 links a chunk, and links one itself after the consumer has moved
on. At the end a poll is about to find nothing. -/
def handover : List Turn :=
  .offer 0 :: List.replicate 6 (.producer 0 false) ++
  .fill 1 2 :: List.replicate 6 (.producer 1 false) ++
  .offer 0 :: List.replicate 3 (.producer 0 false) ++
  List.replicate 8 (.producer 1 false) ++
  .tellConsumer (.drain 2) :: List.replicate 11 .consumer ++
  List.replicate 15 (.producer 0 false) ++
  .tellConsumer .peek :: List.replicate 5 .consumer ++
  .tellConsumer .poll :: List.replicate 7 .consumer ++
  .tellConsumer .poll :: List.replicate 2 .consumer

theorem delivers_all_handover :
    (Chain.chunked 2 4 : Except CapacityError (Chain Nat)) = .ok (.ofSize ⟨2, 4⟩) ∧
      ((start (.ofSize ⟨2, 4⟩) 2).run (10 * · + ·) handover).Delivers (10 * · + ·) ∧
      ((start (.ofSize ⟨2, 4⟩) 2).run (10 * · + ·) handover).machine.received = #[0, 10, 1] :=
  ⟨rfl, delivers_all (.inl ⟨2, 4, rfl⟩) 2 (10 * · + ·) handover, by decide +kernel⟩

end Campaign
end ChainMachine
end Handoff
