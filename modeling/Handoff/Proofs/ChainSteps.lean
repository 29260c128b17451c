import Handoff.Proofs.ChainMoves

/-! Where one step of a thread of a chain leads. Most steps go on with an errand or a task,
or end it with elements. The others, which are told apart here, end in a refusal or belong to
a length. -/
namespace Handoff.ChainMachine

open Thread

variable {α : Type}

def Errand.refusal : Errand α → ProducerResult
  | offer _ => .full
  | fill _ _ => .filled 0

namespace ProducerPc

def errand? : ProducerPc α → Option (Errand α)
  | loadLimit e | loadIndex e _ | loadMask e _ _ | loadChunk e _ _ _ | loadConsumer e _
  | raiseLimit e _ _ | mark e _ | claim e _ | write e _ _ _ _ | grow e _ | storeMask e _ _
  | writeFirst e _ _ | link e _ _ | checkRoom e _ _ | storeLimit e _ _ | storeIndex e _
  | writeJump e _ => some e
  | idle _ | lengthFirst | lengthProducer _ | lengthAgain _ _ | fault => none

def before? : ProducerPc α → Option Nat
  | lengthProducer before | lengthAgain before _ => some before
  | _ => none

def onErrand : ProducerPc α → Bool
  | idle (some .full) | idle (some (.filled 0)) | idle (some (.length _)) => false
  | lengthFirst | lengthProducer _ | lengthAgain _ _ | fault => false
  | _ => true

/-- A step of a producer from one place to another, on a chain that was `q` and is `q'`. -/
inductive Leads (q q' : Chain α) : ProducerPc α → ProducerPc α → Prop
  | rests (last : Option ProducerResult) : Leads q q' (idle last) (idle last)
  | errand {pc pc' : ProducerPc α} (h : pc'.onErrand = true) : Leads q q' pc pc'
  | refused {pc' : ProducerPc α} (e : Errand α) (d : Draft) (ends : pc' = refused e)
      (above : q.consumerIndex + d.cursor.mask ≤ d.index) (full : q.freeAt d.index = 0) :
      Leads q q' (loadConsumer e d) pc'
  | nothing {pc' : ProducerPc α} (e : Errand α) (d : Draft) (ends : pc' = finished e 0)
      (none : (stop e d - d.index) / 2 = 0) : Leads q q' (claim e d) pc'
  | first : Leads q q' lengthFirst (lengthProducer q.consumerIndex)
  | loaded (before : Nat) (same : q' = q) :
      Leads q q' (lengthProducer before) (lengthAgain before q.producerIndex)
  | answered (before producer : Nat) (same : before = q.consumerIndex) :
      Leads q q' (lengthAgain before producer)
        (idle (some (.length (Index.distance producer before >>> 1))))
  | again (before producer : Nat) :
      Leads q q' (lengthAgain before producer) (lengthProducer q.consumerIndex)
  | fault : Leads q q' fault fault

end ProducerPc

namespace ConsumerPc

def before? : ConsumerPc α → Option Nat
  | lengthProducer before | lengthAgain before _ => some before
  | _ => none

def onTask : ConsumerPc α → Bool
  | idle (some (.length _)) => false
  | lengthFirst | lengthProducer _ | lengthAgain _ _ | fault => false
  | _ => true

/-- A step of the consumer from one place to another, on a chain that was `q` and is `q'`. -/
inductive Leads (q q' : Chain α) : ConsumerPc α → ConsumerPc α → Prop
  | rests (last : Option (ConsumerResult α)) : Leads q q' (idle last) (idle last)
  | task {pc pc' : ConsumerPc α} (h : pc'.onTask = true) : Leads q q' pc pc'
  | first : Leads q q' lengthFirst (lengthProducer q.consumerIndex)
  | loaded (before : Nat) (same : q' = q) :
      Leads q q' (lengthProducer before) (lengthAgain before q.producerIndex)
  | answered (before producer : Nat) (same : before = q.consumerIndex) :
      Leads q q' (lengthAgain before producer)
        (idle (some (.length (Index.distance producer before >>> 1))))
  | again (before producer : Nat) :
      Leads q q' (lengthAgain before producer) (lengthProducer q.consumerIndex)
  | fault : Leads q q' fault fault

end ConsumerPc

variable {q q' : Chain α} {e : Errand α} {n before producer : Nat}

namespace ProducerPc

theorem finished_onErrand (e : Errand α) (done : Nat) :
    (finished e (done + 1)).onErrand = true := by
  cases e <;> rfl

theorem writing_leads (pc : ProducerPc α) (e : Errand α) (cursor : Cursor)
    (index done left : Nat) : Leads q q' pc (writing e cursor index (done + 1) left) := by
  unfold writing
  split
  next => exact .errand (finished_onErrand e done)
  next => exact .errand rfl

theorem claim_leads (e : Errand α) (d : Draft) :
    Leads q q' (claim e d) (writing e d.cursor d.index 0 ((stop e d - d.index) / 2)) := by
  unfold writing
  split
  next none => exact .nothing e d rfl none
  next => exact .errand rfl

theorem reconsider_leads (e : Errand α) (d : Draft) :
    Leads q q' (loadConsumer e d) (reconsider e d q.bound q.consumerIndex) := by
  unfold reconsider
  split
  next => exact .errand rfl
  next above =>
      split
      next full => exact .refused e d rfl (Nat.le_of_not_lt above) full
      next => exact .errand rfl

theorem raised_onErrand (e : Errand α) (d : Draft) : (raised e d).onErrand = true := by
  cases e <;> rfl

end ProducerPc

theorem ProducerPc.Steps.leads {pc pc' : ProducerPc α} {vs : List α} {spurious : Bool}
    (steps : pc.Steps spurious q pc' vs q') : pc.Leads q q' pc' := by
  cases steps with
  | rests last => exact .rests last
  | loadsChunk e limit index mask =>
      unfold ProducerPc.decide
      split
      next => exact .errand rfl
      next => exact .errand rfl
  | loadsConsumer e d => exact reconsider_leads e d
  | raises e d limit same => exact .errand (raised_onErrand e d)
  | claims e d succeeds same => exact claim_leads e d
  | writes e cursor index done left put => exact writing_leads _ e cursor _ done _
  | writesJump e d jump => exact .errand (finished_onErrand e 0)
  | lengthBegins => exact .first
  | lengthLoads before => exact .loaded before rfl
  | lengthEnds before producer same => exact .answered before producer same
  | lengthRepeats before producer moved => exact .again before producer
  | fault => exact .fault
  | loadsLimit | loadsIndex | meetsMark | loadsMask | losesLimit | marks | losesMark | losesClaim
  | grows | storesMask | writesFirst | links | checksRoom | storesLimit | storesIndex =>
      exact .errand rfl

namespace ConsumerPc

theorem nothing_onTask (t : Task) : (nothing t : ConsumerPc α).onTask = true := by
  cases t <;> rfl

theorem found_onTask (t : Task) (index : Nat) : (found t index : ConsumerPc α).onTask = true := by
  cases t <;> rfl

theorem seen_onTask (t : Task) (index : Nat) {empty : ConsumerPc α}
    (h : empty.onTask = true) (slot : Slot α) : (seen t index empty slot).onTask = true := by
  cases slot with
  | empty => exact h
  | value v => exact found_onTask t index
  | jump => rfl

theorem took_onTask (v : α) (t : Task) : (took v t).onTask = true := by
  cases t with
  | drain done left =>
      match left with
      | 0 | 1 | _ + 2 => rfl
  | _ => rfl

end ConsumerPc

theorem ConsumerPc.Steps.leads {pc pc' : ConsumerPc α} {v? : Option α}
    (steps : pc.Steps q pc' v? q') : pc.Leads q q' pc' := by
  cases steps with
  | rests last => exact .rests last
  | readsSlot t index read =>
      refine .task (seen_onTask t index ?_ _)
      split
      next => rfl
      next => exact nothing_onTask t
  | givesUp t index same => exact .task (nothing_onTask t)
  | spins t index read => exact .task (seen_onTask t index rfl _)
  | readsFirst t index read => exact .task (found_onTask t index)
  | storesIndex t index v => exact .task (took_onTask v t)
  | lengthBegins => exact .first
  | lengthLoads before => exact .loaded before rfl
  | lengthEnds before producer same => exact .answered before producer same
  | lengthRepeats before producer moved => exact .again before producer
  | fault => exact .fault
  | loadsIndex | loadsProducer | loadsNext | leaves | takes | shows => exact .task rfl

theorem ProducerPc.before?_onErrand {pc : ProducerPc α} (h : pc.onErrand = true) :
    pc.before? = none := by
  cases pc <;> first | rfl | cases h

theorem ConsumerPc.before?_onTask {pc : ConsumerPc α} (h : pc.onTask = true) :
    pc.before? = none := by
  cases pc <;> first | rfl | cases h

theorem ProducerPc.Leads.before_le {pc pc' : ProducerPc α} (leads : pc.Leads q q' pc')
    (known : ∀ b, pc.before? = some b → b ≤ q.consumerIndex)
    (now : pc'.before? = some before) : before ≤ q.consumerIndex := by
  cases leads with
  | errand h =>
      rw [before?_onErrand h] at now
      cases now
  | refused e d ends =>
      subst ends
      cases e <;> cases now
  | nothing e d ends none =>
      subst ends
      cases e <;> cases now
  | first | again b producer =>
      cases now
      exact Nat.le_refl _
  | loaded b same => exact known before now
  | rests last | answered b producer same | fault => cases now

theorem ConsumerPc.Leads.before_le {pc pc' : ConsumerPc α} (leads : pc.Leads q q' pc')
    (known : ∀ b, pc.before? = some b → b ≤ q.consumerIndex)
    (now : pc'.before? = some before) : before ≤ q.consumerIndex := by
  cases leads with
  | task h =>
      rw [before?_onTask h] at now
      cases now
  | first | again b producer =>
      cases now
      exact Nat.le_refl _
  | loaded b same => exact known before now
  | rests last | answered b producer same | fault => cases now

theorem ProducerPc.Leads.of_length {pc : ProducerPc α} (busy : ∀ last, pc ≠ .idle last)
    (ends : pc.Leads q q' (.idle (some (.length n)))) :
    ∃ before producer, pc = .lengthAgain before producer ∧ before = q.consumerIndex ∧
      n = Index.distance producer before >>> 1 := by
  cases ends with
  | rests last => exact absurd rfl (busy _)
  | errand h => cases h
  | refused e d ends => cases e <;> cases ends
  | nothing e d ends => cases e <;> cases ends
  | answered before producer same => exact ⟨before, producer, rfl, same, rfl⟩

theorem ConsumerPc.Leads.of_length {pc : ConsumerPc α} (busy : ∀ last, pc ≠ .idle last)
    (ends : pc.Leads q q' (.idle (some (.length n)))) :
    ∃ before producer, pc = .lengthAgain before producer ∧ before = q.consumerIndex ∧
      n = Index.distance producer before >>> 1 := by
  cases ends with
  | rests last => exact absurd rfl (busy _)
  | task h => cases h
  | answered before producer same => exact ⟨before, producer, rfl, same, rfl⟩

theorem ProducerPc.Leads.of_loaded {pc : ProducerPc α}
    (loads : pc.Leads q q' (.lengthAgain before producer)) :
    pc = .lengthProducer before ∧ producer = q.producerIndex ∧ q' = q := by
  cases loads with
  | errand h => cases h
  | refused e d ends => cases e <;> cases ends
  | nothing e d ends => cases e <;> cases ends
  | loaded before same => exact ⟨rfl, rfl, same⟩

theorem ConsumerPc.Leads.of_loaded {pc : ConsumerPc α}
    (loads : pc.Leads q q' (.lengthAgain before producer)) :
    pc = .lengthProducer before ∧ producer = q.producerIndex ∧ q' = q := by
  cases loads with
  | task h => cases h
  | loaded before same => exact ⟨rfl, rfl, same⟩

end Handoff.ChainMachine
