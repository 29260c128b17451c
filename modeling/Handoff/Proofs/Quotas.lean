import Handoff.Proofs.Campaign
import Handoff.Proofs.InterleavingCounts

/-! What an order can bring in: at most as many elements as it asks for, over every order of
steps. -/
namespace Handoff.ChainMachine

variable {α : Type} {m : ChainMachine α} {n p p' : Nat} {spurious : Bool} {e : Errand α} {d : Draft}

theorem moveProducer_producers (m : ChainMachine α) (p : Nat) (spurious : Bool) :
    ∃ pc', (m.moveProducer p spurious).producers = m.producers.setIfInBounds p pc' ∧
      ∀ pc, m.producers[p]? = some pc →
        (∃ vs q', pc.Steps spurious m.chain pc' vs q') ∨ pc' = .fault := by
  unfold moveProducer
  cases found : m.producers[p]? with
  | none =>
      refine ⟨.fault, (Array.setIfInBounds_eq_of_size_le ?_).symm, nofun⟩
      exact Array.getElem?_eq_none_iff.mp found
  | some pc =>
      obtain ⟨chain, producers, consumer, claimed, received⟩ := m
      dsimp only
      split
      next pc' vs q' ran =>
          refine ⟨pc', rfl, fun pc same => .inl ?_⟩
          cases same
          exact ⟨vs, q', .of_ok ran⟩
      next => exact ⟨.fault, rfl, fun _ _ => .inr rfl⟩

theorem moveProducer_other (apart : p ≠ p') :
    (m.moveProducer p spurious).producers[p']? = m.producers[p']? := by
  obtain ⟨pc', producers, -⟩ := moveProducer_producers m p spurious
  rw [producers]
  exact Array.getElem?_setIfInBounds_ne apart

theorem moveProducer_size (m : ChainMachine α) (p : Nat) (spurious : Bool) :
    (m.moveProducer p spurious).producers.size = m.producers.size := by
  obtain ⟨pc', producers, -⟩ := moveProducer_producers m p spurious
  rw [producers, Array.size_setIfInBounds]

theorem tellProducer_size (m : ChainMachine α) (p : Nat) (order : ProducerOrder α) :
    (m.tellProducer p order).producers.size = m.producers.size := by
  unfold tellProducer
  split
  · exact Array.size_setIfInBounds
  · rfl

theorem moveConsumer_producers (m : ChainMachine α) : m.moveConsumer.producers = m.producers := by
  obtain ⟨chain, producers, consumer, claimed, received⟩ := m
  unfold moveConsumer
  dsimp only
  split <;> rfl

theorem tellProducer_other (apart : p ≠ p') (order : ProducerOrder α) :
    (m.tellProducer p order).producers[p']? = m.producers[p']? := by
  unfold tellProducer
  split
  · exact Array.getElem?_setIfInBounds_ne apart
  · rfl

theorem tellProducer_idle {last : Option Thread.ProducerResult}
    (idle : m.producers[p]? = some (.idle last)) (order : ProducerOrder α) :
    (m.tellProducer p order).producers[p]? = some order.begin := by
  rw [tellProducer, idle]
  have lt := (Array.getElem?_eq_some_iff.mp idle).1
  exact Array.getElem?_setIfInBounds_self_of_lt lt

def Errand.Within (n : Nat) (e : Errand α) : Prop := 0 < e.wanted ∧ e.wanted ≤ n

/-- The producer brings in at most `n` elements with its present order. -/
def ProducerPc.Within (n : Nat) : ProducerPc α → Prop
  | idle last => ∀ result, last = some result → result.count ≤ n
  | lengthFirst | lengthProducer _ | lengthAgain _ _ | fault => True
  | write e _ _ done left => e.Within n ∧ done + left ≤ e.wanted ∧ 0 < left
  | loadLimit e | loadIndex e _ | loadMask e _ _ | loadChunk e _ _ _ | loadConsumer e _
  | raiseLimit e _ _ | mark e _ | claim e _ | grow e _ | storeMask e _ _ | writeFirst e _ _
  | link e _ _ | checkRoom e _ _ | storeLimit e _ _ | storeIndex e _ | writeJump e _ =>
    e.Within n

theorem idle_within {result : Thread.ProducerResult} (le : result.count ≤ n) :
    (ProducerPc.idle (some result) : ProducerPc α).Within n := by
  rintro _ same
  cases same
  exact le

theorem finished_within (h : e.Within n) {count : Nat} (le : count ≤ e.wanted) :
    (ProducerPc.finished e count).Within n := by
  cases e with
  | offer v => exact idle_within h.2
  | fill wanted supply => exact idle_within (Nat.le_trans le h.2)

theorem writing_within (h : e.Within n) (cursor : Cursor) (index : Nat) {done left : Nat}
    (le : done + left ≤ e.wanted) : (ProducerPc.writing e cursor index done left).Within n := by
  unfold ProducerPc.writing
  split
  next none => exact finished_within h (by omega)
  next some => exact ⟨h, le, Nat.pos_of_ne_zero some⟩

theorem count_le_wanted (e : Errand α) (d : Draft) :
    (ProducerPc.stop e d - d.index) / 2 ≤ e.wanted := by
  cases e with
  | offer v =>
      show (d.index + 2 - d.index) / 2 ≤ 1
      omega
  | fill wanted supply =>
      have double : Word.double wanted ≤ 2 * wanted := Nat.min_le_left ..
      show (min d.limit (d.index + Word.double wanted) - d.index) / 2 ≤ wanted
      omega

theorem ProducerPc.Steps.within {pc pc' : ProducerPc α} {q q' : Chain α} {vs : List α}
    (steps : pc.Steps spurious q pc' vs q') (h : pc.Within n) : pc'.Within n := by
  cases steps with
  | loadsChunk e limit index mask =>
      unfold ProducerPc.decide
      split <;> exact h
  | loadsConsumer e d =>
      unfold ProducerPc.reconsider ProducerPc.refused
      split
      · exact h
      · split
        · cases e <;> exact idle_within (Nat.zero_le n)
        · exact h
  | raises e d limit same => cases e <;> exact h
  | claims e d succeeds same =>
      refine writing_within h _ _ ?_
      rw [Nat.zero_add]
      exact count_le_wanted e d
  | writes e cursor index done left put =>
      obtain ⟨within, le, pos⟩ := h
      exact writing_within within _ _ (by omega)
  | writesJump e d jump => exact finished_within h h.1
  | rests | loadsLimit | loadsIndex | meetsMark | loadsMask | losesLimit | marks | losesMark
  | losesClaim | grows | storesMask | writesFirst | links | checksRoom | storesLimit
  | storesIndex => exact h
  | lengthBegins | lengthLoads | lengthRepeats | fault => trivial
  | lengthEnds before producer same => exact idle_within (Nat.zero_le n)

theorem moveProducer_within (h : ∀ pc, m.producers[p]? = some pc → pc.Within n)
    {pc : ProducerPc α} (found : (m.moveProducer p spurious).producers[p]? = some pc) :
    pc.Within n := by
  obtain ⟨pc', producers, steps⟩ := moveProducer_producers m p spurious
  rw [producers, Array.getElem?_setIfInBounds_self] at found
  split at found
  next lt =>
      obtain rfl := Option.some.inj found
      rcases steps _ (Array.getElem?_eq_getElem lt) with ⟨vs, q', steps⟩ | rfl
      · exact steps.within (h _ (Array.getElem?_eq_getElem lt))
      · trivial
  next => cases found

/-- What the last order of producer `p` has brought in, as long as it has no other. -/
def brought (m : ChainMachine α) (p : Nat) : Nat :=
  m.producers[p]?.elim 0 fun
    | .idle (some result) => result.count
    | _ => 0

theorem brought_congr {m' : ChainMachine α} (same : m'.producers[p]? = m.producers[p]?) :
    m'.brought p = m.brought p := by
  rw [brought, brought, same]

/-- A producer that is at work brings in what it is found with when it is done. -/
theorem brought_gain (spurious : Bool) (busy : ∀ last, m.producers[p]? ≠ some (.idle last)) :
    m.brought p = 0 ∧ (m.moveProducer p spurious).brought p = Campaign.gain m p spurious := by
  rw [brought, brought, Campaign.gain]
  cases found : m.producers[p]? with
  | none => simp only [moveProducer_none found, found, Option.elim_none, and_self]
  | some pc =>
      cases pc with
      | idle last => exact absurd found (busy last)
      | _ =>
          refine ⟨rfl, ?_⟩
          cases (m.moveProducer p spurious).producers[p]? with
          | none => rfl
          | some pc' =>
              cases pc' with
              | idle last => cases last <;> rfl
              | _ => rfl

end Handoff.ChainMachine
