import Handoff.ChainMachine.Basic
import Handoff.Proofs.Agreement

/-! What one step of a thread of a chain can do: from which place to which it leads, under
which conditions, and what it changes. All else that is said of single steps follows from
this. -/
namespace Handoff.ChainMachine

variable {α : Type} {q : Chain α}

open ProducerPc in
/-- A step of a producer from one place to another, with the elements that it claims for and
the chain that it leaves of `q`. Where a store or a compare-exchange of its own fails, the
producer starts over. -/
inductive ProducerPc.Steps (spurious : Bool) (q : Chain α) :
    ProducerPc α → ProducerPc α → List α → Chain α → Prop
  | rests (last : Option Thread.ProducerResult) : Steps spurious q (idle last) (idle last) [] q
  | loadsLimit (e : Errand α) : Steps spurious q (loadLimit e) (loadIndex e q.limit) [] q
  | loadsIndex (e : Errand α) (limit : Nat) (clear : Index.linking q.producerIndex = false) :
      Steps spurious q (loadIndex e limit) (loadMask e limit q.producerIndex) [] q
  | meetsMark (e : Errand α) (limit : Nat) (marked : Index.linking q.producerIndex = true) :
      Steps spurious q (loadIndex e limit) (loadLimit e) [] q
  | loadsMask (e : Errand α) (limit index : Nat) :
      Steps spurious q (loadMask e limit index) (loadChunk e limit index q.tail.mask) [] q
  | loadsChunk (e : Errand α) (limit index mask : Nat) :
      Steps spurious q (loadChunk e limit index mask)
        (decide e ⟨limit, index, ⟨q.tail.chunk, mask⟩⟩) [] q
  | loadsConsumer (e : Errand α) (d : Draft) :
      Steps spurious q (loadConsumer e d) (reconsider e d q.bound q.consumerIndex) [] q
  | raises (e : Errand α) (d : Draft) (limit : Nat) (same : q.limit = d.limit) :
      Steps spurious q (raiseLimit e d limit) (raised e d) [] { q with limit := limit }
  | losesLimit (e : Errand α) (d : Draft) (limit : Nat) (moved : q.limit ≠ d.limit) :
      Steps spurious q (raiseLimit e d limit) (loadLimit e) [] q
  | marks (e : Errand α) (d : Draft) (same : q.producerIndex = d.index) :
      Steps spurious q (mark e d) (grow e d) [e.element 0]
        { q with producerIndex := d.index + 1 }
  | losesMark (e : Errand α) (d : Draft) (moved : q.producerIndex ≠ d.index) :
      Steps spurious q (mark e d) (loadLimit e) [] q
  | claims (e : Errand α) (d : Draft) (succeeds : spurious = false)
      (same : q.producerIndex = d.index) :
      Steps spurious q (claim e d)
        (writing e d.cursor d.index 0 ((stop e d - d.index) / 2))
        (e.elements ((stop e d - d.index) / 2)) { q with producerIndex := stop e d }
  | losesClaim (e : Errand α) (d : Draft) (fails : spurious = true ∨ q.producerIndex ≠ d.index) :
      Steps spurious q (claim e d) (loadLimit e) [] q
  | writes (e : Errand α) (cursor : Cursor) (index done left : Nat) {q' : Chain α}
      (put : Chain.put cursor index (e.element done) q = .ok () q') :
      Steps spurious q (write e cursor index done left)
        (writing e cursor (index + 2) (done + 1) (left - 1)) [] q'
  | grows (e : Errand α) (d : Draft) {next : Nat} {q' : Chain α}
      (push : Chain.onStore (Arena.push (Index.sizeOfMask d.cursor.mask)) q = .ok next q') :
      Steps spurious q (grow e d)
        (storeMask e d ⟨next, Index.maskOf (Index.sizeOfMask d.cursor.mask)⟩) []
        { q' with tail := { q'.tail with chunk := next } }
  | storesMask (e : Errand α) (d : Draft) (next : Cursor) :
      Steps spurious q (storeMask e d next) (writeFirst e d next) []
        { q with tail := { q.tail with mask := next.mask } }
  | writesFirst (e : Errand α) (d : Draft) (next : Cursor) {q' : Chain α}
      (put : Chain.put next d.index (e.element 0) q = .ok () q') :
      Steps spurious q (writeFirst e d next) (link e d next) [] q'
  | links (e : Errand α) (d : Draft) (next : Cursor) {q' : Chain α}
      (linked : Chain.onStore (Arena.link d.cursor.chunk next.chunk) q = .ok () q') :
      Steps spurious q (link e d next) (checkRoom e d next) [] q'
  | checksRoom (e : Errand α) (d : Draft) (next : Cursor) (room : q.freeAt d.index ≠ 0) :
      Steps spurious q (checkRoom e d next)
        (storeLimit e d (d.index + min next.mask (q.freeAt d.index))) []
        { q with journal :=
          q.journal.push (.chunkLinked (d.index >>> 1) (Index.sizeOfMask next.mask)) }
  | storesLimit (e : Errand α) (d : Draft) (limit : Nat) :
      Steps spurious q (storeLimit e d limit) (storeIndex e d) [] { q with limit := limit }
  | storesIndex (e : Errand α) (d : Draft) :
      Steps spurious q (storeIndex e d) (writeJump e d) []
        { q with producerIndex := d.index + 2 }
  | writesJump (e : Errand α) (d : Draft) {q' : Chain α}
      (jump : Chain.onStore
        (Arena.markJump d.cursor.chunk (Index.position d.index d.cursor.mask)) q = .ok () q') :
      Steps spurious q (writeJump e d) (finished e 1) [] q'
  | lengthBegins : Steps spurious q lengthFirst (lengthProducer q.consumerIndex) [] q
  | lengthLoads (before : Nat) :
      Steps spurious q (lengthProducer before) (lengthAgain before q.producerIndex) [] q
  | lengthEnds (before producer : Nat) (same : before = q.consumerIndex) :
      Steps spurious q (lengthAgain before producer)
        (idle (some (.length (Index.distance producer before >>> 1)))) [] q
  | lengthRepeats (before producer : Nat) (moved : before ≠ q.consumerIndex) :
      Steps spurious q (lengthAgain before producer) (lengthProducer q.consumerIndex) [] q
  | fault : Steps spurious q fault fault [] q

variable {q' : Chain α}

theorem ProducerPc.Steps.of_ok {spurious : Bool} {pc pc' : ProducerPc α} {vs : List α}
    (ok : stepProducer spurious pc q = .ok (pc', vs) q') : pc.Steps spurious q pc' vs q' := by
  cases pc with
  | idle last =>
      cases ok
      exact .rests last
  | loadLimit e =>
      cases ok
      exact .loadsLimit e
  | loadIndex e limit =>
      cases ok
      split
      next marked => exact .meetsMark e limit marked
      next clear => exact .loadsIndex e limit (Bool.eq_false_iff.mpr clear)
  | loadMask e limit index =>
      cases ok
      exact .loadsMask e limit index
  | loadChunk e limit index mask =>
      cases ok
      exact .loadsChunk e limit index mask
  | loadConsumer e d =>
      cases ok
      exact .loadsConsumer e d
  | raiseLimit e d limit =>
      rw [stepProducer, Act.bind_view] at ok
      split at ok
      next same =>
          cases ok
          exact .raises e d limit same
      next moved =>
          cases ok
          exact .losesLimit e d limit moved
  | mark e d =>
      rw [stepProducer, Act.bind_view] at ok
      split at ok
      next same =>
          cases ok
          exact .marks e d same
      next moved =>
          cases ok
          exact .losesMark e d moved
  | claim e d =>
      rw [stepProducer, Act.bind_view] at ok
      split at ok
      next done =>
          cases ok
          exact .claims e d (Bool.not_eq_true' _ ▸ done.1) done.2
      next fails =>
          cases ok
          refine .losesClaim e d ?_
          cases spurious with
          | true => exact .inl rfl
          | false => exact .inr fun same => fails ⟨rfl, same⟩
  | write e cursor index done left =>
      rw [stepProducer] at ok
      obtain ⟨_, q₁, put, ok⟩ := Act.of_bind_ok ok
      cases ok
      exact .writes e cursor index done left put
  | grow e d =>
      rw [stepProducer] at ok
      obtain ⟨next, q₁, push, ok⟩ := Act.of_bind_ok ok
      cases ok
      exact .grows e d push
  | storeMask e d next =>
      cases ok
      exact .storesMask e d next
  | writeFirst e d next =>
      rw [stepProducer] at ok
      obtain ⟨_, q₁, put, ok⟩ := Act.of_bind_ok ok
      cases ok
      exact .writesFirst e d next put
  | link e d next =>
      rw [stepProducer] at ok
      obtain ⟨_, q₁, linked, ok⟩ := Act.of_bind_ok ok
      cases ok
      exact .links e d next linked
  | checkRoom e d next =>
      rw [stepProducer, Act.bind_view] at ok
      split at ok
      next => cases ok
      next room =>
          cases ok
          exact .checksRoom e d next room
  | storeLimit e d limit =>
      cases ok
      exact .storesLimit e d limit
  | storeIndex e d =>
      cases ok
      exact .storesIndex e d
  | writeJump e d =>
      rw [stepProducer] at ok
      obtain ⟨_, q₁, jump, ok⟩ := Act.of_bind_ok ok
      cases ok
      exact .writesJump e d jump
  | lengthFirst =>
      cases ok
      exact .lengthBegins
  | lengthProducer before =>
      cases ok
      exact .lengthLoads before
  | lengthAgain before producer =>
      rw [stepProducer, Act.bind_view] at ok
      split at ok
      next same =>
          cases ok
          rw [← same]
          exact .lengthEnds before producer same
      next moved =>
          cases ok
          exact .lengthRepeats before producer moved
  | fault =>
      cases ok
      exact .fault

theorem ProducerPc.Steps.run {spurious : Bool} {pc pc' : ProducerPc α} {vs : List α}
    (steps : pc.Steps spurious q pc' vs q') : stepProducer spurious pc q = .ok (pc', vs) q' := by
  cases steps with
  | loadsIndex e limit clear =>
      rw [stepProducer, Act.bind_view, clear]
      rfl
  | meetsMark e limit marked =>
      rw [stepProducer, Act.bind_view, marked]
      rfl
  | raises e d limit same =>
      rw [stepProducer, Act.bind_view, if_pos same]
      rfl
  | losesLimit e d limit moved =>
      rw [stepProducer, Act.bind_view, if_neg moved]
      rfl
  | marks e d same =>
      rw [stepProducer, Act.bind_view, if_pos same]
      rfl
  | losesMark e d moved =>
      rw [stepProducer, Act.bind_view, if_neg moved]
      rfl
  | claims e d succeeds same =>
      subst succeeds
      rw [stepProducer, Act.bind_view, if_pos ⟨rfl, same⟩]
      rfl
  | losesClaim e d fails =>
      have lost : ¬((!spurious) = true ∧ q.producerIndex = d.index) := by
        rintro ⟨succeeds, same⟩
        rcases fails with rfl | moved
        · cases succeeds
        · exact moved same
      rw [stepProducer, Act.bind_view, if_neg lost]
      rfl
  | writes e cursor index done left put => exact Act.bind_ok put _
  | grows e d push => exact Act.bind_ok push _
  | writesFirst e d next put => exact Act.bind_ok put _
  | links e d next linked => exact Act.bind_ok linked _
  | checksRoom e d next room =>
      rw [stepProducer, Act.bind_view, if_neg room]
      rfl
  | writesJump e d jump => exact Act.bind_ok jump _
  | lengthEnds before producer same =>
      rw [stepProducer, Act.bind_view, if_pos same, same]
      rfl
  | lengthRepeats before producer moved =>
      rw [stepProducer, Act.bind_view, if_neg moved]
      rfl
  | rests | loadsLimit | loadsMask | loadsChunk | loadsConsumer | storesMask | storesLimit
  | storesIndex | lengthBegins | lengthLoads | fault => rfl

open ConsumerPc in
/-- A step of the consumer from one place to another, with the element that it takes and the
chain that it leaves of `q`. -/
inductive ConsumerPc.Steps (q : Chain α) :
    ConsumerPc α → ConsumerPc α → Option α → Chain α → Prop
  | rests (last : Option (Thread.ConsumerResult α)) : Steps q (idle last) (idle last) none q
  | loadsIndex (t : Task) : Steps q (loadIndex t) (readSlot t q.consumerIndex) none q
  | readsSlot (t : Task) (index : Nat) {slot : Slot α} {q' : Chain α}
      (read : readHead index q = .ok slot q') :
      Steps q (readSlot t index)
        (seen t index (if t.waits then loadProducer t index else nothing t) slot) none q'
  | loadsProducer (t : Task) (index : Nat) (ahead : index ≠ q.producerIndex) :
      Steps q (loadProducer t index) (spin t index) none q
  | givesUp (t : Task) (index : Nat) (same : index = q.producerIndex) :
      Steps q (loadProducer t index) (nothing t) none q
  | spins (t : Task) (index : Nat) {slot : Slot α} {q' : Chain α}
      (read : readHead index q = .ok slot q') :
      Steps q (spin t index) (seen t index (spin t index) slot) none q'
  | loadsNext (t : Task) (index : Nat) {next : Nat} {q' : Chain α}
      (found : Chain.onStore (Arena.inspect q.head.chunk (·.next)) q = .ok (some next) q') :
      Steps q (loadNext t index) (leave t index next) none q'
  | leaves (t : Task) (index next : Nat) {lost : List α} {size : Nat} {q₁ q' : Chain α}
      (freed : Chain.onStore (Arena.destruct q.head.chunk) q = .ok lost q₁)
      (found : Chain.onStore (Arena.inspect next (·.size)) q₁ = .ok size q') :
      Steps q (leave t index next) (readFirst t index) none
        { q' with head := ⟨next, Index.maskOf size⟩, discarded := q'.discarded ++ lost }
  | readsFirst (t : Task) (index : Nat) {v : α} {q' : Chain α}
      (read : readHead index q = .ok (.value v) q') :
      Steps q (readFirst t index) (found t index) none q'
  | takes (t : Task) (index : Nat) {v : α} {q' : Chain α}
      (taken : Chain.onStore
        (Arena.take q.head.chunk (Index.position index q.head.mask)) q = .ok v q') :
      Steps q (take t index) (storeIndex t index v) (some v) q'
  | shows (t : Task) (index : Nat) {v : α} {q' : Chain α}
      (got : Chain.onStore
        (Arena.get q.head.chunk (Index.position index q.head.mask)) q = .ok v q') :
      Steps q (showHead t index) (idle (some (.element (some v)))) none q'
  | storesIndex (t : Task) (index : Nat) (v : α) :
      Steps q (storeIndex t index v) (took v t) none { q with consumerIndex := index + 2 }
  | lengthBegins : Steps q lengthFirst (lengthProducer q.consumerIndex) none q
  | lengthLoads (before : Nat) :
      Steps q (lengthProducer before) (lengthAgain before q.producerIndex) none q
  | lengthEnds (before producer : Nat) (same : before = q.consumerIndex) :
      Steps q (lengthAgain before producer)
        (idle (some (.length (Index.distance producer before >>> 1)))) none q
  | lengthRepeats (before producer : Nat) (moved : before ≠ q.consumerIndex) :
      Steps q (lengthAgain before producer) (lengthProducer q.consumerIndex) none q
  | fault : Steps q fault fault none q

theorem ConsumerPc.Steps.of_ok {pc pc' : ConsumerPc α} {v? : Option α}
    (ok : stepConsumer pc q = .ok (pc', v?) q') : pc.Steps q pc' v? q' := by
  cases pc with
  | idle last =>
      cases ok
      exact .rests last
  | loadIndex t =>
      cases ok
      exact .loadsIndex t
  | readSlot t index =>
      rw [stepConsumer] at ok
      obtain ⟨slot, q₁, read, ok⟩ := Act.of_bind_ok ok
      cases ok
      exact .readsSlot t index read
  | loadProducer t index =>
      cases ok
      split
      next same => exact .givesUp t index same
      next ahead => exact .loadsProducer t index ahead
  | spin t index =>
      rw [stepConsumer] at ok
      obtain ⟨slot, q₁, read, ok⟩ := Act.of_bind_ok ok
      cases ok
      exact .spins t index read
  | loadNext t index =>
      rw [stepConsumer, Act.bind_view] at ok
      obtain ⟨next, q₁, found, ok⟩ := Act.of_bind_ok ok
      cases next with
      | none => cases ok
      | some next =>
          cases ok
          exact .loadsNext t index found
  | leave t index next =>
      rw [stepConsumer, Act.bind_view] at ok
      obtain ⟨lost, q₁, freed, ok⟩ := Act.of_bind_ok ok
      obtain ⟨size, q₂, found, ok⟩ := Act.of_bind_ok ok
      cases ok
      exact .leaves t index next freed found
  | readFirst t index =>
      rw [stepConsumer] at ok
      obtain ⟨slot, q₁, read, ok⟩ := Act.of_bind_ok ok
      cases slot with
      | empty | jump => cases ok
      | value v =>
          cases ok
          exact .readsFirst t index read
  | take t index =>
      rw [stepConsumer, Act.bind_view] at ok
      obtain ⟨v, q₁, taken, ok⟩ := Act.of_bind_ok ok
      cases ok
      exact .takes t index taken
  | showHead t index =>
      rw [stepConsumer, Act.bind_view] at ok
      obtain ⟨v, q₁, got, ok⟩ := Act.of_bind_ok ok
      cases ok
      exact .shows t index got
  | storeIndex t index v =>
      cases ok
      exact .storesIndex t index v
  | lengthFirst =>
      cases ok
      exact .lengthBegins
  | lengthProducer before =>
      cases ok
      exact .lengthLoads before
  | lengthAgain before producer =>
      rw [stepConsumer, Act.bind_view] at ok
      split at ok
      next same =>
          cases ok
          rw [← same]
          exact .lengthEnds before producer same
      next moved =>
          cases ok
          exact .lengthRepeats before producer moved
  | fault =>
      cases ok
      exact .fault

theorem ConsumerPc.Steps.run {pc pc' : ConsumerPc α} {v? : Option α}
    (steps : pc.Steps q pc' v? q') : stepConsumer pc q = .ok (pc', v?) q' := by
  cases steps with
  | readsSlot t index read => exact Act.bind_ok read _
  | loadsProducer t index ahead =>
      rw [stepConsumer, Act.bind_view, if_neg ahead]
      rfl
  | givesUp t index same =>
      rw [stepConsumer, Act.bind_view, if_pos same]
      rfl
  | spins t index read => exact Act.bind_ok read _
  | loadsNext t index found =>
      rw [stepConsumer, Act.bind_view, Act.bind_ok found]
      rfl
  | leaves t index next freed found =>
      rw [stepConsumer, Act.bind_view, Act.bind_ok freed, Act.bind_ok found]
      rfl
  | readsFirst t index read => exact Act.bind_ok read _
  | takes t index taken => exact Act.bind_ok taken _
  | shows t index got => exact Act.bind_ok got _
  | lengthEnds before producer same =>
      rw [stepConsumer, Act.bind_view, if_pos same, same]
      rfl
  | lengthRepeats before producer moved =>
      rw [stepConsumer, Act.bind_view, if_neg moved]
      rfl
  | rests | loadsIndex | storesIndex | lengthBegins | lengthLoads | fault => rfl

end Handoff.ChainMachine
