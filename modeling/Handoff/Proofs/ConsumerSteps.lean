import Handoff.Proofs.ChainMoves
import Handoff.Proofs.ChainRegister

/-! What the consumer knows at each of its steps, and that every step succeeds. No
producer writes to the slot that the consumer looks at once it is not empty, and a jump
is written only when the chunk behind it holds its first element. -/
namespace Handoff.ChainMachine

open Register ConsumerPc

variable {α : Type}

/-- The consumer is at `index` and has published all that it took. -/
structure Resting (g : Register α) (index : Nat) : Prop where
  index : index = 2 * g.taken
  taken : g.taken = g.consumed

/-- The next element is written in the consumer's own chunk. -/
structure Ready (g : Register α) (index : Nat) : Prop extends Resting g index where
  settled : g.Settled
  written : g.written g.taken = true

/-- The next element is behind the jump of the consumer's chunk. -/
structure Blocked (g : Register α) (index : Nat) : Prop extends Resting g index where
  link : g.links[g.head]? = some g.consumed
  jumped : g.jumped g.head = true

/-- What the consumer knows. -/
def ConsumerPc.Knows (g : Register α) : ConsumerPc α → Prop
  | idle _ | loadIndex _ | lengthFirst | lengthProducer _ | lengthAgain _ _ => g.taken = g.consumed
  | readSlot _ index | loadProducer _ index | spin _ index => Resting g index
  | loadNext _ index => Blocked g index
  | leave _ index next => Blocked g index ∧ next = g.head + 1
  | readFirst _ index | take _ index | showHead _ index => Ready g index
  | storeIndex _ index _ => index + 2 = 2 * g.taken
  | fault => False

variable {g g' : Register α} {q : Chain α} {t : Task} {index : Nat}

theorem Resting.fed (h : Resting g index) (feeds : Feeds g g') : Resting g' index :=
  ⟨by rw [feeds.taken, h.index], by rw [feeds.taken, feeds.consumed, h.taken]⟩

theorem Ready.fed (h : Ready g index) (feeds : Feeds g g') : Ready g' index where
  toResting := h.toResting.fed feeds
  settled := feeds.settled h.written h.settled
  written := by
    rw [feeds.taken]
    exact feeds.written _ h.written

theorem Blocked.fed (h : Blocked g index) (feeds : Feeds g g') : Blocked g' index where
  toResting := h.toResting.fed feeds
  link := by
    obtain ⟨new, eq, -⟩ := feeds.links
    rw [eq, feeds.head, feeds.consumed,
      List.getElem?_append_left (List.getElem?_eq_some_iff.mp h.link).1, h.link]
  jumped := by
    rw [feeds.head]
    exact feeds.jumped _ h.jumped

theorem ConsumerPc.Knows.fed {pc : ConsumerPc α} (h : pc.Knows g) (feeds : Feeds g g') :
    pc.Knows g' := by
  cases pc with
  | idle | loadIndex | lengthFirst | lengthProducer | lengthAgain =>
      exact (feeds.taken.trans h).trans feeds.consumed.symm
  | readSlot | loadProducer | spin => exact Resting.fed h feeds
  | loadNext => exact Blocked.fed h feeds
  | leave => exact ⟨h.1.fed feeds, by rw [feeds.head, h.2]⟩
  | readFirst | take | showHead => exact Ready.fed h feeds
  | storeIndex => exact h.trans (congrArg (2 * ·) feeds.taken.symm)
  | fault => exact h

/-- A step of the consumer from `pc` that takes `v?`. -/
structure ConsumerStep (g : Register α) (q : Chain α) (pc : ConsumerPc α) (v? : Option α)
    (q' : Chain α) (g' : Register α) : Prop where
  progress : Progress g g'
  records : q'.Records g'
  knows : pc.Knows g'
  taken : (g.claims.take g'.taken).map Prod.snd =
    (g.claims.take g.taken).map Prod.snd ++ v?.toList
  limit : q'.limit = q.limit

def ConsumerGoesOn (g : Register α) (q : Chain α) (pc : ConsumerPc α) : Prop :=
  ∃ pc' v? q' g', pc.Steps q pc' v? q' ∧ ConsumerStep g q pc' v? q' g'

theorem ConsumerStep.read {pc : ConsumerPc α} (records : q.Records g) (knows : pc.Knows g) :
    ConsumerStep g q pc none q g where
  progress := .stay
  records := records
  knows := knows
  taken := (List.append_nil _).symm
  limit := rfl

theorem exists_own (valid : g.Valid) {i : Nat} (written : g.written i = true) :
    ∃ p v, g.claims[i]? = some (p, v) :=
  have lt := valid.lt_length i written
  ⟨g.claims[i].1, g.claims[i].2, List.getElem?_eq_getElem lt⟩

theorem content_ready (valid : g.Valid) (ready : Ready g index) :
    ∃ p v, g.claims[g.taken]? = some (p, v) ∧ g.content g.head g.taken = .value v := by
  obtain ⟨p, v, own⟩ := exists_own valid ready.written
  refine ⟨p, v, own, ?_⟩
  rw [content_of_home ready.settled, cell_of_written ready.written own, Slot.ofCell_some]

theorem content_cases (valid : g.Valid) (resting : Resting g index) :
    g.content g.head g.taken = .empty ∨
      (∃ v, g.content g.head g.taken = .value v ∧ Ready g index) ∨
      (g.content g.head g.taken = .jump ∧ Blocked g index) := by
  by_cases link : g.links[g.head]? = some g.taken
  · cases jumped : g.jumped g.head with
    | false =>
        refine .inl ?_
        simp only [content_link link, jumped, Bool.false_eq_true, if_false]
    | true =>
        refine .inr (.inr ⟨?_, resting, resting.taken ▸ link, jumped⟩)
        simp only [content_link link, jumped, if_true]
  · have settled : g.Settled := fun r hr =>
      Nat.lt_of_le_of_ne (valid.head_next r hr) fun same => link (same ▸ hr)
    cases written : g.written g.taken with
    | false =>
        refine .inl ?_
        rw [content_of_home settled, cell_of_unwritten written, Slot.ofCell_none]
    | true =>
        have ready : Ready g index := ⟨resting, settled, written⟩
        obtain ⟨-, v, -, content⟩ := content_ready valid ready
        exact .inr (.inl ⟨v, content, ready⟩)

theorem head_chunk (records : q.Records g) : q.head.chunk = g.head :=
  congrArg Cursor.chunk records.head

theorem head_position (valid : g.Valid) (records : q.Records g) (eq : index = 2 * g.taken) :
    Index.position index q.head.mask = g.taken % g.size.chunkSize := by
  rw [records.head, eq]
  exact Chain.Records.position_eq valid _

theorem readHead_ok (valid : g.Valid) (records : q.Records g) (eq : index = 2 * g.taken) :
    readHead index q = .ok (g.content g.head g.taken) q := by
  obtain ⟨ch, hch⟩ := records.head_live valid
  have slot := Chain.Records.head_slot valid hch
  rw [readHead, Act.bind_view, head_chunk records, head_position valid records eq]
  exact Chain.onStore_ok (Arena.read_ok hch.found slot)

theorem knows_found (ready : Ready g index) : (found (α := α) t index).Knows g := by
  unfold found
  split
  · exact ready
  · exact ready

theorem ConsumerPc.knows_seen (valid : g.Valid) (resting : Resting g index)
    {empty : ConsumerPc α} (knows : empty.Knows g) :
    (seen t index empty (g.content g.head g.taken)).Knows g := by
  rcases content_cases valid resting with content | ⟨v, content, ready⟩ | ⟨content, blocked⟩
  · rw [content]
    exact knows
  · rw [content]
    exact knows_found ready
  · rw [content]
    exact blocked

theorem knows_nothing (taken : g.taken = g.consumed) : (nothing t : ConsumerPc α).Knows g := by
  cases t <;> exact taken

theorem knows_took (taken : g.taken = g.consumed) (v : α) : (took v t).Knows g := by
  unfold took
  split <;> exact taken

theorem ConsumerPc.readSlot_step (valid : g.Valid) (records : q.Records g)
    (resting : Resting g index) :
    ConsumerGoesOn g q (readSlot t index) := by
  refine ⟨_, none, q, g, .readsSlot t index (readHead_ok valid records resting.index),
    .read records (knows_seen valid resting ?_)⟩
  split
  · exact resting
  · exact knows_nothing resting.taken

theorem ConsumerPc.loadProducer_step (records : q.Records g) (resting : Resting g index) :
    ConsumerGoesOn g q (loadProducer t index) := by
  by_cases same : index = q.producerIndex
  · exact ⟨_, none, q, g, .givesUp t index same, .read records (knows_nothing resting.taken)⟩
  · exact ⟨_, none, q, g, .loadsProducer t index same, .read records resting⟩

theorem ConsumerPc.loadNext_step (valid : g.Valid) (records : q.Records g)
    (blocked : Blocked g index) :
    ConsumerGoesOn g q (loadNext t index) := by
  obtain ⟨ch, hch⟩ := records.head_live valid
  have joined : g.row.joined g.head = true := valid.jumped _ blocked.jumped
  have next : ch.next = some (g.head + 1) := by rw [hch.next, if_pos joined]
  have found := Chain.onStore_ok (q := q) (Arena.inspect_ok hch.found Chunk.next)
  rw [next, ← head_chunk records] at found
  exact ⟨_, none, q, g, .loadsNext t index found,
    .read records ⟨blocked, by rw [head_chunk records]⟩⟩

theorem values_eq_nil (valid : g.Valid) (blocked : Blocked g index) {ch : Chunk α}
    (shown : ch.Shows g.size.chunkSize (g.base g.head) (g.content g.head)) : ch.values = [] := by
  -- The chunk holds nothing but the jump.
  apply shown.values_eq_nil
  intro i lo _
  have past : ¬ i < g.consumed := by
    rw [valid.base_head, blocked.taken] at lo
    exact Nat.not_lt_of_le lo
  unfold content
  rw [blocked.link]
  simp only [past, if_false]
  split <;> rfl

theorem ConsumerPc.leave_step (valid : g.Valid) (records : q.Records g)
    (blocked : Blocked g index) :
    ConsumerGoesOn g q (leave t index (g.head + 1)) := by
  have lt := (List.getElem?_eq_some_iff.mp blocked.link).1
  obtain ⟨ch, hch⟩ := records.head_live valid
  obtain ⟨after, hafter⟩ := records.live (Nat.le_succ g.head) lt
  have found : (q.store.remove g.head).chunk? (g.head + 1) = some after := by
    rw [Arena.chunk?_remove, if_neg (Nat.ne_of_lt (Nat.lt_succ_self _))]
    exact hafter.found
  have size : after.size = g.size.chunkSize := hafter.shown.size
  have freed : Chain.onStore (Arena.destruct q.head.chunk) q =
      .ok [] { q with store := q.store.remove g.head } := by
    rw [head_chunk records, ← values_eq_nil valid blocked hch.shown]
    exact Chain.onStore_ok (Arena.destruct_ok hch.found)
  have measured := Chain.onStore_ok (q := { q with store := q.store.remove g.head })
    (Arena.inspect_ok found Chunk.size)
  rw [size] at measured
  refine ⟨_, none, _, g.leave, .leaves t index (g.head + 1) freed measured,
    .leave blocked.link blocked.taken blocked.jumped, records.leave blocked.link, ?_,
    (List.append_nil _).symm, rfl⟩
  refine ⟨⟨blocked.index, blocked.taken⟩, fun r hr => ?_, ?_⟩
  · have later := valid.start_lt_link hr
    rw [Register.leave, Links.start_succ blocked.link, ← blocked.taken] at later
    exact later
  · obtain ⟨r, link, written⟩ := valid.joined _ (valid.jumped _ blocked.jumped)
    obtain rfl := Option.some.inj (link.symm.trans blocked.link)
    exact blocked.taken.symm ▸ written

theorem ConsumerPc.readFirst_step (valid : g.Valid) (records : q.Records g)
    (ready : Ready g index) :
    ConsumerGoesOn g q (readFirst t index) := by
  obtain ⟨p, v, own, content⟩ := content_ready valid ready
  have read := readHead_ok valid records ready.index
  rw [content] at read
  exact ⟨_, none, q, g, .readsFirst t index read, .read records (knows_found ready)⟩

theorem ConsumerPc.take_step (valid : g.Valid) (records : q.Records g) (ready : Ready g index) :
    ConsumerGoesOn g q (take t index) := by
  obtain ⟨p, v, own, content⟩ := content_ready valid ready
  obtain ⟨ch, hch⟩ := records.head_live valid
  have slot := Chain.Records.head_slot valid hch
  rw [content] at slot
  have taken := Chain.onStore_ok (q := q) (Arena.take_ok hch.found slot)
  rw [← head_position valid records ready.index, ← head_chunk records] at taken
  have steps := Steps.takes t index taken
  rw [head_position valid records ready.index, head_chunk records] at steps
  refine ⟨_, some v, _, g.take, steps, .take ready.settled ready.written,
    records.take valid ready.settled, congrArg (· + 2) ready.index, ?_, rfl⟩
  rw [Register.take, List.take_add_one, own, List.map_append]
  rfl

theorem ConsumerPc.showHead_step (valid : g.Valid) (records : q.Records g) (ready : Ready g index) :
    ConsumerGoesOn g q (showHead t index) := by
  obtain ⟨p, v, own, content⟩ := content_ready valid ready
  obtain ⟨ch, hch⟩ := records.head_live valid
  have slot := Chain.Records.head_slot valid hch
  rw [content] at slot
  have got := Chain.onStore_ok (q := q) (Arena.get_ok hch.found slot)
  rw [← head_position valid records ready.index, ← head_chunk records] at got
  exact ⟨_, none, q, g, .shows t index got, .read records ready.taken⟩

theorem ConsumerPc.storeIndex_step (valid : g.Valid) (records : q.Records g) {v : α}
    (eq : index + 2 = 2 * g.taken) :
    ConsumerGoesOn g q (storeIndex t index v) :=
  ⟨_, none, _, g.pass, .storesIndex t index v, .pass, records.pass valid eq, knows_took rfl v,
    (List.append_nil _).symm, rfl⟩

theorem consumer_goes_on (valid : g.Valid) (records : q.Records g) {pc : ConsumerPc α}
    (knows : pc.Knows g) : ConsumerGoesOn g q pc := by
  cases pc with
  | idle last => exact ⟨_, none, q, g, .rests last, .read records knows⟩
  | loadIndex t =>
      have resting : Resting g q.consumerIndex :=
        ⟨records.consumer.trans (congrArg (2 * ·) knows.symm), knows⟩
      exact ⟨_, none, q, g, .loadsIndex t, .read records resting⟩
  | readSlot t index => exact readSlot_step valid records knows
  | loadProducer t index => exact loadProducer_step records knows
  | spin t index =>
      exact ⟨_, none, q, g, .spins t index (readHead_ok valid records knows.index),
        .read records (knows_seen valid knows knows)⟩
  | loadNext t index => exact loadNext_step valid records knows
  | leave t index next =>
      obtain ⟨blocked, rfl⟩ := knows
      exact leave_step valid records blocked
  | readFirst t index => exact readFirst_step valid records knows
  | take t index => exact take_step valid records knows
  | showHead t index => exact showHead_step valid records knows
  | storeIndex t index v => exact storeIndex_step valid records knows
  | lengthFirst => exact ⟨_, none, q, g, .lengthBegins, .read records knows⟩
  | lengthProducer before => exact ⟨_, none, q, g, .lengthLoads before, .read records knows⟩
  | lengthAgain before producer =>
      by_cases same : before = q.consumerIndex
      · exact ⟨_, none, q, g, .lengthEnds before producer same, .read records knows⟩
      · exact ⟨_, none, q, g, .lengthRepeats before producer same, .read records knows⟩
  | fault => exact knows.elim

end Handoff.ChainMachine
