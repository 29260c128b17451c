import Handoff.Proofs.ChainMoves
import Handoff.Proofs.ProducerKnowledge

/-! Every step of a producer succeeds, makes one change to the register and leaves the
producer with what it knows at its next step. -/
namespace Handoff.ChainMachine

open Register ProducerPc

variable {α : Type}

def ProducerPc.storesLimit : ProducerPc α → Bool
  | storeLimit _ _ _ => true
  | _ => false

def ProducerPc.begins? : ProducerPc α → Option Nat
  | grow _ d => some d.index
  | _ => none

/-- A step of producer `p` from `pc` that claims for `vs`. -/
structure ProducerStep (g : Register α) (q : Chain α) (p : Nat) (pc pc' : ProducerPc α)
    (vs : List α) (q' : Chain α) (g' : Register α) : Prop where
  change : Change p g g'
  records : q'.Records g'
  knows : pc'.Knows g' p
  claims : g'.claims = g.claims ++ vs.map (p, ·)
  limit : pc.storesLimit = false → q.limit ≤ q'.limit
  last : 2 * g'.last = pc.begins?.getD (2 * g.last)

/-- Producer `p` can go on from `pc`, with what it needs to know for its next step. -/
def ProducerGoesOn (spurious : Bool) (g : Register α) (q : Chain α) (p : Nat)
    (pc : ProducerPc α) : Prop :=
  ∃ pc' vs q' g', pc.Steps spurious q pc' vs q' ∧ ProducerStep g q p pc pc' vs q' g'

variable {g : Register α} {q : Chain α} {p m limit index : Nat} {e : Errand α} {d : Draft}
  {spurious : Bool}

theorem ProducerStep.write {pc pc' : ProducerPc α} {q' : Chain α} {g' : Register α}
    (change : Change p g g') (records : q'.Records g') (knows : pc'.Knows g' p)
    (claims : g'.claims = g.claims) (limit : q.limit ≤ q'.limit)
    (last : 2 * g'.last = pc.begins?.getD (2 * g.last)) : ProducerStep g q p pc pc' [] q' g' where
  change := change
  records := records
  knows := knows
  claims := by rw [claims, List.map_nil, List.append_nil]
  limit _ := limit
  last := last

theorem ProducerStep.read {pc pc' : ProducerPc α} (records : q.Records g) (knows : pc'.Knows g p)
    (last : pc.begins? = none) : ProducerStep g q p pc pc' [] q g := by
  apply ProducerStep.write .stay records knows rfl (Nat.le_refl _)
  rw [last, Option.getD_none]

theorem ProducerPc.loadIndex_step (records : q.Records g) (allows : g.Allows limit) :
    ProducerGoesOn spurious g q p (loadIndex e limit) := by
  cases linking : Index.linking q.producerIndex with
  | true => exact ⟨_, [], q, g, .meetsMark e limit linking, .read records trivial rfl⟩
  | false =>
      have even : ∃ i, q.producerIndex = 2 * i := by
        rw [Index.linking_eq, decide_eq_false_iff_not] at linking
        exact ⟨q.producerIndex / 2, by omega⟩
      exact ⟨_, [], q, g, .loadsIndex e limit linking,
        .read records ⟨allows, even, Nat.le_of_eq records.producer⟩ rfl⟩

theorem double_one : Word.double 1 = 2 := rfl

theorem claimable_below (seen : Seen g d.index) (allows : g.Allows d.limit)
    (below : d.index < d.limit) : Claimable g e d d.limit := by
  refine ⟨allows, below, ?_⟩
  cases e with
  | fill wanted supply => rfl
  | offer v =>
      obtain ⟨i, even⟩ := seen.even
      obtain ⟨k, eq, -⟩ := allows
      rw [stop, Errand.wanted, double_one]
      omega

theorem ProducerPc.loadChunk_step (records : q.Records g) {mask : Nat} (allows : g.Allows limit)
    (seen : Seen g index) (eq : mask = Index.maskOf g.size.chunkSize) :
    ProducerGoesOn spurious g q p (loadChunk e limit index mask) := by
  refine ⟨_, [], q, g, .loadsChunk e limit index mask, .read records ?_ rfl⟩
  have drafted : Drafted g ⟨limit, index, ⟨q.tail.chunk, mask⟩⟩ :=
    { toSeen := seen
      mask := eq
      chunk := fun _ => congrArg Cursor.chunk records.tail }
  unfold ProducerPc.decide
  split
  next past => exact ⟨drafted, past⟩
  next below =>
      exact ⟨drafted, limit, claimable_below seen allows (Nat.lt_of_not_le below)⟩

theorem ProducerPc.loadConsumer_step (valid : g.Valid) (records : q.Records g)
    (drafted : Drafted g d) (past : d.limit ≤ d.index) :
    ProducerGoesOn spurious g q p (loadConsumer e d) := by
  have two := valid.fits.two_le
  have lt := valid.fits.lt
  refine ⟨_, [], q, g, .loadsConsumer e d, .read records ?_ rfl⟩
  have mask : d.cursor.mask = 2 * (g.size.chunkSize - 1) :=
    drafted.mask.trans (Index.maskOf_eq _)
  unfold reconsider
  split
  next below =>
      refine ⟨drafted, past, below, g.consumed + (g.size.chunkSize - 1), ?_, ?_⟩
      · rw [records.consumer, mask]
        omega
      · rw [reach]
        omega
  next above =>
      rw [records.consumer, mask] at above
      split
      · cases e <;> trivial
      next free =>
          rw [records.bound, records.consumer, Index.distance] at free
          exact ⟨drafted, by omega, by omega⟩

theorem ProducerPc.raiseLimit_step (records : q.Records g) (drafted : Drafted g d)
    (past : d.limit ≤ d.index) (below : d.index < limit) (allows : g.Allows limit) :
    ProducerGoesOn spurious g q p (raiseLimit e d limit) := by
  by_cases same : q.limit = d.limit
  · have raised : q.limit ≤ limit := same ▸ Nat.le_trans past (Nat.le_of_lt below)
    refine ⟨_, [], _, g, .raises e d limit same,
      .write .stay (records.raise allows) ?_ rfl raised rfl⟩
    cases e with
    | fill wanted supply => trivial
    | offer v =>
        obtain ⟨i, even⟩ := drafted.even
        obtain ⟨k, eq, le⟩ := allows
        refine ⟨drafted, limit, ⟨k, eq, le⟩, below, ?_⟩
        rw [stop, Errand.wanted, double_one]
        omega
  · exact ⟨_, [], q, g, .losesLimit e d limit same, .read records trivial rfl⟩

theorem Drafted.marking (drafted : Drafted g d) (valid : g.Valid) (index : g.index = d.index)
    (even : d.index = 2 * m) (pos : 0 < d.index) : Marking (g.mark p (e.element 0)) p e d m := by
  obtain ⟨unmarked, length⟩ := unmarked_of_even (index.trans even)
  constructor
  case held =>
    refine ⟨rfl, ?_, ?_⟩
    · rw [Register.mark, List.length_append, List.length_singleton, length]
    · rw [Register.mark, ← length, List.getElem?_concat_length]
  case index => exact even
  case cursor => exact drafted.cursor index
  case unwritten =>
    apply Bool.eq_false_iff.mpr
    intro written
    exact Nat.ne_of_lt (valid.lt_length m written) length.symm
  case ordered =>
    rw [← List.cons_append, List.pairwise_append]
    refine ⟨valid.ordered, List.pairwise_singleton _ _, ?_⟩
    intro r hr s hs
    rw [List.mem_singleton.mp hs]
    rcases List.mem_cons.mp hr with rfl | linked
    · omega
    · exact length ▸ valid.linked r linked

theorem ProducerPc.mark_step (valid : g.Valid) (records : q.Records g) (drafted : Drafted g d)
    (pos : 0 < d.index) (room : d.index < 2 * (g.consumed + g.size.capacity)) :
    ProducerGoesOn spurious g q p (mark e d) := by
  by_cases same : q.producerIndex = d.index
  · obtain ⟨i, even⟩ := drafted.even
    have index : g.index = d.index := records.producer.symm.trans same
    obtain ⟨unmarked, length⟩ := unmarked_of_even (index.trans even)
    refine ⟨_, _, _, g.mark p (e.element 0), .marks e d same, ?_⟩
    constructor
    case change => exact .mark unmarked (by omega)
    case records => exact records.mark valid (by omega)
    case knows => exact ⟨i, drafted.marking valid index even pos⟩
    case claims => rfl
    case limit => exact fun _ => Nat.le_refl _
    case last => rfl
  · exact ⟨_, [], q, g, .losesMark e d same, .read records trivial rfl⟩

theorem stop_eq (valid : g.Valid) {i : Nat} (even : d.index = 2 * i)
    (length : g.claims.length = i) (claimable : Claimable g e d limit) :
    ∃ count, ProducerPc.stop e d = 2 * (i + count) ∧ i + count ≤ g.reach := by
  obtain ⟨k, rfl, le⟩ := claimable.allows
  have lt := claimable.lt
  have stop := claimable.stop
  have cons := valid.consumed_le
  have taken := valid.taken_le_length
  have max := valid.fits.le
  have reach : g.reach ≤ g.consumed + g.size.capacity := Nat.min_le_left _ _
  refine ⟨ProducerPc.stop e d / 2 - i, ?_, ?_⟩
  · simp only [Word.double, Word.largest, UInt64.size, Capacity.largest] at stop max
    omega
  · omega

theorem hole_claim (valid : g.Valid) {vs : List α} {k : Nat} {v : α} (hk : vs[k]? = some v) :
    (g.claim p vs).Hole p g.links.length (g.claims.length + k) v where
  own := by
    rw [Register.claim, List.getElem?_append_right (Nat.le_add_right _ _), Nat.add_sub_cancel_left,
      List.getElem?_map, hk, Option.map_some]
  unwritten := Bool.eq_false_iff.mpr fun written =>
    Nat.not_lt_of_le (Nat.le_add_right _ _) (valid.lt_length _ written)
  within := .last (Nat.le_trans valid.last_le_length (Nat.le_add_right _ _))

theorem ProducerPc.claim_step (valid : g.Valid) (records : q.Records g) (drafted : Drafted g d)
    (claimable : Claimable g e d limit) :
    ProducerGoesOn spurious g q p (claim e d) := by
  by_cases fails : spurious = true ∨ q.producerIndex ≠ d.index
  · exact ⟨_, [], q, g, .losesClaim e d fails, .read records trivial rfl⟩
  · obtain ⟨succeeds, same⟩ := not_or.mp fails
    rw [Bool.not_eq_true] at succeeds
    rw [Ne, not_not] at same
    obtain ⟨i, even⟩ := drafted.even
    have index : g.index = d.index := records.producer.symm.trans same
    obtain ⟨unmarked, length⟩ := unmarked_of_even (index.trans even)
    obtain ⟨count, stop, room⟩ := stop_eq valid even length claimable
    have taken : (ProducerPc.stop e d - d.index) / 2 = count := by omega
    have elements : (e.elements count).length = count := by
      rw [Errand.elements, List.length_map, List.length_range]
    have steps := Steps.claims e d succeeds same
    rw [taken] at steps
    refine ⟨_, _, _, g.claim p (e.elements count), steps, ?_⟩
    constructor
    case change => exact .claim unmarked (by omega)
    case records => exact records.claim valid unmarked (by rw [elements, length, stop])
    case knows =>
      unfold writing
      split
      · cases e <;> trivial
      next some =>
          refine ⟨Nat.pos_of_ne_zero some, drafted.mask, i, even, ?_⟩
          intro k hk
          rw [drafted.chunk index, ← length, Nat.zero_add]
          apply hole_claim valid
          rw [Errand.elements, List.getElem?_map, List.getElem?_range hk, Option.map_some]
    case claims => rfl
    case limit => exact fun _ => Nat.le_refl _
    case last => rfl

theorem ProducerPc.write_step (valid : g.Valid) (records : q.Records g) {cursor : Cursor}
    {done left i : Nat} (pos : 0 < left) (mask : cursor.mask = Index.maskOf g.size.chunkSize)
    (even : index = 2 * i)
    (holes : ∀ k, k < left → g.Hole p cursor.chunk (i + k) (e.element (done + k))) :
    ProducerGoesOn spurious g q p (write e cursor index done left) := by
  have first := holes 0 pos
  obtain ⟨q', put, records'⟩ := records.put valid first
  have cursor_eq : cursor = ⟨cursor.chunk, Index.maskOf g.size.chunkSize⟩ := by rw [← mask]
  rw [← cursor_eq, Nat.add_zero, Nat.add_zero, ← even] at put
  have limit := Nat.le_of_eq (Chain.onStore_limit put).symm
  refine ⟨_, [], q', g.store i, .writes e cursor index done left put,
    .write (.store first) records' ?_ rfl limit rfl⟩
  unfold writing
  split
  · cases e <;> trivial
  next some =>
      refine ⟨Nat.pos_of_ne_zero some, mask, i + 1, by omega, fun k hk => ?_⟩
      have hole := holes (k + 1) (by omega)
      rw [← Nat.add_assoc, Nat.add_right_comm, ← Nat.add_assoc, Nat.add_right_comm done] at hole
      exact hole.store (by omega)

theorem sizeOfMask_eq (valid : g.Valid) {mask : Nat} (eq : mask = Index.maskOf g.size.chunkSize) :
    Index.sizeOfMask mask = g.size.chunkSize := by
  have two := valid.fits.two_le
  rw [eq, Index.sizeOfMask_maskOf (by omega)]

theorem ProducerPc.grow_step (valid : g.Valid) (records : q.Records g)
    (marking : Marking g p e d m) : ProducerGoesOn spurious g q p (grow e d) := by
  have held := marking.held
  have links := links_grow held
  have grown := records.grow valid held marking.unwritten marking.ordered
  have size := sizeOfMask_eq valid (congrArg Cursor.mask marking.cursor)
  have tail : q.tail.mask = Index.maskOf g.size.chunkSize := congrArg Cursor.mask records.tail
  have chunk : d.cursor.chunk = g.links.length := congrArg Cursor.chunk marking.cursor
  have link : g.grow.links[d.cursor.chunk]? = some m := by
    rw [links, chunk, List.getElem?_concat_length]
  have top : d.cursor.chunk + 1 = g.grow.links.length := by
    rw [links, chunk, List.length_append, List.length_singleton]
  have unjumped : g.jumped d.cursor.chunk = false := Bool.eq_false_iff.mpr fun jumped =>
    absurd (valid.joined_lt (valid.jumped _ jumped)) (chunk ▸ Nat.lt_irrefl _)
  have growing : Growing g.grow p e d m :=
    { index := marking.index
      mask := congrArg Cursor.mask marking.cursor
      link
      own := held.own
      unjumped
      held := ⟨held.marked, held.length, held.own⟩
      top }
  have last : 2 * g.grow.last = d.index := by rw [growing.last, marking.index]
  have push := records.push
  rw [← size] at push
  have steps : Steps spurious q _ _ _ _ := .grows e d push
  rw [size] at steps
  simp only [tail] at steps
  have change := Change.grow held marking.unwritten marking.ordered
  refine ⟨_, [], _, g.grow, steps,
    .write change grown ⟨?_, m, growing, marking.unwritten⟩ rfl (Nat.le_refl _) last⟩
  rw [following, chunk]
  rfl

theorem ProducerPc.storeMask_step (records : q.Records g) {next : Cursor}
    (eq : next = following g d) (growing : Growing g p e d m) (unwritten : g.written m = false) :
    ProducerGoesOn spurious g q p (storeMask e d next) := by
  refine ⟨_, [], _, g, .storesMask e d next,
    .write .stay { records with tail := ?_ } ⟨eq, m, growing, unwritten⟩ rfl (Nat.le_refl _) rfl⟩
  rw [eq, following, records.tail]

theorem Growing.hole (growing : Growing g p e d m) (unwritten : g.written m = false) :
    g.Hole p (d.cursor.chunk + 1) m (e.element 0) where
  own := growing.own
  unwritten := unwritten
  within := by
    rw [growing.top]
    exact .last (Nat.le_of_eq growing.last)

theorem ProducerPc.writeFirst_step (valid : g.Valid) (records : q.Records g) {next : Cursor}
    (eq : next = following g d) (growing : Growing g p e d m) (unwritten : g.written m = false) :
    ProducerGoesOn spurious g q p (writeFirst e d next) := by
  have hole := growing.hole unwritten
  obtain ⟨q', put, records'⟩ := records.put valid hole
  have put' : Chain.put next d.index (e.element 0) q = .ok () q' := by
    rw [eq, following, growing.index, put]
  have limit := Nat.le_of_eq (Chain.onStore_limit put').symm
  refine ⟨_, [], q', g.store m, .writesFirst e d next put',
    .write (.store hole) records' ⟨eq, m, ?_, ?_⟩ rfl limit rfl⟩
  · exact { growing with held := ⟨growing.held.marked, growing.held.length, growing.held.own⟩ }
  · simp only [Register.store, if_true]

theorem ProducerPc.link_step (valid : g.Valid) (records : q.Records g) {next : Cursor}
    (eq : next = following g d) (growing : Growing g p e d m) (written : g.written m = true) :
    ProducerGoesOn spurious g q p (link e d next) := by
  have live := valid.head_le_of_unjumped growing.unjumped
  have hi := Nat.le_of_lt (List.getElem?_eq_some_iff.mp growing.link).1
  obtain ⟨q', link, records'⟩ := records.link live hi
  have link' : Chain.onStore (Arena.link d.cursor.chunk next.chunk) q = .ok () q' := by
    rw [eq, following, link]
  have change := Change.join growing.link growing.own written
  have limit := Nat.le_of_eq (Chain.onStore_limit link').symm
  refine ⟨_, [], q', g.join d.cursor.chunk, .links e d next link',
    .write change records' ⟨eq, m, ?_, ?_⟩ rfl limit rfl⟩
  · exact { growing with held := ⟨growing.held.marked, growing.held.length, growing.held.own⟩ }
  · simp only [Register.join, if_true]

theorem ProducerPc.checkRoom_step (valid : g.Valid) (records : q.Records g) {next : Cursor}
    (eq : next = following g d) (growing : Growing g p e d m)
    (joined : g.joined d.cursor.chunk = true) :
    ProducerGoesOn spurious g q p (checkRoom e d next) := by
  have two := valid.fits.two_le
  have lt := valid.fits.lt
  have length := valid.length_le
  have last := growing.last
  rw [growing.held.length] at length
  have free : q.freeAt d.index = 2 * (g.size.capacity - (m - g.consumed)) := by
    rw [Chain.freeAt, Index.distance, records.bound, records.consumer, growing.index]
    omega
  have mask : next.mask = 2 * (g.size.chunkSize - 1) := by
    rw [eq, following, Index.maskOf_eq]
  have room : q.freeAt d.index ≠ 0 := by omega
  have steps : Steps spurious q _ _ _ _ := .checksRoom e d next room
  rw [free] at steps
  have allows : g.Allows
      (d.index + min next.mask (2 * (g.size.capacity - (m - g.consumed)))) := by
    refine ⟨m + min (g.size.chunkSize - 1) (g.size.capacity - (m - g.consumed)), ?_, ?_⟩
    · rw [mask, growing.index]
      omega
    · rw [reach, last]
      omega
  refine ⟨_, [], _, g, steps,
    .write .stay { records with } ⟨allows, ?_, m, growing, joined⟩ rfl (Nat.le_refl _) rfl⟩
  rw [mask]
  omega

theorem ProducerPc.storeLimit_step (records : q.Records g) (allows : g.Allows limit)
    (growing : Growing g p e d m) (joined : g.joined d.cursor.chunk = true) :
    ProducerGoesOn spurious g q p (storeLimit e d limit) :=
  ⟨_, [], _, g, .storesLimit e d limit, .stay, records.raise allows, ⟨m, growing, joined⟩,
    (List.append_nil _).symm, fun stores => Bool.noConfusion stores, rfl⟩

theorem ProducerPc.storeIndex_step (records : q.Records g) (growing : Growing g p e d m)
    (joined : g.joined d.cursor.chunk = true) :
    ProducerGoesOn spurious g q p (storeIndex e d) := by
  have held := growing.held
  have index : d.index + 2 = 2 * (m + 1) := by rw [growing.index, Nat.mul_succ]
  have change := Change.settle held growing.last
  exact ⟨_, [], _, g.settle, .storesIndex e d, .write change (records.settle held index)
    ⟨m, { growing.toLinking with }, joined⟩ rfl (Nat.le_refl _) rfl⟩

theorem ProducerPc.writeJump_step (valid : g.Valid) (records : q.Records g)
    (linking : Linking g p e d m) (joined : g.joined d.cursor.chunk = true) :
    ProducerGoesOn spurious g q p (writeJump e d) := by
  obtain ⟨q', jump, records'⟩ := records.markJump valid linking.link linking.unjumped
  rw [← Chain.Records.position_eq valid, ← linking.mask, ← linking.index] at jump
  have change := Change.jump linking.link linking.own joined
  have limit := Nat.le_of_eq (Chain.onStore_limit jump).symm
  refine ⟨_, [], q', g.jump d.cursor.chunk, .writesJump e d jump,
    .write change records' ?_ rfl limit rfl⟩
  cases e <;> trivial

theorem producer_goes_on (valid : g.Valid) (records : q.Records g) {pc : ProducerPc α}
    (knows : pc.Knows g p) (spurious : Bool) : ProducerGoesOn spurious g q p pc := by
  cases pc with
  | idle last => exact ⟨_, [], q, g, .rests last, .read records trivial rfl⟩
  | loadLimit e =>
      exact ⟨_, [], q, g, .loadsLimit e, .read records records.limit rfl⟩
  | loadIndex e limit => exact loadIndex_step records knows
  | loadMask e limit index =>
      have mask := congrArg Cursor.mask records.tail
      exact ⟨_, [], q, g, .loadsMask e limit index,
        .read records ⟨knows.1, knows.2, mask⟩ rfl⟩
  | loadChunk e limit index mask =>
      exact loadChunk_step records knows.1 knows.2.1 knows.2.2
  | loadConsumer e d => exact loadConsumer_step valid records knows.1 knows.2
  | raiseLimit e d limit =>
      obtain ⟨drafted, past, below, allows⟩ := knows
      exact raiseLimit_step records drafted past below allows
  | mark e d => exact mark_step valid records knows.1 knows.2.1 knows.2.2
  | claim e d =>
      obtain ⟨drafted, limit, claimable⟩ := knows
      exact claim_step valid records drafted claimable
  | write e cursor index done left =>
      obtain ⟨pos, mask, i, even, holes⟩ := knows
      exact write_step valid records pos mask even holes
  | grow e d =>
      obtain ⟨m, marking⟩ := knows
      exact grow_step valid records marking
  | storeMask e d next =>
      obtain ⟨eq, m, growing, unwritten⟩ := knows
      exact storeMask_step records eq growing unwritten
  | writeFirst e d next =>
      obtain ⟨eq, m, growing, unwritten⟩ := knows
      exact writeFirst_step valid records eq growing unwritten
  | link e d next =>
      obtain ⟨eq, m, growing, written⟩ := knows
      exact link_step valid records eq growing written
  | checkRoom e d next =>
      obtain ⟨eq, m, growing, joined⟩ := knows
      exact checkRoom_step valid records eq growing joined
  | storeLimit e d limit =>
      obtain ⟨allows, -, m, growing, joined⟩ := knows
      exact storeLimit_step records allows growing joined
  | storeIndex e d =>
      obtain ⟨m, growing, joined⟩ := knows
      exact storeIndex_step records growing joined
  | writeJump e d =>
      obtain ⟨m, linking, joined⟩ := knows
      exact writeJump_step valid records linking joined
  | lengthFirst => exact ⟨_, [], q, g, .lengthBegins, .read records trivial rfl⟩
  | lengthProducer before => exact ⟨_, [], q, g, .lengthLoads before, .read records trivial rfl⟩
  | lengthAgain before producer =>
      by_cases same : before = q.consumerIndex
      · exact ⟨_, [], q, g, .lengthEnds before producer same, .read records trivial rfl⟩
      · exact ⟨_, [], q, g, .lengthRepeats before producer same, .read records trivial rfl⟩
  | fault => exact knows.elim

end Handoff.ChainMachine
