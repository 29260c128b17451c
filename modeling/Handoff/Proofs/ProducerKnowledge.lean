import Handoff.ChainMachine.Producer
import Handoff.Proofs.ChainRegister

/-! What a producer knows at each of its steps, told by the register. The numbers that it
has loaded may be stale, so all that is said of them is what still holds then: a limit
once read stays allowed, and the producers' chunk was the right one if the producer
index is still that of the draft. -/
namespace Handoff.ChainMachine

open Register

variable {α : Type}

def Errand.wanted : Errand α → Nat
  | .offer _ => 1
  | .fill wanted _ => wanted

/-- The producer index was even when it was loaded. -/
structure Seen (g : Register α) (index : Nat) : Prop where
  even : ∃ i, index = 2 * i
  le : index ≤ g.index

/-- The loads of a draft were made one after another. If the index has not moved since,
then they belong together. -/
structure Drafted (g : Register α) (d : Draft) : Prop extends Seen g d.index where
  mask : d.cursor.mask = Index.maskOf g.size.chunkSize
  chunk : g.index = d.index → d.cursor.chunk = g.links.length

/-- A claim that the limit allows. -/
structure Claimable (g : Register α) (e : Errand α) (d : Draft) (limit : Nat) : Prop where
  allows : g.Allows limit
  lt : d.index < limit
  stop : ProducerPc.stop e d = min limit (d.index + Word.double e.wanted)

/-- Producer `p` holds the mark on index `m` and has not created a chunk. -/
structure Marking (g : Register α) (p : Nat) (e : Errand α) (d : Draft) (m : Nat) : Prop where
  held : g.Held p m (e.element 0)
  index : d.index = 2 * m
  cursor : d.cursor = ⟨g.links.length, Index.maskOf g.size.chunkSize⟩
  unwritten : g.written m = false
  ordered : (0 :: (g.links ++ [m])).Pairwise (· < ·)

/-- Producer `p` has created a chunk at index `m`, and the chunk before that has no jump. -/
structure Linking (g : Register α) (p : Nat) (e : Errand α) (d : Draft) (m : Nat) : Prop where
  index : d.index = 2 * m
  mask : d.cursor.mask = Index.maskOf g.size.chunkSize
  link : g.links[d.cursor.chunk]? = some m
  own : g.claims[m]? = some (p, e.element 0)
  unjumped : g.jumped d.cursor.chunk = false

/-- Producer `p` links a chunk, and holds the mark. -/
structure Growing (g : Register α) (p : Nat) (e : Errand α) (d : Draft) (m : Nat) : Prop
    extends Linking g p e d m where
  held : g.Held p m (e.element 0)
  top : d.cursor.chunk + 1 = g.links.length

def following (g : Register α) (d : Draft) : Cursor :=
  ⟨d.cursor.chunk + 1, Index.maskOf g.size.chunkSize⟩

def ProducerPc.Knows (g : Register α) (p : Nat) : ProducerPc α → Prop
  | idle _ | loadLimit _ | lengthFirst | lengthProducer _ | lengthAgain _ _ => True
  | loadIndex _ limit => g.Allows limit
  | loadMask _ limit index => g.Allows limit ∧ Seen g index
  | loadChunk _ limit index mask =>
    g.Allows limit ∧ Seen g index ∧ mask = Index.maskOf g.size.chunkSize
  | loadConsumer _ d => Drafted g d ∧ d.limit ≤ d.index
  | raiseLimit _ d limit => Drafted g d ∧ d.limit ≤ d.index ∧ d.index < limit ∧ g.Allows limit
  | mark _ d => Drafted g d ∧ 0 < d.index ∧ d.index < 2 * (g.consumed + g.size.capacity)
  | claim e d => Drafted g d ∧ ∃ limit, Claimable g e d limit
  | write e cursor index done left =>
    0 < left ∧ cursor.mask = Index.maskOf g.size.chunkSize ∧
      ∃ i, index = 2 * i ∧ ∀ k, k < left → g.Hole p cursor.chunk (i + k) (e.element (done + k))
  | grow e d => ∃ m, Marking g p e d m
  | storeMask e d next | writeFirst e d next =>
    next = following g d ∧ ∃ m, Growing g p e d m ∧ g.written m = false
  | link e d next => next = following g d ∧ ∃ m, Growing g p e d m ∧ g.written m = true
  | checkRoom e d next =>
    next = following g d ∧ ∃ m, Growing g p e d m ∧ g.joined d.cursor.chunk = true
  | storeLimit e d limit =>
    g.Allows limit ∧ d.index + 2 ≤ limit ∧
      ∃ m, Growing g p e d m ∧ g.joined d.cursor.chunk = true
  | storeIndex e d => ∃ m, Growing g p e d m ∧ g.joined d.cursor.chunk = true
  | writeJump e d => ∃ m, Linking g p e d m ∧ g.joined d.cursor.chunk = true
  | fault => False

variable {g g' : Register α} {p m index limit : Nat} {e : Errand α} {d : Draft}

theorem Drafted.cursor (h : Drafted g d) (same : g.index = d.index) :
    d.cursor = ⟨g.links.length, Index.maskOf g.size.chunkSize⟩ := by
  rw [← h.chunk same, ← h.mask]

theorem Growing.last (h : Growing g p e d m) : g.last = m := by
  rw [Register.last, ← h.top, Links.start_succ h.link]

theorem Seen.spared (h : Seen g index) (spares : Spares p g g') : Seen g' index :=
  ⟨h.even, Nat.le_trans h.le spares.index_le⟩

theorem Drafted.spared (h : Drafted g d) (spares : Spares p g g') : Drafted g' d where
  toSeen := h.toSeen.spared spares
  mask := spares.size ▸ h.mask
  chunk same := by
    obtain ⟨i, even⟩ := h.even
    have before : g.index = d.index :=
      Nat.le_antisymm (same ▸ spares.index_le) h.le
    rw [spares.still i (before.trans even) (same.trans even)]
    exact h.chunk before

theorem Claimable.spared (h : Claimable g e d limit) (spares : Spares p g g') :
    Claimable g' e d limit := { h with allows := spares.allows h.allows }

theorem Marking.spared (h : Marking g p e d m) (spares : Spares p g g') : Marking g' p e d m := by
  obtain ⟨-, -, links⟩ := spares.held m _ h.held
  exact {
    held := spares.held_kept h.held
    index := h.index
    cursor := by rw [links, spares.size, h.cursor]
    unwritten := (spares.written m _ h.held.own).trans h.unwritten
    ordered := links ▸ h.ordered }

theorem Linking.spared (h : Linking g p e d m) (spares : Spares p g g') : Linking g' p e d m where
  index := h.index
  mask := spares.size ▸ h.mask
  link := spares.link h.link
  own := own_later spares.claims h.own
  unjumped := (spares.ends _ m _ h.link h.own).2.trans h.unjumped

theorem Linking.joined_spared (h : Linking g p e d m) (spares : Spares p g g')
    (joined : g.joined d.cursor.chunk = true) : g'.joined d.cursor.chunk = true :=
  (spares.ends _ m _ h.link h.own).1.trans joined

theorem Growing.spared (h : Growing g p e d m) (spares : Spares p g g') : Growing g' p e d m where
  toLinking := h.toLinking.spared spares
  held := spares.held_kept h.held
  top := by
    obtain ⟨-, -, links⟩ := spares.held m _ h.held
    rw [links]
    exact h.top

theorem following_spared (spares : Spares p g g') (d : Draft) : following g' d = following g d := by
  rw [following, spares.size, following]

theorem ProducerPc.Knows.spared {pc : ProducerPc α} (h : pc.Knows g p) (spares : Spares p g g') :
    pc.Knows g' p := by
  cases pc with
  | idle | loadLimit | lengthFirst | lengthProducer | lengthAgain => trivial
  | loadIndex => exact spares.allows h
  | loadMask => exact ⟨spares.allows h.1, h.2.spared spares⟩
  | loadChunk => exact ⟨spares.allows h.1, h.2.1.spared spares, spares.size ▸ h.2.2⟩
  | loadConsumer => exact ⟨h.1.spared spares, h.2⟩
  | raiseLimit => exact ⟨h.1.spared spares, h.2.1, h.2.2.1, spares.allows h.2.2.2⟩
  | mark =>
      have later := spares.consumed_le
      refine ⟨h.1.spared spares, h.2.1, ?_⟩
      have room := h.2.2
      rw [spares.size]
      omega
  | claim =>
      obtain ⟨drafted, limit, claimable⟩ := h
      exact ⟨drafted.spared spares, limit, claimable.spared spares⟩
  | write =>
      obtain ⟨pos, mask, i, eq, holes⟩ := h
      exact ⟨pos, spares.size ▸ mask, i, eq, fun k hk => spares.hole (holes k hk)⟩
  | grow =>
      obtain ⟨m, marking⟩ := h
      exact ⟨m, marking.spared spares⟩
  | storeMask | writeFirst | link =>
      obtain ⟨next, m, growing, written⟩ := h
      exact ⟨next.trans (following_spared spares _).symm, m, growing.spared spares,
        (spares.written m _ growing.own).trans written⟩
  | checkRoom =>
      obtain ⟨next, m, growing, joined⟩ := h
      exact ⟨next.trans (following_spared spares _).symm, m, growing.spared spares,
        growing.joined_spared spares joined⟩
  | storeLimit =>
      obtain ⟨allows, past, m, growing, joined⟩ := h
      exact ⟨spares.allows allows, past, m, growing.spared spares,
        growing.joined_spared spares joined⟩
  | storeIndex =>
      obtain ⟨m, growing, joined⟩ := h
      exact ⟨m, growing.spared spares, growing.joined_spared spares joined⟩
  | writeJump =>
      obtain ⟨m, linking, joined⟩ := h
      exact ⟨m, linking.spared spares, linking.joined_spared spares joined⟩
  | fault => exact h

end Handoff.ChainMachine
