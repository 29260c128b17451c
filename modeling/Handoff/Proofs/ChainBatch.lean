import Handoff.Proofs.ChainFill
import Handoff.Proofs.Untouched

/-! A batch and as many single offers. Both come to the same tape, and a tape leaves
nothing of a chain open but where the consumer is, whom no producer moves: so they come
to the same chain, down to the last slot. -/
namespace Handoff

variable {α β E F Q : Type}

theorem Chunk.Shows.slots_eq {ch ch' : Chunk α} {n lo : Nat} {content : Nat → Slot α}
    (h : ch.Shows n lo content) (h' : ch'.Shows n lo content) : ch.slots = ch'.slots := by
  have size : ch.slots.size = n := h.size
  apply Array.ext (h.size.trans h'.size.symm)
  intro s hs hs'
  obtain ⟨i, le, lt, rfl⟩ := Index.exists_mod_eq lo (size ▸ hs)
  have shown := (h.slot i le lt).trans (h'.slot i le lt).symm
  rw [Chunk.slot?, Chunk.slot?, Array.getElem?_eq_getElem hs,
    Array.getElem?_eq_getElem hs'] at shown
  exact Option.some.inj shown

theorem Arena.eq_of_chunk? {a b : Arena α} (created : a.chunks.size = b.chunks.size)
    (same : ∀ c, a.chunk? c = b.chunk? c) : a = b := by
  obtain ⟨chunks⟩ := a
  obtain ⟨chunks'⟩ := b
  refine congrArg Arena.mk (Array.ext created fun c hc hc' => ?_)
  have here := same c
  simp only [chunk?, Array.getElem?_eq_getElem hc, Array.getElem?_eq_getElem hc',
    Option.join_some] at here
  exact here

/-- Offers of all values one after another, with what each came to. -/
def offerEach [Channel Q α] : List α → Act Q (List (Except (Full α) Unit))
  | [] => return []
  | v :: rest => do
    let first ← Channel.offer v
    let later ← offerEach rest
    return first :: later

theorem Tracks.of_ok {σ τ ρ : Type} {rel : σ → τ → Prop} {m : Moves τ} {act : Act σ β}
    {act' : Act τ β} (h : Tracks rel m act act') {part : σ → ρ} (retains : Retains part act)
    {s : σ} {t t' : τ} {b : β} (related : rel s t) (ran : act' t = .ok b t') :
    ∃ s', act s = .ok b s' ∧ Lands rel m t s' t' ∧ part s' = part s := by
  have agree := h s t related
  have kept := retains s
  rw [ran] at agree
  generalize act s = x at agree kept ⊢
  cases agree with
  | ok lands => exact ⟨_, rfl, lands, kept⟩

theorem offerEach_tracks {R : Type} [Channel Q α] [Channel R α] {shared : Bool}
    (S : Refinement Q R shared) (values : List α) :
    Tracks S.rel (S.moves .both) (offerEach (Q := Q) values) (offerEach values) := by
  induction values with
  | nil => exact .pure []
  | cons v rest ih =>
      exact .bind (S.call rfl (.offer v)) fun first => ih.bind fun later => .pure (first :: later)

namespace Tape

variable {t : Tape α}

theorem grant_none (within : t.claimed ≤ t.limit) : t.grant t.limit 0 = t := by
  rw [grant, Nat.add_zero, Nat.min_eq_right within]

theorem grant_store {limit : Nat} (below : t.claimed < limit) (i : Nat) (v : α) (more : Nat) :
    ((t.grant limit 1).store i v).grant limit more = (t.grant limit (more + 1)).store i v := by
  have claimed : min limit (min limit (t.claimed + 1) + more) =
      min limit (t.claimed + (more + 1)) := by omega
  simp only [grant, store, claimed]

theorem offerEach_cons (unmarked : t.marked = false) {limit : Nat} (room : t.room = .below limit)
    {v : α} {rest : List α} (fits : t.claimed + (rest.length + 1) ≤ limit)
    (later : ∀ u : Tape α, u.marked = false → u.limit = limit → u.claimed + rest.length ≤ limit →
      offerEach rest u = .ok (List.replicate rest.length (.ok ()))
        ((u.grant limit rest.length).storeAll u.claimed rest)) :
    offerEach (v :: rest) t = .ok (List.replicate (rest.length + 1) (.ok ()))
      ((t.grant limit (rest.length + 1)).storeAll t.claimed (v :: rest)) := by
  have claim := claim_open unmarked 1
  rw [room] at claim
  have first : Channel.offer v t = .ok (.ok ()) ((t.grant limit 1).store t.claimed v) :=
    Act.bind_ok claim _
  have next : ((t.grant limit 1).store t.claimed v).claimed = t.claimed + 1 :=
    Nat.min_eq_right (by omega)
  have others := later ((t.grant limit 1).store t.claimed v) unmarked rfl (by omega)
  rw [next, grant_store (by omega)] at others
  exact (Act.bind_ok first _).trans (Act.bind_ok others _)

theorem offerEach_below {limit : Nat} (values : List α) :
    ∀ t : Tape α, t.marked = false → t.limit = limit → t.claimed + values.length ≤ limit →
      offerEach values t = .ok (List.replicate values.length (.ok ()))
        ((t.grant limit values.length).storeAll t.claimed values) := by
  induction values with
  | nil =>
      rintro t - rfl fits
      rw [List.length_nil, grant_none fits]
      rfl
  | cons v rest ih =>
      rintro t unmarked rfl fits
      rw [List.length_cons] at fits
      exact offerEach_cons unmarked (if_pos (by omega)) fits ih

theorem offerEach_granted (unmarked : t.marked = false) {limit : Nat} (room : t.room = .below limit)
    (values : List α) (some : 0 < values.length) (fits : t.claimed + values.length ≤ limit) :
    offerEach values t = .ok (List.replicate values.length (.ok ()))
      ((t.grant limit values.length).storeAll t.claimed values) := by
  cases values with
  | nil => exact absurd some (Nat.lt_irrefl 0)
  | cons v rest => exact offerEach_cons unmarked room fits (offerEach_below rest)

theorem fill_offerEach (h : t.Valid) (unmarked : t.marked = false) (supply : E → α × E)
    {wanted : Nat} (some : 0 < wanted) (memory : E) :
    ∃ u, fill (Client.own supply : Client α E true .both α).run wanted ⟨t, memory⟩ =
        .ok (t.share wanted) ⟨u, (produce supply (t.share wanted) memory).2⟩ ∧
      offerEach (produce supply (t.share wanted) memory).1 t =
        .ok (List.replicate (t.share wanted) (.ok ())) u ∧
      (t.share wanted = 0 → u = t) := by
  have claim := claim_open unmarked wanted
  unfold share
  cases hr : t.room with
  | full =>
      rw [hr] at claim
      refine ⟨t, ?_, rfl, fun _ => rfl⟩
      exact Act.bind_ok (Act.onQueue_ok (w := ⟨t, memory⟩) claim) _
  | below limit =>
      rw [hr] at claim
      obtain ⟨-, below, -, -⟩ := h.room_below hr
      simp only
      have length := produce_length supply (min limit (t.claimed + wanted) - t.claimed) memory
      have granted : t.grant limit (min limit (t.claimed + wanted) - t.claimed) =
          t.grant limit wanted := by
        have claimed : min limit (t.claimed + (min limit (t.claimed + wanted) - t.claimed)) =
            min limit (t.claimed + wanted) := by omega
        simp only [grant, claimed]
      have each := offerEach_granted unmarked hr
        (produce supply (min limit (t.claimed + wanted) - t.claimed) memory).1 (by omega) (by omega)
      rw [length, granted] at each
      refine ⟨_, ?_, each, fun none => by omega⟩
      refine (Act.bind_ok (Act.onQueue_ok (w := ⟨t, memory⟩) claim) _).trans ?_
      exact Act.bind_ok (writeRun_own supply _ t.claimed _ memory) _
  | link =>
      rw [hr] at claim
      have offered := claim_open unmarked 1
      rw [hr] at offered
      refine ⟨t.mark.link (supply memory).1, ?_, ?_, fun none => absurd none Nat.one_ne_zero⟩
      · exact Act.bind_ok (Act.onQueue_ok (w := ⟨t, memory⟩) claim) _
      · have first : Channel.offer (supply memory).1 t =
            .ok (.ok ()) (t.mark.link (supply memory).1) := Act.bind_ok offered _
        exact Act.bind_ok first _

end Tape

attribute [ext] Cursor Chain

namespace Chain

namespace Models

variable {q q' : Chain α} {t : Tape α}

theorem chunk?_eq (h : q.Models t) (h' : q'.Models t) (head : q.head.chunk = q'.head.chunk)
    (c : Nat) : q.store.chunk? c = q'.store.chunk? c := by
  rcases Nat.lt_or_ge c q.head.chunk with before | le
  · rw [h.freed c before, h'.freed c (head ▸ before)]
  · rcases Nat.lt_or_ge t.links.length c with after | within
    · have past : ∀ {p : Chain α}, p.Models t → p.store.chunk? c = none := by
        intro p hp
        apply Arena.chunk?_of_le
        rw [hp.created]
        exact after
      rw [past h, past h']
    · obtain ⟨ch, live⟩ := h.live c le within
      obtain ⟨ch', live'⟩ := h'.live c (head ▸ le) within
      have slots := live.shown.slots_eq live'.shown
      have next := live.next.trans live'.next.symm
      obtain ⟨_, _⟩ := ch
      obtain ⟨_, _⟩ := ch'
      cases slots
      cases next
      rw [live.found, live'.found]

theorem unique (h : q.Models t) (h' : q'.Models t) (head : q.head.chunk = q'.head.chunk) :
    q = q' := by
  apply Chain.ext
  case store =>
    exact Arena.eq_of_chunk? (h.created.trans h'.created.symm) (h.chunk?_eq h' head)
  case head => exact Cursor.ext head (h.head_mask.trans h'.head_mask.symm)
  case tail => exact h.tail.trans h'.tail.symm
  case consumerIndex => exact h.consumer.trans h'.consumer.symm
  case producerIndex => exact h.producer.trans h'.producer.symm
  case limit => exact h.limit.trans h'.limit.symm
  case bound => exact h.bound.trans h'.bound.symm
  case discarded => exact h.discarded.trans h'.discarded.symm
  case journal => exact Array.toList_inj.mp (h.journal.trans h'.journal.symm)

end Models

def consumerSide (q : Chain α) : Cursor × Nat := (q.head, q.consumerIndex)

theorem retains_onStore (act : Act (Arena α) β) : Retains consumerSide (onStore act) := by
  rintro ⟨store, _, _, _, _, _, _, _, _⟩
  simp only [onStore]
  cases act store <;> rfl

theorem retains_claim (wanted : Nat) :
    Retains consumerSide (claim wanted : Act (Chain α) Claim) := by
  apply (Retains.view _).bind
  intro site
  split
  · exact .throw _
  · apply (Retains.view _).bind
    intro room
    cases room with
    | full => exact .pure _
    | below limit => exact .bind (fun _ => rfl) fun _ => .pure _
    | link => exact .bind (fun _ => rfl) fun _ => .pure _

theorem retains_put (cursor : Cursor) (index : Nat) (v : α) :
    Retains consumerSide (put cursor index v) := retains_onStore _

theorem retains_extend (site : Site) (v : α) : Retains consumerSide (extend site v) := by
  refine .bind (retains_onStore _) fun next => .bind (fun _ => rfl) fun _ =>
    .bind (retains_put _ _ v) fun _ => .bind (retains_onStore _) fun _ =>
    .bind (.view _) fun free => ?_
  split
  · exact .throw _
  · exact .bind (fun _ => rfl) fun _ => retains_onStore _

theorem retains_offer (v : α) : Retains consumerSide (offer v) := by
  apply (retains_claim 1).bind
  intro claim
  cases claim with
  | full => exact .pure _
  | run site count => exact (retains_put _ _ v).bind fun _ => .pure _
  | link site => exact (retains_extend site v).bind fun _ => .pure _

/-- A call with callbacks that leaves the consumer where it is. -/
abbrev KeepsConsumer (act : Act (World (Chain α) E) β) : Prop :=
  Retains (fun w : World (Chain α) E => w.queue.consumerSide) act

theorem keepsConsumer_fill {supply : Act (World (Chain α) E) α} (hs : KeepsConsumer supply)
    (wanted : Nat) : KeepsConsumer (fill supply wanted) := by
  let C : Coupling (World (Chain α) E) (World (Chain α) E) :=
    .diagonal KeepsConsumer .pure .bind (.throw _)
  have calls : Coupled C :=
    { claim := fun wanted => ⟨rfl, .onQueue (retains_claim wanted)⟩
      put := fun cursor index v => ⟨rfl, .onQueue (retains_put cursor index v)⟩
      extend := fun site v => ⟨rfl, .onQueue (retains_extend site v)⟩ }
  exact (calls.fill ⟨rfl, hs⟩ wanted).2

theorem retains_offerEach (values : List α) :
    Retains consumerSide (offerEach (Q := Chain α) values) := by
  induction values with
  | nil => exact .pure []
  | cons v rest ih =>
      exact (retains_offer v).bind fun first => ih.bind fun later => .pure (first :: later)

/-- How many elements a batch takes, by the indices as they are kept: what is wanted, as
far as the limit goes, or the last chunk if that goes further. Past both it is one, for
which a chunk is linked, unless the chain is full. -/
def share (q : Chain α) (wanted : Nat) : Nat :=
  if q.producerIndex < q.limit then min wanted ((q.limit - q.producerIndex) / 2)
  else if q.producerIndex < q.consumerIndex + q.tail.mask then
    min wanted ((q.consumerIndex + q.tail.mask - q.producerIndex) / 2)
  else if q.length = q.capacity then 0
  else 1

theorem Models.share_eq {q : Chain α} {t : Tape α} (h : q.Models t) (unmarked : t.marked = false)
    (wanted : Nat) : q.share wanted = t.share wanted := by
  have hreach : q.consumerIndex + q.tail.mask = 2 * (t.consumed + (t.size.chunkSize - 1)) := by
    rw [h.consumer, h.tail, Index.maskOf_eq, Nat.mul_add]
  have hfull := h.length_eq_capacity_iff
  have hle := h.valid.consumed_le
  have upTo : ∀ limit, t.claimed < limit → min wanted ((2 * limit - 2 * t.claimed) / 2) =
      min limit (t.claimed + wanted) - t.claimed := by
    intro limit below
    omega
  simp only [share, Tape.share, Tape.room, h.producer_open unmarked, h.limit, hreach, hfull,
    Nat.mul_lt_mul_left Nat.two_pos]
  by_cases kept : t.claimed < t.limit
  · simp only [kept, if_true, upTo]
  · by_cases reach : t.claimed < t.consumed + (t.size.chunkSize - 1)
    · simp only [kept, reach, if_false, if_true, upTo]
    · have free := Tape.free_eq_zero_iff h.valid
      simp only [kept, reach, if_false, free]
      split <;> rfl

/-- As long as no chunk is being linked, a batch of supplied values leaves the very chain
that offers of as many of these values leave, all of which are accepted: the same indices
and limit, the same chunks and slots, the same reports. It takes as many as `share` says,
and if that is none the chain is as it was. -/
theorem fill_as_offers {q₀ : Chain α} (made : q₀.Made) {β : Type}
    (before : Client α E true .both β) (env : E)
    (clear : Index.linking (channelAfter (before.run ⟨q₀, env⟩)).producerIndex = false)
    (supply : F → α × F) {wanted : Nat} (some : 0 < wanted) (memory : F) :
    let q := channelAfter (before.run ⟨q₀, env⟩)
    let batch : Client α F true .both Nat := .fill rfl (.own supply) wanted
    let values := produce supply (q.share wanted) memory
    ∃ q', batch.run ⟨q, memory⟩ = .ok (q.share wanted) ⟨q', values.2⟩ ∧
      offerEach values.1 q = .ok (List.replicate (q.share wanted) (.ok ())) q' ∧
      (q.share wanted = 0 → q' = q) := by
  intro q batch values
  obtain ⟨t, models⟩ : ∃ t, q.Models t := reached made before env
  have unmarked := models.unmarked clear
  obtain ⟨u, filled, offered, unchanged⟩ :=
    Tape.fill_offerEach models.valid unmarked supply some memory
  rw [← models.share_eq unmarked] at filled offered unchanged
  have quiet : KeepsConsumer (.own supply : Client α F true .both α).run := fun _ => rfl
  have tracks := fill_tracks ((tape α).tracks (.own supply : Client α F true .both α)) wanted
  have tracks' := offerEach_tracks (tape α) values.1
  obtain ⟨⟨q', _⟩, ran, ⟨⟨memory', after⟩, -⟩, side⟩ :=
    tracks.of_ok (keepsConsumer_fill quiet wanted) (s := ⟨q, memory⟩) ⟨rfl, models⟩ filled
  obtain ⟨q'', ran', ⟨after', -⟩, side'⟩ :=
    tracks'.of_ok (retains_offerEach values.1) models offered
  cases memory'
  -- Both runs end on one tape, and neither has moved the consumer.
  have same : q'' = q' := after'.unique after (congrArg (·.1.chunk) (side'.trans side.symm))
  refine ⟨q', ran, same ▸ ran', fun none => ?_⟩
  rw [unchanged none] at after
  exact after.unique models (congrArg (·.1.chunk) side)

/-- A batch of seven that is cut short where the chunk ends that was linked before it. -/
theorem fill_as_offers_across_chunks :
    let q₀ : Chain Nat := ofSize ⟨4, 8⟩
    let before : Client Nat Nat true .both (Except (Full Nat) Unit) :=
      .bind (.fill rfl (.done 1) 3) fun _ => .call rfl (.offer 2)
    let q := channelAfter (before.run ⟨q₀, 0⟩)
    let batch : Client Nat Nat true .both Nat := .fill rfl (.own fun n => (n, n + 1)) 7
    q₀.Made ∧ Index.linking q.producerIndex = false ∧ q.share 7 = 2 ∧
      ∃ q', batch.run ⟨q, 5⟩ = .ok 2 ⟨q', 7⟩ ∧
        offerEach [5, 6] q = .ok [.ok (), .ok ()] q' := by
  intro q₀ before q batch
  have made : q₀.Made := .inl ⟨4, 8, rfl⟩
  have clear : Index.linking q.producerIndex = false := by decide +kernel
  have share : q.share 7 = 2 := by decide +kernel
  obtain ⟨q', ran, offered, -⟩ :=
    fill_as_offers made before 0 clear (fun n => (n, n + 1)) (by decide : 0 < 7) 5
  rw [share] at ran offered
  exact ⟨made, clear, share, q', ran, offered⟩

end Chain
end Handoff
