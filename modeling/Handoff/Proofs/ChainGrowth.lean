import Handoff.Proofs.ChainGauges
import Handoff.Proofs.Closing

/-! When a chain grows. A chunk takes one element less than it has slots, but when it is
linked it is given no more than the chain has room for at that moment, and more only when
its producers look at the consumer again. So a chunk can be left with slots that were
never used, if the chain is nearly full when the chunk is linked and the consumer has
not come to the chunk when the next one is. -/
namespace Handoff

variable {α E F : Type}

/-- When a producer marked `index` to link a chunk there, `gone` elements were consumed, and
the chunk linked at `previous` had no room for the one at `index`. The moments of the run that
come before the mark pin `gone` from below, those after it from above. -/
structure Spent (moments : List Gauges) (chunkSize capacity previous index gone : Nat) : Prop where
  before : ∀ g ∈ moments, g.producer ≤ 2 * index → g.consumer ≤ 2 * gone
  after : ∀ g ∈ moments, 2 * index < g.producer → 2 * gone ≤ g.consumer
  holds : chunkSize - 1 ≤ index - gone
  room : index - gone < capacity
  tail : index - max gone previous = chunkSize - 1 ∨
    index - max gone previous < chunkSize - 1 ∧ gone < previous ∧
      ∀ g ∈ moments, g.producer / 2 ≤ previous → g.consumer / 2 + capacity ≤ index

theorem Spent.noted {moments : List Gauges} {chunkSize capacity previous index gone : Nat}
    (h : Spent moments chunkSize capacity previous index gone) {g : Gauges}
    (later : 2 * index < g.producer) (passed : previous < index)
    (consumed : 2 * gone ≤ g.consumer) :
    Spent (moments ++ [g]) chunkSize capacity previous index gone where
  before g' hg := by
    rcases List.mem_append.mp hg with old | new
    · exact h.before g' old
    · rw [List.mem_singleton.mp new]
      omega
  after g' hg := by
    rcases List.mem_append.mp hg with old | new
    · exact h.after g' old
    · rw [List.mem_singleton.mp new]
      exact fun _ => consumed
  holds := h.holds
  room := h.room
  tail := by
    refine h.tail.imp_right fun ⟨short, ahead, used⟩ => ⟨short, ahead, fun g' hg => ?_⟩
    rcases List.mem_append.mp hg with old | new
    · exact used g' old
    · rw [List.mem_singleton.mp new]
      omega

namespace Tape

def lastLink (t : Tape α) : Nat := t.start t.links.length

/-- When the last chunk was linked, `gone` elements were consumed. Its producers may
fill it up to one slot, or as far as there was room in all then. `log` has the moments
so far. -/
structure Allotted (log : List Gauges) (t : Tape α) (gone : Nat) : Prop where
  gone_le : gone ≤ t.lastLink
  within : t.lastLink ≤ gone + t.size.capacity
  limit : t.lastLink + min (t.size.chunkSize - 1) (t.size.capacity - (t.lastLink - gone)) ≤
    t.limit
  seen : ∀ g ∈ log, g.producer / 2 ≤ t.lastLink → g.consumer / 2 ≤ gone

def UsedUp (log : List Gauges) (t : Tape α) (previous index : Nat) : Prop :=
  ∃ gone, gone ≤ t.consumed ∧
    Spent log t.size.chunkSize t.size.capacity previous index gone

/-- The log of one run, with what the last chunk was given and why each chunk but the first
was linked. -/
structure Rationed (log : List Gauges) (t : Tape α) : Prop where
  watched : Watched log t
  allotted : ∃ gone, Allotted log t gone
  linked : ∀ k r, t.links[k]? = some r → UsedUp log t (t.start k) r
  pending : t.marked = true → UsedUp log t t.lastLink t.claimed

variable {log : List Gauges} {t u : Tape α} {gone : Nat}

theorem lastLink_congr (links : u.links = t.links) : u.lastLink = t.lastLink := by
  rw [lastLink, start_congr links, links, lastLink]

theorem lastLink_link (t : Tape α) (v : α) : (t.link v).lastLink = t.claimed := by
  have links : (t.link v).links = t.links ++ [t.claimed] := rfl
  rw [lastLink, start_eq, links, List.length_append]
  exact Links.start_concat t.links t.claimed

theorem Valid.lastLink_eq_zero (h : t.Valid) (all : t.claimed ≤ t.lastLink) : t.lastLink = 0 := by
  rcases Nat.eq_zero_or_pos t.links.length with none | some
  · rw [lastLink, none]
    rfl
  · have mem : t.lastLink ∈ t.links := by
      rw [lastLink, start_eq]
      exact Links.start_mem some (Nat.le_refl _)
    exact absurd (h.linked _ mem).1 (Nat.not_lt.mpr all)

theorem Watched.below (h : Watched log t) {g : Gauges} (hg : g ∈ log) : g.Below t.gauges :=
  (List.pairwise_append.mp h.rising).2.2 g hg t.gauges (List.mem_singleton_self _)

theorem Watched.consumer_le (h : Watched log t) {g : Gauges} (hg : g ∈ log) :
    g.consumer / 2 ≤ t.consumed := by
  have le : g.consumer ≤ 2 * t.consumed := (h.below hg).consumer
  omega

theorem UsedUp.rise {previous index : Nat} (h : UsedUp log t previous index)
    (size : u.size = t.size) (consumed : t.consumed ≤ u.consumed) :
    UsedUp log u previous index := by
  obtain ⟨gone, le, spent⟩ := h
  exact ⟨gone, Nat.le_trans le consumed, size ▸ spent⟩

namespace Allotted

theorem rise (h : Allotted log t gone) (links : u.links = t.links) (size : u.size = t.size)
    (limit : t.limit ≤ u.limit) : Allotted log u gone := by
  have same := lastLink_congr links
  constructor
  case gone_le =>
    rw [same]
    exact h.gone_le
  case within =>
    rw [same, size]
    exact h.within
  case limit =>
    rw [same, size]
    exact Nat.le_trans h.limit limit
  case seen =>
    rw [same]
    exact h.seen

theorem start (size : ChainSize) : Allotted [] (.ofSize size : Tape α) 0 := by
  have none : (ofSize size : Tape α).lastLink = 0 := rfl
  constructor
  case gone_le => exact Nat.zero_le _
  case within =>
    rw [none]
    exact Nat.zero_le _
  case limit =>
    rw [none]
    simp only [ofSize]
    omega
  case seen => exact fun g hg => absurd hg List.not_mem_nil

theorem link (h : t.Valid) (kept : Watched log t) (v : α) :
    Allotted log (t.link v) t.consumed := by
  have ordered := h.consumed_le
  have claimed := h.claimed_le
  have limit := h.limit_le
  have last := lastLink_link t v
  constructor
  case gone_le =>
    rw [last]
    exact ordered
  case within =>
    rw [last]
    exact Nat.le_trans claimed limit
  case limit =>
    rw [last]
    exact Nat.le_refl _
  case seen => exact fun g hg _ => kept.consumer_le hg

theorem noted (h : Allotted log t gone) (valid : t.Valid) :
    Allotted (log ++ [t.gauges]) t gone := by
  refine ⟨h.gone_le, h.within, h.limit, fun g hg => ?_⟩
  rcases List.mem_append.mp hg with old | new
  · exact h.seen g old
  · -- A moment that does not pass the last link is one before any element.
    intro all
    have ordered := valid.consumed_le
    have none := valid.lastLink_eq_zero
    rw [List.mem_singleton.mp new] at all ⊢
    simp only [gauges] at all ⊢
    cases marked : t.marked with
    | true =>
      rw [marked, Bool.toNat_true] at all
      omega
    | false =>
      rw [marked, Bool.toNat_false] at all
      omega

end Allotted

theorem link_holds (room : t.room = .link) :
    t.size.chunkSize - 1 ≤ t.claimed - t.consumed ∧
      t.claimed - t.consumed < t.size.capacity := by
  obtain ⟨-, reach, free⟩ := Valid.room_link room
  rw [Tape.free] at free
  omega

theorem Allotted.link_full (h : Allotted log t gone) (valid : t.Valid) (room : t.room = .link) :
    t.claimed - max t.consumed t.lastLink = t.size.chunkSize - 1 ∨
      t.claimed - max t.consumed t.lastLink < t.size.chunkSize - 1 ∧ t.consumed < t.lastLink ∧
        ∀ g ∈ log, g.producer / 2 ≤ t.lastLink → g.consumer / 2 + t.size.capacity ≤ t.claimed := by
  -- The last chunk is filled up to one slot, or as far as it was given room and the consumer
  -- is still before it.
  obtain ⟨limit, reach, -⟩ := Valid.room_link room
  have window : t.limit < max t.consumed t.lastLink + t.size.chunkSize := valid.limit_lt
  have claimed := valid.claimed_le
  have gone_le := h.gone_le
  have within := h.within
  have allotted := h.limit
  -- The window of the last chunk ends before the limit can pass it. With the consumer in it,
  -- what the consumer leaves free is the one slot; else the allotment is used up.
  have used : t.claimed - max t.consumed t.lastLink = t.size.chunkSize - 1 ∨
      t.claimed - max t.consumed t.lastLink < t.size.chunkSize - 1 ∧
        t.consumed < t.lastLink ∧ gone + t.size.capacity ≤ t.claimed := by omega
  refine used.imp_right fun ⟨short, before, all⟩ => ⟨short, before, fun g hg early => ?_⟩
  have seen := h.seen g hg early
  omega

theorem Allotted.usedUp (h : Allotted log t gone) (kept : Watched log t) (valid : t.Valid)
    (unmarked : t.marked = false) (room : t.room = .link) :
    UsedUp log t t.lastLink t.claimed := by
  obtain ⟨holds, free⟩ := link_holds room
  refine ⟨t.consumed, Nat.le_refl _, fun g hg _ => (kept.below hg).consumer, fun g hg past => ?_,
    holds, free, h.link_full valid room⟩
  have le : g.producer ≤ 2 * t.claimed + t.marked.toNat := (kept.below hg).producer
  rw [unmarked, Bool.toNat_false] at le
  omega

namespace Rationed

theorem start (size : ChainSize) : Rationed [] (.ofSize size : Tape α) where
  watched := ⟨List.pairwise_singleton _ _, fun _ h => absurd h List.not_mem_nil⟩
  allotted := ⟨0, .start size⟩
  linked _ _ hr := absurd (List.mem_of_getElem? hr) List.not_mem_nil
  pending marked := absurd marked Bool.false_ne_true

theorem rise (h : Rationed log t) (watched : Watched log u) (size : u.size = t.size)
    (links : u.links = t.links) (limit : t.limit ≤ u.limit) (consumed : t.consumed ≤ u.consumed)
    (pending : u.marked = true → UsedUp log t t.lastLink u.claimed) : Rationed log u where
  watched := watched
  allotted := by
    obtain ⟨gone, allotted⟩ := h.allotted
    exact ⟨gone, allotted.rise links size limit⟩
  linked k r hr := by
    rw [links] at hr
    rw [start_congr links]
    exact (h.linked k r hr).rise size consumed
  pending marked := by
    rw [lastLink_congr links]
    exact (pending marked).rise size consumed

theorem link (h : Rationed log t) (valid : t.Valid) (marked : t.marked = true) (v : α) :
    Rationed log (t.link v) where
  watched := watched_logbook.link h.watched valid marked v
  allotted := ⟨_, .link valid h.watched v⟩
  linked k r hr := by
    have links : (t.link v).links = t.links ++ [t.claimed] := rfl
    rw [links] at hr
    rcases Nat.lt_or_ge k t.links.length with old | new
    · rw [List.getElem?_append_left old] at hr
      rw [start_append links (Nat.le_of_lt old)]
      exact (h.linked k r hr).rise rfl (Nat.le_refl _)
    · obtain ⟨rfl, rfl⟩ : k = t.links.length ∧ r = t.claimed := by
        rw [List.getElem?_append_right new] at hr
        obtain ⟨within, same⟩ := List.getElem?_eq_some_iff.mp hr
        rw [List.length_singleton] at within
        rw [List.getElem_singleton] at same
        exact ⟨by omega, same.symm⟩
      rw [start_append links (Nat.le_refl _)]
      exact (h.pending marked).rise rfl (Nat.le_refl _)
  pending marked := absurd marked Bool.false_ne_true

theorem noted (h : Rationed log t) (valid : t.Valid) : Rationed (log ++ [t.gauges]) t where
  watched := h.watched.noted valid
  allotted := by
    obtain ⟨gone, allotted⟩ := h.allotted
    exact ⟨gone, allotted.noted valid⟩
  linked k r hr := by
    obtain ⟨gone, le, spent⟩ := h.linked k r hr
    have below := (valid.linked r (List.mem_of_getElem? hr)).1
    have inside := (List.getElem?_eq_some_iff.mp hr).1
    have passed : t.start k < r := by
      have next := valid.start_lt (Nat.lt_succ_self k) inside
      rwa [start_succ hr] at next
    refine ⟨gone, le, spent.noted ?_ passed (Nat.mul_le_mul_left 2 le)⟩
    simp only [gauges]
    omega
  pending marked := by
    obtain ⟨gone, le, spent⟩ := h.pending marked
    have passed : t.lastLink < t.claimed := by
      obtain ⟨-, pos, -⟩ := valid.marked marked
      refine Nat.lt_of_not_le fun all => ?_
      have none := valid.lastLink_eq_zero all
      omega
    refine ⟨gone, le, spent.noted ?_ passed (Nat.mul_le_mul_left 2 le)⟩
    simp only [gauges, marked, Bool.toNat_true]
    exact Nat.lt_succ_self _

end Rationed

theorem rationed_logbook : Logbook (Rationed (α := α)) where
  grant h valid unmarked room wanted := by
    obtain ⟨raised, -, -, -⟩ := valid.room_below room
    exact h.rise (watched_logbook.grant h.watched valid unmarked room wanted) rfl rfl raised
      (Nat.le_refl _) fun marked => absurd (unmarked.symm.trans marked) Bool.false_ne_true
  mark h valid unmarked room := by
    obtain ⟨gone, allotted⟩ := h.allotted
    exact h.rise (watched_logbook.mark h.watched valid unmarked room) rfl rfl (Nat.le_refl _)
      (Nat.le_refl _) fun _ => allotted.usedUp h.watched valid unmarked room
  store h i v :=
    h.rise (watched_logbook.store h.watched i v) rfl rfl (Nat.le_refl _) (Nat.le_refl _) h.pending
  link h valid marked v := h.link valid marked v
  handOut h v :=
    h.rise (watched_logbook.handOut h.watched v) rfl rfl (Nat.le_refl _) (Nat.le_succ _) h.pending
  noted h valid := h.noted valid

theorem offer_links (t : Tape α) (v : α) (memory : F) :
    t.room = .link ∨
      (channelAfter (Act.onQueue (offer v) (⟨t, memory⟩ : World (Tape α) F))).links = t.links := by
  rcases claim_cases t 1 with hx | hx | ⟨limit, -, -, hx⟩ | ⟨-, room, -⟩
  · have ran : offer v t = .error .spinning t := Act.bind_error hx _
    rw [Act.onQueue_error ran]
    exact .inr rfl
  · have ran : offer v t = .ok (.error ⟨v⟩) t := Act.bind_ok hx _
    rw [Act.onQueue_ok ran]
    exact .inr rfl
  · have ran : offer v t = .ok (.ok ()) ((t.grant limit 1).store t.claimed v) :=
      Act.bind_ok hx _
    rw [Act.onQueue_ok ran]
    exact .inr rfl
  · exact .inl room

theorem fill_links (t : Tape α) (supply : F → α × F) (wanted : Nat) (memory : F) :
    t.room = .link ∨
      (channelAfter (fill (Client.own supply : Client α F true .both α).run wanted
        ⟨t, memory⟩)).links = t.links := by
  rcases claim_cases t wanted with hx | hx | ⟨limit, -, -, hx⟩ | ⟨-, room, -⟩
  · rw [fill, Act.bind_error (Act.onQueue_error hx)]
    exact .inr rfl
  · rw [fill, Act.bind_ok (Act.onQueue_ok hx)]
    exact .inr rfl
  · rw [fill, Act.bind_ok (Act.onQueue_ok hx)]
    simp only
    rw [Act.bind_ok (writeRun_own supply _ t.claimed _ memory), storeAll_eq]
    exact .inr rfl
  · exact .inl room

end Tape

namespace Chain

/-- Where the chunk of report number `k` begins. The first report is that of the chain, which
begins with a chunk. -/
def linkedAt (q : Chain α) (k : Nat) : Nat :=
  match q.journal[k]? with
  | some (.chunkLinked index _) => index
  | _ => 0

def lastLink (q : Chain α) : Nat := q.linkedAt (q.journal.size - 1)

/-- The elements in the producers' chunk that are claimed and not consumed. -/
def inTail (q : Chain α) : Nat := q.produced - max q.consumed q.lastLink

def Grows (q : Chain α) {β : Type} (call : Client α F true .both β) (memory : F) : Prop :=
  (channelAfter (call.run ⟨q, memory⟩)).journal ≠ q.journal

/-- A chain that cannot do without another chunk, after a run in which `moments` were
seen and `written` is what its producers wrote. It holds what a chunk can take and is
not full. Its last chunk holds all that a chunk can take. Else the consumer is not there
yet, and the producers have used what room the chain had at all moments up to
the one when that chunk was linked. -/
structure OutOfRoom (q : Chain α) (written : Nat → Option α) (moments : List Gauges) : Prop where
  holds : q.chunkSize - 1 ≤ q.length
  room : q.length < q.capacity
  stored : (∀ i, q.consumed ≤ i → i < q.produced → (written i).isSome = true) →
    (q.store.valuesOf q.tail.chunk).length = q.inTail
  tail : q.inTail = q.chunkSize - 1 ∨
    q.inTail < q.chunkSize - 1 ∧ q.consumed < q.lastLink ∧
      ∀ g ∈ moments, g.producer / 2 ≤ q.lastLink → g.consumer / 2 + q.capacity ≤ q.produced

namespace Models

variable {q q' : Chain α} {t t' : Tape α}

theorem journal_size (h : q.Models t) : q.journal.size = t.links.length + 1 := by
  rw [← Array.length_toList, h.journal, List.length_cons, List.length_map]

theorem report_eq (h : q.Models t) (k : Nat) :
    q.journal[k + 1]? = t.links[k]?.map (.chunkLinked · t.size.chunkSize) := by
  rw [← Array.getElem?_toList, h.journal, List.getElem?_cons_succ, List.getElem?_map]

theorem linkedAt_eq (h : q.Models t) {k : Nat} (hk : k ≤ t.links.length) :
    q.linkedAt k = t.start k := by
  cases k with
  | zero =>
      rw [linkedAt, ← Array.getElem?_toList, h.journal]
      rfl
  | succ k =>
      have linked := List.getElem?_eq_getElem hk
      rw [linkedAt, h.report_eq, linked, Tape.start_succ linked]
      rfl

theorem lastLink_eq (h : q.Models t) : q.lastLink = t.lastLink := by
  rw [lastLink, h.journal_size, Nat.add_sub_cancel, h.linkedAt_eq (Nat.le_refl _), Tape.lastLink]

theorem inTail_eq (h : q.Models t) : q.inTail = t.claimed - max t.consumed t.lastLink := by
  rw [inTail, h.produced_eq, h.consumed_eq, h.lastLink_eq]

theorem journal_eq (h : q.Models t) (h' : q'.Models t') (size : t'.size = t.size)
    (links : t'.links = t.links) : q'.journal = q.journal := by
  apply Array.toList_inj.mp
  rw [h'.journal, h.journal, size, links]

theorem nodup_chunkOrder (t : Tape α) (c : Nat) : (chunkOrder t c).Nodup := by
  refine ((Index.pairwise_slotOrder _ _).filter _).imp fun lt => ?_
  rintro rfl
  exact Nat.lt_irrefl _ lt

theorem mem_chunkOrder_last (h : q.Models t) (i : Nat) :
    i ∈ chunkOrder t t.links.length ↔
      t.base t.links.length ≤ i ∧ (t.written i).isSome = true := by
  have next : ∀ r, t.links[t.links.length]? = some r → i < r := Links.lt_next_last i
  rw [chunkOrder, List.mem_filter, Index.mem_slotOrder, value_of_next next]
  constructor
  · rintro ⟨⟨lo, -⟩, written⟩
    exact ⟨lo, written⟩
  · rintro ⟨lo, written⟩
    obtain ⟨v, hv⟩ := Option.isSome_iff_exists.mp written
    have claimed := h.valid.lt_claimed_of_written hv
    exact ⟨⟨lo, h.valid.lt_window (Nat.le_refl _) claimed next⟩, written⟩

theorem stored_in_tail (h : q.Models t)
    (whole : ∀ i, t.consumed ≤ i → i < t.claimed → (t.written i).isSome = true) :
    (q.store.valuesOf q.tail.chunk).length = q.inTail := by
  have members : ∀ i, i ∈ chunkOrder t t.links.length ↔
      i ∈ List.range' (t.base t.links.length) (t.claimed - t.base t.links.length) := by
    intro i
    rw [h.mem_chunkOrder_last, List.mem_range'_1]
    constructor
    · rintro ⟨lo, written⟩
      obtain ⟨v, hv⟩ := Option.isSome_iff_exists.mp written
      have claimed := h.valid.lt_claimed_of_written hv
      omega
    · rintro ⟨lo, hi⟩
      have lower : t.consumed ≤ i := Nat.le_trans (Nat.le_max_left _ _) lo
      exact ⟨lo, whole i lower (by omega)⟩
  have perm := (List.perm_ext_iff_of_nodup (nodup_chunkOrder t _) List.nodup_range').mpr members
  have last : q.tail.chunk = t.links.length := by rw [h.tail]
  have live := h.mem_live.mpr ⟨h.head_le, Nat.le_refl _⟩
  have count := congrArg List.length (h.values_of_live live)
  rw [List.length_map, List.length_map, perm.length_eq, List.length_range'] at count
  rw [last, count, h.inTail_eq]
  rfl

theorem outOfRoom (h : q.Models t) (room : t.room = .link) {moments : List Gauges}
    (kept : t.Rationed moments) : q.OutOfRoom t.written moments := by
  obtain ⟨holds, free⟩ := Tape.link_holds room
  obtain ⟨gone, allotted⟩ := kept.allotted
  constructor
  case holds =>
    rw [h.chunkSize_eq, h.length_eq]
    exact holds
  case room =>
    rw [h.length_eq, h.capacity_eq]
    exact free
  case stored =>
    rw [h.consumed_eq, h.produced_eq]
    exact h.stored_in_tail
  case tail =>
    rw [h.inTail_eq, h.chunkSize_eq, h.consumed_eq, h.lastLink_eq, h.capacity_eq, h.produced_eq]
    exact allotted.link_full h.valid room

theorem room_of_claim (h : q.Models t) {wanted : Nat} {site : Site}
    (claimed : claim wanted q = .ok (.link site) q') : t.room = .link := by
  cases marked : t.marked with
  | true =>
      rw [h.claim_marked marked] at claimed
      cases claimed
  | false =>
      rw [h.claim_open marked] at claimed
      cases room : t.room with
      | link => rfl
      | full | below limit =>
          rw [room] at claimed
          cases claimed

theorem room_of_grows (h : q.Models t) {β : Type} {call : Client α F true .both β} {memory : F}
    (links : t.room = .link ∨ (channelAfter (call.run ⟨t, memory⟩)).links = t.links)
    (grows : q.Grows call memory) : t.room = .link := by
  rcases links with room | same
  · exact room
  · obtain ⟨-, -, models, later⟩ := (tape α).agree h call memory
    exact absurd (h.journal_eq models later.size same) grows

/-- Each report of a link is of one that the notes account for. -/
theorem spent_of_reported (h : q.Models t) {moments : List Gauges} (kept : t.Rationed moments)
    {k index size : Nat} (reported : q.journal[k]? = some (.chunkLinked index size)) :
    ∃ gone, gone ≤ q.consumed ∧
      Spent moments q.chunkSize q.capacity (q.linkedAt (k - 1)) index gone := by
  cases k with
  | zero =>
      rw [← Array.getElem?_toList, h.journal] at reported
      cases reported
  | succ k =>
      rw [h.report_eq, Option.map_eq_some_iff] at reported
      obtain ⟨r, linked, same⟩ := reported
      cases same
      have inside := (List.getElem?_eq_some_iff.mp linked).1
      rw [Nat.add_sub_cancel, h.linkedAt_eq (Nat.le_of_lt inside), h.consumed_eq, h.chunkSize_eq,
        h.capacity_eq]
      exact kept.linked k index linked

end Models

/-- What is noted of the tape of a client's run is true of the moments that are seen of
the chain. -/
theorem keeps_notes {q₀ : Chain α} (made : q₀.Made) {notes : List Gauges → Tape α → Prop}
    (book : Tape.Logbook notes) (start : notes [] q₀.blank) {β : Type}
    (client : Client α E true .both β) (env : E) :
    notes (verdict (client.watched gauges ⟨q₀, (env, [])⟩)).2.2
      (channelAfter (client.run ⟨q₀.blank, env⟩)) := by
  have seen := client.watched_follows (tape α) (fun _ _ h => h.gauges_eq) ⟨q₀, (env, [])⟩
    ⟨q₀.blank, (env, [])⟩ ⟨rfl, made.models⟩
  have kept := book.keeps_client client ⟨q₀.blank, env⟩ ⟨q₀.blank, (env, [])⟩
    ⟨made.models.valid, rfl, start⟩
  obtain ⟨-, ⟨log, -⟩, -⟩ := seen.ends
  obtain ⟨-, beside, -⟩ := kept.ends
  obtain ⟨-, -, -, noted⟩ := beside.holds
  rw [← log] at noted
  exact noted

/-- Whatever is called, in callbacks or not, and wherever the run is stopped, a chunk is linked
only where the chain is out of room. The first part is about an offer that comes next. The
second is about the claim with which any offer and any batch begins, whatever its callbacks
will do before the chunk is linked; the third about a batch whose callbacks leave the chain
alone. The last is about all links of the run itself: when the index of the link was marked,
the chunk before had no room. -/
theorem links_out_of_room {q₀ : Chain α} (made : q₀.Made) {β : Type}
    (client : Client α E true .both β) (env : E) :
    let q := channelAfter (client.run ⟨q₀, env⟩)
    let written := (channelAfter (client.run ⟨q₀.blank, env⟩)).written
    let moments := (verdict (client.watched gauges ⟨q₀, (env, [])⟩)).2.2 ++ [q.gauges]
    (∀ (v : α) (memory : F), q.Grows (.call rfl (.offer v)) memory →
      q.OutOfRoom written moments) ∧
    (∀ (wanted : Nat) (site : Site) (q' : Chain α), claim wanted q = .ok (.link site) q' →
      q.OutOfRoom written moments) ∧
    (∀ (supply : F → α × F) (wanted : Nat) (memory : F),
      q.Grows (.fill rfl (.own supply) wanted) memory → q.OutOfRoom written moments) ∧
    ∀ (k index size : Nat), q.journal[k]? = some (.chunkLinked index size) →
      ∃ gone, gone ≤ q.consumed ∧
        Spent moments q.chunkSize q.capacity (q.linkedAt (k - 1)) index gone := by
  intro q written moments
  obtain ⟨-, -, models, -⟩ := (tape α).agree made.models client env
  have kept := Tape.rationed_logbook.noted
    (keeps_notes made Tape.rationed_logbook (.start _) client env) (Models.valid models)
  rw [← Models.gauges_eq models] at kept
  refine ⟨fun v memory grows => ?_, fun wanted site q' claimed => ?_,
    fun supply wanted memory grows => ?_, fun k index size reported => ?_⟩
  · have room := Models.room_of_grows models (Tape.offer_links _ v memory) grows
    exact Models.outOfRoom models room kept
  · exact Models.outOfRoom models (Models.room_of_claim models claimed) kept
  · have room := Models.room_of_grows models (Tape.fill_links _ supply wanted memory) grows
    exact Models.outOfRoom models room kept
  · exact Models.spent_of_reported models kept reported

/-- For a chain of eight elements in chunks of four: it is filled up and one element is
taken. The third chunk is linked when there is room for two. -/
def topUp : List (Order Nat Nat) := [.fillAll fun n => (n, n + 1), .poll]

/-- A chunk is linked by an offer near the capacity, and by a batch whose supply polls all
the elements that were in while the chunk is being linked. -/
theorem links_out_of_room_near_capacity :
    let q₀ : Chain Nat := ofSize ⟨4, 8⟩
    let after (client : Client Nat Nat true .both Nat) := channelAfter (client.run ⟨q₀, 0⟩)
    let written (client : Client Nat Nat true .both Nat) :=
      (channelAfter (client.run ⟨q₀.blank, 0⟩)).written
    let moments (client : Client Nat Nat true .both Nat) :=
      (verdict (client.watched gauges ⟨q₀, (0, [])⟩)).2.2 ++ [(after client).gauges]
    let full : Client Nat Nat true .both Nat := .bind (Order.clientOf topUp) fun _ => .done 0
    let emptying : Client Nat Nat true .both Nat :=
      .bind (.fill rfl (.done 5) 3) fun _ =>
      .fill rfl (.bind (.call rfl .poll) fun _ => .bind (.call rfl .poll) fun _ =>
        .bind (.call rfl .poll) fun _ => .done 9) 1
    q₀.Made ∧ (after full).Grows (.call rfl (.offer 9) : Client Nat Nat true .both _) 0 ∧
      (after full).OutOfRoom (written full) (moments full) ∧
      (after emptying).consumed = 3 ∧ (after emptying).journal[1]? = some (.chunkLinked 3 4) ∧
      ∃ gone, gone ≤ (after emptying).consumed ∧ Spent (moments emptying) (after emptying).chunkSize
        (after emptying).capacity ((after emptying).linkedAt 0) 3 gone := by
  intro q₀ after written moments full emptying
  have made : q₀.Made := .inl ⟨4, 8, rfl⟩
  have grows : (after full).Grows (.call rfl (.offer 9) : Client Nat Nat true .both _) 0 := by
    unfold Grows
    decide +kernel
  have reported : (after emptying).journal[1]? = some (.chunkLinked 3 4) := by decide +kernel
  obtain ⟨-, -, -, linked⟩ := links_out_of_room (F := Nat) made emptying 0
  exact ⟨made, grows, (links_out_of_room made full 0).1 9 0 grows, by decide +kernel, reported,
    linked 1 3 4 reported⟩

/-- So a chunk may be linked where the last one does not hold what a chunk can take, even
if calls are made one after another. -/
theorem grows_early :
    ¬ ∀ (q₀ : Chain Nat) (orders : List (Order Nat Nat)) (v : Nat), q₀.Made →
      let q := channelAfter ((Order.clientOf orders).run ⟨q₀, 0⟩)
      q.Grows (.call rfl (.offer v) : Client Nat Nat true .both _) 0 →
        (q.store.valuesOf q.tail.chunk).length = q.chunkSize - 1 := by
  intro full
  have filled := full (ofSize ⟨4, 8⟩) topUp 9 (.inl ⟨4, 8, rfl⟩)
  generalize hq : channelAfter ((Order.clientOf topUp).run
    (⟨ofSize ⟨4, 8⟩, 0⟩ : World (Chain Nat) Nat)) = q at filled
  have grows : q.Grows (.call rfl (.offer 9) : Client Nat Nat true .both _) 0 := by
    rw [← hq, Grows]
    decide +kernel
  have two : (q.store.valuesOf q.tail.chunk).length = 2 := by
    rw [← hq]
    decide +kernel
  have four : q.chunkSize = 4 := by
    rw [← hq]
    decide +kernel
  have three := filled grows
  rw [two, four] at three
  exact absurd three (by decide)

end Chain
end Handoff
