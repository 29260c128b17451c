import Handoff.Proofs.Ring

/-! Every call on a ring does what the same call does on its list. For the batch
calls the invariant is the one that lets the producer write without a look: its
index is that of the ring, and the slots it takes for free lie in the window.
Callbacks hold the other handle at most, so they move the window on and leave the
index where it is. -/
namespace Handoff.Ring

variable {α E : Type} {h : Handles}

theorem offer_tracks (free : h.has .producer = true) (v : α) :
    Tracks Models (Fifo.moves α h) (offer v) (Fifo.offer v) := by
  intro q f hqf
  obtain ⟨q', hroom, hq'⟩ := hqf.hasRoom
  rw [offer, Act.bind_view, hqf.produced, Act.bind_ok hroom, Fifo.offer, Act.bind_view]
  cases full : f.isFull with
  | true => exact .ok ⟨hq', .refl h f⟩
  | false =>
      obtain ⟨q'', hpub, hq''⟩ := hq'.publish (by simpa [Fifo.isFull] using full) v
      have done : (Ring.publish f.produced v >>= fun _ => pure (.ok ()) :
          Act (Ring α) (Except (Full α) Unit)) q' = .ok (.ok ()) q'' := Act.bind_ok hpub _
      exact .of_ok done rfl ⟨hq'', .append free f v⟩

/-- What a poll of `f` leads to: the count moves on by one if an element was found. -/
def Polled (h : Handles) (f : Fifo α) (found : Option α) (q' : Ring α) (f' : Fifo α) : Prop :=
  Lands Models (Fifo.moves α h) f q' f' ∧
    f'.consumed = if found.isSome then f.consumed + 1 else f.consumed

theorem pollAt_agree (free : h.has .consumer = true) {q : Ring α} {f : Fifo α} (hqf : q.Models f) :
    Agree (Polled h f) (Lands Models (Fifo.moves α h) f) (pollAt f.consumed q) (Fifo.poll f) := by
  rw [pollAt, Act.bind_view, hqf.vacantAt_consumed, Fifo.poll, Act.bind_view]
  cases items : f.items with
  | nil => exact .ok ⟨⟨hqf, .refl h f⟩, rfl⟩
  | cons v rest =>
      obtain ⟨q', hrel, hq'⟩ := hqf.release items
      have done : (Ring.release f.consumed >>= fun v => pure (some v) : Act (Ring α) (Option α)) q =
          .ok (some v) q' := Act.bind_ok hrel _
      have later : Fifo.Later h f { f with items := rest, consumed := f.consumed + 1 } :=
        ⟨rfl, rfl, Nat.le_refl _, Nat.le_succ _, fun _ => rfl,
          fun none => absurd (none.symm.trans free) Bool.false_ne_true⟩
      exact .of_ok done rfl ⟨⟨hq', later⟩, rfl⟩

theorem poll_tracks (free : h.has .consumer = true) :
    Tracks Models (Fifo.moves α h) poll Fifo.poll := by
  intro q f hqf
  rw [poll, Act.bind_view, hqf.consumed]
  exact (pollAt_agree free hqf).mono (fun _ _ _ h' => h'.1) fun _ _ h' => h'

theorem peek_tracks : Tracks Models (Fifo.moves α h) peek Fifo.peek := by
  intro q f hqf
  rw [peek, Act.bind_view, Act.bind_view, hqf.consumed, hqf.vacantAt_consumed, Fifo.peek]
  cases items : f.items with
  | nil => exact .of_ok rfl (by simp [Act.view, items]) ⟨hqf, .refl h f⟩
  | cons v rest =>
      have hpos := hqf.burst_lt
      have here : q.chunk.slot? (f.consumed % f.capacity) = some (.value v) := by
        rw [hqf.shown.slot f.consumed (Nat.le_refl _) (by omega), items]
        simp
      refine .of_ok (x := some v) ?_ (by simp [Act.view, items]) ⟨hqf, .refl h f⟩
      simp only [List.isEmpty_cons, Bool.false_eq_true, if_false]
      rw [Act.bind_view, capacity, hqf.slotOf_eq, Act.bind_ok (onChunk_ok (Chunk.get_ok here)),
        Act.pure_apply]

theorem look_tracks :
    Tracks Models (Fifo.moves α h) (Act.view Channel.indicators) (Act.view Channel.indicators) :=
  fun _ f hqf => .of_ok (congrArg (EStateM.Result.ok · _) hqf.indicators_eq) rfl ⟨hqf, .refl h f⟩

/-- The worlds of a batch call on the producer's side, after `index` elements. -/
def Filling (h : Handles) (v₀ : World (Fifo α) E) (index : Nat) (w : World (Ring α) E)
    (v : World (Fifo α) E) : Prop :=
  Reaches Models (Fifo.moves α h) v₀ w v ∧ v.queue.produced = index

variable {supply : Act (World (Ring α) E) α} {supply' : Act (World (Fifo α) E) α}
  {v₀ : World (Fifo α) E}

theorem Filling.callback {β : Type} (free : h.has .producer = true)
    {act : Act (World (Ring α) E) β} {act' : Act (World (Fifo α) E) β}
    (ha : Follows Models (Fifo.moves α (h.lend false .producer)) act act')
    {index : Nat} {w : World (Ring α) E} {v : World (Fifo α) E} (hwv : Filling h v₀ index w v) :
    Agree (fun _ w' v' => Filling h v₀ index w' v' ∧
        v.queue.consumed ≤ v'.queue.consumed ∧ v'.queue.capacity = v.queue.capacity)
      (Reaches Models (Fifo.moves α h) v₀) (act w) (act' v) := by
  obtain ⟨⟨hj, hl⟩, hi⟩ := hwv
  refine (ha w v hj).mono ?_ ?_
  · rintro _ w' v' ⟨hj', hlent⟩
    have same : v'.queue.produced = v.queue.produced := hlent.produced rfl
    exact ⟨⟨⟨hj', hl.trans (.of_lent free hlent)⟩, same.trans hi⟩, hlent.consumed_le,
      hlent.capacity⟩
  · rintro w' v' ⟨hj', hlent⟩
    exact ⟨hj', hl.trans (.of_lent free hlent)⟩

theorem supplyAt_agree (free : h.has .producer = true)
    (hs : Follows Models (Fifo.moves α (h.lend false .producer)) supply supply')
    {index : Nat} {w : World (Ring α) E} {v : World (Fifo α) E} (hwv : Filling h v₀ index w v)
    (room : index < v.queue.consumed + v.queue.capacity) :
    Agree (fun _ w' v' => Filling h v₀ (index + 1) w' v' ∧
        v.queue.consumed ≤ v'.queue.consumed ∧ v'.queue.capacity = v.queue.capacity)
      (Reaches Models (Fifo.moves α h) v₀)
      (supplyAt supply index w) (Fifo.supplyOne supply' v) := by
  refine .bind (hwv.callback free hs) ?_
  rintro x w' v' ⟨⟨⟨⟨henv, hq⟩, hl⟩, hi⟩, hc, hcap⟩
  have hb := hq.balance
  obtain ⟨q', hpub, hq'⟩ := hq.publish (by omega) x
  rw [hi] at hpub
  refine .of_ok (Act.onQueue_ok hpub) rfl ⟨⟨⟨⟨henv, hq'⟩, ?_⟩, congrArg (· + 1) hi⟩, hc, hcap⟩
  exact hl.trans (.append free v'.queue x)

theorem fillFrom_agree (free : h.has .producer = true)
    (hs : Follows Models (Fifo.moves α (h.lend false .producer)) supply supply')
    (left : Nat) : ∀ (index known done : Nat) (w : World (Ring α) E) (v : World (Fifo α) E),
      Filling h v₀ index w v → index + known ≤ v.queue.consumed + v.queue.capacity →
      Agree (fun _ => Reaches Models (Fifo.moves α h) v₀) (Reaches Models (Fifo.moves α h) v₀)
        (fillFrom supply index known done left w) (Fifo.fillFrom supply' done left v) := by
  induction left with
  | zero =>
      intro index known done w v hwv _
      cases known <;> exact .ok hwv.1
  | succ left ih =>
      -- One more element, and then as many free slots as `known` says.
      have step : ∀ (index known done : Nat) (w : World (Ring α) E) (v : World (Fifo α) E),
          Filling h v₀ index w v → index + 1 + known ≤ v.queue.consumed + v.queue.capacity →
          Agree (fun _ => Reaches Models (Fifo.moves α h) v₀) (Reaches Models (Fifo.moves α h) v₀)
            ((supplyAt supply index >>= fun _ =>
              fillFrom supply (index + 1) known (done + 1) left) w)
            (Fifo.fillFrom supply' done (left + 1) v) := by
        intro index known done w v hwv hk
        have hb := hwv.1.1.2.balance
        have notFull : v.queue.isFull = false := by
          have := hwv.2
          simp only [Fifo.isFull, decide_eq_false_iff_not]
          omega
        rw [Fifo.fillFrom, Act.bind_onQueue_view, notFull]
        refine .bind (supplyAt_agree free hs hwv (by omega)) ?_
        rintro _ w' v' ⟨hwv', hc, hcap⟩
        exact ih (index + 1) known (done + 1) w' v' hwv' (by omega)
      intro index known done w v hwv hk
      cases known with
      | succ known => exact step index known done w v hwv (by omega)
      | zero =>
          obtain ⟨⟨⟨henv, hq⟩, hl⟩, rfl⟩ := hwv
          have hb := hq.balance
          have hpos := hq.burst_pos
          have hla := hq.lookAhead
          rw [fillFrom, Act.bind_onQueue_view, hq.vacantAhead_produced]
          split
          next ahead =>
              have ahead := of_decide_eq_true ahead
              rw [Act.bind_onQueue_view]
              exact step _ _ done w v ⟨⟨⟨henv, hq⟩, hl⟩, rfl⟩ (by omega)
          next =>
              rw [Act.bind_onQueue_view, hq.vacantAt_produced]
              cases full : v.queue.isFull with
              | false =>
                  have room : v.queue.items.length < v.queue.capacity := by
                    simpa [Fifo.isFull] using full
                  exact step _ _ done w v ⟨⟨⟨henv, hq⟩, hl⟩, rfl⟩ (by omega)
              | true =>
                  rw [Fifo.fillFrom, Act.bind_onQueue_view, full]
                  exact .ok ⟨⟨henv, hq⟩, hl⟩

theorem supplyRun_agree (free : h.has .producer = true)
    (hs : Follows Models (Fifo.moves α (h.lend false .producer)) supply supply')
    (count : Nat) : ∀ (index : Nat) (w : World (Ring α) E) (v : World (Fifo α) E),
      Filling h v₀ index w v → index + count ≤ v.queue.consumed + v.queue.capacity →
      Agree (fun _ => Filling h v₀ (index + count))
        (Reaches Models (Fifo.moves α h) v₀)
        (supplyRun supply index count w) (Fifo.supplyRun supply' count v) := by
  induction count with
  | zero => exact fun index w v hwv _ => .ok hwv
  | succ count ih =>
      intro index w v hwv room
      refine .bind (supplyAt_agree free hs hwv (by omega)) ?_
      rintro _ w' v' ⟨hwv', hc, hcap⟩
      have next := ih (index + 1) w' v' hwv' (by omega)
      rwa [Nat.add_assoc, Nat.add_comm 1] at next

theorem fillLoop_agree (free : h.has .producer = true)
    (hs : Follows Models (Fifo.moves α (h.lend false .producer)) supply supply')
    {wait : UInt64 → Act (World (Ring α) E) UInt64} {wait' : UInt64 → Act (World (Fifo α) E) UInt64}
    (hw : ∀ counter, Follows Models (Fifo.moves α (h.lend false .producer)) (wait counter)
      (wait' counter))
    {keep : Act (World (Ring α) E) Bool} {keep' : Act (World (Fifo α) E) Bool}
    (hk : Follows Models (Fifo.moves α (h.lend false .producer)) keep keep')
    (polls : Nat) : ∀ (index : Nat) (counter : UInt64) (w : World (Ring α) E)
      (v : World (Fifo α) E), Filling h v₀ index w v →
      Agree (fun _ => Reaches Models (Fifo.moves α h) v₀) (Reaches Models (Fifo.moves α h) v₀)
        (fillLoop supply wait keep polls index counter w)
        (Fifo.fillLoop supply' wait' keep' polls counter v) := by
  induction polls with
  | zero => exact fun index counter w v hwv => .error (by decide) hwv.1
  | succ polls ih =>
      intro index counter w v hwv
      refine .bind (hwv.callback free hk) ?_
      rintro goesOn w' v' ⟨hwv', -, -⟩
      cases goesOn with
      | false => exact .ok hwv'.1
      | true =>
          have hq := hwv'.1.1.2
          have hb := hq.balance
          have hi : v'.queue.produced = index := hwv'.2
          obtain ⟨burst, hburst⟩ : ∃ n, v'.queue.burst = n + 1 :=
            Nat.exists_eq_add_one_of_ne_zero (Nat.ne_of_gt hq.burst_pos)
          -- The ring's probes come to the allowance of the list.
          simp only [if_true]
          rw [Act.bind_onQueue_view, Act.bind_onQueue_view, ← hi, hq.vacantAhead_produced,
            Fifo.allowance]
          split
          next ahead =>
              have ahead := of_decide_eq_true ahead
              rw [if_pos ahead, Act.bind_onQueue_view, hq.lookAhead, hburst]
              refine .bind (supplyRun_agree free hs (burst + 1) _ w' v' (hi ▸ hwv') (by omega)) ?_
              exact fun _ w'' v'' hwv'' => ih _ 0 w'' v'' hwv''
          next ahead =>
              have ahead : ¬v'.queue.items.length + v'.queue.burst < v'.queue.capacity := by
                simpa using ahead
              rw [if_neg ahead, Act.bind_onQueue_view, hq.vacantAt_produced]
              by_cases room : v'.queue.items.length < v'.queue.capacity
              · have notFull : v'.queue.isFull = false := by simpa [Fifo.isFull] using room
                rw [notFull, if_pos room]
                simp only [Nat.zero_add, Fifo.supplyRun_one]
                refine .bind (supplyAt_agree free hs (hi ▸ hwv') (by omega)) ?_
                exact fun _ w'' v'' hwv'' => ih _ 0 w'' v'' hwv''.1
              · have full : v'.queue.isFull = true := by simpa [Fifo.isFull] using room
                rw [full, if_neg room]
                refine .bind (hwv'.callback free (hw counter)) ?_
                rintro counter w'' v'' ⟨hwv'', -, -⟩
                exact hi ▸ ih index counter w'' v'' hwv''

/-- The worlds of a batch call on the consumer's side, before the element `index`. -/
def Draining (h : Handles) (v₀ : World (Fifo α) E) (index : Nat) (w : World (Ring α) E)
    (v : World (Fifo α) E) : Prop :=
  Reaches Models (Fifo.moves α h) v₀ w v ∧ v.queue.consumed = index

theorem Draining.callback {β : Type} (free : h.has .consumer = true)
    {act : Act (World (Ring α) E) β} {act' : Act (World (Fifo α) E) β}
    (ha : Follows Models (Fifo.moves α (h.lend false .consumer)) act act')
    {index : Nat} {w : World (Ring α) E} {v : World (Fifo α) E} (hwv : Draining h v₀ index w v) :
    Agree (fun _ => Draining h v₀ index)
      (Reaches Models (Fifo.moves α h) v₀) (act w) (act' v) := by
  obtain ⟨⟨hj, hl⟩, hi⟩ := hwv
  refine (ha w v hj).mono ?_ ?_
  · rintro _ w' v' ⟨hj', hlent⟩
    have same : v'.queue.consumed = v.queue.consumed := hlent.consumed rfl
    exact ⟨⟨hj', hl.trans (.of_lent free hlent)⟩, same.trans hi⟩
  · rintro w' v' ⟨hj', hlent⟩
    exact ⟨hj', hl.trans (.of_lent free hlent)⟩

theorem Draining.pollAt (free : h.has .consumer = true) {index : Nat} {w : World (Ring α) E}
    {v : World (Fifo α) E} (hwv : Draining h v₀ index w v) :
    Agree (fun found => Draining h v₀ (if found.isSome then index + 1 else index))
      (Reaches Models (Fifo.moves α h) v₀)
      (Act.onQueue (Ring.pollAt index) w) (Act.onQueue Fifo.poll v) := by
  obtain ⟨⟨⟨henv, hq⟩, hl⟩, rfl⟩ := hwv
  refine (Agree.onQueue henv (pollAt_agree free hq)).mono ?_ ?_
  · rintro found w' v' ⟨henv', ⟨hq', hl'⟩, hc⟩
    exact ⟨⟨⟨henv', hq'⟩, hl.trans hl'⟩, hc⟩
  · rintro w' v' ⟨henv', hq', hl'⟩
    exact ⟨⟨henv', hq'⟩, hl.trans hl'⟩

variable {consume : α → Act (World (Ring α) E) Unit} {consume' : α → Act (World (Fifo α) E) Unit}

theorem drainFrom_agree (free : h.has .consumer = true)
    (hc : ∀ x, Follows Models (Fifo.moves α (h.lend false .consumer))
      (consume x) (consume' x)) (left : Nat) :
    ∀ (index done : Nat) (w : World (Ring α) E) (v : World (Fifo α) E),
      Draining h v₀ index w v →
      Agree (fun _ => Reaches Models (Fifo.moves α h) v₀) (Reaches Models (Fifo.moves α h) v₀)
        (drainFrom consume index done left w)
        (Loop.drainFrom (Act.onQueue Fifo.poll) consume' done left v) := by
  induction left with
  | zero => exact fun index done w v hwv => .ok hwv.1
  | succ left ih =>
      intro index done w v hwv
      refine .bind (hwv.pollAt free) ?_
      intro found w' v' hwv'
      cases found with
      | none => exact .ok hwv'.1
      | some x =>
          refine .bind (hwv'.callback free (hc x)) ?_
          exact fun _ w'' v'' hwv'' => ih (index + 1) (done + 1) w'' v'' hwv''

theorem drainLoop_agree (free : h.has .consumer = true)
    (hc : ∀ x, Follows Models (Fifo.moves α (h.lend false .consumer)) (consume x) (consume' x))
    {wait : UInt64 → Act (World (Ring α) E) UInt64} {wait' : UInt64 → Act (World (Fifo α) E) UInt64}
    (hw : ∀ counter, Follows Models (Fifo.moves α (h.lend false .consumer)) (wait counter)
      (wait' counter))
    {keep : Act (World (Ring α) E) Bool} {keep' : Act (World (Fifo α) E) Bool}
    (hk : Follows Models (Fifo.moves α (h.lend false .consumer)) keep keep')
    (polls : Nat) : ∀ (index : Nat) (counter : UInt64) (w : World (Ring α) E)
      (v : World (Fifo α) E), Draining h v₀ index w v →
      Agree (fun _ => Reaches Models (Fifo.moves α h) v₀) (Reaches Models (Fifo.moves α h) v₀)
        (drainLoop consume wait keep polls index counter w)
        (Loop.drainLoop (Act.onQueue Fifo.poll) consume' wait' keep' polls counter v) := by
  induction polls with
  | zero => exact fun index counter w v hwv => .error (by decide) hwv.1
  | succ polls ih =>
      intro index counter w v hwv
      refine .bind (hwv.callback free hk) ?_
      intro goesOn w' v' hwv'
      cases goesOn with
      | false => exact .ok hwv'.1
      | true =>
          refine .bind (hwv'.pollAt free) ?_
          intro found w'' v'' hwv''
          cases found with
          | none =>
              refine .bind (hwv''.callback free (hw counter)) ?_
              exact fun counter w₃ v₃ h₃ => ih index counter w₃ v₃ h₃
          | some x =>
              refine .bind (hwv''.callback free (hc x)) ?_
              exact fun _ w₃ v₃ h₃ => ih (index + 1) 0 w₃ v₃ h₃

theorem fill_tracks (free : h.has .producer = true)
    (hs : Follows Models (Fifo.moves α (h.lend false .producer)) supply supply')
    (limit : Nat) :
    Follows Models (Fifo.moves α h) (fill supply limit) (Fifo.fillFrom supply' 0 limit) := by
  intro w v hwv
  have hb := hwv.2.balance
  have hc := hwv.2.bound
  have start : Filling h v v.queue.produced w v := ⟨⟨hwv, .refl h v.queue⟩, rfl⟩
  rw [fill, Act.bind_onQueue_view, hwv.2.produced]
  exact fillFrom_agree free hs limit _ 0 0 w v start (by omega)

theorem fillAll_tracks (free : h.has .producer = true)
    (hs : Follows Models (Fifo.moves α (h.lend false .producer)) supply supply') :
    Follows Models (Fifo.moves α h) (fillAll supply) (Channel.fillAll supply') := by
  intro w v hwv
  rw [fillAll, Act.bind_onQueue_view, hwv.2.capacity_eq]
  exact fill_tracks free hs v.queue.capacity w v hwv

theorem fillWith_tracks (free : h.has .producer = true)
    (hs : Follows Models (Fifo.moves α (h.lend false .producer)) supply supply')
    {wait : UInt64 → Act (World (Ring α) E) UInt64} {wait' : UInt64 → Act (World (Fifo α) E) UInt64}
    (hw : ∀ counter, Follows Models (Fifo.moves α (h.lend false .producer)) (wait counter)
      (wait' counter))
    {keep : Act (World (Ring α) E) Bool} {keep' : Act (World (Fifo α) E) Bool}
    (hk : Follows Models (Fifo.moves α (h.lend false .producer)) keep keep')
    (polls : Nat) :
    Follows Models (Fifo.moves α h) (fillWith supply wait keep polls)
      (Fifo.fillLoop supply' wait' keep' polls 0) := by
  intro w v hwv
  have start : Filling h v v.queue.produced w v := ⟨⟨hwv, .refl h v.queue⟩, rfl⟩
  rw [fillWith, Act.bind_onQueue_view, hwv.2.produced]
  exact fillLoop_agree free hs hw hk polls _ 0 w v start

theorem drain_tracks (free : h.has .consumer = true)
    (hc : ∀ x, Follows Models (Fifo.moves α (h.lend false .consumer))
      (consume x) (consume' x)) (limit : Nat) :
    Follows Models (Fifo.moves α h) (drain consume limit)
      (Loop.drainFrom (Act.onQueue Fifo.poll) consume' 0 limit) := by
  intro w v hwv
  have start : Draining h v v.queue.consumed w v := ⟨⟨hwv, .refl h v.queue⟩, rfl⟩
  rw [drain, Act.bind_onQueue_view, hwv.2.consumed]
  exact drainFrom_agree free hc limit _ 0 w v start

theorem drainAll_tracks (free : h.has .consumer = true)
    (hc : ∀ x, Follows Models (Fifo.moves α (h.lend false .consumer)) (consume x) (consume' x)) :
    Follows Models (Fifo.moves α h) (drainAll consume) (Channel.drainAll consume') := by
  intro w v hwv
  rw [drainAll, Act.bind_onQueue_view, hwv.2.capacity_eq]
  exact drain_tracks free hc v.queue.capacity w v hwv

theorem drainWith_tracks (free : h.has .consumer = true)
    (hc : ∀ x, Follows Models (Fifo.moves α (h.lend false .consumer)) (consume x) (consume' x))
    {wait : UInt64 → Act (World (Ring α) E) UInt64} {wait' : UInt64 → Act (World (Fifo α) E) UInt64}
    (hw : ∀ counter, Follows Models (Fifo.moves α (h.lend false .consumer)) (wait counter)
      (wait' counter))
    {keep : Act (World (Ring α) E) Bool} {keep' : Act (World (Fifo α) E) Bool}
    (hk : Follows Models (Fifo.moves α (h.lend false .consumer)) keep keep')
    (polls : Nat) :
    Follows Models (Fifo.moves α h) (drainWith consume wait keep polls)
      (Loop.drainLoop (Act.onQueue Fifo.poll) consume' wait' keep' polls 0) := by
  intro w v hwv
  have start : Draining h v v.queue.consumed w v := ⟨⟨hwv, .refl h v.queue⟩, rfl⟩
  rw [drainWith, Act.bind_onQueue_view, hwv.2.consumed]
  exact drainLoop_agree free hc hw hk polls _ 0 w v start

/-- Every call on a ring does what the same call does on its list. -/
def fifo (α : Type) : Refinement (Ring α) (Fifo α) false where
  rel := Models
  moves := Fifo.moves α
  call free op :=
    match op with
    | .offer v | .relaxedOffer v => offer_tracks free v
    | .poll | .relaxedPoll => poll_tracks free
    | .peek | .relaxedPeek => peek_tracks
    | .look _ => look_tracks
  fill free := fun hs limit => fill_tracks free hs limit
  fillAll free := fun hs => fillAll_tracks free hs
  fillWith free := fun hs hw hk polls => fillWith_tracks free hs hw hk polls
  drain free := fun hc limit => drain_tracks free hc limit
  drainAll free := fun hc => drainAll_tracks free hc
  drainWith free := fun hc hw hk polls => drainWith_tracks free hc hw hk polls

end Handoff.Ring
