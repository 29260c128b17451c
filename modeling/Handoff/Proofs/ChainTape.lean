import Handoff.Proofs.ChainConsume
import Handoff.Proofs.ChainProduce

/-! Every call on a chain does what the same call does on its tape. The invariant of
a batch is that the cells it has claimed and not yet written are holes of the chunk
it claimed them in; callbacks leave them so. -/
namespace Handoff.Chain

variable {α E : Type}

/-- What the same claim comes to on a chain and on its tape. -/
inductive Claims (q : Chain α) (t : Tape α) (wanted : Nat) :
    EStateM.Result Halt (Chain α) Claim → EStateM.Result Halt (Tape α) Tape.Grant → Prop
  | spinning : Claims q t wanted (.error .spinning q) (.error .spinning t)
  | full : Claims q t wanted (.ok .full q) (.ok .full t)
  | run {q' : Chain α} {t' : Tape α} {count : Nat} (models : q'.Models t')
      (later : Tape.Later t t') (some : 0 < wanted → 0 < count)
      (holes : ∀ i, t.claimed ≤ i → i < t.claimed + count → t'.Hole t.links.length i) :
      Claims q t wanted (.ok (.run ⟨q.tail, 2 * t.claimed⟩ count) q')
        (.ok (.run t.claimed count) t')
  | link {q' : Chain α} (models : q'.Models t.mark) (unmarked : t.marked = false) :
      Claims q t wanted (.ok (.link ⟨q.tail, 2 * t.claimed⟩) q') (.ok .link t.mark)

theorem claims {q : Chain α} {t : Tape α} (h : q.Models t) (wanted : Nat) :
    Claims q t wanted (claim wanted q) (Tape.claim wanted t) := by
  cases hm : t.marked with
  | true =>
      rw [h.claim_marked hm, Tape.claim, Act.bind_view, hm]
      exact .spinning
  | false =>
      rw [h.claim_open hm, Tape.claim_open hm]
      cases hr : t.room with
      | full => exact .full
      | link => exact .link (h.mark hr) hm
      | below limit =>
          obtain ⟨-, hlt, -, -⟩ := h.valid.room_below hr
          refine .run (h.grant hm hr wanted) (.grant h.valid hm hr wanted) ?_ ?_
          · omega
          · intro i lo hi
            exact .of_grant h.valid lo (by omega)

theorem offer_tracks (v : α) :
    Tracks Models (Tape.moves α) (offer v) (Tape.offer v) := by
  intro q t h
  have hc := claims h 1
  generalize hx : claim 1 q = x at hc
  generalize hy : Tape.claim 1 t = y at hc
  cases hc with
  | spinning =>
      exact .of_error (Act.bind_error hx _) (Act.bind_error hy _) (by decide) ⟨h, .refl t⟩
  | full => exact .of_ok (Act.bind_ok hx _) (Act.bind_ok hy _) ⟨h, .refl t⟩
  | @run q' t' count models later some holes =>
      have one := some Nat.one_pos
      have hole := holes t.claimed (Nat.le_refl _) (by omega)
      obtain ⟨q'', hput, models'⟩ := models.put hole v
      rw [later.size, ← h.tail] at hput
      have onTape : Tape.offer v t = .ok (.ok ()) (t'.store t.claimed v) := Act.bind_ok hy _
      have onChain : offer v q = .ok (.ok ()) q'' :=
        (Act.bind_ok hx _).trans (Act.bind_ok hput _)
      exact .of_ok onChain onTape ⟨models', later.store (Nat.le_refl _) v⟩
  | @link q' models unmarked =>
      obtain ⟨q'', hext, models'⟩ := models.extend rfl v
      rw [models.tail.trans h.tail.symm] at hext
      have onTape : Tape.offer v t = .ok (.ok ()) (t.mark.link v) := Act.bind_ok hy _
      have onChain : offer v q = .ok (.ok ()) q'' :=
        (Act.bind_ok hx _).trans (Act.bind_ok hext _)
      exact .of_ok onChain onTape ⟨models', (Tape.Later.mark t).link unmarked v⟩

theorem relaxedPoll_tracks :
    Tracks Models (Tape.moves α) relaxedPoll (Tape.relaxedPoll : Act (Tape α) (Option α)) := by
  intro q t h
  obtain ⟨q', harr, models, settled⟩ := h.arrive
  rw [relaxedPoll, Act.bind_ok harr, Tape.relaxedPoll_eq]
  cases hv : t.written t.consumed with
  | none => exact .ok ⟨models, .refl t⟩
  | some v =>
      have htake := models.takeHead_ok settled hv
      exact .of_ok (Act.bind_ok htake _) rfl ⟨models.taken_models settled hv, .handOut t v⟩

theorem relaxedPeek_tracks :
    Tracks Models (Tape.moves α) relaxedPeek (Tape.relaxedPeek : Act (Tape α) (Option α)) := by
  intro q t h
  obtain ⟨q', harr, models, settled⟩ := h.arrive
  rw [relaxedPeek, Act.bind_ok harr]
  cases hv : t.written t.consumed with
  | none => exact .of_ok rfl (congrArg (EStateM.Result.ok · t) hv) ⟨models, .refl t⟩
  | some v =>
      have hshow := models.showHead settled hv
      exact .of_ok (Act.bind_ok hshow _) (congrArg (EStateM.Result.ok · t) hv) ⟨models, .refl t⟩

theorem await_eq {q : Chain α} {t : Tape α} (h : q.Models t) :
    ∃ q', q'.Models t ∧ q'.Settled t ∧
      await q =
        if (t.written t.consumed).isSome then .ok true q'
        else if t.isEmpty then .ok false q'
        else .error .spinning q' := by
  obtain ⟨q', harr, models, settled⟩ := h.arrive
  refine ⟨q', models, settled, ?_⟩
  rw [await, Act.bind_ok harr]
  cases t.written t.consumed with
  | some v => rfl
  | none =>
      simp only [Option.isSome_none, Bool.false_eq_true, if_false]
      rw [Act.bind_view, models.isEmpty_eq]
      cases t.isEmpty <;> rfl

theorem waiting_tracks {next : Act (Chain α) α} {attempt : Act (Tape α) (Option α)}
    (found : ∀ (q : Chain α) (t : Tape α) (v : α), q.Models t → q.Settled t →
      t.written t.consumed = some v → ∃ q' t', next q = .ok v q' ∧
        attempt t = .ok (some v) t' ∧ Lands Models (Tape.moves α) t q' t')
    (none : ∀ t : Tape α, t.written t.consumed = none → attempt t = .ok none t) :
    Tracks Models (Tape.moves α) (do if ← await then return some (← next) else return .none)
      (Tape.waiting attempt) := by
  intro q t h
  obtain ⟨q', models, settled, hawait⟩ := await_eq h
  cases hv : t.written t.consumed with
  | some v =>
      rw [hv] at hawait
      obtain ⟨q'', t', onChain, onTape, lands⟩ := found q' t v models settled hv
      rw [Act.bind_ok hawait]
      exact .of_ok (Act.bind_ok onChain _) (Act.bind_ok onTape _) lands
  | none =>
      rw [hv] at hawait
      rw [Tape.waiting, Act.bind_ok (none t hv)]
      simp only
      rw [Act.bind_view]
      cases empty : t.isEmpty with
      | true =>
          rw [empty] at hawait
          exact .of_ok (Act.bind_ok hawait _) rfl ⟨models, .refl t⟩
      | false =>
          rw [empty] at hawait
          exact .of_error (Act.bind_error hawait _) rfl (by decide) ⟨models, .refl t⟩

theorem poll_tracks :
    Tracks Models (Tape.moves α) poll
      (Tape.waiting Tape.relaxedPoll : Act (Tape α) (Option α)) := by
  apply waiting_tracks
  · intro q t v models settled hv
    refine ⟨_, t.handOut v, models.takeHead_ok settled hv, ?_, models.taken_models settled hv,
      .handOut t v⟩
    rw [Tape.relaxedPoll_eq, hv]
  · intro t hv
    rw [Tape.relaxedPoll_eq, hv]

theorem peek_tracks :
    Tracks Models (Tape.moves α) peek
      (Tape.waiting Tape.relaxedPeek : Act (Tape α) (Option α)) := by
  apply waiting_tracks
  · intro q t v models settled hv
    exact ⟨q, t, models.showHead settled hv, congrArg (EStateM.Result.ok · t) hv, models, .refl t⟩
  · intro t hv
    exact congrArg (EStateM.Result.ok · t) hv

theorem look_tracks :
    Tracks Models (Tape.moves α) (Act.view Channel.indicators) (Act.view Channel.indicators) :=
  fun _ t h => .of_ok (congrArg (EStateM.Result.ok · _) h.indicators_eq) rfl ⟨h, .refl t⟩

variable {supply : Act (World (Chain α) E) α} {supply' : Act (World (Tape α) E) α}

/-- The worlds of a batch that began in `v₀` and has yet to write `count` cells of
chunk `c` from `i` on. -/
structure Writing (v₀ : World (Tape α) E) (c i count : Nat) (w : World (Chain α) E)
    (v : World (Tape α) E) : Prop where
  lands : Reaches Models (Tape.moves α) v₀ w v
  own : v₀.queue.claimed ≤ i
  holes : ∀ k, i ≤ k → k < i + count → v.queue.Hole c k

theorem writeRun_agree
    (hs : Follows Models (Tape.moves α) supply supply')
    {v₀ : World (Tape α) E} {c : Nat} (count : Nat) :
    ∀ (i : Nat) (w : World (Chain α) E) (v : World (Tape α) E), Writing v₀ c i count w v →
      Agree (fun _ => Reaches Models (Tape.moves α) v₀) (Reaches Models (Tape.moves α) v₀)
        (writeRun supply ⟨c, Index.maskOf v₀.queue.size.chunkSize⟩ (2 * i) count w)
        (Tape.writeRun supply' i count v) := by
  induction count with
  | zero => exact fun i w v hwv => .ok hwv.lands
  | succ count ih =>
      intro i w v hwv
      refine .bind ((hs w v hwv.lands.1).mono (fun _ _ _ x => x) fun _ _ x =>
        ⟨x.1, hwv.lands.2.trans x.2⟩) ?_
      rintro x w' v' ⟨⟨henv, models⟩, later⟩
      have later₀ : Tape.Later v₀.queue v'.queue := hwv.lands.2.trans later
      have hole := later.hole (hwv.holes i (Nat.le_refl _) (by omega))
      obtain ⟨q', hput, models'⟩ := models.put hole x
      rw [later₀.size] at hput
      have rest : Writing v₀ c (i + 1) count ⟨q', w'.env⟩ ⟨v'.queue.store i x, v'.env⟩ := by
        refine ⟨⟨⟨henv, models'⟩, later₀.store hwv.own x⟩, Nat.le_succ_of_le hwv.own, ?_⟩
        intro k hk hk'
        exact (later.hole (hwv.holes k (by omega) (by omega))).store (Nat.ne_of_gt hk) x
      rw [Act.bind_ok (Act.onQueue_ok hput)]
      exact ih (i + 1) _ _ rest

theorem fill_tracks (hs : Follows Models (Tape.moves α) supply supply')
    (wanted : Nat) :
    Follows Models (Tape.moves α) (fill supply wanted) (Tape.fill supply' wanted) := by
  intro w v hwv
  have h := hwv.2
  have hc := claims h wanted
  generalize hx : claim wanted w.queue = x at hc
  generalize hy : Tape.claim wanted v.queue = y at hc
  cases hc with
  | spinning =>
      exact .of_error (Act.bind_error (Act.onQueue_error hx) _)
        (Act.bind_error (Act.onQueue_error hy) _) (by decide) ⟨⟨hwv.1, h⟩, .refl v.queue⟩
  | full =>
      exact .of_ok (Act.bind_ok (Act.onQueue_ok hx) _) (Act.bind_ok (Act.onQueue_ok hy) _)
        ⟨⟨hwv.1, h⟩, .refl v.queue⟩
  | @run q' t' count models later some holes =>
      rw [fill, Act.bind_ok (Act.onQueue_ok hx), Tape.fill, Act.bind_ok (Act.onQueue_ok hy), h.tail]
      refine .bind (writeRun_agree hs count v.queue.claimed ⟨q', w.env⟩ ⟨t', v.env⟩
        ⟨⟨⟨hwv.1, models⟩, later⟩, Nat.le_refl _, holes⟩) ?_
      exact fun _ w' v' hwv' => .ok hwv'
  | @link q' models unmarked =>
      rw [fill, Act.bind_ok (Act.onQueue_ok hx), Tape.fill, Act.bind_ok (Act.onQueue_ok hy)]
      have marked := Tape.Later.mark v.queue
      refine .bind ((hs ⟨q', w.env⟩ ⟨v.queue.mark, v.env⟩ ⟨hwv.1, models⟩).mono
        (fun _ _ _ x => x) fun _ _ x => ⟨x.1, marked.trans x.2⟩) ?_
      rintro x w' v' ⟨⟨henv, models'⟩, later⟩
      obtain ⟨still, claimed, links⟩ := later.marked rfl
      obtain ⟨q'', hext, models''⟩ := models'.extend still x
      have tail : w'.queue.tail = w.queue.tail := by
        rw [models'.tail, h.tail, links, later.size]
        rfl
      rw [tail, claimed] at hext
      have onTape : (Act.onQueue (modify (·.link x)) >>= fun _ => pure 1 :
          Act (World (Tape α) E) Nat) v' = .ok 1 ⟨v'.queue.link x, v'.env⟩ := rfl
      refine .of_ok (Act.bind_ok (Act.onQueue_ok hext) _) onTape ⟨⟨henv, models''⟩, ?_⟩
      exact (marked.trans later).link unmarked x

theorem fillAll_tracks (hs : Follows Models (Tape.moves α) supply supply') :
    Follows Models (Tape.moves α) (fillAll supply) (Channel.fillAll supply') := by
  intro w v hwv
  rw [fillAll, Act.bind_onQueue_view, hwv.2.capacity_eq]
  exact Tracks.fillRounds (fill_tracks hs batch) _ _ 0 w v hwv

theorem drainAll_tracks {consume : α → Act (World (Chain α) E) Unit}
    {consume' : α → Act (World (Tape α) E) Unit}
    (hc : ∀ x, Follows Models (Tape.moves α) (consume x) (consume' x)) :
    Follows Models (Tape.moves α) (drainAll consume) (Channel.drainAll consume') := by
  intro w v hwv
  rw [drainAll, Act.bind_onQueue_view, hwv.2.capacity_eq]
  exact Tracks.drainFrom (.onQueue relaxedPoll_tracks) hc 0 _ w v hwv

/-- Every call on a chain does what the same call does on its tape. -/
def tape (α : Type) : Refinement (Chain α) (Tape α) true where
  rel := Models
  moves _ := Tape.moves α
  call _ op :=
    match op with
    | .offer v | .relaxedOffer v => offer_tracks v
    | .poll => poll_tracks
    | .relaxedPoll => relaxedPoll_tracks
    | .peek => peek_tracks
    | .relaxedPeek => relaxedPeek_tracks
    | .look _ => look_tracks
  fill _ := fun hs limit => fill_tracks hs limit
  fillAll _ := fun hs => fillAll_tracks hs
  fillWith _ := fun hs hw hk polls => .fillPhases (fill_tracks hs batch) hw hk polls .opening
  drain _ := fun hc limit => .drainFrom (.onQueue relaxedPoll_tracks) hc 0 limit
  drainAll _ := fun hc => drainAll_tracks hc
  drainWith _ := fun hc hw hk polls => .drainLoop (.onQueue relaxedPoll_tracks) hc hw hk polls 0

/-- A chain holds a tape whatever has been called on it. -/
theorem reached {q : Chain α} (made : q.Made) {β : Type} (client : Client α E true .both β)
    (env : E) : ∃ t, (channelAfter (client.run ⟨q, env⟩)).Models t := by
  obtain ⟨-, -, models, -⟩ := (tape α).agree made.models client env
  exact ⟨_, models⟩

end Handoff.Chain
