import Handoff.Proofs.Tape

/-! Clients that write down what they are given. Every value that leaves the channel
is appended to a log in the client's memory, at the moment at which its caller or
its callback gets it. Apart from that the client does what it did before, and its
log is what the tape says was handed out. -/
namespace Handoff

variable {α E F Q σ τ : Type} {shared : Bool}

def Op.handed {side : Side} {β : Type} : Op α side β → β → List α
  | .poll, found | .relaxedPoll, found => found.toList
  | .offer _, _ | .relaxedOffer _, _ | .peek, _ | .relaxedPeek, _ | .look _, _ => []

namespace Client

def note {h : Handles} (values : List α) : Client α (E × List α) shared h Unit :=
  .own fun (env, log) => ((), (env, log ++ values))

/-- The client with a log of the values that it was given. -/
def recorded {h : Handles} {β : Type} : Client α E shared h β → Client α (E × List α) shared h β
  | done b => .done b
  | bind first next => .bind first.recorded fun b => (next b).recorded
  | own work => .own fun (env, log) => ((work env).1, ((work env).2, log))
  | panic => .panic
  | stop => .stop
  | attempt body => .attempt body.recorded
  | call free op => .bind (.call free op) fun b => .bind (note (op.handed b)) fun _ => .done b
  | fill free supply limit => .fill free supply.recorded limit
  | fillAll free supply => .fillAll free supply.recorded
  | fillWith free supply wait keepRunning polls =>
    .fillWith free supply.recorded (fun counter => (wait counter).recorded) keepRunning.recorded
      polls
  | drain free consume limit =>
    .drain free (fun v => .bind (note [v]) fun _ => (consume v).recorded) limit
  | drainAll free consume =>
    .drainAll free fun v => .bind (note [v]) fun _ => (consume v).recorded
  | drainWith free consume wait keepRunning polls =>
    .drainWith free (fun v => .bind (note [v]) fun _ => (consume v).recorded)
      (fun counter => (wait counter).recorded) keepRunning.recorded polls

end Client

/-- The same tape, with a log of all that was handed out. -/
def Noted (w : World (Tape α) E) (v : World (Tape α) (E × List α)) : Prop :=
  v = ⟨w.queue, (w.env, w.queue.handed)⟩

def Moves.any (τ : Type) : Moves τ := ⟨fun _ _ => True, fun _ => trivial, fun _ _ => trivial⟩

namespace Noted

theorem lands {v₀ v : World (Tape α) (E × List α)} {w : World (Tape α) E} (h : Noted w v) :
    Lands Noted (.any _) v₀ w v := ⟨h, trivial⟩

def log (values : List α) : Act (World (Tape α) (E × List α)) Unit :=
  modify fun w => { w with env := (w.env.1, w.env.2 ++ values) }

def noting {γ : Type} (values : γ → List α) (act : Act (World (Tape α) (E × List α)) γ) :
    Act (World (Tape α) (E × List α)) γ := do
  let b ← act
  log (values b)
  return b

/-- What a call on the tape hands out, and that it does not misuse anything. -/
def Hands {γ : Type} (act : Act (Tape α) γ) (values : γ → List α) : Prop :=
  ∀ t, match act t with
    | .ok b t' => t'.handed = t.handed ++ values b
    | .error e t' => e ≠ .misused ∧ t'.handed = t.handed

theorem noting_tracks {γ : Type} {act : Act (Tape α) γ} {values : γ → List α}
    (hands : Hands act values) :
    Tracks Noted (.any _) (Act.onQueue act : Act (World (Tape α) E) γ)
      (noting values (Act.onQueue act)) := by
  rintro w _ rfl
  have ht := hands w.queue
  cases hx : act w.queue with
  | ok b t' =>
      rw [hx] at ht
      have hx' : Act.onQueue act ⟨w.queue, (w.env, w.queue.handed)⟩ =
          .ok b ⟨t', (w.env, w.queue.handed)⟩ := Act.onQueue_ok hx
      refine .of_ok (Act.onQueue_ok hx) (Act.bind_ok hx' _) (lands ?_)
      simp only [Noted, ht]
  | error e t' =>
      rw [hx] at ht
      have hx' : Act.onQueue act ⟨w.queue, (w.env, w.queue.handed)⟩ =
          .error e ⟨t', (w.env, w.queue.handed)⟩ := Act.onQueue_error hx
      refine .of_error (Act.onQueue_error hx) (Act.bind_error hx' _) ht.1 (lands ?_)
      simp only [Noted, ht.2]

theorem quiet_tracks {γ : Type} {act : Act (Tape α) γ} (hands : Hands act fun _ => []) :
    Tracks Noted (.any _) (Act.onQueue act : Act (World (Tape α) E) γ) (Act.onQueue act) := by
  rintro w _ rfl
  have ht := hands w.queue
  cases hx : act w.queue with
  | ok b t' =>
      rw [hx] at ht
      refine .of_ok (Act.onQueue_ok hx) (Act.onQueue_ok hx) (lands ?_)
      simp only [Noted, ht, List.append_nil]
  | error e t' =>
      rw [hx] at ht
      refine .of_error (Act.onQueue_error hx) (Act.onQueue_error hx) ht.1 (lands ?_)
      simp only [Noted, ht.2]

theorem hands_claim (wanted : Nat) :
    Hands (Tape.claim wanted : Act (Tape α) Tape.Grant) fun _ => [] := by
  intro t
  cases hm : t.marked with
  | true =>
      rw [Tape.claim, Act.bind_view, hm]
      exact ⟨by decide, rfl⟩
  | false =>
      rw [Tape.claim_open hm]
      cases t.room <;> exact (List.append_nil _).symm

theorem hands_modify {f : Tape α → Tape α} (same : ∀ t, (f t).handed = t.handed) :
    Hands (modify f) fun _ => [] :=
  fun t => (same t).trans (List.append_nil _).symm

theorem hands_relaxedPoll :
    Hands (Tape.relaxedPoll : Act (Tape α) (Option α)) Option.toList := by
  intro t
  rw [Tape.relaxedPoll, Act.bind_view]
  cases t.written t.consumed with
  | none => exact (List.append_nil _).symm
  | some v => rfl

theorem hands_view {γ : Type} (f : Tape α → γ) : Hands (Act.view f) fun _ => [] :=
  fun _ => (List.append_nil _).symm

theorem hands_offer (v : α) : Hands (Tape.offer v) fun _ => [] := by
  intro t
  have hc := hands_claim (α := α) 1 t
  cases hx : Tape.claim 1 t with
  | error e t' =>
      rw [hx] at hc
      rw [Tape.offer, Act.bind_error hx]
      exact hc
  | ok grant t' =>
      rw [hx] at hc
      rw [Tape.offer, Act.bind_ok hx]
      cases grant <;> exact hc

theorem hands_waiting {act : Act (Tape α) (Option α)} {values : Option α → List α}
    (hands : Hands act values) (none : values none = []) : Hands (Tape.waiting act) values := by
  intro t
  have ht := hands t
  cases hx : act t with
  | error e t' =>
      rw [hx] at ht
      rw [Tape.waiting, Act.bind_error hx]
      exact ht
  | ok found t' =>
      rw [hx] at ht
      rw [Tape.waiting, Act.bind_ok hx]
      cases found with
      | some v => exact ht
      | none =>
          simp only
          rw [Act.bind_view]
          cases t'.isEmpty with
          | true => exact ht
          | false =>
              have nothing : t'.handed = t.handed ++ values .none := ht
              rw [none, List.append_nil] at nothing
              exact ⟨by decide, nothing⟩

theorem hands_op {side : Side} {γ : Type} (op : Op α side γ) :
    Hands (op.perform (Q := Tape α)) op.handed := by
  cases op with
  | offer v => exact hands_offer v
  | relaxedOffer v => exact hands_offer v
  | poll => exact hands_waiting hands_relaxedPoll rfl
  | relaxedPoll => exact hands_relaxedPoll
  | peek => exact hands_waiting (hands_view _) rfl
  | relaxedPeek => exact hands_view _
  | look side => exact hands_view _

variable {supply : Act (World (Tape α) E) α} {supply' : Act (World (Tape α) (E × List α)) α}

theorem writeRun_tracks (hs : Tracks Noted (.any _) supply supply') (i count : Nat) :
    Tracks Noted (.any _) (Tape.writeRun supply i count) (Tape.writeRun supply' i count) := by
  induction count generalizing i with
  | zero => exact .pure ()
  | succ count ih =>
      refine .bind hs fun v => .bind (quiet_tracks ?_) fun _ => ih (i + 1)
      exact hands_modify fun _ => rfl

theorem fill_tracks (hs : Tracks Noted (.any _) supply supply') (wanted : Nat) :
    Tracks Noted (.any _) (Tape.fill supply wanted) (Tape.fill supply' wanted) := by
  refine .bind (quiet_tracks (hands_claim wanted)) fun grant => ?_
  cases grant with
  | full => exact .pure 0
  | run start count => exact .bind (writeRun_tracks hs start count) fun _ => .pure count
  | link =>
      refine .bind hs fun v => .bind (quiet_tracks ?_) fun _ => .pure 1
      exact hands_modify fun _ => rfl

theorem noting_ok {attempt : Act (World (Tape α) (E × List α)) (Option α)} {found : Option α}
    {w w' : World (Tape α) (E × List α)} (hx : attempt w = .ok found w') :
    noting Option.toList attempt w =
      .ok found ⟨w'.queue, (w'.env.1, w'.env.2 ++ found.toList)⟩ :=
  (Act.bind_ok hx _).trans rfl

variable {attempt : Act (World (Tape α) (E × List α)) (Option α)}
  {body : α → Act (World (Tape α) (E × List α)) Unit}

theorem drainFrom_noting (done left : Nat) :
    Loop.drainFrom attempt (fun v => log [v] >>= fun _ => body v) done left =
      Loop.drainFrom (noting Option.toList attempt) body done left := by
  induction left generalizing done with
  | zero => rfl
  | succ left ih =>
      funext w
      simp only [Loop.drainFrom, ih]
      cases hx : attempt w with
      | error e w' => rw [Act.bind_error hx, noting, Act.bind_error (Act.bind_error hx _)]
      | ok found w' =>
          rw [Act.bind_ok hx, Act.bind_ok (noting_ok hx)]
          cases found with
          | none => simp
          | some v => rfl

theorem drainLoop_noting {wait : UInt64 → Act (World (Tape α) (E × List α)) UInt64}
    {keep : Act (World (Tape α) (E × List α)) Bool} (polls : Nat) (counter : UInt64) :
    Loop.drainLoop attempt (fun v => log [v] >>= fun _ => body v) wait keep polls counter =
      Loop.drainLoop (noting Option.toList attempt) body wait keep polls counter := by
  induction polls generalizing counter with
  | zero => rfl
  | succ polls ih =>
      simp only [Loop.drainLoop, ih]
      congr 1
      funext goesOn w
      cases goesOn with
      | false => rfl
      | true =>
          simp only [if_true]
          cases hx : attempt w with
          | error e w' => rw [Act.bind_error hx, noting, Act.bind_error (Act.bind_error hx _)]
          | ok found w' =>
              rw [Act.bind_ok hx, Act.bind_ok (noting_ok hx)]
              cases found with
              | none => simp
              | some v => rfl

theorem recorded_tracks {h : Handles} {β : Type} (client : Client α E shared h β) :
    Tracks Noted (.any _) (client.run (Q := Tape α)) (client.recorded.run (Q := Tape α)) := by
  induction client with
  | done b => exact .pure b
  | bind first next first_ih next_ih => exact .bind first_ih next_ih
  | own work =>
      rintro w _ rfl
      exact .ok (lands rfl)
  | panic => exact .throw (by decide)
  | stop => exact .throw (by decide)
  | attempt body ih => exact .attempt ih
  | call free op => exact noting_tracks (hands_op op)
  | fill free supply limit ih => exact fill_tracks ih limit
  | fillAll free supply ih =>
      exact .bind (quiet_tracks (hands_view _)) fun capacity =>
        .fillRounds (fill_tracks ih _) capacity (capacity + 1) 0
  | fillWith free supply wait keepRunning polls ih wait_ih keep_ih =>
      exact .fillPhases (fill_tracks ih _) wait_ih keep_ih polls .opening
  | drain free consume limit ih =>
      have polling := noting_tracks (E := E) (hands_relaxedPoll (α := α))
      have loop := Tracks.drainFrom polling ih 0 limit
      rwa [← drainFrom_noting] at loop
  | drainAll free consume ih =>
      have polling := noting_tracks (E := E) (hands_relaxedPoll (α := α))
      refine .bind (quiet_tracks (hands_view _)) fun capacity => ?_
      have loop := Tracks.drainFrom polling ih 0 capacity
      rwa [← drainFrom_noting] at loop
  | drainWith free consume wait keepRunning polls ih wait_ih keep_ih =>
      have polling := noting_tracks (E := E) (hands_relaxedPoll (α := α))
      have loop := Tracks.drainLoop polling ih wait_ih keep_ih polls 0
      rwa [← drainLoop_noting] at loop

/-- A recorded run from a tape that has handed out nothing. -/
theorem recorded_run {h : Handles} {β : Type} (client : Client α E shared h β) {t : Tape α}
    (start : t.handed = []) (env : E) :
    let x := client.run ⟨t, env⟩
    let y := client.recorded.run ⟨t, (env, [])⟩
    (verdict y).1 = (verdict x).1 ∧ (verdict y).2 = ((verdict x).2, (channelAfter x).handed) ∧
      channelAfter y = channelAfter x := by
  have noted : Noted ⟨t, env⟩ ⟨t, (env, [])⟩ := by
    rw [Noted, start]
  have agree := recorded_tracks client _ _ noted
  generalize client.run ⟨t, env⟩ = x at agree ⊢
  generalize client.recorded.run ⟨t, (env, [])⟩ = y at agree ⊢
  cases agree with
  | ok h => exact ⟨rfl, congrArg World.env h.1, congrArg World.queue h.1⟩
  | error _ h => exact ⟨rfl, congrArg World.env h.1, congrArg World.queue h.1⟩

end Noted
end Handoff
