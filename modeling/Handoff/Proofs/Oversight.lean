import Handoff.Proofs.Bookkeeping
import Handoff.Proofs.ChainStreaming

/-! Clients that are overseen. A count is kept of the supplies that were begun and have
not returned. As long as there is none, no batch is under way and none was given up, and
then every call has put right what it began: nothing is marked, and every cell that was
claimed is written. -/
namespace Handoff

variable {α β E : Type} {shared : Bool} {h : Handles}

namespace Client

def recount (f : Nat → Nat) : Client α (E × Nat) shared h Unit :=
  .own fun (env, count) => ((), (env, f count))

/-- A supply that is counted while it is under way. One that panics or is stopped does
not return, and stays counted. -/
def attended (supply : Client α (E × Nat) shared h α) : Client α (E × Nat) shared h α :=
  .bind (recount (· + 1)) fun _ => .bind supply fun v => .bind (recount (· - 1)) fun _ => .done v

/-- The client with a count of the supplies that were begun and have not returned. -/
def overseen {h : Handles} {β : Type} : Client α E shared h β → Client α (E × Nat) shared h β
  | done b => .done b
  | bind first next => .bind first.overseen fun b => (next b).overseen
  | own work => .own fun (env, count) => ((work env).1, ((work env).2, count))
  | panic => .panic
  | stop => .stop
  | attempt body => .attempt body.overseen
  | call free op => .call free op
  | fill free supply limit => .fill free (attended supply.overseen) limit
  | fillAll free supply => .fillAll free (attended supply.overseen)
  | fillWith free supply wait keepRunning polls =>
    .fillWith free (attended supply.overseen) (fun counter => (wait counter).overseen)
      keepRunning.overseen polls
  | drain free consume limit => .drain free (fun v => (consume v).overseen) limit
  | drainAll free consume => .drainAll free fun v => (consume v).overseen
  | drainWith free consume wait keepRunning polls =>
    .drainWith free (fun v => (consume v).overseen) (fun counter => (wait counter).overseen)
      keepRunning.overseen polls

theorem attended_shadows {supply : Client α (E × Nat) shared h α}
    {plain : Act (World (Chain α) E) α} (hs : Shadows (supply.run (Q := Chain α)) plain) :
    Shadows ((attended supply).run (Q := Chain α)) plain :=
  (hs.answered fun _ count => count - 1).annotated (· + 1)

theorem overseen_shadows (client : Client α E true h β) :
    Shadows (client.overseen.run (Q := Chain α)) (client.run (Q := Chain α)) := by
  have calls := Chain.parametric α
  have same := Shadows.onQueue_coupled (Chain α) E Nat
  induction client with
  | done b => exact .pure b
  | bind first next first_ih next_ih => exact first_ih.bind next_ih
  | own work => exact fun _ _ _ => rfl
  | panic => exact .throw _
  | stop => exact .throw _
  | attempt body ih => exact ih.attempt
  | call free op => exact .onQueue op.perform
  | fill free supply limit ih => exact calls.fill same (attended_shadows ih) limit
  | fillAll free supply ih => exact calls.fillAll same (attended_shadows ih)
  | fillWith free supply wait keepRunning polls ih wait_ih keep_ih =>
      exact calls.fillWith same (attended_shadows ih) wait_ih keep_ih polls
  | drain free consume limit ih => exact calls.drain same ih limit
  | drainAll free consume ih => exact calls.drainAll same ih
  | drainWith free consume wait keepRunning polls ih wait_ih keep_ih =>
      exact calls.drainWith same ih wait_ih keep_ih polls

end Client

namespace Tape

variable {t u : Tape α}

/-- Nothing that was begun in between is left to do: the mark is as before, and no more
cells wait for their values. -/
structure Mended (t u : Tape α) : Prop where
  marked : u.marked = t.marked
  holes : ∀ i, i < u.claimed → u.written i = none → i < t.claimed ∧ t.written i = none

theorem Mended.refl (t : Tape α) : Mended t t where
  marked := rfl
  holes _ claimed vacant := ⟨claimed, vacant⟩

theorem Mended.trans {v : Tape α} (htu : Mended t u) (huv : Mended u v) : Mended t v where
  marked := huv.marked.trans htu.marked
  holes i claimed vacant := by
    obtain ⟨claimed', vacant'⟩ := huv.holes i claimed vacant
    exact htu.holes i claimed' vacant'

/-- A supply is under way that was not before, or all is mended. -/
def Settles (w v : World (Tape α) (E × Nat)) : Prop :=
  w.env.2 < v.env.2 ∨ v.env.2 = w.env.2 ∧ Mended w.queue v.queue

theorem Settles.le {w v : World (Tape α) (E × Nat)} (hw : Settles w v) : w.env.2 ≤ v.env.2 := by
  rcases hw with more | ⟨same, -⟩
  · exact Nat.le_of_lt more
  · exact Nat.le_of_eq same.symm

theorem Settles.trans {w v x : World (Tape α) (E × Nat)} (hwv : Settles w v) (hvx : Settles v x) :
    Settles w x := by
  rcases hvx with more | ⟨same, mended⟩
  · exact .inl (Nat.lt_of_le_of_lt hwv.le more)
  · rcases hwv with more | ⟨same', mended'⟩
    · exact .inl (same ▸ more)
    · exact .inr ⟨same.trans same', mended'.trans mended⟩

def settling (α E : Type) : Moves (World (Tape α) (E × Nat)) where
  rel := Settles
  refl w := .inr ⟨rfl, .refl w.queue⟩
  trans := Settles.trans

/-- However the call ends, it has made such a move. -/
abbrev Keeping (act : Act (World (Tape α) (E × Nat)) β) : Prop :=
  Tracks Eq (settling α E) act act

theorem keeping_of_outcome {act : Act (World (Tape α) (E × Nat)) β}
    (ends : ∀ w, Outcome (fun _ v => Settles w v) (fun e v => e ≠ .misused ∧ Settles w v) (act w)) :
    Keeping act := by
  rintro w _ rfl
  have hw := ends w
  cases hx : act w with
  | ok b v =>
      rw [hx] at hw
      exact .ok ⟨rfl, hw⟩
  | error e v =>
      rw [hx] at hw
      exact .error hw.1 ⟨rfl, hw.2⟩

theorem Keeping.outcome {act : Act (World (Tape α) (E × Nat)) β} (keeping : Keeping act)
    (w : World (Tape α) (E × Nat)) :
    Outcome (fun _ v => Settles w v) (fun e v => e ≠ .misused ∧ Settles w v) (act w) := by
  have hw := keeping w w rfl
  generalize act w = x at hw
  cases hw with
  | ok lands => exact lands.2
  | error sound lands => exact ⟨sound, lands.2⟩

theorem keeping_onQueue {act : Act (Tape α) β}
    (ends : ∀ t, Outcome (fun _ u => Mended t u) (fun e u => e ≠ .misused ∧ u = t) (act t)) :
    Keeping (Act.onQueue act : Act (World (Tape α) (E × Nat)) β) := by
  apply keeping_of_outcome
  intro w
  have ht := ends w.queue
  cases hx : act w.queue with
  | ok b u =>
      rw [hx] at ht
      rw [Act.onQueue_ok hx]
      exact .inr ⟨rfl, ht⟩
  | error e u =>
      rw [hx] at ht
      obtain ⟨sound, rfl⟩ := ht
      rw [Act.onQueue_error hx]
      exact ⟨sound, .inr ⟨rfl, .refl _⟩⟩

theorem mended_handOut (t : Tape α) (v : α) : Mended t (t.handOut v) where
  marked := rfl
  holes _ claimed vacant := ⟨claimed, vacant⟩

theorem Reads.keeping {act : Act (Tape α) β} (reads : Reads act) :
    Keeping (Act.onQueue act : Act (World (Tape α) (E × Nat)) β) := by
  apply keeping_onQueue
  intro t
  have ht := reads t
  cases hx : act t with
  | ok b u =>
      rw [hx] at ht
      rcases ht with rfl | ⟨v, -, rfl⟩
      · exact .refl u
      · exact mended_handOut t v
  | error e u =>
      rw [hx] at ht
      exact ht

theorem offer_keeping (v : α) :
    Keeping (Act.onQueue (offer v) : Act (World (Tape α) (E × Nat)) (Except (Full α) Unit)) := by
  apply keeping_onQueue
  intro t
  rcases claim_cases t 1 with hx | hx | ⟨limit, -, -, hx⟩ | ⟨unmarked, -, hx⟩
  · rw [offer, Act.bind_error hx]
    exact ⟨by decide, rfl⟩
  · rw [offer, Act.bind_ok hx]
    exact .refl t
  · rw [offer, Act.bind_ok hx]
    refine ⟨rfl, fun i claimed vacant => ?_⟩
    by_cases same : i = t.claimed
    · simp [store, same] at vacant
    · simp only [store, same, if_false, grant] at claimed vacant
      exact ⟨by omega, vacant⟩
  · rw [offer, Act.bind_ok hx]
    refine ⟨unmarked.symm, fun i claimed vacant => ?_⟩
    by_cases same : i = t.claimed
    · simp [link, store, mark, same] at vacant
    · simp only [link, store, mark, same, if_false] at claimed vacant
      exact ⟨by omega, vacant⟩

theorem op_keeping {side : Side} {β : Type} (op : Op α side β) :
    Keeping (Act.onQueue op.perform : Act (World (Tape α) (E × Nat)) β) := by
  cases op with
  | offer v => exact offer_keeping v
  | relaxedOffer v => exact offer_keeping v
  | look side => exact (reads_view _).keeping
  | poll | relaxedPoll | peek | relaxedPeek => exact (reads_op _).keeping

/-- A call like `Keeping` ones, which stays counted if it halts. -/
def Attended (act : Act (World (Tape α) (E × Nat)) β) : Prop :=
  ∀ w, Outcome (fun _ v => Settles w v) (fun e v => e ≠ .misused ∧ w.env.2 < v.env.2) (act w)

theorem attended_of_keeping {supply : Client α (E × Nat) shared h α}
    (keeping : Keeping (supply.run (Q := Tape α))) :
    Attended ((Client.attended supply).run (Q := Tape α)) := by
  rintro ⟨t, env, count⟩
  have ends := keeping.outcome ⟨t, (env, count + 1)⟩
  have begun : Outcome (fun _ v => Settles ⟨t, (env, count + 1)⟩ v)
      (fun e v => e ≠ .misused ∧ count < v.env.2) (supply.run ⟨t, (env, count + 1)⟩) := by
    refine ends.mono (fun _ _ settles => settles) fun e v halted => ?_
    exact ⟨halted.1, Nat.lt_of_succ_le halted.2.le⟩
  refine begun.bind fun x w settles => ?_
  change Settles ⟨t, (env, count)⟩ ⟨w.queue, (w.env.1, w.env.2 - 1)⟩
  rcases settles with more | ⟨same, mended⟩
  · exact .inl (Nat.lt_sub_of_add_lt more)
  · exact .inr ⟨by rw [same, Nat.add_sub_cancel], mended⟩

/-- A batch that began in `w₀` has yet to write the cells from `i` on. -/
def Underway (w₀ : World (Tape α) (E × Nat)) (i left : Nat) (w : World (Tape α) (E × Nat)) :
    Prop :=
  w₀.env.2 < w.env.2 ∨ w.env.2 = w₀.env.2 ∧ w.queue.marked = w₀.queue.marked ∧
    ∀ k, k < w.queue.claimed → w.queue.written k = none →
      (k < w₀.queue.claimed ∧ w₀.queue.written k = none) ∨ (i ≤ k ∧ k < i + left)

variable {w₀ w v : World (Tape α) (E × Nat)} {i left : Nat}

theorem Underway.settles (hw : Underway w₀ i left w) (hv : Settles w v) :
    Underway w₀ i left v := by
  rcases hw with more | ⟨same, marked, holes⟩
  · exact .inl (Nat.lt_of_lt_of_le more hv.le)
  · rcases hv with more | ⟨same', mended⟩
    · exact .inl (same ▸ more)
    · refine .inr ⟨same'.trans same, mended.marked.trans marked, fun k claimed vacant => ?_⟩
      obtain ⟨claimed', vacant'⟩ := mended.holes k claimed vacant
      exact holes k claimed' vacant'

theorem Underway.le (hw : Underway w₀ i left w) : w₀.env.2 ≤ w.env.2 := by
  rcases hw with more | ⟨same, -, -⟩
  · exact Nat.le_of_lt more
  · exact Nat.le_of_eq same.symm

theorem Underway.store (hw : Underway w₀ i (left + 1) w) (x : α) :
    Underway w₀ (i + 1) left ⟨w.queue.store i x, w.env⟩ := by
  rcases hw with more | ⟨same, marked, holes⟩
  · exact .inl more
  · refine .inr ⟨same, marked, fun k claimed vacant => ?_⟩
    by_cases here : k = i
    · simp [Tape.store, here] at vacant
    · simp only [Tape.store, here, if_false] at claimed vacant
      refine (holes k claimed vacant).imp_right fun own => ?_
      omega

theorem Underway.over (hw : Underway w₀ i 0 w) : Settles w₀ w := by
  rcases hw with more | ⟨same, marked, holes⟩
  · exact .inl more
  · refine .inr ⟨same, marked, fun k claimed vacant => ?_⟩
    refine (holes k claimed vacant).resolve_right fun own => ?_
    omega

variable {supply : Act (World (Tape α) (E × Nat)) α}

theorem writeRun_underway (hs : Attended supply) (hw : Underway w₀ i left w) :
    Outcome (fun _ v => Settles w₀ v) (fun e v => e ≠ .misused ∧ Settles w₀ v)
      (writeRun supply i left w) := by
  induction left generalizing i w with
  | zero => exact hw.over
  | succ left ih =>
      have supplied : Outcome (fun _ v => Settles w v) (fun e v => e ≠ .misused ∧ Settles w₀ v)
          (supply w) := by
        refine (hs w).mono (fun _ _ settles => settles) fun e v halted => ?_
        exact ⟨halted.1, .inl (Nat.lt_of_le_of_lt hw.le halted.2)⟩
      refine supplied.bind fun x v settles => ?_
      exact ih (w := ⟨v.queue.store i x, v.env⟩) ((hw.settles settles).store x)

theorem fill_keeping (hs : Attended supply) (wanted : Nat) : Keeping (fill supply wanted) := by
  apply keeping_of_outcome
  rintro ⟨t, env⟩
  rcases claim_cases t wanted with hx | hx | ⟨limit, -, -, hx⟩ | ⟨unmarked, -, hx⟩
  · rw [fill, Act.bind_error (Act.onQueue_error hx)]
    exact ⟨by decide, .inr ⟨rfl, .refl t⟩⟩
  · rw [fill, Act.bind_ok (Act.onQueue_ok hx)]
    exact .inr ⟨rfl, .refl t⟩
  · rw [fill, Act.bind_ok (Act.onQueue_ok hx)]
    have granted : Underway ⟨t, env⟩ t.claimed (min limit (t.claimed + wanted) - t.claimed)
        ⟨t.grant limit wanted, env⟩ := by
      refine .inr ⟨rfl, rfl, fun k claimed vacant => ?_⟩
      simp only [grant] at claimed vacant
      by_cases old : k < t.claimed
      · exact .inl ⟨old, vacant⟩
      · exact .inr (by omega)
    exact (writeRun_underway hs granted).bind fun _ _ settles => settles
  · rw [fill, Act.bind_ok (Act.onQueue_ok hx)]
    have supplied : Outcome (fun _ v => Settles ⟨t.mark, env⟩ v)
        (fun e v => e ≠ .misused ∧ Settles ⟨t, env⟩ v) (supply ⟨t.mark, env⟩) :=
      (hs ⟨t.mark, env⟩).mono (fun _ _ settles => settles)
        fun e v halted => ⟨halted.1, .inl halted.2⟩
    refine supplied.bind fun x v settles => ?_
    change Settles ⟨t, env⟩ ⟨v.queue.link x, v.env⟩
    rcases settles with more | ⟨same, mended⟩
    · exact .inl more
    · refine .inr ⟨same, unmarked.symm, fun k claimed vacant => ?_⟩
      by_cases here : k = v.queue.claimed
      · simp [link, Tape.store, here] at vacant
      · simp only [link, Tape.store, here, if_false] at claimed vacant
        exact mended.holes k (by omega) vacant

theorem overseen_keeping (client : Client α E shared h β) :
    Keeping (client.overseen.run (Q := Tape α)) := by
  have polls : Keeping (Act.onQueue relaxedPoll : Act (World (Tape α) (E × Nat)) (Option α)) :=
    op_keeping .relaxedPoll
  have views : Keeping
      (Act.onQueue (Act.view fun t => t.size.capacity) : Act (World (Tape α) (E × Nat)) Nat) :=
    (reads_view _).keeping
  induction client with
  | done b => exact .pure b
  | bind first next first_ih next_ih => exact .bind first_ih next_ih
  | own work =>
      apply keeping_of_outcome
      intro w
      exact .inr ⟨rfl, .refl w.queue⟩
  | panic => exact .throw (by decide)
  | stop => exact .throw (by decide)
  | attempt body ih => exact .attempt ih
  | call free op => exact op_keeping op
  | fill free supply limit ih => exact fill_keeping (attended_of_keeping ih) limit
  | fillAll free supply ih =>
      exact .bind views fun capacity =>
        .fillRounds (fill_keeping (attended_of_keeping ih) _) capacity (capacity + 1) 0
  | fillWith free supply wait keepRunning polls ih wait_ih keep_ih =>
      exact .fillPhases (fill_keeping (attended_of_keeping ih) _) wait_ih keep_ih polls .opening
  | drain free consume limit ih => exact .drainFrom polls ih 0 limit
  | drainAll free consume ih => exact .bind views fun capacity => .drainFrom polls ih 0 capacity
  | drainWith free consume wait keepRunning allowed ih wait_ih keep_ih =>
      exact .drainLoop polls ih wait_ih keep_ih allowed 0

/-- On a tape that was blank, nothing is marked and every claimed cell is written as soon
as no supply is under way. -/
theorem settled_of_overseen {size : ChainSize} (client : Client α E shared .both β) (env : E) :
    let run := client.overseen.run (Q := Tape α) ⟨.ofSize size, (env, 0)⟩
    (verdict run).2.2 = 0 → (channelAfter run).marked = false ∧
      ∀ i, i < (channelAfter run).claimed → ((channelAfter run).written i).isSome = true := by
  intro run settled
  have ends : Outcome _ _ run := (overseen_keeping client).outcome ⟨.ofSize size, (env, 0)⟩
  have settles : Settles ⟨.ofSize size, (env, 0)⟩ ⟨channelAfter run, (verdict run).2⟩ := by
    cases hx : run with
    | ok b w =>
        rw [hx] at ends
        exact ends
    | error e w =>
        rw [hx] at ends
        exact ends.2
  rcases settles with more | ⟨-, mended⟩
  · exact absurd settled (Nat.ne_of_gt more)
  · refine ⟨mended.marked, fun i claimed => ?_⟩
    rw [Option.isSome_iff_ne_none]
    intro vacant
    exact Nat.not_lt_zero i (mended.holes i claimed vacant).1

end Tape
end Handoff
