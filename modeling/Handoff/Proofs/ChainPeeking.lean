import Handoff.Proofs.ChainGauges
import Handoff.Proofs.ChainStreaming
import Handoff.Proofs.Closing
import Handoff.Proofs.Pausing

/-! Looks at the next element of a chain. A look can take the consumer into the next
chunk, and the one that it leaves is freed. But this is all that it does, and nothing
that the chain shows or does later depends on it: on the tape there is no difference. -/
namespace Handoff

variable {α β E F : Type} {h : Handles}

/-- What a chain shows of itself: its counters as they are kept and as they are reported,
its reports, and the values that it has dropped. -/
structure Sight (α : Type) where
  gauges : Gauges
  indicators : Indicators
  journal : Array Event
  discarded : Array α

namespace Tape

variable {t : Tape α}

def sight (t : Tape α) : Sight α :=
  { gauges := t.gauges
    indicators := Channel.indicators t
    journal := (.chainCreated t.size.chunkSize t.size.capacity ::
      t.links.map (.chunkLinked · t.size.chunkSize)).toArray
    discarded := #[] }

theorem glimpse_idle (glimpse : Glimpse) (t : Tape α) :
    Act.unlessSpinning (glimpse.op.perform : Act (Tape α) (Option α)) t = .ok () t := by
  cases glimpse with
  | relaxedPeek => rfl
  | peek =>
      change Act.unlessSpinning (waiting relaxedPeek) t = .ok () t
      unfold Act.unlessSpinning waiting relaxedPeek
      rw [Act.bind_view]
      cases t.written t.consumed with
      | some v => rfl
      | none =>
          simp only [Act.bind_view]
          cases t.isEmpty <;> rfl

theorem glimpses_idle (glimpses : List Glimpse) (t : Tape α) :
    Glimpse.all glimpses t = .ok () t := by
  induction glimpses with
  | nil => rfl
  | cons glimpse rest ih => exact (Act.bind_ok (glimpse_idle glimpse t) _).trans ih

theorem planned_eq {ρ : Type} (view : Tape α → ρ) (plan : Nat → List Glimpse) (h : Handles) :
    Glimpse.planned (E := E) view plan h = Client.glance view := by
  funext w
  have idle := glimpses_idle (plan w.env.2.length) w.queue
  rw [Glimpse.planned, Act.bind_view]
  by_cases free : h.has .consumer = true
  · simp only [free, if_true]
    exact Act.bind_ok (Act.onQueue_ok idle) _
  · simp only [free]
    rfl

end Tape

namespace Chain

def sight (q : Chain α) : Sight α :=
  { gauges := q.gauges
    indicators := Channel.indicators q
    journal := q.journal
    discarded := q.discarded }

theorem paced_shadows {pause : Handles → Act (World (Chain α) (E × F)) Unit}
    (hp : ∀ h, Shadows (pause h) (pure ())) (client : Client α E true h β) :
    Shadows (client.paced pause) (client.run (Q := Chain α)) := by
  have calls := parametric α
  have same := Shadows.onQueue_coupled (Chain α) E F
  induction client with
  | done b => exact .between (hp _) (.pure b)
  | bind first next first_ih next_ih => exact first_ih.bind next_ih
  | own work => exact .between (hp _) fun _ _ _ => rfl
  | panic => exact .between (hp _) (.throw _)
  | stop => exact .between (hp _) (.throw _)
  | attempt body ih => exact .between (hp _) ih.attempt
  | call free op => exact .between (hp _) (.onQueue op.perform)
  | fill free supply limit ih => exact .between (hp _) (calls.fill same ih limit)
  | fillAll free supply ih => exact .between (hp _) (calls.fillAll same ih)
  | fillWith free supply wait keepRunning polls ih wait_ih keep_ih =>
      exact .between (hp _) (calls.fillWith same ih wait_ih keep_ih polls)
  | drain free consume limit ih => exact .between (hp _) (calls.drain same ih limit)
  | drainAll free consume ih => exact .between (hp _) (calls.drainAll same ih)
  | drainWith free consume wait keepRunning polls ih wait_ih keep_ih =>
      exact .between (hp _) (calls.drainWith same ih wait_ih keep_ih polls)

namespace Models

variable {q q' : Chain α} {t : Tape α}

theorem sight_eq (h : q.Models t) : q.sight = t.sight := by
  have journal : q.journal = t.sight.journal := Array.toList_inj.mp h.journal
  rw [Chain.sight, h.gauges_eq, h.indicators_eq, journal, h.discarded]
  rfl

theorem chunkOrder_left (h : q.Models t) {c : Nat} (left : c < q.head.chunk) :
    chunkOrder t c = [] := by
  refine List.filter_eq_nil_iff.mpr fun i mem value => ?_
  have le := h.head_le
  have hr : t.links[c]? = some t.links[c] := List.getElem?_eq_getElem (by omega)
  have before := next_of_value value _ hr
  have lo := (Index.mem_slotOrder.mp mem).1
  have consumed : t.links[c] ≤ t.consumed := by
    refine Nat.le_trans ?_ h.head_start
    rw [← Tape.start_succ hr, Tape.start_eq, Tape.start_eq]
    exact Links.start_mono h.valid.ordered left le
  have := Nat.le_max_left t.consumed (t.start c)
  rw [Tape.base] at lo
  omega

theorem dropOrder_of_le (h' : q'.Models t) (le : q.head.chunk ≤ q'.head.chunk) :
    dropOrder q t = dropOrder q' t := by
  have hle := h'.head_le
  have split : liveChunks q t =
      List.range' q.head.chunk (q'.head.chunk - q.head.chunk) ++ liveChunks q' t := by
    have first := List.range'_append_1 (s := q.head.chunk) (m := q'.head.chunk - q.head.chunk)
      (n := t.links.length + 1 - q'.head.chunk)
    rw [Nat.add_sub_cancel' le] at first
    rw [liveChunks, liveChunks, first]
    congr 1
    omega
  have none : (List.range' q.head.chunk (q'.head.chunk - q.head.chunk)).flatMap (chunkOrder t) =
      [] := by
    refine List.flatMap_eq_nil_iff.mpr fun c hc => h'.chunkOrder_left ?_
    have := (List.mem_range'_1.mp hc).2
    omega
  rw [dropOrder, split, List.flatMap_append, none]
  rfl

theorem dropOrder_eq (h : q.Models t) (h' : q'.Models t) : dropOrder q t = dropOrder q' t := by
  rcases Nat.le_total q.head.chunk q'.head.chunk with le | le
  · exact h'.dropOrder_of_le le
  · exact (h.dropOrder_of_le le).symm

/-- Closing any of the chains that hold one tape drops the same, in the same order. -/
theorem close_eq (h : q.Models t) (h' : q'.Models t) :
    ∃ r r', close q = .ok () r ∧ close q' = .ok () r' ∧ r.discarded = r'.discarded := by
  obtain ⟨r, closed, dropped, -⟩ := h.close_ok
  obtain ⟨r', closed', dropped', -⟩ := h'.close_ok
  refine ⟨r, r', closed, closed', Array.toList_inj.mp ?_⟩
  apply List.map_injective_iff.mpr fun _ _ => Option.some.inj
  rw [dropped, dropped', h.dropOrder_eq h']

end Models

/-- Looks at the next element that are put in anywhere, and as often as one likes, change
nothing: the client gets the same answers, the chain shows the same before and after each
step, reports the same and drops the same, also when it is closed. Without looks, the
pauses in which the chain is seen make no difference themselves. -/
theorem peeks_unseen {q₀ : Chain α} (made : q₀.Made) {β : Type}
    (client : Client α E true .both β) (env : E) (plan : Nat → List Glimpse) :
    let run := client.paced (fun _ => Client.glance sight) ⟨q₀, (env, [])⟩
    let peeked := client.paced (Glimpse.planned sight plan) ⟨q₀, (env, [])⟩
    unframed run = client.run ⟨q₀, env⟩ ∧ verdict peeked = verdict run ∧
      (channelAfter peeked).sight = (channelAfter run).sight ∧
      ∃ r r', close (channelAfter peeked) = .ok () r ∧ close (channelAfter run) = .ok () r' ∧
        r.discarded = r'.discarded := by
  intro run peeked
  have seen : ∀ (q : Chain α) (t : Tape α), q.Models t → q.sight = t.sight :=
    fun _ _ h => h.sight_eq
  have plain := client.paced_follows (tape α) (fun _ => Client.glance_follows seen)
    ⟨q₀, (env, [])⟩ ⟨q₀.blank, (env, [])⟩ ⟨rfl, made.models⟩
  have looking := client.paced_follows (tape α) (Glimpse.planned_follows (tape α) seen plan)
    ⟨q₀, (env, [])⟩ ⟨q₀.blank, (env, [])⟩ ⟨rfl, made.models⟩
  have quiet : (Glimpse.planned (E := E) Tape.sight plan : Handles → Act (World (Tape α) _) Unit) =
      fun _ => Client.glance Tape.sight := funext (Tape.planned_eq Tape.sight plan)
  -- On the tape a look does nothing, so the two runs are one.
  rw [quiet] at looking
  obtain ⟨answer, ⟨memory, models⟩, -⟩ := plain.ends
  obtain ⟨answer', ⟨memory', models'⟩, -⟩ := looking.ends
  refine ⟨?_, ?_, ?_, ?_⟩
  · exact paced_shadows (fun _ _ _ _ => rfl) client q₀ env []
  · exact Prod.ext (answer'.trans answer.symm) (memory'.trans memory.symm)
  · exact (Models.sight_eq models').trans (Models.sight_eq models).symm
  · exact Models.close_eq models' models

/-- Looks before and after each step, of which the last takes the consumer into the second
chunk. Without them it stays in the first. -/
theorem peeks_unseen_across_chunks :
    let q₀ : Chain Nat := ofSize ⟨2, 8⟩
    let client : Client Nat Nat true .both (Option Nat) :=
      .bind (.call rfl (.offer 1)) fun _ => .bind (.call rfl (.offer 2)) fun _ => .call rfl .poll
    let run := client.paced (fun _ => Client.glance sight) ⟨q₀, (0, [])⟩
    let peeked := client.paced (Glimpse.planned sight fun _ => [.peek]) ⟨q₀, (0, [])⟩
    q₀.Made ∧ (channelAfter run).head.chunk = 0 ∧ (channelAfter peeked).head.chunk = 1 ∧
      verdict peeked = verdict run ∧
      ∃ r r', close (channelAfter peeked) = .ok () r ∧ close (channelAfter run) = .ok () r' ∧
        r.discarded = r'.discarded := by
  intro q₀ client run peeked
  have made : q₀.Made := .inl ⟨2, 8, rfl⟩
  obtain ⟨-, same, -, closed⟩ := peeks_unseen made client 0 fun _ => [.peek]
  exact ⟨made, by decide +kernel, by decide +kernel, same, closed⟩

end Chain
end Handoff
