import Handoff.Proofs.Auditing
import Handoff.Proofs.RingFifo

/-! What a ring was given and gave. Only one call at a time can add elements and only one
can remove them, so the accepted values are at any moment those that were handed out and
then those in the list, in this order. -/
namespace Handoff

variable {α γ σ τ E : Type} {shared : Bool}

theorem tracks_any {rel : σ → τ → Prop} {a : Act σ γ} {b : Act τ γ} :
    Tracks rel (.any τ) a b ↔
      ∀ s t, rel s t → Agree (fun _ => rel) rel (a s) (b t) := by
  constructor
  · intro h s t related
    exact (h s t related).mono (fun _ _ _ lands => lands.1) fun _ _ lands => lands.1
  · intro h s t related
    exact (h s t related).mono (fun _ _ _ h' => ⟨h', trivial⟩) fun _ _ h' => ⟨h', trivial⟩

section Loops

variable {rel : σ → τ → Prop} {taken : α → σ → τ → Prop} {poll : Act σ (Option α)}
  {poll' : Act τ (Option α)} {consume : α → Act σ Unit} {consume' : α → Act τ Unit}

/-- Where something is found, it is `taken` until it is passed on. -/
def Polls (rel : σ → τ → Prop) (taken : α → σ → τ → Prop) (poll : Act σ (Option α))
    (poll' : Act τ (Option α)) : Prop :=
  ∀ s t, rel s t →
    Agree (fun found s' t' => match found with
      | none => rel s' t'
      | some x => taken x s' t') rel (poll s) (poll' t)

def Consumes (rel : σ → τ → Prop) (taken : α → σ → τ → Prop) (consume : α → Act σ Unit)
    (consume' : α → Act τ Unit) : Prop :=
  ∀ x s t, taken x s t → Agree (fun _ => rel) rel (consume x s) (consume' x t)

theorem Polls.drainFrom (hp : Polls rel taken poll poll')
    (hc : Consumes rel taken consume consume') (done left : Nat) :
    Tracks rel (.any τ) (Loop.drainFrom poll consume done left)
      (Loop.drainFrom poll' consume' done left) := by
  induction left generalizing done with
  | zero => exact .pure done
  | succ left ih =>
      refine tracks_any.mpr fun s t h => (hp s t h).bind fun found s' t' h' => ?_
      cases found with
      | none => exact .ok h'
      | some x => exact (hc x s' t' h').bind fun _ => tracks_any.mp (ih (done + 1))

theorem Polls.drainLoop {wait : UInt64 → Act σ UInt64} {wait' : UInt64 → Act τ UInt64}
    {keep : Act σ Bool} {keep' : Act τ Bool} (hp : Polls rel taken poll poll')
    (hc : Consumes rel taken consume consume')
    (hw : ∀ counter, Tracks rel (.any τ) (wait counter) (wait' counter))
    (hk : Tracks rel (.any τ) keep keep') (polls : Nat) (counter : UInt64) :
    Tracks rel (.any τ) (Loop.drainLoop poll consume wait keep polls counter)
      (Loop.drainLoop poll' consume' wait' keep' polls counter) := by
  induction polls generalizing counter with
  | zero => exact .throw (by decide)
  | succ polls ih =>
      refine .bind hk fun goesOn => ?_
      cases goesOn with
      | false => exact .pure ()
      | true =>
          refine tracks_any.mpr fun s t h => (hp s t h).bind fun found s' t' h' => ?_
          cases found with
          | none => exact tracks_any.mp (.bind (hw counter) fun counter => ih counter) s' t' h'
          | some x => exact (hc x s' t' h').bind fun _ => tracks_any.mp (ih 0)

end Loops

namespace Fifo

/-- The memory of a client with the logs of what it was given and of what it gave. -/
abbrev Logs (α E : Type) : Type := (E × List α) × List α

/-- All that was accepted was handed out, or is `taken` and about to be, or is in the
list, or is `owed` to it. -/
inductive Balanced (taken owed : List α) : World (Fifo α) E → World (Fifo α) (Logs α E) → Prop
  | intro {f : Fifo α} {e : E} {handed accepted : List α}
      (count : (handed ++ taken).length = f.consumed)
      (balance : accepted = handed ++ taken ++ f.items ++ owed) :
      Balanced taken owed ⟨f, e⟩ ⟨f, ((e, handed), accepted)⟩

theorem Balanced.holds {w : World (Fifo α) E} {v : World (Fifo α) (Logs α E)}
    (h : Balanced [] [] w v) :
    v.queue = w.queue ∧ v.env.1.1 = w.env ∧ v.env.1.2.length = w.queue.consumed ∧
      v.env.2 = v.env.1.2 ++ w.queue.items := by
  cases h with
  | intro count balance =>
      rw [List.append_nil] at count balance
      exact ⟨rfl, rfl, count, by rw [balance, List.append_nil]⟩

/-- Both runs make the same call, and the logs are balanced again. -/
abbrev Balances (act : Act (World (Fifo α) E) γ) (act' : Act (World (Fifo α) (Logs α E)) γ) :
    Prop :=
  Tracks (Balanced [] []) (.any _) act act'

theorem balances_view (f : Fifo α → γ) :
    Balances (Act.onQueue (Act.view f) : Act (World (Fifo α) E) γ) (Act.onQueue (Act.view f)) := by
  rintro _ _ ⟨count, balance⟩
  exact .ok ⟨⟨count, balance⟩, trivial⟩

section Filling

variable {supply : Act (World (Fifo α) E) α} {supply' : Act (World (Fifo α) (Logs α E)) α}

theorem balances_fillFrom (one : Balances (supplyOne supply) (supplyOne supply'))
    (done left : Nat) : Balances (fillFrom supply done left) (fillFrom supply' done left) := by
  induction left generalizing done with
  | zero => exact .pure done
  | succ left ih =>
      refine .bind (balances_view _) fun full => ?_
      cases full with
      | true => exact .pure done
      | false => exact .bind one fun _ => ih (done + 1)

theorem balances_supplyRun (one : Balances (supplyOne supply) (supplyOne supply'))
    (count : Nat) : Balances (supplyRun supply count) (supplyRun supply' count) := by
  induction count with
  | zero => exact .pure ()
  | succ count ih => exact .bind one fun _ => ih

theorem balances_fillLoop (one : Balances (supplyOne supply) (supplyOne supply'))
    {wait : UInt64 → Act (World (Fifo α) E) UInt64}
    {wait' : UInt64 → Act (World (Fifo α) (Logs α E)) UInt64}
    {keep : Act (World (Fifo α) E) Bool} {keep' : Act (World (Fifo α) (Logs α E)) Bool}
    (hw : ∀ counter, Balances (wait counter) (wait' counter)) (hk : Balances keep keep')
    (polls : Nat) (counter : UInt64) :
    Balances (fillLoop supply wait keep polls counter)
      (fillLoop supply' wait' keep' polls counter) := by
  induction polls generalizing counter with
  | zero => exact .throw (by decide)
  | succ polls ih =>
      refine .bind hk fun goesOn => ?_
      cases goesOn with
      | false => exact .pure ()
      | true =>
          refine .bind (balances_view _) fun allowed => ?_
          cases allowed with
          | zero => exact .bind (hw counter) fun counter => ih counter
          | succ count => exact .bind (balances_supplyRun one (count + 1)) fun _ => ih 0

theorem balances_supplyOne {h : Handles} {client : Client α (Logs α E) shared h α}
    (hs : Balances supply (client.run (Q := Fifo α))) :
    Balances (supplyOne supply) (supplyOne (client.signed.run (Q := Fifo α))) := by
  have split : supplyOne (client.signed.run (Q := Fifo α)) =
      client.run >>= fun x =>
        ((Client.note [x] : Client α (Logs α E) shared h Unit).run >>= fun _ => pure x) >>=
          fun x => Act.onQueue (modify (·.append x)) := bind_assoc _ _ _
  rw [split]
  refine .bind hs fun x => ?_
  rintro _ _ ⟨count, balance⟩
  refine .ok ⟨⟨count, ?_⟩, trivial⟩
  simp [balance, append]

end Filling

theorem op_balance {side : Side} {β : Type} (op : Op α side β) (f : Fifo α) :
    ∃ b f', op.perform f = .ok b f' ∧ f.items ++ op.accepted b = op.handed b ++ f'.items ∧
      f'.consumed = f.consumed + (op.handed b).length := by
  have offers : ∀ v : α, ∃ b f', offer v f = .ok b f' ∧
      f.items ++ (Op.offer v).accepted b = f'.items ∧ f'.consumed = f.consumed := by
    intro v
    rw [offer, Act.bind_view]
    cases f.isFull with
    | true => exact ⟨_, _, rfl, List.append_nil _, rfl⟩
    | false => exact ⟨_, _, rfl, rfl, rfl⟩
  have polls : ∃ found f', poll f = .ok found f' ∧ f.items = found.toList ++ f'.items ∧
      f'.consumed = f.consumed + found.toList.length := by
    rw [poll, Act.bind_view]
    cases items : f.items with
    | nil => exact ⟨none, f, rfl, by rw [items]; rfl, rfl⟩
    | cons v rest => exact ⟨some v, _, rfl, rfl, rfl⟩
  cases op with
  | offer v =>
      obtain ⟨b, f', ran, items, consumed⟩ := offers v
      exact ⟨b, f', ran, items, consumed⟩
  | relaxedOffer v =>
      obtain ⟨b, f', ran, items, consumed⟩ := offers v
      refine ⟨b, f', ran, ?_, consumed⟩
      cases b <;> exact items
  | poll =>
      obtain ⟨b, f', ran, items, consumed⟩ := polls
      exact ⟨b, f', ran, (List.append_nil _).trans items, consumed⟩
  | relaxedPoll =>
      obtain ⟨b, f', ran, items, consumed⟩ := polls
      exact ⟨b, f', ran, (List.append_nil _).trans items, consumed⟩
  | peek | relaxedPeek | look side => exact ⟨_, f, rfl, List.append_nil _, rfl⟩

theorem balances_call {h : Handles} {side : Side} {β : Type} (free : h.has side = true)
    (op : Op α side β) :
    Balances ((Client.call free op : Client α E shared h β).run (Q := Fifo α))
      (Client.call free op : Client α E shared h β).recorded.audited.run := by
  rintro _ _ ⟨count, balance⟩
  rename_i f e handed accepted
  obtain ⟨b, f', ran, items, consumed⟩ := op_balance op f
  have plain : Act.onQueue op.perform ⟨f, e⟩ = .ok b ⟨f', e⟩ := Act.onQueue_ok ran
  have beside : Act.onQueue op.perform ⟨f, ((e, handed), accepted)⟩ =
      .ok b ⟨f', ((e, handed), accepted)⟩ := Act.onQueue_ok ran
  have audited : (Client.call free op : Client α (E × List α) shared h β).audited.run
      ⟨f, ((e, handed), accepted)⟩ = .ok b ⟨f', ((e, handed), accepted ++ op.accepted b)⟩ :=
    Act.bind_ok beside _
  have logged : (Client.call free op : Client α E shared h β).recorded.audited.run
      ⟨f, ((e, handed), accepted)⟩ =
        .ok b ⟨f', ((e, handed ++ op.handed b), accepted ++ op.accepted b)⟩ :=
    Act.bind_ok audited _
  refine .of_ok plain logged ⟨⟨?_, ?_⟩, trivial⟩
  · simp only [List.append_nil, List.length_append] at count ⊢
    omega
  · simp only [balance, List.append_nil, List.append_assoc, items]

theorem polls_taken :
    Polls (Balanced (E := E) [] []) (fun x => Balanced [x] []) (Act.onQueue (poll : Act (Fifo α) _))
      (Act.onQueue poll) := by
  rintro _ _ ⟨count, balance⟩
  rename_i f e handed accepted
  rw [List.append_nil] at count
  cases items : f.items with
  | nil =>
      have none : poll f = .ok none f := by
        rw [poll, Act.bind_view, items]
        rfl
      exact .of_ok (Act.onQueue_ok none) (Act.onQueue_ok none) ⟨by rwa [List.append_nil], balance⟩
  | cons v rest =>
      have found : poll f = .ok (some v) { f with items := rest, consumed := f.consumed + 1 } := by
        rw [poll, Act.bind_view, items]
        rfl
      refine .of_ok (Act.onQueue_ok found) (Act.onQueue_ok found) ⟨?_, ?_⟩
      · rw [List.length_append, count]
        rfl
      · simp [balance, items]

theorem consumes_noted {h : Handles} {consume : α → Client α E shared h Unit}
    (hc : ∀ x, Balances (consume x).run ((consume x).recorded.audited.run (Q := Fifo α))) :
    Consumes (Balanced [] []) (fun x => Balanced [x] []) (fun x => (consume x).run)
      (fun x => (Client.bind (.note [x]) fun _ => (consume x).recorded :
        Client α (E × List α) shared h Unit).audited.run) := by
  rintro x _ _ ⟨count, balance⟩
  refine tracks_any.mp (hc x) _ ⟨_, ((_, _), _)⟩ ⟨?_, ?_⟩
  · rwa [List.append_nil]
  · rw [balance, List.append_nil, List.append_nil, List.append_nil]

theorem balances_client {h : Handles} {β : Type} (client : Client α E shared h β) :
    Balances (client.run (Q := Fifo α)) (client.recorded.audited.run) := by
  induction client with
  | done b => exact .pure b
  | bind first next first_ih next_ih => exact .bind first_ih next_ih
  | own work =>
      rintro _ _ ⟨count, balance⟩
      exact .ok ⟨⟨count, balance⟩, trivial⟩
  | panic => exact .throw (by decide)
  | stop => exact .throw (by decide)
  | attempt body ih => exact .attempt ih
  | call free op => exact balances_call free op
  | fill free supply limit ih => exact balances_fillFrom (balances_supplyOne ih) 0 limit
  | fillAll free supply ih =>
      exact .bind (balances_view _) fun capacity =>
        balances_fillFrom (balances_supplyOne ih) 0 capacity
  | fillWith free supply wait keepRunning polls ih wait_ih keep_ih =>
      exact balances_fillLoop (balances_supplyOne ih) wait_ih keep_ih polls 0
  | drain free consume limit ih => exact polls_taken.drainFrom (consumes_noted ih) 0 limit
  | drainAll free consume ih =>
      exact .bind (balances_view _) fun capacity =>
        polls_taken.drainFrom (consumes_noted ih) 0 capacity
  | drainWith free consume wait keepRunning polls ih wait_ih keep_ih =>
      exact polls_taken.drainLoop (consumes_noted ih) wait_ih keep_ih polls 0

/-- What a client gave to a list that was empty is what it was given and what is left. -/
theorem logged_run {h : Handles} {β : Type} (client : Client α E shared h β) {f : Fifo α}
    (fresh : f.consumed = 0) (empty : f.items = []) (env : E) :
    let x := client.run ⟨f, env⟩
    let y := client.recorded.audited.run ⟨f, ((env, []), [])⟩
    (verdict y).1 = (verdict x).1 ∧ (verdict y).2.1.1 = (verdict x).2 ∧
      (verdict y).2.1.2.length = (channelAfter x).consumed ∧
      (verdict y).2.2 = (verdict y).2.1.2 ++ (channelAfter x).items ∧
      channelAfter y = channelAfter x := by
  intro x y
  have start : Balanced (E := E) [] [] ⟨f, env⟩ ⟨f, ((env, []), [])⟩ :=
    .intro fresh.symm (by rw [empty]; rfl)
  obtain ⟨answer, balanced, -⟩ := (balances_client client _ _ start).ends
  obtain ⟨after, memory, count, balance⟩ := balanced.holds
  exact ⟨answer.symm, memory, count, balance, after⟩

end Fifo
end Handoff
