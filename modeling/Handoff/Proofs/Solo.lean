import Handoff.Proofs.ChainMoves
import Handoff.Proofs.ChainStreaming
import Handoff.Proofs.ProducerKnowledge

/-! A thread of a chain that moves alone. If none of its weak compare-exchanges fails for
no reason, its steps come to what its call comes to when it is made at once. The places on
the way tell how often a producer started over. -/
namespace Handoff.ChainMachine

open Chain

variable {α P R σ : Type}

/-- From `pc` on a thread has gone through the places of the list, each with its step, and
nobody else has moved. -/
inductive Alone (step : P → Act σ (P × R)) : P → σ → List P → P → σ → Prop
  | stay (pc : P) (s : σ) : Alone step pc s [] pc s
  | step {pc next last : P} {s s' s'' : σ} {r : R} {path : List P}
      (moved : step pc s = .ok (next, r) s') (onward : Alone step next s' path last s'') :
      Alone step pc s (pc :: path) last s''

namespace Alone

variable {step : P → Act σ (P × R)} {pc next last : P} {s s' s'' : σ} {r : R} {path path' : List P}

theorem once (moved : step pc s = .ok (next, r) s') : Alone step pc s [pc] next s' :=
  .step moved (.stay next s')

theorem trans (first : Alone step pc s path next s') (second : Alone step next s' path' last s'') :
    Alone step pc s (path ++ path') last s'' := by
  induction first with
  | stay pc s => exact second
  | step moved onward ih => exact .step moved (ih second)

end Alone

namespace ProducerPc

def starts : ProducerPc α → Bool
  | loadLimit _ => true
  | _ => false

end ProducerPc

def GoesOn (path : List (ProducerPc α)) : Prop := ∀ pc ∈ path, pc.starts = false

theorem GoesOn.append {path more : List (ProducerPc α)} (first : GoesOn path)
    (rest : GoesOn more) : GoesOn (path ++ more) :=
  List.forall_mem_append.mpr ⟨first, rest⟩

def OnePass : List (ProducerPc α) → Prop
  | [] => False
  | pc :: rest => pc.starts = true ∧ GoesOn rest

/-- The places of a thread that decides on its first pass, or raises the limit on it and
decides on the second. -/
def OneOrTwoPasses (path : List (ProducerPc α)) : Prop :=
  OnePass path ∨ ∃ first second e d limit, OnePass first ∧ OnePass second ∧
    path = first ++ .raiseLimit e d limit :: second

theorem OnePass.append {path more : List (ProducerPc α)} (one : OnePass path)
    (onward : GoesOn more) : OnePass (path ++ more) := by
  cases path with
  | nil => exact one.elim
  | cons pc rest => exact ⟨one.1, one.2.append onward⟩

theorem OneOrTwoPasses.append {path more : List (ProducerPc α)} (passes : OneOrTwoPasses path)
    (onward : GoesOn more) : OneOrTwoPasses (path ++ more) := by
  rcases passes with one | ⟨first, second, e, d, limit, one, one', rfl⟩
  · exact .inl (one.append onward)
  · refine .inr ⟨first, second ++ more, e, d, limit, one, one'.append onward, ?_⟩
    rw [List.append_assoc, List.cons_append]

/-- A producer moves alone. -/
abbrev ProducesAlone : ProducerPc α → Chain α → List (ProducerPc α) → ProducerPc α → Chain α →
    Prop :=
  Alone (stepProducer false)

variable {q q' : Chain α} {e : Errand α}

def draft (q : Chain α) : Draft := ⟨q.limit, q.producerIndex, q.tail⟩

theorem claim_eq (clear : Index.linking q.producerIndex = false) (wanted : Nat) :
    claim wanted q =
      match q.room with
      | .full => .ok .full q
      | .below limit =>
        let stop := min limit (q.producerIndex + Word.double wanted)
        .ok (.run ⟨q.tail, q.producerIndex⟩ ((stop - q.producerIndex) / 2))
          { q with limit := limit, producerIndex := stop }
      | .link => .ok (.link ⟨q.tail, q.producerIndex⟩)
          { q with producerIndex := q.producerIndex + 1 } := by
  rw [claim, Act.bind_view]
  simp only [clear, Bool.false_eq_true, if_false]
  rw [Act.bind_view]
  cases q.room <;> rfl

theorem produces_loads (clear : Index.linking q.producerIndex = false) :
    ProducesAlone (.loadLimit e) q
      [.loadLimit e, .loadIndex e q.limit, .loadMask e q.limit q.producerIndex,
        .loadChunk e q.limit q.producerIndex q.tail.mask]
      (ProducerPc.decide e (draft q)) q := by
  have looked : ProducerPc.Steps false q _ _ _ _ := .loadsIndex e q.limit clear
  exact .step rfl (.step looked.run (.step rfl (.once rfl)))

theorem onePass_loads (q : Chain α) : OnePass [.loadLimit e, .loadIndex e q.limit,
    .loadMask e q.limit q.producerIndex, .loadChunk e q.limit q.producerIndex q.tail.mask] := by
  refine ⟨rfl, ?_⟩
  simp [GoesOn, ProducerPc.starts]

theorem produces_below (clear : Index.linking q.producerIndex = false)
    (below : q.producerIndex < q.limit) :
    ∃ path, OnePass path ∧ ProducesAlone (.loadLimit e) q path (.claim e (draft q)) q := by
  have loads := produces_loads (e := e) clear
  have decided : ProducerPc.decide e (draft q) = .claim e (draft q) :=
    if_neg (Nat.not_le_of_lt below)
  rw [decided] at loads
  exact ⟨_, onePass_loads q, loads⟩

theorem produces_reconsider (clear : Index.linking q.producerIndex = false)
    (reached : q.limit ≤ q.producerIndex) :
    ∃ path, OnePass path ∧ ProducesAlone (.loadLimit e) q path
      (ProducerPc.reconsider e (draft q) q.bound q.consumerIndex) q := by
  have loads := produces_loads (e := e) clear
  have decided : ProducerPc.decide e (draft q) = .loadConsumer e (draft q) := if_pos reached
  rw [decided] at loads
  have looks : ProducesAlone (.loadConsumer e (draft q)) q [.loadConsumer e (draft q)] _ q :=
    .once rfl
  refine ⟨_, (onePass_loads q).append ?_, loads.trans looks⟩
  simp [GoesOn, ProducerPc.starts]

theorem room_eq_below (below : q.producerIndex < q.limit) : q.room = .below q.limit := by
  simp [room, below]

theorem reconsider_cases (reached : q.limit ≤ q.producerIndex) (e : Errand α) :
    (∃ limit, q.room = .below limit ∧
      ProducerPc.reconsider e (draft q) q.bound q.consumerIndex = .raiseLimit e (draft q) limit) ∨
    (q.room = .full ∧
      ProducerPc.reconsider e (draft q) q.bound q.consumerIndex = ProducerPc.refused e) ∨
    q.room = .link ∧
      ProducerPc.reconsider e (draft q) q.bound q.consumerIndex = .mark e (draft q) := by
  have above : ¬ q.producerIndex < q.limit := Nat.not_lt_of_le reached
  by_cases reach : q.producerIndex < q.consumerIndex + q.tail.mask
  · refine .inl ⟨q.consumerIndex + q.tail.mask, ?_, ?_⟩
    · simp [room, above, reach]
    · simp [ProducerPc.reconsider, draft, reach]
  · by_cases full : q.bound - Index.distance q.producerIndex q.consumerIndex = 0
    · refine .inr (.inl ⟨?_, ?_⟩)
      · simp [room, above, reach, freeAt, full]
      · simp [ProducerPc.reconsider, draft, reach, full]
    · refine .inr (.inr ⟨?_, ?_⟩)
      · simp [room, above, reach, freeAt, full]
      · simp [ProducerPc.reconsider, draft, reach, full]

variable {d : Draft} {cursor : Cursor} {index done left : Nat}

theorem produces_put (h : Chain.put cursor index (e.element done) q = .ok () q') :
    ProducesAlone (.write e cursor index done left) q [.write e cursor index done left]
      (ProducerPc.writing e cursor (index + 2) (done + 1) (left - 1)) q' :=
  .once (Act.bind_ok h _)

theorem produces_extend (ran : extend ⟨d.cursor, d.index⟩ (e.element 0) q = .ok () q') :
    ∃ path, GoesOn path ∧
      ProducesAlone (.grow e d) q path (ProducerPc.finished e 1) q' := by
  rw [extend] at ran
  obtain ⟨next, q₁, pushed, rest⟩ := Act.of_bind_ok ran
  simp only at rest
  rw [Act.bind_modify] at rest
  obtain ⟨_, q₂, put, rest⟩ := Act.of_bind_ok rest
  obtain ⟨_, q₃, linked, rest⟩ := Act.of_bind_ok rest
  rw [Act.bind_view] at rest
  have room : q₃.freeAt d.index ≠ 0 := by
    intro none
    rw [if_pos none] at rest
    cases rest
  rw [if_neg room, Act.bind_modify] at rest
  let cursor : Cursor := ⟨next, Index.maskOf (Index.sizeOfMask d.cursor.mask)⟩
  have size : Index.sizeOfMask cursor.mask = Index.sizeOfMask d.cursor.mask :=
    Index.sizeOfMask_maskOf (Nat.succ_pos _)
  have checked : ProducerPc.Steps false q₃ _ _ _ _ := .checksRoom e d cursor room
  rw [size] at checked
  refine ⟨[.grow e d, .storeMask e d cursor, .writeFirst e d cursor, .link e d cursor,
    .checkRoom e d cursor, .storeLimit e d (d.index + min cursor.mask (q₃.freeAt d.index)),
    .storeIndex e d, .writeJump e d], by simp [GoesOn, ProducerPc.starts], ?_⟩
  exact .step (Act.bind_ok pushed _) (.step rfl (.step (Act.bind_ok put _)
    (.step (Act.bind_ok linked _) (.step checked.run (.step rfl (.step rfl
      (.once (Act.bind_ok rest _))))))))

theorem produces_claim (here : q.producerIndex = d.index) :
    ProducesAlone (.claim e d) q [.claim e d]
      (ProducerPc.writing e d.cursor d.index 0 ((ProducerPc.stop e d - d.index) / 2))
      { q with producerIndex := ProducerPc.stop e d } := by
  have claims : ProducerPc.Steps false q _ _ _ _ := .claims e d rfl here
  exact .once claims.run

theorem produces_raise (limit : Nat) :
    ProducesAlone (.raiseLimit e (draft q) limit) q [.raiseLimit e (draft q) limit]
      (ProducerPc.raised e (draft q)) { q with limit := limit } := by
  have raises : ProducerPc.Steps false q _ _ _ _ := .raises e (draft q) limit rfl
  exact .once raises.run

theorem produces_mark :
    ProducesAlone (.mark e (draft q)) q [.mark e (draft q)] (.grow e (draft q))
      { q with producerIndex := q.producerIndex + 1 } := by
  have marks : ProducerPc.Steps false q _ _ _ _ := .marks e (draft q) rfl
  exact .once marks.run

def ProducerPc.decided (e : Errand α) (limit : Nat) : Claim → ProducerPc α
  | .full => refused e
  | .run site count => writing e site.cursor site.index 0 count
  | .link site => grow e ⟨limit, site.index, site.cursor⟩

/-- An offer decides on its first pass. Only a fill looks again once it has raised the
limit. -/
def Errand.Decides : Errand α → List (ProducerPc α) → Prop
  | .offer _ => OnePass
  | .fill _ _ => OneOrTwoPasses

theorem OnePass.decides {path : List (ProducerPc α)} (one : OnePass path) (e : Errand α) :
    e.Decides path := by
  cases e with
  | offer v => exact one
  | fill wanted supply => exact .inl one

theorem stop_eq_min (room : q.producerIndex + 2 ≤ q.limit) (e : Errand α) :
    ProducerPc.stop e (draft q) = min q.limit (q.producerIndex + Word.double e.wanted) := by
  cases e with
  | offer v => exact (Nat.min_eq_right room).symm
  | fill wanted supply => rfl

theorem produces_grant (clear : Index.linking q.producerIndex = false)
    (room : q.producerIndex + 2 ≤ q.limit) :
    let stop := min q.limit (q.producerIndex + Word.double e.wanted)
    ∃ path, OnePass path ∧ ProducesAlone (.loadLimit e) q path
      (ProducerPc.writing e q.tail q.producerIndex 0 ((stop - q.producerIndex) / 2))
      { q with producerIndex := stop } := by
  intro stop
  obtain ⟨path, one, looks⟩ := produces_below (e := e) clear (by omega)
  have claims := produces_claim (q := q) (e := e) (d := draft q) rfl
  rw [stop_eq_min room] at claims
  exact ⟨_, one.append (by simp [GoesOn, ProducerPc.starts]), looks.trans claims⟩

theorem produces_raised (clear : Index.linking q.producerIndex = false) {limit : Nat}
    (room : q.producerIndex + 2 ≤ limit) {path : List (ProducerPc α)} (one : OnePass path)
    (looks : ProducesAlone (.loadLimit e) q path (.raiseLimit e (draft q) limit) q) :
    let stop := min limit (q.producerIndex + Word.double e.wanted)
    ∃ path, e.Decides path ∧ ProducesAlone (.loadLimit e) q path
      (ProducerPc.writing e q.tail q.producerIndex 0 ((stop - q.producerIndex) / 2))
      { q with limit := limit, producerIndex := stop } := by
  intro stop
  have raises := looks.trans (produces_raise limit)
  cases e with
  | offer v =>
      have claims := produces_claim (q := { q with limit := limit }) (e := .offer v)
        (d := draft q) rfl
      have one_more : stop = q.producerIndex + 2 := Nat.min_eq_right room
      rw [one_more]
      refine ⟨_, (one.append ?_).append ?_, raises.trans claims⟩
      · simp [GoesOn, ProducerPc.starts]
      · simp [GoesOn, ProducerPc.starts]
  | fill wanted supply =>
      obtain ⟨again, one', grants⟩ := produces_grant (q := { q with limit := limit })
        (e := .fill wanted supply) clear room
      refine ⟨_, .inr ⟨path, again, .fill wanted supply, draft q, limit, one, one', ?_⟩,
        raises.trans grants⟩
      rw [List.append_assoc, List.singleton_append]

/-- Alone, a producer comes to the same decision as a claim at once, after one pass, or
after a second one if a fill has raised the limit. -/
theorem produces_decision (clear : Index.linking q.producerIndex = false)
    (even : ∀ limit, q.room = .below limit → q.producerIndex + 2 ≤ limit) (e : Errand α)
    {claimed : Claim} (ran : claim e.wanted q = .ok claimed q') :
    ∃ path, e.Decides path ∧
      ProducesAlone (.loadLimit e) q path (ProducerPc.decided e q.limit claimed) q' := by
  rw [claim_eq clear] at ran
  by_cases below : q.producerIndex < q.limit
  · have room := room_eq_below below
    rw [room] at ran
    cases ran
    obtain ⟨path, one, grants⟩ := produces_grant (e := e) clear (even _ room)
    exact ⟨path, one.decides e, grants⟩
  · have reached := Nat.le_of_not_lt below
    obtain ⟨path, one, looks⟩ := produces_reconsider (e := e) clear reached
    rcases reconsider_cases reached e with ⟨limit, room, next⟩ | ⟨room, next⟩ | ⟨room, next⟩
    · rw [room] at ran
      rw [next] at looks
      cases ran
      exact produces_raised clear (even _ room) one looks
    · rw [room] at ran
      rw [next] at looks
      cases ran
      exact ⟨path, one.decides e, looks⟩
    · rw [room] at ran
      rw [next] at looks
      cases ran
      refine ⟨_, (one.append ?_).decides e, looks.trans produces_mark⟩
      simp [GoesOn, ProducerPc.starts]

theorem claimed_one (clear : Index.linking q.producerIndex = false)
    (even : ∀ limit, q.room = .below limit → q.producerIndex + 2 ≤ limit) {site : Site}
    {count : Nat} (ran : claim 1 q = .ok (.run site count) q') : count = 1 := by
  rw [claim_eq clear] at ran
  cases room : q.room with
  | full | link =>
      rw [room] at ran
      cases ran
  | below limit =>
      rw [room] at ran
      cases ran
      have stop : min limit (q.producerIndex + Word.double 1) = q.producerIndex + 2 :=
        Nat.min_eq_right (even _ room)
      rw [stop, Nat.add_sub_cancel_left]

def offered : Except (Full α) Unit → Thread.ProducerResult
  | .ok _ => .accepted
  | .error _ => .full

/-- An offer that returns has decided on its first pass. -/
theorem produces_offer (clear : Index.linking q.producerIndex = false)
    (even : ∀ limit, q.room = .below limit → q.producerIndex + 2 ≤ limit) {v : α}
    {answer : Except (Full α) Unit} (ran : offer v q = .ok answer q') :
    ∃ path, OnePass path ∧
      ProducesAlone (.loadLimit (.offer v)) q path (.idle (some (offered answer))) q' := by
  rw [offer] at ran
  obtain ⟨claimed, q₁, first, rest⟩ := Act.of_bind_ok ran
  obtain ⟨path, one, decides⟩ := produces_decision clear even (.offer v) first
  cases claimed with
  | full =>
      cases rest
      exact ⟨path, one, decides⟩
  | run site count =>
      obtain ⟨_, q₂, stored, told⟩ := Act.of_bind_ok rest
      cases told
      obtain rfl := claimed_one clear even first
      exact ⟨_, OnePass.append one (by simp [GoesOn, ProducerPc.starts]),
        decides.trans (produces_put (e := .offer v) stored)⟩
  | link site =>
      obtain ⟨_, q₂, linked, told⟩ := Act.of_bind_ok rest
      cases told
      obtain ⟨links, onward, grows⟩ :=
        produces_extend (e := .offer v) (d := ⟨q.limit, site.index, site.cursor⟩) linked
      exact ⟨_, OnePass.append one onward, decides.trans grows⟩

def numbered (supply : Nat → α) : Client α Nat true (Handles.both.lend true .producer) α :=
  .own fun k => (supply k, k + 1)

theorem produces_writes (wanted : Nat) {supply : Nat → α} {w : World (Chain α) Nat}
    (ran : writeRun (numbered supply).run cursor index left ⟨q, done⟩ = .ok () w) :
    ∃ path, GoesOn path ∧
      ProducesAlone (.writing (.fill wanted supply) cursor index done left) q path
        (.idle (some (.filled (done + left)))) w.queue := by
  induction left generalizing q index done with
  | zero =>
      cases ran
      exact ⟨[], by simp [GoesOn], .stay _ _⟩
  | succ left ih =>
      obtain ⟨_, _, supplied, writing⟩ := Act.of_bind_ok ran
      cases supplied
      obtain ⟨_, ⟨q₁, _⟩, storing, rest⟩ := Act.of_bind_ok writing
      obtain ⟨stored, same⟩ := Act.of_onQueue_ok storing
      cases same
      obtain ⟨path, onward, writes⟩ := ih rest
      have write : ProducesAlone (.write (.fill wanted supply) cursor index done (left + 1)) q
          [.write (.fill wanted supply) cursor index done (left + 1)]
          (.writing (.fill wanted supply) cursor (index + 2) (done + 1) left) q₁ :=
        produces_put stored
      have total : done + (left + 1) = done + 1 + left := by omega
      rw [total]
      refine ⟨_, GoesOn.append ?_ onward, write.trans writes⟩
      simp [GoesOn, ProducerPc.starts]

/-- A fill that returns has decided on its first pass, or has raised the limit and decided
on its second. -/
theorem produces_fill (clear : Index.linking q.producerIndex = false)
    (even : ∀ limit, q.room = .below limit → q.producerIndex + 2 ≤ limit) {wanted count : Nat}
    {supply : Nat → α} {w : World (Chain α) Nat}
    (ran : fill (numbered supply).run wanted ⟨q, 0⟩ = .ok count w) :
    ∃ path, OneOrTwoPasses path ∧
      ProducesAlone (.loadLimit (.fill wanted supply)) q path (.idle (some (.filled count)))
        w.queue := by
  rw [fill] at ran
  obtain ⟨claimed, ⟨q₁, _⟩, claiming, rest⟩ := Act.of_bind_ok ran
  obtain ⟨first, same⟩ := Act.of_onQueue_ok claiming
  cases same
  obtain ⟨path, passes, decides⟩ := produces_decision clear even (.fill wanted supply) first
  cases claimed with
  | full =>
      cases rest
      exact ⟨path, passes, decides⟩
  | run site n =>
      obtain ⟨_, w₁, wrote, told⟩ := Act.of_bind_ok rest
      cases told
      obtain ⟨more, onward, writes⟩ := produces_writes wanted wrote
      rw [Nat.zero_add] at writes
      exact ⟨_, OneOrTwoPasses.append passes onward, decides.trans writes⟩
  | link site =>
      obtain ⟨_, _, supplied, linking⟩ := Act.of_bind_ok rest
      cases supplied
      obtain ⟨_, w₁, growing, told⟩ := Act.of_bind_ok linking
      cases told
      obtain ⟨linked, -⟩ := Act.of_onQueue_ok growing
      obtain ⟨links, onward, grows⟩ := produces_extend (e := .fill wanted supply)
        (d := ⟨q.limit, site.index, site.cursor⟩) linked
      exact ⟨_, OneOrTwoPasses.append passes onward, decides.trans grows⟩

end Handoff.ChainMachine
