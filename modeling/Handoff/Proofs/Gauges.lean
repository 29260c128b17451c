import Handoff.Proofs.Bookkeeping
import Handoff.Proofs.ChainFill

/-! What the counters of a chain show while it is in use. A client is watched: before
and after each call and at each of its own steps, also inside callbacks, the counters
are noted. A moment inside a callback is at the same time the end of the client that is
stopped there, so what holds of every run holds at each of these moments. -/
namespace Handoff

variable {α E ρ Q R : Type} {shared : Bool}

namespace Client

def glance (view : Q → ρ) : Act (World Q (E × List ρ)) Unit :=
  modify fun ⟨queue, (env, log)⟩ => ⟨queue, (env, log ++ [view queue])⟩

def around {γ : Type} (view : Q → ρ) (act : Act (World Q (E × List ρ)) γ) :
    Act (World Q (E × List ρ)) γ := do
  glance view
  let b ← act
  glance view
  return b

/-- The client on a channel, with a log of all that is seen of the channel. -/
def watched [Channel Q α] (view : Q → ρ) {h : Handles} {β : Type} :
    Client α E shared h β → Act (World Q (E × List ρ)) β
  | done b => around view (return b)
  | bind first next => first.watched view >>= fun b => (next b).watched view
  | own work => around view (modifyGet fun ⟨queue, (env, log)⟩ =>
      ((work env).1, ⟨queue, ((work env).2, log)⟩))
  | panic => around view (throw .panicked)
  | stop => around view (throw .stopped)
  | attempt body => Act.attempt (body.watched view)
  | call _ op => around view (Act.onQueue op.perform)
  | fill _ supply limit => around view (Channel.fill (supply.watched view) limit)
  | fillAll _ supply => around view (Channel.fillAll (supply.watched view))
  | fillWith _ supply wait keepRunning polls =>
    around view (Channel.fillWith (supply.watched view) (fun counter => (wait counter).watched view)
      (keepRunning.watched view) polls)
  | drain _ consume limit => around view (Channel.drain (fun v => (consume v).watched view) limit)
  | drainAll _ consume => around view (Channel.drainAll fun v => (consume v).watched view)
  | drainWith _ consume wait keepRunning polls =>
    around view (Channel.drainWith (fun v => (consume v).watched view)
      (fun counter => (wait counter).watched view) (keepRunning.watched view) polls)

variable {view : Q → ρ} {view' : R → ρ} {rel : Q → R → Prop} {m : Moves R}

theorem glance_follows (same : ∀ q t, rel q t → view q = view' t) :
    Follows rel m (glance (E := E) view) (glance view') := by
  rintro ⟨q, env⟩ ⟨t, _⟩ ⟨rfl, related⟩
  have log := congrArg (fun seen => (env.1, env.2 ++ [seen])) (same q t related)
  exact .of_ok rfl rfl ⟨⟨log, related⟩, m.refl t⟩

theorem around_follows {γ : Type} (same : ∀ q t, rel q t → view q = view' t)
    {a : Act (World Q (E × List ρ)) γ} {b : Act (World R (E × List ρ)) γ} (h : Follows rel m a b) :
    Follows rel m (around view a) (around view' b) :=
  (Tracks.bind (glance_follows same)) fun _ => h.bind fun b =>
    (glance_follows same).bind fun _ => .pure b

theorem watched_follows [Channel Q α] [Channel R α] (S : Refinement Q R shared)
    (same : ∀ q t, S.rel q t → view q = view' t) {h : Handles} {β : Type}
    (client : Client α E shared h β) :
    Follows S.rel (S.moves h) (client.watched view) (client.watched view') := by
  induction client with
  | done b => exact around_follows same (.pure b)
  | bind first next first_ih next_ih => exact .bind first_ih next_ih
  | own work =>
      apply around_follows same
      rintro ⟨q, env⟩ ⟨t, _⟩ ⟨rfl, related⟩
      exact .ok ⟨⟨rfl, related⟩, (S.moves _).refl t⟩
  | panic => exact around_follows same (.throw (by decide))
  | stop => exact around_follows same (.throw (by decide))
  | attempt body ih => exact .attempt ih
  | call free op => exact around_follows same (.onQueue (S.call free op))
  | fill free supply limit ih => exact around_follows same (S.fill free ih limit)
  | fillAll free supply ih => exact around_follows same (S.fillAll free ih)
  | fillWith free supply wait keepRunning polls ih wait_ih keep_ih =>
      exact around_follows same (S.fillWith free ih wait_ih keep_ih polls)
  | drain free consume limit ih => exact around_follows same (S.drain free ih limit)
  | drainAll free consume ih => exact around_follows same (S.drainAll free ih)
  | drainWith free consume wait keepRunning polls ih wait_ih keep_ih =>
      exact around_follows same (S.drainWith free ih wait_ih keep_ih polls)

end Client

/-- The counters of a chain. The first three are as they are kept: doubled, and the
producer's index with the mark. -/
structure Gauges where
  producer : Nat
  consumer : Nat
  limit : Nat
  length : Nat
  capacity : Nat
  isEmpty : Bool

namespace Gauges

/-- The length counts all that is claimed and not consumed, and stays within the
capacity. -/
structure Sound (g : Gauges) : Prop where
  ordered : g.consumer ≤ g.producer
  length : g.length = g.producer / 2 - g.consumer / 2
  bounded : g.length ≤ g.capacity
  empty : g.isEmpty = true ↔ g.length = 0 ∧ Index.linking g.producer = false

/-- No counter that is kept is lower in the second. -/
structure Below (g g' : Gauges) : Prop where
  producer : g.producer ≤ g'.producer
  consumer : g.consumer ≤ g'.consumer
  limit : g.limit ≤ g'.limit

theorem Below.refl (g : Gauges) : g.Below g := ⟨Nat.le_refl _, Nat.le_refl _, Nat.le_refl _⟩

theorem Below.trans {a b c : Gauges} (hab : a.Below b) (hbc : b.Below c) : a.Below c :=
  ⟨Nat.le_trans hab.producer hbc.producer, Nat.le_trans hab.consumer hbc.consumer,
    Nat.le_trans hab.limit hbc.limit⟩

/-- The log so far, and the counters now. -/
def Rising (log : List Gauges) (g : Gauges) : Prop := (log ++ [g]).Pairwise Below

variable {log : List Gauges} {g g' : Gauges}

theorem Rising.rise (h : Rising log g) (below : g.Below g') : Rising log g' := by
  obtain ⟨sorted, -, all⟩ := List.pairwise_append.mp h
  refine List.pairwise_append.mpr ⟨sorted, List.pairwise_singleton _ _, fun m hm n hn => ?_⟩
  obtain rfl := List.mem_singleton.mp hn
  exact (all m hm g (List.mem_singleton_self g)).trans below

theorem Rising.noted (h : Rising log g) : Rising (log ++ [g]) g := by
  refine List.pairwise_append.mpr ⟨h, List.pairwise_singleton _ _, fun m hm n hn => ?_⟩
  obtain rfl := List.mem_singleton.mp hn
  rcases List.mem_append.mp hm with old | new
  · exact (List.pairwise_append.mp h).2.2 m old n (List.mem_singleton_self n)
  · rw [List.mem_singleton.mp new]
    exact .refl n

end Gauges

namespace Tape

def gauges (t : Tape α) : Gauges :=
  { producer := 2 * t.claimed + t.marked.toNat
    consumer := 2 * t.consumed
    limit := 2 * t.limit
    length := t.claimed - t.consumed
    capacity := t.size.capacity
    isEmpty := t.isEmpty }

variable {t : Tape α}

theorem Valid.sound (h : t.Valid) : t.gauges.Sound := by
  have ordered := h.consumed_le
  have claimed := h.claimed_le
  have limit := h.limit_le
  constructor
  case ordered =>
    simp only [gauges]
    omega
  case length =>
    simp only [gauges]
    cases t.marked <;> simp only [Bool.toNat_true, Bool.toNat_false] <;> omega
  case bounded =>
    simp only [gauges]
    omega
  case empty =>
    simp only [gauges, isEmpty]
    cases t.marked with
    | true => simp [Index.linking_double_succ]
    | false =>
        simp only [Bool.not_false, Bool.and_true, beq_iff_eq, Bool.toNat_false, Nat.add_zero,
          Index.linking_double, and_true]
        omega

theorem gauges_grant (h : t.Valid) (unmarked : t.marked = false) {limit : Nat}
    (room : t.room = .below limit) (wanted : Nat) :
    t.gauges.Below (t.grant limit wanted).gauges := by
  obtain ⟨raised, below, -, -⟩ := h.room_below room
  constructor
  · simp only [gauges, grant, unmarked]
    omega
  · exact Nat.le_refl _
  · exact Nat.mul_le_mul_left 2 raised

theorem gauges_mark (unmarked : t.marked = false) : t.gauges.Below t.mark.gauges := by
  refine ⟨?_, Nat.le_refl _, Nat.le_refl _⟩
  simp only [gauges, mark, unmarked]
  exact Nat.le_succ _

theorem gauges_link (h : t.Valid) (marked : t.marked = true) (v : α) :
    t.gauges.Below (t.link v).gauges := by
  obtain ⟨limit, -, -⟩ := h.marked marked
  constructor
  · simp only [gauges, link, marked, Bool.toNat_true, Bool.toNat_false]
    omega
  · exact Nat.le_refl _
  · simp only [gauges, link, store]
    omega

theorem gauges_handOut (t : Tape α) (v : α) : t.gauges.Below (t.handOut v).gauges :=
  ⟨Nat.le_refl _, Nat.mul_le_mul_left 2 (Nat.le_succ _), Nat.le_refl _⟩

/-- What the notes of a run say of its log and of the tape as it is now. It stands in
the memory of the client that is watched, whatever is owed. -/
structure Logged (notes : List Gauges → Tape α → Prop) (_ : List α) (e : E)
    (f : E × List Gauges) (t : Tape α) : Prop where
  same : f.1 = e
  notes : notes f.2 t

/-- Notes that each step of the tape keeps, and each moment that is put down. -/
structure Logbook (notes : List Gauges → Tape α → Prop) : Prop where
  grant : ∀ {log t limit}, notes log t → t.Valid → t.marked = false → t.room = .below limit →
    ∀ wanted, notes log (t.grant limit wanted)
  mark : ∀ {log t}, notes log t → t.Valid → t.marked = false → t.room = .link →
    notes log t.mark
  store : ∀ {log t}, notes log t → ∀ i v, notes log (t.store i v)
  link : ∀ {log t}, notes log t → t.Valid → t.marked = true → ∀ v, notes log (t.link v)
  handOut : ∀ {log t}, notes log t → ∀ v, notes log (t.handOut v)
  noted : ∀ {log t}, notes log t → t.Valid → notes (log ++ [t.gauges]) t

namespace Logbook

variable {notes : List Gauges → Tape α → Prop} {γ : Type}
  {act : Act (World (Tape α) E) γ} {act' : Act (World (Tape α) (E × List Gauges)) γ}

theorem supplies {supply : Act (World (Tape α) E) α}
    {supply' : Act (World (Tape α) (E × List Gauges)) α} (h : Keeps (Logged notes) supply supply') :
    Supplies (Logged notes) supply supply' := by
  intro w v beside
  refine (h w v beside).mono ?_ fun _ _ lands => lands
  rintro x _ _ ⟨⟨valid, same, kept⟩, later⟩
  exact ⟨.intro valid ⟨same, kept⟩, later⟩

variable (book : Logbook notes)
include book

theorem books : Bookkeeping 0 (Logged (E := E) notes) where
  begun _ := Nat.zero_le _
  grant h valid unmarked room wanted := ⟨h.same, book.grant h.notes valid unmarked room wanted⟩
  mark h valid unmarked room := ⟨h.same, book.mark h.notes valid unmarked room⟩
  store h _ _ _ _ := ⟨h.same, book.store h.notes _ _⟩
  link h valid marked := ⟨h.same, book.link h.notes valid marked _⟩
  handOut h _ _ := ⟨h.same, book.handOut h.notes _⟩

theorem keeps_glanced (h : Keeps (Logged notes) act act') :
    Keeps (Logged notes) act (Client.glance gauges >>= fun _ => act') := by
  rintro _ _ ⟨valid, same, kept⟩
  rename_i t e f
  exact h ⟨t, e⟩ ⟨t, (f.1, f.2 ++ [t.gauges])⟩ ⟨valid, same, book.noted kept valid⟩

theorem keeps_around (h : Keeps (Logged notes) act act') :
    Keeps (Logged notes) act (Client.around gauges act') := by
  have again : Keeps (Logged notes) (act >>= pure)
      (act' >>= fun b => Client.glance gauges >>= fun _ => pure b) :=
    h.bind fun b => book.keeps_glanced (.pure b)
  rw [bind_pure] at again
  exact book.keeps_glanced again

theorem keeps_op {side : Side} {β : Type} (op : Op α side β) :
    Keeps (Logged (E := E) notes) (Act.onQueue (op.perform (Q := Tape α)))
      (Act.onQueue op.perform) := by
  have offers : ∀ v : α, Keeps (Logged (E := E) notes) (Act.onQueue (offer v))
      (Act.onQueue (offer v)) := by
    rintro v _ _ ⟨valid, same, kept⟩
    rename_i t e f
    rcases book.books.offer_cases valid v with hx | hx | ⟨u, hx, valid', later, stored⟩
    · exact .of_error (Act.onQueue_error hx) (Act.onQueue_error hx) (by decide)
        ⟨.intro valid ⟨same, kept⟩, Later.refl t⟩
    · exact .of_ok (Act.onQueue_ok hx) (Act.onQueue_ok hx)
        ⟨.intro valid ⟨same, kept⟩, Later.refl t⟩
    · exact .of_ok (Act.onQueue_ok hx) (Act.onQueue_ok hx)
        ⟨.intro valid' (stored ⟨same, kept⟩), later⟩
  cases op with
  | offer v => exact offers v
  | relaxedOffer v => exact offers v
  | look side => exact book.books.keeps_reads (reads_view _)
  | poll | relaxedPoll | peek | relaxedPeek => exact book.books.keeps_reads (reads_op _)

theorem keeps_client {h : Handles} {β : Type} (client : Client α E shared h β) :
    Keeps (Logged notes) (client.run (Q := Tape α)) (client.watched gauges) := by
  have books := book.books (E := E)
  induction client with
  | done b => exact book.keeps_around (.pure b)
  | bind first next first_ih next_ih => exact .bind first_ih next_ih
  | own work =>
      apply book.keeps_around
      rintro ⟨t, e⟩ _ ⟨valid, same, kept⟩
      cases same
      exact .ok ⟨.intro valid ⟨rfl, kept⟩, Later.refl t⟩
  | panic => exact book.keeps_around (.throw (by decide))
  | stop => exact book.keeps_around (.throw (by decide))
  | attempt body ih => exact .attempt ih
  | call free op => exact book.keeps_around (book.keeps_op op)
  | fill free supply limit ih => exact book.keeps_around (books.keeps_fill (supplies ih) limit)
  | fillAll free supply ih =>
      exact book.keeps_around (.bind (books.keeps_reads (reads_view _)) fun capacity =>
        .fillRounds (books.keeps_fill (supplies ih) _) capacity (capacity + 1) 0)
  | fillWith free supply wait keepRunning polls ih wait_ih keep_ih =>
      exact book.keeps_around
        (.fillPhases (books.keeps_fill (supplies ih) _) wait_ih keep_ih polls .opening)
  | drain free consume limit ih =>
      exact book.keeps_around (.drainFrom books.keeps_relaxedPoll ih 0 limit)
  | drainAll free consume ih =>
      exact book.keeps_around (.bind (books.keeps_reads (reads_view _)) fun capacity =>
        .drainFrom books.keeps_relaxedPoll ih 0 capacity)
  | drainWith free consume wait keepRunning polls ih wait_ih keep_ih =>
      exact book.keeps_around (.drainLoop books.keeps_relaxedPoll ih wait_ih keep_ih polls 0)

end Logbook

/-- The log of one run: what was seen was sound, and never lower than before. -/
structure Watched (log : List Gauges) (t : Tape α) : Prop where
  rising : Gauges.Rising log t.gauges
  sound : ∀ g ∈ log, g.Sound

theorem Watched.rise {log : List Gauges} {u : Tape α} (h : Watched log t)
    (below : t.gauges.Below u.gauges) : Watched log u :=
  ⟨h.rising.rise below, h.sound⟩

theorem Watched.noted {log : List Gauges} (h : Watched log t) (valid : t.Valid) :
    Watched (log ++ [t.gauges]) t where
  rising := h.rising.noted
  sound g hg := by
    rcases List.mem_append.mp hg with old | new
    · exact h.sound g old
    · rw [List.mem_singleton.mp new]
      exact valid.sound

theorem watched_logbook : Logbook (Watched (α := α)) where
  grant h valid unmarked room wanted := h.rise (gauges_grant valid unmarked room wanted)
  mark h _ unmarked _ := h.rise (gauges_mark unmarked)
  store h _ _ := h.rise (.refl _)
  link h valid marked _ := h.rise (gauges_link valid marked _)
  handOut h _ := h.rise (gauges_handOut _ _)
  noted h valid := h.noted valid

/-- What is seen while a client runs on a tape. -/
theorem keeps_watched {h : Handles} {β : Type} (client : Client α E shared h β) :
    Keeps (Logged Watched) (client.run (Q := Tape α)) (client.watched gauges) :=
  watched_logbook.keeps_client client

end Tape
end Handoff
