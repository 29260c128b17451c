import Mathlib.Data.List.Basic
import Handoff.Proofs.Client

/-! Orders: single calls made one after another, whose callbacks make no calls and do
not panic. What a bounded queue of many producers may answer to them is described on
a ledger. It leaves open only how many elements one batch takes. -/
namespace Handoff

variable {α E : Type}

/-- A call, with callbacks that work on the memory alone. -/
inductive Order (α E : Type) where
  | offer (v : α)
  | relaxedOffer (v : α)
  | fill (supply : E → α × E) (wanted : Nat) (some : 0 < wanted)
  | fillAll (supply : E → α × E)
  | poll
  | relaxedPoll
  | peek
  | relaxedPeek
  | drain (consume : α → E → E) (limit : Nat)
  | drainAll (consume : α → E → E)
  | look (side : Side)

inductive Answer (α : Type) where
  | tried (result : Except (Full α) Unit)
  | moved (count : Nat)
  | found (value : Option α)
  | seen (indicators : Indicators)

namespace Order

def consumer (consume : α → E → E) (v : α) :
    Client α E true (Handles.both.lend true .consumer) Unit :=
  .own fun memory => ((), consume v memory)

def client : Order α E → Client α E true .both (Answer α)
  | offer v => .bind (.call rfl (.offer v)) fun result => .done (.tried result)
  | relaxedOffer v => .bind (.call rfl (.relaxedOffer v)) fun result => .done (.tried result)
  | fill supply wanted _ => .bind (.fill rfl (.own supply) wanted) fun count => .done (.moved count)
  | fillAll supply => .bind (.fillAll rfl (.own supply)) fun count => .done (.moved count)
  | poll => .bind (.call rfl .poll) fun value => .done (.found value)
  | relaxedPoll => .bind (.call rfl .relaxedPoll) fun value => .done (.found value)
  | peek => .bind (.call rfl .peek) fun value => .done (.found value)
  | relaxedPeek => .bind (.call rfl .relaxedPeek) fun value => .done (.found value)
  | drain consume limit =>
    .bind (.drain rfl (consumer consume) limit) fun count => .done (.moved count)
  | drainAll consume => .bind (.drainAll rfl (consumer consume)) fun count => .done (.moved count)
  | look side => .bind (.call (by cases side <;> rfl) (.look side)) fun seen => .done (.seen seen)

def clientOf : List (Order α E) → Client α E true .both (List (Answer α))
  | [] => .done []
  | order :: rest =>
    .bind order.client fun answer => .bind (clientOf rest) fun answers => .done (answer :: answers)

end Order

/-- The first `count` values of a supply, and the memory it leaves. -/
def produce (supply : E → α × E) : Nat → E → List α × E
  | 0, memory => ([], memory)
  | count + 1, memory =>
    let (v, memory) := supply memory
    let (rest, memory) := produce supply count memory
    (v :: rest, memory)

theorem produce_length (supply : E → α × E) (count : Nat) (memory : E) :
    (produce supply count memory).1.length = count := by
  induction count generalizing memory with
  | zero => rfl
  | succ count ih => exact congrArg (· + 1) (ih (supply memory).2)

theorem produce_add (supply : E → α × E) (m n : Nat) (memory : E) :
    produce supply (m + n) memory =
      ((produce supply m memory).1 ++ (produce supply n (produce supply m memory).2).1,
        (produce supply n (produce supply m memory).2).2) := by
  induction m generalizing memory with
  | zero => rw [Nat.zero_add]; rfl
  | succ m ih =>
      rw [Nat.succ_add]
      simp only [produce, ih, List.cons_append]

/-- A bounded queue as its users see it: what is in, oldest first, how many elements
were ever put in and taken out, and the memory of the callbacks. -/
structure Ledger (α E : Type) where
  items : List α
  appended : Nat
  removed : Nat
  memory : E

namespace Ledger

def append (l : Ledger α E) (values : List α) (memory : E) : Ledger α E :=
  { l with items := l.items ++ values, appended := l.appended + values.length, memory }

def fill (l : Ledger α E) (supply : E → α × E) (count : Nat) : Ledger α E :=
  l.append (produce supply count l.memory).1 (produce supply count l.memory).2

def drain (l : Ledger α E) (consume : α → E → E) (count : Nat) : Ledger α E :=
  { items := l.items.drop count
    appended := l.appended
    removed := l.removed + min count l.items.length
    memory := (l.items.take count).foldl (fun memory v => consume v memory) l.memory }

variable {l : Ledger α E} {supply : E → α × E} {consume : α → E → E}

theorem fill_zero : l.fill supply 0 = l := by
  simp only [fill, append, produce, List.append_nil, List.length_nil, Nat.add_zero]

theorem length_fill {count : Nat} :
    (l.fill supply count).items.length = l.items.length + count := by
  rw [fill, append, List.length_append, produce_length]

theorem fill_add {m n : Nat} : (l.fill supply m).fill supply n = l.fill supply (m + n) := by
  simp only [fill, append, produce_add, List.append_assoc, List.length_append, Nat.add_assoc]

theorem drain_zero : l.drain consume 0 = l := by
  simp only [drain, List.drop_zero, List.take_zero, List.foldl_nil, Nat.zero_min, Nat.add_zero]

theorem drain_nil (items : l.items = []) {count : Nat} : l.drain consume count = l := by
  obtain ⟨_, appended, removed, memory⟩ := l
  subst items
  simp only [drain, List.drop_nil, List.take_nil, List.foldl_nil, List.length_nil, Nat.min_zero,
    Nat.add_zero]

theorem drain_cons {v : α} {rest : List α} (items : l.items = v :: rest) {count : Nat} :
    l.drain consume (count + 1) =
      ({ l with items := rest, removed := l.removed + 1,
                memory := consume v l.memory } : Ledger α E).drain consume count := by
  obtain ⟨_, appended, removed, memory⟩ := l
  subst items
  simp only [drain, List.drop_succ_cons, List.take_succ_cons, List.foldl_cons, List.length_cons,
    Nat.add_min_add_right, Ledger.mk.injEq, true_and, and_true]
  omega

theorem drain_of_le {count : Nat} (le : l.items.length ≤ count) :
    l.drain consume count = l.drain consume l.items.length := by
  simp only [drain, List.drop_of_length_le le, List.drop_length, List.take_of_length_le le,
    List.take_length, Nat.min_eq_right le, Nat.min_self]

theorem drain_memory {count : Nat} : (l.drain (fun _ memory => memory) count).memory = l.memory :=
  List.foldl_fixed _

end Ledger

/-- What a queue of the given capacity may answer to an order, and the ledger then. -/
inductive Serves (capacity : Nat) : Order α E → Ledger α E → Answer α → Ledger α E → Prop
  | offer {l : Ledger α E} {v : α} (room : l.items.length < capacity) :
      Serves capacity (.offer v) l (.tried (.ok ())) (l.append [v] l.memory)
  | offerFull {l : Ledger α E} {v : α} (full : l.items.length = capacity) :
      Serves capacity (.offer v) l (.tried (.error ⟨v⟩)) l
  | relaxedOffer {l : Ledger α E} {v : α} (room : l.items.length < capacity) :
      Serves capacity (.relaxedOffer v) l (.tried (.ok ())) (l.append [v] l.memory)
  | relaxedOfferFull {l : Ledger α E} {v : α} (full : l.items.length = capacity) :
      Serves capacity (.relaxedOffer v) l (.tried (.error ⟨v⟩)) l
  | fill {l : Ledger α E} {supply : E → α × E} {wanted count : Nat} {some : 0 < wanted}
      (none_iff : count = 0 ↔ l.items.length = capacity)
      (le : count ≤ min wanted (capacity - l.items.length)) :
      Serves capacity (.fill supply wanted some) l (.moved count) (l.fill supply count)
  | fillAll {l : Ledger α E} {supply : E → α × E} :
      Serves capacity (.fillAll supply) l (.moved (capacity - l.items.length))
        (l.fill supply (capacity - l.items.length))
  | poll {l : Ledger α E} :
      Serves capacity .poll l (.found l.items.head?) (l.drain (fun _ memory => memory) 1)
  | relaxedPoll {l : Ledger α E} :
      Serves capacity .relaxedPoll l (.found l.items.head?) (l.drain (fun _ memory => memory) 1)
  | peek {l : Ledger α E} : Serves capacity .peek l (.found l.items.head?) l
  | relaxedPeek {l : Ledger α E} : Serves capacity .relaxedPeek l (.found l.items.head?) l
  | drain {l : Ledger α E} {consume : α → E → E} {limit : Nat} :
      Serves capacity (.drain consume limit) l (.moved (min limit l.items.length))
        (l.drain consume limit)
  | drainAll {l : Ledger α E} {consume : α → E → E} :
      Serves capacity (.drainAll consume) l (.moved l.items.length)
        (l.drain consume l.items.length)
  | look {l : Ledger α E} {side : Side} {seen : Indicators} (length : seen.length = l.items.length)
      (isEmpty : seen.isEmpty = l.items.isEmpty) (bound : seen.capacity = capacity)
      (produced : seen.produced = l.appended) (consumed : seen.consumed = l.removed) :
      Serves capacity (.look side) l (.seen seen) l

/-- The same for a list of orders. -/
inductive ServesAll (capacity : Nat) :
    List (Order α E) → Ledger α E → List (Answer α) → Ledger α E → Prop
  | nil {l : Ledger α E} : ServesAll capacity [] l [] l
  | cons {order : Order α E} {rest : List (Order α E)} {l l' l'' : Ledger α E} {answer : Answer α}
      {answers : List (Answer α)} (first : Serves capacity order l answer l')
      (later : ServesAll capacity rest l' answers l'') :
      ServesAll capacity (order :: rest) l (answer :: answers) l''

end Handoff
