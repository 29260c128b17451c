import Handoff.Proofs.Agreement

/-! The bounded queue that a ring stands for: a list of elements, oldest first,
and a bound on its length. Batch calls are loops over single elements. -/
namespace Handoff

variable {α E : Type}

/-- `burst` is how many elements one exit poll of `fillWith` may allow;
`produced` and `consumed` count the elements ever appended and removed. -/
structure Fifo (α : Type) where
  items : List α
  capacity : Nat
  burst : Nat
  produced : Nat
  consumed : Nat

namespace Fifo

def ofSize (capacity burst : Nat) : Fifo α := ⟨[], capacity, burst, 0, 0⟩

def isFull (f : Fifo α) : Bool := decide (f.capacity ≤ f.items.length)

def append (f : Fifo α) (v : α) : Fifo α :=
  { f with items := f.items ++ [v], produced := f.produced + 1 }

def offer (v : α) : Act (Fifo α) (Except (Full α) Unit) := do
  if ← Act.view isFull then return .error ⟨v⟩
  modify (·.append v)
  return .ok ()

def poll : Act (Fifo α) (Option α) := do
  match ← Act.view items with
  | [] => return none
  | v :: rest =>
    modify fun f => { f with items := rest, consumed := f.consumed + 1 }
    return some v

def peek : Act (Fifo α) (Option α) := Act.view (·.items.head?)

def supplyOne (supply : Act (World (Fifo α) E) α) : Act (World (Fifo α) E) Unit := do
  let v ← supply
  Act.onQueue (modify (·.append v))

/-- Up to `left` times: stops if the list is full, and else supplies an element
and appends it. `done` counts the elements before. -/
def fillFrom (supply : Act (World (Fifo α) E) α) : Nat → Nat → Act (World (Fifo α) E) Nat
  | done, 0 => return done
  | done, left + 1 => do
    if ← Act.onQueue (Act.view isFull) then return done
    supplyOne supply
    fillFrom supply (done + 1) left

def supplyRun (supply : Act (World (Fifo α) E) α) : Nat → Act (World (Fifo α) E) Unit
  | 0 => return ()
  | count + 1 => do
    supplyOne supply
    supplyRun supply count

theorem supplyRun_one (supply : Act (World (Fifo α) E) α) :
    supplyRun supply 1 = supplyOne supply := by
  funext w
  simp only [supplyRun, bind, EStateM.bind]
  cases supplyOne supply w with
  | ok _ w' => rfl
  | error e w' => rfl

/-- How many elements the next exit poll allows: a burst where there is room for
one more than that, else one element, and none if the list is full. -/
def allowance (f : Fifo α) : Nat :=
  if f.items.length + f.burst < f.capacity then f.burst
  else if f.items.length < f.capacity then 1
  else 0

def fillLoop (supply : Act (World (Fifo α) E) α) (wait : UInt64 → Act (World (Fifo α) E) UInt64)
    (keepRunning : Act (World (Fifo α) E) Bool) : Nat → UInt64 → Act (World (Fifo α) E) Unit
  | 0, _ => throw .unfinished
  | polls + 1, counter => do
    if ← keepRunning then
      match ← Act.onQueue (Act.view allowance) with
      | 0 =>
        let counter ← wait counter
        fillLoop supply wait keepRunning polls counter
      | count + 1 =>
        supplyRun supply (count + 1)
        fillLoop supply wait keepRunning polls 0
    else
      return ()

instance (α : Type) : Channel (Fifo α) α where
  shared := false
  offer := offer
  relaxedOffer := offer
  poll := poll
  relaxedPoll := poll
  peek := peek
  relaxedPeek := peek
  fill supply limit := fillFrom supply 0 limit
  fillAll supply := do fillFrom supply 0 (← Act.onQueue (Act.view capacity))
  fillWith supply wait keepRunning polls := fillLoop supply wait keepRunning polls 0
  drain consume limit := Loop.drainFrom (Act.onQueue poll) consume 0 limit
  drainAll consume := do
    Loop.drainFrom (Act.onQueue poll) consume 0 (← Act.onQueue (Act.view capacity))
  drainWith consume wait keepRunning polls :=
    Loop.drainLoop (Act.onQueue poll) consume wait keepRunning polls 0
  close := modify ({ · with items := [] })
  indicators f := ⟨f.items.length, f.items.isEmpty, f.capacity, f.produced, f.consumed, []⟩
  lookAhead? f := some f.burst
  journal _ := #[]
  discarded _ := #[]

/-- What callbacks leave alone: the bound and the burst, the count of a side whose
handle they do not have, and all that was counted before. -/
structure Later (h : Handles) (f g : Fifo α) : Prop where
  capacity : g.capacity = f.capacity
  burst : g.burst = f.burst
  produced_le : f.produced ≤ g.produced
  consumed_le : f.consumed ≤ g.consumed
  produced : h.producer = false → g.produced = f.produced
  consumed : h.consumer = false → g.consumed = f.consumed

theorem Later.refl (h : Handles) (f : Fifo α) : Later h f f :=
  ⟨rfl, rfl, Nat.le_refl _, Nat.le_refl _, fun _ => rfl, fun _ => rfl⟩

theorem Later.trans {h : Handles} {f g k : Fifo α} (hfg : Later h f g) (hgk : Later h g k) :
    Later h f k where
  capacity := hgk.capacity.trans hfg.capacity
  burst := hgk.burst.trans hfg.burst
  produced_le := Nat.le_trans hfg.produced_le hgk.produced_le
  consumed_le := Nat.le_trans hfg.consumed_le hgk.consumed_le
  produced free := (hgk.produced free).trans (hfg.produced free)
  consumed free := (hgk.consumed free).trans (hfg.consumed free)

theorem Later.of_lent {h : Handles} {shared : Bool} {side : Side} (free : h.has side = true)
    {f g : Fifo α} (hfg : Later (h.lend shared side) f g) : Later h f g := by
  refine ⟨hfg.capacity, hfg.burst, hfg.produced_le, hfg.consumed_le, fun none => ?_, fun none => ?_⟩
  · cases side with
    | producer => exact absurd (none.symm.trans free) Bool.false_ne_true
    | consumer => exact hfg.produced none
  · cases side with
    | producer => exact hfg.consumed none
    | consumer => exact absurd (none.symm.trans free) Bool.false_ne_true

def moves (α : Type) (h : Handles) : Moves (Fifo α) := ⟨Later h, Later.refl h, Later.trans⟩

theorem Later.append {h : Handles} (free : h.has .producer = true) (f : Fifo α) (v : α) :
    Later h f (f.append v) :=
  ⟨rfl, rfl, Nat.le_succ _, Nat.le_refl _,
    fun none => absurd (none.symm.trans free) Bool.false_ne_true, fun _ => rfl⟩

end Fifo
end Handoff
