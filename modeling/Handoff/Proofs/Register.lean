import Handoff.Proofs.Capacity
import Handoff.Proofs.Links
import Handoff.Proofs.Row

/-! The register of a chain that many threads use: who has claimed which index, what is
written, and how far each chunk is linked. It holds more than the chain shows, since
producers stop between any two accesses. Every access of a producer makes at most one
of a few changes to the register, each of which keeps the invariant and leaves alone
whatever the other threads rely on. -/
namespace Handoff

variable {α : Type}

/-- `claims` has the producer and the element of each index, in the order in which the
indices were claimed. While `marked`, the last claimed index is that of a producer that
links a chunk, and is not yet published. `links` are the indices at which chunks were
created. A chunk is `joined` when it names its follower, and `jumped` when it has its
jump. The consumer is in chunk `head`. It has `taken` elements out of their slots and
published that of `consumed`. -/
structure Register (α : Type) where
  size : ChainSize
  claims : List (Nat × α)
  written : Nat → Bool
  marked : Bool
  links : List Nat
  joined : Nat → Bool
  jumped : Nat → Bool
  head : Nat
  taken : Nat
  consumed : Nat

namespace Register

/-- The indices that are claimed without a mark. -/
def published (g : Register α) : Nat := g.claims.length - g.marked.toNat

def index (g : Register α) : Nat := 2 * g.published + g.marked.toNat

def last (g : Register α) : Nat := Links.start g.links g.links.length

/-- Up to here indices may be claimed: within the capacity, and within the producers'
chunk beside the one slot that is kept for a jump. -/
def reach (g : Register α) : Nat :=
  min (g.consumed + g.size.capacity) (max g.consumed g.last + (g.size.chunkSize - 1))

/-- A limit, doubled as the producers have it, that allows no claim past the reach. -/
def Allows (g : Register α) (limit : Nat) : Prop := ∃ k, limit = 2 * k ∧ k ≤ g.reach

def cell (g : Register α) (i : Nat) : Option α :=
  if g.written i then g.claims[i]?.map Prod.snd else none

def base (g : Register α) (c : Nat) : Nat := max g.taken (Links.start g.links c)

def content (g : Register α) (c i : Nat) : Slot α :=
  match g.links[c]? with
  | none => .ofCell (g.cell i)
  | some r =>
    if i < r then .ofCell (g.cell i) else if i = r ∧ g.jumped c = true then .jump else .empty

def row (g : Register α) : Arena.Row α :=
  ⟨g.size.chunkSize, g.head, g.links.length, g.base, g.content, g.joined⟩

/-- Producer `p` has claimed index `i` for `v` and not written it, and its place is in
chunk `c`. -/
structure Hole (g : Register α) (p c i : Nat) (v : α) : Prop where
  own : g.claims[i]? = some (p, v)
  unwritten : g.written i = false
  within : Links.Within g.links c i

/-- Producer `p` holds the mark, at index `m`. -/
structure Held (g : Register α) (p m : Nat) (v : α) : Prop where
  marked : g.marked = true
  length : g.claims.length = m + 1
  own : g.claims[m]? = some (p, v)

/-- The invariant. -/
structure Valid (g : Register α) : Prop where
  fits : g.size.Fits
  consumed_le : g.consumed ≤ g.taken
  length_le : g.claims.length ≤ g.consumed + g.size.capacity
  published_le : g.published ≤ g.reach
  marked : g.marked = true → 0 < g.claims.length
  ordered : (0 :: g.links).Pairwise (· < ·)
  linked : ∀ r ∈ g.links, r < g.claims.length
  gap : ∀ c r, g.links[c]? = some r → r < g.base c + g.size.chunkSize
  lt_length : ∀ i, g.written i = true → i < g.claims.length
  written : ∀ i, i < g.taken → g.written i = true
  joined : ∀ c, g.joined c = true → ∃ r, g.links[c]? = some r ∧ g.written r = true
  jumped : ∀ c, g.jumped c = true → g.joined c = true
  head_le : g.head ≤ g.links.length
  head_start : Links.start g.links g.head ≤ g.consumed
  head_next : ∀ r, g.links[g.head]? = some r → g.taken ≤ r
  passed : ∀ c, c < g.head → g.jumped c = true

def claim (g : Register α) (p : Nat) (vs : List α) : Register α :=
  { g with claims := g.claims ++ vs.map (p, ·) }

def mark (g : Register α) (p : Nat) (v : α) : Register α :=
  { g with claims := g.claims ++ [(p, v)], marked := true }

def store (g : Register α) (i : Nat) : Register α :=
  { g with written := fun k => if k = i then true else g.written k }

def grow (g : Register α) : Register α := { g with links := g.links ++ [g.published] }

def join (g : Register α) (c : Nat) : Register α :=
  { g with joined := fun d => if d = c then true else g.joined d }

def settle (g : Register α) : Register α := { g with marked := false }

def jump (g : Register α) (c : Nat) : Register α :=
  { g with jumped := fun d => if d = c then true else g.jumped d }

/-- What one access of producer `p` can change. -/
inductive Change (p : Nat) (g : Register α) : Register α → Prop
  | stay : Change p g g
  | claim {vs : List α} (unmarked : g.marked = false)
      (room : g.claims.length + vs.length ≤ g.reach) : Change p g (g.claim p vs)
  | mark {v : α} (unmarked : g.marked = false)
      (room : g.claims.length < g.consumed + g.size.capacity) : Change p g (g.mark p v)
  | store {c i : Nat} {v : α} (hole : g.Hole p c i v) : Change p g (g.store i)
  | grow {m : Nat} {v : α} (held : g.Held p m v) (unwritten : g.written m = false)
      (ordered : (0 :: (g.links ++ [m])).Pairwise (· < ·)) : Change p g g.grow
  | join {c r : Nat} {v : α} (link : g.links[c]? = some r) (own : g.claims[r]? = some (p, v))
      (written : g.written r = true) : Change p g (g.join c)
  | settle {m : Nat} {v : α} (held : g.Held p m v) (last : g.last = m) : Change p g g.settle
  | jump {c r : Nat} {v : α} (link : g.links[c]? = some r) (own : g.claims[r]? = some (p, v))
      (joined : g.joined c = true) : Change p g (g.jump c)

/-- What the consumer can change: it leaves its chunk, takes the element at its index,
or publishes that. -/
def leave (g : Register α) : Register α := { g with head := g.head + 1 }

def take (g : Register α) : Register α := { g with taken := g.taken + 1 }

def pass (g : Register α) : Register α := { g with consumed := g.taken }

/-- The consumer's next index does not lie behind a jump. -/
def Settled (g : Register α) : Prop := ∀ r, g.links[g.head]? = some r → g.taken < r

inductive Progress (g : Register α) : Register α → Prop
  | stay : Progress g g
  | leave (link : g.links[g.head]? = some g.consumed) (taken : g.taken = g.consumed)
      (jumped : g.jumped g.head = true) : Progress g g.leave
  | take (settled : g.Settled) (written : g.written g.taken = true) : Progress g g.take
  | pass : Progress g g.pass

variable {g g' : Register α} {p m c i r : Nat} {v : α}

theorem published_open (unmarked : g.marked = false) : g.published = g.claims.length := by
  rw [published, unmarked]
  rfl

theorem index_open (unmarked : g.marked = false) : g.index = 2 * g.claims.length := by
  rw [index, published_open unmarked, unmarked]
  rfl

theorem Held.published (h : g.Held p m v) : g.published = m := by
  rw [Register.published, h.marked, h.length]
  rfl

theorem Held.index (h : g.Held p m v) : g.index = 2 * m + 1 := by
  rw [Register.index, h.published, h.marked]
  rfl

theorem Held.unique {p' m' : Nat} {v' : α} (h : g.Held p m v) (h' : g.Held p' m' v') : p = p' := by
  obtain rfl : m = m' := Nat.succ.inj (h.length.symm.trans h'.length)
  have same := h.own.symm.trans h'.own
  simp only [Option.some.injEq, Prod.mk.injEq] at same
  exact same.1

theorem unmarked_of_even (even : g.index = 2 * i) : g.marked = false ∧ g.claims.length = i := by
  unfold index at even
  cases hm : g.marked with
  | false =>
      rw [published_open hm, hm, Bool.toNat_false] at even
      exact ⟨rfl, by omega⟩
  | true =>
      rw [hm, Bool.toNat_true] at even
      omega

theorem lt_length_of_own {w : Nat × α} (own : g.claims[i]? = some w) : i < g.claims.length :=
  (List.getElem?_eq_some_iff.mp own).1

theorem reach_mono (size : g'.size = g.size) (consumed : g.consumed ≤ g'.consumed)
    (last : g.last ≤ g'.last) : g.reach ≤ g'.reach := by
  simp only [reach, size]
  omega

theorem le_published_of_lt (hi : i < g.claims.length) : i ≤ g.published := by
  unfold published
  cases g.marked <;> simp only [Bool.toNat_true, Bool.toNat_false] <;> omega

theorem content_of_home (next : ∀ r, g.links[c]? = some r → i < r) :
    g.content c i = .ofCell (g.cell i) := by
  unfold content
  cases hr : g.links[c]? with
  | none => rfl
  | some r => exact if_pos (next r hr)

theorem content_link (link : g.links[c]? = some r) :
    g.content c r = if g.jumped c = true then .jump else .empty := by
  unfold content
  simp only [link, Nat.lt_irrefl, if_false, true_and]

theorem content_congr (links : g'.links[c]? = g.links[c]?)
    (cell : (∀ r, g.links[c]? = some r → i < r) → g'.cell i = g.cell i)
    (jumped : g.links[c]? = some i → g'.jumped c = g.jumped c) :
    g'.content c i = g.content c i := by
  unfold content
  rw [links]
  cases hr : g.links[c]? with
  | none => exact congrArg Slot.ofCell (cell fun r h => by rw [hr] at h; cases h)
  | some r =>
      by_cases below : i < r
      · simp only [below, if_true]
        refine congrArg Slot.ofCell (cell fun r' h => ?_)
        rw [hr] at h
        cases h
        exact below
      · by_cases here : i = r
        · subst here
          simp only [below, if_false, jumped hr]
        · simp only [below, here, false_and, if_false]

theorem cell_of_unwritten (unwritten : g.written i = false) : g.cell i = none := by
  rw [cell, unwritten]
  rfl

theorem cell_of_written (written : g.written i = true) (own : g.claims[i]? = some (p, v)) :
    g.cell i = some v := by
  rw [cell, written, if_pos rfl, own]
  rfl

end Register
end Handoff
