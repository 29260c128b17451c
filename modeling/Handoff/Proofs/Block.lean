import Mathlib.Data.List.Perm.Basic
import Handoff.Proofs.Layout

/-! What becomes of the elements of a block. An assignment puts a value in the place of
another and hands that one back, so that nothing is lost while elements are replaced: what was
handed back and what the block still holds are together what it was made of and what it was
given since. -/
namespace Handoff

theorem perm_flatMap_set {ι α : Type} {l : List ι} {n : Nat} {old : ι} (f : ι → List α)
    (h : l[n]? = some old) (new : ι) :
    (f old ++ (l.set n new).flatMap f).Perm (f new ++ l.flatMap f) := by
  obtain ⟨lt, rfl⟩ := List.getElem?_eq_some_iff.mp h
  have put := (List.set_perm_cons_eraseIdx lt new).flatMap_right f
  have got := (List.getElem_cons_eraseIdx_perm lt).flatMap_right f
  rw [List.flatMap_cons] at put got
  exact (put.append_left _).trans ((List.perm_append_comm_assoc _ _ _).trans (got.append_left _))

namespace Block

variable {η α β : Type} {b b' : Block η α} {i : Nat} {v old : α}
  {assignments : List (Nat × α)} {replaced : List α}

def put (b : Block η α) (i : Nat) (v : α) : Block η α :=
  { b with items := b.items.setIfInBounds i v }

/-- What element `i` was given last, if it was given anything. -/
def lastGiven (assignments : List (Nat × α)) (i : Nat) : Option α :=
  assignments.reverse.lookup i

theorem lastGiven_cons (i : Nat) (v : α) (rest : List (Nat × α)) (j : Nat) :
    lastGiven ((i, v) :: rest) j = (lastGiven rest j).or (if i = j then some v else none) := by
  rw [lastGiven, List.reverse_cons, List.lookup_append, List.lookup_cons, List.lookup_nil]
  congr 1
  by_cases same : i = j
  · simp [same]
  · have apart : (j == i) = false := beq_false_of_ne (Ne.symm same)
    simp [same, apart]

theorem lastGiven_map (store : β → α) (assignments : List (Nat × β)) (j : Nat) :
    lastGiven (assignments.map fun a => (a.1, store a.2)) j =
      (lastGiven assignments j).map store := by
  induction assignments with
  | nil => rfl
  | cons first rest ih =>
    rw [List.map_cons, lastGiven_cons, lastGiven_cons, ih]
    by_cases same : first.1 = j
    · simp only [if_pos same]
      cases lastGiven rest j <;> rfl
    · simp only [if_neg same, Option.or_none]

@[simp] theorem size_put (b : Block η α) (i : Nat) (v : α) : (b.put i v).size = b.size :=
  Array.size_setIfInBounds

theorem item_put (place : b.items[i]? = some old) (v : α) (j : Nat) :
    (b.put i v).items[j]? = if i = j then some v else b.items[j]? := by
  obtain ⟨inside, -⟩ := Array.getElem?_eq_some_iff.mp place
  rw [put, Array.getElem?_setIfInBounds, if_pos inside]

theorem perm_put (place : b.items[i]? = some old) (v : α) :
    (old :: (b.put i v).items.toList).Perm (v :: b.items.toList) := by
  have listed : b.items.toList[i]? = some old := by rwa [Array.getElem?_toList]
  have exchanged := perm_flatMap_set (fun w => [w]) listed v
  rw [List.flatMap_singleton', List.flatMap_singleton', ← Array.toList_setIfInBounds] at exchanged
  exact exchanged

theorem replace_ok (place : b.items[i]? = some old) (v : α) :
    b.replace i v = .ok (old, b.put i v) := by
  rw [replace, place]
  rfl

theorem item_given (place : b.items[i]? = some old) (v : α) (rest : List (Nat × α)) (j : Nat) :
    ((b.put i v).items[j]?).map (lastGiven rest j).getD =
      (b.items[j]?).map (lastGiven ((i, v) :: rest) j).getD := by
  rw [item_put place, lastGiven_cons]
  by_cases same : i = j
  · subst same
    rw [if_pos rfl, if_pos rfl, place]
    cases lastGiven rest i <;> rfl
  · rw [if_neg same, if_neg same, Option.or_none]

/-- What assignments have made of a block, and what they handed back: at each turn what the
element was given last before it. -/
structure Assigned (b : Block η α) (assignments : List (Nat × α)) (replaced : List α)
    (b' : Block η α) : Prop where
  size : b'.size = b.size
  header : b'.header = b.header
  item : ∀ j, b'.items[j]? = (b.items[j]?).map (lastGiven assignments j).getD
  length : replaced.length = assignments.length
  turn : ∀ k a, assignments[k]? = some a →
    replaced[k]? = (b.items[a.1]?).map (lastGiven (assignments.take k) a.1).getD
  kept : (replaced ++ b'.items.toList).Perm (b.items.toList ++ assignments.map Prod.snd)

theorem Assigned.nil (b : Block η α) : Assigned b [] [] b where
  size := rfl
  header := rfl
  item j := by
    cases b.items[j]? <;> rfl
  length := rfl
  turn k a none := by
    rw [List.getElem?_nil] at none
    cases none
  kept := by
    rw [List.map_nil, List.append_nil, List.nil_append]

theorem Assigned.cons (place : b.items[i]? = some old)
    (later : Assigned (b.put i v) assignments replaced b') :
    Assigned b ((i, v) :: assignments) (old :: replaced) b' where
  size := later.size.trans (size_put b i v)
  header := later.header
  item j := by
    rw [later.item, item_given place]
  length := congrArg Nat.succ later.length
  turn k a here := by
    cases k with
    | zero =>
      obtain rfl : (i, v) = a := Option.some_inj.mp here
      rw [place]
      rfl
    | succ k =>
      rw [List.getElem?_cons_succ] at here ⊢
      rw [later.turn k a here, item_given place, List.take_succ_cons]
  kept := by
    have handed_back := later.kept.cons old
    have exchanged := (perm_put place v).append_right (assignments.map Prod.snd)
    rw [List.map_cons]
    exact handed_back.trans (exchanged.trans List.perm_middle.symm)

theorem assign_cons {b : Block η α} {rest : List (Nat × α)} (place : b.items[i]? = some old)
    (later : (b.put i v).assign rest = .ok (replaced, b')) :
    b.assign ((i, v) :: rest) = .ok (old :: replaced, b') := by
  rw [assign, replace_ok place]
  simp only [bind, Except.bind, later]
  rfl

theorem assign_ok (inside : ∀ a ∈ assignments, a.1 < b.size) :
    ∃ replaced b', b.assign assignments = .ok (replaced, b') ∧
      Assigned b assignments replaced b' := by
  -- each assignment is made on the block that the ones before it have left
  induction assignments generalizing b with
  | nil => exact ⟨[], b, rfl, .nil b⟩
  | cons first rest ih =>
    obtain ⟨i, v⟩ := first
    have here : i < b.items.size := inside (i, v) List.mem_cons_self
    have place : b.items[i]? = some b.items[i] := Array.getElem?_eq_getElem here
    have onward : ∀ a ∈ rest, a.1 < (b.put i v).size := by
      intro a ha
      rw [size_put]
      exact inside a (List.mem_cons_of_mem _ ha)
    obtain ⟨replaced, b', later, assigned⟩ := ih onward
    exact ⟨_, b', assign_cons place later, assigned.cons place⟩

end Block

def ElementKind.bits : ElementKind → Nat
  | byte => 8
  | half => 16
  | word | wide | item => 64
  | unit => 0

theorem ElementKind.toNat_store (kind : ElementKind) (w : UInt64) :
    (kind.store w).toNat = w.toNat % 2 ^ kind.bits := by
  have whole := Nat.mod_eq_of_lt w.toNat_lt
  cases kind with
  | byte => exact (UInt8.toNat_toUInt64 _).trans (UInt64.toNat_toUInt8 w)
  | half => exact (UInt16.toNat_toUInt64 _).trans (UInt64.toNat_toUInt16 w)
  | word | wide | item => exact whole.symm
  | unit => exact (Nat.mod_one _).symm

namespace Block

variable {η α β : Type}

def made (header : η) (count : Nat) (init : Nat → α) : Block η α :=
  ⟨header, (Array.range count).map init⟩

@[simp] theorem size_made (header : η) (count : Nat) (init : Nat → α) :
    (made header count init).size = count := by
  simp [made, size]

theorem toList_made (header : η) (count : Nat) (init : Nat → α) :
    (made header count init).items.toList = (List.range count).map init := by
  rw [made, Array.toList_map, Array.toList_range]

theorem item_made (header : η) {count i : Nat} (here : i < count) (init : Nat → α) :
    (made header count init).items[i]? = some (init i) := by
  rw [made, Array.getElem?_map, Array.getElem?_range, if_pos here, Option.map_some]

theorem stored_given (header : η) {count i : Nat} (here : i < count) (init : Nat → β)
    (store : β → α) (assignments : List (Nat × β)) :
    ((made header count fun i => store (init i)).items[i]?).map
        (lastGiven (assignments.map fun a => (a.1, store a.2)) i).getD =
      some (store ((lastGiven assignments i).getD (init i))) := by
  rw [item_made header here, lastGiven_map]
  cases lastGiven assignments i <;> rfl

/-- A block of `count` elements that was made of `init` and given `assignments`, cut by `store`
to what an element holds; `replaced` is what it handed back. -/
structure Accounted (header : η) (count : Nat) (init : Nat → β) (assignments : List (Nat × β))
    (store : β → α) (replaced : List α) (b : Block η α) : Prop where
  size : b.size = count
  headed : b.header = header
  item : ∀ i, i < count → b.items[i]? = some (store ((lastGiven assignments i).getD (init i)))
  length : replaced.length = assignments.length
  turn : ∀ k i v, assignments[k]? = some (i, v) →
    replaced[k]? = some (store ((lastGiven (assignments.take k) i).getD (init i)))
  dropped : b.destruct = b.items.toList.map .inl ++ [.inr header]
  once : (replaced ++ b.items.toList).Perm
    (((List.range count).map init ++ assignments.map Prod.snd).map store)

theorem Assigned.accounted {header : η} {count : Nat} {init : Nat → β}
    {assignments : List (Nat × β)} {store : β → α} {replaced : List α} {b : Block η α}
    (inside : ∀ a ∈ assignments, a.1 < count)
    (assigned : Assigned (made header count fun i => store (init i))
      (assignments.map fun a => (a.1, store a.2)) replaced b) :
    Accounted header count init assignments store replaced b where
  size := by
    rw [assigned.size, size_made]
  headed := assigned.header
  item i here := by
    rw [assigned.item, stored_given header here]
  length := by
    rw [assigned.length, List.length_map]
  turn k i v turn := by
    have turn' : (assignments.map fun a => (a.1, store a.2))[k]? = some (i, store v) := by
      rw [List.getElem?_map, turn, Option.map_some]
    rw [assigned.turn k _ turn', ← List.map_take]
    exact stored_given header (inside (i, v) (List.mem_of_getElem? turn)) init store _
  dropped := by
    rw [destruct, assigned.header]
    rfl
  once := by
    have kept := assigned.kept
    rw [toList_made, List.map_map] at kept
    rwa [List.map_append, List.map_map, List.map_map]

/-- A block is made, elements of it are assigned to, and it is destructed. Each element is in
the end what it was given last, or else what it was made of, cut to what fits in an element.
What is handed back, turn by turn, and what is dropped at the end, element by element, are
together all that the block was made of and all that was assigned, each once; the header is
dropped after the elements. -/
theorem keeps_every_element {layout : Layout} {count : UInt64} (fits : layout.size? count ≠ none)
    {assignments : List (Nat × β)} (inside : ∀ a ∈ assignments, a.1 < count.toNat)
    (header : η) (init : Nat → β) (store : β → α) :
    (∃ b replaced b', ofFn layout header count (fun i => store (init i)) = .ok b ∧
      b.assign (assignments.map fun a => (a.1, store a.2)) = .ok (replaced, b') ∧
      Accounted header count.toNat init assignments store replaced b') ∧
    ∀ kind w, (ElementKind.store kind w).toNat = w.toNat % 2 ^ kind.bits := by
  refine ⟨?_, ElementKind.toNat_store⟩
  have inside' : ∀ a ∈ assignments.map (fun a => (a.1, store a.2)),
      a.1 < (made header count.toNat fun i => store (init i)).size := by
    intro a ha
    obtain ⟨given, member, rfl⟩ := List.mem_map.mp ha
    rw [size_made]
    exact inside given member
  obtain ⟨replaced, b', ran, assigned⟩ := assign_ok inside'
  exact ⟨_, replaced, b', ofFn_of_some fits header _, ran, assigned.accounted inside⟩

/-- One element is assigned to twice, the first time with a value that does not fit. -/
theorem keeps_every_element_assigned_twice :
    ElementKind.half.layout.size? 3 ≠ none ∧
    (∀ a ∈ [(1, (70000 : UInt64)), (1, 5)], a.1 < (3 : UInt64).toNat) ∧
    ∃ b replaced b', ofFn ElementKind.half.layout 'h' 3
        (fun i => ElementKind.half.store (ramp 30000 i)) = .ok b ∧
      b.assign [(1, 4464), (1, 5)] = .ok (replaced, b') ∧ b'.header = 'h' ∧
      b'.items[1]? = some 5 ∧ b'.items[2]? = some 60000 ∧ replaced[1]? = some 4464 ∧
      (replaced ++ b'.items.toList).Perm [0, 30000, 60000, 4464, 5] := by
  have fits : ElementKind.half.layout.size? 3 ≠ none := by decide
  have inside : ∀ a ∈ [(1, (70000 : UInt64)), (1, 5)], a.1 < (3 : UInt64).toNat := by decide
  obtain ⟨⟨b, replaced, b', making, ran, accounted⟩, -⟩ :=
    keeps_every_element fits inside 'h' (ramp 30000) ElementKind.half.store
  exact ⟨fits, inside, b, replaced, b', making, ran, accounted.headed,
    accounted.item 1 (by decide), accounted.item 2 (by decide), accounted.turn 1 1 5 rfl,
    accounted.once⟩

end Block
end Handoff
