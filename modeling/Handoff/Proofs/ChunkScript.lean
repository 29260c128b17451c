import Handoff.Chunk.Script
import Handoff.Proofs.Block
import Handoff.Proofs.Trails

/-! Scripts on chunks that keep to the contract of slots and links. None of their
commands is refused, each changes what it is about and nothing else, and what was
written comes out again, once. -/
namespace Handoff

variable {α : Type}

theorem Chunk.perm_setSlot {ch : Chunk α} {i : Nat} {old : Slot α} (h : ch.slot? i = some old)
    (new : Slot α) :
    (old.value?.toList ++ (ch.setSlot i new).values).Perm (new.value?.toList ++ ch.values) := by
  have place : ch.slots.toList[i]? = some old := by
    rw [Array.getElem?_toList]
    exact h
  have exchanged := perm_flatMap_set (fun s => (Slot.value? s).toList) place new
  rw [← List.filterMap_eq_flatMap_toList, ← List.filterMap_eq_flatMap_toList,
    ← Array.toList_setIfInBounds] at exchanged
  exact exchanged

theorem Chunk.values_ofSize (size : Nat) : (Chunk.ofSize size : Chunk α).values = [] := by
  simp [values, ofSize, Slot.value?]

namespace Arena

variable {a b : Arena α} {ch : Chunk α} {c i : Nat}

def stored : Option (Chunk α) → List α
  | some ch => ch.values
  | none => []

theorem destructRest_eq (a : Arena α) : a.destructRest = a.chunks.toList.flatMap stored := rfl

theorem place_eq (h : a.chunk? c = some ch) : a.chunks.toList[c]? = some (some ch) := by
  rw [Array.getElem?_toList]
  exact Option.join_eq_some_iff.mp h

theorem perm_remove (h : a.chunk? c = some ch) :
    (ch.values ++ (a.remove c).destructRest).Perm a.destructRest := by
  have exchanged := perm_flatMap_set stored (place_eq h) none
  rw [← Array.toList_setIfInBounds] at exchanged
  exact exchanged

theorem perm_modifyChunk (h : a.chunk? c = some ch) (f : Chunk α → Chunk α) :
    (ch.values ++ (a.modifyChunk c f).destructRest).Perm ((f ch).values ++ a.destructRest) := by
  have exchanged := perm_flatMap_set stored (place_eq h) (some (f ch))
  have chunks : (a.modifyChunk c f).chunks.toList = a.chunks.toList.set c (some (f ch)) := by
    rw [modifyChunk, Array.toList_modify, List.modify_eq_set_getElem?, place_eq h]
    rfl
  rw [← chunks] at exchanged
  exact exchanged

theorem slot?_cases {s : Slot α} (h : a.slot? c i = some s) :
    ∃ ch, a.chunk? c = some ch ∧ ch.slot? i = some s :=
  Option.bind_eq_some_iff.mp h

theorem perm_setSlot {old : Slot α} (h : a.slot? c i = some old) (new : Slot α) :
    (old.value?.toList ++ (a.setSlot c i new).destructRest).Perm
      (new.value?.toList ++ a.destructRest) := by
  obtain ⟨ch, found, slot⟩ := slot?_cases h
  have inArena := (perm_modifyChunk found (·.setSlot i new)).append_left old.value?.toList
  have inChunk := (Chunk.perm_setSlot slot new).append_right a.destructRest
  rw [List.append_assoc, List.append_assoc] at inChunk
  have both := (List.perm_append_comm_assoc _ _ _).trans (inArena.trans inChunk)
  exact (List.perm_append_left_iff _).mp (both.trans (List.perm_append_comm_assoc _ _ _))

theorem destructRest_extended (a : Arena α) (size : Nat) :
    (a.extended size).destructRest = a.destructRest := by
  simp [destructRest_eq, extended, stored, Chunk.values_ofSize]

theorem Trail.perm_removeAll {o : Option Nat} {path : List Nat} (h : a.Trail o path) :
    (path.flatMap a.valuesOf ++ (a.removeAll path).destructRest).Perm a.destructRest := by
  induction path generalizing a o with
  | nil => exact .refl _
  | cons c rest ih =>
      cases h with
      | @step _ ch _ found next =>
          have apart : c ∉ rest := Trail.head_not_mem (.step found next)
          have onward := (ih (next.remove apart)).append_left ch.values
          rw [flatMap_valuesOf_remove apart] at onward
          rw [List.flatMap_cons, valuesOf_eq found, List.append_assoc]
          exact onward.trans (perm_remove found)

/-- What the contract asks of an arena before a command. -/
def Command.Allowed (a : Arena α) : Command α → Prop
  | .push _ => True
  | .write c i _ | .markJump c i => a.slot? c i = some .empty
  | .take c i | .get c i => ∃ v, a.slot? c i = some (.value v)
  | .state c i | .isEmpty c i => ∃ s, a.slot? c i = some s
  | .size c | .states c | .link c _ | .next c | .destruct c => ∃ ch, a.chunk? c = some ch
  | .destructChain first => a.Closes first

/-- The contract is kept by each command of a script, in the arena that it finds. -/
def Lawful : Arena α → List (Command α) → Prop
  | _, [] => True
  | a, command :: rest =>
    command.Allowed a ∧ ∀ outcome b, perform command a = .ok outcome b → Lawful b rest

def Command.written : Command α → List α
  | .write _ _ v => [v]
  | _ => []

/-- What a command gives back: what it takes, or what it drops. -/
def Command.released : Command α → Outcome α → List α
  | .take _ _, ⟨.element v, drops⟩ => v :: drops
  | _, outcome => outcome.drops

/-- The two arenas differ in slot `i` of chunk `c` and nowhere else. -/
structure SlotOnly (a b : Arena α) (c i : Nat) : Prop where
  created : b.chunks.size = a.chunks.size
  others : ∀ d, d ≠ c → b.chunk? d = a.chunk? d
  next : b.next? c = a.next? c
  slots : ∀ j, j ≠ i → b.slot? c j = a.slot? c j

/-- What a command makes of the arena `a`: the arena `b`, and an outcome. Whatever is not
said to change is as it was. -/
def Effect (a b : Arena α) (outcome : Outcome α) : Command α → Prop
  | .push size => outcome = ⟨.number a.chunks.size, []⟩ ∧
      b.chunk? a.chunks.size = some (.ofSize size) ∧
      ∀ d, d ≠ a.chunks.size → b.chunk? d = a.chunk? d
  | .write c i v => outcome = ⟨.done, []⟩ ∧ a.slot? c i = some .empty ∧
      b.slot? c i = some (.value v) ∧ a.SlotOnly b c i
  | .markJump c i => outcome = ⟨.done, []⟩ ∧ a.slot? c i = some .empty ∧
      b.slot? c i = some .jump ∧ a.SlotOnly b c i
  | .take c i => ∃ v, outcome = ⟨.element v, []⟩ ∧ a.slot? c i = some (.value v) ∧
      b.slot? c i = some .empty ∧ a.SlotOnly b c i
  | .get c i => b = a ∧ ∃ v, outcome = ⟨.element v, []⟩ ∧ a.slot? c i = some (.value v)
  | .state c i => b = a ∧ ∃ s, outcome = ⟨.state s.label, []⟩ ∧ a.slot? c i = some s
  | .isEmpty c i => b = a ∧ ∃ s, outcome = ⟨.flag s.isEmpty, []⟩ ∧ a.slot? c i = some s
  | .size c => b = a ∧ ∃ ch, outcome = ⟨.number ch.size, []⟩ ∧ a.chunk? c = some ch
  | .states c => b = a ∧ ∃ ch, outcome = ⟨.states (ch.slots.toList.map Slot.label), []⟩ ∧
      a.chunk? c = some ch
  | .link c next => outcome = ⟨.done, []⟩ ∧ b.next? c = some next ∧
      (∀ d i, b.slot? d i = a.slot? d i) ∧ ∀ d, d ≠ c → b.chunk? d = a.chunk? d
  | .next c => b = a ∧ outcome = ⟨.next (a.next? c), []⟩
  | .destruct c => outcome = ⟨.done, a.valuesOf c⟩ ∧ b.chunk? c = none ∧
      ∀ d, d ≠ c → b.chunk? d = a.chunk? d
  | .destructChain first => ∃ path, a.Trail (some first) path ∧ path.Nodup ∧
      (∀ d, d ∈ path ↔ a.Leads first d) ∧
      outcome = ⟨.number path.length, path.flatMap a.valuesOf⟩ ∧
      ∀ d, b.chunk? d = if d ∈ path then none else a.chunk? d

/-- The commands of a script one after another, each with its effect. -/
inductive Course : Arena α → List (Command α) → List (Outcome α) → Arena α → Prop
  | nil (a : Arena α) : Course a [] [] a
  | cons {a b c : Arena α} {command : Command α} {outcome : Outcome α}
      {rest : List (Command α)} {outcomes : List (Outcome α)} (effect : a.Effect b outcome command)
      (onward : Course b rest outcomes c) : Course a (command :: rest) (outcome :: outcomes) c

theorem vacant_iff : a.vacant c i = true ↔ a.slot? c i = some .empty := by
  rw [vacant]
  split
  next empty => simp [empty]
  next other =>
    simp only [Bool.false_eq_true, false_iff]
    exact other

theorem slot?_setSlot_self {old : Slot α} (h : a.slot? c i = some old) (new : Slot α) :
    (a.setSlot c i new).slot? c i = some new := by
  obtain ⟨ch, found, slot⟩ := slot?_cases h
  have inside : i < ch.size := (Array.getElem?_eq_some_iff.mp slot).1
  rw [slot?_eq (chunk?_setSlot found i new), Chunk.slot?_setSlot, if_pos ⟨rfl, inside⟩]

theorem slotOnly_setSlot (a : Arena α) (c i : Nat) (s : Slot α) :
    a.SlotOnly (a.setSlot c i s) c i where
  created := created_setSlot ..
  others d apart := chunk?_setSlot_of_ne apart.symm i s
  next := by
    rw [next?, setSlot, chunk?_modifyChunk, if_pos rfl, next?]
    cases a.chunk? c <;> rfl
  slots j apart := by
    rw [slot?, setSlot, chunk?_modifyChunk, if_pos rfl, slot?]
    cases a.chunk? c with
    | none => rfl
    | some ch =>
        simp only [Option.map_some, Option.bind_some, Chunk.slot?_setSlot]
        rw [if_neg fun same => apart same.1.symm]

/-- A command was performed, had its effect, and no value was lost or came twice. -/
structure Performed (a b : Arena α) (command : Command α) (outcome : Outcome α) : Prop where
  ran : perform command a = .ok outcome b
  effect : a.Effect b outcome command
  kept : (command.written ++ a.destructRest).Perm (command.released outcome ++ b.destructRest)

theorem performed_push (a : Arena α) (size : Nat) :
    a.Performed (a.extended size) (.push size) ⟨.number a.chunks.size, []⟩ where
  ran := Act.bind_ok (push_ok a size) _
  effect := by
    refine ⟨rfl, ?_, fun d apart => ?_⟩
    · rw [chunk?_extended, if_pos rfl]
    · rw [chunk?_extended, if_neg apart]
  kept := by
    rw [destructRest_extended]
    exact .refl _

theorem performed_write (h : a.slot? c i = some .empty) (v : α) :
    a.Performed (a.setSlot c i (.value v)) (.write c i v) ⟨.done, []⟩ where
  ran := by
    have ran : write c i v a = .ok () (a.setSlot c i (.value v)) := by
      rw [write, Act.bind_require, if_pos (vacant_iff.mpr h), Act.modify_apply]
    exact Act.bind_ok ran _
  effect := ⟨rfl, h, slot?_setSlot_self h _, slotOnly_setSlot ..⟩
  kept := (perm_setSlot h (.value v)).symm

theorem performed_markJump (h : a.slot? c i = some .empty) :
    a.Performed (a.setSlot c i .jump) (.markJump c i) ⟨.done, []⟩ where
  ran := by
    have ran : markJump c i a = .ok () (a.setSlot c i .jump) := by
      rw [markJump, Act.bind_require, if_pos (vacant_iff.mpr h), Act.modify_apply]
    exact Act.bind_ok ran _
  effect := ⟨rfl, h, slot?_setSlot_self h _, slotOnly_setSlot ..⟩
  kept := (perm_setSlot h .jump).symm

theorem performed_take {v : α} (h : a.slot? c i = some (.value v)) :
    a.Performed (a.setSlot c i .empty) (.take c i) ⟨.element v, []⟩ where
  ran := by
    obtain ⟨ch, found, slot⟩ := slot?_cases h
    exact Act.bind_ok (take_ok found slot) _
  effect := ⟨v, rfl, h, slot?_setSlot_self h _, slotOnly_setSlot ..⟩
  kept := (perm_setSlot h .empty).symm

theorem performed_link (h : a.chunk? c = some ch) (next : Nat) :
    a.Performed (a.modifyChunk c ({ · with next := some next })) (.link c next) ⟨.done, []⟩ where
  ran := Act.bind_ok (link_ok h next) _
  effect := by
    refine ⟨rfl, ?_, fun d i => ?_, fun d apart => ?_⟩
    · rw [next?, chunk?_modifyChunk, if_pos rfl, h]
      rfl
    · rw [slot?, chunk?_modifyChunk, slot?]
      split
      · cases a.chunk? d <;> rfl
      · rfl
    · rw [chunk?_modifyChunk, if_neg apart.symm]
  kept := ((List.perm_append_left_iff _).mp (perm_modifyChunk h _)).symm

theorem performed_destruct (h : a.chunk? c = some ch) :
    a.Performed (a.remove c) (.destruct c) ⟨.done, ch.values⟩ where
  ran := Act.bind_ok (destruct_ok h) _
  effect := by
    refine ⟨by rw [valuesOf_eq h], ?_, fun d apart => ?_⟩
    · rw [chunk?_remove, if_pos rfl]
    · rw [chunk?_remove, if_neg apart.symm]
  kept := (perm_remove h).symm

theorem performed_destructChain {path : List Nat} (h : a.Trail (some c) path) :
    a.Performed (a.removeAll path) (.destructChain c)
      ⟨.number path.length, path.flatMap a.valuesOf⟩ where
  ran := Act.bind_ok (destructChain_trail h) _
  effect := ⟨path, h, h.nodup, fun _ => h.mem_iff, rfl, chunk?_removeAll a path⟩
  kept := h.perm_removeAll.symm

theorem exists_performed {command : Command α} (allowed : command.Allowed a) :
    ∃ outcome b, a.Performed b command outcome := by
  cases command with
  | push size => exact ⟨_, _, performed_push a size⟩
  | write c i v => exact ⟨_, _, performed_write allowed v⟩
  | markJump c i => exact ⟨_, _, performed_markJump allowed⟩
  | take c i =>
      obtain ⟨v, slot⟩ := allowed
      exact ⟨_, _, performed_take slot⟩
  | get c i =>
      obtain ⟨v, slot⟩ := allowed
      obtain ⟨ch, found, slot'⟩ := slot?_cases slot
      exact ⟨_, _, Act.bind_ok (get_ok found slot') _, ⟨rfl, v, rfl, slot⟩, .refl _⟩
  | state c i =>
      obtain ⟨s, slot⟩ := allowed
      obtain ⟨ch, found, slot'⟩ := slot?_cases slot
      exact ⟨_, _, Act.bind_ok (read_ok found slot') _, ⟨rfl, s, rfl, slot⟩, .refl _⟩
  | isEmpty c i =>
      obtain ⟨s, slot⟩ := allowed
      obtain ⟨ch, found, slot'⟩ := slot?_cases slot
      exact ⟨_, _, Act.bind_ok (read_ok found slot') _, ⟨rfl, s, rfl, slot⟩, .refl _⟩
  | size c =>
      obtain ⟨ch, found⟩ := allowed
      exact ⟨_, _, Act.bind_ok (inspect_ok found _) _, ⟨rfl, ch, rfl, found⟩, .refl _⟩
  | states c =>
      obtain ⟨ch, found⟩ := allowed
      exact ⟨_, _, Act.bind_ok (inspect_ok found _) _, ⟨rfl, ch, rfl, found⟩, .refl _⟩
  | link c next =>
      obtain ⟨ch, found⟩ := allowed
      exact ⟨_, _, performed_link found next⟩
  | next c =>
      obtain ⟨ch, found⟩ := allowed
      exact ⟨_, _, Act.bind_ok (inspect_ok found _) _, ⟨rfl, by rw [next?_eq found]⟩, .refl _⟩
  | destruct c =>
      obtain ⟨ch, found⟩ := allowed
      exact ⟨_, _, performed_destruct found⟩
  | destructChain first =>
      obtain ⟨path, trail⟩ := Closes.exists_trail allowed
      exact ⟨_, _, performed_destructChain trail⟩

theorem of_require_ran {β : Type} {ok : Arena α → Bool} {k : Unit → Act (Arena α) β} {x : β}
    (ran : (Act.require ok >>= k) a = .ok x b) : ok a = true := by
  rw [Act.bind_require] at ran
  split at ran
  · assumption
  · cases ran

theorem value_cases (a : Arena α) (c i : Nat) :
    (∃ v, a.slot? c i = some (.value v)) ∨
      take c i a = .error .misused a ∧ get c i a = .error .misused a := by
  rw [take, get, Act.bind_view, Act.bind_view]
  cases a.slot? c i with
  | none => exact .inr ⟨rfl, rfl⟩
  | some s =>
      cases s with
      | value v => exact .inl ⟨v, rfl⟩
      | empty | jump => exact .inr ⟨rfl, rfl⟩

theorem slot_of_read {s : Slot α} (ran : read c i a = .ok s b) : ∃ s, a.slot? c i = some s := by
  rw [read, Act.bind_view] at ran
  cases slot : a.slot? c i with
  | none =>
      simp only [slot] at ran
      cases ran
  | some s => exact ⟨s, rfl⟩

theorem chunk_of_inspect {β : Type} {f : Chunk α → β} {x : β} (ran : inspect c f a = .ok x b) :
    ∃ ch, a.chunk? c = some ch := by
  obtain ⟨ch, found, -⟩ := inspect_ran ran
  exact ⟨ch, found⟩

theorem allowed_of_perform {command : Command α} {outcome : Outcome α}
    (ran : perform command a = .ok outcome b) : command.Allowed a := by
  cases command with
  | push size => trivial
  | write c i v =>
      obtain ⟨_, _, first, -⟩ := Act.of_bind_ok ran
      exact vacant_iff.mp (of_require_ran first)
  | markJump c i =>
      obtain ⟨_, _, first, -⟩ := Act.of_bind_ok ran
      exact vacant_iff.mp (of_require_ran first)
  | take c i =>
      obtain ⟨_, _, first, -⟩ := Act.of_bind_ok ran
      refine (value_cases a c i).resolve_right fun refused => ?_
      rw [refused.1] at first
      cases first
  | get c i =>
      obtain ⟨_, _, first, -⟩ := Act.of_bind_ok ran
      refine (value_cases a c i).resolve_right fun refused => ?_
      rw [refused.2] at first
      cases first
  | state c i | isEmpty c i =>
      obtain ⟨_, _, first, -⟩ := Act.of_bind_ok ran
      exact slot_of_read first
  | size c | states c | next c =>
      obtain ⟨_, _, first, -⟩ := Act.of_bind_ok ran
      exact chunk_of_inspect first
  | link c next =>
      obtain ⟨_, _, first, -⟩ := Act.of_bind_ok ran
      exact Option.isSome_iff_exists.mp (of_require_ran first)
  | destruct c =>
      obtain ⟨_, _, first, -⟩ := Act.of_bind_ok ran
      obtain ⟨_, _, inspected, -⟩ := Act.of_bind_ok first
      exact chunk_of_inspect inspected
  | destructChain first =>
      obtain ⟨_, _, freed, -⟩ := Act.of_bind_ok ran
      exact closes_of_destructChain freed

theorem performAll_cons {command : Command α} {rest : List (Command α)} {outcome : Outcome α}
    {outcomes : List (Outcome α)} {d : Arena α} (first : perform command a = .ok outcome b)
    (onward : performAll rest b = .ok outcomes d) :
    performAll (command :: rest) a = .ok (outcome :: outcomes) d := by
  rw [performAll, Act.bind_ok first, Act.bind_ok onward]
  rfl

/-- A script keeps to the contract just if none of its commands is refused. -/
theorem lawful_iff {script : List (Command α)} :
    Lawful a script ↔ ∃ outcomes b, performAll script a = .ok outcomes b := by
  induction script generalizing a with
  | nil => exact ⟨fun _ => ⟨[], a, rfl⟩, fun _ => trivial⟩
  | cons command rest ih =>
      constructor
      · rintro ⟨allowed, onward⟩
        obtain ⟨outcome, b, performed⟩ := exists_performed allowed
        obtain ⟨outcomes, d, later⟩ := ih.mp (onward outcome b performed.ran)
        exact ⟨_, d, performAll_cons performed.ran later⟩
      · rintro ⟨outcomes, d, ran⟩
        obtain ⟨outcome, b, first, onward⟩ := Act.of_bind_ok ran
        obtain ⟨outcomes', d', later, -⟩ := Act.of_bind_ok onward
        refine ⟨allowed_of_perform first, fun outcome' b' again => ?_⟩
        obtain ⟨rfl, rfl⟩ := EStateM.Result.ok.inj (first.symm.trans again)
        exact ih.mpr ⟨outcomes', d', later⟩

/-- What was stored before a script and what it wrote is what it gave back and what is
stored behind it. -/
theorem Lawful.course {script : List (Command α)} (lawful : Lawful a script) :
    ∃ outcomes b, performAll script a = .ok outcomes b ∧ Course a script outcomes b ∧
      (script.flatMap Command.written ++ a.destructRest).Perm
        ((List.zipWith Command.released script outcomes).flatten ++ b.destructRest) := by
  induction script generalizing a with
  | nil => exact ⟨[], a, rfl, .nil a, .refl _⟩
  | cons command rest ih =>
      obtain ⟨allowed, onward⟩ := lawful
      obtain ⟨outcome, b, performed⟩ := exists_performed allowed
      obtain ⟨outcomes, d, later, course, kept⟩ := ih (onward outcome b performed.ran)
      refine ⟨_, d, performAll_cons performed.ran later, .cons performed.effect course, ?_⟩
      have first := performed.kept.append_left (rest.flatMap Command.written)
      have second := kept.append_left (command.released outcome)
      rw [List.flatMap_cons, List.zipWith_cons_cons, List.flatten_cons, List.append_assoc,
        List.append_assoc]
      exact (List.perm_append_comm_assoc _ _ _).trans
        (first.trans ((List.perm_append_comm_assoc _ _ _).trans second))

/-- A script that keeps to the contract of slots and links runs to its end. Each of its
commands changes what it is about and nothing else, and every value that it wrote comes
out once: it is taken, or dropped with a chunk, or dropped at the end. -/
theorem values_come_out_once {script : List (Command α)} (lawful : Lawful empty script) :
    ∃ outcomes b, runScript script = .ok (outcomes, b.destructRest) ∧
      Course empty script outcomes b ∧
      (script.flatMap Command.written).Perm
        ((List.zipWith Command.released script outcomes).flatten ++ b.destructRest) := by
  obtain ⟨outcomes, b, ran, course, kept⟩ := lawful.course
  refine ⟨outcomes, b, ?_, course, ?_⟩
  · rw [runScript, ran]
  · have none : (empty : Arena α).destructRest = [] := rfl
    rwa [none, List.append_nil] at kept

/-- Two chunks share their follower. The one is freed alone, the other with all that
follows it; a chunk that none of them leads to is left for the end. -/
theorem values_come_out_once_with_shared_tail :
    let script : List (Command Nat) :=
      [.push 2, .push 2, .push 2, .push 1, .link 0 2, .link 1 2, .write 0 1 10, .write 1 1 11,
        .write 1 0 12, .write 2 1 13, .markJump 2 0, .write 3 0 14, .take 1 1, .write 1 1 15,
        .destruct 0, .destructChain 1]
    ∃ outcomes b, runScript script = .ok (outcomes, b.destructRest) ∧
      Course empty script outcomes b ∧ outcomes.flatMap Outcome.drops = [10, 12, 15, 13] ∧
      b.destructRest = [14] := by
  intro script
  have lawful : Lawful empty script := lawful_iff.mpr ⟨_, _, rfl⟩
  obtain ⟨outcomes, b, ran, course, -⟩ := values_come_out_once lawful
  refine ⟨outcomes, b, ran, course, ?_⟩
  have told := Except.ok.inj ran
  have drops := congrArg (fun answer => answer.1.flatMap Outcome.drops) told
  exact ⟨drops.symm, (congrArg Prod.snd told).symm⟩

end Arena
end Handoff
