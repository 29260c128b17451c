import Handoff.Chunk.Arena
import Handoff.Proofs.Window

/-! Chunks by number. Each change to an arena is described by what it does to the
chunk it is about and to all others, and each call by when it is not a misuse. -/
namespace Handoff.Arena

variable {α β : Type} {a : Arena α} {ch : Chunk α} {c d i : Nat} {v : α}

theorem chunk?_of_le (h : a.chunks.size ≤ c) : a.chunk? c = none := by
  rw [chunk?, Array.getElem?_eq_none h]
  rfl

theorem chunk?_modifyChunk (a : Arena α) (c d : Nat) (f : Chunk α → Chunk α) :
    (a.modifyChunk c f).chunk? d = if c = d then (a.chunk? d).map f else a.chunk? d := by
  simp only [chunk?, modifyChunk, Array.getElem?_modify]
  by_cases same : c = d
  · subst same
    cases a.chunks[c]? <;> simp
  · simp [same]

@[simp] theorem created_modifyChunk (a : Arena α) (c : Nat) (f : Chunk α → Chunk α) :
    (a.modifyChunk c f).chunks.size = a.chunks.size := by
  simp [modifyChunk]

theorem chunk?_remove (a : Arena α) (c d : Nat) :
    (a.remove c).chunk? d = if c = d then none else a.chunk? d := by
  simp only [chunk?, remove, Array.getElem?_setIfInBounds]
  by_cases same : c = d
  · subst same
    by_cases h : c < a.chunks.size <;> simp [h]
  · simp [same]

@[simp] theorem created_remove (a : Arena α) (c : Nat) :
    (a.remove c).chunks.size = a.chunks.size := by
  simp [remove]

/-- An arena with one more chunk, of `size` empty slots. -/
def extended (a : Arena α) (size : Nat) : Arena α := ⟨a.chunks.push (some (.ofSize size))⟩

theorem chunk?_extended (a : Arena α) (size d : Nat) :
    (a.extended size).chunk? d =
      if d = a.chunks.size then some (.ofSize size) else a.chunk? d := by
  simp only [chunk?, extended, Array.getElem?_push]
  by_cases same : d = a.chunks.size
  · simp [same]
  · simp [same]

@[simp] theorem created_extended (a : Arena α) (size : Nat) :
    (a.extended size).chunks.size = a.chunks.size + 1 := by
  simp [extended]

theorem slot?_eq (h : a.chunk? c = some ch) (i : Nat) : a.slot? c i = ch.slot? i := by
  rw [slot?, h, Option.bind_some]

theorem vacant_eq (h : a.chunk? c = some ch) (i : Nat) : a.vacant c i = ch.vacant i := by
  rw [vacant, slot?_eq h]
  rfl

theorem chunk?_setSlot (h : a.chunk? c = some ch) (i : Nat) (s : Slot α) :
    (a.setSlot c i s).chunk? c = some (ch.setSlot i s) := by
  rw [setSlot, chunk?_modifyChunk, if_pos rfl, h, Option.map_some]

theorem chunk?_setSlot_of_ne (apart : c ≠ d) (i : Nat) (s : Slot α) :
    (a.setSlot c i s).chunk? d = a.chunk? d := by
  rw [setSlot, chunk?_modifyChunk, if_neg apart]

@[simp] theorem created_setSlot (a : Arena α) (c i : Nat) (s : Slot α) :
    (a.setSlot c i s).chunks.size = a.chunks.size := created_modifyChunk _ _ _

/-- The arena with one more chunk, which has a value in slot `i`. -/
def begun (a : Arena α) (size i : Nat) (v : α) : Arena α :=
  (a.extended size).setSlot a.chunks.size i (.value v)

def joined (a : Arena α) (c size i : Nat) (v : α) : Arena α :=
  (a.begun size i v).modifyChunk c ({ · with next := some a.chunks.size })

/-- And chunk `c` has a jump in the same slot. -/
def grown (a : Arena α) (c size i : Nat) (v : α) : Arena α :=
  (a.joined c size i v).setSlot c i .jump

theorem begun_new (a : Arena α) (size i : Nat) (v : α) :
    (a.begun size i v).chunk? a.chunks.size = some ((Chunk.ofSize size).setSlot i (.value v)) := by
  refine chunk?_setSlot ?_ i (.value v)
  rw [chunk?_extended, if_pos rfl]

theorem begun_other (hd : d ≠ a.chunks.size) (size i : Nat) (v : α) :
    (a.begun size i v).chunk? d = a.chunk? d := by
  rw [begun, chunk?_setSlot_of_ne hd.symm, chunk?_extended, if_neg hd]

theorem joined_old (hc : c < a.chunks.size) (h : a.chunk? c = some ch) (size i : Nat) (v : α) :
    (a.joined c size i v).chunk? c = some { ch with next := some a.chunks.size } := by
  rw [joined, chunk?_modifyChunk, if_pos rfl, begun_other (Nat.ne_of_lt hc), h, Option.map_some]

theorem joined_other (apart : c ≠ d) (size i : Nat) (v : α) :
    (a.joined c size i v).chunk? d = (a.begun size i v).chunk? d := by
  rw [joined, chunk?_modifyChunk, if_neg apart]

theorem grown_new (hc : c < a.chunks.size) (size i : Nat) (v : α) :
    (a.grown c size i v).chunk? a.chunks.size =
      some ((Chunk.ofSize size).setSlot i (.value v)) := by
  have apart : c ≠ a.chunks.size := Nat.ne_of_lt hc
  rw [grown, chunk?_setSlot_of_ne apart, joined_other apart, begun_new]

theorem grown_old (hc : c < a.chunks.size) (h : a.chunk? c = some ch) (size i : Nat) (v : α) :
    (a.grown c size i v).chunk? c =
      some (Chunk.setSlot { ch with next := some a.chunks.size } i .jump) :=
  chunk?_setSlot (joined_old hc h size i v) i .jump

theorem grown_other (hd : d ≠ a.chunks.size) (apart : c ≠ d) (size i : Nat) (v : α) :
    (a.grown c size i v).chunk? d = a.chunk? d := by
  rw [grown, chunk?_setSlot_of_ne apart, joined_other apart, begun_other hd]

@[simp] theorem created_grown (a : Arena α) (c size i : Nat) (v : α) :
    (a.grown c size i v).chunks.size = a.chunks.size + 1 := by
  simp [grown, joined, begun]

theorem push_ok (a : Arena α) (size : Nat) :
    push size a = .ok a.chunks.size (a.extended size) := rfl

theorem read_ok {s : Slot α} (h : a.chunk? c = some ch) (hs : ch.slot? i = some s) :
    read c i a = .ok s a := by
  rw [read, Act.bind_view, slot?_eq h, hs]
  rfl

theorem write_ok (h : a.chunk? c = some ch) (vacant : ch.vacant i = true) (v : α) :
    write c i v a = .ok () (a.setSlot c i (.value v)) := by
  rw [write, Act.bind_require, vacant_eq h, if_pos vacant, Act.modify_apply]

theorem markJump_ok (h : a.chunk? c = some ch) (vacant : ch.vacant i = true) :
    markJump c i a = .ok () (a.setSlot c i .jump) := by
  rw [markJump, Act.bind_require, vacant_eq h, if_pos vacant, Act.modify_apply]

theorem take_ok (h : a.chunk? c = some ch) (hs : ch.slot? i = some (.value v)) :
    take c i a = .ok v (a.setSlot c i .empty) := by
  rw [take, Act.bind_view, slot?_eq h, hs]
  rfl

theorem get_ok (h : a.chunk? c = some ch) (hs : ch.slot? i = some (.value v)) :
    get c i a = .ok v a := by
  rw [get, Act.bind_view, slot?_eq h, hs]
  rfl

theorem inspect_ok (h : a.chunk? c = some ch) (f : Chunk α → β) : inspect c f a = .ok (f ch) a := by
  rw [inspect, Act.bind_view, h]
  rfl

theorem link_ok (h : a.chunk? c = some ch) (next : Nat) :
    link c next a = .ok () (a.modifyChunk c ({ · with next := some next })) := by
  rw [link, Act.bind_require, h, if_pos Option.isSome_some, Act.modify_apply]

theorem destruct_ok (h : a.chunk? c = some ch) : destruct c a = .ok ch.values (a.remove c) := by
  rw [destruct, Act.bind_ok (inspect_ok h _), Act.bind_modify, Act.pure_apply]

theorem write_begun {size : Nat} (hi : i < size) (v : α) :
    write a.chunks.size i v (a.extended size) = .ok () (a.begun size i v) := by
  have vacant : (Chunk.ofSize size : Chunk α).vacant i = true := by
    simp [Chunk.vacant, Chunk.ofSize, Chunk.slot?, hi]
  refine write_ok ?_ vacant v
  rw [chunk?_extended, if_pos rfl]

theorem link_begun (hc : c < a.chunks.size) (h : a.chunk? c = some ch) (size i : Nat) (v : α) :
    link c a.chunks.size (a.begun size i v) = .ok () (a.joined c size i v) :=
  link_ok ((begun_other (Nat.ne_of_lt hc) size i v).trans h) _

theorem markJump_joined (hc : c < a.chunks.size) (h : a.chunk? c = some ch)
    (vacant : ch.vacant i = true) (size : Nat) (v : α) :
    markJump c i (a.joined c size i v) = .ok () (a.grown c size i v) :=
  markJump_ok (joined_old hc h size i v) vacant

end Handoff.Arena
