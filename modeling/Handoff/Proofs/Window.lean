import Handoff.Proofs.Agreement
import Handoff.Proofs.Index

/-! What a chunk shows. Its slots are used round and round, so at any moment they
stand for as many consecutive indices as there are slots: a window. A chunk is
described by what it holds at each index of its window. -/
namespace Handoff

variable {α : Type}

namespace Slot

def ofCell : Option α → Slot α
  | none => .empty
  | some v => .value v

@[simp] theorem ofCell_none : (ofCell none : Slot α) = .empty := rfl

@[simp] theorem ofCell_some (v : α) : ofCell (some v) = .value v := rfl

end Slot

namespace Chunk

/-- The chunk has `n` slots and holds `content i` at each index `i` of the window
that begins at `lo`. -/
structure Shows (ch : Chunk α) (n lo : Nat) (content : Nat → Slot α) : Prop where
  size : ch.size = n
  slot : ∀ i, lo ≤ i → i < lo + n → ch.slot? (i % n) = some (content i)

theorem slot?_setSlot (ch : Chunk α) (i j : Nat) (s : Slot α) :
    (ch.setSlot i s).slot? j = if i = j ∧ i < ch.size then some s else ch.slot? j := by
  simp only [slot?, setSlot, size, Array.getElem?_setIfInBounds]
  by_cases same : i = j
  · subst same
    by_cases h : i < ch.slots.size
    · simp [h]
    · simp [h]
  · simp [same]

@[simp] theorem size_setSlot (ch : Chunk α) (i : Nat) (s : Slot α) :
    (ch.setSlot i s).size = ch.size := by
  simp [size, setSlot]

@[simp] theorem next_setSlot (ch : Chunk α) (i : Nat) (s : Slot α) :
    (ch.setSlot i s).next = ch.next := rfl

theorem write_ok {ch : Chunk α} {i : Nat} (h : ch.vacant i = true) (v : α) :
    write i v ch = .ok () (ch.setSlot i (.value v)) := by
  rw [write, Act.bind_require, if_pos h, Act.modify_apply]

theorem take_ok {ch : Chunk α} {i : Nat} {v : α} (h : ch.slot? i = some (.value v)) :
    take i ch = .ok v (ch.setSlot i .empty) := by
  rw [take, Act.bind_view, h]
  rfl

theorem get_ok {ch : Chunk α} {i : Nat} {v : α} (h : ch.slot? i = some (.value v)) :
    get i ch = .ok v ch := by
  rw [get, Act.bind_view, h]
  rfl

variable {ch : Chunk α} {n lo : Nat} {content content' : Nat → Slot α}

theorem Shows.ofSize (n lo : Nat) : (ofSize n : Chunk α).Shows n lo fun _ => .empty := by
  refine ⟨by simp [Chunk.ofSize, Chunk.size], fun i _ _ => ?_⟩
  have hn : i % n < n := Nat.mod_lt i (by omega)
  simp [Chunk.ofSize, slot?, hn]

theorem Shows.congr (h : ch.Shows n lo content)
    (same : ∀ i, lo ≤ i → i < lo + n → content i = content' i) : ch.Shows n lo content' :=
  ⟨h.size, fun i hlo hhi => by rw [h.slot i hlo hhi, same i hlo hhi]⟩

theorem Shows.relink (h : ch.Shows n lo content) (next : Option Nat) :
    Shows { ch with next := next } n lo content := ⟨h.size, h.slot⟩

theorem Shows.set (h : ch.Shows n lo content) {i : Nat} (hlo : lo ≤ i) (hhi : i < lo + n)
    (s : Slot α) : (ch.setSlot (i % n) s).Shows n lo fun k => if k = i then s else content k := by
  have hi : i % n < n := Nat.mod_lt i (by omega)
  refine ⟨by rw [size_setSlot, h.size], fun k klo khi => ?_⟩
  rw [slot?_setSlot, h.size]
  by_cases same : k = i
  · subst same
    simp [hi]
  · have apart : i % n ≠ k % n := fun e => same (Index.mod_injective hlo hhi klo khi e).symm
    simp only [apart, same, false_and, if_false]
    exact h.slot k klo khi

theorem Shows.advance (h : ch.Shows n lo content)
    (same : ∀ i, lo < i → i < lo + n → content i = content' i)
    (last : 0 < n → content' (lo + n) = content lo) : ch.Shows n (lo + 1) content' := by
  refine ⟨h.size, fun i hlo hhi => ?_⟩
  by_cases hlast : i = lo + n
  · subst hlast
    rw [Nat.add_mod_right, h.slot lo (Nat.le_refl lo) (by omega), last (by omega)]
  · rw [h.slot i (by omega) (by omega), same i (by omega) (by omega)]

theorem Shows.vacant_iff (h : ch.Shows n lo content) {i : Nat} (hlo : lo ≤ i) (hhi : i < lo + n) :
    ch.vacant (i % n) = true ↔ content i = .empty := by
  unfold vacant
  rw [h.slot i hlo hhi]
  cases content i <;> simp

theorem Shows.values_eq_nil (h : ch.Shows n lo content)
    (none : ∀ i, lo ≤ i → i < lo + n → (content i).value? = none) : ch.values = [] := by
  unfold values
  rw [List.filterMap_eq_nil_iff]
  intro s hs
  obtain ⟨slot, hslot, rfl⟩ := List.mem_iff_getElem.mp hs
  have hsize : slot < n := by
    have hn : ch.slots.size = n := h.size
    simpa [hn] using hslot
  obtain ⟨i, hlo, hhi, rfl⟩ := Index.exists_mod_eq lo hsize
  have hi := h.slot i hlo hhi
  have hget : ch.slots.toList[i % n] = content i := by
    simpa [slot?, Array.getElem?_eq_some_iff] using (Array.getElem?_eq_some_iff.mp hi).2
  rw [hget]
  exact none i hlo hhi

end Chunk
end Handoff
