import Mathlib.Logic.Relation
import Handoff.Proofs.Closing

/-! Chunks along their links. A link is no more than a number, so links can lead to a
chunk that was freed, or in a circle; several chunks can have one follower. Freeing a
chain of chunks is in order if its links do neither, and then it frees each chunk that
they lead to once. -/
namespace Handoff.Arena

variable {α : Type} {a : Arena α} {o : Option Nat} {path path' : List Nat} {c d e : Nat}

/-- The chunks that are found from `o` on, link by link, up to one without a follower. -/
inductive Trail (a : Arena α) : Option Nat → List Nat → Prop
  | done : Trail a none []
  | step {c : Nat} {ch : Chunk α} {rest : List Nat} (found : a.chunk? c = some ch)
      (next : Trail a ch.next rest) : Trail a (some c) (c :: rest)

/-- Links lead from the one chunk to the other, or they are the same. -/
def Leads (a : Arena α) : Nat → Nat → Prop := Relation.ReflTransGen fun c d => a.next? c = some d

/-- What it takes to free all chunks from `first` on. -/
structure Closes (a : Arena α) (first : Nat) : Prop where
  live : ∀ c, a.Leads first c → (a.chunk? c).isSome = true
  acyclic : ∀ c d, a.Leads first c → a.next? c = some d → ¬ a.Leads d c

theorem next?_eq {ch : Chunk α} (h : a.chunk? c = some ch) : a.next? c = ch.next := by
  rw [next?, h, Option.bind_some]

theorem next?_remove (a : Arena α) (c d : Nat) :
    (a.remove c).next? d = if c = d then none else a.next? d := by
  rw [next?, chunk?_remove]
  split
  · rfl
  · rfl

namespace Trail

theorem unique (h : a.Trail o path) (h' : a.Trail o path') : path = path' := by
  induction h generalizing path' with
  | done =>
      cases h'
      rfl
  | step found next ih =>
      cases h' with
      | step found' next' =>
          obtain rfl := Option.some.inj (found.symm.trans found')
          rw [ih next']

theorem live (h : a.Trail o path) (mem : c ∈ path) : (a.chunk? c).isSome = true := by
  induction h with
  | done => cases mem
  | step found next ih =>
      rcases List.mem_cons.mp mem with rfl | mem
      · rw [found]
        rfl
      · exact ih mem

theorem suffix (h : a.Trail o path) (mem : c ∈ path) :
    ∃ rest, a.Trail (some c) (c :: rest) ∧ c :: rest <:+ path := by
  induction h with
  | done => cases mem
  | @step d ch rest found next ih =>
      rcases List.mem_cons.mp mem with rfl | mem
      · exact ⟨rest, .step found next, List.suffix_refl _⟩
      · obtain ⟨rest', trail, suffix⟩ := ih mem
        exact ⟨rest', trail, suffix.trans (List.suffix_cons _ _)⟩

theorem head_not_mem (h : a.Trail (some c) (c :: path)) : c ∉ path := by
  intro mem
  cases h with
  | step found next =>
      obtain ⟨rest, trail, suffix⟩ := next.suffix mem
      obtain rfl := List.cons.inj (trail.unique (.step found next)) |>.2
      have := suffix.length_le
      rw [List.length_cons] at this
      omega

theorem nodup (h : a.Trail o path) : path.Nodup := by
  induction h with
  | done => exact List.nodup_nil
  | step found next ih => exact List.nodup_cons.mpr ⟨head_not_mem (.step found next), ih⟩

theorem mem_iff (h : a.Trail (some c) path) : d ∈ path ↔ a.Leads c d := by
  constructor
  · intro mem
    generalize ho : some c = o at h
    induction h generalizing c with
    | done => cases ho
    | @step c' ch rest found next ih =>
        cases ho
        rcases List.mem_cons.mp mem with rfl | mem
        · exact .refl
        · cases hn : ch.next with
          | none =>
              rw [hn] at next
              cases next
              cases mem
          | some n => exact .head (by rw [next?_eq found, hn]) (ih mem hn.symm)
  · intro leads
    induction leads with
    | refl =>
        cases h
        exact List.mem_cons_self
    | @tail d e _ linked ih =>
        obtain ⟨rest, trail, suffix⟩ := h.suffix ih
        cases trail with
        | step found next =>
            rw [next?_eq found] at linked
            rw [linked] at next
            cases next
            exact suffix.subset (List.mem_cons_of_mem _ List.mem_cons_self)

theorem closes (h : a.Trail (some c) path) : a.Closes c where
  live _ leads := h.live (h.mem_iff.mpr leads)
  acyclic d e leads linked back := by
    obtain ⟨rest, trail, -⟩ := h.suffix (h.mem_iff.mpr leads)
    refine trail.head_not_mem ?_
    cases trail with
    | step found next =>
        rw [next?_eq found] at linked
        rw [linked] at next
        exact next.mem_iff.mpr back

theorem remove (h : a.Trail o path) (apart : c ∉ path) : (a.remove c).Trail o path := by
  induction h with
  | done => exact .done
  | step found next ih =>
      rw [List.mem_cons, not_or] at apart
      refine .step ?_ (ih apart.2)
      rw [chunk?_remove, if_neg apart.1, found]

theorem of_remove (h : (a.remove c).Trail o path) : a.Trail o path := by
  induction h with
  | done => exact .done
  | @step d ch rest found next ih =>
      rw [chunk?_remove] at found
      split at found
      · cases found
      · exact .step found ih

theorem length_le (h : a.Trail o path) : path.length ≤ a.chunks.size := by
  have created : path ⊆ List.range a.chunks.size := by
    intro c mem
    refine List.mem_range.mpr (Nat.lt_of_not_le fun le => ?_)
    have live := h.live mem
    rw [chunk?_of_le le] at live
    cases live
  have count := (List.subperm_of_subset h.nodup created).length_le
  rwa [List.length_range] at count

end Trail

def live (a : Arena α) : Nat := a.chunks.toList.countP Option.isSome

theorem live_remove (h : (a.chunk? c).isSome = true) : (a.remove c).live + 1 = a.live := by
  obtain ⟨ch, found⟩ := Option.isSome_iff_exists.mp h
  have place : a.chunks[c]? = some (some ch) := Option.join_eq_some_iff.mp found
  obtain ⟨lt, eq⟩ := Array.getElem?_eq_some_iff.mp place
  have here : (a.chunks.toList[c]).isSome = true := by
    rw [Array.getElem_toList, eq]
    rfl
  have some_live : 0 < a.live := List.countP_pos_iff.mpr ⟨_, List.getElem_mem _, here⟩
  rw [live, remove, Array.toList_setIfInBounds, List.countP_set lt, if_pos here]
  simp only [Option.isSome_none, Bool.false_eq_true, if_false]
  exact Nat.sub_add_cancel some_live

theorem Leads.of_remove (h : (a.remove c).Leads d e) : a.Leads d e := by
  refine Relation.ReflTransGen.mono (fun x y linked => ?_) _ _ h
  rw [next?_remove] at linked
  split at linked
  · cases linked
  · exact linked

theorem Closes.rest (h : a.Closes c) (linked : a.next? c = some d) : (a.remove c).Closes d where
  live e leads := by
    have apart : c ≠ e := by
      rintro rfl
      exact h.acyclic c d .refl linked leads.of_remove
    rw [chunk?_remove, if_neg apart]
    exact h.live e (.head linked leads.of_remove)
  acyclic x y leads next back := by
    rw [next?_remove] at next
    split at next
    · cases next
    · exact h.acyclic x y (.head linked leads.of_remove) next back.of_remove

theorem Closes.exists_trail (h : a.Closes c) : ∃ path, a.Trail (some c) path := by
  generalize size : a.live = n
  induction n generalizing a c with
  | zero =>
      have := live_remove (h.live c .refl)
      omega
  | succ n ih =>
      have here := h.live c .refl
      obtain ⟨ch, found⟩ := Option.isSome_iff_exists.mp here
      cases next : ch.next with
      | none => exact ⟨[c], .step found (next ▸ .done)⟩
      | some d =>
          have linked : a.next? c = some d := (next?_eq found).trans next
          have fewer := live_remove here
          obtain ⟨path, trail⟩ := ih (h.rest linked) (by omega)
          exact ⟨c :: path, .step found (next ▸ trail.of_remove)⟩

def removeAll (a : Arena α) (path : List Nat) : Arena α := path.foldl remove a

theorem chunk?_removeAll (a : Arena α) (path : List Nat) (d : Nat) :
    (a.removeAll path).chunk? d = if d ∈ path then none else a.chunk? d := by
  induction path generalizing a with
  | nil => simp [removeAll]
  | cons c rest ih =>
      change ((a.remove c).removeAll rest).chunk? d = _
      rw [ih, chunk?_remove]
      by_cases same : c = d
      · simp [same]
      · simp [same, Ne.symm same]

theorem valuesOf_eq {ch : Chunk α} (h : a.chunk? c = some ch) : a.valuesOf c = ch.values := by
  rw [valuesOf, h]
  rfl

theorem flatMap_valuesOf_remove (apart : c ∉ path) :
    path.flatMap (a.remove c).valuesOf = path.flatMap a.valuesOf := by
  refine List.flatMap_congr fun d mem => ?_
  have other : c ≠ d := by
    rintro rfl
    exact apart mem
  rw [valuesOf, chunk?_remove, if_neg other, valuesOf]

theorem destructFrom_trail (h : a.Trail o path) {fuel : Nat} (enough : path.length ≤ fuel) :
    destructFrom fuel o a = .ok ⟨path.length, path.flatMap a.valuesOf⟩ (a.removeAll path) := by
  induction path generalizing a o fuel with
  | nil =>
      cases h
      cases fuel <;> rfl
  | cons c rest ih =>
      cases h with
      | @step _ ch _ found next =>
          have apart : c ∉ rest := Trail.head_not_mem (.step found next)
          obtain ⟨fuel, rfl⟩ := Nat.exists_eq_add_of_lt enough
          have onward := ih (next.remove apart) (Nat.le_add_right _ fuel)
          rw [destructFrom, Act.bind_ok (inspect_ok found _), Act.bind_ok (destruct_ok found),
            Act.bind_ok onward, flatMap_valuesOf_remove apart, List.flatMap_cons,
            valuesOf_eq found]
          rfl

theorem inspect_ran {β : Type} {f : Chunk α → β} {x : β} {b : Arena α}
    (ran : inspect c f a = .ok x b) : ∃ ch, a.chunk? c = some ch ∧ x = f ch ∧ b = a := by
  cases found : a.chunk? c with
  | none =>
      rw [inspect, Act.bind_view, found] at ran
      cases ran
  | some ch =>
      rw [inspect_ok found] at ran
      cases ran
      exact ⟨ch, rfl, rfl, rfl⟩

theorem trail_of_destructFrom {fuel : Nat} {freed : Freed α} {b : Arena α}
    (ran : destructFrom fuel o a = .ok freed b) : ∃ path, a.Trail o path := by
  induction fuel generalizing a b o freed with
  | zero =>
      cases o with
      | none => exact ⟨[], .done⟩
      | some c => cases ran
  | succ fuel ih =>
      cases o with
      | none => exact ⟨[], .done⟩
      | some c =>
          rw [destructFrom] at ran
          obtain ⟨next, _, seen, freeing⟩ := Act.of_bind_ok ran
          obtain ⟨ch, found, rfl, rfl⟩ := inspect_ran seen
          rw [Act.bind_ok (destruct_ok found)] at freeing
          obtain ⟨freed', _, onward, -⟩ := Act.of_bind_ok freeing
          obtain ⟨path, trail⟩ := ih onward
          exact ⟨c :: path, .step found trail.of_remove⟩

/-- Freeing a chain frees the chunks that its links lead to, or it is a misuse. -/
theorem destructChain_trail {path : List Nat} (h : a.Trail (some c) path) :
    destructChain c a = .ok ⟨path.length, path.flatMap a.valuesOf⟩ (a.removeAll path) :=
  destructFrom_trail h h.length_le

theorem closes_of_destructChain {freed : Freed α} {b : Arena α}
    (ran : destructChain c a = .ok freed b) : a.Closes c := by
  obtain ⟨path, trail⟩ := trail_of_destructFrom ran
  exact trail.closes

end Handoff.Arena
