import Mathlib.Data.List.Nodup
import Mathlib.Data.List.Perm.Subperm
import Handoff.Proofs.Auditing
import Handoff.Proofs.ChainLayout

/-! What is dropped when a chain is closed. Its chunks are freed from the consumer's on,
each once, and the values of each come out in the order of its slots, which is a rotation
of the order of their indices. -/
namespace Handoff

variable {α : Type}

namespace Index

/-- The index with this slot in the window of `n` indices from `lo` on. -/
def inWindow (lo n slot : Nat) : Nat := lo + (slot + n - lo % n) % n

/-- The indices of a window in the order of their slots. -/
def slotOrder (lo n : Nat) : List Nat := (List.range n).map (inWindow lo n)

variable {lo n slot i : Nat}

theorem inWindow_lt (hs : slot < n) : inWindow lo n slot < lo + n :=
  Nat.add_lt_add_left (Nat.mod_lt _ (Nat.zero_lt_of_lt hs)) lo

theorem inWindow_mod (hs : slot < n) : inWindow lo n slot % n = slot := by
  have hlo := Nat.mod_lt lo (Nat.zero_lt_of_lt hs)
  have turn : lo % n + (slot + n - lo % n) = slot + n := by omega
  rw [inWindow, Nat.add_mod_mod, ← Nat.mod_add_mod, turn, Nat.add_mod_right, Nat.mod_eq_of_lt hs]

theorem mem_slotOrder : i ∈ slotOrder lo n ↔ lo ≤ i ∧ i < lo + n := by
  constructor
  · intro mem
    obtain ⟨slot, hs, rfl⟩ := List.mem_map.mp mem
    exact ⟨Nat.le_add_right _ _, inWindow_lt (List.mem_range.mp hs)⟩
  · rintro ⟨le, lt⟩
    have hs : i % n < n := Nat.mod_lt i (by omega)
    refine List.mem_map.mpr ⟨i % n, List.mem_range.mpr hs, ?_⟩
    exact mod_injective (Nat.le_add_right _ _) (inWindow_lt hs) le lt (inWindow_mod hs)

theorem pairwise_slotOrder (lo n : Nat) : (slotOrder lo n).Pairwise fun i j => i % n < j % n := by
  refine List.pairwise_map.mpr ((List.pairwise_lt_range).imp_of_mem ?_)
  intro s s' hs hs' lt
  rwa [inWindow_mod (List.mem_range.mp hs), inWindow_mod (List.mem_range.mp hs')]

end Index

theorem Chunk.Shows.values_eq {ch : Chunk α} {n lo : Nat} {content : Nat → Slot α}
    (h : ch.Shows n lo content) :
    ch.values = (Index.slotOrder lo n).filterMap fun i => (content i).value? := by
  have slots : ch.slots.toList = (Index.slotOrder lo n).map content := by
    have size : ch.slots.size = n := h.size
    apply List.ext_getElem
    · simp [Index.slotOrder, size]
    · intro s hs hs'
      have lt : s < n := by simpa [size] using hs
      have shown := h.slot (Index.inWindow lo n s) (Nat.le_add_right _ _) (Index.inWindow_lt lt)
      rw [Index.inWindow_mod lt] at shown
      simpa [Index.slotOrder] using (Array.getElem?_eq_some_iff.mp shown).2
  rw [values, slots, List.filterMap_map]
  rfl

theorem map_some_filterMap {ι : Type} (f : ι → Option α) (l : List ι) :
    (l.filterMap f).map some = (l.filter fun i => (f i).isSome).map f := by
  induction l with
  | nil => rfl
  | cons i l ih =>
      cases hi : f i with
      | none => simp [hi, ih]
      | some v => simp [hi, ih]

namespace Arena

def valuesOf (a : Arena α) (c : Nat) : List α := ((a.chunk? c).map Chunk.values).getD []

theorem destructFrom_ok {last : Nat} (fuel : Nat) : ∀ (c : Nat) (a : Arena α), c ≤ last →
    last < c + fuel →
    (∀ d, c ≤ d → d ≤ last → ∃ ch, a.chunk? d = some ch ∧
      ch.next = if d < last then some (d + 1) else none) →
    ∃ a', destructFrom fuel (some c) a =
        .ok ⟨last + 1 - c, (List.range' c (last + 1 - c)).flatMap a.valuesOf⟩ a' ∧
      ∀ d, a'.chunk? d = if c ≤ d ∧ d ≤ last then none else a.chunk? d := by
  induction fuel with
  | zero => intro c a le lt _; omega
  | succ fuel ih =>
      intro c a le lt row
      obtain ⟨ch, found, next⟩ := row c (Nat.le_refl c) le
      have freed : destruct c a = .ok ch.values (a.remove c) := destruct_ok found
      have here : a.valuesOf c = ch.values := by
        rw [valuesOf, found]
        rfl
      rw [destructFrom, Act.bind_ok (inspect_ok found _), Act.bind_ok freed, next]
      rcases Nat.lt_or_eq_of_le le with more | rfl
      · have rest : ∀ d, c + 1 ≤ d → (a.remove c).chunk? d = a.chunk? d := by
          intro d hd
          rw [chunk?_remove, if_neg (by omega)]
        obtain ⟨a', ran, after⟩ := ih (c + 1) (a.remove c) more (by omega) (by
          intro d lo hi
          rw [rest d lo]
          exact row d (Nat.le_of_succ_le lo) hi)
        have count : last + 1 - c = last + 1 - (c + 1) + 1 := by omega
        have values : (List.range' (c + 1) (last + 1 - (c + 1))).flatMap (a.remove c).valuesOf =
            (List.range' (c + 1) (last + 1 - (c + 1))).flatMap a.valuesOf := by
          apply List.flatMap_congr
          intro d hd
          rw [valuesOf, rest d (List.mem_range'_1.mp hd).1, valuesOf]
        refine ⟨a', ?_, fun d => ?_⟩
        · rw [if_pos more, Act.bind_ok ran, values, count, List.range'_succ, List.flatMap_cons,
            here]
          rfl
        · rw [after, chunk?_remove]
          by_cases same : c = d
          · subst same
            simp [le]
          · have shift : c + 1 ≤ d ∧ d ≤ last ↔ c ≤ d ∧ d ≤ last := by omega
            simp only [same, if_false, shift]
      · refine ⟨a.remove c, ?_, fun d => ?_⟩
        · rw [if_neg (Nat.lt_irrefl c), Nat.add_sub_cancel_left, List.range'_one, List.flatMap_cons,
            here]
          cases fuel <;> rfl
        · rw [chunk?_remove]
          have only : c ≤ d ∧ d ≤ c ↔ c = d := by omega
          simp only [only]

end Arena

/-- What is found at all places where there is something, in any order. -/
theorem perm_of_places {f : Nat → Option α} {places : List Nat} {values : List α} {lo n : Nat}
    (found : values.map some = places.map f) (nodup : places.Nodup)
    (mem : ∀ i, i ∈ places ↔ (lo ≤ i ∧ i < lo + n) ∧ (f i).isSome = true) :
    values.Perm ((List.range' lo n).filterMap f) := by
  have same : places.Perm ((List.range' lo n).filter fun i => (f i).isSome) := by
    apply (List.perm_ext_iff_of_nodup nodup (List.Nodup.filter _ List.nodup_range')).mpr
    intro i
    rw [mem, List.mem_filter, List.mem_range'_1]
  have perm : (values.map some).Perm (((List.range' lo n).filterMap f).map some) := by
    rw [found, map_some_filterMap]
    exact same.map f
  simpa [List.filterMap_map] using perm.filterMap id

namespace Chain

/-- How many chunks behind the consumer's the place of index `i` is. -/
def depth (links : List Nat) (i : Nat) : Nat := links.countP (· ≤ i)

/-- In which order the values of two indices are dropped: chunk by chunk, and slot by
slot within a chunk. -/
def Before (links : List Nat) (n i j : Nat) : Prop :=
  depth links i < depth links j ∨ depth links i = depth links j ∧ i % n < j % n

theorem Home.depth_eq {links : List Nat} (sorted : links.Pairwise (· < ·)) {k i : Nat}
    (le : k ≤ links.length) (home : Home links k i) : depth links i = k := by
  have begun : (links.take k).countP (· ≤ i) = (links.take k).length := by
    refine List.countP_eq_length.mpr fun r hr => decide_eq_true ?_
    obtain ⟨j, hj, rfl⟩ := List.mem_iff_getElem.mp hr
    rw [List.length_take] at hj
    rw [List.getElem_take]
    exact home.begun j _ (by omega) (List.getElem?_eq_getElem _)
  have ahead : (links.drop k).countP (· ≤ i) = 0 := by
    apply List.countP_eq_zero.mpr
    intro r hr
    obtain ⟨j, hj⟩ := List.mem_iff_getElem?.mp hr
    rw [List.getElem?_drop] at hj
    obtain ⟨lt, -⟩ := List.getElem?_eq_some_iff.mp hj
    have hk : links[k]? = some links[k] := List.getElem?_eq_getElem (by omega)
    have past := home.below _ hk
    rw [decide_eq_true_eq, Nat.not_le]
    rcases Nat.eq_zero_or_pos j with rfl | pos
    · rw [Nat.add_zero, hk] at hj
      cases hj
      exact past
    · exact Nat.lt_trans past (lt_of_getElem? sorted hk hj (by omega))
  rw [depth, ← List.take_append_drop k links, List.countP_append, begun, ahead, List.length_take]
  omega

namespace Models

variable {q : Chain α} {t : Tape α}

def chunkOrder (t : Tape α) (c : Nat) : List Nat :=
  (Index.slotOrder (t.base c) t.size.chunkSize).filter fun i => (t.content c i).value?.isSome

/-- All written indices that are not consumed, in the order in which they are dropped. -/
def dropOrder (q : Chain α) (t : Tape α) : List Nat := (liveChunks q t).flatMap (chunkOrder t)

theorem next_of_value {c i : Nat} (value : (t.content c i).value?.isSome = true) :
    ∀ r, t.links[c]? = some r → i < r := by
  intro r hr
  unfold Tape.content at value
  rw [hr] at value
  by_cases below : i < r
  · exact below
  · by_cases same : i = r
    · simp [same, Slot.value?] at value
    · simp [below, same, Slot.value?] at value

theorem value_of_next {c i : Nat} (next : ∀ r, t.links[c]? = some r → i < r) :
    (t.content c i).value? = t.written i := by
  rw [Tape.content_of_home next]
  cases t.written i <;> rfl

theorem mem_chunkOrder (h : q.Models t) {k i : Nat} (hc : q.head.chunk + k ≤ t.links.length) :
    i ∈ chunkOrder t (q.head.chunk + k) ↔ t.consumed ≤ i ∧ (t.written i).isSome = true ∧
      Home (t.links.drop q.head.chunk) k i := by
  rw [chunkOrder, List.mem_filter, Index.mem_slotOrder]
  constructor
  · rintro ⟨⟨lo, -⟩, value⟩
    have next := next_of_value value
    rw [value_of_next next] at value
    refine ⟨Nat.le_trans (Nat.le_max_left _ _) lo, value, h.begun_of_base hc lo, fun r hr => ?_⟩
    rw [List.getElem?_drop] at hr
    exact next r hr
  · rintro ⟨lo, written, home⟩
    have next := home_next home
    obtain ⟨v, hv⟩ := Option.isSome_iff_exists.mp written
    have claimed := h.valid.lt_claimed_of_written hv
    refine ⟨⟨h.base_le_of_home hc home lo, h.valid.lt_window hc claimed next⟩, ?_⟩
    rwa [value_of_next next]

theorem mem_dropOrder (h : q.Models t) (i : Nat) :
    i ∈ dropOrder q t ↔ t.consumed ≤ i ∧ (t.written i).isSome = true := by
  rw [dropOrder, List.mem_flatMap]
  constructor
  · rintro ⟨c, hc, mem⟩
    obtain ⟨lo, hi⟩ := h.mem_live.mp hc
    obtain ⟨k, rfl⟩ := Nat.exists_eq_add_of_le lo
    obtain ⟨consumed, written, -⟩ := (h.mem_chunkOrder hi).mp mem
    exact ⟨consumed, written⟩
  · rintro ⟨consumed, written⟩
    obtain ⟨k, le, home⟩ := Home.exists_of (t.links.drop q.head.chunk) i
    have hhead := h.head_le
    rw [List.length_drop] at le
    have hc : q.head.chunk + k ≤ t.links.length := by omega
    exact ⟨q.head.chunk + k, h.mem_live.mpr ⟨Nat.le_add_right _ _, hc⟩,
      (h.mem_chunkOrder hc).mpr ⟨consumed, written, home⟩⟩

theorem depth_of_mem (h : q.Models t) {k i : Nat} (hc : q.head.chunk + k ≤ t.links.length)
    (mem : i ∈ chunkOrder t (q.head.chunk + k)) : depth (t.links.drop q.head.chunk) i = k := by
  obtain ⟨-, -, home⟩ := (h.mem_chunkOrder hc).mp mem
  have sorted : (t.links.drop q.head.chunk).Pairwise (· < ·) :=
    (List.pairwise_cons.mp h.valid.ordered).2.sublist (List.drop_sublist _ _)
  refine home.depth_eq sorted ?_
  rw [List.length_drop]
  omega

theorem pairwise_dropOrder (h : q.Models t) :
    (dropOrder q t).Pairwise (Before (t.links.drop q.head.chunk) t.size.chunkSize) := by
  refine List.pairwise_flatMap.mpr ⟨fun c hc => ?_, ?_⟩
  · obtain ⟨lo, hi⟩ := h.mem_live.mp hc
    obtain ⟨k, rfl⟩ := Nat.exists_eq_add_of_le lo
    refine ((Index.pairwise_slotOrder _ _).filter _).imp_of_mem fun hi' hj' lt => ?_
    exact .inr ⟨(h.depth_of_mem hi hi').trans (h.depth_of_mem hi hj').symm, lt⟩
  · refine (List.pairwise_lt_range').imp_of_mem fun hc hd lt i hi' j hj' => ?_
    obtain ⟨lo, hi⟩ := h.mem_live.mp hc
    obtain ⟨lo', hi''⟩ := h.mem_live.mp hd
    obtain ⟨k, rfl⟩ := Nat.exists_eq_add_of_le lo
    obtain ⟨l, rfl⟩ := Nat.exists_eq_add_of_le lo'
    refine .inl ?_
    rw [h.depth_of_mem hi hi', h.depth_of_mem hi'' hj']
    omega

theorem nodup_dropOrder (h : q.Models t) : (dropOrder q t).Nodup := by
  refine h.pairwise_dropOrder.imp fun before => ?_
  rintro rfl
  rcases before with lt | ⟨-, lt⟩
  · exact Nat.lt_irrefl _ lt
  · exact Nat.lt_irrefl _ lt

theorem values_of_live (h : q.Models t) {c : Nat} (hc : c ∈ liveChunks q t) :
    (q.store.valuesOf c).map some = (chunkOrder t c).map t.written := by
  obtain ⟨lo, hi⟩ := h.mem_live.mp hc
  obtain ⟨ch, live⟩ := h.live c lo hi
  have values : q.store.valuesOf c = ch.values := by
    rw [Arena.valuesOf, live.found]
    rfl
  rw [values, live.shown.values_eq, map_some_filterMap]
  apply List.map_congr_left
  intro i mem
  exact value_of_next (next_of_value (List.mem_filter.mp mem).2)

theorem close_ok (h : q.Models t) :
    ∃ q', close q = .ok () q' ∧
      q'.discarded.toList.map some = (dropOrder q t).map t.written ∧
      ∀ c, q'.store.chunk? c = none := by
  have fuel : t.links.length < q.head.chunk + q.store.chunks.size := by
    rw [h.created]
    omega
  obtain ⟨store, freed, after⟩ := Arena.destructFrom_ok q.store.chunks.size q.head.chunk q.store
    h.head_le fuel (by
      intro c lo hi
      obtain ⟨ch, live⟩ := h.live c lo hi
      exact ⟨ch, live.found, live.next⟩)
  have onChunks : Arena.destructChain q.head.chunk q.store = .ok _ store := freed
  refine ⟨_, Act.bind_ok (onStore_ok onChunks) _, ?_, fun c => ?_⟩
  · have dropped : ((liveChunks q t).flatMap q.store.valuesOf).map some =
        (dropOrder q t).map t.written := by
      rw [dropOrder, List.map_flatMap, List.map_flatMap]
      exact List.flatMap_congr fun c hc => h.values_of_live hc
    simpa [h.discarded, liveChunks] using dropped
  · have gone := after c
    by_cases live : q.head.chunk ≤ c ∧ c ≤ t.links.length
    · rwa [if_pos live] at gone
    · rw [if_neg live] at gone
      refine gone.trans (Option.not_isSome_iff_eq_none.mp ?_)
      rwa [h.isSome_chunk_iff]

theorem perm_left (h : q.Models t) {dropped : List α}
    (found : dropped.map some = (dropOrder q t).map t.written) : dropped.Perm t.left := by
  apply perm_of_places found h.nodup_dropOrder
  intro i
  rw [h.mem_dropOrder, Nat.add_sub_cancel' h.valid.consumed_le]
  constructor
  · rintro ⟨lo, written⟩
    obtain ⟨v, hv⟩ := Option.isSome_iff_exists.mp written
    exact ⟨⟨lo, h.valid.lt_claimed_of_written hv⟩, written⟩
  · rintro ⟨⟨lo, -⟩, written⟩
    exact ⟨lo, written⟩

theorem live_le (h : q.Models t) : (liveChunks q t).length ≤ q.length + 1 := by
  have sorted : (t.links.drop q.head.chunk).Pairwise (· < ·) :=
    (List.pairwise_cons.mp h.valid.ordered).2.sublist (List.drop_sublist _ _)
  have nodup : (t.links.drop q.head.chunk).Nodup := sorted.imp Nat.ne_of_lt
  have pending : t.links.drop q.head.chunk ⊆ List.range' t.consumed (t.claimed - t.consumed) := by
    intro r mem
    obtain ⟨j, hj⟩ := List.mem_iff_getElem?.mp mem
    rw [List.getElem?_drop] at hj
    have lo := h.base_le_link (Nat.le_add_right _ _) hj
    have hi := (h.valid.linked r (List.mem_of_getElem? hj)).1
    rw [List.mem_range'_1, Nat.add_sub_cancel' h.valid.consumed_le]
    exact ⟨Nat.le_trans (Nat.le_max_left _ _) lo, hi⟩
  have count := (List.subperm_of_subset nodup pending).length_le
  rw [List.length_drop, List.length_range'] at count
  rw [liveChunks, List.length_range', h.length_eq]
  omega

end Models
end Chain
end Handoff
