import Mathlib.Data.List.Basic

/-! Where the chunks of a chain begin. `links` are the indices at which chunks were
linked, in order, so chunk `c + 1` begins at link `c` and the first chunk at zero. An
index has its place in the last chunk that begins at it or before. -/
namespace Handoff.Links

def start (links : List Nat) : Nat → Nat
  | 0 => 0
  | c + 1 => links.getD c 0

/-- Index `i` has its place in chunk `c`. -/
structure Within (links : List Nat) (c i : Nat) : Prop where
  chunk : c ≤ links.length
  start_le : start links c ≤ i
  lt_next : ∀ r, links[c]? = some r → i < r

variable {links new : List Nat} {c c' i r : Nat}

theorem start_append (hc : c ≤ links.length) : start (links ++ new) c = start links c := by
  cases c with
  | zero => rfl
  | succ c => simp only [start, List.getD_eq_getElem?_getD, List.getElem?_append_left hc]

theorem start_succ (h : links[c]? = some r) : start links (c + 1) = r := by
  rw [start, List.getD_eq_getElem?_getD, h, Option.getD_some]

theorem start_concat (links : List Nat) (r : Nat) :
    start (links ++ [r]) (links.length + 1) = r :=
  start_succ List.getElem?_concat_length

theorem start_eq (hc : c ≤ links.length) : (0 :: links)[c]? = some (start links c) := by
  cases c with
  | zero => rfl
  | succ c =>
      have hlt : c < links.length := hc
      rw [List.getElem?_cons_succ, start, List.getD_eq_getElem?_getD,
        List.getElem?_eq_getElem hlt, Option.getD_some]

theorem start_mem (pos : 0 < c) (hc : c ≤ links.length) : start links c ∈ links := by
  obtain ⟨c, rfl⟩ := Nat.exists_eq_succ_of_ne_zero (Nat.ne_of_gt pos)
  rw [start_succ (List.getElem?_eq_getElem hc)]
  exact List.getElem_mem hc

theorem start_lt (ordered : (0 :: links).Pairwise (· < ·)) (lt : c < c')
    (hc' : c' ≤ links.length) : start links c < start links c' := by
  have hc : c ≤ links.length := by omega
  obtain ⟨lt₁, eq₁⟩ := List.getElem?_eq_some_iff.mp (start_eq hc)
  obtain ⟨lt₂, eq₂⟩ := List.getElem?_eq_some_iff.mp (start_eq hc')
  rw [← eq₁, ← eq₂]
  exact List.pairwise_iff_getElem.mp ordered c c' lt₁ lt₂ lt

theorem start_mono (ordered : (0 :: links).Pairwise (· < ·)) (le : c ≤ c')
    (hc' : c' ≤ links.length) : start links c ≤ start links c' := by
  rcases Nat.lt_or_eq_of_le le with lt | rfl
  · exact Nat.le_of_lt (start_lt ordered lt hc')
  · exact Nat.le_refl _

theorem Within.unique (ordered : (0 :: links).Pairwise (· < ·)) (h : Within links c i)
    (h' : Within links c' i) : c = c' := by
  -- The chunk after either one starts past `i`.
  have before : ∀ {c c' : Nat}, Within links c i → Within links c' i → c' ≤ c := by
    intro c c' h h'
    apply Nat.le_of_not_lt
    intro lt
    have hc : c < links.length := Nat.lt_of_lt_of_le lt h'.chunk
    have hr : links[c]? = some links[c] := List.getElem?_eq_getElem hc
    have past := h.lt_next _ hr
    have later := start_mono ordered (Nat.succ_le_of_lt lt) h'.chunk
    rw [start_succ hr] at later
    have := h'.start_le
    omega
  exact Nat.le_antisymm (before h' h) (before h h')

theorem Within.append (h : Within links c i) (later : ∀ r ∈ new, i < r) :
    Within (links ++ new) c i where
  chunk := by
    rw [List.length_append]
    exact Nat.le_add_right_of_le h.chunk
  start_le := by
    rw [start_append h.chunk]
    exact h.start_le
  lt_next := by
    intro r hr
    rcases Nat.lt_or_eq_of_le h.chunk with lt | rfl
    · rw [List.getElem?_append_left lt] at hr
      exact h.lt_next r hr
    · rw [List.getElem?_append_right (Nat.le_refl _)] at hr
      exact later r (List.mem_of_getElem? hr)

theorem lt_next_last (i : Nat) : ∀ r, links[links.length]? = some r → i < r := by
  intro r hr
  rw [List.getElem?_eq_none (Nat.le_refl _)] at hr
  cases hr

theorem Within.last (h : start links links.length ≤ i) : Within links links.length i :=
  ⟨Nat.le_refl _, h, lt_next_last i⟩

end Handoff.Links
