import Handoff.Proofs.RegisterInvariant

/-! What one thread can rely on while others take their steps. A producer relies on
its own claims, on its mark, and on an even producer index that has not moved: then the
producers' chunk is still the one that was loaded with it. The consumer relies on what
is written and linked. -/
namespace Handoff.Register

variable {α : Type} {g g' : Register α} {p p' c i : Nat} {v : α}

/-- The step from `g` to `g'` is not one of producer `p`. -/
structure Spares (p : Nat) (g g' : Register α) : Prop where
  size : g'.size = g.size
  claims : g.claims <+: g'.claims
  index_le : g.index ≤ g'.index
  still : ∀ i, g.index = 2 * i → g'.index = 2 * i → g'.links = g.links
  links : ∃ new, g'.links = g.links ++ new ∧ ∀ r ∈ new, ∀ i v, g.claims[i]? = some (p, v) → i < r
  last_le : g.last ≤ g'.last
  consumed_le : g.consumed ≤ g'.consumed
  written : ∀ i v, g.claims[i]? = some (p, v) → g'.written i = g.written i
  ends : ∀ c r v, g.links[c]? = some r → g.claims[r]? = some (p, v) →
    g'.joined c = g.joined c ∧ g'.jumped c = g.jumped c
  held : ∀ m v, g.Held p m v → g'.marked = true ∧ g'.claims = g.claims ∧ g'.links = g.links

/-- The step from `g` to `g'` is not one of the consumer. -/
structure Feeds (g g' : Register α) : Prop where
  size : g'.size = g.size
  claims : g.claims <+: g'.claims
  links : ∃ new, g'.links = g.links ++ new ∧ ∀ r ∈ new, ∀ i, g.written i = true → i < r
  written : ∀ i, g.written i = true → g'.written i = true
  jumped : ∀ c, g.jumped c = true → g'.jumped c = true
  head : g'.head = g.head
  taken : g'.taken = g.taken
  consumed : g'.consumed = g.consumed

theorem own_later (claims : g.claims <+: g'.claims) {w : Nat × α}
    (own : g.claims[i]? = some w) : g'.claims[i]? = some w := by
  obtain ⟨more, eq⟩ := claims
  rw [← eq, List.getElem?_append_left (lt_length_of_own own), own]

theorem claims_claim (g : Register α) (p : Nat) (vs : List α) :
    g.claims <+: (g.claim p vs).claims := List.prefix_append _ _

theorem claims_mark (g : Register α) (p : Nat) (v : α) : g.claims <+: (g.mark p v).claims :=
  List.prefix_append _ _

theorem index_claim (unmarked : g.marked = false) (vs : List α) :
    (g.claim p vs).index = 2 * (g.claims.length + vs.length) := by
  rw [index_open (g := g.claim p vs) unmarked, claim, List.length_append, List.length_map]

theorem index_mark (g : Register α) (p : Nat) (v : α) :
    (g.mark p v).index = 2 * g.claims.length + 1 := by
  simp only [index, published, mark, List.length_append, List.length_singleton, Bool.toNat_true,
    Nat.add_sub_cancel]

theorem Held.index_settle {m : Nat} (h : g.Held p m v) : g.settle.index = 2 * (m + 1) := by
  rw [index_open rfl, settle, h.length]

theorem links_grow {m : Nat} (held : g.Held p m v) : g.grow.links = g.links ++ [m] := by
  rw [grow, held.published]

theorem owner_unique {v' : α} (own : g.claims[i]? = some (p, v))
    (own' : g.claims[i]? = some (p', v')) : p = p' := by
  have same := own.symm.trans own'
  simp only [Option.some.injEq, Prod.mk.injEq] at same
  exact same.1

theorem Hole.store {k : Nat} (hole : g.Hole p c k v) (apart : k ≠ i) :
    (g.store i).Hole p c k v where
  own := hole.own
  unwritten := by
    simp only [Register.store, apart, if_false]
    exact hole.unwritten
  within := hole.within

namespace Spares

theorem refl (p : Nat) (g : Register α) : Spares p g g where
  size := rfl
  claims := List.prefix_refl _
  index_le := Nat.le_refl _
  still _ _ _ := rfl
  links := ⟨[], (List.append_nil _).symm, fun _ h => absurd h List.not_mem_nil⟩
  last_le := Nat.le_refl _
  consumed_le := Nat.le_refl _
  written _ _ _ := rfl
  ends _ _ _ _ _ := ⟨rfl, rfl⟩
  held _ _ h := ⟨h.marked, rfl, rfl⟩

theorem claim (unmarked : g.marked = false) (vs : List α) : Spares p' g (g.claim p vs) :=
  { refl p' g with
    claims := claims_claim g p vs
    index_le := by
      rw [index_open unmarked, index_claim unmarked]
      omega
    still := fun _ _ _ => rfl
    held := fun _ _ h => absurd (unmarked.symm.trans h.marked) Bool.false_ne_true }

theorem mark (unmarked : g.marked = false) (v : α) : Spares p' g (g.mark p v) :=
  { refl p' g with
    claims := claims_mark g p v
    index_le := by
      rw [index_open unmarked, index_mark]
      omega
    still := fun _ _ _ => rfl
    held := fun _ _ h => absurd (unmarked.symm.trans h.marked) Bool.false_ne_true }

theorem store (apart : p ≠ p') (hole : g.Hole p c i v) : Spares p' g (g.store i) :=
  { refl p' g with
    written := fun k w own => by
      have other : k ≠ i := by
        rintro rfl
        exact apart (owner_unique hole.own own)
      simp only [Register.store, other, if_false] }

theorem grow (apart : p ≠ p') {m : Nat} (held : g.Held p m v)
    (ordered : (0 :: (g.links ++ [m])).Pairwise (· < ·)) : Spares p' g g.grow where
  size := rfl
  claims := List.prefix_refl _
  index_le := Nat.le_refl _
  still i even _ := by
    rw [held.index] at even
    omega
  links := by
    refine ⟨[m], links_grow held, fun r hr i w own => ?_⟩
    obtain rfl := List.mem_singleton.mp hr
    have lt := lt_length_of_own own
    have other : i ≠ r := by
      rintro rfl
      exact apart (owner_unique held.own own)
    rw [held.length] at lt
    omega
  last_le := by
    have later := Links.start_mono ordered (Nat.le_succ g.links.length) (by simp)
    rw [Links.start_append (Nat.le_refl _)] at later
    rw [last, last, links_grow held]
    simpa using later
  consumed_le := Nat.le_refl _
  written _ _ _ := rfl
  ends _ _ _ _ _ := ⟨rfl, rfl⟩
  held _ _ h := absurd (held.unique h) apart

theorem join (apart : p ≠ p') {r : Nat} (link : g.links[c]? = some r)
    (own : g.claims[r]? = some (p, v)) : Spares p' g (g.join c) :=
  { refl p' g with
    ends := fun d s w link' own' => by
      have other : d ≠ c := by
        rintro rfl
        obtain rfl := Option.some.inj (link.symm.trans link')
        exact apart (owner_unique own own')
      simp only [Register.join, other, if_false, and_self] }

theorem settle (apart : p ≠ p') {m : Nat} (held : g.Held p m v) : Spares p' g g.settle :=
  { refl p' g with
    index_le := by
      rw [held.index, held.index_settle]
      omega
    still := fun _ _ _ => rfl
    held := fun _ _ h => absurd (held.unique h) apart }

theorem jump (apart : p ≠ p') {r : Nat} (link : g.links[c]? = some r)
    (own : g.claims[r]? = some (p, v)) : Spares p' g (g.jump c) :=
  { refl p' g with
    ends := fun d s w link' own' => by
      have other : d ≠ c := by
        rintro rfl
        obtain rfl := Option.some.inj (link.symm.trans link')
        exact apart (owner_unique own own')
      simp only [Register.jump, other, if_false, and_self] }

theorem of_change (apart : p ≠ p') (change : Change p g g') : Spares p' g g' := by
  cases change with
  | stay => exact refl p' g
  | claim unmarked room => exact claim unmarked _
  | mark unmarked room => exact mark unmarked _
  | store hole => exact store apart hole
  | grow held unwritten ordered => exact grow apart held ordered
  | join link own written => exact join apart link own
  | settle held last => exact settle apart held
  | jump link own joined => exact jump apart link own

theorem of_progress (h : g.Valid) (progress : Progress g g') : Spares p g g' := by
  cases progress with
  | stay => exact refl p g
  | leave => exact { refl p g with }
  | take => exact { refl p g with }
  | pass => exact { refl p g with consumed_le := h.consumed_le }

theorem reach_le (h : Spares p g g') : g.reach ≤ g'.reach :=
  reach_mono h.size h.consumed_le h.last_le

theorem allows (h : Spares p g g') {limit : Nat} (allows : g.Allows limit) : g'.Allows limit :=
  have ⟨k, eq, le⟩ := allows
  ⟨k, eq, Nat.le_trans le h.reach_le⟩

theorem hole (h : Spares p g g') (hole : g.Hole p c i v) : g'.Hole p c i v where
  own := own_later h.claims hole.own
  unwritten := (h.written i v hole.own).trans hole.unwritten
  within := by
    obtain ⟨new, eq, later⟩ := h.links
    rw [eq]
    exact hole.within.append fun r hr => later r hr i v hole.own

theorem held_kept (h : Spares p g g') {m : Nat} (held : g.Held p m v) : g'.Held p m v := by
  obtain ⟨marked, claims, -⟩ := h.held m v held
  exact ⟨marked, claims ▸ held.length, claims ▸ held.own⟩

theorem link (h : Spares p g g') {r : Nat} (link : g.links[c]? = some r) :
    g'.links[c]? = some r := by
  obtain ⟨new, eq, -⟩ := h.links
  rw [eq, List.getElem?_append_left (List.getElem?_eq_some_iff.mp link).1, link]

end Spares

namespace Feeds

theorem refl (g : Register α) : Feeds g g where
  size := rfl
  claims := List.prefix_refl _
  links := ⟨[], (List.append_nil _).symm, fun _ h => absurd h List.not_mem_nil⟩
  written _ h := h
  jumped _ h := h
  head := rfl
  taken := rfl
  consumed := rfl

theorem of_change (h : g.Valid) (change : Change p g g') : Feeds g g' := by
  cases change with
  | stay => exact refl g
  | claim unmarked room => exact { refl g with claims := claims_claim g p _ }
  | mark unmarked room => exact { refl g with claims := claims_mark g p _ }
  | store hole => exact { refl g with written := fun k hk => Valid.written_store hk _ }
  | @grow m v held unwritten ordered =>
      refine { refl g with links := ⟨[m], links_grow held, fun r hr i hi => ?_⟩ }
      obtain rfl := List.mem_singleton.mp hr
      have lt := h.lt_length i hi
      have other : i ≠ r := by
        rintro rfl
        rw [unwritten] at hi
        cases hi
      rw [held.length] at lt
      omega
  | join link own written => exact { refl g with }
  | settle held last => exact { refl g with }
  | jump link own joined =>
      refine { refl g with jumped := fun d hd => ?_ }
      simp only [Register.jump, hd, ite_self]

theorem settled (h : Feeds g g') (written : g.written g.taken = true) (settled : g.Settled) :
    g'.Settled := by
  obtain ⟨new, eq, later⟩ := h.links
  intro r hr
  rw [eq, h.head] at hr
  rw [h.taken]
  by_cases lt : g.head < g.links.length
  · rw [List.getElem?_append_left lt] at hr
    exact settled r hr
  · rw [List.getElem?_append_right (Nat.le_of_not_lt lt)] at hr
    exact later r (List.mem_of_getElem? hr) _ written

end Feeds
end Handoff.Register
