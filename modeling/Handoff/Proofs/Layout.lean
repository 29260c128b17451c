import Mathlib.Algebra.Ring.Nat
import Handoff.Block
import Handoff.Proofs.Word

/-! Whether there can be a block of so many elements. The size is worked out on words, and a
product or a sum that went round the word would look like a small size; as each is checked,
the three ways to refuse come to one comparison of unbounded numbers. -/
namespace Handoff

namespace Layout

/-- The sizes of a type: the alignment is a power of two, the block without elements takes a
whole number of alignments, and there can be one. -/
structure Sound (l : Layout) : Prop where
  pow : l.align.toNat.isPowerOfTwo
  aligned : l.align.toNat ∣ l.baseSize.toNat
  base_le : l.baseSize.toNat ≤ 2 ^ 63 - l.align.toNat

def bytes (l : Layout) (count : Nat) : Nat := l.elementSize.toNat * count + l.baseSize.toNat

variable {l : Layout} {count total : UInt64}

theorem bytes_mono (l : Layout) {m n : Nat} (le : m ≤ n) : l.bytes m ≤ l.bytes n :=
  Nat.add_le_add_right (Nat.mul_le_mul_left _ le) _

theorem Sound.align_le (sound : l.Sound) : l.align.toNat ≤ 2 ^ 63 := by
  obtain ⟨k, exponent⟩ := sound.pow
  have word := l.align.toNat_lt
  rw [exponent] at word ⊢
  have below : k < 64 := (Nat.pow_lt_pow_iff_right (by decide)).mp word
  exact Nat.pow_le_pow_right (by decide) (Nat.le_of_lt_succ below)

theorem Sound.toNat_maxSize (sound : l.Sound) : l.maxSize.toNat = 2 ^ 63 - l.align.toNat :=
  UInt64.toNat_sub_of_le half l.align (UInt64.le_iff_toNat_le.mpr sound.align_le)

theorem size?_eq_some_iff :
    l.size? count = some total ↔
      total.toNat = l.bytes count.toNat ∧ total.toNat ≤ l.maxSize.toNat := by
  constructor
  · intro had
    obtain ⟨elements, product, had⟩ := Option.bind_eq_some_iff.mp had
    obtain ⟨sum, added, had⟩ := Option.bind_eq_some_iff.mp had
    obtain ⟨within, had⟩ := Option.ite_none_right_eq_some.mp had
    obtain rfl := Option.some_inj.mp had
    rw [Word.mul?_eq_some_iff] at product
    rw [Word.add?_eq_some_iff, product] at added
    exact ⟨added, UInt64.le_iff_toNat_le.mp within⟩
  · rintro ⟨exact_size, within⟩
    have product_le : l.elementSize.toNat * count.toNat ≤ Word.largest :=
      Nat.le_trans (Nat.le_add_right _ _) (exact_size ▸ Word.toNat_le_largest total)
    obtain ⟨elements, product⟩ := Word.exists_word product_le
    have added : total.toNat = elements.toNat + l.baseSize.toNat := by
      rw [product, exact_size, bytes]
    rw [size?, Word.mul?_eq_some_iff.mpr product, Option.bind_eq_bind, Option.bind_some,
      Word.add?_eq_some_iff.mpr added, Option.bind_some,
      if_pos (UInt64.le_iff_toNat_le.mpr within)]

theorem Sound.size?_ne_none_iff (sound : l.Sound) :
    l.size? count ≠ none ↔ l.bytes count.toNat ≤ 2 ^ 63 - l.align.toNat := by
  rw [← sound.toNat_maxSize, Option.ne_none_iff_exists']
  constructor
  · rintro ⟨total, had⟩
    obtain ⟨exact_size, within⟩ := size?_eq_some_iff.mp had
    exact exact_size ▸ within
  · intro within
    obtain ⟨total, exact_size⟩ :=
      Word.exists_word (Nat.le_trans within (Word.toNat_le_largest l.maxSize))
    have total_le := Nat.le_trans (Nat.le_of_eq exact_size) within
    exact ⟨total, size?_eq_some_iff.mpr ⟨exact_size, total_le⟩⟩

theorem Sound.size?_eq_none_iff (sound : l.Sound) :
    l.size? count = none ↔ 2 ^ 63 - l.align.toNat < l.bytes count.toNat := by
  rw [← Nat.not_le, ← sound.size?_ne_none_iff, ne_eq, Classical.not_not]

theorem Sound.size?_unit (sound : l.Sound) (unit : l.elementSize = 0) (count : UInt64) :
    l.size? count ≠ none := by
  rw [sound.size?_ne_none_iff, bytes, unit]
  have base_le := sound.base_le
  simpa using base_le

theorem Sound.size?_mono (sound : l.Sound) {fewer : UInt64} (le : fewer ≤ count)
    (had : l.size? count ≠ none) : l.size? fewer ≠ none := by
  rw [sound.size?_ne_none_iff] at had ⊢
  exact Nat.le_trans (l.bytes_mono (UInt64.le_iff_toNat_le.mp le)) had

end Layout

theorem ElementKind.layout_sound (kind : ElementKind) : kind.layout.Sound := by
  cases kind with
  | wide => exact ⟨⟨6, rfl⟩, by decide, by decide⟩
  | byte | half | word | unit | item => exact ⟨⟨3, rfl⟩, by decide, by decide⟩

namespace Block

variable {η α : Type} {layout : Layout} {count : UInt64}

theorem ofFn_of_none (refused : layout.size? count = none) (header : η) (init : Nat → α) :
    ofFn layout header count init = .error ⟨count⟩ := by
  rw [ofFn, refused]

theorem ofFn_of_some (had : layout.size? count ≠ none) (header : η) (init : Nat → α) :
    ofFn layout header count init = .ok ⟨header, (Array.range count.toNat).map init⟩ := by
  obtain ⟨total, sized⟩ := Option.ne_none_iff_exists'.mp had
  rw [ofFn, sized]

end Block

/-- A block is refused exactly if what it takes, in unbounded numbers, is more than the
largest size of its alignment. So the size that is worked out is never one that went round
the word, elements that take nothing are never too many, and fewer elements are never
refused where more are not. -/
theorem sizes_are_exact {l : Layout} (sound : l.Sound) :
    (∀ count, l.size? count = none ↔
      2 ^ 63 - l.align.toNat < l.elementSize.toNat * count.toNat + l.baseSize.toNat) ∧
    (∀ count total, l.size? count = some total →
      total.toNat = l.elementSize.toNat * count.toNat + l.baseSize.toNat) ∧
    (l.elementSize = 0 → ∀ count, l.size? count ≠ none) ∧
    (∀ fewer count, fewer ≤ count → l.size? count ≠ none → l.size? fewer ≠ none) ∧
    ∀ (η α : Type) (header : η) (count : UInt64) (init : Nat → α),
      Block.ofFn l header count init =
        if 2 ^ 63 - l.align.toNat < l.elementSize.toNat * count.toNat + l.baseSize.toNat
        then .error ⟨count⟩ else .ok ⟨header, (Array.range count.toNat).map init⟩ := by
  refine ⟨?_, ?_, ?_, ?_, ?_⟩
  · intro count
    exact sound.size?_eq_none_iff
  · intro count total had
    exact (Layout.size?_eq_some_iff.mp had).1
  · exact sound.size?_unit
  · intro fewer count le had
    exact sound.size?_mono le had
  · intro η α header count init
    by_cases refused : l.size? count = none
    · have large := sound.size?_eq_none_iff.mp refused
      exact (Block.ofFn_of_none refused header init).trans (if_pos large).symm
    · have small := mt sound.size?_eq_none_iff.mpr refused
      exact (Block.ofFn_of_some refused header init).trans (if_neg small).symm

/-- Words: the most that fit, one more, and so many that their sizes go round to nothing. -/
theorem sizes_are_exact_at_bound :
    ElementKind.word.layout.Sound ∧
      ElementKind.word.layout.size? 1152921504606846973 ≠ none ∧
      ElementKind.word.layout.size? 1152921504606846974 = none ∧
      (8 : UInt64) * 2305843009213693952 = 0 ∧
      ElementKind.word.layout.size? 2305843009213693952 = none := by
  have sound := ElementKind.layout_sound .word
  obtain ⟨refused, -⟩ := sizes_are_exact sound
  refine ⟨sound, ?_, ?_, rfl, ?_⟩
  · exact mt (refused 1152921504606846973).mp (by decide)
  · exact (refused 1152921504606846974).mpr (by decide)
  · exact (refused 2305843009213693952).mpr (by decide)

end Handoff
