import Mathlib.Data.Nat.Bitwise
import Mathlib.Data.Set.Basic
import Mathlib.Tactic.Ring

/-!
# Buddies

Blocks of numbers whose length is a power of two and whose start is a multiple of the length.  Two
such blocks are nested or apart.  The buddy of a block is the other half of the block of twice its
length.  A set of numbers is tiled by blocks of which no two are buddies in one way only.
-/

namespace EdfKernel.Library.Buddies

theorem shift_xor (m k : Nat) : (m * 2 ^ k) ^^^ 2 ^ k = (m ^^^ 1) * 2 ^ k := by
  have shifted := @Nat.shiftLeft_xor_distrib k m 1
  simpa [Nat.shiftLeft_eq] using shifted.symm

theorem shift_and (m n k : Nat) : (m * 2 ^ k) &&& (n * 2 ^ k) = (m &&& n) * 2 ^ k := by
  have shifted := @Nat.shiftLeft_and_distrib k m n
  simpa [Nat.shiftLeft_eq] using shifted.symm

theorem two_mul_and (m : Nat) : (2 * m) &&& (2 * m + 1) = 2 * m := by
  have half := @Nat.and_div_two (2 * m) (2 * m + 1)
  have low := @Nat.and_mod_two_pow (2 * m) (2 * m + 1) 1
  have even : 2 * m % 2 ^ 1 = 0 := by omega
  have halfEven : 2 * m / 2 = m := by omega
  have halfOdd : (2 * m + 1) / 2 = m := by omega
  rw [halfEven, halfOdd, Nat.and_self] at half
  rw [even, Nat.zero_and] at low
  omega

/-- The start of the other half, and the start of both halves together. -/
theorem xor_cases {i k : Nat} (aligned : 2 ^ k ∣ i) :
    (2 ^ (k + 1) ∣ i ∧ i ^^^ 2 ^ k = i + 2 ^ k ∧ i &&& (i ^^^ 2 ^ k) = i) ∨
      ∃ j, i = j + 2 ^ k ∧ 2 ^ (k + 1) ∣ j ∧ i ^^^ 2 ^ k = j ∧ i &&& (i ^^^ 2 ^ k) = j := by
  obtain ⟨m, rfl⟩ := aligned
  rw [Nat.mul_comm, shift_xor, shift_and]
  rcases Nat.even_or_odd' m with ⟨t, rfl | rfl⟩
  · left
    have other : 2 * t ^^^ 1 = 2 * t + 1 := by simp [Nat.xor_one_of_even]
    rw [other, two_mul_and]
    refine ⟨⟨t, by ring⟩, by ring, rfl⟩
  · right
    have other : (2 * t + 1) ^^^ 1 = 2 * t := by
      have even : 2 * t ^^^ 1 = 2 * t + 1 := by simp [Nat.xor_one_of_even]
      rw [← even, Nat.xor_assoc, Nat.xor_self, Nat.xor_zero]
    rw [other, Nat.and_comm, two_mul_and]
    exact ⟨2 * t * 2 ^ k, by ring, ⟨t, by ring⟩, rfl, rfl⟩

theorem xor_of_aligned {i k : Nat} (aligned : 2 ^ (k + 1) ∣ i) : i ^^^ 2 ^ k = i + 2 ^ k := by
  obtain ⟨m, rfl⟩ := aligned
  have even : 2 * m ^^^ 1 = 2 * m + 1 := by simp [Nat.xor_one_of_even]
  have start : 2 ^ (k + 1) * m = 2 * m * 2 ^ k := by ring
  rw [start, shift_xor, even]
  ring

/-- An upper half comes from its lower half. -/
theorem xor_of_upper {i k : Nat} (aligned : 2 ^ (k + 1) ∣ i) : (i + 2 ^ k) ^^^ 2 ^ k = i := by
  rw [← xor_of_aligned aligned, Nat.xor_assoc, Nat.xor_self, Nat.xor_zero]

/-- The bit of an aligned number tells whether it is aligned for the next order. -/
theorem and_two_pow_eq_zero_iff {i k : Nat} (aligned : 2 ^ k ∣ i) :
    i &&& 2 ^ k = 0 ↔ 2 ^ (k + 1) ∣ i := by
  obtain ⟨m, rfl⟩ := aligned
  have shifted := shift_and m 1 k
  rw [Nat.one_mul] at shifted
  have positive := Nat.two_pow_pos k
  rw [Nat.mul_comm, shifted, Nat.and_one_is_mod, Nat.pow_succ, Nat.mul_comm (2 ^ k) 2,
    Nat.mul_dvd_mul_iff_right positive, Nat.mul_eq_zero, Nat.dvd_iff_mod_eq_zero]
  omega

/-- The start of an upper half is followed by a start that is aligned for the next order. -/
theorem dvd_add_of_not_dvd {i k : Nat} (aligned : 2 ^ k ∣ i) (upper : ¬2 ^ (k + 1) ∣ i) :
    2 ^ (k + 1) ∣ i + 2 ^ k := by
  rcases xor_cases aligned with ⟨lower, _⟩ | ⟨j, rfl, alignedJ, _⟩
  · exact absurd lower upper
  · have double : j + 2 ^ k + 2 ^ k = j + 2 ^ (k + 1) := by ring
    rw [double]
    exact Nat.dvd_add alignedJ (Nat.dvd_refl _)

/-- Aligned blocks are nested or apart. -/
theorem nested_or_apart {i j k m : Nat} (alignedI : 2 ^ k ∣ i) (alignedJ : 2 ^ m ∣ j) (le : k ≤ m) :
    (j ≤ i ∧ i + 2 ^ k ≤ j + 2 ^ m) ∨ i + 2 ^ k ≤ j ∨ j + 2 ^ m ≤ i := by
  obtain ⟨a, rfl⟩ := alignedI
  obtain ⟨d, rfl⟩ := Nat.exists_eq_add_of_le le
  obtain ⟨b, rfl⟩ := alignedJ
  have start : 2 ^ (k + d) * b = 2 ^ k * (2 ^ d * b) := by ring
  have stop : 2 ^ k * (2 ^ d * b) + 2 ^ (k + d) = 2 ^ k * (2 ^ d * b + 2 ^ d) := by ring
  have next : 2 ^ k * a + 2 ^ k = 2 ^ k * (a + 1) := by ring
  rw [start, stop, next]
  rcases Nat.lt_or_ge a (2 ^ d * b) with before | from_start
  · exact .inr (.inl (Nat.mul_le_mul_left _ before))
  · rcases Nat.lt_or_ge a (2 ^ d * b + 2 ^ d) with inside | after
    · exact .inl ⟨Nat.mul_le_mul_left _ from_start, Nat.mul_le_mul_left _ inside⟩
    · exact .inr (.inr (Nat.mul_le_mul_left _ after))

/-- A tiling of a set of numbers by blocks up to an order; no two blocks below it are buddies. -/
structure Tiling (max : Nat) (points : Set Nat) (blocks : Set (Nat × Nat)) : Prop where
  order_le : ∀ b ∈ blocks, b.2 ≤ max
  aligned : ∀ b ∈ blocks, 2 ^ b.2 ∣ b.1
  apart : ∀ b ∈ blocks, ∀ c ∈ blocks, b ≠ c → b.1 + 2 ^ b.2 ≤ c.1 ∨ c.1 + 2 ^ c.2 ≤ b.1
  covers : ∀ n, n ∈ points ↔ ∃ b ∈ blocks, b.1 ≤ n ∧ n < b.1 + 2 ^ b.2
  lonely : ∀ b ∈ blocks, b.2 < max → (b.1 ^^^ 2 ^ b.2, b.2) ∉ blocks

namespace Tiling

variable {max : Nat} {points : Set Nat} {blocks blocks' : Set (Nat × Nat)}

/-- Blocks that share a number are one. -/
theorem eq_of_meet (tiling : Tiling max points blocks) {b c : Nat × Nat} {n : Nat}
    (memB : b ∈ blocks) (memC : c ∈ blocks) (inB : b.1 ≤ n ∧ n < b.1 + 2 ^ b.2)
    (inC : c.1 ≤ n ∧ n < c.1 + 2 ^ c.2) : b = c := by
  by_contra other
  rcases tiling.apart b memB c memC other with before | after <;> omega

theorem eq_of_inside {b : Nat × Nat} {i k : Nat} (le : b.2 ≤ k) (low : b.1 ≤ i)
    (high : i + 2 ^ k ≤ b.1 + 2 ^ b.2) : b = (i, k) := by
  have size := Nat.pow_le_pow_right (n := 2) (by omega) le
  have order : b.2 = k := Nat.pow_right_injective (Nat.le_refl 2) (by simp only; omega)
  exact Prod.ext (by omega) order

/-- An aligned block of numbers of the set lies in one block of the tiling. -/
theorem exists_block (tiling : Tiling max points blocks) {i k : Nat} (aligned : 2 ^ k ∣ i)
    (le : k ≤ max) (inside : ∀ n, i ≤ n → n < i + 2 ^ k → n ∈ points) :
    ∃ b ∈ blocks, b.1 ≤ i ∧ i + 2 ^ k ≤ b.1 + 2 ^ b.2 := by
  induction k generalizing i with
  | zero =>
      obtain ⟨b, mem, low, high⟩ := (tiling.covers i).mp (inside i (Nat.le_refl _) (by simp))
      exact ⟨b, mem, low, high⟩
  | succ k ih =>
      have double : 2 ^ (k + 1) = 2 ^ k + 2 ^ k := by ring
      have positive := Nat.two_pow_pos k
      have half : 2 ^ k ∣ i := (Nat.pow_dvd_pow 2 (Nat.le_succ k)).trans aligned
      obtain ⟨b, memB, lowB, highB⟩ := ih half (by omega) fun n low high => inside n low (by omega)
      obtain ⟨c, memC, lowC, highC⟩ := ih (i := i + 2 ^ k) (Nat.dvd_add half (Nat.dvd_refl _)) (by omega)
        fun n low high => inside n (by omega) (by omega)
      -- a block that reaches beyond one half contains both
      rcases Nat.lt_or_ge k b.2 with larger | notLarger
      · refine ⟨b, memB, ?_⟩
        rcases nested_or_apart aligned (tiling.aligned b memB) larger with nested | before | after
        · exact nested
        · omega
        · omega
      · rcases Nat.lt_or_ge k c.2 with larger | notLargerC
        · refine ⟨c, memC, ?_⟩
          rcases nested_or_apart aligned (tiling.aligned c memC) larger with nested | before | after
          · exact nested
          · omega
          · omega
        · -- both halves are blocks, and buddies
          have sameB : b = (i, k) := eq_of_inside notLarger lowB highB
          have sameC : c = (i + 2 ^ k, k) := eq_of_inside notLargerC lowC highC
          rw [sameB] at memB
          rw [sameC, ← xor_of_aligned aligned] at memC
          exact absurd memC (tiling.lonely _ memB (by omega))

/-- A block of one tiling is a block of the other. -/
theorem mem_of_mem (tiling : Tiling max points blocks) (tiling' : Tiling max points blocks')
    {b : Nat × Nat} (mem : b ∈ blocks) : b ∈ blocks' := by
  have positive := Nat.two_pow_pos b.2
  obtain ⟨b', mem', low, high⟩ := tiling'.exists_block (tiling.aligned b mem)
    (tiling.order_le b mem) fun n low high => (tiling.covers n).mpr ⟨b, mem, low, high⟩
  obtain ⟨c, memC, lowC, highC⟩ := tiling.exists_block (tiling'.aligned b' mem')
    (tiling'.order_le b' mem') fun n low high => (tiling'.covers n).mpr ⟨b', mem', low, high⟩
  have same : c = b := tiling.eq_of_meet (n := b.1) memC mem (by omega) (by omega)
  subst same
  have size : 2 ^ b'.2 = 2 ^ c.2 := by omega
  have order : b'.2 = c.2 := Nat.pow_right_injective (Nat.le_refl 2) size
  have start : b'.1 = c.1 := by omega
  have equal : b' = c := Prod.ext start order
  rw [← equal]
  exact mem'

/-- A set is tiled in one way. -/
theorem unique (tiling : Tiling max points blocks) (tiling' : Tiling max points blocks') :
    blocks = blocks' :=
  Set.ext fun _ => ⟨tiling.mem_of_mem tiling', tiling'.mem_of_mem tiling⟩

end Tiling

end EdfKernel.Library.Buddies
