import Mathlib.Algebra.Group.Nat.Defs
import Mathlib.Order.Bounds.Basic
import Dynarec.Code.Buffer

/-!
# The size of a code buffer

A word splits into the bits of a mask and the others (`CodeBuffer.and_add_and_not`), so clearing
the bits below a page rounds down to whole pages. From one less than a page above a size this gives
the least number of whole pages that holds it (`CodeBuffer.isLeast_rounded`). The sum is refused
where it would leave the 64 bits, so that no buffer is smaller than was asked for
(`CodeBuffer.allocates_whole_pages`).
-/

namespace Dynarec

namespace CodeBuffer

variable {size n : Nat}

/-! ## Rounding -/

/-- The bits inside a mask and those outside it make up the word. -/
theorem and_add_and_not {w : Nat} (x mask : BitVec w) :
    (x &&& mask).toNat + (x &&& ~~~mask).toNat = x.toNat := by
  have apart : (x &&& mask) &&& (x &&& ~~~mask) = 0#w := by
    rw [BitVec.and_comm x (~~~mask), BitVec.and_assoc, ← BitVec.and_assoc mask,
      BitVec.and_not_self]
    simp
  have whole : (x &&& mask) ||| (x &&& ~~~mask) = x := by
    rw [← BitVec.and_or_distrib_left, BitVec.or_not_self, BitVec.and_allOnes]
  rw [← BitVec.toNat_add_of_and_eq_zero apart, BitVec.add_eq_or_of_and_eq_zero _ _ apart, whole]

/-- Clearing the bits below a page rounds down. -/
theorem toNat_clearPage (x : BitVec 64) :
    (x &&& ~~~(BitVec.ofNat 64 pageSize - 1)).toNat = x.toNat - x.toNat % 4096 := by
  have low : (x &&& (BitVec.ofNat 64 pageSize - 1)).toNat = x.toNat % 4096 := by
    rw [BitVec.toNat_and]
    exact Nat.and_two_pow_sub_one_eq_mod x.toNat 12
  have whole := and_add_and_not x (BitVec.ofNat 64 pageSize - 1)
  omega

/-- Rounding down from one less than a page above gives the least whole number of pages. -/
theorem isLeast_rounded (m : Nat) :
    IsLeast {k | 4096 ∣ k ∧ m ≤ k} (m + 4095 - (m + 4095) % 4096) := by
  constructor
  · exact ⟨Nat.dvd_sub_mod _, by omega⟩
  · rintro k ⟨pages, le⟩
    omega

theorem lt_of_isLeast {m : Nat} (h : IsLeast {k | 4096 ∣ k ∧ m ≤ k} n) : n < m + 4096 := by
  rw [h.unique (isLeast_rounded m)]
  omega

theorem exists_roundedSize? (h : size < 2 ^ 64 - 4096) :
    ∃ n, roundedSize? size = some n ∧ IsLeast {k | 4096 ∣ k ∧ max size 1 ≤ k} n := by
  have fits : max size 1 + pageSize < sizeRange := by
    unfold pageSize sizeRange
    omega
  have padded : (BitVec.ofNat 64 (max size 1 + pageSize)).toNat = max size 1 + pageSize := by
    rw [BitVec.toNat_ofNat]
    exact Nat.mod_eq_of_lt fits
  have less : (BitVec.ofNat 64 (max size 1 + pageSize) - 1#64).toNat = max size 1 + 4095 := by
    have one : 1#64 ≤ BitVec.ofNat 64 (max size 1 + pageSize) := by
      rw [BitVec.le_def, padded, BitVec.toNat_ofNat]
      unfold pageSize
      omega
    rw [BitVec.toNat_sub_of_le one, padded, BitVec.toNat_ofNat]
    unfold pageSize
    omega
  have rounded : roundedSize? size =
      some (max size 1 + 4095 - (max size 1 + 4095) % 4096) := by
    unfold roundedSize?
    rw [if_pos fits, toNat_clearPage]
    exact congrArg (fun n => some (n - n % 4096)) less
  exact ⟨_, rounded, isLeast_rounded _⟩

theorem roundedSize?_of_ge (h : 2 ^ 64 - 4096 ≤ size) : roundedSize? size = none := by
  have leaves : ¬ max size 1 + pageSize < sizeRange := by
    unfold pageSize sizeRange
    omega
  unfold roundedSize?
  rw [if_neg leaves]

/-! ## Allocation -/

variable {grants : Nat → Bool} {b : CodeBuffer}

/-- Memory is asked for the rounded size, and its answer decides. -/
theorem allocateFrom_of_rounded (grants : Nat → Bool) (h : roundedSize? size = some n) :
    allocateFrom grants size =
      if grants n then .ok ⟨.replicate n 0, 0, .write⟩ else .error .outOfMemory := by
  unfold allocateFrom
  rw [h]

theorem capacity_of_allocated (h : roundedSize? size = some n)
    (granted : allocateFrom grants size = .ok b) : b.capacity = n := by
  rw [allocateFrom_of_rounded grants h] at granted
  split at granted
  · cases granted
    exact Array.size_replicate
  · cases granted

/-- **A buffer is whole pages.** For every size that leaves room for a page below the end of the 64
bits, what is asked for is the least number of whole pages that holds the size and at least one
byte, and the answer alone decides between an empty buffer of just so many bytes and none. It is
thus no smaller than the size or a page, and less than a page larger. For every other size nothing
is asked for, whatever would be granted. -/
theorem allocates_whole_pages (grants : Nat → Bool) (size : Nat) :
    (size < 2 ^ 64 - 4096 → ∃ n, IsLeast {k | 4096 ∣ k ∧ max size 1 ≤ k} n ∧
      allocateFrom grants size =
        (if grants n then .ok ⟨.replicate n 0, 0, .write⟩ else .error .outOfMemory) ∧
      ∀ b, allocateFrom grants size = .ok b →
        size ≤ b.capacity ∧ 4096 ≤ b.capacity ∧ b.capacity < max size 1 + 4096) ∧
    (2 ^ 64 - 4096 ≤ size → allocateFrom grants size = .error .sizeOverflow) := by
  constructor
  · intro lt
    obtain ⟨n, rounded, least⟩ := exists_roundedSize? lt
    refine ⟨n, least, allocateFrom_of_rounded grants rounded, fun b granted => ?_⟩
    obtain ⟨pages, le⟩ := least.1
    have above := lt_of_isLeast least
    rw [capacity_of_allocated rounded granted]
    omega
  · intro ge
    unfold allocateFrom
    rw [roundedSize?_of_ge ge]

/-- One byte more than a page takes two pages. The largest size that can be rounded is refused by
the memory, and one byte more is not asked for. -/
theorem allocates_whole_pages_at_limits :
    allocate 4097 = .ok ⟨.replicate 8192 0, 0, .write⟩ ∧
    allocate (2 ^ 64 - 4097) = .error .outOfMemory ∧
    allocateFrom (fun _ => true) (2 ^ 64 - 4096) = .error .sizeOverflow := by
  refine ⟨?_, ?_, (allocates_whole_pages _ _).2 (Nat.le_refl _)⟩
  · obtain ⟨n, least, asked, -⟩ := (allocates_whole_pages (· < addressSpace) 4097).1 (by decide)
    have two : n = 8192 := least.unique (isLeast_rounded 4097)
    rw [two] at asked
    exact asked
  · obtain ⟨n, ⟨⟨-, le⟩, -⟩, asked, -⟩ :=
      (allocates_whole_pages (· < addressSpace) (2 ^ 64 - 4097)).1 (by decide)
    have far : ¬ n < addressSpace := by
      unfold addressSpace
      omega
    rw [decide_eq_false far] at asked
    exact asked

end CodeBuffer

end Dynarec
