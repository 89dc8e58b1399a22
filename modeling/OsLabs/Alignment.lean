import OsLabs.Words

/-!
# Rounding Addresses

`align_down` and `align_up` of `kern/src/allocator/util.rs` round an address to a multiple
of a power of two. `align_up` adds `align` before it subtracts 1, and `usize` arithmetic
either panics on overflow, in debug and test builds, or wraps around, in release builds.
Wrapping around is harmless: the final assertion catches every sum that has really passed
the end of the address space. The overflow check is not: the last multiple of `align`
below `2 ^ 64` is rounded up to itself, but its sum with `align` is `2 ^ 64`.

Conventions: an address is a natural number below `2 ^ 64`, and `none` is a panic.

## Main results

* `Arith.checked_alignUp`: the overflow-checked `align_up` is `alignUp` of `OsLabs.Words`.
* `Arith.alignDown_eq`, `Arith.alignUp_eq`: both functions in both builds, as arithmetic.
* `align_exact_iff`: rounding is exact except where the check finds the sum `2 ^ 64`.
* `align_up_last_block`: the panic at the start of the last block.
-/

namespace OsLabs

/-- What `+` and `-` on `usize` do beyond the range of the type. -/
inductive Arith where
  | checked
  | wrapping
deriving DecidableEq

namespace Arith

/-- `a + b`. -/
def add (m : Arith) (a b : ℕ) : Option ℕ :=
  match m with
  | checked => checkedAdd a b
  | wrapping => some ((a + b) % wordSize)

/-- `a - b`. -/
def sub (m : Arith) (a b : ℕ) : Option ℕ :=
  match m with
  | checked => checkedSub a b
  | wrapping => some ((a + wordSize - b) % wordSize)

/-- `align_down`. -/
def alignDown (m : Arith) (addr align : ℕ) : Option ℕ := do
  if align.isPowerOfTwo then
    let mask ← m.sub align 1
    some (addr &&& complement mask)
  else none

/-- `align_up`. -/
def alignUp (m : Arith) (addr align : ℕ) : Option ℕ := do
  if align.isPowerOfTwo then
    let sum ← m.add addr align
    let sum ← m.sub sum 1
    let mask ← m.sub align 1
    let aligned := sum &&& complement mask
    if addr ≤ aligned then some aligned else none
  else none

/-- The overflow-checked `align_up` is that of `OsLabs.Words`. -/
theorem checked_alignUp : checked.alignUp = OsLabs.alignUp := rfl

/-- Subtracting 1 from a positive word stays in range. -/
theorem sub_one (m : Arith) {a : ℕ} (hpos : 0 < a) (hlt : a < wordSize) :
    m.sub a 1 = some (a - 1) := by
  cases m with
  | checked => exact checkedSub_eq_some hpos
  | wrapping =>
      have hsum : a + wordSize - 1 = a - 1 + wordSize := by omega
      rw [sub, hsum, Nat.add_mod_right, Nat.mod_eq_of_lt (by omega)]

end Arith

/-- **The property** of both functions at an address: `align_down` returns the greatest
multiple that is not above it, `align_up` the least one that is not below it, and it
panics exactly when that one is beyond the address space. -/
structure AlignsExactly (m : Arith) (addr align : ℕ) : Prop where
  down : ∃ d, m.alignDown addr align = some d ∧ IsGreatest {x | align ∣ x ∧ x ≤ addr} d
  up : ∀ u, IsLeast {x | align ∣ x ∧ addr ≤ x} u → u < wordSize →
    m.alignUp addr align = some u
  panics : ∀ u, IsLeast {x | align ∣ x ∧ addr ≤ x} u →
    (m.alignUp addr align = none ↔ wordSize ≤ u)

/-! ### Multiples -/

/-- Division gives the greatest multiple of `align` that is not above `addr`. -/
theorem isGreatest_multiple {addr align : ℕ} :
    IsGreatest {x | align ∣ x ∧ x ≤ addr} (align * (addr / align)) := by
  refine ⟨⟨Dvd.intro _ rfl, Nat.mul_div_le addr align⟩, ?_⟩
  rintro x ⟨⟨q, rfl⟩, hle⟩
  rcases Nat.eq_zero_or_pos align with rfl | hpos
  · simp
  · exact Nat.mul_le_mul_left _ ((Nat.le_div_iff_mul_le hpos).mpr (by rwa [Nat.mul_comm]))

/-- Division of the rounded-up sum gives the least multiple that is not below `addr`. -/
theorem isLeast_multiple {addr align : ℕ} (hpos : 0 < align) :
    IsLeast {x | align ∣ x ∧ addr ≤ x} (align * ((addr + align - 1) / align)) := by
  have hdiv := Nat.div_add_mod (addr + align - 1) align
  have hmod := Nat.mod_lt (addr + align - 1) hpos
  refine ⟨⟨Dvd.intro _ rfl, by omega⟩, ?_⟩
  rintro x ⟨⟨q, rfl⟩, hle⟩
  refine Nat.mul_le_mul_left _ ?_
  rw [← Nat.lt_succ_iff, Nat.div_lt_iff_lt_mul hpos, Nat.succ_mul, Nat.mul_comm]
  omega

/-! ### The functions as arithmetic -/

namespace Arith

variable {addr k : ℕ}

/-- **`align_down` in both builds**: for a power of two it returns the address rounded down, and
no operation in it can overflow. -/
theorem alignDown_eq (m : Arith) (haddr : addr < wordSize) (hk : k < 64) :
    m.alignDown addr (2 ^ k) = some (2 ^ k * (addr / 2 ^ k)) := by
  have hlt : 2 ^ k < wordSize := Nat.pow_lt_pow_right (by omega) hk
  rw [alignDown, if_pos ⟨k, rfl⟩, m.sub_one (Nat.two_pow_pos k) hlt]
  simp only [Option.bind_eq_bind, Option.bind_some]
  rw [and_complement_pred haddr hk.le]

/-- The multiple that `align_up` looks for is in the address space exactly when the sum
that is masked is. -/
theorem multiple_lt_iff (hk : k < 64) (s : ℕ) :
    2 ^ k * (s / 2 ^ k) < wordSize ↔ s < wordSize := by
  have hpos : 0 < 2 ^ k := Nat.two_pow_pos k
  have hsplit : wordSize = 2 ^ k * 2 ^ (64 - k) := by
    rw [← pow_add, wordSize]
    congr 1
    omega
  rw [hsplit, Nat.mul_lt_mul_left hpos, Nat.div_lt_iff_lt_mul hpos, Nat.mul_comm]

/-- The two operations before the mask, in the build where they wrap around. -/
theorem wrapping_sum (haddr : addr < wordSize) (hk : k < 64) :
    (wrapping.add addr (2 ^ k)).bind (fun sum => wrapping.sub sum 1) =
      some ((addr + 2 ^ k - 1) % wordSize) := by
  have hpos : 0 < 2 ^ k := Nat.two_pow_pos k
  have hlt : 2 ^ k < wordSize := Nat.pow_lt_pow_right (by omega) hk
  simp only [add, sub, Option.bind_some, Option.some.injEq]
  rcases Nat.lt_or_ge (addr + 2 ^ k) wordSize with hsum | hsum
  · have heq : addr + 2 ^ k + wordSize - 1 = addr + 2 ^ k - 1 + wordSize := by omega
    rw [Nat.mod_eq_of_lt hsum, heq, Nat.add_mod_right]
  · have heq : addr + 2 ^ k - wordSize + wordSize - 1 = addr + 2 ^ k - 1 := by omega
    have hrem : (addr + 2 ^ k) % wordSize = addr + 2 ^ k - wordSize := by
      rw [Nat.mod_eq_sub_mod hsum, Nat.mod_eq_of_lt (by omega)]
    rw [hrem, heq]

/-- **`align_up`** in both builds: it returns the multiple unless that is beyond the
address space or the overflow check fails. -/
theorem alignUp_eq (m : Arith) (haddr : addr < wordSize) (hk : k < 64) :
    m.alignUp addr (2 ^ k) =
      if wordSize ≤ addr + 2 ^ k - 1 ∨ m = checked ∧ addr + 2 ^ k = wordSize then none
      else some (2 ^ k * ((addr + 2 ^ k - 1) / 2 ^ k)) := by
  have hpos : 0 < 2 ^ k := Nat.two_pow_pos k
  have hlt : 2 ^ k < wordSize := Nat.pow_lt_pow_right (by omega) hk
  have hmul : addr ≤ 2 ^ k * ((addr + 2 ^ k - 1) / 2 ^ k) := (isLeast_multiple hpos).1.2
  cases m with
  | checked =>
      rw [checked_alignUp]
      by_cases hsum : addr + 2 ^ k < wordSize
      · rw [alignUp_two_pow hk.le hsum, if_neg (by omega)]
      · rw [OsLabs.alignUp, if_pos ⟨k, rfl⟩, checkedAdd, if_neg hsum, if_pos]
        · rfl
        · rcases Nat.lt_or_ge wordSize (addr + 2 ^ k) with hgt | hle
          · exact Or.inl (by omega)
          · exact Or.inr ⟨rfl, by omega⟩
  | wrapping =>
      have hsum : wrapping.alignUp addr (2 ^ k) =
          if addr ≤ 2 ^ k * ((addr + 2 ^ k - 1) % wordSize / 2 ^ k) then
            some (2 ^ k * ((addr + 2 ^ k - 1) % wordSize / 2 ^ k))
          else none := by
        have hmask := and_complement_pred (Nat.mod_lt (addr + 2 ^ k - 1) (by omega)) hk.le
        rw [alignUp, if_pos ⟨k, rfl⟩, wrapping.sub_one hpos hlt]
        have hbind := wrapping_sum haddr hk
        rw [Option.bind_eq_bind, ← Option.bind_assoc, hbind]
        simp only [Option.bind_some, hmask]
      rw [hsum]
      by_cases hover : wordSize ≤ addr + 2 ^ k - 1
      · -- what is left of the sum is below `align`, and is masked to 0
        have hrem : (addr + 2 ^ k - 1) % wordSize / 2 ^ k = 0 := by
          rw [Nat.mod_eq_sub_mod hover, Nat.mod_eq_of_lt (by omega)]
          exact Nat.div_eq_of_lt (by omega)
        rw [hrem, if_neg (by omega), if_pos (Or.inl hover)]
      · rw [Nat.mod_eq_of_lt (by omega), if_pos hmul, if_neg (by simp [hover])]

end Arith

/-- **When rounding is exact.** For every address and every power of two, in both builds:
`align_down` and `align_up` return the nearest multiples, and `align_up` panics exactly
when its multiple is beyond the address space, if and only if the arithmetic wraps around
or the address is not the start of the last block of size `align`. -/
theorem align_exact_iff (m : Arith) {addr align : ℕ} (haddr : addr < wordSize)
    (halign : align.isPowerOfTwo) (hlt : align < wordSize) :
    AlignsExactly m addr align ↔ ¬ (m = .checked ∧ addr + align = wordSize) := by
  obtain ⟨k, rfl⟩ := halign
  have hk : k < 64 := (Nat.pow_lt_pow_iff_right (by omega)).mp hlt
  have hleast : IsLeast {x | 2 ^ k ∣ x ∧ addr ≤ x} _ := isLeast_multiple (Nat.two_pow_pos k)
  have hmul := Arith.multiple_lt_iff hk (addr + 2 ^ k - 1)
  have hpos : 0 < 2 ^ k := Nat.two_pow_pos k
  constructor
  · rintro h ⟨rfl, hsum⟩
    have hup := h.up _ hleast (by rw [hmul]; omega)
    rw [Arith.alignUp_eq _ haddr hk, if_pos (Or.inr ⟨rfl, hsum⟩)] at hup
    simp at hup
  · intro hnot
    refine ⟨⟨_, m.alignDown_eq haddr hk, isGreatest_multiple⟩, fun u hu hul => ?_, fun u hu => ?_⟩
    · obtain rfl := hu.unique hleast
      rw [hmul] at hul
      rw [m.alignUp_eq haddr hk, if_neg]
      rintro (hge | hbad)
      · omega
      · exact hnot hbad
    · obtain rfl := hu.unique hleast
      rw [← not_lt, hmul, not_lt, m.alignUp_eq haddr hk]
      split
      · rename_i hor
        exact iff_of_true rfl (hor.resolve_right hnot)
      · rename_i hor
        exact iff_of_false (by simp) fun hge => hor (Or.inl hge)

/-- A page size is a power of two, and `0x1234` is far from the end of the address space. -/
theorem align_exact_page :
    0x1234 < wordSize ∧ (2 ^ 12).isPowerOfTwo ∧ 2 ^ 12 < wordSize ∧
      AlignsExactly .checked 0x1234 (2 ^ 12) := by
  have haddr : 0x1234 < wordSize := by rw [wordSize]; omega
  have hlt : 2 ^ 12 < wordSize := by rw [wordSize]; omega
  refine ⟨haddr, ⟨12, rfl⟩, hlt, (align_exact_iff .checked haddr ⟨12, rfl⟩ hlt).mpr ?_⟩
  rintro ⟨-, hsum⟩
  rw [wordSize] at hsum
  omega

/-- **The defect**: the address `2 ^ 64 - 8` is a multiple of 8, and rounding it up to one
panics where overflow is checked. -/
theorem align_up_last_block :
    IsLeast {x | 8 ∣ x ∧ 2 ^ 64 - 8 ≤ x} (2 ^ 64 - 8) ∧
      Arith.checked.alignUp (2 ^ 64 - 8) 8 = none ∧
      Arith.wrapping.alignUp (2 ^ 64 - 8) 8 = some (2 ^ 64 - 8) ∧
      ¬ AlignsExactly .checked (2 ^ 64 - 8) 8 := by
  have hleast : IsLeast {x | 8 ∣ x ∧ 2 ^ 64 - 8 ≤ x} (2 ^ 64 - 8) :=
    ⟨⟨by omega, le_rfl⟩, fun x hx => hx.2⟩
  have hnone : Arith.checked.alignUp (2 ^ 64 - 8) 8 = none := by decide +kernel
  refine ⟨hleast, hnone, by decide +kernel, fun h => ?_⟩
  have hup := h.up _ hleast (by rw [wordSize]; omega)
  rw [hnone] at hup
  simp at hup

end OsLabs
