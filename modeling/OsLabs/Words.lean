import Mathlib.Data.Nat.Factorization.Basic
import Mathlib.Data.Nat.Log
import Mathlib.Data.Nat.Bitwise
import Mathlib.Tactic.Ring
import Mathlib.Algebra.Ring.Parity

/-!
# 64-bit Words

Machine words are natural numbers below `2 ^ 64`. This module collects the word
operations that low-level code is written in — checked addition and subtraction,
complement, leading and trailing zero counts, rounding to powers of two, masking —
as executable functions on `ℕ`, with the arithmetic reading of each bit trick.

## Main results

* `trailingZeros_two_pow`: counting trailing zeros inverts `2 ^ k`.
* `exists_and_complement_succ`: `c &&& (!c + 1)` is the largest power of two
  dividing `c`.
* `le_nextPowerOfTwo` / `nextPowerOfTwo_two_pow`: rounding up to a power of two.
* `not_dvd_xor_half`: flipping the bit below an alignment destroys the alignment.
* `and_complement_pred`: masking with `!(a - 1)` rounds down to a multiple of `a`.
* `alignUp_two_pow`: checked rounding up to a multiple of a power of two.
-/

namespace OsLabs

/-- The number of values of a 64-bit word. -/
def wordSize : ℕ := 2 ^ 64

/-- Overflow-checked addition: `none` is the overflow panic. -/
def checkedAdd (a b : ℕ) : Option ℕ :=
  if a + b < wordSize then some (a + b) else none

/-- Overflow-checked subtraction: `none` is the underflow panic. -/
def checkedSub (a b : ℕ) : Option ℕ :=
  if b ≤ a then some (a - b) else none

/-- Bitwise complement of a word. -/
def complement (a : ℕ) : ℕ := wordSize - 1 - a

/-- The number of leading zero bits of a word. -/
def leadingZeros (n : ℕ) : ℕ := if n = 0 then 64 else 63 - n.log2

/-- The number of trailing zero bits of a word: the position of its lowest set bit,
or `64` when there is none. -/
def trailingZeros (n : ℕ) : ℕ := ((List.range 64).find? n.testBit).getD 64

/-- The least power of two that is at least `n`. -/
def nextPowerOfTwo (n : ℕ) : ℕ := if n ≤ 1 then 1 else 2 ^ ((n - 1).log2 + 1)

/-- A sum that fits in a word is returned. -/
theorem checkedAdd_eq_some {a b : ℕ} (h : a + b < wordSize) :
    checkedAdd a b = some (a + b) := if_pos h

/-- A difference that is not negative is returned. -/
theorem checkedSub_eq_some {a b : ℕ} (h : b ≤ a) : checkedSub a b = some (a - b) :=
  if_pos h

/-! ### Zero counts -/

/-- Counting trailing zeros inverts `2 ^ k`. -/
theorem trailingZeros_two_pow {k : ℕ} (hk : k < 64) : trailingZeros (2 ^ k) = k := by
  have h : (List.range 64).find? (2 ^ k).testBit = some k := by
    rw [List.find?_range_eq_some]
    refine ⟨Nat.testBit_two_pow_self, List.mem_range.mpr hk, ?_⟩
    intro j hj
    simp [Nat.ne_of_gt hj]
  rw [trailingZeros, h, Option.getD_some]

/-- Shifting `1` by the position of the leading bit of `n` is the largest power of two
that is at most `n`. -/
theorem shiftLeft_leadingZeros {n : ℕ} (h0 : 0 < n) (h : n < wordSize) :
    1 <<< (64 - leadingZeros n - 1) = 2 ^ n.log2 := by
  have hlog : n.log2 < 64 := (Nat.log2_lt h0.ne').mpr h
  rw [leadingZeros, if_neg h0.ne', Nat.shiftLeft_eq, one_mul]
  congr 1
  omega

/-! ### Rounding up to a power of two -/

/-- `nextPowerOfTwo` rounds up: it is not below its argument. -/
theorem le_nextPowerOfTwo (n : ℕ) : n ≤ nextPowerOfTwo n := by
  unfold nextPowerOfTwo
  split
  · assumption
  · have := Nat.lt_log2_self (n := n - 1)
    omega

/-- A power of two is its own rounding. -/
theorem nextPowerOfTwo_two_pow (k : ℕ) : nextPowerOfTwo (2 ^ k) = 2 ^ k := by
  unfold nextPowerOfTwo
  cases k with
  | zero => simp
  | succ k =>
      have hk : 0 < 2 ^ k := Nat.two_pow_pos k
      have hlog : (2 ^ (k + 1) - 1).log2 = k := by
        rw [Nat.log2_eq_iff (by rw [pow_succ]; omega)]
        rw [pow_succ]
        omega
      rw [if_neg (by rw [pow_succ]; omega), hlog]

/-! ### The lowest set bit -/

/-- The masked negation of an odd number keeps exactly bit zero. -/
private theorem odd_and_two_pow_sub {m s : ℕ} (hodd : m % 2 = 1) (hs : m < 2 ^ s) :
    m &&& (2 ^ s - m) = 1 := by
  obtain ⟨q, rfl⟩ : ∃ q, m = 2 * q + 1 := ⟨m / 2, by omega⟩
  apply Nat.eq_of_testBit_eq
  intro i
  rw [Nat.testBit_and, Nat.testBit_two_pow_sub_succ (x := 2 * q) (by omega)]
  rcases i with - | i
  · have hs0 : 0 < s := by
      rcases s with - | s
      · simp at hs
      · omega
    simp [hs0]
  · have h2 : (2 * q + 1) / 2 = q := by omega
    have h3 : 2 * q / 2 = q := by omega
    rw [Nat.testBit_succ, Nat.testBit_succ, h2, h3]
    cases q.testBit i <;> simp [Nat.testBit_succ]

/-- **The lowest set bit**: `c &&& (!c + 1)` is a power of two dividing `c`, and the
largest one. -/
theorem exists_and_complement_succ {c : ℕ} (h0 : 0 < c) (h : c < wordSize) :
    ∃ t, c &&& (complement c + 1) = 2 ^ t ∧ 2 ^ t ∣ c ∧ ¬ 2 ^ (t + 1) ∣ c := by
  obtain ⟨t, m, hm, rfl⟩ := Nat.exists_eq_two_pow_mul_odd h0.ne'
  have hmpos : 0 < m := hm.pos
  have ht : t ≤ 64 := by
    by_contra hlt
    have : 2 ^ 64 ≤ 2 ^ t := Nat.pow_le_pow_right (by omega) (by omega)
    have : 2 ^ t ≤ 2 ^ t * m := Nat.le_mul_of_pos_right _ hmpos
    unfold wordSize at h
    omega
  have hsplit : wordSize = 2 ^ t * 2 ^ (64 - t) := by
    rw [← pow_add, wordSize]
    congr 1
    omega
  have hms : m < 2 ^ (64 - t) := by
    rw [hsplit] at h
    exact lt_of_mul_lt_mul_left h (Nat.zero_le _)
  have hneg : complement (2 ^ t * m) + 1 = 2 ^ t * (2 ^ (64 - t) - m) := by
    rw [Nat.mul_sub, ← hsplit, complement]
    omega
  refine ⟨t, ?_, Dvd.intro _ rfl, ?_⟩
  · have hshift : ∀ x, 2 ^ t * x = x <<< t := fun x => by rw [Nat.shiftLeft_eq, mul_comm]
    rw [hneg, hshift, hshift, ← Nat.shiftLeft_and_distrib,
      odd_and_two_pow_sub (Nat.odd_iff.mp hm) hms, Nat.shiftLeft_eq, one_mul]
  · intro hdvd
    rw [pow_succ] at hdvd
    have : 2 ∣ m := Nat.dvd_of_mul_dvd_mul_left (Nat.two_pow_pos t) hdvd
    have := Nat.odd_iff.mp hm
    omega

/-! ### Masks and flips -/

/-- Flipping the bit just below an alignment destroys the alignment. -/
theorem not_dvd_xor_half {p b : ℕ} (hp : 2 ^ (b + 1) ∣ p) :
    ¬ 2 ^ (b + 1) ∣ p ^^^ 2 ^ b := by
  obtain ⟨q, rfl⟩ := hp
  rintro ⟨r, hr⟩
  have hbit := congrArg (fun x => Nat.testBit x b) hr
  simp [Nat.testBit_xor, Nat.testBit_two_pow_mul] at hbit

/-- **Masking rounds down**: `x &&& !(2 ^ k - 1)` is the greatest multiple of `2 ^ k`
that is at most `x`. -/
theorem and_complement_pred {x k : ℕ} (hx : x < wordSize) (hk : k ≤ 64) :
    x &&& complement (2 ^ k - 1) = 2 ^ k * (x / 2 ^ k) := by
  have hpos : 0 < 2 ^ k := Nat.two_pow_pos k
  have hle : 2 ^ k ≤ 2 ^ 64 := Nat.pow_le_pow_right (by omega) hk
  have hc : complement (2 ^ k - 1) = 2 ^ 64 - (2 ^ k - 1 + 1) := by
    unfold complement wordSize
    omega
  apply Nat.eq_of_testBit_eq
  intro i
  rw [hc, Nat.testBit_and, Nat.testBit_two_pow_sub_succ (by omega),
    Nat.testBit_two_pow_sub_one, Nat.testBit_two_pow_mul, Nat.testBit_div_two_pow]
  by_cases hi : i < k
  · simp [hi, Nat.not_le.mpr hi]
  · have hik : i - k + k = i := by omega
    by_cases h64 : i < 64
    · simp [hi, h64, Nat.not_lt.mp hi, hik]
    · have hbit : x.testBit i = false := by
        refine Nat.testBit_lt_two_pow (lt_of_lt_of_le hx ?_)
        exact Nat.pow_le_pow_right (by omega) (by omega)
      simp [hbit, hik]

/-- Overflow-checked rounding up to a multiple of `align`: `none` is a failed assertion
or an overflow. -/
def alignUp (addr align : ℕ) : Option ℕ := do
  if align.isPowerOfTwo then
    let sum ← checkedAdd addr align
    let sum ← checkedSub sum 1
    let mask ← checkedSub align 1
    let aligned := sum &&& complement mask
    if addr ≤ aligned then some aligned else none
  else none

/-- **Rounding up**: away from the end of the address space `alignUp` is the least
multiple of `2 ^ k` that is at least `addr`. -/
theorem alignUp_two_pow {addr k : ℕ} (hk : k ≤ 64) (h : addr + 2 ^ k < wordSize) :
    alignUp addr (2 ^ k) = some (2 ^ k * ((addr + 2 ^ k - 1) / 2 ^ k)) := by
  have hpos : 0 < 2 ^ k := Nat.two_pow_pos k
  have hmod := Nat.div_add_mod (addr + 2 ^ k - 1) (2 ^ k)
  have hlt := Nat.mod_lt (addr + 2 ^ k - 1) hpos
  have hle : addr ≤ 2 ^ k * ((addr + 2 ^ k - 1) / 2 ^ k) := by omega
  have hsum : checkedSub (addr + 2 ^ k) 1 = some (addr + 2 ^ k - 1) :=
    checkedSub_eq_some (by omega)
  rw [alignUp, if_pos ⟨k, rfl⟩, checkedAdd_eq_some h]
  simp only [Option.bind_eq_bind, Option.bind_some, hsum, checkedSub_eq_some hpos]
  rw [and_complement_pred (by omega) hk, if_pos hle]

end OsLabs
