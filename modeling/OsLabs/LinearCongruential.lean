import Mathlib.Algebra.Ring.GeomSum
import Mathlib.Data.ZMod.Basic
import Mathlib.Dynamics.PeriodicPts.Lemmas
import Mathlib.NumberTheory.Multiplicity

/-!
# Linear Congruential Generators Modulo a Power of Two

The map `x ↦ a * x + c` on the integers modulo `2 ^ k`, iterated. With `a` one more than
a multiple of 4 and `c` odd, the orbit of every starting point is the whole ring: the
`n`-th iterate moves `x` by an odd number times the geometric sum of `a`, and that sum
has as many factors 2 as `n`.

The second part is about any function on a finite type whose orbit of a point is as long
as the type is large.

## Main results

* `affine_iterate`: the iterates in closed form.
* `two_pow_dvd_geom_sum_iff`: the factors 2 of the geometric sum.
* `affine_iterate_eq_iff`, `minimalPeriod_affine`: the period is `2 ^ k`.
* `existsUnique_iterate_window`: a full period meets every value once in each stretch of its
  length.
-/

namespace OsLabs

open Finset Function

/-- The step of a linear congruential generator. -/
def affine {R : Type*} [CommRing R] (a c x : R) : R := a * x + c

/-- **The iterates in closed form**, by the sum of the powers of the multiplier. -/
theorem affine_iterate {R : Type*} [CommRing R] (a c x : R) (n : ℕ) :
    (affine a c)^[n] x = x + ((a - 1) * x + c) * ∑ i ∈ range n, a ^ i := by
  induction n with
  | zero => simp
  | succ n ih =>
      rw [iterate_succ_apply', ih, geom_sum_succ, affine]
      ring

/-- **The factors 2 of the geometric sum** of `a` up to `n` are those of `n`. -/
theorem two_pow_dvd_geom_sum_iff {a : ℤ} (ha : 4 ∣ a - 1) (k n : ℕ) :
    (2 : ℤ) ^ k ∣ ∑ i ∈ range n, a ^ i ↔ 2 ^ k ∣ n := by
  rw [← Int.natCast_dvd_natCast (m := 2 ^ k), Nat.cast_pow, Nat.cast_ofNat]
  rcases eq_or_ne a 1 with rfl | hne
  · simp
  · have hodd : ¬ 2 ∣ a := by omega
    have hfinite : emultiplicity 2 (a - 1) ≠ ⊤ :=
      finiteMultiplicity_iff_emultiplicity_ne_top.mp
        (Int.finiteMultiplicity_iff.mpr ⟨by decide, sub_ne_zero.mpr hne⟩)
    have hlift : emultiplicity 2 (a - 1) + emultiplicity 2 (∑ i ∈ range n, a ^ i) =
        emultiplicity 2 (a - 1) + emultiplicity (2 : ℤ) n := by
      rw [← emultiplicity_mul Int.prime_two, mul_geom_sum, ← one_pow n,
        Int.two_pow_sub_pow' n ha hodd]
      simp
    rw [pow_dvd_iff_le_emultiplicity, pow_dvd_iff_le_emultiplicity,
      (ENat.addLECancellable_of_ne_top hfinite).inj.mp hlift]

section

variable {a c : ℤ} {k : ℕ}

/-- **The period** divides exactly the multiples of `2 ^ k`. -/
theorem affine_iterate_eq_iff (ha : 4 ∣ a - 1) (hc : Odd c) (x : ZMod (2 ^ k)) (n : ℕ) :
    (affine (a : ZMod (2 ^ k)) c)^[n] x = x ↔ 2 ^ k ∣ n := by
  obtain ⟨y, rfl⟩ := ZMod.intCast_surjective x
  -- the factor in front of the sum is odd
  have hodd : ¬ (2 : ℤ) ∣ (a - 1) * y + c := by
    obtain ⟨d, hd⟩ := ha
    obtain ⟨e, rfl⟩ := hc
    rw [hd, mul_assoc]
    rintro ⟨f, hf⟩
    omega
  have hcancel : ∀ s : ℤ, (2 : ℤ) ^ k ∣ ((a - 1) * y + c) * s ↔ (2 : ℤ) ^ k ∣ s := fun s =>
    ⟨Int.prime_two.pow_dvd_of_dvd_mul_left k hodd, fun h => dvd_mul_of_dvd_right h _⟩
  have hcast : ((a : ZMod (2 ^ k)) - 1) * y + c = (((a - 1) * y + c : ℤ) : ZMod (2 ^ k)) := by
    push_cast
    rfl
  have hsum : ∑ i ∈ range n, (a : ZMod (2 ^ k)) ^ i =
      ((∑ i ∈ range n, a ^ i : ℤ) : ZMod (2 ^ k)) := by
    push_cast
    rfl
  rw [affine_iterate, add_eq_left, hcast, hsum, ← Int.cast_mul,
    ZMod.intCast_zmod_eq_zero_iff_dvd, Nat.cast_pow, Nat.cast_ofNat, hcancel,
    two_pow_dvd_geom_sum_iff ha]

/-- **Full period**: a multiplier that is 1 modulo 4 and an odd increment reach every residue
modulo a power of two before they return to the first. -/
theorem minimalPeriod_affine (ha : 4 ∣ a - 1) (hc : Odd c) (x : ZMod (2 ^ k)) :
    minimalPeriod (affine (a : ZMod (2 ^ k)) c) x = 2 ^ k := by
  refine eq_of_forall_dvd fun n => ?_
  rw [← isPeriodicPt_iff_minimalPeriod_dvd]
  exact affine_iterate_eq_iff ha hc x n

end

/-! ### Full periods on a finite type -/

section

variable {α : Type*} [Fintype α] {f : α → α} {x : α}

/-- A function of full period meets every value within one period. -/
theorem exists_iterate_lt (h : minimalPeriod f x = Fintype.card α) (v : α) :
    ∃ j < Fintype.card α, f^[j] x = v := by
  classical
  have himage : ((range (Fintype.card α)).image fun j => f^[j] x) = univ := by
    refine eq_univ_of_card _ ?_
    rw [card_image_of_injOn, card_range]
    intro i hi j hj heq
    rw [mem_coe, mem_range, ← h] at hi hj
    exact (iterate_eq_iterate_iff_of_lt_minimalPeriod hi hj).mp heq
  have hv : v ∈ (range (Fintype.card α)).image fun j => f^[j] x := himage ▸ mem_univ v
  obtain ⟨j, hj, heq⟩ := mem_image.mp hv
  exact ⟨j, mem_range.mp hj, heq⟩

/-- **Every stretch of the period's length** meets every value once. -/
theorem existsUnique_iterate_window (h : minimalPeriod f x = Fintype.card α) (i : ℕ) (v : α) :
    ∃! j, (i ≤ j ∧ j < i + Fintype.card α) ∧ f^[j] x = v := by
  have hmem : x ∈ periodicPts f := by
    rw [← minimalPeriod_pos_iff_mem_periodicPts, h]
    exact Fintype.card_pos_iff.mpr ⟨x⟩
  -- the stretch is the period of the point it starts from
  have hshift : minimalPeriod f (f^[i] x) = Fintype.card α := by
    rw [minimalPeriod_apply_iterate hmem, h]
  obtain ⟨j, hj, heq⟩ := exists_iterate_lt hshift v
  rw [← iterate_add_apply] at heq
  refine ⟨j + i, ⟨⟨by omega, by omega⟩, heq⟩, ?_⟩
  rintro l ⟨⟨hil, hli⟩, hl⟩
  obtain ⟨m, rfl⟩ : ∃ m, l = m + i := ⟨l - i, by omega⟩
  rw [← hl, iterate_add_apply, iterate_add_apply] at heq
  have hjm := (iterate_eq_iterate_iff_of_lt_minimalPeriod (hshift ▸ hj)
    (hshift ▸ (by omega : m < Fintype.card α))).mp heq
  rw [hjm]

end

end OsLabs
