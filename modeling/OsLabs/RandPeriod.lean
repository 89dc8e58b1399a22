import OsLabs.LinearCongruential
import OsLabs.Lottery

/-!
# The Period of the Kernel's Random Numbers

`rand` of `proc_our.c` is a linear congruential generator on the 32-bit variable `seed`
and returns its lower 31 bits. Its multiplier `1664525` is one more than a multiple of 4
and its increment `1013904223` is odd, so from every seed it runs through all 32-bit
values before it repeats one (`OsLabs.LinearCongruential`), and every 31-bit number is
returned twice on the way, once for each value of the bit that is dropped.

## Main results

* `toZMod_seedAfter`: the seeds are iterates of an affine map modulo `2 ^ 32`.
* `seedAfter_eq_iff`: two seeds of a sequence are equal exactly when whole periods lie
  between them.
* `rand_full_period`: each stretch of `2 ^ 32` calls meets every seed once and returns
  every number twice.
-/

namespace OsLabs.Lottery

open Finset Function

/-- `srand`: the seed after it, whatever it was before. -/
def srand (_seed s : UInt32) : UInt32 := s

/-- The seed after `n` calls of `rand`. -/
def seedAfter (seed : UInt32) : ℕ → UInt32
  | 0 => seed
  | n + 1 => (rand (seedAfter seed n)).2

/-- A seed as an integer modulo `2 ^ 32`. -/
def toZMod (seed : UInt32) : ZMod (2 ^ 32) := (seed.toNat : ZMod (2 ^ 32))

/-- Two seeds are equal if they are equal modulo `2 ^ 32`. -/
theorem toZMod_inj {s t : UInt32} : toZMod s = toZMod t ↔ s = t := by
  rw [toZMod, toZMod, ZMod.natCast_eq_natCast_iff', Nat.mod_eq_of_lt s.toNat_lt,
    Nat.mod_eq_of_lt t.toNat_lt, UInt32.toNat_inj]

/-- A call of `rand` is a step of the generator. -/
theorem toZMod_rand (seed : UInt32) :
    toZMod (rand seed).2 =
      affine ((1664525 : ℤ) : ZMod (2 ^ 32)) (1013904223 : ℤ) (toZMod seed) := by
  have hnat : (rand seed).2.toNat = (seed.toNat * 1664525 + 1013904223) % 2 ^ 32 := by
    rw [rand]
    simp [UInt32.toNat_add, UInt32.toNat_mul]
  rw [toZMod, hnat, ZMod.natCast_mod, affine, toZMod]
  push_cast
  ring

/-- **The seeds are iterates** of an affine map modulo `2 ^ 32`, to which the theory of such maps
applies. -/
theorem toZMod_seedAfter (seed : UInt32) (n : ℕ) :
    toZMod (seedAfter seed n) =
      (affine ((1664525 : ℤ) : ZMod (2 ^ 32)) (1013904223 : ℤ))^[n] (toZMod seed) := by
  induction n with
  | zero => rfl
  | succ n ih => rw [seedAfter, toZMod_rand, ih, iterate_succ_apply']

/-- Draws can be counted from any seed on the way. -/
theorem seedAfter_add (seed : UInt32) (m n : ℕ) :
    seedAfter seed (m + n) = seedAfter (seedAfter seed m) n := by
  induction n with
  | zero => rfl
  | succ n ih => rw [← Nat.add_assoc, seedAfter, ih, seedAfter]

/-- **The period**: a seed comes back exactly after multiples of `2 ^ 32` calls. -/
theorem seedAfter_eq_iff (seed : UInt32) (j p : ℕ) :
    seedAfter seed (j + p) = seedAfter seed j ↔ 2 ^ 32 ∣ p := by
  rw [seedAfter_add, ← toZMod_inj, toZMod_seedAfter]
  exact affine_iterate_eq_iff (by omega) ⟨506952111, by omega⟩ _ p

/-- **Every seed once** in each stretch of `2 ^ 32` calls. -/
theorem existsUnique_seedAfter (seed : UInt32) (i : ℕ) (v : UInt32) :
    ∃! j, (i ≤ j ∧ j < i + 2 ^ 32) ∧ seedAfter seed j = v := by
  have hperiod : minimalPeriod (affine ((1664525 : ℤ) : ZMod (2 ^ 32)) (1013904223 : ℤ))
      (toZMod seed) = Fintype.card (ZMod (2 ^ 32)) := by
    rw [minimalPeriod_affine (by omega) ⟨506952111, by omega⟩, ZMod.card]
  have h := existsUnique_iterate_window hperiod i (toZMod v)
  simpa only [ZMod.card, ← toZMod_seedAfter, toZMod_inj] using h

/-! ### The numbers returned -/

/-- A number below `2 ^ 32` is a seed. -/
theorem toNat_ofNat_seed {m : ℕ} (hm : m < 2 ^ 32) : (UInt32.ofNat m).toNat = m :=
  UInt32.toNat_ofNat_of_lt' hm

/-- A number is returned with one of two seeds, which differ in the bit that is dropped. -/
theorem rand_eq_iff (seed : UInt32) {v : ℕ} (hv : v < 2 ^ 31) :
    (rand seed).1 = v ↔
      (rand seed).2 = UInt32.ofNat v ∨ (rand seed).2 = UInt32.ofNat (v + 2 ^ 31) := by
  have hlt := (rand seed).2.toNat_lt
  rw [rand_fst, ← UInt32.toNat_inj, ← UInt32.toNat_inj, toNat_ofNat_seed (by omega),
    toNat_ofNat_seed (by omega)]
  omega

/-- A seed is the next one exactly once in each stretch of `2 ^ 32` calls. -/
theorem card_rand_snd (seed : UInt32) (i : ℕ) (w : UInt32) :
    ((Ico i (i + 2 ^ 32)).filter fun j => (rand (seedAfter seed j)).2 = w).card = 1 := by
  obtain ⟨j, ⟨hj, hw⟩, huniq⟩ := existsUnique_seedAfter seed (i + 1) w
  obtain ⟨k, rfl⟩ : ∃ k, j = k + 1 := ⟨j - 1, by omega⟩
  rw [card_eq_one]
  refine ⟨k, ?_⟩
  ext m
  rw [mem_filter, mem_Ico, mem_singleton]
  constructor
  · rintro ⟨hm, hmw⟩
    have heq := huniq (m + 1) ⟨⟨by omega, by omega⟩, hmw⟩
    omega
  · rintro rfl
    exact ⟨by omega, hw⟩

/-- **Every number twice** in each stretch of `2 ^ 32` calls. -/
theorem card_rand_eq (seed : UInt32) (i : ℕ) {v : ℕ} (hv : v < 2 ^ 31) :
    ((Ico i (i + 2 ^ 32)).filter fun j => (rand (seedAfter seed j)).1 = v).card = 2 := by
  have hne : UInt32.ofNat v ≠ UInt32.ofNat (v + 2 ^ 31) := by
    intro heq
    have hnat := congrArg UInt32.toNat heq
    rw [toNat_ofNat_seed (by omega), toNat_ofNat_seed (by omega)] at hnat
    omega
  simp only [rand_eq_iff _ hv]
  rw [filter_or, card_union_of_disjoint, card_rand_snd, card_rand_snd]
  rw [disjoint_filter]
  exact fun j _ hlow hhigh => hne (hlow.symm.trans hhigh)

/-- **The generator has full period.** For every seed set by `srand`: each stretch of
`2 ^ 32` calls of `rand` meets every 32-bit seed exactly once, a seed comes back after
`2 ^ 32` calls and after no smaller positive number of them, and in each stretch every
number below `2 ^ 31` is returned exactly twice, and no other one. -/
theorem rand_full_period (seed s : UInt32) :
    (∀ i v, ∃! j, (i ≤ j ∧ j < i + 2 ^ 32) ∧ seedAfter (srand seed s) j = v) ∧
    (∀ j p, seedAfter (srand seed s) (j + p) = seedAfter (srand seed s) j ↔ 2 ^ 32 ∣ p) ∧
    (∀ i v, v < 2 ^ 31 →
      ((Ico i (i + 2 ^ 32)).filter fun j =>
        (rand (seedAfter (srand seed s) j)).1 = v).card = 2) ∧
    ∀ j, (rand (seedAfter (srand seed s) j)).1 < 2 ^ 31 := by
  refine ⟨fun i v => existsUnique_seedAfter _ i v, fun j p => seedAfter_eq_iff _ j p,
    fun i v hv => card_rand_eq _ i hv, fun j => rand_fst_lt _⟩

end OsLabs.Lottery
