import Mathlib.Order.Interval.Finset.Nat
import OsLabs.SqrtTable

/-!
# The Sweep of the Clock

The loop of `REPLACEMENT_CLOCK` has no bound. It walks around the array `cache` from the
hand on, clears every access bit it finds set, and stops at a slot whose bit is clear. As
it clears the bits that it tests, the walk comes to an end after a full circle at the
latest: by then the bit at which it started is clear.

Conventions: `slotAhead hand d` is the slot `d` steps after the hand. A sweep of `d + 1`
turns passes over `d` slots and takes the next one.

## Main results

* `clockSweep_skip`: the first turns of a sweep.
* `exists_passes`: how many slots a sweep passes over.
* `Passes.clockSweep`: what a sweep does, turn by turn.
* `clock_sweep_ends`: the number of turns, the victim, the bits and the hand.
-/

namespace OsLabs.SqrtTable

/-! ### Counting modulo the number of slots -/

/-- Of `n` numbers in a row, each remainder belongs to one. -/
theorem exists_mod_eq {n i : ℕ} (t : ℕ) (hi : i < n) : ∃ u, t ≤ u ∧ u < t + n ∧ u % n = i := by
  have hmem := Finset.mem_range.mpr hi
  rw [← Nat.image_Ico_mod t] at hmem
  obtain ⟨u, hu, hmod⟩ := Finset.mem_image.mp hmem
  obtain ⟨hle, hlt⟩ := Finset.mem_Ico.mp hu
  exact ⟨u, hle, hlt, hmod⟩

/-- Two numbers less than `n` apart have different remainders modulo `n`. -/
theorem mod_ne_of_lt {n t u : ℕ} (hlt : u < t) (hle : t < u + n) : u % n ≠ t % n := by
  intro heq
  have hzero := Nat.sub_mod_eq_zero_of_mod_eq heq.symm
  rw [Nat.mod_eq_of_lt (by omega)] at hzero
  omega

/-! ### Slots and bits -/

/-- The access bit of the slot is cleared. -/
theorem clearBit_self (cache : ℕ → PageInfo) (i : ℕ) :
    clearBit cache i i = { cache i with accessBit := 0 } := Function.update_self ..

/-- The other slots keep their access bits. -/
theorem clearBit_of_ne {i j : ℕ} (h : j ≠ i) (cache : ℕ → PageInfo) :
    clearBit cache i j = cache j := Function.update_of_ne h ..

namespace Config

variable (c : Config)

/-- The slot that the hand reaches in `d` steps. -/
def slotAhead (hand d : ℕ) : ℕ := (hand + d) % c.cacheSlots

/-- The cache with the bits of the first `d` slots from the hand on cleared. -/
def clearAhead (cache : ℕ → PageInfo) (hand d i : ℕ) : PageInfo :=
  if ∃ e < d, c.slotAhead hand e = i then { cache i with accessBit := 0 } else cache i

/-- **The slots passed over**: a sweep from `hand` on finds `d` bits set. Then it comes to
the first bit that is clear, unless it has gone full circle. -/
structure Passes (cache : ℕ → PageInfo) (hand d : ℕ) : Prop where
  le : d ≤ c.cacheSlots
  isSet : ∀ e < d, (cache (c.slotAhead hand e)).accessBit ≠ 0
  stops : d < c.cacheSlots → (cache (c.slotAhead hand d)).accessBit = 0

variable {c} {cache : ℕ → PageInfo} {hand d e : ℕ}

/-! ### Walking around the array -/

/-- The hand stands at its own slot. -/
theorem slotAhead_zero (hhand : hand < c.cacheSlots) : c.slotAhead hand 0 = hand :=
  Nat.mod_eq_of_lt hhand

/-- After as many steps as there are slots the hand is back where it was. -/
theorem slotAhead_cacheSlots (hhand : hand < c.cacheSlots) :
    c.slotAhead hand c.cacheSlots = hand := by
  rw [slotAhead, Nat.add_mod_right, Nat.mod_eq_of_lt hhand]

/-- One slot further on, around the end of the cache. -/
theorem slotAhead_succ (hand d : ℕ) :
    c.slotAhead hand (d + 1) = (c.slotAhead hand d + 1) % c.cacheSlots := by
  rw [slotAhead, slotAhead, Nat.mod_add_mod, Nat.add_assoc]

/-- The hand never leaves the cache, however far it goes. -/
theorem slotAhead_lt (hhand : hand < c.cacheSlots) (d : ℕ) :
    c.slotAhead hand d < c.cacheSlots := Nat.mod_lt _ (by omega)

/-- No slot is met twice before the circle is complete. -/
theorem slotAhead_ne (hed : e < d) (hd : d < c.cacheSlots) :
    c.slotAhead hand e ≠ c.slotAhead hand d := by
  rw [slotAhead, slotAhead]
  exact mod_ne_of_lt (by omega) (by omega)

/-- Within one round the hand meets every slot. -/
theorem exists_slotAhead (hand : ℕ) {i : ℕ} (hi : i < c.cacheSlots) :
    ∃ e < c.cacheSlots, c.slotAhead hand e = i := by
  obtain ⟨u, hle, hlt, hmod⟩ := exists_mod_eq hand hi
  refine ⟨u - hand, by omega, ?_⟩
  rw [slotAhead, Nat.add_sub_cancel' hle, hmod]

/-! ### The bits that are cleared -/

/-- Before its first turn the sweep has cleared nothing. -/
theorem clearAhead_zero (cache : ℕ → PageInfo) (hand : ℕ) : c.clearAhead cache hand 0 = cache := by
  funext i
  exact if_neg fun ⟨e, he, _⟩ => Nat.not_lt_zero e he

/-- A slot that was met has lost its bit, and nothing else. -/
theorem clearAhead_of_lt (hed : e < d) :
    c.clearAhead cache hand d (c.slotAhead hand e) =
      { cache (c.slotAhead hand e) with accessBit := 0 } :=
  if_pos ⟨e, hed, rfl⟩

/-- A slot that the sweep has not come to is as it was. -/
theorem clearAhead_of_ne {i : ℕ} (h : ∀ e < d, c.slotAhead hand e ≠ i) :
    c.clearAhead cache hand d i = cache i :=
  if_neg fun ⟨e, he, heq⟩ => h e he heq

/-- The next slot still has its bit. -/
theorem clearAhead_next (hd : d < c.cacheSlots) :
    c.clearAhead cache hand d (c.slotAhead hand d) = cache (c.slotAhead hand d) :=
  clearAhead_of_ne fun _ he => slotAhead_ne he hd

/-- One step of the sweep clears one more bit. -/
theorem clearAhead_succ (cache : ℕ → PageInfo) (hand d : ℕ) :
    c.clearAhead cache hand (d + 1) =
      clearBit (c.clearAhead cache hand d) (c.slotAhead hand d) := by
  funext i
  by_cases hi : c.slotAhead hand d = i
  · subst hi
    rw [clearBit_self, clearAhead, clearAhead, if_pos ⟨d, Nat.lt_succ_self d, rfl⟩]
    split <;> rfl
  · rw [clearBit_of_ne (Ne.symm hi), clearAhead, clearAhead]
    refine if_congr ⟨?_, ?_⟩ rfl rfl
    · rintro ⟨e, he, heq⟩
      rcases Nat.eq_or_lt_of_le (Nat.le_of_lt_succ he) with rfl | hlt
      · exact absurd heq hi
      · exact ⟨e, hlt, heq⟩
    · rintro ⟨e, he, heq⟩
      exact ⟨e, Nat.lt_succ_of_lt he, heq⟩

/-! ### The loop -/

/-- A clear access bit ends the sweep: the slot is the victim, and the hand moves past it. -/
theorem clockSweep_of_zero (hhand : hand < c.cacheSlots)
    (hbit : (cache hand).accessBit = 0) (fuel : ℕ) :
    c.clockSweep (fuel + 1) cache hand = some (hand, cache, (hand + 1) % c.cacheSlots) := by
  rw [clockSweep, if_pos hhand, if_pos hbit]

/-- A set access bit is cleared, and the sweep goes on at the next slot. -/
theorem clockSweep_of_ne_zero (hhand : hand < c.cacheSlots)
    (hbit : (cache hand).accessBit ≠ 0) (fuel : ℕ) :
    c.clockSweep (fuel + 1) cache hand =
      c.clockSweep fuel (clearBit cache hand) ((hand + 1) % c.cacheSlots) := by
  rw [clockSweep, if_pos hhand, if_neg hbit]

/-- **The first `d` turns of a sweep** pass over slots whose bits are set. Induction on `d`:
the bit that the last of these turns tests has not been cleared by an earlier one. -/
theorem clockSweep_skip (hhand : hand < c.cacheSlots) (hd : d ≤ c.cacheSlots)
    (hset : ∀ e < d, (cache (c.slotAhead hand e)).accessBit ≠ 0) (fuel : ℕ) :
    c.clockSweep (d + fuel) cache hand =
      c.clockSweep fuel (c.clearAhead cache hand d) (c.slotAhead hand d) := by
  induction d generalizing fuel with
  | zero => rw [Nat.zero_add, clearAhead_zero, slotAhead_zero hhand]
  | succ d ih =>
      have hbit : (c.clearAhead cache hand d (c.slotAhead hand d)).accessBit ≠ 0 := by
        rw [clearAhead_next hd]
        exact hset d (Nat.lt_succ_self d)
      rw [Nat.add_assoc, Nat.add_comm 1 fuel,
        ih (Nat.le_of_succ_le hd) (fun e he => hset e (Nat.lt_succ_of_lt he)),
        clockSweep_of_ne_zero (slotAhead_lt hhand d) hbit, clearAhead_succ, slotAhead_succ]

/-- **Every sweep passes over some number of slots**: those before the first clear bit, or
all of them. -/
theorem exists_passes (cache : ℕ → PageInfo) (hand : ℕ) : ∃ d, c.Passes cache hand d := by
  by_cases hclear : ∃ d, d < c.cacheSlots ∧ (cache (c.slotAhead hand d)).accessBit = 0
  · obtain ⟨hlt, hbit⟩ := Nat.find_spec hclear
    refine ⟨Nat.find hclear, hlt.le, fun e he hzero => ?_, fun _ => hbit⟩
    exact Nat.find_min hclear he ⟨he.trans hlt, hzero⟩
  · refine ⟨c.cacheSlots, le_rfl, fun e he hzero => hclear ⟨e, he, hzero⟩, fun hlt => ?_⟩
    exact absurd hlt (lt_irrefl _)

namespace Passes

/-- The bit at which the sweep stops is clear by then. -/
theorem accessBit_stop (h : c.Passes cache hand d) (hhand : hand < c.cacheSlots) :
    (c.clearAhead cache hand d (c.slotAhead hand d)).accessBit = 0 := by
  rcases Nat.lt_or_eq_of_le h.le with hlt | rfl
  · rw [clearAhead_next hlt]
    exact h.stops hlt
  · -- full circle: the slot is the one that was passed over first
    have hback : c.slotAhead hand c.cacheSlots = c.slotAhead hand 0 := by
      rw [slotAhead_cacheSlots hhand, slotAhead_zero hhand]
    have hpos : 0 < c.cacheSlots := by omega
    rw [hback, clearAhead_of_lt hpos]

/-- **What a sweep does**: it ends in turn `d + 1` and not before. -/
theorem clockSweep (h : c.Passes cache hand d) (hhand : hand < c.cacheSlots) (fuel : ℕ) :
    c.clockSweep fuel cache hand =
      if d < fuel then
        some (c.slotAhead hand d, c.clearAhead cache hand d,
          (c.slotAhead hand d + 1) % c.cacheSlots)
      else none := by
  split
  · rename_i hlt
    obtain ⟨k, rfl⟩ := Nat.exists_eq_add_of_lt hlt
    rw [Nat.add_assoc, clockSweep_skip hhand h.le h.isSet]
    exact clockSweep_of_zero (slotAhead_lt hhand d) (h.accessBit_stop hhand) k
  · rename_i hge
    have hle : fuel ≤ d := Nat.le_of_not_lt hge
    exact clockSweep_skip hhand (hle.trans h.le)
      (fun e he => h.isSet e (Nat.lt_of_lt_of_le he hle)) 0

end Passes

end Config

/-- **The sweep of the clock ends.** From every hand on the array and whatever the access bits
are, the loop ends in turn `d + 1` and not before, for some `d` that is at most the number of
slots. The `d` slots from the hand on have their bits set, and the victim is the next one: the
first slot whose bit is clear, or the slot at the hand again if all bits are set. The bits of
the slots passed over are cleared, and nothing else in the cache changes. The hand is one past
the victim. -/
theorem clock_sweep_ends {c : Config} {hand : ℕ} (hhand : hand < c.cacheSlots)
    (cache : ℕ → PageInfo) :
    ∃ d ≤ c.cacheSlots, ∃ victim cache',
      (∀ fuel, c.clockSweep fuel cache hand =
        if d < fuel then some (victim, cache', (victim + 1) % c.cacheSlots) else none) ∧
      victim = c.slotAhead hand d ∧
      (∀ e < d, (cache (c.slotAhead hand e)).accessBit ≠ 0) ∧
      (d < c.cacheSlots ∧ (cache victim).accessBit = 0 ∨
        d = c.cacheSlots ∧ victim = hand ∧ ∀ i < c.cacheSlots, (cache i).accessBit ≠ 0) ∧
      (∀ e < d, cache' (c.slotAhead hand e) =
        { cache (c.slotAhead hand e) with accessBit := 0 }) ∧
      ∀ i, (∀ e < d, c.slotAhead hand e ≠ i) → cache' i = cache i := by
  obtain ⟨d, h⟩ : ∃ d, c.Passes cache hand d := Config.exists_passes cache hand
  refine ⟨d, h.le, _, _, h.clockSweep hhand, rfl, h.isSet, ?_,
    fun e he => Config.clearAhead_of_lt he, fun i hi => Config.clearAhead_of_ne hi⟩
  rcases Nat.lt_or_eq_of_le h.le with hlt | rfl
  · exact Or.inl ⟨hlt, h.stops hlt⟩
  · refine Or.inr ⟨rfl, Config.slotAhead_cacheSlots hhand, fun i hi => ?_⟩
    obtain ⟨e, he, rfl⟩ := Config.exists_slotAhead hand hi
    exact h.isSet e he

/-- A cache of three slots. -/
def threeSlots : Config := ⟨0x10000, 4096, 3, .clock⟩

/-- Its records, with the bit of the middle slot clear. -/
def middleClear (i : ℕ) : PageInfo :=
  ⟨0x10000 + 4096 * i, i + 1, i + 1, 1, if i = 1 then 0 else 1⟩

/-- From the last slot on the sweep wraps around; it ends at the middle slot, in its third
turn. -/
theorem clock_sweep_wraps :
    ∃ cache', (∀ fuel > 2, threeSlots.clockSweep fuel middleClear 2 = some (1, cache', 2)) ∧
      (cache' 2).accessBit = 0 ∧ (cache' 0).accessBit = 0 ∧ cache' 1 = middleClear 1 := by
  have hhand : 2 < threeSlots.cacheSlots := by decide
  obtain ⟨d, -, victim, cache', hsweep, rfl, hset, hstop, hcleared, hkept⟩ :=
    clock_sweep_ends hhand middleClear
  have hd : d = 2 := by
    rcases hstop with ⟨hlt, hbit⟩ | ⟨-, -, hall⟩
    · have hle : d ≤ 2 := Nat.le_of_lt_succ hlt
      obtain rfl | rfl | rfl : d = 0 ∨ d = 1 ∨ d = 2 := by omega
      · exact absurd hbit (by decide)
      · exact absurd hbit (by decide)
      · rfl
    · exact absurd rfl (hall 1 (by decide))
  subst hd
  refine ⟨cache', fun fuel hfuel => ?_, ?_, ?_, hkept 1 (by decide)⟩
  · rw [hsweep, if_pos hfuel]
    rfl
  · exact congrArg PageInfo.accessBit (hcleared 0 (by decide))
  · exact congrArg PageInfo.accessBit (hcleared 1 (by decide))

end OsLabs.SqrtTable
