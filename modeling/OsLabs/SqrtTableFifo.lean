import OsLabs.SqrtTableRecency

/-!
# Clock and LRU Are the Same Policy

Neither policy sees the hits: `LRU` compares the times at which pages were loaded, and
the reference bits that `CLOCK` sweeps are set only on a load. Both therefore replace
pages in the order in which they were loaded. `Fifo` is that cache: fault number `t`
takes slot `t % n`.

`FifoSim` relates a state of the program to a `Fifo`. Under `LRU` the timestamps count up
along the slots from the next victim on; under `CLOCK` the hand is at the next victim,
and the bits that are clear are those from the hand on, except right after a full turn,
when none is.

## Main results

* `Config.Assumed.evicts_victim`: the victim that the theorems speak of is the page that is
  unmapped.
* `FifoSim.chooseVictim`: both policies choose slot `t % n` at fault `t`.
* `FifoSim.fault`: one fault of the program is one fault of the abstract cache.
* `loads_fifo`: whole runs.
* `clock_eq_lru`: the two policies fault on the same accesses, evict the same slots and
  pages, and hold the same pages slot by slot.
-/

namespace OsLabs.SqrtTable

variable {α : Type} {c : Config} {os : Os} {f : ℤ → α}

/-! ### The abstract cache -/

/-- A cache that replaces pages in the order they were loaded: the number of faults so
far and the page of each slot. -/
structure Fifo where
  faults : ℕ
  base : ℕ → ℕ

namespace Fifo

/-- The page is in one of the `n` slots. -/
def Holds (n : ℕ) (a : Fifo) (q : ℕ) : Prop := ∃ i < min a.faults n, a.base i = q

instance (n : ℕ) (a : Fifo) (q : ℕ) : Decidable (a.Holds n q) :=
  inferInstanceAs (Decidable (∃ i < min a.faults n, a.base i = q))

/-- The cache after a fault on page `q`. -/
def load (n : ℕ) (a : Fifo) (q : ℕ) : Fifo :=
  ⟨a.faults + 1, Function.update a.base (a.faults % n) q⟩

/-- An access to page `q`: the number of its faults and the cache after it. -/
def access (n : ℕ) (a : Fifo) (q : ℕ) : ℕ × Fifo :=
  if a.Holds n q then (0, a) else (1, a.load n q)

/-- Accesses in sequence. -/
def run (n : ℕ) : List ℕ → Fifo → List ℕ × Fifo
  | [], a => ([], a)
  | q :: qs, a =>
    let (k, a) := a.access n q
    let (ks, a) := run n qs a
    (k :: ks, a)

/-- The slot and the page that an access to `q` evicts. -/
def victim (n : ℕ) (a : Fifo) (q : ℕ) : Option (ℕ × ℕ) :=
  if a.Holds n q ∨ a.faults < n then none
  else some (a.faults % n, a.base (a.faults % n))

end Fifo

/-- The slot and the page that an access to `addr` evicts, if it faults on a full cache. -/
def Config.victim (c : Config) (addr : ℕ) (s : State α) : Option (ℕ × ℕ) :=
  if c.page addr ∈ s.mapped ∨ s.cacheCount < c.cacheSlots then none
  else (c.chooseVictim s).map fun r => (r.1, (r.2.cache r.1).base)

/-- A read of `addr` faults once, and its page takes slot `v` from the page at `base`, which
is then the only one that is no longer mapped. -/
def Config.Evicts (c : Config) (os : Os) (f : ℤ → α) (zero : α) (fuel addr : ℕ) (s : State α)
    (v base : ℕ) : Prop :=
  ∃ s', c.load os f zero fuel addr s = some (s'.word addr, 1, s') ∧ (s.cache v).base = base ∧
    (s'.cache v).base = c.page addr ∧ s'.mapped = insert (c.page addr) (s.mapped.erase base)

/-- **`victim` is what a fault on a full cache evicts**: its slot gets the new page and its
page is no longer mapped. -/
theorem Config.Assumed.evicts_victim (h : c.Assumed os) (zero : α) {s : State α}
    (hs : Resident c f s) {addr : ℕ} (haddr : c.InTable addr) {v base : ℕ}
    (hv : c.victim addr s = some (v, base)) (fuel : ℕ) :
    c.Evicts os f zero (fuel + 2) addr s v base := by
  rw [victim] at hv
  split at hv
  · cases hv
  rename_i hnone
  rw [not_or, not_lt] at hnone
  obtain ⟨hmem, hfull⟩ := hnone
  obtain ⟨v', cache, hand, hchoose, -, -, hrec⟩ := chooseVictim_spec h.slots_pos hs.hand_lt
  rw [hchoose, Option.map_some, Option.some.injEq, Prod.mk.injEq] at hv
  obtain ⟨rfl, rfl⟩ := hv
  rcases load_cases zero h hs haddr fuel with
    ⟨hmem', -⟩ | ⟨-, i, s', hload, hfault, -, hchosen, -⟩
  · exact absurd hmem' hmem
  rcases hchosen with ⟨hfree, -⟩ | ⟨cache', -, hchoose', -⟩
  · omega
  rw [hchoose, Option.some.injEq, Prod.mk.injEq] at hchoose'
  obtain ⟨rfl, -⟩ := hchoose'
  refine ⟨s', hload, (hrec v').1.symm, hfault.base_self, ?_⟩
  rcases hfault.change with ⟨hfree, -⟩ | ⟨-, -, -, hmapped⟩
  · omega
  · rw [hmapped]
    simp only [(hrec v').1]

/-! ### Counting modulo the number of slots -/

/-- The slot after slot `t % n`. -/
theorem succ_mod_eq {n : ℕ} (hn : 0 < n) (t : ℕ) :
    (t + 1) % n = if t % n + 1 = n then 0 else t % n + 1 := by
  have hlt := Nat.mod_lt t hn
  rw [← Nat.mod_add_mod]
  split
  · rename_i heq
    rw [heq, Nat.mod_self]
  · exact Nat.mod_eq_of_lt (by omega)

/-! ### The refinement relation -/

/-- **The state of the program and the abstract cache**: the slots in use hold the same
pages; under `LRU` the fault that loaded a page is its timestamp; under `CLOCK` the hand
and the bits are as in the module's introduction. -/
structure FifoSim (c : Config) (s : State α) (a : Fifo) : Prop where
  count : s.cacheCount = min a.faults c.cacheSlots
  base : ∀ i < s.cacheCount, (s.cache i).base = a.base i
  counter : c.policy = .lru → s.accessCounter = a.faults
  lastAcc : c.policy = .lru → ∀ t < a.faults, a.faults ≤ t + c.cacheSlots →
    (s.cache (t % c.cacheSlots)).lastAcc = t + 1
  hand : c.policy = .clock →
    s.clockHand = if a.faults < c.cacheSlots then 0 else a.faults % c.cacheSlots
  bits : c.policy = .clock → ∀ i < s.cacheCount, (s.cache i).accessBit = 0 ↔
    c.cacheSlots ≤ a.faults ∧ 0 < a.faults % c.cacheSlots ∧ a.faults % c.cacheSlots ≤ i

namespace FifoSim

variable {s s' : State α} {a : Fifo}

/-- The mapped pages are those of the abstract cache. -/
theorem mem_mapped_iff (h : FifoSim c s a) (hs : Resident c f s) {q : ℕ} :
    q ∈ s.mapped ↔ a.Holds c.cacheSlots q := by
  rw [hs.mapped, Fifo.Holds, ← h.count]
  refine exists_congr fun i => and_congr_right fun hi => ?_
  rw [h.base i hi]

/-- The victim of `LRU`: the least timestamp is at slot `t % n`. -/
theorem lruVictim (h : FifoSim c s a) (hp : c.policy = .lru) (hpos : 1 ≤ c.cacheSlots)
    (hfull : c.cacheSlots ≤ a.faults) :
    c.lruVictim s.cache = a.faults % c.cacheSlots := by
  obtain ⟨hlt, -, hall⟩ := Config.scan_spec hpos .lru s.cache
  -- the fault that took the victim's slot is the earliest of the last `n` ones
  obtain ⟨u, hun, hu, hmod⟩ := exists_mod_eq (a.faults - c.cacheSlots) hlt
  rw [Nat.sub_add_cancel hfull] at hu
  have hacc := h.lastAcc hp u hu (Nat.sub_le_iff_le_add.mp hun)
  have hfirst := h.lastAcc hp (a.faults - c.cacheSlots) (by omega) (by omega)
  have hslot : (a.faults - c.cacheSlots) % c.cacheSlots = a.faults % c.cacheSlots := by
    rw [← Nat.mod_eq_sub_mod hfull]
  have hle : (s.cache (c.scan Policy.lru.beats s.cache)).lastAcc ≤
      (s.cache (a.faults % c.cacheSlots)).lastAcc :=
    not_lt.mp fun hbeats => hall _ (Nat.mod_lt _ hpos) (decide_eq_true hbeats)
  rw [← hmod, hacc, ← hslot, hfirst] at hle
  obtain rfl : u = a.faults - c.cacheSlots := by omega
  rw [← hslot, hmod]
  rfl

/-- The victim of `CLOCK`: the sweep ends at slot `t % n`, after a full turn when that is
slot 0. -/
theorem clockSweep (h : FifoSim c s a) (hp : c.policy = .clock) (hpos : 1 ≤ c.cacheSlots)
    (hfull : c.cacheSlots ≤ a.faults) :
    ∃ cache, c.clockSweep (c.cacheSlots + 1) s.cache s.clockHand =
        some (a.faults % c.cacheSlots, cache, (a.faults + 1) % c.cacheSlots) ∧
      SameRecords s.cache cache ∧ ∀ j < c.cacheSlots, (cache j).accessBit = 0 ↔
        a.faults % c.cacheSlots = 0 ∨ a.faults % c.cacheSlots ≤ j := by
  have hlt := Nat.mod_lt a.faults hpos
  have hcount : s.cacheCount = c.cacheSlots := by rw [h.count, Nat.min_eq_right hfull]
  have hhand := h.hand hp
  have hbits := h.bits hp
  rw [if_neg (by omega)] at hhand
  rw [hcount] at hbits
  rw [← Nat.mod_add_mod, hhand]
  rcases Nat.eq_zero_or_pos (a.faults % c.cacheSlots) with hzero | hmid
  · -- all bits are set, so the sweep passes over every slot
    have hpasses : c.Passes s.cache 0 c.cacheSlots := by
      refine ⟨le_rfl, fun e _ => ?_, fun hlt => absurd hlt (lt_irrefl _)⟩
      rw [Ne, hbits _ (Config.slotAhead_lt hpos e)]
      omega
    refine ⟨c.clearAhead s.cache 0 c.cacheSlots, ?_, sameRecords_clearAhead s.cache 0 _,
      fun j hj => ⟨fun _ => Or.inl hzero, fun _ => ?_⟩⟩
    · rw [hzero, hpasses.clockSweep hpos, if_pos (Nat.lt_succ_self _),
        Config.slotAhead_cacheSlots hpos]
    · obtain ⟨e, he, rfl⟩ := Config.exists_slotAhead 0 hj
      rw [Config.clearAhead_of_lt he]
  · refine ⟨s.cache, ?_, fun j => ⟨rfl, rfl⟩, fun j hj => ?_⟩
    · exact Config.clockSweep_of_zero hlt ((hbits _ hlt).mpr ⟨hfull, hmid, le_rfl⟩) _
    · rw [hbits j hj]
      omega

/-- **Both policies choose slot `t % n` at fault `t`.** -/
theorem chooseVictim (h : FifoSim c s a) (hp : c.policy = .lru ∨ c.policy = .clock)
    (hpos : 1 ≤ c.cacheSlots) (hfull : c.cacheSlots ≤ a.faults) :
    ∃ cache hand, c.chooseVictim s =
        some (a.faults % c.cacheSlots, { s with cache, clockHand := hand }) ∧
      SameRecords s.cache cache ∧
      (c.policy = .clock → hand = (a.faults + 1) % c.cacheSlots ∧
        ∀ j < c.cacheSlots, (cache j).accessBit = 0 ↔
          a.faults % c.cacheSlots = 0 ∨ a.faults % c.cacheSlots ≤ j) := by
  rcases hp with hp | hp
  · refine ⟨s.cache, s.clockHand, ?_, fun j => ⟨rfl, rfl⟩, fun hp' => ?_⟩
    · rw [Config.chooseVictim, hp]
      simp only [h.lruVictim hp hpos hfull]
    · rw [hp] at hp'
      exact absurd hp' (by decide)
  · obtain ⟨cache, hsweep, hrec, hbits⟩ := h.clockSweep hp hpos hfull
    refine ⟨cache, _, ?_, hrec, fun _ => ⟨rfl, hbits⟩⟩
    rw [Config.chooseVictim, hp]
    simp [hsweep]

/-- At fault `t` the program takes slot `t % n`. -/
theorem slot_eq {i : ℕ} (h : FifoSim c s a) (hp : c.policy = .lru ∨ c.policy = .clock)
    (hpos : 1 ≤ c.cacheSlots) (hchosen : Chosen c s s' i) :
    i = a.faults % c.cacheSlots := by
  have hcount := h.count
  rcases hchosen with ⟨hfree, rfl, -, -⟩ | ⟨cache, hfull, hchoose, -⟩
  · rw [hcount, Nat.min_eq_left (by omega), Nat.mod_eq_of_lt (by omega)]
  · obtain ⟨cache', hand, hchoose', -⟩ := h.chooseVictim hp hpos (by omega)
    rw [hchoose', Option.some.injEq, Prod.mk.injEq] at hchoose
    exact hchoose.1.symm

/-- The hand and the bits after a fault under `CLOCK`. -/
theorem clock_fault {q i : ℕ} (h : FifoSim c s a) (hp : c.policy = .clock)
    (hpos : 1 ≤ c.cacheSlots) (hs : Resident c f s) (hfault : Faulted c f s s' q i)
    (hchosen : Chosen c s s' i) (hbit : (s'.cache i).accessBit = 1) :
    (s'.clockHand = if a.faults + 1 < c.cacheSlots then 0 else (a.faults + 1) % c.cacheSlots) ∧
      ∀ j < s'.cacheCount, (s'.cache j).accessBit = 0 ↔
        c.cacheSlots ≤ a.faults + 1 ∧ 0 < (a.faults + 1) % c.cacheSlots ∧
          (a.faults + 1) % c.cacheSlots ≤ j := by
  have hslot := h.slot_eq (Or.inr hp) hpos hchosen
  have hcount := h.count
  have hnext := succ_mod_eq hpos a.faults
  have hlt := Nat.mod_lt a.faults hpos
  rcases hchosen with ⟨hfree, hi, hhand, hbits⟩ | ⟨cache, hfull, hchoose, hbits⟩
  · have hmod : a.faults % c.cacheSlots = a.faults := Nat.mod_eq_of_lt (by omega)
    rw [hmod] at hnext hslot
    rw [hhand, h.hand hp, if_pos (by omega), hnext]
    refine ⟨?_, fun j hj => ?_⟩
    · by_cases hend : a.faults + 1 = c.cacheSlots
      · rw [if_neg (by omega), if_pos hend]
      · rw [if_pos (by omega)]
    have hiff : (s'.cache j).accessBit ≠ 0 := by
      by_cases hji : j = i
      · rw [hji, hbit]
        exact one_ne_zero
      · have hj' := ((hfault.lt_count_iff hs.count_le).mp hj).resolve_left hji
        rw [hbits j hji, Ne, h.bits hp j hj']
        omega
    refine ⟨fun hz => absurd hz hiff, fun hj' => ?_⟩
    split at hj' <;> omega
  · obtain ⟨cache', hand, hchoose', -, hclock⟩ := h.chooseVictim (Or.inr hp) hpos (by omega)
    rw [hchoose', Option.some.injEq, Prod.mk.injEq, State.mk.injEq] at hchoose
    obtain ⟨-, hcache, -, -, hhand, -⟩ := hchoose
    obtain ⟨hhand', hbits'⟩ := hclock hp
    subst hcache
    refine ⟨by rw [← hhand, hhand', if_neg (by omega)], fun j hj => ?_⟩
    have hjn : j < c.cacheSlots := by
      rcases (hfault.lt_count_iff hs.count_le).mp hj with rfl | hj'
      · exact hfault.slot_lt
      · omega
    by_cases hji : j = i
    · rw [hji, hbit, hslot, hnext]
      refine ⟨fun hone => absurd hone one_ne_zero, fun hj' => ?_⟩
      split at hj' <;> omega
    · rw [hbits j hji, hbits' j hjn, hnext]
      split <;> omega

/-- **One fault** of the program is one fault of the abstract cache. -/
theorem fault {q i : ℕ} (h : FifoSim c s a) (hp : c.policy = .lru ∨ c.policy = .clock)
    (hpos : 1 ≤ c.cacheSlots) (hs : Resident c f s) (hfault : Faulted c f s s' q i)
    (hchosen : Chosen c s s' i) (hbit : c.policy = .clock → (s'.cache i).accessBit = 1)
    (hlt : a.faults + 1 < wordSize) : FifoSim c s' (a.load c.cacheSlots q) := by
  have hslot := h.slot_eq hp hpos hchosen
  have hcount := h.count
  have hcounter : c.policy = .lru → s'.accessCounter = a.faults + 1 := fun hlru => by
    rw [hfault.counter, h.counter hlru, Nat.mod_eq_of_lt hlt]
  refine ⟨?_, fun j hj => ?_, hcounter, fun hlru t ht htn => ?_, fun hclock => ?_,
    fun hclock => ?_⟩
  · simp only [Fifo.load]
    rcases hfault.change with ⟨hfree, -, hnew, -, -⟩ | ⟨hfull, hnew, -, -⟩
    · omega
    · omega
  · simp only [Fifo.load]
    rcases hfault.slot_cases hs.count_le hj with ⟨rfl, hbase, -⟩ | ⟨hji, hj', hbase, -⟩
    · rw [hbase, hslot, Function.update_self]
    · rw [hbase, h.base j hj', Function.update_of_ne (by rwa [← hslot])]
  · simp only [Fifo.load] at ht htn
    rcases Nat.lt_succ_iff_lt_or_eq.mp ht with ht' | rfl
    · have hne : t % c.cacheSlots ≠ i := by
        rw [hslot]
        exact mod_ne_of_lt ht' (by omega)
      rw [(hfault.other _ hne).2]
      exact h.lastAcc hlru t ht' (by omega)
    · rw [← hslot, hfault.lastAcc_self, hcounter hlru]
  · exact (h.clock_fault hclock hpos hs hfault hchosen (hbit hclock)).1
  · exact (h.clock_fault hclock hpos hs hfault hchosen (hbit hclock)).2

/-- What the next access evicts: the page that the abstract cache loses, if the access is a
fault. -/
theorem victim_eq (h : FifoSim c s a) (hp : c.policy = .lru ∨ c.policy = .clock)
    (hpos : 1 ≤ c.cacheSlots) (hs : Resident c f s) (addr : ℕ) :
    c.victim addr s = a.victim c.cacheSlots (c.page addr) := by
  have hcount := h.count
  have hiff : (c.page addr ∈ s.mapped ∨ s.cacheCount < c.cacheSlots) ↔
      (a.Holds c.cacheSlots (c.page addr) ∨ a.faults < c.cacheSlots) := by
    rw [h.mem_mapped_iff hs]
    exact or_congr_right (by omega)
  rw [Config.victim, Fifo.victim]
  by_cases hnone : a.Holds c.cacheSlots (c.page addr) ∨ a.faults < c.cacheSlots
  · rw [if_pos (hiff.mpr hnone), if_pos hnone]
  · rw [if_neg (mt hiff.mp hnone), if_neg hnone]
    rw [not_or, not_lt] at hnone
    obtain ⟨cache, hand, hchoose, hrec, -⟩ := h.chooseVictim hp hpos hnone.2
    have hlt := Nat.mod_lt a.faults hpos
    rw [hchoose, Option.map_some]
    simp only [(hrec _).1, h.base _ (by omega : a.faults % c.cacheSlots < s.cacheCount)]

end FifoSim

/-! ### Runs -/

/-- An access and the accesses after it. -/
theorem Fifo.run_cons {n q k : ℕ} {qs : List ℕ} {a b : Fifo} (h : a.access n q = (k, b)) :
    Fifo.run n (q :: qs) a = (k :: (Fifo.run n qs b).1, (Fifo.run n qs b).2) := by
  rw [Fifo.run, h]

/-- **Whole runs** under `LRU` and `CLOCK` are runs of the abstract cache, as long as the
counter of faults does not wrap around on either side. -/
theorem loads_fifo (zero : α) (h : c.Assumed os)
    (hp : c.policy = .lru ∨ c.policy = .clock) (fuel : ℕ) {addrs : List ℕ}
    (haddrs : ∀ x ∈ addrs, c.InTable x) {s : State α} {a : Fifo} (hs : Resident c f s)
    (hsim : FifoSim c s a) :
    ∃ results s', c.loads os f zero (fuel + 2) addrs s = some (results, s') ∧
      Resident c f s' ∧
      (a.faults + (results.map Prod.snd).sum < wordSize ∨
          a.faults + (Fifo.run c.cacheSlots (addrs.map c.page) a).1.sum < wordSize →
        results.map Prod.snd = (Fifo.run c.cacheSlots (addrs.map c.page) a).1 ∧
          FifoSim c s' (Fifo.run c.cacheSlots (addrs.map c.page) a).2) := by
  induction addrs generalizing s a with
  | nil => exact ⟨[], s, rfl, hs, fun _ => ⟨rfl, hsim⟩⟩
  | cons addr addrs ih =>
      have hrest := fun x hx => haddrs x (List.mem_cons_of_mem addr hx)
      rcases Config.load_cases zero h hs (haddrs addr List.mem_cons_self) fuel with
        ⟨hmem, hload⟩ | ⟨hmem, i, s₁, hload, hfault, hs₁, hchosen, hbit⟩
      · obtain ⟨results, s', hloads, hs', hrun⟩ := ih hrest hs hsim
        have hold : a.access c.cacheSlots (c.page addr) = (0, a) :=
          if_pos ((hsim.mem_mapped_iff hs).mp hmem)
        refine ⟨_, s', Config.loads_cons hload hloads, hs', fun hlt => ?_⟩
        rw [List.map_cons (f := c.page), Fifo.run_cons hold] at hlt ⊢
        simp only [List.map_cons, List.sum_cons, Nat.zero_add] at hlt
        obtain ⟨hfaults, hsim'⟩ := hrun hlt
        exact ⟨by rw [List.map_cons, hfaults], hsim'⟩
      · have hnew : a.access c.cacheSlots (c.page addr) =
            (1, a.load c.cacheSlots (c.page addr)) :=
          if_neg (mt (hsim.mem_mapped_iff hs).mpr hmem)
        by_cases hroom : a.faults + 1 < wordSize
        · obtain ⟨results, s', hloads, hs', hrun⟩ :=
            ih hrest hs₁ (hsim.fault hp h.slots_pos hs hfault hchosen hbit hroom)
          refine ⟨_, s', Config.loads_cons hload hloads, hs', fun hlt => ?_⟩
          rw [List.map_cons (f := c.page), Fifo.run_cons hnew] at hlt ⊢
          simp only [List.map_cons, List.sum_cons, ← Nat.add_assoc] at hlt
          obtain ⟨hfaults, hsim'⟩ := hrun hlt
          exact ⟨by rw [List.map_cons, hfaults], hsim'⟩
        · -- this fault already wraps the counter around
          obtain ⟨results, s', hloads, -, hs', -⟩ := Config.loads_spec zero h fuel hrest hs₁
          refine ⟨_, s', Config.loads_cons hload hloads, hs', fun hlt => ?_⟩
          rw [List.map_cons (f := c.page), Fifo.run_cons hnew] at hlt
          simp only [List.map_cons, List.sum_cons] at hlt
          omega

/-- The empty cache is the abstract cache without faults. -/
theorem fifoSim_init (h : c.Assumed os) (cache : ℕ → PageInfo) (word : ℕ → α) :
    FifoSim c (State.init cache word) ⟨0, fun _ => 0⟩ where
  count := (Nat.zero_min _).symm
  base i hi := absurd hi (Nat.not_lt_zero i)
  counter _ := rfl
  lastAcc _ t ht := absurd ht (Nat.not_lt_zero t)
  hand _ := (if_pos h.slots_pos).symm
  bits _ i hi := absurd hi (Nat.not_lt_zero i)

/-- The same program with another policy. -/
def Config.withPolicy (c : Config) (p : Policy) : Config := { c with policy := p }

/-- The assumptions do not speak of the policy. -/
theorem Config.Assumed.withPolicy (h : c.Assumed os) (p : Policy) :
    (c.withPolicy p).Assumed os := { h with }

/-- **`CLOCK` and `LRU` are the same policy.** For every number of slots and every finite
sequence of accesses from the empty cache, with fewer than `2 ^ 64` faults on one of the
two sides: both policies fault on the same accesses, hold the same pages slot by slot
after the sequence, and every further access evicts the same slot and page, if any: this
slot is the one that gets the new page, and this page is the one that is unmapped. -/
theorem clock_eq_lru (h : c.Assumed os) (f : ℤ → α) (zero : α)
    (cache₁ cache₂ : ℕ → PageInfo) (word₁ word₂ : ℕ → α) (fuel : ℕ) {addrs : List ℕ}
    (haddrs : ∀ x ∈ addrs, c.InTable x) :
    ∃ results₁ s₁ results₂ s₂,
      (c.withPolicy .lru).loads os f zero (fuel + 2) addrs (State.init cache₁ word₁) =
        some (results₁, s₁) ∧
      (c.withPolicy .clock).loads os f zero (fuel + 2) addrs (State.init cache₂ word₂) =
        some (results₂, s₂) ∧
      ((results₁.map Prod.snd).sum < 2 ^ 64 ∨ (results₂.map Prod.snd).sum < 2 ^ 64 →
        results₁.map Prod.snd = results₂.map Prod.snd ∧
        s₁.cacheCount = s₂.cacheCount ∧
        (∀ i < s₁.cacheCount, (s₁.cache i).base = (s₂.cache i).base) ∧
        ∀ addr, c.InTable addr →
          (c.withPolicy .lru).victim addr s₁ = (c.withPolicy .clock).victim addr s₂ ∧
          ∀ v base, (c.withPolicy .lru).victim addr s₁ = some (v, base) →
            (c.withPolicy .lru).Evicts os f zero (fuel + 2) addr s₁ v base ∧
            (c.withPolicy .clock).Evicts os f zero (fuel + 2) addr s₂ v base) := by
  have h₁ := h.withPolicy .lru
  have h₂ := h.withPolicy .clock
  obtain ⟨results₁, s₁, hrun₁, hs₁, hsim₁⟩ := loads_fifo zero h₁ (Or.inl rfl) fuel haddrs
    (resident_init (f := f) h₁ cache₁ word₁) (fifoSim_init h₁ cache₁ word₁)
  obtain ⟨results₂, s₂, hrun₂, hs₂, hsim₂⟩ := loads_fifo zero h₂ (Or.inr rfl) fuel haddrs
    (resident_init (f := f) h₂ cache₂ word₂) (fifoSim_init h₂ cache₂ word₂)
  refine ⟨results₁, s₁, results₂, s₂, hrun₁, hrun₂, fun hlt => ?_⟩
  rw [Nat.zero_add, Nat.zero_add] at hsim₁ hsim₂
  -- the abstract run of the two sides is one and the same
  have hroom : (Fifo.run c.cacheSlots (addrs.map c.page) ⟨0, fun _ => 0⟩).1.sum < wordSize := by
    rcases hlt with hlt | hlt
    · rw [(hsim₁ (Or.inl hlt)).1] at hlt
      exact hlt
    · rw [(hsim₂ (Or.inl hlt)).1] at hlt
      exact hlt
  obtain ⟨hfaults₁, hsim₁'⟩ := hsim₁ (Or.inr hroom)
  obtain ⟨hfaults₂, hsim₂'⟩ := hsim₂ (Or.inr hroom)
  have hcount : s₁.cacheCount = s₂.cacheCount := hsim₁'.count.trans hsim₂'.count.symm
  refine ⟨hfaults₁.trans hfaults₂.symm, hcount, fun i hi => ?_, fun addr haddr => ?_⟩
  · exact (hsim₁'.base i hi).trans (hsim₂'.base i (hcount ▸ hi)).symm
  · have hvictim : (c.withPolicy .lru).victim addr s₁ = (c.withPolicy .clock).victim addr s₂ :=
      (hsim₁'.victim_eq (Or.inl rfl) h.slots_pos hs₁ addr).trans
        (hsim₂'.victim_eq (Or.inr rfl) h.slots_pos hs₂ addr).symm
    exact ⟨hvictim, fun v base hv => ⟨h₁.evicts_victim zero hs₁ haddr hv fuel,
      h₂.evicts_victim zero hs₂ haddr (hvictim ▸ hv) fuel⟩⟩

/-- Four accesses through a cache of two pages, and the page that a fifth one evicts. -/
theorem clock_eq_lru_two_pages :
    ∃ results₁ s₁ results₂ s₂,
      ((twoPages .mru).withPolicy .lru).loads limitOnly id 0 2
          [0x10000, 0x11000, 0x10008, 0x12000]
          (State.init (fun _ => ⟨7, 7, 7, 7, 7⟩) fun _ => 0) = some (results₁, s₁) ∧
      ((twoPages .mru).withPolicy .clock).loads limitOnly id 0 2
          [0x10000, 0x11000, 0x10008, 0x12000]
          (State.init (fun _ => ⟨7, 7, 7, 7, 7⟩) fun _ => 0) = some (results₂, s₂) ∧
      results₁.map Prod.snd = [1, 1, 0, 1] ∧ results₂.map Prod.snd = [1, 1, 0, 1] ∧
      ((twoPages .mru).withPolicy .lru).victim 0x10000 s₁ = some (1, 0x11000) ∧
      ((twoPages .mru).withPolicy .clock).victim 0x10000 s₂ = some (1, 0x11000) ∧
      ((twoPages .mru).withPolicy .lru).Evicts limitOnly id 0 2 0x10000 s₁ 1 0x11000 ∧
      ((twoPages .mru).withPolicy .clock).Evicts limitOnly id 0 2 0x10000 s₂ 1 0x11000 := by
  have hfaults : (((twoPages .mru).withPolicy .lru).loads limitOnly id 0 2
      [0x10000, 0x11000, 0x10008, 0x12000]
      (State.init (fun _ => ⟨7, 7, 7, 7, 7⟩) fun _ => 0)).map
        (fun r => (r.1.map Prod.snd, ((twoPages .mru).withPolicy .lru).victim 0x10000 r.2)) =
      some ([1, 1, 0, 1], some (1, 0x11000)) := by decide +kernel
  have haddrs : ∀ x ∈ [0x10000, 0x11000, 0x10008, 0x12000], (twoPages .mru).InTable x := by
    decide
  obtain ⟨results₁, s₁, results₂, s₂, hrun₁, hrun₂, heq⟩ :=
    clock_eq_lru (twoPages_assumed .mru) id 0 (fun _ => ⟨7, 7, 7, 7, 7⟩)
      (fun _ => ⟨7, 7, 7, 7, 7⟩) (fun _ => 0) (fun _ => 0) 0 haddrs
  rw [hrun₁, Option.map_some, Option.some.injEq, Prod.mk.injEq] at hfaults
  obtain ⟨hfaults, hv⟩ := hfaults
  obtain ⟨hsame, -, -, hvictim⟩ := heq (Or.inl (by rw [hfaults]; decide))
  obtain ⟨heqv, hevicts⟩ := hvictim 0x10000 (by decide)
  exact ⟨results₁, s₁, results₂, s₂, hrun₁, hrun₂, hfaults, by rw [← hsame, hfaults], hv,
    heqv ▸ hv, hevicts 1 0x11000 hv⟩

end OsLabs.SqrtTable
