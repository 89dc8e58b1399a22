import Mathlib.Tactic.Ring
import OsLabs.SqrtTableSweep

/-!
# Runs of the Square Root Table

Whatever the policy, a fault does one thing: it puts the faulting page into one slot of
the cache, in place of the page recorded there when the cache is full, and leaves the
other slots alone (`Faulted`). Everything else follows from that.

* `Resident` is the invariant of the addresses: the recorded bases are exactly the mapped
  pages, each once, and every mapped entry of the table holds its value.
* `Counted` is the invariant of the counters, as long as they have not wrapped around.

## Main results

* `clockSweep_spec`: the sweep of the clock ends within one turn and one step.
* `handleSigsegv_spec`: the handler succeeds, with the effect `Faulted`.
* `table_transparent`: every read faults at most once and returns the value of the full
  table.
* `cache_invariant`: the invariant of cache, mappings and counters over whole runs.
-/

namespace OsLabs.SqrtTable

variable {α : Type} {c : Config} {os : Os} {f : ℤ → α}

/-! ### Pages and entries -/

namespace Config.Assumed

/-- A page is no longer than the limit on mappings. -/
theorem pageSize_le (h : c.Assumed os) : c.pageSize ≤ 2 ^ 25 :=
  h.mmap_limit c.sqrts c.pageSize (h.mmap_ok c.sqrts ⟨le_rfl, by
    rw [maxSqrts, sizeofDouble]; omega⟩)

/-- A page is not empty, as its size is a power of two. -/
theorem pageSize_pos (h : c.Assumed os) : 0 < c.pageSize := by
  obtain ⟨k, hk⟩ := h.page_pow
  rw [hk]
  exact Nat.two_pow_pos k

/-- `align_down` finds the page of an address. -/
theorem alignDown_eq (h : c.Assumed os) {addr : ℕ} (haddr : c.InTable addr) :
    alignDown addr c.pageSize = c.page addr := by
  obtain ⟨k, hk⟩ := h.page_pow
  have hle := h.pageSize_le
  have hinside := h.inside
  rw [hk] at hle
  have hk25 : k ≤ 25 := (Nat.pow_le_pow_iff_right (by omega)).mp hle
  rw [alignDown, Config.page, hk]
  exact and_complement_pred (haddr.2.trans_le hinside) (by omega)

/-- The page of an address of the table lies in the table and contains the address. -/
theorem page_spec (h : c.Assumed os) {addr : ℕ} (haddr : c.InTable addr) :
    c.pageSize ∣ c.page addr ∧ c.sqrts ≤ c.page addr ∧ c.page addr ≤ addr ∧
      addr < c.page addr + c.pageSize := by
  have hmod := Nat.div_add_mod addr c.pageSize
  have hlt := Nat.mod_lt addr h.pageSize_pos
  obtain ⟨n, hn⟩ := h.aligned
  have hle : n ≤ addr / c.pageSize := by
    rw [Nat.le_div_iff_mul_le h.pageSize_pos, Nat.mul_comm, ← hn]
    exact haddr.1
  refine ⟨⟨_, rfl⟩, ?_, ?_, ?_⟩
  · rw [hn]
    exact Nat.mul_le_mul_left _ hle
  · rw [Config.page]
    omega
  · rw [Config.page]
    omega

end Config.Assumed

/-- The page of an address is the only one that contains it. -/
theorem Config.page_eq {q addr : ℕ} (hdvd : c.pageSize ∣ q) (hle : q ≤ addr)
    (hlt : addr < q + c.pageSize) : c.page addr = q := by
  obtain ⟨m, rfl⟩ := hdvd
  rw [Config.page, Nat.div_eq_of_lt_le (by rwa [Nat.mul_comm]) ?_]
  rw [Nat.succ_mul, Nat.mul_comm]
  exact hlt

/-- A position below the number of roots has its entry in the table. -/
theorem Config.entry_inTable {pos : ℕ} (hpos : pos < maxSqrts) : c.InTable (c.entry pos) := by
  rw [Config.InTable, Config.entry, sizeofDouble]
  omega

/-! ### Choosing a victim -/

/-- The cache with at most access bits changed. -/
def SameRecords (cache cache' : ℕ → PageInfo) : Prop :=
  ∀ i, (cache' i).base = (cache i).base ∧ (cache' i).lastAcc = (cache i).lastAcc

/-- Records that are kept twice are kept. -/
theorem SameRecords.trans {cache cache' cache'' : ℕ → PageInfo}
    (h : SameRecords cache cache') (h' : SameRecords cache' cache'') :
    SameRecords cache cache'' := fun i =>
  ⟨(h' i).1.trans (h i).1, (h' i).2.trans (h i).2⟩

/-- The sweep of the clock changes access bits only. -/
theorem sameRecords_clearAhead (cache : ℕ → PageInfo) (hand d : ℕ) :
    SameRecords cache (c.clearAhead cache hand d) := by
  intro i
  rw [Config.clearAhead]
  split
  · exact ⟨rfl, rfl⟩
  · exact ⟨rfl, rfl⟩

namespace Config

/-- The scan of the recency policies ends at a slot of the cache. -/
theorem scan_lt (hpos : 1 ≤ c.cacheSlots) (beats : ℕ → ℕ → Bool) (cache : ℕ → PageInfo) :
    c.scan beats cache < c.cacheSlots := by
  have hfold : ∀ (l : List ℕ) (best : ℕ × ℕ), (∀ i ∈ l, i < c.cacheSlots) →
      best.2 < c.cacheSlots →
      (l.foldl (fun (best : ℕ × ℕ) i =>
        if beats (cache i).lastAcc best.1 then ((cache i).lastAcc, i) else best) best).2 <
        c.cacheSlots := by
    intro l
    induction l with
    | nil => exact fun best _ hbest => hbest
    | cons i l ih =>
        intro best hl hbest
        rw [List.foldl_cons]
        refine ih _ (fun j hj => hl j (List.mem_cons_of_mem i hj)) ?_
        split
        · exact hl i List.mem_cons_self
        · exact hbest
  refine hfold _ _ (fun i hi => ?_) hpos
  rw [List.mem_range'_1] at hi
  omega

/-- **The sweep of the clock ends** within one turn and one step, at a slot of the cache,
with only access bits changed. -/
theorem clockSweep_spec {cache : ℕ → PageInfo} {hand : ℕ} (hhand : hand < c.cacheSlots) :
    ∃ v cache' hand', c.clockSweep (c.cacheSlots + 1) cache hand = some (v, cache', hand') ∧
      v < c.cacheSlots ∧ hand' < c.cacheSlots ∧ SameRecords cache cache' := by
  obtain ⟨d, h⟩ : ∃ d, c.Passes cache hand d := exists_passes cache hand
  refine ⟨_, _, _, (h.clockSweep hhand _).trans (if_pos (Nat.lt_succ_of_le h.le)),
    slotAhead_lt hhand d, Nat.mod_lt _ (by omega), sameRecords_clearAhead cache hand d⟩

/-- **Every policy chooses a slot of the cache** and changes at most access bits and the
hand. -/
theorem chooseVictim_spec {s : State α} (hpos : 1 ≤ c.cacheSlots)
    (hhand : s.clockHand < c.cacheSlots) :
    ∃ v cache hand, c.chooseVictim s = some (v, { s with cache, clockHand := hand }) ∧
      v < c.cacheSlots ∧ hand < c.cacheSlots ∧ SameRecords s.cache cache := by
  cases hp : c.policy with
  | lru =>
      refine ⟨c.lruVictim s.cache, s.cache, s.clockHand, ?_, scan_lt hpos _ s.cache, hhand,
        fun i => ⟨rfl, rfl⟩⟩
      rw [chooseVictim, hp]
  | mru =>
      refine ⟨c.mruVictim s.cache, s.cache, s.clockHand, ?_, scan_lt hpos _ s.cache, hhand,
        fun i => ⟨rfl, rfl⟩⟩
      rw [chooseVictim, hp]
  | clock =>
      obtain ⟨v, cache, hand, hsweep, hv, hhand', hrec⟩ :=
        clockSweep_spec hhand
      refine ⟨v, cache, hand, ?_, hv, hhand', hrec⟩
      rw [chooseVictim, hp]
      simp [hsweep]

end Config

/-! ### What a fault does -/

/-- Below `2 ^ 31` an `int` is the number. -/
theorem toInt_of_lt {x : ℕ} (h : x < 2 ^ 31) : toInt x = x := by
  refine Int.bmod_eq_of_le_mul_two ?_ ?_ <;> omega

/-- The loop of `calculate_sqrts` writes `nr` words. -/
theorem calculateSqrts_apply (word : ℕ → α) (p n : ℕ) (start : ℤ) {j : ℕ} (hj : j < n) :
    calculateSqrts f word p start n (p + sizeofDouble * j) = f (start + j) := by
  rw [calculateSqrts, Int.toNat_natCast]
  induction n with
  | zero => omega
  | succ n ih =>
      rw [List.range_succ, List.foldl_append, List.foldl_cons, List.foldl_nil]
      by_cases hjn : j = n
      · subst hjn
        rw [Function.update_self]
      · rw [Function.update_of_ne (by rw [sizeofDouble]; omega)]
        exact ih (by omega)

/-- The loop of `calculate_sqrts` writes no other word. -/
theorem calculateSqrts_of_ne (word : ℕ → α) (p n : ℕ) (start : ℤ) {a : ℕ}
    (ha : ∀ j < n, a ≠ p + sizeofDouble * j) :
    calculateSqrts f word p start n a = word a := by
  rw [calculateSqrts, Int.toNat_natCast]
  induction n with
  | zero => rfl
  | succ n ih =>
      rw [List.range_succ, List.foldl_append, List.foldl_cons, List.foldl_nil,
        Function.update_of_ne (ha n (by omega))]
      exact ih fun j hj => ha j (by omega)

/-- A fault either takes a fresh slot or evicts the page of a slot. -/
inductive SlotChange (c : Config) (s s' : State α) (q i : ℕ) : Prop where
  | fresh (hfree : s.cacheCount < c.cacheSlots) (hi : i = s.cacheCount)
      (hcount : s'.cacheCount = s.cacheCount + 1) (hevictions : s'.evictions = s.evictions)
      (hmapped : s'.mapped = insert q s.mapped)
  | evicted (hfull : c.cacheSlots ≤ s.cacheCount) (hcount : s'.cacheCount = s.cacheCount)
      (hevictions : s'.evictions = (s.evictions + 1) % wordSize)
      (hmapped : s'.mapped = insert q (s.mapped.erase (s.cache i).base))

/-- **The effect of a fault** on page `q`, whatever the policy: the page is mapped, filled
and recorded in slot `i`; no other slot and no word outside the page changes. -/
structure Faulted (c : Config) (f : ℤ → α) (s s' : State α) (q i : ℕ) : Prop where
  slot_lt : i < c.cacheSlots
  base_self : (s'.cache i).base = q
  lastAcc_self : (s'.cache i).lastAcc = s'.accessCounter
  other : ∀ j ≠ i, (s'.cache j).base = (s.cache j).base ∧
    (s'.cache j).lastAcc = (s.cache j).lastAcc
  counter : s'.accessCounter = (s.accessCounter + 1) % wordSize
  faults : s'.pageFaults = (s.pageFaults + 1) % wordSize
  hand_lt : s'.clockHand < c.cacheSlots
  change : SlotChange c s s' q i
  filled : ∀ pos < maxSqrts, c.page (c.entry pos) = q → s'.word (c.entry pos) = f pos
  frame : ∀ a, ¬ (q ≤ a ∧ a < q + c.pageSize) → s'.word a = s.word a

/-- How the slot of a fault was found: it is the first free one, or the victim of the
policy, whose sweep may have cleared bits and moved the hand on the way. -/
inductive Chosen (c : Config) (s s' : State α) (i : ℕ) : Prop where
  | fresh (hfree : s.cacheCount < c.cacheSlots) (hi : i = s.cacheCount)
      (hhand : s'.clockHand = s.clockHand)
      (hbits : ∀ j ≠ i, (s'.cache j).accessBit = (s.cache j).accessBit)
  | victim (cache : ℕ → PageInfo) (hfull : c.cacheSlots ≤ s.cacheCount)
      (hchoose : c.chooseVictim s = some (i, { s with cache, clockHand := s'.clockHand }))
      (hbits : ∀ j ≠ i, (s'.cache j).accessBit = (cache j).accessBit)

/-- **The invariant of the addresses**: the recorded bases are pages of the table, each
recorded once; exactly they are mapped; and the mapped entries hold their values. -/
structure Resident (c : Config) (f : ℤ → α) (s : State α) : Prop where
  count_le : s.cacheCount ≤ c.cacheSlots
  hand_lt : s.clockHand < c.cacheSlots
  aligned : ∀ i < s.cacheCount, c.pageSize ∣ (s.cache i).base
  inTable : ∀ i < s.cacheCount, c.InTable (s.cache i).base
  distinct : ∀ i < s.cacheCount, ∀ j < s.cacheCount,
    (s.cache i).base = (s.cache j).base → i = j
  mapped : ∀ p, p ∈ s.mapped ↔ ∃ i < s.cacheCount, (s.cache i).base = p
  value : ∀ pos < maxSqrts, c.page (c.entry pos) ∈ s.mapped → s.word (c.entry pos) = f pos

namespace Config

/-- What `record` writes: the page, the time, and for the clock the access bit. -/
theorem record_spec {i : ℕ} (hi : i < c.cacheSlots) (q : ℕ) (s : State α) :
    ∃ info : PageInfo, info.base = q ∧ info.lastAcc = (s.accessCounter + 1) % wordSize ∧
      (c.policy = .clock → info.accessBit = 1) ∧
      c.record i q s = some { s with
        cache := Function.update s.cache i info
        accessCounter := (s.accessCounter + 1) % wordSize } := by
  refine ⟨⟨q, (s.accessCounter + 1) % wordSize, (s.accessCounter + 1) % wordSize, 1,
    if c.policy = .clock then 1 else (s.cache i).accessBit⟩, rfl, rfl, fun hp => if_pos hp, ?_⟩
  rw [record, if_pos hi]

/-- The words of a page that has been mapped and filled. -/
theorem filled_words (f : ℤ → α) (zero : α) (h : c.Assumed os) {addr : ℕ}
    (haddr : c.InTable addr) (word : ℕ → α) :
    ∃ word', calculateSqrts f
        (fun a => if c.page addr ≤ a ∧ a < c.page addr + c.pageSize then zero else word a)
        (c.page addr) (toInt ((c.page addr - c.sqrts) / sizeofDouble))
        (toInt (c.pageSize / sizeofDouble)) = word' ∧
      (∀ pos < maxSqrts, c.page (c.entry pos) = c.page addr → word' (c.entry pos) = f pos) ∧
      ∀ a, ¬ (c.page addr ≤ a ∧ a < c.page addr + c.pageSize) → word' a = word a := by
  obtain ⟨hqdvd, hsq, hqa, -⟩ := h.page_spec haddr
  have hP := h.pageSize_le
  obtain ⟨n, hn⟩ := h.eight_dvd
  generalize c.page addr = q at *
  obtain ⟨d, hd⟩ : sizeofDouble ∣ q - c.sqrts :=
    h.eight_dvd.trans (Nat.dvd_sub hqdvd h.aligned)
  have hend : q < c.sqrts + maxSqrts * sizeofDouble := hqa.trans_lt haddr.2
  rw [sizeofDouble] at hn hd hend
  rw [maxSqrts] at hend
  rw [sizeofDouble, hd, hn, Nat.mul_div_cancel_left _ (by omega),
    Nat.mul_div_cancel_left _ (by omega), toInt_of_lt (by omega), toInt_of_lt (by omega), ← hn]
  refine ⟨_, rfl, ?_, ?_⟩
  · intro pos hpos hpage
    obtain ⟨-, -, hle, hlt⟩ := h.page_spec (c.entry_inTable hpos)
    rw [hpage] at hle hlt
    have hentry : c.entry pos = q + sizeofDouble * (pos - d) := by
      rw [entry, sizeofDouble] at hle ⊢
      omega
    rw [hentry, sizeofDouble] at hlt hle
    have hdpos : d ≤ pos := by
      rw [entry, sizeofDouble] at hentry
      omega
    have hindex : (d : ℤ) + (pos - d : ℕ) = pos := by omega
    rw [hentry, calculateSqrts_apply _ q n _ (by omega), hindex]
  · intro a ha
    rw [calculateSqrts_of_ne _ q n _ (fun j hj => ?_), if_neg ha]
    rw [sizeofDouble]
    omega

/-- The page that faulted gets a slot, before it is mapped. -/
theorem takeSlot_spec (h : c.Assumed os) {s : State α} (hs : Resident c f s) (q : ℕ) :
    ∃ i s₁, c.takeSlot os q s = some s₁ ∧
      i < c.cacheSlots ∧ (s₁.cache i).base = q ∧ (s₁.cache i).lastAcc = s₁.accessCounter ∧
      (∀ j ≠ i, (s₁.cache j).base = (s.cache j).base ∧
        (s₁.cache j).lastAcc = (s.cache j).lastAcc) ∧
      s₁.accessCounter = (s.accessCounter + 1) % wordSize ∧ s₁.pageFaults = s.pageFaults ∧
      s₁.clockHand < c.cacheSlots ∧ s₁.word = s.word ∧
      SlotChange c s { s₁ with mapped := insert q s₁.mapped } q i ∧ Chosen c s s₁ i ∧
      (c.policy = .clock → (s₁.cache i).accessBit = 1) := by
  by_cases hfull : s.cacheCount ≥ c.cacheSlots
  · have hcount : s.cacheCount = c.cacheSlots := le_antisymm hs.count_le hfull
    obtain ⟨v, cache, hand, hchoose, hv, hhand, hrec⟩ :=
      chooseVictim_spec h.slots_pos hs.hand_lt
    have hmunmap : os.munmap (cache v).base c.pageSize = true := by
      rw [(hrec v).1]
      exact h.munmap_ok _ (hs.inTable v (hcount ▸ hv))
    have hevict : c.evict os q s = c.record v q
        { s with cache, clockHand := hand, mapped := s.mapped.erase (cache v).base,
                 evictions := (s.evictions + 1) % wordSize } := by
      rw [evict]
      simp only [hchoose, Option.bind_eq_bind, Option.bind_some, hmunmap, if_true]
    obtain ⟨info, hbase, hacc, hbit, hrecord⟩ := record_spec hv q
      { s with cache, clockHand := hand, mapped := s.mapped.erase (cache v).base,
               evictions := (s.evictions + 1) % wordSize }
    refine ⟨v, _, (if_pos hfull).trans (hevict.trans hrecord), hv, ?_, ?_,
      fun j hj => ?_, rfl, rfl, hhand, rfl, SlotChange.evicted hfull rfl rfl ?_,
      Chosen.victim cache hfull hchoose fun j hj => ?_, fun hp => ?_⟩
    · simpa only [Function.update_self] using hbase
    · simpa only [Function.update_self] using hacc
    · simpa only [Function.update_of_ne hj] using hrec j
    · rw [(hrec v).1]
    · simp only [Function.update_of_ne hj]
    · simpa only [Function.update_self] using hbit hp
  · have hlt : s.cacheCount < c.cacheSlots := not_le.mp hfull
    obtain ⟨info, hbase, hacc, hbit, hrecord⟩ := record_spec hlt q s
    have happend : c.append q s = (c.record s.cacheCount q s).bind fun s =>
        some { s with cacheCount := s.cacheCount + 1 } := rfl
    rw [hrecord, Option.bind_some] at happend
    refine ⟨s.cacheCount, _, (if_neg hfull).trans happend, hlt, ?_, ?_, fun j hj => ?_, rfl,
      rfl, hs.hand_lt, rfl, SlotChange.fresh hlt rfl rfl rfl rfl,
      Chosen.fresh hlt rfl rfl fun j hj => ?_, fun hp => ?_⟩
    · simpa only [Function.update_self] using hbase
    · simpa only [Function.update_self] using hacc
    · simp only [Function.update_of_ne hj, and_self]
    · simp only [Function.update_of_ne hj]
    · simpa only [Function.update_self] using hbit hp

/-- The counter of faults plays no part in the choice of a victim. -/
theorem chooseVictim_of_pageFaults {s : State α} {n i hand : ℕ} {cache : ℕ → PageInfo}
    (hchoose : c.chooseVictim { s with pageFaults := n } =
      some (i, { s with pageFaults := n, cache, clockHand := hand })) :
    c.chooseVictim s = some (i, { s with cache, clockHand := hand }) := by
  rw [chooseVictim] at hchoose ⊢
  split at hchoose
  · simp only [Option.some.injEq, Prod.mk.injEq, State.mk.injEq] at hchoose ⊢
    obtain ⟨rfl, rfl, -, -, rfl, -⟩ := hchoose
    exact ⟨rfl, rfl⟩
  · simp only [Option.some.injEq, Prod.mk.injEq, State.mk.injEq] at hchoose ⊢
    obtain ⟨rfl, rfl, -, -, rfl, -⟩ := hchoose
    exact ⟨rfl, rfl⟩
  · simp only [Option.bind_eq_bind, Option.bind_eq_some_iff, Option.some.injEq,
      Prod.mk.injEq, State.mk.injEq] at hchoose ⊢
    obtain ⟨⟨v, cache', hand'⟩, hsweep, rfl, rfl, -, -, rfl, -⟩ := hchoose
    exact ⟨(v, cache', hand'), hsweep, by simp⟩

/-- **The handler succeeds**, with the effect of a fault on the page of the address. -/
theorem handleSigsegv_spec (zero : α) (h : c.Assumed os) {s : State α}
    (hs : Resident c f s) {addr : ℕ} (haddr : c.InTable addr) :
    ∃ i s', c.handleSigsegv os f zero addr s = some s' ∧ Faulted c f s s' (c.page addr) i ∧
      Chosen c s s' i ∧ (c.policy = .clock → (s'.cache i).accessBit = 1) := by
  have hpage := h.page_spec haddr
  have hmmap : os.mmap (c.page addr) c.pageSize = true :=
    h.mmap_ok _ ⟨hpage.2.1, hpage.2.2.1.trans_lt haddr.2⟩
  have hs₀ : Resident c f { s with pageFaults := (s.pageFaults + 1) % wordSize } := { hs with }
  obtain ⟨i, s₁, hslot, hi, hbase, hacc, hother, hcounter, hfaults, hhand, hword, hchange,
    hchosen, hbit⟩ := takeSlot_spec h hs₀ (c.page addr)
  obtain ⟨word, hcalc, hfilled, hframe⟩ := filled_words f zero h haddr s.word
  have hmap : c.mapPage os zero (c.page addr) s₁ = some { s₁ with
      mapped := insert (c.page addr) s₁.mapped
      word := fun a => if c.page addr ≤ a ∧ a < c.page addr + c.pageSize then zero
        else s.word a } := by
    rw [mapPage, if_pos hmmap, hword]
  have hrun : c.handleSigsegv os f zero addr s =
      (c.mapPage os zero (c.page addr) s₁).bind fun s => some { s with
        word := calculateSqrts f s.word (c.page addr)
          (toInt ((c.page addr - c.sqrts) / sizeofDouble))
          (toInt (c.pageSize / sizeofDouble)) } := by
    rw [handleSigsegv, if_pos haddr, h.alignDown_eq haddr]
    simp only [hslot, Option.bind_eq_bind, Option.bind_some]
  simp only [hmap, Option.bind_some, hcalc] at hrun
  refine ⟨i, _, hrun, ⟨hi, hbase, hacc, hother, hcounter, hfaults, hhand, ?_, hfilled, hframe⟩,
    ?_, hbit⟩
  · cases hchange with
    | fresh hfree hi hcount hevictions hmapped =>
        exact SlotChange.fresh hfree hi hcount hevictions hmapped
    | evicted hfull hcount hevictions hmapped =>
        exact SlotChange.evicted hfull hcount hevictions hmapped
  · cases hchosen with
    | fresh hfree hi hhand hbits => exact Chosen.fresh hfree hi hhand hbits
    | victim cache hfull hchoose hbits =>
        exact Chosen.victim cache hfull (chooseVictim_of_pageFaults hchoose) hbits

end Config

/-! ### What a fault preserves -/

/-- **The invariant of the counters** after `n` faults, while none has wrapped around. -/
structure Counted (s : State α) (n : ℕ) : Prop where
  faults : s.pageFaults = n
  counter : s.accessCounter = n
  balance : s.pageFaults = s.evictions + s.cacheCount
  lastAcc_le : ∀ i < s.cacheCount, (s.cache i).lastAcc ≤ s.accessCounter
  lastAcc_distinct : ∀ i < s.cacheCount, ∀ j < s.cacheCount,
    (s.cache i).lastAcc = (s.cache j).lastAcc → i = j

namespace Faulted

variable {s s' : State α} {q i : ℕ}

/-- The slots in use after a fault: the slot of the fault and those in use before it. -/
theorem lt_count_iff (h : Faulted c f s s' q i) (hs : s.cacheCount ≤ c.cacheSlots) {j : ℕ} :
    j < s'.cacheCount ↔ j = i ∨ j < s.cacheCount := by
  have hi := h.slot_lt
  rcases h.change with ⟨hfree, rfl, hcount, -, -⟩ | ⟨hfull, hcount, -, -⟩
  · omega
  · omega

/-- The record of each slot in use after a fault. -/
theorem slot_cases (h : Faulted c f s s' q i) (hs : s.cacheCount ≤ c.cacheSlots) {j : ℕ}
    (hj : j < s'.cacheCount) :
    (j = i ∧ (s'.cache j).base = q ∧ (s'.cache j).lastAcc = s'.accessCounter) ∨
      (j ≠ i ∧ j < s.cacheCount ∧ (s'.cache j).base = (s.cache j).base ∧
        (s'.cache j).lastAcc = (s.cache j).lastAcc) := by
  by_cases hji : j = i
  · subst hji
    exact Or.inl ⟨rfl, h.base_self, h.lastAcc_self⟩
  · exact Or.inr ⟨hji, ((h.lt_count_iff hs).mp hj).resolve_left hji, h.other j hji⟩

/-- The pages mapped after a fault: the new page and the pages of the other slots. -/
theorem mem_mapped_iff (h : Faulted c f s s' q i) (hs : Resident c f s) {p : ℕ} :
    p ∈ s'.mapped ↔ p = q ∨ ∃ j, j ≠ i ∧ j < s.cacheCount ∧ (s.cache j).base = p := by
  rcases h.change with ⟨-, rfl, -, -, hmapped⟩ | ⟨hfull, -, -, hmapped⟩
  · rw [hmapped, Finset.mem_insert, hs.mapped]
    refine or_congr_right ⟨?_, ?_⟩
    · rintro ⟨j, hj, hbase⟩
      exact ⟨j, by omega, hj, hbase⟩
    · rintro ⟨j, -, hj, hbase⟩
      exact ⟨j, hj, hbase⟩
  · rw [hmapped, Finset.mem_insert, Finset.mem_erase, hs.mapped]
    refine or_congr_right ⟨?_, ?_⟩
    · rintro ⟨hne, j, hj, rfl⟩
      refine ⟨j, fun hji => hne ?_, hj, rfl⟩
      rw [hji]
    · rintro ⟨j, hji, hj, rfl⟩
      have hi := h.slot_lt
      exact ⟨fun heq => hji (hs.distinct j hj i (by omega) heq), j, hj, rfl⟩

/-- **A fault on an unmapped page preserves the invariant of the addresses.** -/
theorem resident (h : Faulted c f s s' q i) (hs : Resident c f s) (hq : q ∉ s.mapped)
    (hdvd : c.pageSize ∣ q) (hin : c.InTable q) : Resident c f s' := by
  have hle := hs.count_le
  have hne : ∀ j < s.cacheCount, (s.cache j).base ≠ q := fun j hj heq =>
    hq ((hs.mapped q).mpr ⟨j, hj, heq⟩)
  refine ⟨?_, h.hand_lt, fun j hj => ?_, fun j hj => ?_, fun j hj k hk heq => ?_,
    fun p => ?_, fun pos hpos hpage => ?_⟩
  · have hlast := h.lt_count_iff hle (j := s'.cacheCount - 1)
    have hi := h.slot_lt
    omega
  · rcases h.slot_cases hle hj with ⟨-, hbase, -⟩ | ⟨-, hj, hbase, -⟩
    · rwa [hbase]
    · rw [hbase]
      exact hs.aligned j hj
  · rcases h.slot_cases hle hj with ⟨-, hbase, -⟩ | ⟨-, hj, hbase, -⟩
    · rwa [hbase]
    · rw [hbase]
      exact hs.inTable j hj
  · rcases h.slot_cases hle hj with ⟨rfl, hbase, -⟩ | ⟨-, hj, hbase, -⟩ <;>
      rcases h.slot_cases hle hk with ⟨rfl, hbase', -⟩ | ⟨-, hk, hbase', -⟩
    · rfl
    · exact absurd (by rw [← hbase', ← heq, hbase]) (hne k hk)
    · exact absurd (by rw [← hbase, heq, hbase']) (hne j hj)
    · exact hs.distinct j hj k hk (by rw [← hbase, heq, hbase'])
  · rw [h.mem_mapped_iff hs]
    constructor
    · rintro (rfl | ⟨j, hji, hj, rfl⟩)
      · exact ⟨i, (h.lt_count_iff hle).mpr (Or.inl rfl), h.base_self⟩
      · exact ⟨j, (h.lt_count_iff hle).mpr (Or.inr hj), (h.other j hji).1⟩
    · rintro ⟨j, hj, rfl⟩
      rcases h.slot_cases hle hj with ⟨-, hbase, -⟩ | ⟨hji, hj, hbase, -⟩
      · exact Or.inl hbase
      · exact Or.inr ⟨j, hji, hj, hbase.symm⟩
  · by_cases hpq : c.page (c.entry pos) = q
    · exact h.filled pos hpos hpq
    · -- the entry lies on another page, which was mapped before
      rw [h.frame _ fun hmem => hpq (Config.page_eq hdvd hmem.1 hmem.2)]
      obtain ⟨j, -, hj, hbase⟩ := ((h.mem_mapped_iff hs).mp hpage).resolve_left hpq
      exact hs.value pos hpos ((hs.mapped _).mpr ⟨j, hj, hbase⟩)

/-- **A fault preserves the invariant of the counters.** -/
theorem counted (h : Faulted c f s s' q i) (hs : Resident c f s) {n : ℕ} (hn : Counted s n)
    (hlt : n + 1 < wordSize) : Counted s' (n + 1) := by
  have hle := hs.count_le
  have hfaults : s'.pageFaults = n + 1 := by
    rw [h.faults, hn.faults, Nat.mod_eq_of_lt hlt]
  have hcounter : s'.accessCounter = n + 1 := by
    rw [h.counter, hn.counter, Nat.mod_eq_of_lt hlt]
  have hold : ∀ j < s.cacheCount, (s.cache j).lastAcc ≤ n := by
    intro j hj
    rw [← hn.counter]
    exact hn.lastAcc_le j hj
  refine ⟨hfaults, hcounter, ?_, fun j hj => ?_, fun j hj k hk heq => ?_⟩
  · have hbalance := hn.balance
    rw [hn.faults] at hbalance
    rcases h.change with ⟨-, -, hcount, hevictions, -⟩ | ⟨-, hcount, hevictions, -⟩
    · rw [hfaults, hcount, hevictions]
      omega
    · rw [hfaults, hcount, hevictions, Nat.mod_eq_of_lt (by omega)]
      omega
  · rcases h.slot_cases hle hj with ⟨-, -, hacc⟩ | ⟨-, hj, -, hacc⟩
    · exact hacc.le
    · have := hold j hj
      omega
  · rcases h.slot_cases hle hj with ⟨rfl, -, hacc⟩ | ⟨-, hj, -, hacc⟩ <;>
      rcases h.slot_cases hle hk with ⟨rfl, -, hacc'⟩ | ⟨-, hk, -, hacc'⟩
    · rfl
    · have := hold k hk
      omega
    · have := hold j hj
      omega
    · exact hn.lastAcc_distinct j hj k hk (by rw [← hacc, heq, hacc'])

end Faulted

/-! ### Runs -/

namespace Config

/-- **One read** is a hit, which changes nothing, or one fault and a hit. -/
theorem load_cases (zero : α) (h : c.Assumed os) {s : State α} (hs : Resident c f s)
    {addr : ℕ} (haddr : c.InTable addr) (fuel : ℕ) :
    (c.page addr ∈ s.mapped ∧
      c.load os f zero (fuel + 2) addr s = some (s.word addr, 0, s)) ∨
    (c.page addr ∉ s.mapped ∧ ∃ i s',
      c.load os f zero (fuel + 2) addr s = some (s'.word addr, 1, s') ∧
      Faulted c f s s' (c.page addr) i ∧ Resident c f s' ∧ Chosen c s s' i ∧
      (c.policy = .clock → (s'.cache i).accessBit = 1)) := by
  by_cases hmem : c.page addr ∈ s.mapped
  · exact Or.inl ⟨hmem, by rw [load, if_pos hmem]⟩
  · obtain ⟨i, s', hrun, hfault, hchosen⟩ := handleSigsegv_spec zero h hs haddr
    obtain ⟨hdvd, hle, hle', -⟩ := h.page_spec haddr
    have hmem' : c.page addr ∈ s'.mapped := (hfault.mem_mapped_iff hs).mpr (Or.inl rfl)
    refine Or.inr ⟨hmem, i, s', ?_, hfault,
      hfault.resident hs hmem hdvd ⟨hle, hle'.trans_lt haddr.2⟩, hchosen⟩
    rw [load, if_neg hmem, hrun]
    simp only [Option.bind_eq_bind, Option.bind_some]
    rw [load, if_pos hmem', Option.bind_some]

/-- **One read**: it ends with the page mapped, after at most one fault, and keeps the
invariants. -/
theorem load_spec (zero : α) (h : c.Assumed os) {s : State α} (hs : Resident c f s)
    {addr : ℕ} (haddr : c.InTable addr) (fuel : ℕ) :
    ∃ n s', c.load os f zero (fuel + 2) addr s = some (s'.word addr, n, s') ∧ n ≤ 1 ∧
      Resident c f s' ∧ c.page addr ∈ s'.mapped ∧
      ∀ m, Counted s m → m + n < wordSize → Counted s' (m + n) := by
  rcases load_cases zero h hs haddr fuel with ⟨hmem, hload⟩ | ⟨-, i, s', hload, hfault, hs', -⟩
  · exact ⟨0, s, hload, Nat.zero_le 1, hs, hmem, fun m hm _ => hm⟩
  · exact ⟨1, s', hload, le_rfl, hs', (hfault.mem_mapped_iff hs).mpr (Or.inl rfl),
      fun m hm hlt => hfault.counted hs hm hlt⟩

/-- A read and the reads after it. -/
theorem loads_cons {zero value : α} {fuel addr n : ℕ} {addrs : List ℕ} {s s₁ s' : State α}
    {results : List (α × ℕ)} (hload : c.load os f zero fuel addr s = some (value, n, s₁))
    (hloads : c.loads os f zero fuel addrs s₁ = some (results, s')) :
    c.loads os f zero fuel (addr :: addrs) s = some ((value, n) :: results, s') := by
  rw [loads, hload]
  simp only [Option.bind_eq_bind, Option.bind_some, hloads]

/-- **A run of reads** of addresses of the table succeeds and keeps the invariants. -/
theorem loads_spec (zero : α) (h : c.Assumed os) (fuel : ℕ) {addrs : List ℕ}
    (haddrs : ∀ a ∈ addrs, c.InTable a) {s : State α} (hs : Resident c f s) :
    ∃ results s', c.loads os f zero (fuel + 2) addrs s = some (results, s') ∧
      (∀ r ∈ results, r.2 ≤ 1) ∧ Resident c f s' ∧
      ∀ m, Counted s m → m + (results.map Prod.snd).sum < wordSize →
        Counted s' (m + (results.map Prod.snd).sum) := by
  induction addrs generalizing s with
  | nil =>
      refine ⟨[], s, rfl, ?_, hs, fun m hm _ => hm⟩
      intro r hr
      cases hr
  | cons addr addrs ih =>
      obtain ⟨n, s₁, hload, hn, hs₁, -, hcount₁⟩ :=
        load_spec zero h hs (haddrs addr List.mem_cons_self) fuel
      obtain ⟨results, s', hloads, hresults, hs', hcount⟩ :=
        ih (fun a ha => haddrs a (List.mem_cons_of_mem addr ha)) hs₁
      refine ⟨(s₁.word addr, n) :: results, s', loads_cons hload hloads, ?_, hs',
        fun m hm hlt => ?_⟩
      · exact List.forall_mem_cons.mpr ⟨hn, hresults⟩
      · rw [List.map_cons, List.sum_cons] at hlt ⊢
        rw [← Nat.add_assoc] at hlt ⊢
        exact hcount (m + n) (hcount₁ m hm (by omega)) hlt

/-- The values of a run of reads of entries are the entries of the full table. -/
theorem loads_values {zero : α} (h : c.Assumed os) (fuel : ℕ) {positions : List ℕ}
    (hpos : ∀ pos ∈ positions, pos < maxSqrts) {s : State α} (hs : Resident c f s)
    {results : List (α × ℕ)} {s' : State α}
    (hrun : c.loads os f zero (fuel + 2) (positions.map c.entry) s = some (results, s')) :
    results.map Prod.fst = positions.map fun pos : ℕ => f pos := by
  induction positions generalizing s results with
  | nil =>
      rw [List.map_nil, loads, Option.some.injEq, Prod.mk.injEq] at hrun
      rw [← hrun.1]
      rfl
  | cons pos positions ih =>
      have hlt := hpos pos List.mem_cons_self
      obtain ⟨n, s₁, hload, -, hs₁, hmapped, -⟩ :=
        load_spec zero h hs (c.entry_inTable hlt) fuel
      rw [List.map_cons, loads, hload] at hrun
      simp only [Option.bind_eq_bind, Option.bind_some, Option.bind_eq_some_iff,
        Option.some.injEq, Prod.mk.injEq, Prod.exists] at hrun
      obtain ⟨results', s₂, hrest, rfl, rfl⟩ := hrun
      rw [List.map_cons, List.map_cons, hs₁.value pos hlt hmapped,
        ih (fun p hp => hpos p (List.mem_cons_of_mem pos hp)) hs₁ hrest]

end Config

/-- The invariants hold in the state that `main` sets up. -/
theorem resident_init (h : c.Assumed os) (cache : ℕ → PageInfo) (word : ℕ → α) :
    Resident c f (State.init cache word) where
  count_le := Nat.zero_le _
  hand_lt := h.slots_pos
  aligned i hi := absurd hi (Nat.not_lt_zero i)
  inTable i hi := absurd hi (Nat.not_lt_zero i)
  distinct i hi := absurd hi (Nat.not_lt_zero i)
  mapped p := by simp [State.init]
  value pos _ hmem := absurd hmem (Finset.notMem_empty _)

/-- At the start no fault has been counted. -/
theorem counted_init (cache : ℕ → PageInfo) (word : ℕ → α) :
    Counted (State.init cache word) 0 where
  faults := rfl
  counter := rfl
  balance := rfl
  lastAcc_le i hi := absurd hi (Nat.not_lt_zero i)
  lastAcc_distinct i hi := absurd hi (Nat.not_lt_zero i)

/-- **The table is transparent.** Whatever the policy, the number of slots and the oracle,
every finite sequence of reads succeeds; each read faults at most once, and the values
are those of the full table. -/
theorem table_transparent (h : c.Assumed os) (f : ℤ → α) (zero : α) (cache : ℕ → PageInfo)
    (word : ℕ → α) (fuel : ℕ) {positions : List ℕ}
    (hpos : ∀ pos ∈ positions, pos < maxSqrts) :
    ∃ results s, c.loads os f zero (fuel + 2) (positions.map c.entry)
        (State.init cache word) = some (results, s) ∧
      (results.map Prod.fst = positions.map fun pos : ℕ => f pos) ∧
      ∀ r ∈ results, r.2 ≤ 1 := by
  have haddrs : ∀ a ∈ positions.map c.entry, c.InTable a := by
    intro a ha
    obtain ⟨pos, hmem, rfl⟩ := List.mem_map.mp ha
    exact c.entry_inTable (hpos pos hmem)
  have hinit : Resident c f (State.init cache word) := resident_init h cache word
  obtain ⟨results, s, hrun, hfaults, -⟩ := Config.loads_spec zero h fuel haddrs hinit
  exact ⟨results, s, hrun, Config.loads_values h fuel hpos hinit hrun, hfaults⟩

/-- A table at `0x10000` with pages of 4 KiB and a cache of one page. -/
def onePage : Config := ⟨0x10000, 4096, 1, .clock⟩

/-- An operating system that only enforces the limit on mappings. -/
def limitOnly : Os := ⟨fun _ len => len ≤ asLimit, fun _ _ => true⟩

/-- The cache of one page meets the assumptions. -/
theorem onePage_assumed : onePage.Assumed limitOnly where
  page_pow := ⟨12, rfl⟩
  eight_dvd := by decide
  aligned := by decide
  inside := by decide
  slots_pos := by decide
  mmap_ok _ _ := rfl
  munmap_ok _ _ := rfl
  mmap_limit _ _ h := of_decide_eq_true h

/-- Reads of two pages in turn, through a cache of one page. -/
theorem table_transparent_onePage :
    ∃ results s, onePage.loads limitOnly id 0 2 ([0, 600, 1].map onePage.entry)
        (State.init (fun _ => ⟨7, 7, 7, 7, 7⟩) fun _ => 0) = some (results, s) ∧
      (results.map Prod.fst = [0, 600, 1].map fun pos : ℕ => id (pos : ℤ)) ∧
      ∀ r ∈ results, r.2 ≤ 1 :=
  table_transparent onePage_assumed id 0 _ _ 0 (by decide)

/-- **The representation invariant** of cache, mappings and counters. -/
structure CacheInvariant (c : Config) (s : State α) : Prop where
  aligned : ∀ i < s.cacheCount, c.pageSize ∣ (s.cache i).base
  inTable : ∀ i < s.cacheCount, c.InTable (s.cache i).base
  distinct : ∀ i < s.cacheCount, ∀ j < s.cacheCount,
    (s.cache i).base = (s.cache j).base → i = j
  mapped : ∀ p, p ∈ s.mapped ↔ ∃ i < s.cacheCount, (s.cache i).base = p
  count_le : s.cacheCount ≤ c.cacheSlots
  balance : s.pageFaults = s.evictions + s.cacheCount
  lastAcc_distinct : ∀ i < s.cacheCount, ∀ j < s.cacheCount,
    (s.cache i).lastAcc = (s.cache j).lastAcc → i = j
  lastAcc_le : ∀ i < s.cacheCount, (s.cache i).lastAcc ≤ s.accessCounter
  hand_lt : s.clockHand < c.cacheSlots

/-- **The representation invariant holds over whole runs**: every finite sequence of
accesses inside the table succeeds, and with fewer than `2 ^ 64` faults it ends in a state
where the invariant holds. -/
theorem cache_invariant (h : c.Assumed os) (f : ℤ → α) (zero : α) (cache : ℕ → PageInfo)
    (word : ℕ → α) (fuel : ℕ) {addrs : List ℕ} (haddrs : ∀ a ∈ addrs, c.InTable a) :
    ∃ results s, c.loads os f zero (fuel + 2) addrs (State.init cache word) =
        some (results, s) ∧
      ((results.map Prod.snd).sum < 2 ^ 64 → CacheInvariant c s) := by
  obtain ⟨results, s, hrun, -, hs, hcount⟩ :=
    Config.loads_spec zero h fuel haddrs (resident_init (f := f) h cache word)
  refine ⟨results, s, hrun, fun hlt => ?_⟩
  obtain ⟨-, -, hbalance, hle, hdistinct⟩ :=
    hcount 0 (counted_init cache word) (by rwa [Nat.zero_add])
  exact ⟨hs.aligned, hs.inTable, hs.distinct, hs.mapped, hs.count_le, hbalance, hdistinct, hle,
    hs.hand_lt⟩

/-- Accesses to two pages in turn, the second one in the middle of a word: three faults,
and the invariant. -/
theorem cache_invariant_onePage :
    ∃ results s, onePage.loads limitOnly id 0 2 [0x10000, 0x11003, 0x10008]
        (State.init (fun _ => ⟨7, 7, 7, 7, 7⟩) fun _ => 0) = some (results, s) ∧
      results.map Prod.snd = [1, 1, 1] ∧ CacheInvariant onePage s := by
  have hfaults : (onePage.loads limitOnly id 0 2 [0x10000, 0x11003, 0x10008]
      (State.init (fun _ => ⟨7, 7, 7, 7, 7⟩) fun _ => 0)).map (fun r => r.1.map Prod.snd) =
      some [1, 1, 1] := by decide +kernel
  have haddrs : ∀ a ∈ [0x10000, 0x11003, 0x10008], onePage.InTable a := by decide
  obtain ⟨results, s, hrun, hinv⟩ :=
    cache_invariant onePage_assumed id 0 (fun _ => ⟨7, 7, 7, 7, 7⟩) (fun _ => 0) 0 haddrs
  rw [hrun, Option.map_some, Option.some.injEq] at hfaults
  exact ⟨results, s, hrun, hfaults, hinv (by rw [hfaults]; decide)⟩

end OsLabs.SqrtTable
