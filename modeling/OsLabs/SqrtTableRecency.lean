import OsLabs.SqrtTableRuns

/-!
# What the Recency Policies Evict

The field `last_acc` of a cached page is documented as the time of its last use, but the
program only runs on a fault: a hit changes nothing. So `last_acc` is the time at which
the page was loaded, counted in faults, and the policies `LRU` and `MRU` compare loading
times. This module says exactly when their victim is nevertheless the page that was
least, respectively most, recently accessed.

The history of a run is the list of its accesses, the most recent one first, each with
its page and the number of its faults. `lastAccess` and `stamp` read off it when a page
was last accessed and what the counter of faults was when it was last loaded.

## Main results

* `scan_spec`: the scan of the recency policies finds the first best slot.
* `recorded_loads`: over whole runs, `last_acc` is the stamp of the page.
* `LoadedBest.lastLoad_le`: while the counter has not wrapped around, stamps compare like
  the times of the last loads.
* `recency_victim_iff`: the victim is the least (most) recently accessed page if and only
  if the page with the least (greatest) stamp is.
* `lru_evicts_recent`, a run in which `LRU` evicts the page accessed last.
-/

namespace OsLabs.SqrtTable

variable {α : Type} {c : Config} {os : Os} {f : ℤ → α}

/-! ### The scan -/

/-- Slot `v` is the first of the best slots: it beats the slots before it, and no slot
beats it. -/
def FirstBest (n : ℕ) (beats : ℕ → ℕ → Bool) (key : ℕ → ℕ) (v : ℕ) : Prop :=
  v < n ∧ (∀ j < v, beats (key v) (key j)) ∧ ∀ j < n, ¬ beats (key j) (key v)

/-- There is only one first best slot, so that the scan and the history name the same one. -/
theorem FirstBest.unique {n : ℕ} {beats : ℕ → ℕ → Bool} {key : ℕ → ℕ} {v w : ℕ}
    (hv : FirstBest n beats key v) (hw : FirstBest n beats key w) : v = w := by
  rcases Nat.lt_trichotomy v w with hlt | heq | hgt
  · exact absurd (hw.2.1 v hlt) (hv.2.2 w hw.1)
  · exact heq
  · exact absurd (hv.2.1 w hgt) (hw.2.2 v hv.1)

/-- It depends on the keys of the slots only. -/
theorem FirstBest.congr {n : ℕ} {beats : ℕ → ℕ → Bool} {key key' : ℕ → ℕ} {v : ℕ}
    (h : FirstBest n beats key v) (hkey : ∀ i < n, key i = key' i) :
    FirstBest n beats key' v := by
  obtain ⟨hv, hbefore, hall⟩ := h
  refine ⟨hv, fun j hj => ?_, fun j hj => ?_⟩
  · rw [← hkey v hv, ← hkey j (hj.trans hv)]
    exact hbefore j hj
  · rw [← hkey v hv, ← hkey j hj]
    exact hall j hj

/-- The comparisons of the two recency policies. -/
def Policy.beats : Policy → ℕ → ℕ → Bool
  | .mru => fun acc max => acc > max
  | _ => fun acc min => acc < min

/-- A slot that beats the best one so far beats what the best one beats. -/
theorem Policy.beats_of_beats {p : Policy} {x y z : ℕ} (hxy : p.beats x y)
    (hzy : ¬ p.beats z y) : p.beats x z := by
  cases p <;> simp only [beats, decide_eq_true_eq] at hxy hzy ⊢ <;> omega

/-- No policy prefers a page to itself. -/
theorem Policy.not_beats_self (p : Policy) (x : ℕ) : ¬ p.beats x x := by
  cases p <;> simp [beats]

/-- No policy prefers each of two pages to the other. -/
theorem Policy.not_beats_of_beats {p : Policy} {x y : ℕ} (h : p.beats x y) :
    ¬ p.beats y x := by
  cases p <;> simp only [beats, decide_eq_true_eq] at h ⊢ <;> omega

namespace Config

/-- **The scan finds the first best slot.** Induction on the number of slots scanned. -/
theorem scan_spec (hpos : 1 ≤ c.cacheSlots) (p : Policy) (cache : ℕ → PageInfo) :
    FirstBest c.cacheSlots p.beats (fun i => (cache i).lastAcc) (c.scan p.beats cache) := by
  have hfold : ∀ n, ∃ v, (List.range' 1 n).foldl (fun (best : ℕ × ℕ) i =>
        if p.beats (cache i).lastAcc best.1 then ((cache i).lastAcc, i) else best)
        ((cache 0).lastAcc, 0) = ((cache v).lastAcc, v) ∧
      FirstBest (n + 1) p.beats (fun i => (cache i).lastAcc) v := by
    intro n
    induction n with
    | zero =>
        refine ⟨0, rfl, Nat.zero_lt_one, fun j hj => absurd hj (Nat.not_lt_zero j), ?_⟩
        intro j hj
        obtain rfl : j = 0 := by omega
        exact p.not_beats_self _
    | succ n ih =>
        obtain ⟨v, hv, hlt, hbefore, hall⟩ := ih
        rw [List.range'_1_concat, List.foldl_append, hv, List.foldl_cons, List.foldl_nil,
          Nat.add_comm 1 n]
        by_cases hbeats : p.beats (cache (n + 1)).lastAcc (cache v).lastAcc
        · rw [if_pos hbeats]
          refine ⟨n + 1, rfl, by omega, ?_, ?_⟩
          · intro j hj
            exact Policy.beats_of_beats hbeats (hall j hj)
          · intro j hj
            rcases Nat.lt_succ_iff_lt_or_eq.mp hj with hj | rfl
            · exact Policy.not_beats_of_beats (Policy.beats_of_beats hbeats (hall j hj))
            · exact p.not_beats_self _
        · rw [if_neg hbeats]
          refine ⟨v, rfl, by omega, hbefore, ?_⟩
          intro j hj
          rcases Nat.lt_succ_iff_lt_or_eq.mp hj with hj | rfl
          · exact hall j hj
          · exact hbeats
  obtain ⟨v, hv, hbest⟩ := hfold (c.cacheSlots - 1)
  rw [Nat.sub_add_cancel hpos] at hbest
  rw [scan, hv]
  exact hbest

end Config

/-! ### Histories -/

/-- When page `q` was last accessed: the position of its last access in the history. -/
def lastAccess : List (ℕ × ℕ) → ℕ → ℕ
  | [], _ => 0
  | (p, _) :: hist, q => if p = q then hist.length + 1 else lastAccess hist q

/-- When page `q` was last loaded: the position of its last access that faulted. -/
def lastLoad : List (ℕ × ℕ) → ℕ → ℕ
  | [], _ => 0
  | (p, n) :: hist, q => if p = q ∧ 0 < n then hist.length + 1 else lastLoad hist q

/-- The number of faults of a history. -/
def faultCount : List (ℕ × ℕ) → ℕ
  | [] => 0
  | (_, n) :: hist => faultCount hist + n

/-- The counter of faults, a 64-bit word, when page `q` was last loaded. -/
def stamp : List (ℕ × ℕ) → ℕ → ℕ
  | [], _ => 0
  | (p, n) :: hist, q =>
    if p = q ∧ 0 < n then faultCount ((p, n) :: hist) % wordSize else stamp hist q

/-- The history of a run: the pages accessed and the faults of each access, the most
recent one first. -/
def Config.history (c : Config) (addrs : List ℕ) (results : List (α × ℕ)) : List (ℕ × ℕ) :=
  ((addrs.map c.page).zip (results.map Prod.snd)).reverse

/-- A stamp is at most the number of faults. -/
theorem stamp_le_faultCount (hist : List (ℕ × ℕ)) (q : ℕ) :
    stamp hist q ≤ faultCount hist := by
  induction hist with
  | nil => exact le_rfl
  | cons e hist ih =>
      rw [stamp]
      split
      · exact Nat.mod_le _ _
      · rw [faultCount]
        omega

/-- The last load of a page is in the history. -/
theorem lastLoad_le_length (hist : List (ℕ × ℕ)) (q : ℕ) :
    lastLoad hist q ≤ hist.length := by
  induction hist with
  | nil => exact le_rfl
  | cons e hist ih =>
      rw [lastLoad, List.length_cons]
      split
      · exact le_rfl
      · omega

/-- **Stamps order pages by their last load**, while the counter of faults has not
wrapped around. -/
theorem stamp_lt_of_lastLoad_lt {hist : List (ℕ × ℕ)} (hlt : faultCount hist < wordSize)
    {p q : ℕ} (hpq : lastLoad hist p < lastLoad hist q) : stamp hist p < stamp hist q := by
  induction hist with
  | nil => exact absurd hpq (lt_irrefl 0)
  | cons e hist ih =>
      have hcount : faultCount (e :: hist) = faultCount hist + e.2 := rfl
      have hp := stamp_le_faultCount hist p
      have hq := lastLoad_le_length hist q
      rw [lastLoad, lastLoad] at hpq
      rw [stamp, stamp, Nat.mod_eq_of_lt hlt]
      split at hpq
      · -- the page loaded last is loaded no later than the other one
        split at hpq <;> omega
      · rw [if_neg ‹_›]
        split at hpq
        · rw [if_pos ‹_›]
          have hpos : 0 < e.2 := (‹e.1 = q ∧ 0 < e.2› : _).2
          omega
        · rw [if_neg ‹_›]
          exact ih (by omega) hpq

/-! ### What `last_acc` records -/

/-- **The invariant of the timestamps**: `last_acc` of a cached page is its stamp. -/
structure Recorded (s : State α) (hist : List (ℕ × ℕ)) : Prop where
  counter : s.accessCounter = faultCount hist % wordSize
  lastAcc : ∀ i < s.cacheCount, (s.cache i).lastAcc = stamp hist (s.cache i).base

namespace Recorded

variable {s s' : State α} {hist : List (ℕ × ℕ)}

/-- A hit changes no timestamp and no stamp. -/
theorem hit (h : Recorded s hist) (q : ℕ) : Recorded s ((q, 0) :: hist) := by
  refine ⟨h.counter, fun i hi => ?_⟩
  rw [stamp, if_neg (by omega)]
  exact h.lastAcc i hi

/-- A fault stamps the new page and no other. -/
theorem fault {q i : ℕ} (h : Recorded s hist) (hfault : Faulted c f s s' q i)
    (hs : Resident c f s) (hq : q ∉ s.mapped) : Recorded s' ((q, 1) :: hist) := by
  have hcounter : s'.accessCounter = faultCount ((q, 1) :: hist) % wordSize := by
    rw [hfault.counter, h.counter, faultCount, Nat.mod_add_mod]
  refine ⟨hcounter, fun j hj => ?_⟩
  rw [stamp]
  rcases hfault.slot_cases hs.count_le hj with ⟨-, hbase, hacc⟩ | ⟨-, hj, hbase, hacc⟩
  · rw [hbase, if_pos ⟨rfl, Nat.zero_lt_one⟩, hacc, hcounter]
  · have hne : q ≠ (s.cache j).base := fun heq =>
      hq ((hs.mapped q).mpr ⟨j, hj, heq.symm⟩)
    rw [hbase, hacc, if_neg (fun hand => hne hand.1)]
    exact h.lastAcc j hj

end Recorded

/-- **Timestamps over whole runs**: after every run, `last_acc` of each cached page is
its stamp in the history of the run. -/
theorem Config.recorded_loads (zero : α) (h : c.Assumed os) (fuel : ℕ) {addrs : List ℕ}
    (haddrs : ∀ a ∈ addrs, c.InTable a) {s : State α} {hist : List (ℕ × ℕ)}
    (hs : Resident c f s) (hrec : Recorded s hist) :
    ∃ results s', c.loads os f zero (fuel + 2) addrs s = some (results, s') ∧
      Resident c f s' ∧ Recorded s' (c.history addrs results ++ hist) := by
  induction addrs generalizing s hist with
  | nil => exact ⟨[], s, rfl, hs, hrec⟩
  | cons addr addrs ih =>
      have hrest := fun a ha => haddrs a (List.mem_cons_of_mem addr ha)
      obtain ⟨value, n, s₁, hload, hs₁, hrec₁⟩ : ∃ value n s₁,
          c.load os f zero (fuel + 2) addr s = some (value, n, s₁) ∧ Resident c f s₁ ∧
            Recorded s₁ ((c.page addr, n) :: hist) := by
        rcases load_cases zero h hs (haddrs addr List.mem_cons_self) fuel with
          ⟨hmem, hload⟩ | ⟨hmem, i, s₁, hload, hfault, hs₁, -⟩
        · exact ⟨_, 0, s, hload, hs, hrec.hit _⟩
        · exact ⟨_, 1, s₁, hload, hs₁, hrec.fault hfault hs hmem⟩
      obtain ⟨results, s', hloads, hs', hrec'⟩ := ih hrest hs₁ hrec₁
      refine ⟨(value, n) :: results, s', loads_cons hload hloads, hs', ?_⟩
      simpa [history] using hrec'

/-- The invariant holds in the state that `main` sets up. -/
theorem recorded_init (cache : ℕ → PageInfo) (word : ℕ → α) :
    Recorded (State.init cache word) [] where
  counter := rfl
  lastAcc i hi := absurd hi (Nat.not_lt_zero i)

/-! ### The victim -/

/-- What the name of a recency policy promises of the page `q` it evicts: no cached page
was last accessed earlier under `LRU`, and none later under `MRU`. -/
def Policy.Promises (p : Policy) (hist : List (ℕ × ℕ)) (cached : Finset ℕ) (q : ℕ) : Prop :=
  match p with
  | .lru => ∀ r ∈ cached, lastAccess hist q ≤ lastAccess hist r
  | .mru => ∀ r ∈ cached, lastAccess hist r ≤ lastAccess hist q
  | .clock => True

instance (p : Policy) (hist : List (ℕ × ℕ)) (cached : Finset ℕ) (q : ℕ) :
    Decidable (p.Promises hist cached q) :=
  match p with
  | .lru => Finset.decidableDforallFinset
  | .mru => Finset.decidableDforallFinset
  | .clock => instDecidableTrue

/-- Slot `i` holds the page that was loaded first under `LRU`, last under `MRU`, going by
the stamps of the history; the first such slot when stamps coincide. -/
def LoadedBest (c : Config) (s : State α) (hist : List (ℕ × ℕ)) (i : ℕ) : Prop :=
  FirstBest c.cacheSlots c.policy.beats (fun j => stamp hist (s.cache j).base) i

/-- With fewer than `2 ^ 64` faults, no cached page was loaded before the page of
`LoadedBest` under `LRU`, and none after it under `MRU`. -/
theorem LoadedBest.lastLoad_le {s : State α} {hist : List (ℕ × ℕ)} {i j : ℕ}
    (h : LoadedBest c s hist i) (hlt : faultCount hist < wordSize) (hj : j < c.cacheSlots) :
    (c.policy = .lru → lastLoad hist (s.cache i).base ≤ lastLoad hist (s.cache j).base) ∧
      (c.policy = .mru → lastLoad hist (s.cache j).base ≤ lastLoad hist (s.cache i).base) := by
  have hbeats := h.2.2 j hj
  have hle : ∀ {q r : ℕ}, ¬ stamp hist q < stamp hist r → lastLoad hist r ≤ lastLoad hist q :=
    fun hstamp => not_lt.mp fun hload => hstamp (stamp_lt_of_lastLoad_lt hlt hload)
  refine ⟨fun hp => hle ?_, fun hp => hle ?_⟩
  · simpa only [hp, Policy.beats, decide_eq_true_eq] using hbeats
  · simpa only [hp, Policy.beats, decide_eq_true_eq] using hbeats

/-- Under LRU and MRU the victim is what the scan over the slots finds. -/
theorem Config.chooseVictim_recency (hp : c.policy = .lru ∨ c.policy = .mru)
    (s : State α) : c.chooseVictim s = some (c.scan c.policy.beats s.cache, s) := by
  rcases hp with hp | hp
  · rw [chooseVictim, hp]
    rfl
  · rw [chooseVictim, hp]
    rfl

/-- **The victim of a recency policy** is the page loaded first, respectively last. -/
theorem Recorded.loadedBest {s s' : State α} {hist : List (ℕ × ℕ)} {v : ℕ}
    (h : Recorded s hist) (hpos : 1 ≤ c.cacheSlots)
    (hp : c.policy = .lru ∨ c.policy = .mru) (hfull : c.cacheSlots ≤ s.cacheCount)
    (hchosen : Chosen c s s' v) : LoadedBest c s hist v := by
  rcases hchosen with ⟨hfree, -⟩ | ⟨cache, -, hchoose, -⟩
  · omega
  · rw [Config.chooseVictim_recency hp, Option.some.injEq, Prod.mk.injEq] at hchoose
    have hbest := Config.scan_spec hpos c.policy s.cache
    rw [hchoose.1] at hbest
    exact hbest.congr fun i hi => h.lastAcc i (hi.trans_le hfull)

/-- **When the recency policies evict by last access.** After every run from the empty
cache, an access that faults on a full cache evicts the page of one slot; this page is
the least recently accessed one under `LRU`, the most recently accessed one under `MRU`,
if and only if the cached page that was loaded first, respectively last, is. -/
theorem recency_victim_iff (h : c.Assumed os) (hp : c.policy = .lru ∨ c.policy = .mru)
    (f : ℤ → α) (zero : α) (cache : ℕ → PageInfo) (word : ℕ → α) (fuel : ℕ)
    {addrs : List ℕ} (haddrs : ∀ a ∈ addrs, c.InTable a) :
    ∃ results s, c.loads os f zero (fuel + 2) addrs (State.init cache word) =
        some (results, s) ∧
      ∀ addr, c.InTable addr → c.page addr ∉ s.mapped → c.cacheSlots ≤ s.cacheCount →
        ∃ v s', v < c.cacheSlots ∧
          c.load os f zero (fuel + 2) addr s = some (s'.word addr, 1, s') ∧
          s'.mapped = insert (c.page addr) (s.mapped.erase (s.cache v).base) ∧
          (c.policy.Promises (c.history addrs results) s.mapped (s.cache v).base ↔
            ∀ i, LoadedBest c s (c.history addrs results) i →
              c.policy.Promises (c.history addrs results) s.mapped (s.cache i).base) := by
  obtain ⟨results, s, hrun, hs, hrec⟩ :=
    Config.recorded_loads zero h fuel haddrs (resident_init (f := f) h cache word)
      (recorded_init cache word)
  rw [List.append_nil] at hrec
  refine ⟨results, s, hrun, fun addr haddr hmem hfull => ?_⟩
  rcases Config.load_cases zero h hs haddr fuel with
    ⟨hmem', -⟩ | ⟨-, v, s', hload, hfault, -, hchosen, -⟩
  · exact absurd hmem' hmem
  · have hbest := hrec.loadedBest h.slots_pos hp hfull hchosen
    refine ⟨v, s', hfault.slot_lt, hload, ?_, fun hprom i hi => ?_, fun hall => hall v hbest⟩
    · rcases hfault.change with ⟨hfree, -⟩ | ⟨-, -, -, hmapped⟩
      · omega
      · exact hmapped
    · rwa [hi.unique hbest]

/-- A table at `0x10000` with pages of 4 KiB and a cache of two pages. -/
def twoPages (p : Policy) : Config := ⟨0x10000, 4096, 2, p⟩

/-- The cache of two pages meets the assumptions, whatever the policy. -/
theorem twoPages_assumed (p : Policy) : (twoPages p).Assumed limitOnly :=
  { onePage_assumed with slots_pos := one_le_two }

/-- Two pages are loaded and not accessed again: `LRU` then evicts the least recently
accessed one. -/
theorem recency_victim_two_pages :
    ∃ results s v s', (twoPages .lru).loads limitOnly id 0 2 [0x10000, 0x11000]
        (State.init (fun _ => ⟨7, 7, 7, 7, 7⟩) fun _ => 0) = some (results, s) ∧
      (twoPages .lru).load limitOnly id 0 2 0x12000 s = some (s'.word 0x12000, 1, s') ∧
      s'.mapped = insert 0x12000 (s.mapped.erase (s.cache v).base) ∧
      Policy.lru.Promises ((twoPages .lru).history [0x10000, 0x11000] results) s.mapped
        (s.cache v).base := by
  have hrun : ((twoPages .lru).loads limitOnly id 0 2 [0x10000, 0x11000]
      (State.init (fun _ => ⟨7, 7, 7, 7, 7⟩) fun _ => 0)).map
        (fun r => (r.1.map Prod.snd, r.2.cacheCount, (r.2.cache 0).base, (r.2.cache 1).base,
          r.2.mapped)) = some ([1, 1], 2, 0x10000, 0x11000, {0x10000, 0x11000}) := by
    decide +kernel
  have haddrs : ∀ a ∈ [0x10000, 0x11000], (twoPages .lru).InTable a := by decide
  obtain ⟨results, s, hloads, hvictim⟩ := recency_victim_iff (twoPages_assumed .lru)
    (Or.inl rfl) id 0 (fun _ => ⟨7, 7, 7, 7, 7⟩) (fun _ => 0) 0 haddrs
  rw [hloads] at hrun
  simp only [Option.map_some, Option.some.injEq, Prod.mk.injEq] at hrun
  obtain ⟨hfaults, hcount, hbase0, hbase1, hmapped⟩ := hrun
  obtain ⟨v, s', hv, hload, hmapped', hiff⟩ :=
    hvictim 0x12000 (by decide) (by rw [hmapped]; decide) hcount.ge
  refine ⟨results, s, v, s', hloads, hload, hmapped', hiff.mpr fun i hi => ?_⟩
  have hhist : (twoPages .lru).history [0x10000, 0x11000] results =
      [(0x11000, 1), (0x10000, 1)] := by
    rw [Config.history, hfaults]
    rfl
  rw [hhist] at hi ⊢
  rw [hmapped]
  obtain ⟨hlt, hbefore, -⟩ := hi
  obtain rfl | rfl : i = 0 ∨ i = 1 := by
    have : i < 2 := hlt
    omega
  · rw [hbase0]
    decide
  · have hbad := hbefore 0 Nat.zero_lt_one
    simp only [hbase0, hbase1] at hbad
    exact absurd hbad (by decide)

/-- What an access to a third page evicts after two pages have been loaded and the first
one has been accessed again: the history, the pages cached before and those after. -/
def reused (p : Policy) : Option (List (ℕ × ℕ) × Finset ℕ × ℕ × Finset ℕ) := do
  let addrs := [0x10000, 0x11000, 0x10008]
  let (results, s) ← (twoPages p).loads limitOnly id 0 2 addrs
    (State.init (fun _ => ⟨7, 7, 7, 7, 7⟩) fun _ => 0)
  let (_, n, s') ← (twoPages p).load limitOnly id 0 2 0x12000 s
  some ((twoPages p).history addrs results, s.mapped, n, s'.mapped)

/-- **The defect**: two pages are loaded and the first one is accessed again. `LRU` then
evicts the first page, the most recently accessed one, and `MRU` evicts the second page,
the least recently accessed one. -/
theorem lru_evicts_recent :
    (∃ hist cached, reused .lru = some (hist, cached, 1, {0x11000, 0x12000}) ∧
      cached = {0x10000, 0x11000} ∧ ¬ Policy.lru.Promises hist cached 0x10000) ∧
    ∃ hist cached, reused .mru = some (hist, cached, 1, {0x10000, 0x12000}) ∧
      cached = {0x10000, 0x11000} ∧ ¬ Policy.mru.Promises hist cached 0x11000 := by
  refine ⟨⟨[(0x10000, 0), (0x11000, 1), (0x10000, 1)], {0x10000, 0x11000}, ?_, rfl, ?_⟩,
    [(0x10000, 0), (0x11000, 1), (0x10000, 1)], {0x10000, 0x11000}, ?_, rfl, ?_⟩
  · decide +kernel
  · decide
  · decide +kernel
  · decide

end OsLabs.SqrtTable
