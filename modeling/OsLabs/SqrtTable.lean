import Mathlib.Data.Finset.Insert
import Mathlib.Data.Int.Basic
import OsLabs.Words

/-!
# The Demand-Paged Square Root Table

`CLab/mmap2.c` keeps a table of square roots in a region of the address space that is
not mapped. A read of the table faults; the handler of the fault maps the page that was
read and fills it, and it unmaps an earlier page once `cache_slots` pages are mapped.
The victim is chosen by one of three replacement policies.

The handler is a function on `State`, the global variables of the program together with
the part of the machine they speak about: which pages of the table are mapped and what
the words of memory hold. `load` is a read by the processor, which calls the handler and
retries as long as the page is not mapped.

Conventions: a result `none` is a call of `exit`, an access outside the array `cache`,
or a loop that does not end. `double` is an arbitrary type `α`; `sqrt` is a parameter
`f`, and so are the success of `mmap` and of `munmap`. The counters of type
`unsigned long` wrap around.
-/

namespace OsLabs.SqrtTable

/-- `enum replacement_policy_t`. -/
inductive Policy where
  | lru
  | mru
  | clock
deriving DecidableEq

/-- The global variables that do not change once `main` has set them up. -/
structure Config where
  sqrts : ℕ
  pageSize : ℕ
  cacheSlots : ℕ
  policy : Policy

/-- `MAX_SQRTS`. -/
def maxSqrts : ℕ := 1 <<< 27

/-- `AS_LIMIT`. -/
def asLimit : ℕ := 1 <<< 25

/-- `sizeof(double)`. -/
def sizeofDouble : ℕ := 8

/-- `page_info`. -/
structure PageInfo where
  base : ℕ
  lastAcc : ℕ
  insertNum : ℕ
  freq : ℕ
  accessBit : ℤ

/-- The global variables and the memory of the table. -/
structure State (α : Type) where
  cache : ℕ → PageInfo
  cacheCount : ℕ
  accessCounter : ℕ
  clockHand : ℕ
  pageFaults : ℕ
  evictions : ℕ
  mapped : Finset ℕ
  word : ℕ → α

/-- The system calls: whether `mmap` and `munmap` of an address and a length succeed. -/
structure Os where
  mmap : ℕ → ℕ → Bool
  munmap : ℕ → ℕ → Bool

/-- `align_down`. -/
def alignDown (x a : ℕ) : ℕ := x &&& complement (a - 1)

/-- The conversion of a `size_t` to `int`. -/
def toInt (x : ℕ) : ℤ := (x : ℤ).bmod (2 ^ 32)

/-- `cache[i].access_bit = 0`. -/
def clearBit (cache : ℕ → PageInfo) (i : ℕ) : ℕ → PageInfo :=
  Function.update cache i { cache i with accessBit := 0 }

variable {α : Type}

/-- `calculate_sqrts`, on the memory that `sqrt_pos` points into. -/
def calculateSqrts (f : ℤ → α) (word : ℕ → α) (sqrtPos : ℕ) (start nr : ℤ) : ℕ → α :=
  (List.range nr.toNat).foldl
    (fun word i => Function.update word (sqrtPos + sizeofDouble * i) (f (start + i))) word

namespace Config

variable (c : Config)

/-- The address of `sqrts[pos]`. -/
def entry (pos : ℕ) : ℕ := c.sqrts + sizeofDouble * pos

/-- An address inside the table. -/
def InTable (addr : ℕ) : Prop := c.sqrts ≤ addr ∧ addr < c.sqrts + maxSqrts * sizeofDouble

instance (addr : ℕ) : Decidable (c.InTable addr) := inferInstanceAs (Decidable (_ ∧ _))

/-! ### Choosing a victim -/

/-- The scan of the two recency policies: the first slot whose `last_acc` no other slot
beats. -/
def scan (beats : ℕ → ℕ → Bool) (cache : ℕ → PageInfo) : ℕ :=
  let best := (List.range' 1 (c.cacheSlots - 1)).foldl
    (fun (best : ℕ × ℕ) i =>
      if beats (cache i).lastAcc best.1 then ((cache i).lastAcc, i) else best)
    ((cache 0).lastAcc, 0)
  best.2

/-- The victim of `REPLACEMENT_LRU`. -/
def lruVictim (cache : ℕ → PageInfo) : ℕ := c.scan (fun acc min => acc < min) cache

/-- The victim of `REPLACEMENT_MRU`. -/
def mruVictim (cache : ℕ → PageInfo) : ℕ := c.scan (fun acc max => acc > max) cache

/-- The loop of `REPLACEMENT_CLOCK`, for at most `fuel` turns: the victim, the cache with
the bits cleared on the way, and the new hand. -/
def clockSweep : ℕ → (ℕ → PageInfo) → ℕ → Option (ℕ × (ℕ → PageInfo) × ℕ)
  | 0, _, _ => none
  | fuel + 1, cache, clockHand =>
    if clockHand < c.cacheSlots then
      if (cache clockHand).accessBit = 0 then
        some (clockHand, cache, (clockHand + 1) % c.cacheSlots)
      else
        clockSweep fuel (clearBit cache clockHand) ((clockHand + 1) % c.cacheSlots)
    else
      none

/-- The `switch` over the policies. A full turn of the clock clears every bit, so a sweep
that has not ended one turn later never ends. -/
def chooseVictim (s : State α) : Option (ℕ × State α) :=
  match c.policy with
  | .lru => some (c.lruVictim s.cache, s)
  | .mru => some (c.mruVictim s.cache, s)
  | .clock => do
    let (victim, cache, clockHand) ← c.clockSweep (c.cacheSlots + 1) s.cache s.clockHand
    some (victim, { s with cache, clockHand })

/-! ### The handler -/

/-- The record of a newly mapped page, written to slot `i`. -/
def record (i pageStart : ℕ) (s : State α) : Option (State α) :=
  if i < c.cacheSlots then
    let accessCounter := (s.accessCounter + 1) % wordSize
    let info : PageInfo :=
      { base := pageStart
        lastAcc := accessCounter
        insertNum := accessCounter
        freq := 1
        accessBit := if c.policy = .clock then 1 else (s.cache i).accessBit }
    some { s with cache := Function.update s.cache i info, accessCounter }
  else
    none

section

variable (os : Os)

/-- The branch of a full cache: unmap a victim and reuse its slot. -/
def evict (pageStart : ℕ) (s : State α) : Option (State α) := do
  let (victim, s) ← c.chooseVictim s
  let base := (s.cache victim).base
  if os.munmap base c.pageSize then
    let s := { s with mapped := s.mapped.erase base, evictions := (s.evictions + 1) % wordSize }
    c.record victim pageStart s
  else
    none

/-- The branch of a cache with a free slot. -/
def append (pageStart : ℕ) (s : State α) : Option (State α) := do
  let s ← c.record s.cacheCount pageStart s
  some { s with cacheCount := s.cacheCount + 1 }

/-- A slot for the page that faulted. -/
def takeSlot (pageStart : ℕ) (s : State α) : Option (State α) :=
  if s.cacheCount ≥ c.cacheSlots then c.evict os pageStart s else c.append pageStart s

/-- The anonymous fixed mapping of one page: it reads as zeros. -/
def mapPage (zero : α) (pageStart : ℕ) (s : State α) : Option (State α) :=
  if os.mmap pageStart c.pageSize then
    some { s with
      mapped := insert pageStart s.mapped
      word := fun a => if pageStart ≤ a ∧ a < pageStart + c.pageSize then zero else s.word a }
  else
    none

variable (f : ℤ → α) (zero : α)

/-- `handle_sigsegv`. -/
def handleSigsegv (faultAddr : ℕ) (s : State α) : Option (State α) := do
  let pageStart := alignDown faultAddr c.pageSize
  if c.InTable faultAddr then
    let s := { s with pageFaults := (s.pageFaults + 1) % wordSize }
    let s ← c.takeSlot os pageStart s
    let s ← c.mapPage os zero pageStart s
    let startIndex := toInt ((pageStart - c.sqrts) / sizeofDouble)
    let nr := toInt (c.pageSize / sizeofDouble)
    some { s with word := calculateSqrts f s.word pageStart startIndex nr }
  else
    none

/-! ### Reads of the table -/

/-- The page that the hardware looks up for an access to `addr`. -/
def page (addr : ℕ) : ℕ := c.pageSize * (addr / c.pageSize)

/-- A read of the word at `addr`, retried after each fault, with at most `fuel` tries:
the value, the number of faults and the new state. -/
def load : ℕ → ℕ → State α → Option (α × ℕ × State α)
  | 0, _, _ => none
  | fuel + 1, addr, s =>
    if c.page addr ∈ s.mapped then
      some (s.word addr, 0, s)
    else do
      let s ← c.handleSigsegv os f zero addr s
      let (value, faults, s) ← load fuel addr s
      some (value, faults + 1, s)

/-- Reads in sequence: their values and numbers of faults. -/
def loads (fuel : ℕ) : List ℕ → State α → Option (List (α × ℕ) × State α)
  | [], s => some ([], s)
  | addr :: addrs, s => do
    let (value, faults, s) ← c.load os f zero fuel addr s
    let (results, s) ← loads fuel addrs s
    some ((value, faults) :: results, s)

end

end Config

/-- The state that `main` sets up: the array `cache` comes from `malloc`, and the region
of the table has just been unmapped. -/
def State.init (cache : ℕ → PageInfo) (word : ℕ → α) : State α where
  cache := cache
  cacheCount := 0
  accessCounter := 0
  clockHand := 0
  pageFaults := 0
  evictions := 0
  mapped := ∅
  word := word

/-- **What is assumed of the machine and its operating system**: the page size is a power
of two and a multiple of 8, the table starts at a page boundary and lies inside the
address space, `mmap` and `munmap` of a page of the table succeed, and under the limit
`RLIMIT_AS` that `setup_sqrt_region` has set no mapping longer than `AS_LIMIT` does. -/
structure Config.Assumed (c : Config) (os : Os) : Prop where
  page_pow : ∃ k, c.pageSize = 2 ^ k
  eight_dvd : sizeofDouble ∣ c.pageSize
  aligned : c.pageSize ∣ c.sqrts
  inside : c.sqrts + maxSqrts * sizeofDouble ≤ wordSize
  slots_pos : 1 ≤ c.cacheSlots
  mmap_ok : ∀ addr, c.InTable addr → os.mmap addr c.pageSize = true
  munmap_ok : ∀ addr, c.InTable addr → os.munmap addr c.pageSize = true
  mmap_limit : ∀ addr len, os.mmap addr len = true → len ≤ asLimit

end OsLabs.SqrtTable
