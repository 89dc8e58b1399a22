import OsLabs.Bin

/-!
# The Memory Map Handed to the Allocator

`memory_map` of `kern/src/allocator.rs` walks the ATAGS that the firmware leaves at
`0x100`, takes the first `MEM` tag, rounds its start up to a page and hands the memory
from the end of the kernel's binary to the end of that range to the allocator. The walk
is that of `lib/pi/src/atags`: each tag gives its own length in words, a `NONE` tag ends
the sequence, and the text of a `CMDLINE` tag is scanned up to its terminating zero.

The end of the range is computed from the *rounded* start. For a start that is not a
multiple of the page size the range therefore ends beyond the memory the tag reports.

Conventions: `none` is a failed assertion, an overflow, or a walk that has not ended
within its fuel; inside a result, `none` is the `None` of the code.

## Main results

* `findMem_spec`: on a well-formed sequence the walk ends at the first `MEM` tag.
* `memoryMap_spec`: the exact result of `memory_map`.
* `memoryMap_bounds`: the range meets what the allocator asks of its bounds.
* `inside_ram_iff`: the range lies in the reported memory if and only if the tag's start
  is a multiple of the page size or the binary ends outside the shifted range.
* `memory_map_beyond_ram`: a map whose last bytes do not exist.
-/

namespace OsLabs.MemoryMap

/-! ### Raw tags -/

/-- A little-endian `u32` in memory. -/
def readU32 (mem : ℕ → UInt8) (a : ℕ) : ℕ :=
  (mem a).toNat + 2 ^ 8 * (mem (a + 1)).toNat + 2 ^ 16 * (mem (a + 2)).toNat +
    2 ^ 24 * (mem (a + 3)).toNat

/-- `ATAG_BASE`. -/
def atagBase : ℕ := 0x100

/-- `raw::Atag::NONE`. -/
def rawNone : ℕ := 0x00000000

/-- `raw::Atag::CORE`. -/
def rawCore : ℕ := 0x54410001

/-- `raw::Atag::MEM`. -/
def rawMem : ℕ := 0x54410002

/-- `raw::Atag::CMDLINE`. -/
def rawCmdline : ℕ := 0x54410009

/-- `raw::Core`. -/
structure Core where
  flags : ℕ
  pageSize : ℕ
  rootDev : ℕ
deriving DecidableEq

/-- `raw::Mem`. -/
structure Mem where
  size : ℕ
  start : ℕ
deriving DecidableEq

/-- `Atag`; the string of a `Cmd` tag is the list of its bytes. -/
inductive Atag where
  | core (core : Core)
  | mem (mem : Mem)
  | cmd (cmd : List UInt8)
  | unknown (id : ℕ)
  | none
deriving DecidableEq

/-- `Atag::mem`. -/
def Atag.asMem : Atag → Option Mem
  | .mem m => some m
  | _ => Option.none

section

variable (mem : ℕ → UInt8)

/-- The field `dwords` of the raw tag at `atag`. -/
def dwords (atag : ℕ) : ℕ := readU32 mem atag

/-- The field `tag` of the raw tag at `atag`. -/
def tag (atag : ℕ) : ℕ := readU32 mem (atag + 4)

/-- `raw::Atag::next`. -/
def rawNext (atag : ℕ) : Option ℕ :=
  if tag mem atag = rawNone then none else some (atag + 4 * dwords mem atag)

/-- The member `core` of the union `kind`. -/
def kindCore (atag : ℕ) : Core :=
  ⟨readU32 mem (atag + 8), readU32 mem (atag + 12), readU32 mem (atag + 16)⟩

/-- The member `mem` of the union `kind`. -/
def kindMem (atag : ℕ) : Mem := ⟨readU32 mem (atag + 8), readU32 mem (atag + 12)⟩

/-- The scan for the end of the command line, which starts at `start`. -/
def cmdLen (start : ℕ) : ℕ → ℕ → Option ℕ
  | 0, _ => none
  | fuel + 1, len => if mem (start + len) ≠ 0 then cmdLen start fuel (len + 1) else some len

/-- The `len` bytes from `start` on. -/
def slice (start len : ℕ) : List UInt8 := (List.range len).map fun i => mem (start + i)

/-- `Atag::from`. -/
def Atag.ofRaw (fuel atag : ℕ) : Option Atag :=
  if tag mem atag = rawCore then some (.core (kindCore mem atag))
  else if tag mem atag = rawMem then some (.mem (kindMem mem atag))
  else if tag mem atag = rawCmdline then do
    let len ← cmdLen mem (atag + 8) fuel 0
    some (.cmd (slice mem (atag + 8) len))
  else if tag mem atag = rawNone then some .none
  else some (.unknown (tag mem atag))

/-- `Atags`, the iterator over the tags. -/
structure Atags where
  ptr : Option ℕ

/-- `Atags::get`. -/
def Atags.get : Atags := ⟨some atagBase⟩

/-- `Atags::next`: the item and the iterator after it. -/
def Atags.next (fuel : ℕ) (atags : Atags) : Option (Option Atag × Atags) :=
  match atags.ptr with
  | some atag => do
    let next := rawNext mem atag
    let ptr := if tag mem atag = rawNone then none else next
    let item ← Atag.ofRaw mem fuel atag
    some (some item, ⟨ptr⟩)
  | none => some (none, atags)

/-! ### The map -/

/-- `page_size`. -/
def pageSize : ℕ := 1 <<< 12

/-- The loop of `memory_map`: the first `MEM` tag. -/
def findMem (fuel : ℕ) : ℕ → Atags → Option (Option Mem)
  | 0, _ => none
  | turns + 1, atags => do
    let (item, atags) ← atags.next mem fuel
    match item with
    | none => some none
    | some (.mem m) => some (some m)
    | some _ => findMem fuel turns atags

/-- `memory_map`, where `binaryEnd` is the address of `__text_end`. -/
def memoryMap (fuel binaryEnd : ℕ) : Option (Option (ℕ × ℕ)) := do
  match ← findMem mem fuel fuel Atags.get with
  | some m =>
    let start ← alignUp m.start pageSize
    let stop ← checkedAdd start m.size
    if binaryEnd < start ∨ binaryEnd ≥ stop then some none
    else some (some (binaryEnd, stop))
  | none => some none

/-! ### Well-formed sequences -/

/-- The tag that the raw tag at `atag` stands for, other than the final one. The string
of a command line ends before its first zero byte. -/
inductive Encodes (atag : ℕ) : Atag → Prop
  | core : tag mem atag = rawCore → Encodes atag (.core (kindCore mem atag))
  | mem : tag mem atag = rawMem → Encodes atag (.mem (kindMem mem atag))
  | cmd (len : ℕ) : tag mem atag = rawCmdline → (∀ i < len, mem (atag + 8 + i) ≠ 0) →
      mem (atag + 8 + len) = 0 → Encodes atag (.cmd (slice mem (atag + 8) len))
  | unknown : tag mem atag ∉ [rawNone, rawCore, rawMem, rawCmdline] →
      Encodes atag (.unknown (tag mem atag))

/-- **Well-formed sequences** of tags in memory: each tag's length leads to the next one,
and a `NONE` tag ends the sequence. The lengths are not constrained beyond that. -/
inductive TagsAt : ℕ → List Atag → Prop
  | last {atag : ℕ} : tag mem atag = rawNone → TagsAt atag [.none]
  | cons {atag : ℕ} {t : Atag} {ts : List Atag} : Encodes mem atag t →
      TagsAt (atag + 4 * dwords mem atag) ts → TagsAt atag (t :: ts)

end

/-- The first `MEM` tag of a sequence. -/
def firstMem (tags : List Atag) : Option Mem := tags.findSome? Atag.asMem

/-- **The property**, of the result `r` of `memory_map`: a returned range starts at the
end of the binary, is not empty and lies in the memory that the first `MEM` tag reports;
nothing is returned when there is no such tag or the binary ends outside that memory. -/
structure InsideRam (tags : List Atag) (binaryEnd : ℕ) (r : Option (ℕ × ℕ)) : Prop where
  inside : ∀ lo hi, r = some (lo, hi) → ∃ m, firstMem tags = some m ∧ lo = binaryEnd ∧
    lo < hi ∧ ∀ a, lo ≤ a → a < hi → m.start ≤ a ∧ a < m.start + m.size
  absent : firstMem tags = none → r = none
  outside : ∀ m, firstMem tags = some m →
    ¬ (m.start ≤ binaryEnd ∧ binaryEnd < m.start + m.size) → r = none

/-- The start of a tag's memory rounded up to a page. -/
def pageUp (start : ℕ) : ℕ := pageSize * ((start + pageSize - 1) / pageSize)

/-- **The condition**: the memory reported starts at a page boundary, or the binary ends
outside the range shifted to the next boundary. -/
def StartsAtPage (tags : List Atag) (binaryEnd : ℕ) : Prop :=
  ∀ m, firstMem tags = some m → pageSize ∣ m.start ∨ binaryEnd < pageUp m.start ∨
    pageUp m.start + m.size ≤ binaryEnd

/-! ### The walk -/

section

variable {mem : ℕ → UInt8}

/-- The scan of a command line ends at its first zero byte. -/
theorem cmdLen_spec {start len : ℕ} (hz : mem (start + len) = 0) :
    ∀ {k fuel : ℕ}, k ≤ len → (∀ i, k ≤ i → i < len → mem (start + i) ≠ 0) →
      len < fuel + k → cmdLen mem start fuel k = some len := by
  intro k fuel hk hne hfuel
  induction fuel generalizing k with
  | zero => omega
  | succ fuel ih =>
      rw [cmdLen]
      by_cases heq : k = len
      · subst heq
        rw [if_neg (not_not_intro hz)]
      · have hlt : k < len := by omega
        rw [if_pos (hne k le_rfl hlt)]
        exact ih hlt (fun i hi => hne i (by omega)) (by omega)

/-- Tags other than the last one are read back, with fuel for their text. -/
theorem Encodes.ofRaw {atag : ℕ} {t : Atag} (h : Encodes mem atag t) :
    tag mem atag ≠ rawNone ∧ ∃ n, ∀ fuel ≥ n, Atag.ofRaw mem fuel atag = some t := by
  cases h with
  | core htag =>
      refine ⟨by rw [htag]; decide, 0, fun fuel _ => ?_⟩
      rw [Atag.ofRaw, if_pos htag]
  | mem htag =>
      refine ⟨by rw [htag]; decide, 0, fun fuel _ => ?_⟩
      rw [Atag.ofRaw, if_neg (by rw [htag]; decide), if_pos htag]
  | cmd len htag hne hz =>
      refine ⟨by rw [htag]; decide, len + 1, fun fuel hfuel => ?_⟩
      rw [Atag.ofRaw, if_neg (by rw [htag]; decide), if_neg (by rw [htag]; decide),
        if_pos htag, cmdLen_spec hz (Nat.zero_le len) (fun i _ => hne i) (by omega)]
      rfl
  | unknown htag =>
      simp only [List.mem_cons, List.not_mem_nil, or_false, not_or] at htag
      obtain ⟨hnone, hcore, hmem, hcmd⟩ := htag
      refine ⟨hnone, 0, fun fuel _ => ?_⟩
      rw [Atag.ofRaw, if_neg hcore, if_neg hmem, if_neg hcmd, if_neg hnone]

/-- **The walk**: on a well-formed sequence, with enough fuel, the loop ends with the
first `MEM` tag. Induction on the sequence. -/
theorem findMem_spec {atag : ℕ} {tags : List Atag} (h : TagsAt mem atag tags) :
    ∃ n, ∀ fuel ≥ n, ∀ turns ≥ n,
      findMem mem fuel turns ⟨some atag⟩ = some (firstMem tags) := by
  induction h with
  | @last atag htag =>
      refine ⟨2, fun fuel _ turns hturns => ?_⟩
      obtain ⟨turns, rfl⟩ : ∃ k, turns = k + 2 := ⟨turns - 2, by omega⟩
      have hraw : Atag.ofRaw mem fuel atag = some .none := by
        rw [Atag.ofRaw, htag]
        rfl
      simp [findMem, Atags.next, hraw, htag, firstMem, Atag.asMem]
  | @cons atag t ts ht _ ih =>
      obtain ⟨hne, m, hraw⟩ := ht.ofRaw
      obtain ⟨n, hrest⟩ := ih
      refine ⟨max m n + 1, fun fuel hfuel turns hturns => ?_⟩
      obtain ⟨turns, rfl⟩ : ∃ k, turns = k + 1 := ⟨turns - 1, by omega⟩
      have hrest' := hrest fuel (by omega) turns (by omega)
      have hnext : Atags.next mem fuel ⟨some atag⟩ =
          some (some t, ⟨some (atag + 4 * dwords mem atag)⟩) := by
        simp [Atags.next, hraw fuel (by omega), rawNext, hne]
      rw [findMem, hnext]
      cases t with
      | mem m' => rfl
      | core _ => exact hrest'
      | cmd _ => exact hrest'
      | unknown _ => exact hrest'
      | none => exact hrest'

/-! ### The result -/

/-- A `u32` is below `2 ^ 32`. -/
theorem readU32_lt (a : ℕ) : readU32 mem a < 2 ^ 32 := by
  have h0 := (mem a).toNat_lt
  have h1 := (mem (a + 1)).toNat_lt
  have h2 := (mem (a + 2)).toNat_lt
  have h3 := (mem (a + 3)).toNat_lt
  rw [readU32]
  omega

/-- The fields of the first `MEM` tag are 32-bit values. -/
theorem firstMem_lt {atag : ℕ} {tags : List Atag} {m : Mem} (h : TagsAt mem atag tags)
    (hm : firstMem tags = some m) : m.start < 2 ^ 32 ∧ m.size < 2 ^ 32 := by
  induction h with
  | last => simp [firstMem, Atag.asMem] at hm
  | cons ht _ ih =>
      cases ht with
      | mem _ =>
          simp only [firstMem, List.findSome?_cons, Atag.asMem, Option.some.injEq] at hm
          subst hm
          exact ⟨readU32_lt _, readU32_lt _⟩
      | core _ => exact ih hm
      | cmd _ _ _ _ => exact ih hm
      | unknown _ => exact ih hm

/-- Rounding up stays within a page and reaches a boundary exactly from a boundary. -/
theorem pageUp_spec (start : ℕ) :
    start ≤ pageUp start ∧ pageUp start < start + 2 ^ 12 ∧ 2 ^ 12 ∣ pageUp start ∧
      (pageUp start = start ↔ pageSize ∣ start) := by
  have hpage : pageSize = 2 ^ 12 := rfl
  rw [pageUp, hpage]
  refine ⟨by omega, by omega, Dvd.intro _ rfl, by omega⟩

/-- What `memory_map` returns for the memory that a tag reports. -/
def mapped (m : Option Mem) (binaryEnd : ℕ) : Option (ℕ × ℕ) :=
  m.bind fun m =>
    if binaryEnd < pageUp m.start ∨ pageUp m.start + m.size ≤ binaryEnd then none
    else some (binaryEnd, pageUp m.start + m.size)

/-- **`memory_map`, exactly**, with enough fuel for the walk. -/
theorem memoryMap_spec {tags : List Atag} (h : TagsAt mem atagBase tags)
    (binaryEnd : ℕ) :
    ∃ n, ∀ fuel ≥ n,
      memoryMap mem fuel binaryEnd = some (mapped (firstMem tags) binaryEnd) := by
  obtain ⟨n, hfind⟩ := findMem_spec h
  refine ⟨n, fun fuel hfuel => ?_⟩
  rw [memoryMap, Atags.get, hfind fuel hfuel fuel hfuel]
  cases hm : firstMem tags with
  | none => rfl
  | some m =>
      obtain ⟨hstart, hsize⟩ := firstMem_lt h hm
      obtain ⟨-, hup, -, -⟩ := pageUp_spec m.start
      have hw : wordSize = 2 ^ 64 := rfl
      have halign : alignUp m.start pageSize = some (pageUp m.start) :=
        alignUp_two_pow (k := 12) (by omega) (by omega)
      have hadd : checkedAdd (pageUp m.start) m.size = some (pageUp m.start + m.size) :=
        checkedAdd_eq_some (by omega)
      simp only [Option.bind_eq_bind, Option.bind_some, halign, hadd, mapped, ge_iff_le]
      split <;> rfl

/-- The range handed to the allocator meets what `Allocator::new` is called with, given
that the linker places `__text_end` at a positive multiple of 8. -/
theorem memoryMap_bounds {tags : List Atag} {binaryEnd lo hi : ℕ}
    (h : TagsAt mem atagBase tags) (hpos : 0 < binaryEnd) (h8 : 8 ∣ binaryEnd)
    (hr : mapped (firstMem tags) binaryEnd = some (lo, hi)) : Bin.Bounds lo hi := by
  cases hm : firstMem tags with
  | none => simp [mapped, hm] at hr
  | some m =>
      obtain ⟨hstart, hsize⟩ := firstMem_lt h hm
      obtain ⟨-, hup, hdvd, -⟩ := pageUp_spec m.start
      simp only [mapped, hm, Option.bind_some] at hr
      split at hr
      · simp at hr
      · rename_i hin
        simp only [Option.some.injEq, Prod.mk.injEq] at hr
        obtain ⟨rfl, rfl⟩ := hr
        exact ⟨hpos, h8, by omega, by omega⟩

end

/-- The property holds of the result exactly under the condition. -/
theorem insideRam_mapped_iff {tags : List Atag} {binaryEnd : ℕ} :
    InsideRam tags binaryEnd (mapped (firstMem tags) binaryEnd) ↔
      StartsAtPage tags binaryEnd := by
  cases hm : firstMem tags with
  | none =>
      refine ⟨fun _ m hm' => by simp [hm] at hm', fun _ => ⟨?_, ?_, ?_⟩⟩
      · simp [mapped]
      · simp [mapped]
      · simp [hm]
  | some m =>
      obtain ⟨hle, -, -, hpage⟩ := pageUp_spec m.start
      constructor
      · intro h m' hm'
        obtain rfl : m = m' := Option.some.inj (hm.symm.trans hm')
        by_contra hnot
        push Not at hnot
        obtain ⟨hndvd, hge, hlt⟩ := hnot
        -- the last byte of the returned range is beyond the reported memory
        have hr : mapped (some m) binaryEnd =
            some (binaryEnd, pageUp m.start + m.size) := by
          simp only [mapped, Option.bind_some]
          rw [if_neg (by omega)]
        obtain ⟨m', hm', -, -, hin⟩ := h.inside _ _ hr
        obtain rfl : m = m' := Option.some.inj (hm.symm.trans hm')
        have hlast := hin (pageUp m.start + m.size - 1) (by omega) (by omega)
        have hne : pageUp m.start ≠ m.start := fun heq => hndvd (hpage.mp heq)
        omega
      · intro h
        simp only [mapped, Option.bind_some]
        split
        · exact ⟨by simp, by simp [hm], by simp⟩
        · rename_i hin
          have heq : pageUp m.start = m.start := by
            rcases h m hm with hdvd | hlt | hge
            · exact hpage.mpr hdvd
            · omega
            · omega
          rw [heq] at hin ⊢
          refine ⟨?_, by simp [hm], ?_⟩
          · intro lo hi hr
            simp only [Option.some.injEq, Prod.mk.injEq] at hr
            obtain ⟨rfl, rfl⟩ := hr
            exact ⟨m, hm, rfl, by omega, fun a _ _ => by omega⟩
          · intro m' hm' hout
            obtain rfl : m = m' := Option.some.inj (hm.symm.trans hm')
            omega

/-- **When the map lies in the reported memory.** For every well-formed sequence of tags
and every end of the binary, `memory_map` returns, and what it returns lies in the
memory reported if and only if that memory starts at a page boundary or the binary ends
outside the shifted range. -/
theorem inside_ram_iff {mem : ℕ → UInt8} {tags : List Atag}
    (h : TagsAt mem atagBase tags) (binaryEnd : ℕ) :
    ∃ r, (∃ n, ∀ fuel ≥ n, memoryMap mem fuel binaryEnd = some r) ∧
      (InsideRam tags binaryEnd r ↔ StartsAtPage tags binaryEnd) :=
  ⟨mapped (firstMem tags) binaryEnd, memoryMap_spec h binaryEnd, insideRam_mapped_iff⟩

/-- Memory with the given words from `ATAG_BASE` on and zeros elsewhere. -/
def bootMemory (words : List ℕ) (a : ℕ) : UInt8 :=
  if a < atagBase then 0
  else UInt8.ofNat (words.getD ((a - atagBase) / 4) 0 / 2 ^ (8 * ((a - atagBase) % 4)))

/-- What the firmware reports: `size` bytes of memory from `start` on, with the command
line `hello` after it. -/
def bootWords (start size : ℕ) : List ℕ :=
  [5, rawCore, 1, 2, 3, 4, rawMem, size, start, 4, rawCmdline, 1819043176, 111, 2, rawNone]

/-- The tags of `bootWords`. -/
def bootTags (start size : ℕ) : List Atag :=
  [.core ⟨1, 2, 3⟩, .mem ⟨size, start⟩, .cmd [104, 101, 108, 108, 111], .none]

/-- 256 MiB from address 0 on, as the firmware of the board reports them. -/
theorem tagsAt_board :
    TagsAt (bootMemory (bootWords 0 0x10000000)) atagBase (bootTags 0 0x10000000) := by
  refine TagsAt.cons (Encodes.core rfl) (TagsAt.cons (Encodes.mem rfl)
    (TagsAt.cons (Encodes.cmd 5 rfl ?_ rfl) (TagsAt.last rfl)))
  decide

/-- The memory that the firmware of the board reports, from 0 on. -/
theorem inside_ram_board :
    ∃ r, (∃ n, ∀ fuel ≥ n,
        memoryMap (bootMemory (bootWords 0 0x10000000)) fuel 0x90000 = some r) ∧
      InsideRam (bootTags 0 0x10000000) 0x90000 r := by
  obtain ⟨r, hr, hiff⟩ := inside_ram_iff tagsAt_board 0x90000
  refine ⟨r, hr, hiff.mpr fun m hm => ?_⟩
  obtain rfl : (⟨0x10000000, 0⟩ : Mem) = m := Option.some.inj hm
  exact Or.inl ⟨0, rfl⟩

/-- The same memory from address `0x100` on. -/
theorem tagsAt_shifted :
    TagsAt (bootMemory (bootWords 0x100 0x10000000)) atagBase
      (bootTags 0x100 0x10000000) := by
  refine TagsAt.cons (Encodes.core rfl) (TagsAt.cons (Encodes.mem rfl)
    (TagsAt.cons (Encodes.cmd 5 rfl ?_ rfl) (TagsAt.last rfl)))
  decide

/-- **The defect**: with 256 MiB reported from `0x100` on, the map handed to the
allocator ends at `0x10001000`, beyond the last byte `0x100000ff` of the memory. -/
theorem memory_map_beyond_ram :
    TagsAt (bootMemory (bootWords 0x100 0x10000000)) atagBase
        (bootTags 0x100 0x10000000) ∧
      (∃ n, ∀ fuel ≥ n, memoryMap (bootMemory (bootWords 0x100 0x10000000)) fuel 0x90000 =
        some (some (0x90000, 0x10001000))) ∧
      ¬ InsideRam (bootTags 0x100 0x10000000) 0x90000 (some (0x90000, 0x10001000)) := by
  refine ⟨tagsAt_shifted, memoryMap_spec tagsAt_shifted 0x90000, fun h => ?_⟩
  obtain ⟨m, hm, -, -, hin⟩ := h.inside _ _ rfl
  obtain rfl : (⟨0x10000000, 0x100⟩ : Mem) = m := Option.some.inj hm
  have hlast := hin 0x10000fff (by omega) (by omega)
  simp only at hlast
  omega

end OsLabs.MemoryMap
