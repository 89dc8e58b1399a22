import OsLabs.LinkedList
import OsLabs.Words

/-!
# The Bin Allocator

`kern/src/allocator/bin.rs` serves allocations from 30 free lists; list `k` holds free
blocks of `8 * 2 ^ k` bytes. `new` carves the heap into aligned power-of-two blocks,
`alloc` splits the smallest sufficient block down to the requested size, `dealloc`
pushes the block back and looks for a second block to merge it with.

The functions are written once, over an interface `FreeLists` of the list operations
they perform. The code runs them on `MemLists`, the 30 intrusive lists threaded through
memory; `OsLabs.BinSequences` runs the same functions on 30 plain sequences of
addresses.

Conventions: a result `none` is a panic (an index out of bounds, a failed `expect`, an
arithmetic overflow) or a loop that never ends; inside a result, a null pointer is
`none`. `World` adds the client's view, the blocks currently live, and `Run` is a
history of calls that obey the caller contract, interleaved with writes into live
blocks.
-/

namespace OsLabs.Bin

/-- `BIN_SIZE`. -/
def binSize : ℕ := 8

/-- `core::alloc::Layout`: the alignment is a power of two and the size, rounded up to
it, does not overflow `isize`. -/
structure Layout where
  size : ℕ
  align : ℕ
  align_pow : ∃ k, align = 2 ^ k
  size_add_align_le : size + align ≤ 2 ^ 63
deriving DecidableEq

/-- The size `alloc` and `dealloc` compute for a layout:
`max(size.next_power_of_two(), max(align, BIN_SIZE))`. -/
def Layout.roundedSize (layout : Layout) : ℕ :=
  max (nextPowerOfTwo layout.size) (max layout.align binSize)

/-- The bin index `alloc` and `dealloc` compute for a layout. -/
def Layout.bin (layout : Layout) : ℕ := trailingZeros (layout.roundedSize / binSize)

/-- The bounds check of `self.list[k]`. -/
def slot (k : ℕ) : Option (Fin 30) := if h : k < 30 then some ⟨k, h⟩ else none

/-- Below 30 an index is the one of a list. -/
theorem slot_eq_some {k : ℕ} (h : k < 30) : slot k = some ⟨k, h⟩ := dif_pos h

/-- The operations that the allocator performs on its 30 lists; `store` is a write of
the client to the memory the lists live in. -/
class FreeLists (σ : Type) where
  push : Fin 30 → ℕ → σ → σ
  peek : Fin 30 → σ → Option ℕ
  pop : Fin 30 → σ → Option (ℕ × σ)
  unlink : Fin 30 → ℕ → σ → Option (Bool × σ)
  store : ℕ → ℕ → σ → σ

/-- The fields of `bin::Allocator`. -/
structure Allocator (σ : Type) where
  list : σ
  allocated : ℕ
  length : ℕ
  total : ℕ

/-- `prev_power_of_2`. The only call has `num ≥ BIN_SIZE`. -/
def prevPowerOf2 (num : ℕ) : ℕ := 1 <<< (64 - leadingZeros num - 1)

section

variable {σ : Type} [FreeLists σ]

/-- The carving loop of `Allocator::new`. A turn that does not advance `cur` repeats
forever, so a loop that ends takes at most one turn per byte of the heap. -/
def carve (stop : ℕ) : ℕ → σ → ℕ → ℕ → Option (σ × ℕ)
  | 0, _, _, _ => none
  | fuel + 1, list, cur, total => do
    let next ← checkedAdd cur binSize
    if next ≤ stop then
      let maxAllocable := prevPowerOf2 (stop - cur)
      let negCur ← checkedAdd (complement cur) 1
      let curAligned := cur &&& negCur
      let size := min curAligned maxAllocable
      let total ← checkedAdd total size
      let k ← slot (trailingZeros (size / binSize))
      let list := FreeLists.push k cur list
      let cur ← checkedAdd cur size
      carve stop fuel list cur total
    else
      some (list, total)

/-- `Allocator::new`, on the empty lists `[LinkedList::new(); 30]`. -/
def Allocator.new (empty : σ) (start stop : ℕ) : Option (Allocator σ) := do
  let (list, total) ← carve stop (stop + 1) empty start 0
  let length ← checkedSub stop start
  some { list, allocated := 0, length, total }

/-- One turn of the splitting loop of `alloc`: the first block of list `j` is replaced
by its two halves in list `j - 1`. -/
def splitBlock (j : ℕ) (list : σ) : Option σ := do
  let hi ← slot j
  let (addr, list) ← FreeLists.pop hi list
  let lo ← slot (j - 1)
  let list := FreeLists.push lo addr list
  let upper ← checkedAdd addr (binSize <<< (j - 1))
  some (FreeLists.push lo upper list)

/-- The splitting loop `for j in (bin + 1..i + 1).rev()`, where `n = i - bin`. -/
def splitDown (bin : ℕ) : ℕ → σ → Option σ
  | 0, list => some list
  | n + 1, list => do
    let list ← splitBlock (bin + (n + 1)) list
    splitDown bin n list

/-- The first nonempty list at or above `bin`, the one the loop of `alloc` stops at. -/
def firstNonempty (bin : ℕ) (list : σ) : Option (Fin 30) :=
  (List.finRange 30).find? fun i => decide (bin ≤ i) && (FreeLists.peek i list).isSome

/-- `alloc`: the new allocator and the returned pointer. -/
def Allocator.alloc (a : Allocator σ) (layout : Layout) :
    Option (Allocator σ × Option ℕ) :=
  match firstNonempty layout.bin a.list with
  | none => some (a, none)
  | some i => do
    let list ← splitDown layout.bin (i - layout.bin) a.list
    let allocated ← checkedAdd a.allocated layout.roundedSize
    let b ← slot layout.bin
    let (addr, list) ← FreeLists.pop b list
    some ({ a with list, allocated }, some addr)

/-- The address `dealloc` looks for, `ptr ^ (BIN_SIZE << (bin + 1) >> 2)`. -/
def pairAddr (ptr bin : ℕ) : ℕ :=
  let nextBinStart := binSize <<< (bin + 1)
  let n := nextBinStart >>> 2
  ptr ^^^ n

/-- The `if exists` branch of `dealloc`: drop the head of list `bin` (the freed block)
and push the merged block one list up. -/
def mergePair (ptr pair bin : ℕ) (b : Fin 30) (list : σ) : Option σ := do
  let list := match FreeLists.pop b list with
    | some (_, list) => list
    | none => list
  let up ← slot (bin + 1)
  some (FreeLists.push up (min ptr pair) list)

/-- `dealloc`. -/
def Allocator.dealloc (a : Allocator σ) (ptr : ℕ) (layout : Layout) :
    Option (Allocator σ) := do
  let b ← slot layout.bin
  let list := FreeLists.push b ptr a.list
  let pair := pairAddr ptr layout.bin
  let (found, list) ← FreeLists.unlink b pair list
  let list ← if found then mergePair ptr pair layout.bin b list else some list
  let allocated ← checkedSub a.allocated layout.roundedSize
  some { a with list, allocated }

end

/-! ### The lists in memory -/

/-- The 30 intrusive lists and the memory their links live in. -/
structure MemLists where
  head : Fin 30 → LinkedList
  mem : Memory

/-- `[LinkedList::new(); 30]` over a memory with arbitrary contents. -/
def MemLists.empty (mem : Memory) : MemLists := ⟨fun _ => LinkedList.new, mem⟩

/-- The list operations of the code. The search loop visits a chain that ends at most
once per 64-bit address, so running out of `wordSize` turns means it never ends. -/
instance : FreeLists MemLists where
  push k a s :=
    let (l, mem) := (s.head k).push a s.mem
    ⟨Function.update s.head k l, mem⟩
  peek k s := (s.head k).peek
  pop k s := do
    let (a, l) ← (s.head k).pop s.mem
    some (a, ⟨Function.update s.head k l, s.mem⟩)
  unlink k a s := do
    let (found, l, mem) ← unlinkLoop a (s.head k) s.mem wordSize (s.head k).iterMut
    some (found, ⟨Function.update s.head k l, mem⟩)
  store a v s := { s with mem := s.mem.write a v }

/-- The addresses on list `k`, read off memory. -/
def MemLists.contents (m : MemLists) (k : Fin 30) : List ℕ :=
  (m.head k).iter m.mem wordSize

/-! ### Histories -/

/-- What a client can do: allocate, free, or change the word that holds the byte at
`addr`. -/
inductive Op where
  | alloc (layout : Layout)
  | dealloc (ptr : ℕ) (layout : Layout)
  | write (addr value : ℕ)

/-- The allocator together with the blocks its clients hold. -/
structure World (σ : Type) where
  heap : Allocator σ
  live : List (ℕ × Layout)

/-- The caller contract: layouts have positive size, a freed pointer is live with its
original layout, and writes stay inside `[ptr, ptr + layout.size())` of a live block. -/
def Op.Legal (live : List (ℕ × Layout)) : Op → Prop
  | .alloc layout => 0 < layout.size
  | .dealloc ptr layout => (ptr, layout) ∈ live
  | .write addr _ => ∃ b ∈ live, b.1 ≤ addr ∧ addr < b.1 + b.2.size

section

variable {σ : Type} [FreeLists σ]

/-- The live blocks after an allocation returned `r`. -/
def addLive (live : List (ℕ × Layout)) (layout : Layout) : Option ℕ → List (ℕ × Layout)
  | none => live
  | some ptr => (ptr, layout) :: live

/-- One client operation and the pointer it returns, if any. -/
def World.step (w : World σ) : Op → Option (World σ × Option ℕ)
  | .alloc layout => do
    let (heap, r) ← w.heap.alloc layout
    some (⟨heap, addLive w.live layout r⟩, r)
  | .dealloc ptr layout => do
    let heap ← w.heap.dealloc ptr layout
    some (⟨heap, w.live.erase (ptr, layout)⟩, none)
  | .write addr value =>
    some (⟨{ w.heap with list := FreeLists.store (8 * (addr / 8)) value w.heap.list },
      w.live⟩, none)

/-- **Histories**: `Run w tr w'` leads from `w` to `w'` by the operations of the trace
`tr`, each legal when it is made and each with the result recorded beside it. -/
inductive Run (w : World σ) : List (Op × Option ℕ) → World σ → Prop
  | nil : Run w [] w
  | snoc {tr : List (Op × Option ℕ)} {w₁ w₂ : World σ} {op : Op} {r : Option ℕ} :
      Run w tr w₁ → op.Legal w₁.live → w₁.step op = some (w₂, r) →
      Run w (tr ++ [(op, r)]) w₂

end

/-- The heap bounds that `new` is called with: the linker aligns `__text_end` to 8 and
`memory_map` adds two 32-bit fields. -/
structure Bounds (start stop : ℕ) : Prop where
  pos : 0 < start
  aligned : 8 ∣ start
  le : start ≤ stop
  lt : stop < 2 ^ 33

end OsLabs.Bin
