import OsLabs.RadixTree
import OsLabs.Xv6Kalloc

/-!
# Page Tables of xv6

`walk`, `walkaddr`, `mappages`, `uvmunmap` and `freewalk` of `xv6/kernel/vm.c`, over the memory
and the allocator of `OsLabs.Xv6Kalloc`. A page table is a radix tree of three levels, in
memory, whose entries are the 64-bit words of the hardware.

## Main results

* `PTE2PA_or`, `flags_or`: an entry keeps the address and the flags that it is made of.
* `va_eq_of_path`: a page of user memory is determined by its indices.
* `walk_eq`: without `alloc`, `walk` is the search of `OsLabs.RadixTree`.
-/

namespace OsLabs.Xv6Memory

/-! ### Entries -/

/-- An entry of a page table. -/
abbrev Pte := BitVec 64

/-- The entry is valid. -/
def PTE_V : Pte := 1

/-- The page can be read. -/
def PTE_R : Pte := 2

/-- The page can be written. -/
def PTE_W : Pte := 4

/-- The page can be executed. -/
def PTE_X : Pte := 8

/-- The user can reach the page. -/
def PTE_U : Pte := 16

/-- `PA2PTE(pa)`: the number of a page, where an entry has it. -/
def PA2PTE (pa : Addr) : Pte := (pa >>> 12) <<< 10

/-- `PTE2PA(pte)`: the page that an entry points to. -/
def PTE2PA (pte : Pte) : Addr := (pte >>> 10) <<< 12

/-- `PTE_FLAGS(pte)`: the low ten bits of an entry. -/
def PTE_FLAGS (pte : Pte) : Pte := pte &&& 0x3FF

/-- The index of an address in a table of level `level`. -/
def PX (level : ℕ) (va : Addr) : Fin 512 :=
  ⟨((va >>> (12 + 9 * level)) &&& 0x1FF).toNat, by
    rw [BitVec.toNat_and]
    exact Nat.lt_of_le_of_lt Nat.and_le_right (by decide)⟩

/-- One above the highest virtual address, a bit less than the hardware allows. -/
def MAXVA : Addr := 1 <<< (9 + 9 + 9 + 12 - 1)

/-- Where a valid entry points to. -/
def child (pte : Pte) : Option Addr := if pte &&& PTE_V ≠ 0 then some (PTE2PA pte) else none

/-- The indices of an address in the tables from level `level` to 1. -/
def path (va : Addr) : ℕ → List (Fin 512)
  | 0 => []
  | level + 1 => PX (level + 1) va :: path va level

namespace Mem

variable (s : Mem)

/-- `*pte = …`, with the entry `i` of the table `t`. -/
def setPte (t : Addr) (i : Fin 512) (pte : Pte) : Mem := { s with page := setEntry s.page t i pte }

/-- The loop of `walk` from a table of level `level` down to the one of level 0. -/
def walkLoop (va : Addr) (alloc : Bool) : ℕ → Addr → Mem → Mem × Option Addr
  | 0, t, s => (s, some t)
  | level + 1, t, s =>
    let pte := s.page t (PX (level + 1) va)
    if pte &&& PTE_V ≠ 0 then walkLoop va alloc level (PTE2PA pte) s
    else if alloc = false then (s, none)
    else
      let (s, r) := s.kalloc
      if r = 0 then (s, none)
      else
        -- `memset(pagetable, 0, PGSIZE); *pte = PA2PTE(pagetable) | PTE_V`
        walkLoop va alloc level r { s with
          page := graftTable s.page 0 t (PX (level + 1) va) (PA2PTE r ||| PTE_V) r }

/-- `walk`: the table and the index of the entry, if there is one. It panics for an address
from `MAXVA` on. -/
def walk (pagetable va : Addr) (alloc : Bool) : Option (Mem × Option (Addr × Fin 512)) :=
  if MAXVA ≤ va then none
  else
    let (s, t) := s.walkLoop va alloc 2 pagetable
    some (s, t.map fun t => (t, PX 0 va))

/-- `walkaddr`: the physical address of a user page, or 0. -/
def walkaddr (pagetable va : Addr) : Addr :=
  if MAXVA ≤ va then 0
  else
    match s.walk pagetable va false with
    | some (_, some (t, i)) =>
      let pte := s.page t i
      if pte &&& PTE_V = 0 then 0 else if pte &&& PTE_U = 0 then 0 else PTE2PA pte
    | _ => 0

/-- The loop of `mappages`. -/
def mappagesLoop (pagetable last : Addr) (perm : Pte) :
    ℕ → Addr → Addr → Mem → Option (Mem × Bool)
  | 0, _, _, _ => none
  | fuel + 1, a, pa, s =>
    match s.walk pagetable a true with
    | none => none
    | some (s, none) => some (s, false)
    | some (s, some (t, i)) =>
      if s.page t i &&& PTE_V ≠ 0 then none
      else
        let s := s.setPte t i (PA2PTE pa ||| perm ||| PTE_V)
        if a = last then some (s, true)
        else mappagesLoop pagetable last perm fuel (a + PGSIZE) (pa + PGSIZE) s

/-- `mappages`: whether there were pages for the tables. It panics for addresses that are not
aligned and for a mapped page. -/
def mappages (pagetable va size pa : Addr) (perm : Pte) : Option (Mem × Bool) :=
  if va % PGSIZE ≠ 0 ∨ size % PGSIZE ≠ 0 ∨ size = 0 then none
  else s.mappagesLoop pagetable (va + size - PGSIZE) perm (size / PGSIZE).toNat va pa

/-- The loop of `uvmunmap`, from `a` up to `stop`. -/
def uvmunmapLoop (K : Kernel) (pagetable stop : Addr) (doFree : Bool) :
    ℕ → Addr → Mem → Option Mem
  | 0, _, s => some s
  | fuel + 1, a, s =>
    if a < stop then
      match s.walk pagetable a false with
      | some (_, some (t, i)) =>
        let pte := s.page t i
        if pte &&& PTE_V = 0 ∨ PTE_FLAGS pte = PTE_V then none
        else
          match (if doFree then s.kfree K (PTE2PA pte) else some s) with
          | none => none
          | some s => uvmunmapLoop K pagetable stop doFree fuel (a + PGSIZE) (s.setPte t i 0)
      | _ => none
    else some s

/-- `uvmunmap`. It panics for a page that is not mapped. -/
def uvmunmap (K : Kernel) (pagetable va npages : Addr) (doFree : Bool) : Option Mem :=
  if va % PGSIZE ≠ 0 then none
  else s.uvmunmapLoop K pagetable (va + npages * PGSIZE) doFree (npages.toNat + 1) va

/-- The loop of `freewalk` over the entries `is`. It panics for a leaf. -/
def freewalkLoop (freewalk : Addr → Mem → Option Mem) (pagetable : Addr) :
    List (Fin 512) → Mem → Option Mem
  | [], s => some s
  | i :: is, s =>
    let pte := s.page pagetable i
    if pte &&& PTE_V ≠ 0 ∧ pte &&& (PTE_R ||| PTE_W ||| PTE_X) = 0 then
      match freewalk (PTE2PA pte) s with
      | some s => freewalkLoop freewalk pagetable is (s.setPte pagetable i 0)
      | none => none
    else if pte &&& PTE_V ≠ 0 then none
    else freewalkLoop freewalk pagetable is s

/-- `freewalk`, for a page table with this number of levels. -/
def freewalk (K : Kernel) : ℕ → Addr → Mem → Option Mem
  | 0, _, _ => none
  | levels + 1, pagetable, s =>
    (freewalkLoop (freewalk K levels) pagetable (List.finRange 512) s).bind fun s =>
      s.kfree K pagetable

end Mem

/-- A table whose entry is written is as before but for that entry. -/
theorem page_setPte_self {s : Mem} (t : Addr) (i : Fin 512) (w : Pte) :
    (s.setPte t i w).page t = Function.update (s.page t) i w :=
  Function.update_self ..

section

variable {pa va va' : Addr} {w f m : Pte} {k : ℕ}

/-- A common bit makes the conjunction of two words different from 0. -/
theorem and_ne_zero (hw : w.getLsbD k = true) (hm : m.getLsbD k = true) : w &&& m ≠ 0 := by
  intro hzero
  have hbit := congrArg (fun x : BitVec 64 => x.getLsbD k) hzero
  simp [hw, hm] at hbit

/-- An entry is valid if its bit 0 is set. -/
theorem valid_iff : w &&& PTE_V ≠ 0 ↔ w.getLsbD 0 = true := by
  have hmask : PTE_V = BitVec.twoPow 64 0 := by decide
  rw [hmask, BitVec.and_twoPow]
  split
  · exact iff_of_true (by decide) ‹_›
  · exact iff_of_false (not_not.2 rfl) ‹_›

/-- An entry that is 0 points to nothing. -/
@[simp] theorem child_zero : child 0 = none := by decide

/-- A valid entry points to the page that it has the number of. -/
theorem child_eq_some : child w = some pa ↔ w &&& PTE_V ≠ 0 ∧ PTE2PA w = pa := by
  by_cases h : w &&& PTE_V = 0
  · rw [child, if_neg (not_not.2 h)]
    exact iff_of_false nofun fun heq => heq.1 h
  · rw [child, if_pos h, Option.some_inj]
    exact (and_iff_right h).symm

/-- An entry that is not valid points to nothing. -/
theorem child_eq_none : child w = none ↔ w &&& PTE_V = 0 := by
  by_cases h : w &&& PTE_V = 0
  · rw [child, if_neg (not_not.2 h)]
    exact iff_of_true rfl h
  · rw [child, if_pos h]
    exact iff_of_false nofun h

/-- The flags of an entry are below its address. -/
theorem PTE2PA_or (hpa : pa % PGSIZE = 0) (hf : f &&& 0x3FF = f) :
    PTE2PA (PA2PTE pa ||| f) = pa := by
  have hlow : ∀ j, j < 12 → pa.getLsbD j = false := by
    intro j hj
    have hmod : pa.toNat % 2 ^ 12 = 0 := by
      have htoNat := congrArg BitVec.toNat hpa
      rwa [BitVec.toNat_umod] at htoNat
    have hbit : (pa.toNat % 2 ^ 12).testBit j = false := by rw [hmod, Nat.zero_testBit]
    rwa [Nat.testBit_mod_two_pow, decide_eq_true hj, Bool.true_and] at hbit
  have hhigh : ∀ j, 10 ≤ j → f.getLsbD j = false := by
    intro j hj
    by_cases hj64 : j < 64
    · have hbit := congrArg (fun x : BitVec 64 => x.getLsbD j) hf
      have hmask : (0x3FF : BitVec 64).getLsbD j = decide (j < 10) :=
        getLsbD_mask (by decide) hj64
      simp only [BitVec.getLsbD_and, hmask, decide_eq_false (Nat.not_lt.2 hj), Bool.and_false]
        at hbit
      exact hbit.symm
    · exact BitVec.getLsbD_of_ge f j (Nat.not_lt.1 hj64)
  refine BitVec.eq_of_getLsbD_eq fun i hi => ?_
  rw [PTE2PA, PA2PTE, BitVec.getLsbD_shiftLeft, BitVec.getLsbD_ushiftRight, BitVec.getLsbD_or,
    BitVec.getLsbD_shiftLeft, BitVec.getLsbD_ushiftRight]
  by_cases h : i < 12
  · simp [h, hlow i h]
  · have hidx : 12 + (i - 12) = i := by omega
    have hlt : 10 + (i - 12) < 64 := by omega
    have hge : ¬10 + (i - 12) < 10 := by omega
    have hflag := hhigh (10 + (i - 12)) (by omega)
    rw [BitVec.getLsbD_eq_getElem hlt] at hflag
    simp [h, hi, hidx, hlt, hge, hflag]

/-- The flags of an entry are those it was made with. -/
theorem flags_or (hf : f &&& 0x3FF = f) : PTE_FLAGS (PA2PTE pa ||| f) = f := by
  refine BitVec.eq_of_getLsbD_eq fun i hi => ?_
  have hbit := congrArg (fun x : BitVec 64 => x.getLsbD i) hf
  have hmask : (0x3FF : BitVec 64).getLsbD i = decide (i < 10) := getLsbD_mask (by decide) hi
  simp only [BitVec.getLsbD_and, hmask] at hbit
  rw [PTE_FLAGS, BitVec.getLsbD_and, BitVec.getLsbD_or, hmask, PA2PTE, BitVec.getLsbD_shiftLeft]
  by_cases h : i < 10
  · simp [h]
  · simpa [h] using hbit

/-- A mask of flags sees the flags only. -/
theorem and_flags (hm : m &&& 0x3FF = m) : w &&& m = PTE_FLAGS w &&& m := by
  rw [PTE_FLAGS, BitVec.and_assoc, BitVec.and_comm 0x3FF, hm]

/-- The index of a level is nine bits of the address. -/
theorem toNat_PX (level : ℕ) (va : Addr) :
    (PX level va).val = va.toNat / 2 ^ (12 + 9 * level) % 512 := by
  change ((va >>> (12 + 9 * level)) &&& 0x1FF).toNat = _
  rw [BitVec.toNat_and, BitVec.toNat_ushiftRight, Nat.shiftRight_eq_div_pow]
  exact Nat.and_two_pow_sub_one_eq_mod _ 9

/-- A path has one index for each level. -/
theorem length_path (va : Addr) (level : ℕ) : (path va level).length = level := by
  induction level with
  | zero => rfl
  | succ level ih => rw [path, List.length_cons, ih]

/-- A page is determined by its indices. -/
theorem va_eq_of_path (hva : va.toNat % 4096 = 0) (hva' : va'.toNat % 4096 = 0)
    (hlt : va < MAXVA) (hlt' : va' < MAXVA) (hpath : path va 2 = path va' 2)
    (hlast : PX 0 va = PX 0 va') : va = va' := by
  have hmax : MAXVA.toNat = 2 ^ 38 := by decide
  rw [BitVec.lt_def, hmax] at hlt hlt'
  have hindex : ∀ level, PX level va = PX level va' →
      va.toNat / 2 ^ (12 + 9 * level) % 512 = va'.toNat / 2 ^ (12 + 9 * level) % 512 :=
    fun level heq => by rw [← toNat_PX, ← toNat_PX, heq]
  have h2 : va.toNat / 2 ^ 30 % 512 = va'.toNat / 2 ^ 30 % 512 :=
    hindex 2 (List.cons.inj hpath).1
  have h1 : va.toNat / 2 ^ 21 % 512 = va'.toNat / 2 ^ 21 % 512 :=
    hindex 1 (List.cons.inj (List.cons.inj hpath).2).1
  have h0 : va.toNat / 2 ^ 12 % 512 = va'.toNat / 2 ^ 12 % 512 := hindex 0 hlast
  refine BitVec.eq_of_toNat_eq ?_
  omega

end

/-! ### The search -/

section

variable {s : Mem} {va : Addr}

/-- The entry of an address in a page table, or 0. -/
def entry (s : Mem) (pagetable va : Addr) : Pte :=
  lookup child 0 s.page pagetable (path va 2) (PX 0 va)

/-- **`walk` without `alloc`** is the descent along the path of the address, and changes
nothing. -/
theorem walkLoop_eq (va : Addr) (level : ℕ) (t : Addr) :
    s.walkLoop va false level t = (s, descend child s.page t (path va level)) := by
  induction level generalizing t with
  | zero => rfl
  | succ level ih =>
    rw [Mem.walkLoop, path, descend]
    dsimp only
    split
    · rename_i hvalid
      rw [ih, child_eq_some.2 ⟨hvalid, rfl⟩]
      rfl
    · rename_i hvalid
      rw [child_eq_none.2 (not_not.1 hvalid)]
      rfl

/-- `walk` without `alloc` is a descent along the path of the address. -/
theorem walk_eq (hva : va < MAXVA) (t : Addr) : s.walk t va false =
    some (s, (descend child s.page t (path va 2)).map fun t => (t, PX 0 va)) := by
  rw [Mem.walk, if_neg (BitVec.not_le.2 hva), walkLoop_eq]

end

end OsLabs.Xv6Memory
