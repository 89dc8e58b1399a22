import Mathlib.Algebra.Group.Nat.Defs
import OsLabs.DoublyLinked

/-!
# The Page Allocator of xv6

`kinit`, `freerange`, `kfree` and `kalloc` of `xv6/kernel/kalloc.c`. The free pages are a list
that is linked through their own first words. Memory is kept by pages, a page as its 512
words of 64 bits; the pages are named by their addresses.

## Main results

* `FreeList.kalloc`, `FreeList.kfree`: the calls take and put a page at the front of the list.
* `kinit_spec`: `kinit` frees every page from `end` to `PHYSTOP` once.
-/

namespace OsLabs.Xv6Memory

/-- An address, virtual or physical. -/
abbrev Addr := BitVec 64

/-- The words of a page. -/
abbrev Page := Fin 512 → BitVec 64

/-- The bytes of a page. -/
def PGSIZE : Addr := 4096

/-- The start of the physical memory. -/
def KERNBASE : Addr := 0x80000000

/-- Its end: the machine has 128 MiB. -/
def PHYSTOP : Addr := KERNBASE + 128 * 1024 * 1024

/-- `PGROUNDUP(sz)`: the start of the first page that is not below the address. -/
def PGROUNDUP (sz : Addr) : Addr := (sz + PGSIZE - 1) &&& ~~~(PGSIZE - 1)

/-- `PGROUNDDOWN(a)`: the start of the page of the address. -/
def PGROUNDDOWN (a : Addr) : Addr := a &&& ~~~(PGSIZE - 1)

/-- What `kernel.ld` says of the kernel, which is loaded at `KERNBASE`: `end`, the first address
after it, and the page of `trampoline`. -/
structure Kernel where
  endAddr : Addr
  kernbase_le : KERNBASE ≤ endAddr
  le_physTop : endAddr ≤ PHYSTOP
  trampoline : Addr
  trampoline_aligned : trampoline % PGSIZE = 0
  trampoline_lt : trampoline < endAddr

/-- The physical memory and `kmem.freelist`. -/
structure Mem where
  page : Addr → Page
  freelist : Addr

/-- What `kfree` does not panic on: a page of memory behind the kernel. -/
def Kernel.IsPage (K : Kernel) (pa : Addr) : Prop :=
  pa % PGSIZE = 0 ∧ K.endAddr ≤ pa ∧ pa < PHYSTOP

instance (K : Kernel) (pa : Addr) : Decidable (K.IsPage pa) :=
  inferInstanceAs (Decidable (_ ∧ _ ∧ _))

namespace Mem

variable (K : Kernel) (s : Mem)

/-- The memory with another page. -/
def setPage (pa : Addr) (data : Page) : Mem := { s with page := Function.update s.page pa data }

/-- `kfree`. It panics if `pa` is not a page. -/
def kfree (pa : Addr) : Option Mem :=
  if K.IsPage pa then
    -- `memset(pa, 1, PGSIZE); r->next = kmem.freelist; kmem.freelist = r`
    let junk : Page := fun _ => 0x0101010101010101
    some ({ s with freelist := pa }.setPage pa (Function.update junk 0 s.freelist))
  else none

/-- `kalloc`: the page, or 0 if there is none. -/
def kalloc : Mem × Addr :=
  let r := s.freelist
  if r ≠ 0 then
    -- `kmem.freelist = r->next; memset((char*)r, 5, PGSIZE)`
    ({ s with freelist := s.page r 0 }.setPage r fun _ => 0x0505050505050505, r)
  else (s, r)

/-- The loop of `freerange`. -/
def freerange (paEnd : Addr) : ℕ → Addr → Mem → Option Mem
  | 0, _, s => some s
  | fuel + 1, p, s =>
    if p + PGSIZE ≤ paEnd then
      match s.kfree K p with
      | some s' => freerange paEnd fuel (p + PGSIZE) s'
      | none => none
    else some s

/-- `kinit`. There are less than `2 ^ 15` pages of memory. -/
def kinit : Option Mem := freerange K PHYSTOP (2 ^ 15 + 1) (PGROUNDUP K.endAddr) s

/-- The links of the free list, from `kmem.freelist` on. -/
def next : Option Addr → Option Addr
  | none => if s.freelist = 0 then none else some s.freelist
  | some r => if s.page r 0 = 0 then none else some (s.page r 0)

end Mem

/-- The free list has these pages. -/
structure FreeList (s : Mem) (l : List Addr) : Prop where
  path : Leads s.next none l
  nodup : l.Nodup

variable {K : Kernel} {s s' : Mem} {l : List Addr} {p r : Addr}

/-! ### Pages -/

/-- No page is at 0, so 0 can stand for no page. -/
theorem Kernel.IsPage.ne_zero (h : K.IsPage p) : p ≠ 0 := by
  rintro rfl
  exact absurd (BitVec.le_trans K.kernbase_le h.2.1) (by decide)

/-- The other pages are as they were. -/
theorem page_setPage_of_ne {q : Addr} (data : Page) (h : q ≠ p) :
    (s.setPage p data).page q = s.page q :=
  Function.update_of_ne h ..

/-- A page that is written has the new contents. -/
@[simp] theorem page_setPage_self (data : Page) : (s.setPage p data).page p = data :=
  Function.update_self ..

/-! ### The calls -/

/-- **`kalloc` takes the first free page** off the list and touches no other page. -/
theorem FreeList.kalloc (h : FreeList s (r :: l)) :
    s.kalloc.2 = r ∧ r ≠ 0 ∧ FreeList s.kalloc.1 l ∧ ∀ q, q ≠ r → s.kalloc.1.page q = s.page q := by
  have hhead : s.next none = some r := h.path.1
  obtain ⟨hrl, hnodup⟩ := List.nodup_cons.1 h.nodup
  have hfree : s.freelist ≠ 0 ∧ s.freelist = r := by
    rw [Mem.next] at hhead
    split at hhead
    · exact nomatch hhead
    · exact ⟨‹_›, Option.some.inj hhead⟩
  obtain ⟨hne, rfl⟩ := hfree
  rw [Mem.kalloc, if_pos hne]
  refine ⟨rfl, hne, ⟨h.path.2.congr rfl fun y hy => ?_, hnodup⟩, fun q hq => ?_⟩
  · have hys : y ≠ s.freelist := fun heq => hrl (heq ▸ hy)
    rw [Mem.next, Mem.next, page_setPage_of_ne _ hys]
  · exact page_setPage_of_ne _ hq

/-- Without a free page it returns 0. -/
theorem FreeList.kalloc_nil (h : FreeList s []) : s.kalloc = (s, 0) := by
  have hhead : s.next none = none := h.path
  have hzero : s.freelist = 0 := by
    rw [Mem.next] at hhead
    split at hhead
    · assumption
    · exact nomatch hhead
  rw [Mem.kalloc, hzero, if_neg (not_not.2 rfl)]

/-- **`kfree` puts the page in front** of the list and touches no other page. -/
theorem FreeList.kfree (h : FreeList s l) (hp : K.IsPage p) (hpl : p ∉ l) :
    ∃ s', s.kfree K p = some s' ∧ FreeList s' (p :: l) ∧ ∀ q, q ≠ p → s'.page q = s.page q := by
  rw [Mem.kfree, if_pos hp]
  refine ⟨_, rfl, ⟨⟨if_neg hp.ne_zero, h.path.congr ?_ fun y hy => ?_⟩,
    List.nodup_cons.2 ⟨hpl, h.nodup⟩⟩, fun q hq => page_setPage_of_ne _ hq⟩
  · rw [Mem.next, Mem.next, page_setPage_self, Function.update_self]
  · have hyp : y ≠ p := fun heq => hpl (heq ▸ hy)
    rw [Mem.next, Mem.next, page_setPage_of_ne _ hyp]

/-! ### The start -/

/-- The bits of a mask of the low bits. -/
theorem getLsbD_mask {k i : ℕ} {m : BitVec 64} (hm : m = (BitVec.allOnes k).setWidth 64)
    (hi : i < 64) : m.getLsbD i = decide (i < k) := by
  rw [hm, BitVec.getLsbD_setWidth, BitVec.getLsbD_allOnes, decide_eq_true hi, Bool.true_and]

/-- The address of the page of an address. -/
theorem toNat_pgRoundDown (a : Addr) : (PGROUNDDOWN a).toNat = a.toNat / 4096 * 4096 := by
  have hshift : PGROUNDDOWN a = (a >>> 12) <<< 12 := by
    refine BitVec.eq_of_getLsbD_eq fun i hi => ?_
    have hmask : (PGSIZE - 1).getLsbD i = decide (i < 12) := getLsbD_mask (by decide) hi
    rw [PGROUNDDOWN, BitVec.getLsbD_and, BitVec.getLsbD_not, hmask, BitVec.getLsbD_shiftLeft,
      BitVec.getLsbD_ushiftRight, decide_eq_true hi]
    by_cases h : i < 12
    · simp [h]
    · simp [h, Nat.add_sub_cancel' (Nat.le_of_not_lt h)]
  rw [hshift, BitVec.toNat_shiftLeft, BitVec.toNat_ushiftRight, Nat.shiftLeft_eq,
    Nat.shiftRight_eq_div_pow]
  omega

/-- `PGROUNDUP` rounds up where the sum does not overflow. -/
theorem toNat_pgRoundUp {a : Addr} (h : a.toNat < 2 ^ 63) :
    (PGROUNDUP a).toNat = (a.toNat + 4095) / 4096 * 4096 := by
  have hsum : (a + PGSIZE - 1).toNat = a.toNat + 4095 := by
    rw [PGSIZE]
    bv_omega
  rw [← hsum]
  exact toNat_pgRoundDown _

/-- The test of `kfree` in numbers: a multiple of the page size between the end of the kernel and
the end of memory. -/
theorem Kernel.isPage_iff : K.IsPage p ↔
    p.toNat % 4096 = 0 ∧ K.endAddr.toNat ≤ p.toNat ∧ p.toNat < PHYSTOP.toNat := by
  have haligned : p % PGSIZE = 0 ↔ p.toNat % 4096 = 0 := by
    rw [← BitVec.toNat_inj, BitVec.toNat_umod]
    rfl
  rw [Kernel.IsPage, haligned, BitVec.le_def, BitVec.lt_def]

/-- The loop of `freerange` from a page on, when the pages before it are free. -/
theorem freerange_spec {fuel : ℕ} (h : FreeList s l) (hp : p.toNat % 4096 = 0)
    (hend : K.endAddr.toNat ≤ p.toNat)
    (hl : ∀ q, q ∈ l ↔ K.IsPage q ∧ q.toNat < p.toNat) (hle : p.toNat ≤ PHYSTOP.toNat)
    (hfuel : PHYSTOP.toNat < p.toNat + fuel * 4096) :
    ∃ s' l', s.freerange K PHYSTOP fuel p = some s' ∧ FreeList s' l' ∧
      ∀ q, q ∈ l' ↔ K.IsPage q := by
  have hstop : PHYSTOP.toNat = 0x88000000 := rfl
  induction fuel generalizing s l p with
  | zero => omega
  | succ fuel ih =>
    have hsize : (p + PGSIZE).toNat = p.toNat + 4096 := by
      rw [PGSIZE]
      bv_omega
    by_cases hroom : p + PGSIZE ≤ PHYSTOP
    · have hpage : K.IsPage p := by
        rw [BitVec.le_def, hsize] at hroom
        exact Kernel.isPage_iff.2 ⟨hp, hend, by omega⟩
      have hpl : p ∉ l := fun hmem => Nat.lt_irrefl _ ((hl p).1 hmem).2
      obtain ⟨s₁, hfree, hlist, -⟩ := h.kfree hpage hpl
      rw [Mem.freerange, if_pos hroom, hfree]
      rw [BitVec.le_def, hsize] at hroom
      refine ih hlist (by omega) (by omega) (fun q => ?_) (by omega) (by omega)
      rw [List.mem_cons, hl]
      constructor
      · rintro (rfl | ⟨hq, hlt⟩)
        · exact ⟨hpage, by omega⟩
        · exact ⟨hq, by omega⟩
      · rintro ⟨hq, hlt⟩
        by_cases hqp : q.toNat = p.toNat
        · exact .inl (BitVec.eq_of_toNat_eq hqp)
        · -- There is no page between `p` and the next one.
          have hmod := (Kernel.isPage_iff.1 hq).1
          exact .inr ⟨hq, by omega⟩
    · rw [Mem.freerange, if_neg hroom]
      rw [BitVec.le_def, hsize] at hroom
      refine ⟨s, l, rfl, h, fun q => (hl q).trans ⟨fun hq => hq.1, fun hq => ⟨hq, ?_⟩⟩⟩
      have hq' := Kernel.isPage_iff.1 hq
      omega

/-- **`kinit` frees every page of memory once.** -/
theorem kinit_spec (hs : s.freelist = 0) :
    ∃ s' l, s.kinit K = some s' ∧ FreeList s' l ∧ ∀ q, q ∈ l ↔ K.IsPage q := by
  have hbase : KERNBASE.toNat = 0x80000000 := rfl
  have hstop : PHYSTOP.toNat = 0x88000000 := rfl
  have hle := K.kernbase_le
  have hge := K.le_physTop
  rw [BitVec.le_def] at hle hge
  have hround := toNat_pgRoundUp (a := K.endAddr) (by omega)
  refine freerange_spec (l := []) ⟨if_pos hs, List.nodup_nil⟩ ?_ ?_ (fun q => ?_) ?_ ?_
  · omega
  · omega
  · refine iff_of_false List.not_mem_nil fun hq => ?_
    have hq' := Kernel.isPage_iff.1 hq.1
    omega
  · omega
  · omega

end OsLabs.Xv6Memory
