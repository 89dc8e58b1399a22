import Mathlib.Data.Finset.Card
import OsLabs.Xv6Freewalk

/-!
# Address Spaces of xv6

The functions of `xv6/kernel/vm.c` and `xv6/kernel/proc.c` for the memory of a process:
`uvmcreate`, `uvmalloc`, `uvmdealloc`, `uvmfree` and `uvmcopy`, and
`proc_pagetable` and `proc_freepagetable`.

`Space K use s r tf n` says that the page table `r` is the one of a process: the first `n` bytes
are mapped, the trampoline and the trapframe `tf` are, and nothing else is.

## Main results

* `Inv.size_le`: memory bounds the size of a process.
* `Space.of_keeps`: the page table after a change of some of its pages.
* `Inv.mapNew`, `Space.grow`: a process gains a page, or there is no memory and nothing changes.
-/

namespace OsLabs.Xv6Memory

/-- The highest page of every address space, with the code that enters and leaves the kernel. -/
def TRAMPOLINE : Addr := MAXVA - PGSIZE

/-- The page below it, which the trampoline code uses to save the registers of the process. -/
def TRAPFRAME : Addr := TRAMPOLINE - PGSIZE

namespace Mem

variable (K : Kernel) (s : Mem)

/-- `uvmcreate`: the page table, or 0. -/
def uvmcreate : Mem × Addr :=
  let (s, pagetable) := s.kalloc
  if pagetable = 0 then (s, 0) else (s.setPage pagetable fun _ => 0, pagetable)

/-- `uvmdealloc`: the new size. The number of pages is an `int`. -/
def uvmdealloc (pagetable oldsz newsz : Addr) : Option (Mem × Addr) :=
  if oldsz ≤ newsz then some (s, oldsz)
  else if PGROUNDUP newsz < PGROUNDUP oldsz then
    let npages : BitVec 32 := ((PGROUNDUP oldsz - PGROUNDUP newsz) / PGSIZE).setWidth 32
    (s.uvmunmap K pagetable (PGROUNDUP newsz) (npages.signExtend 64) true).map fun s => (s, newsz)
  else some (s, newsz)

/-- The loop of `uvmalloc`: whether there was memory. -/
def uvmallocLoop (pagetable oldsz newsz xperm : Addr) : ℕ → Addr → Mem → Option (Mem × Bool)
  | 0, _, _ => none
  | fuel + 1, a, s =>
    if a < newsz then
      let (s, mem) := s.kalloc
      if mem = 0 then (s.uvmdealloc K pagetable a oldsz).map fun (s, _) => (s, false)
      else
        match (s.setPage mem fun _ => 0).mappages pagetable a PGSIZE mem
          (PTE_R ||| PTE_U ||| xperm) with
        | none => none
        | some (s, false) =>
          match s.kfree K mem with
          | none => none
          | some s => (s.uvmdealloc K pagetable a oldsz).map fun (s, _) => (s, false)
        | some (s, true) => uvmallocLoop pagetable oldsz newsz xperm fuel (a + PGSIZE) s
    else some (s, true)

/-- `uvmalloc`: the new size, or 0. There are less than `2 ^ 15` pages of memory, so the loop
ends whatever `newsz` is. -/
def uvmalloc (pagetable oldsz newsz xperm : Addr) : Option (Mem × Addr) :=
  if newsz < oldsz then some (s, oldsz)
  else
    (s.uvmallocLoop K pagetable (PGROUNDUP oldsz) newsz xperm (2 ^ 15 + 2) (PGROUNDUP oldsz)).map
      fun (s, ok) => (s, if ok then newsz else 0)

/-- `uvmfree`. -/
def uvmfree (pagetable sz : Addr) : Option Mem :=
  if sz ≠ 0 then
    (s.uvmunmap K pagetable 0 (PGROUNDUP sz / PGSIZE) true).bind fun s => s.freewalk K 3 pagetable
  else s.freewalk K 3 pagetable

/-- The loop of `uvmcopy`. -/
def uvmcopyLoop (old new sz : Addr) : ℕ → Addr → Mem → Option (Mem × Bool)
  | 0, _, _ => none
  | fuel + 1, i, s =>
    if i < sz then
      match s.walk old i false with
      | some (_, some (t, j)) =>
        let pte := s.page t j
        if pte &&& PTE_V = 0 then none
        else
          let (s, mem) := s.kalloc
          if mem = 0 then (s.uvmunmap K new 0 (i / PGSIZE) true).map fun s => (s, false)
          else
            match (s.setPage mem (s.page (PTE2PA pte))).mappages new i PGSIZE mem
              (PTE_FLAGS pte) with
            | none => none
            | some (s, false) =>
              match s.kfree K mem with
              | none => none
              | some s => (s.uvmunmap K new 0 (i / PGSIZE) true).map fun s => (s, false)
            | some (s, true) => uvmcopyLoop old new sz fuel (i + PGSIZE) s
      | _ => none
    else some (s, true)

/-- `uvmcopy`: whether there was memory. It panics if a page is not mapped. -/
def uvmcopy (old new sz : Addr) : Option (Mem × Bool) :=
  s.uvmcopyLoop K old new sz (sz.toNat / 4096 + 2) 0

/-- `proc_pagetable`: the page table, or 0. -/
def proc_pagetable (trapframe : Addr) : Option (Mem × Addr) :=
  let (s, pagetable) := s.uvmcreate
  if pagetable = 0 then some (s, 0)
  else
    match s.mappages pagetable TRAMPOLINE PGSIZE K.trampoline (PTE_R ||| PTE_X) with
    | none => none
    | some (s, false) => (s.uvmfree K pagetable 0).map fun s => (s, 0)
    | some (s, true) =>
      match s.mappages pagetable TRAPFRAME PGSIZE trapframe (PTE_R ||| PTE_W) with
      | none => none
      | some (s, false) =>
        (s.uvmunmap K pagetable TRAMPOLINE 1 false).bind fun s =>
          (s.uvmfree K pagetable 0).map fun s => (s, 0)
      | some (s, true) => some (s, pagetable)

/-- `proc_freepagetable`. -/
def proc_freepagetable (pagetable sz : Addr) : Option Mem :=
  (s.uvmunmap K pagetable TRAMPOLINE 1 false).bind fun s =>
    (s.uvmunmap K pagetable TRAPFRAME 1 false).bind fun s => s.uvmfree K pagetable sz

end Mem

/-- **The page table `r` of a process** with `n` bytes of memory and the trapframe `tf`. -/
structure Space (K : Kernel) (use : Addr → Option Use) (s : Mem) (r tf : Addr) (n : ℕ) :
    Prop where
  root : IsRoot use r
  aligned : n % 4096 = 0
  bound : n ≤ 2 ^ 27
  mapped : ∀ va, IsVa va → va.toNat < n → ∃ p, Mapped use s r va p
  rest : ∀ va, IsVa va → n ≤ va.toNat → va ≠ TRAMPOLINE → va ≠ TRAPFRAME →
    entry s r va &&& PTE_V = 0
  trampoline : entry s r TRAMPOLINE = PA2PTE K.trampoline ||| (PTE_R ||| PTE_X) ||| PTE_V
  trapframe : entry s r TRAPFRAME = PA2PTE tf ||| (PTE_R ||| PTE_W) ||| PTE_V

section

variable {K : Kernel} {use use' use₁ : Addr → Option Use} {s s' s₁ : Mem}
  {p q r r' tf t va : Addr} {perm : Pte} {n n' : ℕ} {P : Addr → Addr → Prop} {X : Addr → Prop}

/-- The trampoline is a page below `MAXVA`. -/
theorem isVa_trampoline : IsVa TRAMPOLINE := ⟨by decide, by decide⟩

/-- The trapframe is a page below `MAXVA`. -/
theorem isVa_trapframe : IsVa TRAPFRAME := ⟨by decide, by decide⟩

/-- **Memory bounds the size of a process**: its pages are different pages of memory. -/
theorem Inv.size_le (h : Inv K use s) (hr : IsRoot use r) (hn : n % 4096 = 0) (hmax : n ≤ 2 ^ 38)
    (hmapped : ∀ va, IsVa va → va.toNat < n → ∃ p, Mapped use s r va p) : n ≤ 2 ^ 27 := by
  have hmaxva : MAXVA.toNat = 2 ^ 38 := by decide
  have hva : ∀ k < n / 4096, (BitVec.ofNat 64 (k * 4096)).toNat = k * 4096 := fun k hk => by
    rw [BitVec.toNat_ofNat]
    omega
  have hisva : ∀ k < n / 4096, IsVa (BitVec.ofNat 64 (k * 4096)) := fun k hk =>
    ⟨by rw [hva k hk]; omega, by rw [BitVec.lt_def, hva k hk]; omega⟩
  have hpage : ∀ k, ∃ p, k < n / 4096 → Mapped use s r (BitVec.ofNat 64 (k * 4096)) p := by
    intro k
    by_cases hk : k < n / 4096
    · obtain ⟨p, hp⟩ := hmapped _ (hisva k hk) (by rw [hva k hk]; omega)
      exact ⟨p, fun _ => hp⟩
    · exact ⟨0, fun hk' => absurd hk' hk⟩
  choose page hpage using hpage
  have hbase : KERNBASE.toNat = 0x80000000 := rfl
  have hstop : PHYSTOP.toNat = 0x88000000 := rfl
  have hend := K.kernbase_le
  rw [BitVec.le_def] at hend
  have hrange : ∀ k < n / 4096, (page k).toNat % 4096 = 0 ∧ 0x80000000 ≤ (page k).toNat ∧
      (page k).toNat < 0x88000000 := by
    intro k hk
    obtain ⟨t, -, huse⟩ := hpage k hk
    obtain ⟨halign, hle, hlt⟩ := Kernel.isPage_iff.1 ((h.pages (page k)).1 (by rw [huse]; rfl))
    exact ⟨halign, by omega, by omega⟩
  have hcard := Finset.card_le_card_of_injOn (s := Finset.range (n / 4096))
    (t := Finset.range (2 ^ 15)) (fun k => (page k).toNat / 4096 - 0x80000)
    (fun k hk => by
      obtain ⟨-, hle, hlt⟩ := hrange k (Finset.mem_range.1 hk)
      have hsmall : (page k).toNat / 4096 - 0x80000 < 2 ^ 15 := by omega
      exact Finset.mem_coe.2 (Finset.mem_range.2 hsmall))
    (fun k hk k' hk' heq => by
      have hk := Finset.mem_range.1 hk
      have hk' := Finset.mem_range.1 hk'
      obtain ⟨halign, hle, hlt⟩ := hrange k hk
      obtain ⟨halign', hle', hlt'⟩ := hrange k' hk'
      have heq : (page k).toNat / 4096 - 0x80000 = (page k').toNat / 4096 - 0x80000 := heq
      have hsame : page k = page k' := BitVec.eq_of_toNat_eq (by omega)
      have hboth := (hpage k hk).inj h hr hr (hisva k hk) (hisva k' hk') (hsame ▸ hpage k' hk')
      have hnat := congrArg BitVec.toNat hboth.2
      rw [hva k hk, hva k' hk'] at hnat
      omega)
  rw [Finset.card_range, Finset.card_range] at hcard
  omega

/-- The page table after a change that keeps the memory below `n` and `n'`. -/
theorem Space.of_keeps (h : Space K use s r tf n) (hkeep : Keeps P X use s use' s') (hX : X r)
    (hn' : n' % 4096 = 0) (hbound : n' ≤ 2 ^ 27)
    (hP : ∀ va, IsVa va → (va.toNat < n ↔ va.toNat < n') → P r va)
    (hnew : ∀ va, IsVa va → n ≤ va.toNat → va.toNat < n' → ∃ p, Mapped use' s' r va p)
    (hgone : ∀ va, IsVa va → n' ≤ va.toNat → va.toNat < n → entry s' r va &&& PTE_V = 0) :
    Space K use' s' r tf n' := by
  have hn := h.bound
  have hhigh : ∀ va, IsVa va → 2 ^ 27 ≤ va.toNat → entry s' r va = entry s r va :=
    fun va hva hle => hkeep.entries r va hX h.root hva (hP va hva (by omega))
  refine ⟨hkeep.root hX h.root, hn', hbound, fun va hva hlt => ?_,
    fun va hva hle h₁ h₂ => ?_, ?_, ?_⟩
  · by_cases hold : va.toNat < n
    · obtain ⟨p, hp⟩ := h.mapped va hva hold
      exact ⟨p, hkeep.mapped hX h.root hva (hP va hva (by omega)) hp⟩
    · exact hnew va hva (Nat.le_of_not_lt hold) hlt
  · by_cases hold : va.toNat < n
    · exact hgone va hva hle hold
    · rw [hkeep.entries r va hX h.root hva (hP va hva (by omega))]
      exact h.rest va hva (Nat.le_of_not_lt hold) h₁ h₂
  · rw [hhigh _ isVa_trampoline (by decide), h.trampoline]
  · rw [hhigh _ isVa_trapframe (by decide), h.trapframe]

/-- The page table after a change that keeps all of it. -/
theorem Space.keep (h : Space K use s r tf n) (hkeep : Keeps P X use s use' s') (hX : X r)
    (hP : ∀ va, P r va) : Space K use' s' r tf n :=
  h.of_keeps hkeep hX h.aligned h.bound (fun va _ _ => hP va)
    (fun _ _ hle hlt => absurd hlt (Nat.not_lt.2 hle)) fun _ _ hle hlt =>
      absurd hlt (Nat.not_lt.2 hle)

/-- The page of the trampoline is not mapped for the user: it lies in the kernel, below the pages
that `kalloc` gives out. -/
theorem Inv.not_mapped_trampoline (hinv : Inv K use s) (hentry : Xv6Memory.entry s r TRAMPOLINE =
      PA2PTE K.trampoline ||| (PTE_R ||| PTE_X) ||| PTE_V) : ¬Mapped use s r TRAMPOLINE p := by
  intro hm
  have hchild := hm.child_entry hinv
  rw [hentry, (mappages_entry (by decide) K.trampoline_aligned).1] at hchild
  obtain rfl := Option.some.inj hchild
  obtain ⟨t, -, hp⟩ := hm
  have hpage := (hinv.pages K.trampoline).1 (by rw [hp]; rfl)
  exact absurd K.trampoline_lt (BitVec.not_lt.2 hpage.2.1)

/-- The trapframe is not mapped for the user, as it is a page that the process holds itself. -/
theorem Space.not_mapped_trapframe (h : Space K use s r tf n) (hinv : Inv K use s)
    (halign : tf % PGSIZE = 0) (htf : ∀ t i, use tf ≠ some (.user t i)) :
    ¬Mapped use s r TRAPFRAME p := by
  intro hm
  have hchild := hm.child_entry hinv
  rw [h.trapframe, (mappages_entry (by decide) halign).1] at hchild
  obtain rfl := Option.some.inj hchild
  obtain ⟨t, -, hp⟩ := hm
  exact htf t _ hp

/-- Rounding up does not overflow for the sizes of processes. -/
theorem toNat_roundUp (h : va.toNat ≤ 2 ^ 27) :
    (PGROUNDUP va).toNat = (va.toNat + 4095) / 4096 * 4096 :=
  toNat_pgRoundUp (by omega)

/-! ### New pages -/

/-- A page from `kalloc`, with its contents. -/
theorem Inv.newPage (h : Inv K use s) (hr : s.kalloc.2 ≠ 0) (data : Page) :
    use s.kalloc.2 = some .free ∧
      Inv K (Function.update use s.kalloc.2 (some .kernel)) (s.kalloc.1.setPage s.kalloc.2 data) ∧
      Keeps (fun _ _ => True) (· ≠ s.kalloc.2) use s
        (Function.update use s.kalloc.2 (some .kernel))
        (s.kalloc.1.setPage s.kalloc.2 data) := by
  obtain ⟨hfree, hinv, hpage⟩ := h.take hr
  refine ⟨hfree, hinv.data rfl fun p hp => page_setPage_of_ne _ ?_, Keeps.of_page h hfree rfl
    (fun p hp => ⟨Function.update_of_ne hp .., ?_⟩) fun hlevel =>
      absurd (by rw [levelOf, hfree]) hlevel⟩
  · rintro rfl
    rw [levelOf, Function.update_self] at hp
    rcases hp with hp | hp
    · cases hp
    · exact absurd hp Bool.false_ne_true
  · rw [page_setPage_of_ne _ hp, hpage p hp]

/-- **A new page is mapped**, or there is no memory for a table and it is freed again. -/
theorem Inv.mapNew (h : Inv K use s) (hroot : IsRoot use r) (hva : IsVa va)
    (hinvalid : Xv6Memory.entry s r va &&& PTE_V = 0) (hr : s.kalloc.2 ≠ 0) (data : Page)
    (hperm : IsPerm perm) :
    (∃ use' s', (s.kalloc.1.setPage s.kalloc.2 data).mappages r va PGSIZE s.kalloc.2 perm =
        some (s', true) ∧ Inv K use' s' ∧
        Keeps (fun r' va' => (r', va') ≠ (r, va)) (fun _ => True) use s use' s' ∧
        Mapped use' s' r va s.kalloc.2 ∧ s'.page s.kalloc.2 = data ∧
        Xv6Memory.entry s' r va = PA2PTE s.kalloc.2 ||| perm ||| PTE_V) ∨
      ∃ use' s₁ s', (s.kalloc.1.setPage s.kalloc.2 data).mappages r va PGSIZE s.kalloc.2 perm =
        some (s₁, false) ∧ s₁.kfree K s.kalloc.2 = some s' ∧ Inv K use' s' ∧
        KeepsAll use s use' s' := by
  obtain ⟨hfree, hinv, hkeep⟩ := h.newPage hr data
  generalize hs₀ : s.kalloc.1.setPage s.kalloc.2 data = s₀ at hinv hkeep ⊢
  have hdata : s₀.page s.kalloc.2 = data := by rw [← hs₀, page_setPage_self]
  generalize s.kalloc.2 = p at hr hfree hinv hkeep hdata ⊢
  have hrp : r ≠ p := fun heq => nomatch (heq ▸ hroot).symm.trans hfree
  have hunheld : ∀ u, use p = some u → ¬u.Held := fun u hu => by
    obtain rfl := Option.some.inj (hfree.symm.trans hu)
    exact id
  have hroot₀ := hkeep.root hrp hroot
  have hinvalid₀ : Xv6Memory.entry s₀ r va &&& PTE_V = 0 := by
    rw [hkeep.entries r va hrp hroot hva trivial, hinvalid]
  obtain ⟨use₁, s₁, hinv₁, ⟨hrun, hkeep₁, -⟩ | ⟨hrun, hkeep₁, hmapped, hpage, hentry⟩⟩ :=
    hinv.mappages hroot₀ hva hinvalid₀ (Function.update_self ..) hperm
  · right
    have hp₁ : use₁ p = some .kernel :=
      (hkeep₁.held p .kernel trivial trivial).2 (Function.update_self ..)
    obtain ⟨s', hs', hinv', hpage'⟩ := hinv₁.give hp₁
    have hkeep' : Keeps (fun _ _ => True) (· ≠ p) use₁ s₁
        (Function.update use₁ p (some .free)) s' := Keeps.of_page hinv₁ hp₁ rfl
      (fun q hq => ⟨Function.update_of_ne hq .., hpage' q hq⟩) fun hlevel =>
        absurd (by rw [levelOf, hp₁]) hlevel
    refine ⟨_, s₁, s', hrun, hs', hinv', ((hkeep.trans (hkeep₁.mono (fun _ _ h => h)
      fun _ _ => trivial)).trans hkeep').of_ne hunheld fun u hu => ?_⟩
    rw [Function.update_self] at hu
    obtain rfl := Option.some.inj hu
    exact id
  · left
    refine ⟨use₁, s₁, hrun, hinv₁, ((hkeep.mono (fun _ _ _ => trivial) fun _ h => h).trans
      hkeep₁).of_ne hunheld fun u hu => ?_, hmapped, hpage.trans hdata, hentry⟩
    obtain ⟨t, -, hp⟩ := hmapped
    obtain rfl := Option.some.inj (hp.symm.trans hu)
    exact id

/-- The memory has grown by a page. -/
theorem Space.grow {a : Addr} (h : Space K use s r tf a.toNat) (hinv : Inv K use' s')
    (hkeep : Keeps (fun r' va => (r', va) ≠ (r, a)) (fun _ => True) use s use' s')
    (hmapped : Mapped use' s' r a p) : Space K use' s' r tf (a + PGSIZE).toNat := by
  have haligned := h.aligned
  have hbound := h.bound
  have hnext : (a + PGSIZE).toNat = a.toNat + 4096 := by
    rw [PGSIZE]
    bv_omega
  have hnew : ∀ va, IsVa va → va.toNat < a.toNat + 4096 → ∃ p, Mapped use' s' r va p := by
    intro va hva hlt
    by_cases hlast : va = a
    · exact ⟨p, hlast ▸ hmapped⟩
    · have hne : va.toNat ≠ a.toNat := fun h => hlast (BitVec.eq_of_toNat_eq h)
      have halign := hva.1
      obtain ⟨q, hq⟩ := h.mapped va hva (by omega)
      exact ⟨q, hkeep.mapped trivial h.root hva (fun heq => hlast (Prod.mk.inj heq).2) hq⟩
  have hsize := hinv.size_le (n := a.toNat + 4096) (hkeep.root trivial h.root) (by omega)
    (by omega) hnew
  rw [hnext]
  refine h.of_keeps hkeep trivial (by omega) hsize (fun va hva hiff heq => ?_)
    (fun va hva _ hlt => hnew va hva hlt) fun va _ hle hlt => by omega
  obtain ⟨-, rfl⟩ := Prod.mk.inj heq
  omega

end

end OsLabs.Xv6Memory
