import OsLabs.Xv6AddressSpace

/-!
# The Page Table of a Process of xv6, from its Creation to its End

The results of `uvmfree` of `xv6/kernel/vm.c` and of `proc_pagetable` and `proc_freepagetable`
of `xv6/kernel/proc.c`. The trampoline and the trapframe are mapped without `PTE_U` and without
being owned by the page table, so that they are cleared before the tables are freed.

## Main results

* `Inv.uvmfree`, `Space.proc_freepagetable`: memory is freed.
* `Inv.proc_pagetable`: a page table without user memory, or none if there is no memory.
-/

namespace OsLabs.Xv6Memory

variable {K : Kernel} {use use' use₁ : Addr → Option Use} {s s' s₁ : Mem}
  {p q r r' tf t va : Addr} {perm : Pte} {n n' : ℕ} {P : Addr → Addr → Prop} {X : Addr → Prop}

/-! ### `uvmfree` -/

/-- **`uvmfree`** frees the memory and the tables. -/
theorem Inv.uvmfree (h : Inv K use s) (hr : IsRoot use r) (sz : Addr) (hmax : sz.toNat ≤ 2 ^ 27)
    (hmapped : ∀ va, IsVa va → va.toNat < (PGROUNDUP sz).toNat → ∃ p, Mapped use s r va p)
    (hrest : ∀ va, IsVa va → (PGROUNDUP sz).toNat ≤ va.toNat →
      Xv6Memory.entry s r va &&& PTE_V = 0) :
    ∃ use' s', s.uvmfree K r sz = some s' ∧ Inv K use' s' ∧ use' r = some .free ∧
      Keeps (fun _ _ => True) (· ≠ r) use s use' s' := by
  have hround := toNat_roundUp hmax
  rw [Mem.uvmfree]
  by_cases hzero : sz = 0
  · subst hzero
    have hnone : (PGROUNDUP 0).toNat = 0 := by decide
    obtain ⟨use', s', hrun, hinv', hfree, hkeep⟩ :=
      h.freewalk hr fun va hva => hrest va hva (by omega)
    rw [if_neg (not_not.2 rfl), hrun]
    exact ⟨use', s', rfl, hinv', hfree, hkeep⟩
  · have hcount : (PGROUNDUP sz / PGSIZE).toNat = (PGROUNDUP sz).toNat / 4096 := BitVec.toNat_udiv
    have hrange : (0 : Addr).toNat + (PGROUNDUP sz).toNat / 4096 * 4096 = (PGROUNDUP sz).toNat := by
      have hnone : (0 : Addr).toNat = 0 := rfl
      omega
    obtain ⟨use₁, s₁, hrun₁, hinv₁, hkeep₁, hclear⟩ := h.uvmunmap hr 0
      (PGROUNDUP sz / PGSIZE) (by decide) (by omega)
      fun va hva _ hlt => hmapped va hva (by omega)
    rw [hcount, hrange] at hkeep₁ hclear
    obtain ⟨use', s', hrun, hinv', hfree, hkeep⟩ :=
      hinv₁.freewalk (hkeep₁.root trivial hr) fun va hva => by
        by_cases hlt : va.toNat < (PGROUNDUP sz).toNat
        · rw [hclear va hva (Nat.zero_le _) hlt]
          decide
        · rw [hkeep₁.entries r va trivial hr hva fun hmem => hlt hmem.2.2]
          exact hrest va hva (Nat.le_of_not_lt hlt)
    rw [if_pos hzero, hrun₁, Option.bind_some, hrun]
    refine ⟨use', s', rfl, hinv', hfree, Keeps.others ?_⟩
    exact (hkeep₁.mono (fun _ _ hne heq => hne heq.1) fun _ _ => trivial).trans
      (hkeep.mono (fun _ _ _ => trivial) fun _ h => h)

/-! ### `proc_pagetable` and `proc_freepagetable` -/

/-- An entry that is not for the user is cleared, and the rest is kept. -/
theorem Inv.clearForeign (h : Inv K use s) (hr : IsRoot use r) (hva : IsVa va)
    (hentry : Xv6Memory.entry s r va = PA2PTE p ||| perm ||| PTE_V) (hp : p % PGSIZE = 0)
    (hperm : IsPerm perm) (hnone : ∀ q, ¬Mapped use s r va q) :
    ∃ s', s.uvmunmap K r va 1 false = some s' ∧ Inv K use s' ∧
      Keeps (fun r' va' => (r', va') ≠ (r, va)) (fun _ => True) use s use s' ∧
      Xv6Memory.entry s' r va &&& PTE_V = 0 := by
  obtain ⟨s', hrun, hinv, hkeep, hzero⟩ := h.uvmunmapForeign hr hva (by
    rw [hentry]
    exact (child_eq_some.1 (mappages_entry hperm hp).1).1) hnone
  exact ⟨s', hrun, hinv, hkeep, by rw [hzero]; decide⟩

/-- **`proc_freepagetable`** frees the memory and the tables of a process. -/
theorem Space.proc_freepagetable {sz : Addr} (h : Space K use s r tf (PGROUNDUP sz).toNat)
    (hinv : Inv K use s) (htf : tf % PGSIZE = 0) (hnone : ∀ p, ¬Mapped use s r TRAPFRAME p)
    (hmax : sz.toNat ≤ 2 ^ 27) :
    ∃ use' s', s.proc_freepagetable K r sz = some s' ∧ Inv K use' s' ∧ use' r = some .free ∧
      Keeps (fun _ _ => True) (· ≠ r) use s use' s' := by
  have hne : TRAPFRAME ≠ TRAMPOLINE := by decide
  obtain ⟨s₁, hrun₁, hinv₁, hkeep₁, hclear₁⟩ := hinv.clearForeign h.root isVa_trampoline
    h.trampoline K.trampoline_aligned (by decide) fun p => hinv.not_mapped_trampoline h.trampoline
  have hr₁ := hkeep₁.root trivial h.root
  have htf₁ : entry s₁ r TRAPFRAME = PA2PTE tf ||| (PTE_R ||| PTE_W) ||| PTE_V := by
    rw [hkeep₁.entries r _ trivial h.root isVa_trapframe (fun heq => hne (Prod.mk.inj heq).2),
      h.trapframe]
  have hnone₁ : ∀ p, ¬Mapped use s₁ r TRAPFRAME p := by
    rintro p hm
    have hchild := hm.child_entry hinv₁
    rw [htf₁, ← h.trapframe] at hchild
    obtain ⟨t, hd, -⟩ := descend_of_valid (child_eq_some.1 hchild).1
    obtain ⟨t₁, hd₁, hp⟩ := hm
    have hd' := hkeep₁.tables r _ t trivial h.root (Nat.le_of_eq (length_path _ 2)) hd
    obtain rfl := Option.some.inj (hd₁.symm.trans hd')
    exact hnone p ⟨t₁, hd, hp⟩
  obtain ⟨s₂, hrun₂, hinv₂, hkeep₂, hclear₂⟩ :=
    hinv₁.clearForeign hr₁ isVa_trapframe htf₁ htf (by decide) hnone₁
  have hkeep : Keeps (fun r' va => r' = r → va ≠ TRAMPOLINE ∧ va ≠ TRAPFRAME) (fun _ => True) use s
      use s₂ :=
    (hkeep₁.mono (fun r' va hP heq => (hP (Prod.mk.inj heq).1).1 (Prod.mk.inj heq).2)
      fun _ h => h).trans (hkeep₂.mono (fun r' va hP heq =>
        (hP (Prod.mk.inj heq).1).2 (Prod.mk.inj heq).2) fun _ h => h)
  have hbound := h.bound
  have hlow : ∀ va : Addr, va.toNat < (PGROUNDUP sz).toNat → r = r →
      va ≠ TRAMPOLINE ∧ va ≠ TRAPFRAME := by
    rintro va hlt -
    have h₁ : TRAMPOLINE.toNat = 2 ^ 38 - 4096 := by decide
    have h₂ : TRAPFRAME.toNat = 2 ^ 38 - 8192 := by decide
    constructor
    · rintro rfl
      omega
    · rintro rfl
      omega
  obtain ⟨use', s', hrun, hinv', hfree, hkeep'⟩ := hinv₂.uvmfree (hkeep.root trivial h.root) sz hmax
    (fun va hva hlt => by
      obtain ⟨p, hp⟩ := h.mapped va hva hlt
      exact ⟨p, hkeep.mapped trivial h.root hva (hlow va hlt) hp⟩)
    (fun va hva hle => by
      by_cases h₂ : va = TRAPFRAME
      · rw [h₂, hclear₂]
      by_cases h₁ : va = TRAMPOLINE
      · rw [h₁, hkeep₂.entries r _ trivial hr₁ isVa_trampoline
          (fun heq => hne (Prod.mk.inj heq).2.symm), hclear₁]
      · rw [hkeep.entries r va trivial h.root hva fun _ => ⟨h₁, h₂⟩]
        exact h.rest va hva hle h₁ h₂)
  rw [Mem.proc_freepagetable, hrun₁, Option.bind_some, hrun₂, Option.bind_some, hrun]
  refine ⟨use', s', rfl, hinv', hfree, Keeps.others ?_⟩
  exact (hkeep.mono (fun r' _ hne heq => absurd heq hne) fun _ _ => trivial).trans
    (hkeep'.mono (fun _ _ _ => trivial) fun _ h => h)

/-- An empty page table, from `uvmcreate`. -/
theorem Inv.uvmcreate (h : Inv K use s) (hr : s.kalloc.2 ≠ 0) :
    s.uvmcreate = (s.kalloc.1.setPage s.kalloc.2 fun _ => 0, s.kalloc.2) ∧
      use s.kalloc.2 = some .free ∧
      Inv K (Function.update use s.kalloc.2 (some (.table 2 none)))
        (s.kalloc.1.setPage s.kalloc.2 fun _ => 0) ∧
      Keeps (fun _ _ => True) (· ≠ s.kalloc.2) use s
        (Function.update use s.kalloc.2 (some (.table 2 none)))
        (s.kalloc.1.setPage s.kalloc.2 fun _ => 0) ∧
      ∀ va, Xv6Memory.entry (s.kalloc.1.setPage s.kalloc.2 fun _ => 0) s.kalloc.2 va = 0 := by
  obtain ⟨hfree, hinv, hpage⟩ := h.take hr
  have hnew := hinv.newTable (Function.update_self ..) (Nat.le_refl 2)
  rw [Function.update_idem] at hnew
  refine ⟨?_, hfree, hnew, Keeps.of_page h hfree rfl (fun p hp =>
    ⟨Function.update_of_ne hp .., by rw [page_setPage_of_ne _ hp, hpage p hp]⟩) fun hlevel =>
      absurd (by rw [levelOf, hfree]) hlevel, fun va => ?_⟩
  · rw [Mem.uvmcreate]
    exact if_neg hr
  · rw [Xv6Memory.entry, lookup, path, descend, page_setPage_self, child_zero]
    rfl

/-- **`proc_pagetable`** makes a page table without memory, or there is no memory for it. -/
theorem Inv.proc_pagetable (h : Inv K use s) (htf : use tf = some .kernel) :
    ∃ use' s', Inv K use' s' ∧
      (s.proc_pagetable K tf = some (s', 0) ∧ KeepsAll use s use' s' ∨
        ∃ r, s.proc_pagetable K tf = some (s', r) ∧ r ≠ 0 ∧ use r = some .free ∧
          Keeps (fun _ _ => True) (· ≠ r) use s use' s' ∧ Space K use' s' r tf 0) := by
  have hne : TRAPFRAME ≠ TRAMPOLINE := by decide
  have htfPage : tf % PGSIZE = 0 := ((h.pages tf).1 (by rw [htf]; rfl)).1
  rw [Mem.proc_pagetable]
  by_cases hr0 : s.kalloc.2 = 0
  · have hnone : s.uvmcreate = (s, 0) := by
      rw [Mem.uvmcreate]
      dsimp only
      rw [if_pos hr0, (h.take_none hr0).1]
    rw [hnone]
    exact ⟨use, s, h, .inl ⟨rfl, .refl⟩⟩
  obtain ⟨hcreate, hfree, hinv, hkeep, hzero⟩ := h.uvmcreate hr0
  rw [hcreate]
  dsimp only
  rw [if_neg hr0]
  generalize s.kalloc.1.setPage s.kalloc.2 (fun _ => 0) = s₀ at hinv hkeep hzero ⊢
  generalize s.kalloc.2 = r at hr0 hfree hinv hkeep hzero ⊢
  have hroot : IsRoot (Function.update use r (some (.table 2 none))) r := Function.update_self ..
  -- Without memory, the page table is freed, once it has no entries.
  have hfail : ∀ {use₂ s₂}, Inv K use₂ s₂ → IsRoot use₂ r →
      Keeps (fun _ _ => True) (· ≠ r) use s use₂ s₂ →
      (∀ va, IsVa va → Xv6Memory.entry s₂ r va &&& PTE_V = 0) →
      ∃ use' s', s₂.uvmfree K r 0 = some s' ∧ Inv K use' s' ∧ KeepsAll use s use' s' := by
    intro use₂ s₂ hinv₂ hroot₂ hkeep₂ hempty
    obtain ⟨use', s', hrun, hinv', hfree', hkeep'⟩ := hinv₂.uvmfree hroot₂ 0 (by decide)
      (fun va _ hlt => absurd hlt (by rw [show (PGROUNDUP 0).toNat = 0 by decide]; omega))
      fun va hva _ => hempty va hva
    refine ⟨use', s', hrun, hinv', (hkeep₂.trans hkeep').of_ne (fun u hu => ?_) fun u hu => ?_⟩
    · obtain rfl := Option.some.inj (hfree.symm.trans hu)
      exact id
    · obtain rfl := Option.some.inj (hfree'.symm.trans hu)
      exact id
  obtain ⟨use₁, s₁, hinv₁, ⟨hrun, hkeep₁, -⟩ | ⟨hrun, hkeep₁, hentry₁⟩⟩ :=
    hinv.mappagesForeign hroot isVa_trampoline (by rw [hzero]; decide) K.trampoline_aligned
      (PTE_R ||| PTE_X) (by decide) (by decide)
  · rw [hrun]
    dsimp only
    obtain ⟨use', s', hrun', hinv', hkeep'⟩ := hfail hinv₁ (hkeep₁.root trivial hroot)
      (hkeep.trans (hkeep₁.mono (fun _ _ h => h) fun _ _ => trivial)) fun va hva => by
        rw [hkeep₁.entries r va trivial hroot hva trivial, hzero]
        decide
    rw [hrun']
    exact ⟨use', s', hinv', .inl ⟨rfl, hkeep'⟩⟩
  rw [hrun]
  dsimp only
  have hroot₁ := hkeep₁.root trivial hroot
  have hzero₁ : ∀ va, IsVa va → va ≠ TRAMPOLINE → Xv6Memory.entry s₁ r va &&& PTE_V = 0 :=
    fun va hva hva' => by
      rw [hkeep₁.entries r va trivial hroot hva (fun heq => hva' (Prod.mk.inj heq).2), hzero]
      decide
  have hkeep₁' : Keeps (fun _ _ => True) (· ≠ r) use s use₁ s₁ := Keeps.others
    ((hkeep.mono (fun _ _ _ => trivial) fun _ h => h).trans
      (hkeep₁.mono (fun _ _ hne heq => hne (Prod.mk.inj heq).1) fun _ _ => trivial))
  obtain ⟨use₂, s₂, hinv₂, ⟨hrun₂, hkeep₂, -⟩ | ⟨hrun₂, hkeep₂, hentry₂⟩⟩ :=
    hinv₁.mappagesForeign hroot₁ isVa_trapframe (hzero₁ _ isVa_trapframe hne) htfPage
      (PTE_R ||| PTE_W) (by decide) (by decide)
  · rw [hrun₂]
    dsimp only
    have hroot₂ := hkeep₂.root trivial hroot₁
    have hentry₂ := (hkeep₂.entries r _ trivial hroot₁ isVa_trampoline trivial).trans hentry₁
    obtain ⟨s₃, hrun₃, hinv₃, hkeep₃, hclear⟩ := hinv₂.clearForeign hroot₂ isVa_trampoline hentry₂
      K.trampoline_aligned (by decide) fun p => hinv₂.not_mapped_trampoline hentry₂
    rw [hrun₃, Option.bind_some]
    have hkeep₃' := Keeps.others (((hkeep₁'.trans (hkeep₂.mono (fun _ _ h => h)
      fun _ _ => trivial)).mono (fun _ _ _ => trivial) fun _ h => h).trans
        (hkeep₃.mono (fun _ _ hne heq => hne (Prod.mk.inj heq).1) fun _ _ => trivial))
    obtain ⟨use', s', hrun', hinv', hkeep'⟩ := hfail hinv₃ (hkeep₃.root trivial hroot₂) hkeep₃'
      fun va hva => by
        by_cases hva' : va = TRAMPOLINE
        · rw [hva', hclear]
        · rw [hkeep₃.entries r va trivial hroot₂ hva (fun heq => hva' (Prod.mk.inj heq).2),
            hkeep₂.entries r va trivial hroot₁ hva trivial]
          exact hzero₁ va hva hva'
    rw [hrun']
    exact ⟨use', s', hinv', .inl ⟨rfl, hkeep'⟩⟩
  · rw [hrun₂]
    refine ⟨use₂, s₂, hinv₂, .inr ⟨r, rfl, hr0, hfree, Keeps.others
      ((hkeep₁'.mono (fun _ _ _ => trivial) fun _ h => h).trans
        (hkeep₂.mono (fun _ _ hne heq => hne (Prod.mk.inj heq).1) fun _ _ => trivial)),
      ⟨hkeep₂.root trivial hroot₁, rfl, by decide, fun va _ hlt => absurd hlt (Nat.not_lt_zero _),
        fun va hva _ h₁ h₂ => ?_, ?_, hentry₂⟩⟩⟩
    · rw [hkeep₂.entries r va trivial hroot₁ hva fun heq => h₂ (Prod.mk.inj heq).2]
      exact hzero₁ va hva h₁
    · rw [hkeep₂.entries r _ trivial hroot₁ isVa_trampoline
        fun heq => hne (Prod.mk.inj heq).2.symm, hentry₁]

end OsLabs.Xv6Memory
