import OsLabs.Xv6AddressSpace

/-!
# Copying an Address Space of xv6

The result of `uvmcopy` of `xv6/kernel/vm.c`, with which `fork` copies the memory of a process:
each page gets a page of its own with the same contents and the same flags. Where there is no
memory, the pages that were copied are freed again.

## Main results

* `Space.uvmcopy`: a copy has the contents and the flags of the original.
-/

namespace OsLabs.Xv6Memory

variable {K : Kernel} {use use' use₁ : Addr → Option Use} {s s' s₁ : Mem}
  {p q r r' tf t va : Addr} {perm : Pte} {n n' : ℕ} {P : Addr → Addr → Prop} {X : Addr → Prop}

/-- The flags of a valid entry include `PTE_V`. -/
theorem flags_or_valid {w : Pte} (h : w &&& PTE_V ≠ 0) : PTE_FLAGS w ||| PTE_V = PTE_FLAGS w := by
  have hbit := valid_iff.1 h
  have hmask : PTE_V = BitVec.twoPow 64 0 := by decide
  refine BitVec.eq_of_getLsbD_eq fun i hi => ?_
  rw [hmask, BitVec.getLsbD_or, BitVec.getLsbD_twoPow]
  by_cases hi0 : i = 0
  · have hflags : (PTE_FLAGS w).getLsbD i = true := by
      rw [PTE_FLAGS, BitVec.getLsbD_and, hi0, hbit]
      decide
    rw [hflags, Bool.true_or]
  · simp [Ne.symm hi0]

/-- The flags of a mapped page, with which it can be mapped again. -/
theorem Mapped.isPerm (h : Inv K use s) (hm : Mapped use s r va p) :
    IsPerm (PTE_FLAGS (Xv6Memory.entry s r va)) := by
  obtain ⟨t, hd, hp⟩ := hm
  obtain ⟨ht, hchild⟩ := h.up p _ t _ hp rfl
  rw [entry_eq hd]
  refine ⟨?_, ?_⟩
  · rw [PTE_FLAGS, BitVec.and_assoc, BitVec.and_self]
  · rw [← and_flags (by decide)]
    exact (h.leaf t _ ht (child_eq_some.1 hchild).1).1

/-- The page of `va` in one page table is a copy of the one in another. -/
def CopyOf (use : Addr → Option Use) (s : Mem) (old new va : Addr) : Prop :=
  ∃ p q, Mapped use s old va p ∧ Mapped use s new va q ∧ s.page q = s.page p ∧
    PTE_FLAGS (entry s new va) = PTE_FLAGS (entry s old va)

/-- What was copied is unmapped and freed again when there is no memory for the rest. -/
theorem Space.uncopy {i : Addr} (h : Space K use s r tf i.toNat) (hinv : Inv K use s) :
    ∃ use' s', s.uvmunmap K r 0 (i / PGSIZE) true = some s' ∧ Inv K use' s' ∧
      Keeps (fun r' va => ¬(r' = r ∧ va.toNat < 2 ^ 27)) (fun _ => True) use s use' s' ∧
      Space K use' s' r tf 0 := by
  have haligned := h.aligned
  have hbound := h.bound
  have hcount : (i / PGSIZE).toNat = i.toNat / 4096 := BitVec.toNat_udiv
  have hrange : (0 : Addr).toNat + i.toNat / 4096 * 4096 = i.toNat := by
    have hnone : (0 : Addr).toNat = 0 := rfl
    omega
  obtain ⟨use', s', hrun, hinv', hkeep, hclear⟩ := hinv.uvmunmap h.root 0 (i / PGSIZE)
    (by decide) (by omega) fun va hva _ hlt => h.mapped va hva (by omega)
  rw [hcount, hrange] at hkeep hclear
  refine ⟨use', s', hrun, hinv', hkeep.mono (fun r' va hP hmem => hP ⟨hmem.1, by omega⟩)
    fun _ h => h, h.of_keeps hkeep trivial rfl (by decide) (fun va _ hiff hmem => by omega)
      (fun va _ _ hlt => absurd hlt (Nat.not_lt_zero _)) fun va hva hle hlt => ?_⟩
  rw [hclear va hva hle hlt]
  decide

/-- A copy remains one if both pages do. -/
theorem CopyOf.keep {old new : Addr} (h : CopyOf use s old new va) (hkeep : Keeps P X use s use' s')
    (hold : IsRoot use old) (hnew : IsRoot use new) (hXold : X old) (hXnew : X new)
    (hva : IsVa va) (hPold : P old va) (hPnew : P new va) : CopyOf use' s' old new va := by
  obtain ⟨p, q, hp, hq, hdata, hflags⟩ := h
  refine ⟨p, q, hkeep.mapped hXold hold hva hPold hp, hkeep.mapped hXnew hnew hva hPnew hq, ?_, ?_⟩
  · rw [(hkeep.users old va p hXold hold hva hPold hp).2,
      (hkeep.users new va q hXnew hnew hva hPnew hq).2, hdata]
  · rw [hkeep.entries old va hXold hold hva hPold, hkeep.entries new va hXnew hnew hva hPnew,
      hflags]

/-- The loop of `uvmcopy` from `i` on. -/
theorem Space.uvmcopyLoop {old new tfOld sz i : Addr} (hnew : Space K use s new tf i.toNat)
    (fuel : ℕ) (hold : Space K use s old tfOld (PGROUNDUP sz).toNat)
    (hinv : Inv K use s) (hne : old ≠ new) (hmax : sz.toNat ≤ 2 ^ 27)
    (hi : i.toNat ≤ (PGROUNDUP sz).toNat) (hfuel : sz.toNat / 4096 + 1 < fuel + i.toNat / 4096) :
    ∃ use' s', Inv K use' s' ∧
      Keeps (fun r' va => ¬(r' = new ∧ va.toNat < 2 ^ 27)) (fun _ => True) use s use' s' ∧
      (s.uvmcopyLoop K old new sz fuel i = some (s', true) ∧
          Keeps (fun r' va => ¬(r' = new ∧ i.toNat ≤ va.toNat ∧ va.toNat < 2 ^ 27)) (fun _ => True)
            use s use' s' ∧
          Space K use' s' new tf (PGROUNDUP sz).toNat ∧
          (∀ va, IsVa va → i.toNat ≤ va.toNat → va.toNat < (PGROUNDUP sz).toNat →
            CopyOf use' s' old new va) ∨
        s.uvmcopyLoop K old new sz fuel i = some (s', false) ∧ Space K use' s' new tf 0) := by
  have hmaxva : MAXVA.toNat = 2 ^ 38 := by decide
  have hround := toNat_roundUp hmax
  induction fuel generalizing use s i with
  | zero => omega
  | succ fuel ih =>
    have haligned := hnew.aligned
    have hbound := hnew.bound
    rw [Mem.uvmcopyLoop]
    by_cases hmore : i < sz
    · have hlt : i.toNat < (PGROUNDUP sz).toNat := by
        rw [BitVec.lt_def] at hmore
        omega
      have hnext : (i + PGSIZE).toNat = i.toNat + 4096 := by
        rw [PGSIZE]
        bv_omega
      have hva : IsVa i := ⟨haligned, by rw [BitVec.lt_def]; omega⟩
      obtain ⟨p, hp⟩ := hold.mapped i hva hlt
      have hperm := hp.isPerm hinv
      obtain ⟨hv, hpa⟩ := child_eq_some.1 (hp.child_entry hinv)
      have hflags := flags_or_valid hv
      obtain ⟨t, hd, huse⟩ := id hp
      rw [entry_eq hd] at hv hpa hperm hflags
      rw [if_pos hmore, walk_eq hva.2, hd]
      dsimp only [Option.map_some]
      rw [if_neg hv]
      have hinvalid : entry s new i &&& PTE_V = 0 := by
        refine hnew.rest i hva (Nat.le_refl _) ?_ ?_ <;>
        · rintro rfl
          exact absurd hbound (by decide)
      by_cases hr0 : s.kalloc.2 = 0
      · rw [if_pos hr0, (hinv.take_none hr0).1]
        obtain ⟨use', s', hrun, hinv', hkeep, hspace⟩ := hnew.uncopy hinv
        rw [hrun]
        exact ⟨use', s', hinv', hkeep, .inr ⟨rfl, hspace⟩⟩
      · rw [if_neg hr0, hpa]
        obtain ⟨use₁, s₁, hrun, hinv₁, hkeep₁, hmapped, hdata, hentry⟩ |
            ⟨use₁, s₁, s₂, hrun, hfree, hinv₁, hkeep₁⟩ :=
          hinv.mapNew hnew.root hva hinvalid hr0 (s.kalloc.1.page p) hperm
        · rw [hrun]
          dsimp only
          -- The page of the old page table has not changed.
          obtain ⟨hfree, -, hkalloc⟩ := hinv.take hr0
          have hpne : p ≠ s.kalloc.2 := fun heq => by
            cases (heq ▸ huse : use s.kalloc.2 = _).symm.trans hfree
          rw [hkalloc p hpne] at hdata
          have hPold : (old, i) ≠ (new, i) := fun heq => hne (Prod.mk.inj heq).1
          have hmem : PTE_FLAGS (entry s₁ new i) = PTE_FLAGS (entry s₁ old i) := by
            have hpage := (hinv.pages s.kalloc.2).1 (by rw [hfree]; rfl)
            rw [hentry, (mappages_entry hperm hpage.1).2.1, hflags,
              hkeep₁.entries old i trivial hold.root hva hPold, entry_eq hd]
          have hcopy : CopyOf use₁ s₁ old new i :=
            ⟨p, _, hkeep₁.mapped trivial hold.root hva hPold hp, hmapped, by
              rw [hdata, (hkeep₁.users old i p trivial hold.root hva hPold hp).2], hmem⟩
          have hspace := hnew.grow hinv₁ hkeep₁ hmapped
          have hsize := hspace.bound
          have hold₁ : Space K use₁ s₁ old tfOld (PGROUNDUP sz).toNat :=
            hold.of_keeps hkeep₁ trivial hold.aligned hold.bound
              (fun va _ _ heq => hne (Prod.mk.inj heq).1)
              (fun _ _ hle hlt => absurd hlt (Nat.not_lt.2 hle))
              fun _ _ hle hlt => absurd hlt (Nat.not_lt.2 hle)
          have hpages : i.toNat + 4096 ≤ (PGROUNDUP sz).toNat := by omega
          obtain ⟨use', s', hinv', hkeep', ⟨hloop, hkeepNew, hspace', hcopies⟩ |
              ⟨hloop, hspace'⟩⟩ :=
            ih hspace hold₁ hinv₁ (by omega) (by omega)
          · refine ⟨use', s', hinv',
              (hkeep₁.mono (fun r' va hP heq => ?_) fun _ h => h).trans hkeep',
              .inl ⟨hloop, (hkeep₁.mono (fun r' va hP heq => ?_) fun _ h => h).trans
                (hkeepNew.mono (fun r' va hP hrange => ?_) fun _ h => h), hspace',
              fun va hva' hle' hlt' => ?_⟩⟩
            · obtain ⟨rfl, rfl⟩ := Prod.mk.inj heq
              exact hP ⟨rfl, by omega⟩
            · obtain ⟨rfl, rfl⟩ := Prod.mk.inj heq
              exact hP ⟨rfl, Nat.le_refl _, by omega⟩
            · exact hP ⟨hrange.1, by omega, hrange.2.2⟩
            · by_cases hfirst : va = i
              · subst hfirst
                exact hcopy.keep hkeepNew hold₁.root hspace.root trivial trivial hva
                  (fun hmem => hne hmem.1) fun hmem => by omega
              · have hne : va.toNat ≠ i.toNat := fun h => hfirst (BitVec.eq_of_toNat_eq h)
                have halign := hva'.1
                exact hcopies va hva' (by omega) hlt'
          · refine ⟨use', s', hinv',
              (hkeep₁.mono (fun r' va hP heq => ?_) fun _ h => h).trans hkeep',
              .inr ⟨hloop, hspace'⟩⟩
            obtain ⟨rfl, rfl⟩ := Prod.mk.inj heq
            exact hP ⟨rfl, by omega⟩
        · rw [hrun]
          dsimp only
          rw [hfree]
          dsimp only
          obtain ⟨use', s', hrun', hinv', hkeep', hspace'⟩ :=
            (hnew.keep hkeep₁ trivial fun _ => trivial).uncopy hinv₁
          rw [hrun']
          exact ⟨use', s', hinv', (hkeep₁.mono (fun _ _ _ => trivial) fun _ h => h).trans hkeep',
            .inr ⟨rfl, hspace'⟩⟩
    · rw [if_neg hmore]
      rw [BitVec.lt_def] at hmore
      have hsame : (PGROUNDUP sz).toNat = i.toNat := by omega
      refine ⟨use, s, hinv, .refl, .inl ⟨rfl, .refl, ?_, fun va _ hle hlt => by omega⟩⟩
      rw [hsame]
      exact hnew

/-- **`uvmcopy`** copies the contents and the flags of all pages, or none if there is no memory. -/
theorem Space.uvmcopy {old new tfOld sz : Addr} (hnew : Space K use s new tf 0)
    (hold : Space K use s old tfOld (PGROUNDUP sz).toNat) (hinv : Inv K use s) (hne : old ≠ new)
    (hmax : sz.toNat ≤ 2 ^ 27) :
    ∃ use' s', Inv K use' s' ∧
      Keeps (fun r' va => ¬(r' = new ∧ va.toNat < 2 ^ 27)) (fun _ => True) use s use' s' ∧
      (s.uvmcopy K old new sz = some (s', true) ∧ Space K use' s' new tf (PGROUNDUP sz).toNat ∧
          (∀ va, IsVa va → va.toNat < (PGROUNDUP sz).toNat → CopyOf use' s' old new va) ∨
        s.uvmcopy K old new sz = some (s', false) ∧ Space K use' s' new tf 0) := by
  have hzero : (0 : Addr).toNat = 0 := rfl
  obtain ⟨use', s', hinv', hkeep, ⟨hrun, -, hspace, hcopies⟩ | ⟨hrun, hspace⟩⟩ :=
    hnew.uvmcopyLoop (i := 0) (sz.toNat / 4096 + 2) hold hinv hne hmax (by omega) (by omega)
  · exact ⟨use', s', hinv', hkeep, .inl ⟨hrun, hspace, fun va hva hlt =>
      hcopies va hva (Nat.zero_le _) hlt⟩⟩
  · exact ⟨use', s', hinv', hkeep, .inr ⟨hrun, hspace⟩⟩

end OsLabs.Xv6Memory
