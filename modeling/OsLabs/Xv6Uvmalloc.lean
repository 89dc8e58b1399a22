import OsLabs.Xv6AddressSpace

/-!
# Growing and Shrinking an Address Space of xv6

The results of `uvmdealloc` and `uvmalloc` of `xv6/kernel/vm.c`. The loop of `uvmalloc` takes
one page after the other; where there is none left for the page or for a table of the page
table, it gives back with `uvmdealloc` what it has added.

## Main results

* `Space.uvmalloc`: memory is zeroed where a process grows; without memory, it does not grow.
* `Space.uvmdealloc`: the pages above the new size are freed.
-/

namespace OsLabs.Xv6Memory

variable {K : Kernel} {use use' use₁ : Addr → Option Use} {s s' s₁ : Mem}
  {p q r r' tf t va : Addr} {perm : Pte} {n n' : ℕ} {P : Addr → Addr → Prop} {X : Addr → Prop}

/-! ### `uvmdealloc` -/

/-- A number of pages fits in an `int`. -/
theorem int_npages {x : Addr} (h : x.toNat < 2 ^ 31) : (x.setWidth 32).signExtend 64 = x := by
  have hlow : (x.setWidth 32).toNat = x.toNat := by
    rw [BitVec.toNat_setWidth]
    omega
  have hmsb : (x.setWidth 32).msb = false := by
    rw [BitVec.msb_eq_decide, hlow]
    exact decide_eq_false (by omega)
  refine BitVec.eq_of_toNat_eq ?_
  rw [BitVec.toNat_signExtend, hmsb, BitVec.toNat_setWidth, hlow, if_neg nofun]
  omega

/-- `uvmdealloc` to a smaller number of pages. -/
theorem Space.shrink {oldsz newsz : Addr} (h : Space K use s r tf n) (hinv : Inv K use s)
    (hold : (PGROUNDUP oldsz).toNat = n) (hlt : newsz < oldsz) (hmax : oldsz.toNat ≤ 2 ^ 27) :
    ∃ use' s', s.uvmdealloc K r oldsz newsz = some (s', newsz) ∧ Inv K use' s' ∧
      Keeps (fun r' va => ¬(r' = r ∧ (PGROUNDUP newsz).toNat ≤ va.toNat ∧ va.toNat < n))
        (fun _ => True) use s use' s' ∧
      Space K use' s' r tf (PGROUNDUP newsz).toNat := by
  rw [BitVec.lt_def] at hlt
  have hnew : (PGROUNDUP newsz).toNat = (newsz.toNat + 4095) / 4096 * 4096 :=
    toNat_roundUp (by omega)
  have hround := toNat_roundUp hmax
  have hn := h.bound
  rw [Mem.uvmdealloc, if_neg (by rw [BitVec.le_def]; omega)]
  by_cases hpages : PGROUNDUP newsz < PGROUNDUP oldsz
  · rw [if_pos hpages]
    rw [BitVec.lt_def] at hpages
    have hcount : ((PGROUNDUP oldsz - PGROUNDUP newsz) / PGSIZE).toNat =
        (n - (PGROUNDUP newsz).toNat) / 4096 := by
      have hsub : (PGROUNDUP oldsz - PGROUNDUP newsz).toNat = n - (PGROUNDUP newsz).toNat := by
        bv_omega
      rw [BitVec.toNat_udiv, hsub]
      rfl
    have hrange : (PGROUNDUP newsz).toNat + (n - (PGROUNDUP newsz).toNat) / 4096 * 4096 = n := by
      omega
    dsimp only
    rw [int_npages (by omega)]
    obtain ⟨use', s', hrun, hinv', hkeep, hzero⟩ := hinv.uvmunmap h.root (PGROUNDUP newsz)
      ((PGROUNDUP oldsz - PGROUNDUP newsz) / PGSIZE) (by omega) (by omega)
      fun va hva _ hlt' => h.mapped va hva (by omega)
    rw [hcount, hrange] at hkeep hzero
    rw [hrun]
    refine ⟨use', s', rfl, hinv', hkeep, h.of_keeps hkeep trivial (by omega) (by omega)
      (fun va _ hiff hmem => by omega) (fun va _ hle hlt => by omega) fun va hva hle hlt => ?_⟩
    rw [hzero va hva hle hlt]
    decide
  · rw [if_neg hpages]
    rw [BitVec.lt_def] at hpages
    have hsame : (PGROUNDUP newsz).toNat = n := by omega
    rw [hsame]
    exact ⟨use, s, rfl, hinv, .refl, h⟩

/-- **`uvmdealloc`** frees the pages above the new size, if it is smaller. -/
theorem Space.uvmdealloc {oldsz : Addr} (newsz : Addr)
    (h : Space K use s r tf (PGROUNDUP oldsz).toNat) (hinv : Inv K use s)
    (hmax : oldsz.toNat ≤ 2 ^ 27) :
    ∃ use' s' sz, s.uvmdealloc K r oldsz newsz = some (s', sz) ∧
      sz = (if newsz < oldsz then newsz else oldsz) ∧ Inv K use' s' ∧
      Keeps (fun r' va => ¬(r' = r ∧ (PGROUNDUP sz).toNat ≤ va.toNat ∧ va.toNat < 2 ^ 27))
        (fun _ => True) use s use' s' ∧
      Space K use' s' r tf (PGROUNDUP sz).toNat := by
  by_cases hlt : newsz < oldsz
  · obtain ⟨use', s', hrun, hinv', hkeep, hspace⟩ := h.shrink hinv rfl hlt hmax
    have hbound := h.bound
    rw [if_pos hlt]
    exact ⟨use', s', newsz, hrun, rfl, hinv', hkeep.mono (fun _ _ hP hrange =>
      hP ⟨hrange.1, hrange.2.1, by omega⟩) fun _ h => h, hspace⟩
  · rw [if_neg hlt, Mem.uvmdealloc, if_pos (BitVec.not_lt.1 hlt)]
    exact ⟨use, s, oldsz, rfl, rfl, hinv, .refl, h⟩

/-! ### `uvmalloc` -/

/-- Memory that was added is freed again. -/
theorem Space.rollback {a oldsz : Addr} (h : Space K use s r tf a.toNat) (hinv : Inv K use s)
    (hold : oldsz.toNat % 4096 = 0) (hle : oldsz.toNat ≤ a.toNat) :
    ∃ use' s' sz, s.uvmdealloc K r a oldsz = some (s', sz) ∧ Inv K use' s' ∧
      Keeps (fun r' va => ¬(r' = r ∧ oldsz.toNat ≤ va.toNat ∧ va.toNat < 2 ^ 27)) (fun _ => True)
        use s use' s' ∧ Space K use' s' r tf oldsz.toNat := by
  have hbound := h.bound
  have haligned := h.aligned
  have hround := toNat_roundUp hbound
  have hround' : (PGROUNDUP oldsz).toNat = (oldsz.toNat + 4095) / 4096 * 4096 :=
    toNat_roundUp (by omega)
  by_cases hlt : oldsz < a
  · obtain ⟨use', s', hrun, hinv', hkeep, hspace⟩ :=
      h.shrink hinv (by omega) hlt hbound
    have hsame : (PGROUNDUP oldsz).toNat = oldsz.toNat := by omega
    rw [hsame] at hkeep hspace
    exact ⟨use', s', _, hrun, hinv', hkeep.mono (fun _ _ hP hrange =>
      hP ⟨hrange.1, hrange.2.1, by omega⟩) fun _ h => h, hspace⟩
  · rw [BitVec.lt_def] at hlt
    have hsame : a.toNat = oldsz.toNat := by omega
    rw [Mem.uvmdealloc, if_pos (by rw [BitVec.le_def]; omega)]
    exact ⟨use, s, _, rfl, hinv, .refl, hsame ▸ h⟩

/-- The loop of `uvmalloc` from `a` on. -/
theorem Space.uvmallocLoop {a oldsz : Addr} {xperm : Pte} (h : Space K use s r tf a.toNat)
    (hinv : Inv K use s) (newsz : Addr) (fuel : ℕ) (hold : oldsz.toNat % 4096 = 0)
    (hle : oldsz.toNat ≤ a.toNat) (ha : a.toNat < newsz.toNat + 4096)
    (hperm : IsPerm (PTE_R ||| PTE_U ||| xperm)) (hfuel : 2 ^ 15 + 1 < fuel + a.toNat / 4096) :
    ∃ use' s', Inv K use' s' ∧
      (s.uvmallocLoop K r oldsz newsz xperm fuel a = some (s', true) ∧ newsz.toNat ≤ 2 ^ 27 ∧
          Keeps (fun r' va => ¬(r' = r ∧ a.toNat ≤ va.toNat ∧ va.toNat < 2 ^ 27)) (fun _ => True)
            use s use' s' ∧
          Space K use' s' r tf (PGROUNDUP newsz).toNat ∧
          (∀ va, IsVa va → a.toNat ≤ va.toNat → va.toNat < (PGROUNDUP newsz).toNat →
            ∃ p, Mapped use' s' r va p ∧ s'.page p = (fun _ => 0) ∧
              entry s' r va = PA2PTE p ||| (PTE_R ||| PTE_U ||| xperm) ||| PTE_V) ∨
        s.uvmallocLoop K r oldsz newsz xperm fuel a = some (s', false) ∧
          Keeps (fun r' va => ¬(r' = r ∧ oldsz.toNat ≤ va.toNat ∧ va.toNat < 2 ^ 27))
            (fun _ => True) use s use' s' ∧
          Space K use' s' r tf oldsz.toNat) := by
  have hmaxva : MAXVA.toNat = 2 ^ 38 := by decide
  induction fuel generalizing use s a with
  | zero =>
    have hbound := h.bound
    omega
  | succ fuel ih =>
    have hbound := h.bound
    have haligned := h.aligned
    rw [Mem.uvmallocLoop]
    by_cases hmore : a < newsz
    · rw [if_pos hmore]
      dsimp only
      have hnext : (a + PGSIZE).toNat = a.toNat + 4096 := by
        rw [PGSIZE]
        bv_omega
      have hva : IsVa a := ⟨haligned, by rw [BitVec.lt_def]; omega⟩
      have hinvalid : entry s r a &&& PTE_V = 0 := by
        refine h.rest a hva (Nat.le_refl _) ?_ ?_ <;>
        · rintro rfl
          exact absurd hbound (by decide)
      by_cases hr0 : s.kalloc.2 = 0
      · rw [if_pos hr0, (hinv.take_none hr0).1]
        obtain ⟨use', s', sz, hrun, hinv', hkeep, hspace⟩ := h.rollback hinv hold hle
        rw [hrun]
        exact ⟨use', s', hinv', .inr ⟨rfl, hkeep, hspace⟩⟩
      · rw [if_neg hr0]
        obtain ⟨use₁, s₁, hrun, hinv₁, hkeep₁, hmapped, hdata, hentry⟩ |
            ⟨use₁, s₁, s₂, hrun, hfree, hinv₁, hkeep₁⟩ :=
          hinv.mapNew h.root hva hinvalid hr0 (fun _ => 0) hperm
        · rw [hrun]
          dsimp only
          have hspace := h.grow hinv₁ hkeep₁ hmapped
          have hsize := hspace.bound
          have hstep : Keeps (fun r' va => ¬(r' = r ∧ oldsz.toNat ≤ va.toNat ∧ va.toNat < 2 ^ 27))
              (fun _ => True) use s use₁ s₁ :=
            hkeep₁.mono (fun r' va hP heq => by
              obtain ⟨rfl, rfl⟩ := Prod.mk.inj heq
              exact hP ⟨rfl, hle, by omega⟩) fun _ h => h
          obtain ⟨use', s', hinv', ⟨hloop, hsz, hkeep', hspace', hnew⟩ |
              ⟨hloop, hkeep', hspace'⟩⟩ :=
            ih hspace hinv₁ (by omega) (by rw [BitVec.lt_def] at hmore; omega) (by omega)
          · refine ⟨use', s', hinv', .inl ⟨hloop, hsz, (hkeep₁.mono (fun r' va hP heq => ?_)
              fun _ h => h).trans (hkeep'.mono (fun r' va hP hrange => ?_) fun _ h => h), hspace',
              fun va hva' hle' hlt => ?_⟩⟩
            · obtain ⟨rfl, rfl⟩ := Prod.mk.inj heq
              exact hP ⟨rfl, Nat.le_refl _, by omega⟩
            · exact hP ⟨hrange.1, by omega, hrange.2.2⟩
            · by_cases hfirst : va = a
              · subst hfirst
                have hP : ¬(r = r ∧ (va + PGSIZE).toNat ≤ va.toNat ∧ va.toNat < 2 ^ 27) := by
                  omega
                have hroot := hspace.root
                refine ⟨_, hkeep'.mapped trivial hroot hva hP hmapped, ?_, ?_⟩
                · rw [(hkeep'.users r va _ trivial hroot hva hP hmapped).2, hdata]
                · rw [hkeep'.entries r va trivial hroot hva hP, hentry]
              · have hne : va.toNat ≠ a.toNat := fun h => hfirst (BitVec.eq_of_toNat_eq h)
                have halign := hva'.1
                exact hnew va hva' (by omega) hlt
          · exact ⟨use', s', hinv', .inr ⟨hloop, hstep.trans hkeep', hspace'⟩⟩
        · rw [hrun]
          dsimp only
          rw [hfree]
          dsimp only
          obtain ⟨use', s', sz, hrun', hinv', hkeep', hspace'⟩ :=
            (h.keep hkeep₁ trivial fun _ => trivial).rollback hinv₁ hold hle
          rw [hrun']
          exact ⟨use', s', hinv', .inr ⟨rfl, (hkeep₁.mono (fun _ _ _ => trivial)
            fun _ h => h).trans hkeep', hspace'⟩⟩
    · rw [if_neg hmore]
      rw [BitVec.lt_def] at hmore
      have hround : (PGROUNDUP newsz).toNat = a.toNat := by
        rw [toNat_roundUp (by omega)]
        omega
      rw [hround]
      exact ⟨use, s, hinv, .inl ⟨rfl, by omega, .refl, h, fun va _ hle hlt => by omega⟩⟩

/-- **`uvmalloc`** adds zeroed pages, or keeps the size if there is no memory. -/
theorem Space.uvmalloc {oldsz newsz : Addr} {xperm : Pte}
    (h : Space K use s r tf (PGROUNDUP oldsz).toNat) (hinv : Inv K use s)
    (hmax : oldsz.toNat ≤ 2 ^ 27) (hle : oldsz ≤ newsz)
    (hperm : IsPerm (PTE_R ||| PTE_U ||| xperm)) :
    ∃ use' s', Inv K use' s' ∧
      Keeps (fun r' va => ¬(r' = r ∧ (PGROUNDUP oldsz).toNat ≤ va.toNat ∧ va.toNat < 2 ^ 27))
        (fun _ => True) use s use' s' ∧
      (s.uvmalloc K r oldsz newsz xperm = some (s', newsz) ∧ newsz.toNat ≤ 2 ^ 27 ∧
          Space K use' s' r tf (PGROUNDUP newsz).toNat ∧
          (∀ va, IsVa va → (PGROUNDUP oldsz).toNat ≤ va.toNat →
            va.toNat < (PGROUNDUP newsz).toNat → ∃ p, Mapped use' s' r va p ∧
              s'.page p = (fun _ => 0) ∧
              entry s' r va = PA2PTE p ||| (PTE_R ||| PTE_U ||| xperm) ||| PTE_V) ∨
        s.uvmalloc K r oldsz newsz xperm = some (s', 0) ∧
          Space K use' s' r tf (PGROUNDUP oldsz).toNat) := by
  have hround := toNat_roundUp hmax
  rw [BitVec.le_def] at hle
  rw [Mem.uvmalloc, if_neg (by rw [BitVec.lt_def]; omega)]
  obtain ⟨use', s', hinv', ⟨hrun, hsz, hkeep, hspace, hnew⟩ | ⟨hrun, hkeep, hspace⟩⟩ :=
    h.uvmallocLoop hinv newsz (2 ^ 15 + 2) (by omega) (Nat.le_refl _) (by omega)
      hperm (by omega)
  · rw [hrun]
    exact ⟨use', s', hinv', hkeep, .inl ⟨rfl, hsz, hspace, hnew⟩⟩
  · rw [hrun]
    exact ⟨use', s', hinv', hkeep, .inr ⟨rfl, hspace⟩⟩

end OsLabs.Xv6Memory
