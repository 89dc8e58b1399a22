import OsLabs.Xv6Mappings

/-!
# Freeing the Page Tables of xv6

`freewalk` frees a page table from below: each table is freed before the entry that points to
it is cleared. In between, that entry points to a free page, so `Inv` does not hold of the
memory `s` itself. It holds of the memory `g` in which the entries on the path of the recursion
are cleared already; `Agree A s g` says that `s` is `g` up to the tables `A` of that path.

## Main results

* `Inv.freewalkAt`: one call of the recursion.
* `Inv.freewalk`: `freewalk` frees the tables of a page table, and keeps all others.
-/

namespace OsLabs.Xv6Memory

/-- `s` is `g` up to the contents of the pages with `A`. -/
structure Agree (A : Addr → Prop) (s g : Mem) : Prop where
  freelist : s.freelist = g.freelist
  page : ∀ q, ¬A q → s.page q = g.page q

/-- The tables below `p`, a table of this level, have no leaves. -/
def Bare (m : Addr → Page) : ℕ → Addr → Prop
  | 0, p => ∀ i, m p i &&& PTE_V = 0
  | l + 1, p => ∀ i c, child (m p i) = some c → Bare m l c

/-- What has changed after the tables below `p`, a table of level `l`, are freed. -/
structure Pruned (p : Addr) (l : ℕ) (use : Addr → Option Use) (g : Mem) (use' : Addr → Option Use)
    (g' : Mem) : Prop where
  use : ∀ q, q ≠ p →
    use' q = use q ∨ use' q = some .free ∧ ∃ k e, k < l ∧ use q = some (.table k (some e))
  page : ∀ q, q ≠ p → use' q ≠ some .free → g'.page q = g.page q

section

variable {K : Kernel} {use use' use₁ : Addr → Option Use} {s s' g g' g₁ : Mem}
  {p q r c : Addr} {i : Fin 512} {A : Addr → Prop} {m : Addr → Page} {l : ℕ}

/-- `kfree` looks at nothing in the pages, so it does the same to both memories. -/
theorem Agree.kfree (h : Agree A s g) (hg : g.kfree K p = some g') :
    ∃ s', s.kfree K p = some s' ∧ Agree A s' g' ∧ ∀ q, q ≠ p → s'.page q = s.page q := by
  rw [Mem.kfree] at hg ⊢
  by_cases hpage : K.IsPage p
  · rw [if_pos hpage] at hg ⊢
    obtain rfl := Option.some.inj hg
    refine ⟨_, rfl, ⟨rfl, fun q hq => ?_⟩, fun q hq => page_setPage_of_ne _ hq⟩
    by_cases hqp : q = p
    · rw [hqp, page_setPage_self, page_setPage_self, h.freelist]
    · rw [page_setPage_of_ne _ hqp, page_setPage_of_ne _ hqp]
      exact h.page q hq
  · rw [if_neg hpage] at hg
    cases hg

/-- The tables below `p` are the same in two memories. -/
theorem Bare.congr (h : Inv K use g) (hp : levelOf use p = some l)
    (hm : ∀ q k, k ≤ l → levelOf use q = some k → g.page q = m q) (hbare : Bare m l p) :
    Bare g.page l p := by
  induction l generalizing p with
  | zero =>
    intro i
    rw [hm p 0 (Nat.le_refl _) hp]
    exact hbare i
  | succ l ih =>
    intro i c hc
    have hc' : child (m p i) = some c := by rw [← hm p _ (Nat.le_refl _) hp, hc]
    exact ih (levelOf_table (h.down p l i c hp hc).1) (fun q k hk => hm q k (Nat.le_succ_of_le hk))
      (hbare i c hc')

/-- Without a valid entry, there is nothing to do. -/
theorem freewalkLoop_invalid {free : Addr → Mem → Option Mem} {is : List (Fin 512)}
    (h : ∀ i, s.page p i &&& PTE_V = 0) : s.freewalkLoop free p is = some s := by
  induction is with
  | nil => rfl
  | cons i is ih =>
    rw [Mem.freewalkLoop, if_neg fun hv => hv.1 (h i), if_neg (not_not.2 (h i)), ih]

/-- Two tables below `p` are freed one after the other. -/
theorem Pruned.trans (h : Pruned p l use g use₁ g₁) (h' : Pruned p l use₁ g₁ use' g') :
    Pruned p l use g use' g' := by
  refine ⟨fun q hq => ?_, fun q hq hne => ?_⟩
  · rcases h'.use q hq with heq' | ⟨hfree', k, e, hk, heq'⟩
    · rcases h.use q hq with heq | ⟨hfree, hold⟩
      · exact .inl (heq'.trans heq)
      · exact .inr ⟨heq'.trans hfree, hold⟩
    · rcases h.use q hq with heq | ⟨hfree, -⟩
      · exact .inr ⟨hfree', k, e, hk, heq.symm.trans heq'⟩
      · exact nomatch hfree.symm.trans heq'
  · rw [h'.page q hq hne, h.page q hq]
    intro hfree
    rcases h'.use q hq with heq | ⟨heq, -⟩
    · exact hne (heq.trans hfree)
    · exact hne heq

/-- The tables from level `l` on remain. -/
theorem Pruned.survive {k : ℕ} (h : Pruned p l use g use' g') (hq : q ≠ p)
    (hlevel : levelOf use q = some k) (hk : l ≤ k) : use' q = use q := by
  rcases h.use q hq with heq | ⟨-, k', e, hk', heq⟩
  · exact heq
  · obtain rfl := Option.some.inj (hlevel.symm.trans (levelOf_table heq))
    omega

/-- A call of `freewalk` for a table of level `l`, for any tables `A` above it. -/
def FreesTables (K : Kernel) (l : ℕ) : Prop :=
  ∀ ⦃use g s p A⦄, Inv K use g → use p = some (.table l none) → Bare g.page l p →
    (∀ q, A q → ∃ k, levelOf use q = some k ∧ l < k) → Agree A s g →
    ∃ use' g' s', s.freewalk K (l + 1) p = some s' ∧ Inv K use' g' ∧ Agree A s' g' ∧
      (∀ q, A q → s'.page q = s.page q) ∧ use' p = some .free ∧ Pruned p l use g use' g'

/-- Tables of different levels are different pages. -/
theorem ne_of_level {k k' : ℕ} (hp : levelOf use p = some k) (hq : levelOf use q = some k')
    (h : k ≠ k') : p ≠ q := by
  rintro rfl
  exact h (Option.some.inj (hp.symm.trans hq))

/-- A valid entry of a table of level `l + 1`. -/
theorem FreesTables.entry (hrec : FreesTables K l) (h : Inv K use g)
    (hp : use p = some (.table (l + 1) none)) (hchild : child (g.page p i) = some c)
    (hbare : Bare g.page l c) (hA : ∀ q, A q → ∃ k, levelOf use q = some k ∧ l + 1 < k)
    (hs : Agree A s g) :
    ∃ use' g' s', s.freewalk K (l + 1) c = some s' ∧ Inv K use' g' ∧
      Agree A (s'.setPte p i 0) g' ∧ (∀ q, A q → s'.page q = s.page q) ∧
      use' p = some (.table (l + 1) none) ∧ g'.page p = (g.setPte p i 0).page p ∧
      Pruned p (l + 1) use g use' g' := by
  have hlevel : levelOf use p = some (l + 1) := levelOf_table hp
  have hAp : ¬A p := fun hAp => by
    obtain ⟨k, hk, hlt⟩ := hA p hAp
    exact ne_of_level hlevel hk (by omega) rfl
  obtain ⟨hc, -⟩ := h.down p l i c hlevel hchild
  have hcp : p ≠ c := ne_of_level hlevel (levelOf_table hc) (Nat.succ_ne_self l)
  -- The entry is cleared in `g` first.
  have hdetach := h.detach hc
  have hpage : ∀ q, q ≠ p → (g.setPte p i 0).page q = g.page q := fun q hq => setEntry_of_ne hq
  have hlevel₁ : ∀ q k, levelOf use q = some k → l < k →
      levelOf (Function.update use c (some (.table l none))) q = some k := fun q k hq hlt => by
    have hqc : q ≠ c := ne_of_level hq (levelOf_table hc) (Nat.ne_of_gt hlt)
    exact (levelOf_congr (Function.update_of_ne hqc ..)).trans hq
  have hp₁ := hlevel₁ p _ hlevel (Nat.lt_succ_self l)
  have hbare₁ : Bare (g.setPte p i 0).page l c :=
    Bare.congr hdetach (levelOf_table (Function.update_self ..)) (fun q k hk hq =>
      hpage q (ne_of_level hq hp₁ (by omega))) hbare
  obtain ⟨use', g', s', hrun, hinv', hagree, hkept, hfree, hpruned⟩ := hrec
    (A := fun q => A q ∨ q = p) hdetach (Function.update_self ..) hbare₁ (by
      rintro q (hq | rfl)
      · obtain ⟨k, hk, hlt⟩ := hA q hq
        exact ⟨k, hlevel₁ q k hk (by omega), by omega⟩
      · exact ⟨l + 1, hp₁, Nat.lt_succ_self l⟩)
    ⟨hs.freelist, fun q hq => by
      rw [hs.page q fun hA => hq (.inl hA), hpage q fun heq => hq (.inr heq)]⟩
  have hp' : use' p = some (.table (l + 1) none) := by
    rw [hpruned.survive hcp hp₁ (Nat.le_succ l), Function.update_of_ne hcp, hp]
  have hpage' : g'.page p = (g.setPte p i 0).page p :=
    hpruned.page p hcp (by rw [hp']; nofun)
  refine ⟨use', g', s', hrun, hinv', ⟨hagree.freelist, fun q hq => ?_⟩,
    fun q hq => hkept q (.inl hq), hp', hpage', ⟨fun q hq => ?_, fun q hq hne => ?_⟩⟩
  · by_cases hqp : q = p
    · have hsp : s'.page p = g.page p := by rw [hkept p (.inr rfl), hs.page p hAp]
      rw [hqp, hpage', page_setPte_self, page_setPte_self, hsp]
    · exact (setEntry_of_ne hqp).trans (hagree.page q (not_or.2 ⟨hq, hqp⟩))
  · by_cases hqc : q = c
    · exact .inr ⟨by rw [hqc, hfree], l, (p, i), Nat.lt_succ_self l, by rw [hqc, hc]⟩
    · have hback := Function.update_of_ne hqc (some (Use.table l none)) use
      rcases hpruned.use q hqc with heq | ⟨heq, k, e, hk, hold⟩
      · exact .inl (heq.trans hback)
      · exact .inr ⟨heq, k, e, Nat.lt_succ_of_lt hk, hback.symm.trans hold⟩
  · have hqc : q ≠ c := fun heq => hne (by rw [heq, hfree])
    rw [hpruned.page q hqc hne, hpage q hq]

/-- The loop over the entries `is` of a table of level `l + 1`, when the others are cleared. -/
theorem FreesTables.loop (hrec : FreesTables K l) {is : List (Fin 512)} (h : Inv K use g)
    (hp : use p = some (.table (l + 1) none))
    (hbare : ∀ i ∈ is, ∀ c, child (g.page p i) = some c → Bare g.page l c) (hnodup : is.Nodup)
    (hrest : ∀ i, i ∉ is → g.page p i &&& PTE_V = 0)
    (hA : ∀ q, A q → ∃ k, levelOf use q = some k ∧ l + 1 < k) (hs : Agree A s g) :
    ∃ use' g' s', s.freewalkLoop (Mem.freewalk K (l + 1)) p is = some s' ∧ Inv K use' g' ∧
      Agree A s' g' ∧ (∀ q, A q → s'.page q = s.page q) ∧
      use' p = some (.table (l + 1) none) ∧ (∀ i, g'.page p i &&& PTE_V = 0) ∧
      Pruned p (l + 1) use g use' g' := by
  induction is generalizing use g s with
  | nil =>
    exact ⟨use, g, s, rfl, h, hs, fun _ _ => rfl, hp, fun i => hrest i List.not_mem_nil,
      ⟨fun _ _ => .inl rfl, fun _ _ _ => rfl⟩⟩
  | cons i is ih =>
    have hlevel : levelOf use p = some (l + 1) := levelOf_table hp
    have hAp : ∀ q, A q → q ≠ p := fun q hq => by
      obtain ⟨k, hk, hlt⟩ := hA q hq
      exact ne_of_level hk hlevel (Nat.ne_of_gt hlt)
    have hsame : s.page p i = g.page p i := by rw [hs.page p fun hq => hAp p hq rfl]
    obtain ⟨hi, hnodup⟩ := List.nodup_cons.1 hnodup
    have hrest' : ∀ j, j ∉ is → j ≠ i → g.page p j &&& PTE_V = 0 := fun j hj hji =>
      hrest j fun hmem => hj ((List.mem_cons.1 hmem).resolve_left hji)
    rw [Mem.freewalkLoop, hsame]
    by_cases hv : g.page p i &&& PTE_V = 0
    · rw [if_neg fun hboth => hboth.1 hv, if_neg (not_not.2 hv)]
      refine ih h hp (fun j hj => hbare j (List.mem_cons_of_mem i hj)) hnodup (fun j hj => ?_) hA hs
      by_cases hji : j = i
      · rw [hji, hv]
      · exact hrest' j hj hji
    · have hchild := child_eq_some.2 ⟨hv, rfl⟩
      have hrwx : g.page p i &&& (PTE_R ||| PTE_W ||| PTE_X) = 0 := by
        rw [and_flags (by decide), (h.down p l i _ hlevel hchild).2]
        decide
      obtain ⟨use₁, g₁, s₁, hrun, hinv, hagree, hkept, hp₁, hpage, hpruned⟩ :=
        hrec.entry h hp hchild (hbare i List.mem_cons_self _ hchild) hA hs
      rw [if_pos ⟨hv, hrwx⟩, hrun]
      dsimp only
      have hold : ∀ j, j ≠ i → g₁.page p j = g.page p j := fun j hj => by
        rw [hpage]
        exact setEntry_of_index hj
      have hnew : g₁.page p i = 0 := by
        rw [hpage]
        exact setEntry_same
      have hbare₁ : ∀ j ∈ is, ∀ d, child (g₁.page p j) = some d → Bare g₁.page l d := by
        intro j hj d hd
        refine Bare.congr hinv (levelOf_table (hinv.down p l j d (levelOf_table hp₁) hd).1)
          (fun q k hk hq => hpruned.page q (ne_of_level hq (levelOf_table hp₁) (by omega))
            fun hfree => ?_) (hbare j (List.mem_cons_of_mem i hj) d ?_)
        · rw [levelOf, hfree] at hq
          cases hq
        · rw [← hold j fun heq => hi (heq ▸ hj), hd]
      obtain ⟨use', g', s', hloop, hinv', hagree', hkept', hp', hempty, hpruned'⟩ :=
        ih hinv hp₁ hbare₁ hnodup (fun j hj => by
          by_cases hji : j = i
          · rw [hji, hnew]
            decide
          · rw [hold j hji, hrest' j hj hji])
          (fun q hq => by
            obtain ⟨k, hk, hlt⟩ := hA q hq
            have hsurvive := hpruned.survive (hAp q hq) hk (Nat.le_of_lt hlt)
            exact ⟨k, (levelOf_congr hsurvive).trans hk, hlt⟩)
          hagree
      refine ⟨use', g', s', hloop, hinv', hagree', fun q hq => ?_, hp', hempty,
        hpruned.trans hpruned'⟩
      rw [hkept' q hq, ← hkept q hq]
      exact setEntry_of_ne (hAp q hq)

/-- The end of a call: the empty table is freed. -/
theorem Inv.freeTable (h : Inv K use g) (hp : use p = some (.table l none))
    (hempty : ∀ i, g.page p i &&& PTE_V = 0) (hs : Agree A s g) :
    ∃ g' s', s.kfree K p = some s' ∧ Inv K (Function.update use p (some .free)) g' ∧
      Agree A s' g' ∧ (∀ q, q ≠ p → s'.page q = s.page q) ∧ ∀ q, q ≠ p → g'.page q = g.page q := by
  obtain ⟨g', hfree, hinv, hpage⟩ := (h.release hp hempty).give (p := p) (Function.update_self ..)
  obtain ⟨s', hs', hagree, hkept⟩ := hs.kfree hfree
  rw [Function.update_idem] at hinv
  exact ⟨g', s', hs', hinv, hagree, hkept, hpage⟩

/-- **One call of the recursion** frees the table and all tables below it, and touches nothing
else, by induction on the level. -/
theorem freesTables (K : Kernel) (l : ℕ) : FreesTables K l := by
  induction l with
  | zero =>
    intro use g s p A h hp hbare hA hs
    have hpA : ¬A p := fun hAp => by
      obtain ⟨k, hk, hlt⟩ := hA p hAp
      exact ne_of_level (levelOf_table hp) hk (Nat.ne_of_lt hlt) rfl
    obtain ⟨g', s', hrun, hinv, hagree, hkept, hpage⟩ := h.freeTable hp hbare hs
    rw [Mem.freewalk, freewalkLoop_invalid fun i => by rw [hs.page p hpA, hbare i],
      Option.bind_some, hrun]
    exact ⟨_, g', s', rfl, hinv, hagree, fun q hq => hkept q fun heq => hpA (heq ▸ hq),
      Function.update_self .., ⟨fun q hq => .inl (Function.update_of_ne hq ..),
        fun q hq _ => hpage q hq⟩⟩
  | succ l ih =>
    intro use g s p A h hp hbare hA hs
    have hpA : ∀ q, A q → q ≠ p := fun q hq => by
      obtain ⟨k, hk, hlt⟩ := hA q hq
      exact ne_of_level hk (levelOf_table hp) (Nat.ne_of_gt hlt)
    obtain ⟨use₁, g₁, s₁, hloop, hinv, hagree, hkept, hp₁, hempty, hpruned⟩ :=
      ih.loop h hp (fun i _ => hbare i) (List.nodup_finRange 512)
        (fun i hi => absurd (List.mem_finRange i) hi) hA hs
    obtain ⟨g', s', hrun, hinv', hagree', hkept', hpage⟩ := hinv.freeTable hp₁ hempty hagree
    rw [Mem.freewalk, hloop, Option.bind_some, hrun]
    refine ⟨_, g', s', rfl, hinv', hagree', fun q hq => by rw [hkept' q (hpA q hq), hkept q hq],
      Function.update_self .., hpruned.trans ⟨fun q hq => .inl (Function.update_of_ne hq ..),
        fun q hq _ => hpage q hq⟩⟩

/-! ### Page tables -/

/-- There is an address with these indices. -/
theorem exists_va {i₂ : Fin 512} (i₁ i₀ : Fin 512) (h : i₂.val < 256) :
    ∃ va, IsVa va ∧ path va 2 = [i₂, i₁] ∧ PX 0 va = i₀ := by
  have hsum : i₂.val * 2 ^ 30 + i₁.val * 2 ^ 21 + i₀.val * 2 ^ 12 < 2 ^ 38 := by omega
  obtain ⟨va, hva⟩ : ∃ va : Addr,
      va.toNat = i₂.val * 2 ^ 30 + i₁.val * 2 ^ 21 + i₀.val * 2 ^ 12 :=
    ⟨BitVec.ofNat 64 (i₂.val * 2 ^ 30 + i₁.val * 2 ^ 21 + i₀.val * 2 ^ 12), by
      rw [BitVec.toNat_ofNat]
      omega⟩
  have hmax : MAXVA.toNat = 2 ^ 38 := by decide
  have hindex : ∀ level (i : Fin 512), va.toNat / 2 ^ (12 + 9 * level) % 512 = i.val →
      PX level va = i := fun level i hi => Fin.ext ((toNat_PX level va).trans hi)
  refine ⟨va, ⟨by omega, by rw [BitVec.lt_def]; omega⟩, ?_, hindex 0 i₀ (by omega)⟩
  rw [path, path, path, hindex 2 i₂ (by omega), hindex 1 i₁ (by omega)]

/-- A page table that maps no address has no leaves below it, so that `freewalk` does not
panic. -/
theorem bare_of_entries (h : Inv K use s) (hr : IsRoot use r)
    (hentries : ∀ va, IsVa va → Xv6Memory.entry s r va &&& PTE_V = 0) : Bare s.page 2 r := by
  intro i₂ c₁ hc₁ i₁ c₀ hc₀ i₀
  have hsmall : i₂.val < 256 := by
    by_contra hge
    exact (child_eq_some.1 hc₁).1 (h.high r i₂ (levelOf_table hr) (Nat.le_of_not_lt hge))
  obtain ⟨va, hva, hpath, hlast⟩ := exists_va i₁ i₀ hsmall
  have hd : descend child s.page r (path va 2) = some c₀ := by
    rw [hpath, descend, hc₁, Option.bind_some, descend, hc₀, Option.bind_some, descend]
  rw [← hlast, ← entry_eq hd]
  exact hentries va hva

/-- **`freewalk` frees a page table without mappings**, and keeps all others. -/
theorem Inv.freewalk (h : Inv K use s) (hr : IsRoot use r)
    (hentries : ∀ va, IsVa va → Xv6Memory.entry s r va &&& PTE_V = 0) :
    ∃ use' s', s.freewalk K 3 r = some s' ∧ Inv K use' s' ∧ use' r = some .free ∧
      Keeps (fun _ _ => True) (· ≠ r) use s use' s' := by
  obtain ⟨use', g', s', hrun, hinv, hagree, -, hfree, hpruned⟩ :=
    freesTables K 2 (A := fun _ => False) h hr (bare_of_entries h hr hentries) (fun _ hq => hq.elim)
      ⟨rfl, fun _ _ => rfl⟩
  obtain rfl : s' = g' := by
    cases s'
    cases g'
    exact congr (congrArg Mem.mk (funext fun q => hagree.page q id)) hagree.freelist
  have hother : ∀ q u, q ≠ r → use q = some u → (∀ k e, u ≠ .table k (some e)) →
      use' q = use q := by
    intro q u hq hu hne
    rcases hpruned.use q hq with heq | ⟨-, k, e, -, heq⟩
    · exact heq
    · exact absurd (Option.some.inj (hu.symm.trans heq)) (hne k e)
  have hlevel : ∀ t k, levelOf use' t = some k → s.page t = s'.page t := by
    intro t k ht
    have hne : use' t ≠ some .free := fun heq => by
      rw [levelOf, heq] at ht
      cases ht
    exact (hpruned.page t (fun heq => hne (heq ▸ hfree)) hne).symm
  have hroot : ∀ q, q ≠ r → IsRoot use q → IsRoot use' q := fun q hq hu =>
    (hother q _ hq hu (by rintro _ _ ⟨⟩)).trans hu
  refine ⟨use', s', hrun, hinv, hfree, fun q u hq hu => ?_, fun q hq hu => ?_,
    fun q is t hq hu hlen hd => ?_, fun q va hq hu hva _ => ?_, fun q va p hq hu hva _ hm => ?_⟩
  · rcases hpruned.use q hq with heq | ⟨heq, k, e, -, hold⟩
    · rw [heq]
    · rw [heq, hold]
      refine iff_of_false (fun h => ?_) fun h => ?_ <;>
      · obtain rfl := Option.some.inj h
        exact hu
  · exact hpruned.page q hq (by
      rw [hother q _ hq hu (by rintro _ _ ⟨⟩), hu]
      rintro ⟨⟩)
  · rw [← hd]
    exact (hinv.forest.descend_congr (fun t k i ht => by rw [hlevel t _ ht])
      ((hroot q hq hu).level hlen)).symm
  · exact (hinv.forest.lookup_congr hlevel
      (by rw [length_path]; exact levelOf_table (hroot q hq hu))).symm
  · obtain ⟨t, -, hp⟩ := hm
    have hpr : p ≠ r := by
      rintro rfl
      cases hp.symm.trans hr
    have heq := hother p _ hpr hp (by rintro _ _ ⟨⟩)
    exact ⟨heq, hpruned.page p hpr (by rw [heq, hp]; rintro ⟨⟩)⟩

end

end OsLabs.Xv6Memory
