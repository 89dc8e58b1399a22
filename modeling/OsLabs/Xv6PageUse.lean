import OsLabs.Xv6PageTable

/-!
# Who Has Which Page of xv6

Each page of memory is free, a table of a page table, mapped by one entry of a lowest table for
a user, or some other page of the kernel. `Inv K use s` says that `use` is such a map, with
which the free list and the entries of the tables agree.

## Main results

* `Inv.setPage`: a page to which no entry points changes hands; `Inv.take`, `Inv.give`,
  `Inv.newTable` and `Inv.release` are the cases.
* `Inv.setEntry`: an entry changes, and the page to which it points with it; `Inv.map`,
  `Inv.unmap`, `Inv.attach` and `Inv.detach` are the cases.
* `Inv.data`: the contents of other pages do not matter.
-/

namespace OsLabs.Xv6Memory

/-- What a page of memory is used for. -/
inductive Use where
  | free
  /-- A table of this level. `parent` is the entry that points to it, if there is one. -/
  | table (level : ℕ) (parent : Option (Addr × Fin 512))
  /-- Mapped for a user by the entry `i` of table `t`. -/
  | user (t : Addr) (i : Fin 512)
  /-- Anything else that the kernel has got from `kalloc`. -/
  | kernel

/-- The entry that points to the page. -/
def Use.parent : Use → Option (Addr × Fin 512)
  | .table _ o => o
  | .user t i => some (t, i)
  | _ => none

/-- The level of the tables whose entries may point to the page. -/
def Use.height : Use → ℕ
  | .table l _ => l + 1
  | _ => 0

/-- The level of a table. -/
def levelOf (use : Addr → Option Use) (p : Addr) : Option ℕ :=
  match use p with
  | some (.table l _) => some l
  | _ => none

/-- **Each page has one use**, and the free list and the entries of the tables agree with it.
Entries without `PTE_U` may point anywhere: the pages of the trampoline and of the trapframes
are not for users. -/
structure Inv (K : Kernel) (use : Addr → Option Use) (s : Mem) : Prop where
  pages : ∀ p, (use p).isSome ↔ K.IsPage p
  free : ∃ l, FreeList s l ∧ ∀ p, p ∈ l ↔ use p = some .free
  level : ∀ t l, levelOf use t = some l → l ≤ 2
  /-- Addresses are below `MAXVA`. -/
  high : ∀ t i, levelOf use t = some 2 → 256 ≤ i.val → s.page t i &&& PTE_V = 0
  /-- Each entry of an inner table agrees with the page to which it points, -/
  down : ∀ t l i q, levelOf use t = some (l + 1) → child (s.page t i) = some q →
    use q = some (.table l (some (t, i))) ∧ PTE_FLAGS (s.page t i) = PTE_V
  /-- and each one of a lowest table, if it is for a user; -/
  leaf : ∀ t i, levelOf use t = some 0 → s.page t i &&& PTE_V ≠ 0 →
    s.page t i &&& (PTE_R ||| PTE_W ||| PTE_X) ≠ 0 ∧
    (s.page t i &&& PTE_U ≠ 0 → use (PTE2PA (s.page t i)) = some (.user t i))
  /-- each page agrees with the entry that points to it. -/
  up : ∀ q u t i, use q = some u → u.parent = some (t, i) →
    levelOf use t = some u.height ∧ child (s.page t i) = some q

section

variable {K : Kernel} {use use' : Addr → Option Use} {s s' : Mem} {p q r t : Addr}
  {i j : Fin 512} {w f : Pte} {l : ℕ} {o : Option (Addr × Fin 512)} {u u' : Use}

/-- The level of a page is the one that it is used as a table of. -/
theorem levelOf_eq : levelOf use p = some l ↔ ∃ o, use p = some (.table l o) := by
  rw [levelOf]
  constructor
  · intro h
    split at h
    · rename_i heq
      exact ⟨_, heq.trans (by rw [Option.some.inj h])⟩
    · exact nomatch h
  · rintro ⟨o, ho⟩
    rw [ho]

/-- A page that is used as a table has the level of that table. -/
theorem levelOf_table (h : use p = some (.table l o)) : levelOf use p = some l :=
  levelOf_eq.2 ⟨o, h⟩

/-- The level depends on the use of the page only. -/
theorem levelOf_congr (h : use' p = use p) : levelOf use' p = levelOf use p := by
  rw [levelOf, levelOf, h]

/-- The page tables are trees: each table is pointed to by one entry at most, of a table one level
higher. -/
theorem Inv.forest (h : Inv K use s) : Forest child (levelOf use) s.page where
  down t l i q ht hq := levelOf_table (h.down t l i q ht hq).1
  inj t l i t' l' i' q ht ht' hq hq' := by
    have heq := (h.down t l i q ht hq).1.symm.trans (h.down t' l' i' q ht' hq').1
    injection heq with heq
    injection heq with _ heq
    injection heq with heq
    exact Prod.mk.inj heq

/-! ### Pages to which no entry points -/

/-- The free list depends on its head and on the pages in it. -/
theorem FreeList.congr {l : List Addr} (h : FreeList s l) (hlist : s'.freelist = s.freelist)
    (hpage : ∀ p ∈ l, s'.page p = s.page p) : FreeList s' l :=
  ⟨h.path.congr (by rw [Mem.next, Mem.next, hlist]) fun y hy => by
    rw [Mem.next, Mem.next, hpage y hy], h.nodup⟩

/-- **Such a page changes hands.** If it was a table or becomes one, the table is empty. -/
theorem Inv.setPage (h : Inv K use s) (hq : use q = some u) (hu : u.parent = none)
    (hu' : u'.parent = none)
    (hold : ∀ l, levelOf use q = some l → ∀ i, s.page q i &&& PTE_V = 0)
    (hnew : ∀ l o, u' = .table l o → l ≤ 2 ∧ ∀ i, s'.page q i &&& PTE_V = 0)
    (hpage : ∀ p, p ≠ q → s'.page p = s.page p)
    (hfree : ∃ l, FreeList s' l ∧ ∀ p, p ∈ l ↔ Function.update use q (some u') p = some .free) :
    Inv K (Function.update use q (some u')) s' := by
  have hlevel : ∀ t l, levelOf (Function.update use q (some u')) t = some l →
      t = q ∧ l ≤ 2 ∧ (∀ i, s'.page q i &&& PTE_V = 0) ∨ t ≠ q ∧ levelOf use t = some l := by
    intro t l ht
    by_cases htq : t = q
    · obtain ⟨o, ho⟩ := levelOf_eq.1 ht
      rw [htq, Function.update_self] at ho
      exact .inl ⟨htq, hnew l o (Option.some.inj ho)⟩
    · exact .inr ⟨htq, (levelOf_congr (Function.update_of_ne htq ..)).symm.trans ht⟩
  have hparent : ∀ {p v e}, use p = some v → v.parent = some e → p ≠ q := by
    rintro p v e hp hv rfl
    obtain rfl := Option.some.inj (hq.symm.trans hp)
    exact nomatch hu.symm.trans hv
  refine ⟨fun p => ?_, hfree, fun t l ht => ?_, fun t i ht hi => ?_, fun t l i c ht hc => ?_,
    fun t i ht hv => ?_, fun p v t i hp hv => ?_⟩
  · by_cases hpq : p = q
    · rw [hpq, Function.update_self, ← h.pages q, hq]
      exact iff_of_true rfl rfl
    · rw [Function.update_of_ne hpq, h.pages]
  · rcases hlevel t l ht with ⟨-, hle, -⟩ | ⟨-, ht⟩
    · exact hle
    · exact h.level t l ht
  · rcases hlevel t _ ht with ⟨rfl, -, hempty⟩ | ⟨htq, ht⟩
    · exact hempty i
    · rw [hpage t htq, h.high t i ht hi]
  · rcases hlevel t _ ht with ⟨rfl, -, hempty⟩ | ⟨htq, ht⟩
    · exact absurd (hempty i) (child_eq_some.1 hc).1
    · rw [hpage t htq] at hc ⊢
      obtain ⟨hc, hflags⟩ := h.down t l i c ht hc
      exact ⟨by rw [Function.update_of_ne (hparent hc rfl), hc], hflags⟩
  · rcases hlevel t _ ht with ⟨rfl, -, hempty⟩ | ⟨htq, ht⟩
    · exact absurd (hempty i) hv
    · rw [hpage t htq] at hv ⊢
      obtain ⟨hleaf, hbit⟩ := h.leaf t i ht hv
      exact ⟨hleaf, fun hmask => by
        rw [Function.update_of_ne (hparent (hbit hmask) rfl), hbit hmask]⟩
  · have hpq : p ≠ q := by
      rintro rfl
      rw [Function.update_self] at hp
      obtain rfl := Option.some.inj hp
      exact nomatch hu'.symm.trans hv
    rw [Function.update_of_ne hpq] at hp
    obtain ⟨ht, hchild⟩ := h.up p v t i hp hv
    have htq : t ≠ q := by
      rintro rfl
      exact (child_eq_some.1 hchild).1 (hold _ ht i)
    exact ⟨(levelOf_congr (Function.update_of_ne htq ..)).trans ht, by rw [hpage t htq, hchild]⟩

/-- The free list after a page that is not free has got another use. -/
theorem Inv.freeList_update (h : Inv K use s) (hq : use q ≠ some .free) (hu' : u' ≠ .free)
    (hlist : s'.freelist = s.freelist) (hpage : ∀ p, p ≠ q → s'.page p = s.page p) :
    ∃ l, FreeList s' l ∧ ∀ p, p ∈ l ↔ Function.update use q (some u') p = some .free := by
  obtain ⟨l, hl, hmem⟩ := h.free
  have hql : q ∉ l := fun hql => hq ((hmem q).1 hql)
  refine ⟨l, hl.congr hlist fun p hp => hpage p fun heq => hql (heq ▸ hp), fun p => ?_⟩
  by_cases hpq : p = q
  · rw [hpq, Function.update_self]
    exact iff_of_false hql fun heq => hu' (Option.some.inj heq)
  · rw [Function.update_of_ne hpq, hmem]

/-- **`kalloc` gives out a free page**, which the kernel has from then on, and touches no
other. -/
theorem Inv.take (h : Inv K use s) (hr : s.kalloc.2 ≠ 0) :
    use s.kalloc.2 = some .free ∧
      Inv K (Function.update use s.kalloc.2 (some .kernel)) s.kalloc.1 ∧
      ∀ p, p ≠ s.kalloc.2 → s.kalloc.1.page p = s.page p := by
  obtain ⟨l, hl, hmem⟩ := h.free
  rcases l with _ | ⟨r, l⟩
  · rw [hl.kalloc_nil] at hr
    exact absurd rfl hr
  obtain ⟨heq, -, hlist, hpage⟩ := hl.kalloc
  rw [heq]
  have hfree : use r = some .free := (hmem r).1 List.mem_cons_self
  have hrl := (List.nodup_cons.1 hl.nodup).1
  have hlevel : ∀ l, levelOf use r ≠ some l := fun l hlevel => by
    rw [levelOf, hfree] at hlevel
    exact nomatch hlevel
  refine ⟨hfree, h.setPage hfree rfl rfl (fun l hl => absurd hl (hlevel l)) nofun hpage
    ⟨l, hlist, fun p => ?_⟩, hpage⟩
  by_cases hpr : p = r
  · rw [hpr, Function.update_self]
    exact iff_of_false hrl nofun
  · rw [Function.update_of_ne hpr, ← hmem, List.mem_cons, or_iff_right hpr]

/-- Without a free page, it gives out none. -/
theorem Inv.take_none (h : Inv K use s) (hr : s.kalloc.2 = 0) :
    s.kalloc.1 = s ∧ ∀ p, use p ≠ some .free := by
  obtain ⟨l, hl, hmem⟩ := h.free
  rcases l with _ | ⟨r, l⟩
  · rw [hl.kalloc_nil]
    exact ⟨rfl, fun p hp => List.not_mem_nil ((hmem p).2 hp)⟩
  · obtain ⟨heq, hne, -⟩ := hl.kalloc
    exact absurd (heq ▸ hr) hne

/-- **`kfree`** takes a page of the kernel back. -/
theorem Inv.give (h : Inv K use s) (hp : use p = some .kernel) :
    ∃ s', s.kfree K p = some s' ∧ Inv K (Function.update use p (some .free)) s' ∧
      ∀ q, q ≠ p → s'.page q = s.page q := by
  obtain ⟨l, hl, hmem⟩ := h.free
  have hpl : p ∉ l := fun hpl => by
    rw [hmem, hp] at hpl
    exact nomatch hpl
  have hlevel : ∀ l, levelOf use p ≠ some l := fun l hlevel => by
    rw [levelOf, hp] at hlevel
    exact nomatch hlevel
  obtain ⟨s', hs', hlist, hpage⟩ := hl.kfree ((h.pages p).1 (by rw [hp]; rfl)) hpl
  refine ⟨s', hs', h.setPage hp rfl rfl (fun l hl => absurd hl (hlevel l)) nofun hpage
    ⟨p :: l, hlist, fun q => ?_⟩, hpage⟩
  by_cases hqp : q = p
  · rw [hqp, Function.update_self]
    exact iff_of_true List.mem_cons_self rfl
  · rw [Function.update_of_ne hqp, ← hmem, List.mem_cons, or_iff_right hqp]

/-- A page of the kernel, cleared, is an empty table. -/
theorem Inv.newTable (h : Inv K use s) (hq : use q = some .kernel) (hl : l ≤ 2) :
    Inv K (Function.update use q (some (.table l none))) (s.setPage q fun _ => 0) := by
  have hlevel : ∀ l, levelOf use q ≠ some l := fun l hlevel => by
    rw [levelOf, hq] at hlevel
    exact nomatch hlevel
  have hpage : ∀ p, p ≠ q → (s.setPage q fun _ => 0).page p = s.page p :=
    fun p hpq => page_setPage_of_ne _ hpq
  refine h.setPage hq rfl rfl (fun l hl => absurd hl (hlevel l)) (fun l' o hu => ?_) hpage
    (h.freeList_update (by rw [hq]; nofun) nofun rfl hpage)
  obtain ⟨rfl, -⟩ := Use.table.inj hu
  exact ⟨hl, fun i => by rw [page_setPage_self]; rfl⟩

/-- An empty table that nothing points to can be freed. -/
theorem Inv.release (h : Inv K use s) (hq : use q = some (.table l none))
    (hempty : ∀ i, s.page q i &&& PTE_V = 0) :
    Inv K (Function.update use q (some .kernel)) s :=
  h.setPage hq rfl rfl (fun _ _ => hempty) nofun (fun _ _ => rfl)
    (h.freeList_update (by rw [hq]; nofun) nofun rfl fun _ _ => rfl)

/-- The contents of the pages of users and of the kernel do not matter. -/
theorem Inv.data (h : Inv K use s) (hlist : s'.freelist = s.freelist)
    (hpage : ∀ p, use p = some .free ∨ (levelOf use p).isSome → s'.page p = s.page p) :
    Inv K use s' := by
  have htable : ∀ {t l}, levelOf use t = some l → s'.page t = s.page t :=
    fun ht => hpage _ (.inr (by rw [ht]; rfl))
  obtain ⟨l, hl, hmem⟩ := h.free
  refine ⟨h.pages, ⟨l, hl.congr hlist fun p hp => hpage p (.inl ((hmem p).1 hp)), hmem⟩, h.level,
    fun t i ht => ?_, fun t l i q ht => ?_, fun t i ht => ?_, fun q u t i hq hu => ?_⟩
  · rw [htable ht]
    exact h.high t i ht
  · rw [htable ht]
    exact h.down t l i q ht
  · rw [htable ht]
    exact h.leaf t i ht
  · obtain ⟨ht, hchild⟩ := h.up q u t i hq hu
    exact ⟨ht, by rw [htable ht, hchild]⟩

/-! ### Entries -/

/-- What the page of the entry `i` of a table `t` of level `l` may be used for. -/
def Use.Under (t : Addr) (i : Fin 512) : ℕ → Use → Prop
  | 0, .kernel => True
  | 0, .user t' i' => t' = t ∧ i' = i
  | l + 1, .table l' o => l' = l ∧ (o = none ∨ o = some (t, i))
  | _, _ => False

/-- A page under an entry has that entry as its parent. -/
theorem Use.Under.parent_eq {e : Addr × Fin 512} (hu : u.Under t i l) (he : u.parent = some e) :
    e = (t, i) ∧ u.height = l := by
  cases u with
  | free => exact nomatch he
  | kernel => exact nomatch he
  | table l' o =>
    obtain rfl : o = some e := he
    cases l with
    | zero => exact hu.elim
    | succ l =>
      obtain ⟨rfl, ho | ho⟩ := hu
      · exact nomatch ho
      · exact ⟨Option.some.inj ho, rfl⟩
  | user t' i' =>
    obtain rfl : (t', i') = e := Option.some.inj he
    cases l with
    | zero =>
      obtain ⟨rfl, rfl⟩ := hu
      exact ⟨rfl, rfl⟩
    | succ l => exact hu.elim

/-- Two uses under the same entry have the same level. -/
theorem Use.Under.level_eq (hu : u.Under t i l) (hu' : u'.Under t i l) (hp : use p = some u)
    (hp' : use' p = some u') : levelOf use' p = levelOf use p := by
  rw [levelOf, levelOf, hp, hp']
  cases l with
  | zero => cases u <;> cases u' <;> first | rfl | exact hu.elim | exact hu'.elim
  | succ l =>
    cases u with
    | table l₁ o₁ =>
      cases u' with
      | table l₂ o₂ => rw [hu.1, hu'.1]
      | _ => exact hu'.elim
    | _ => exact hu.elim

/-- A page under an entry is not free. -/
theorem Use.Under.ne_free (hu : u.Under t i l) : u ≠ .free := by
  rintro rfl
  cases l <;> exact hu

/-- **An entry of a table changes**, and the pages to which it points, before or after. -/
theorem Inv.setEntry (h : Inv K use s) (ht : levelOf use t = some l)
    (huse : ∀ p, use' p = use p ∨
      ∃ u u', use p = some u ∧ use' p = some u' ∧ u.Under t i l ∧ u'.Under t i l)
    (hhigh : l = 2 → 256 ≤ i.val → w &&& PTE_V = 0)
    (hup : ∀ p u, use' p = some u → u.parent = some (t, i) → child w = some p)
    (hdown : ∀ l' q, l = l' + 1 → child w = some q →
      use' q = some (.table l' (some (t, i))) ∧ PTE_FLAGS w = PTE_V)
    (hleaf : l = 0 → w &&& PTE_V ≠ 0 → w &&& (PTE_R ||| PTE_W ||| PTE_X) ≠ 0 ∧
      (w &&& PTE_U ≠ 0 → use' (PTE2PA w) = some (.user t i))) :
    Inv K use' (s.setPte t i w) := by
  have hlevel : ∀ p, levelOf use' p = levelOf use p := by
    intro p
    rcases huse p with hp | ⟨u, u', hp, hp', hu, hu'⟩
    · exact levelOf_congr hp
    · exact hu.level_eq hu' hp hp'
  have hother : ∀ p u e, u.parent = some e → e ≠ (t, i) →
      (use' p = some u ↔ use p = some u) := by
    intro p v e hv he
    rcases huse p with hp | ⟨u, u', hp, hp', hu, hu'⟩
    · rw [hp]
    · refine iff_of_false (fun heq => ?_) fun heq => ?_
      · obtain rfl := Option.some.inj (hp'.symm.trans heq)
        exact he (hu'.parent_eq hv).1
      · obtain rfl := Option.some.inj (hp.symm.trans heq)
        exact he (hu.parent_eq hv).1
  have hfree : ∀ p, use' p = some .free ↔ use p = some .free := by
    intro p
    rcases huse p with hp | ⟨u, u', hp, hp', hu, hu'⟩
    · rw [hp]
    · rw [hp, hp', Option.some_inj, Option.some_inj]
      exact iff_of_false hu'.ne_free hu.ne_free
  -- The other entries are what they were.
  have hentry : ∀ t' i', (t', i') ≠ (t, i) → (s.setPte t i w).page t' i' = s.page t' i' := by
    intro t' i' hne
    by_cases htt : t' = t
    · subst htt
      exact setEntry_of_index fun hi => hne (by rw [hi])
    · exact congrFun (setEntry_of_ne htt) i'
  have hself : (s.setPte t i w).page t i = w := setEntry_same
  have hself_level : ∀ {k}, levelOf use' t = some k → l = k := fun hk =>
    Option.some.inj (ht.symm.trans ((hlevel t).symm.trans hk))
  refine ⟨fun p => ?_, ?_, fun t' l' ht' => ?_, fun t' i' ht' hi => ?_,
    fun t' l' i' c ht' hc => ?_, fun t' i' ht' hv => ?_, fun p v t' i' hp hv => ?_⟩
  · rcases huse p with hp | ⟨u, u', hp, hp', -⟩
    · rw [hp, h.pages]
    · rw [← h.pages, hp, hp']
      exact iff_of_true rfl rfl
  · obtain ⟨free, hl, hmem⟩ := h.free
    refine ⟨free, hl.congr rfl fun p hp => setEntry_of_ne ?_,
      fun p => (hmem p).trans (hfree p).symm⟩
    rintro rfl
    rw [levelOf, (hmem _).1 hp] at ht
    exact nomatch ht
  · exact h.level t' l' ((hlevel t').symm.trans ht')
  · by_cases he : (t', i') = (t, i)
    · obtain ⟨rfl, rfl⟩ := Prod.mk.inj he
      rw [hself]
      exact hhigh (hself_level ht') hi
    · rw [hentry _ _ he]
      exact h.high t' i' ((hlevel t').symm.trans ht') hi
  · by_cases he : (t', i') = (t, i)
    · obtain ⟨rfl, rfl⟩ := Prod.mk.inj he
      rw [hself] at hc ⊢
      exact hdown l' c (hself_level ht') hc
    · rw [hentry _ _ he] at hc ⊢
      obtain ⟨hc, hflags⟩ := h.down t' l' i' c ((hlevel t').symm.trans ht') hc
      exact ⟨(hother c _ (t', i') rfl he).2 hc, hflags⟩
  · by_cases he : (t', i') = (t, i)
    · obtain ⟨rfl, rfl⟩ := Prod.mk.inj he
      rw [hself] at hv ⊢
      exact hleaf (hself_level ht') hv
    · rw [hentry _ _ he] at hv ⊢
      obtain ⟨hrwx, hbit⟩ := h.leaf t' i' ((hlevel t').symm.trans ht') hv
      exact ⟨hrwx, fun hmask => (hother _ _ (t', i') rfl he).2 (hbit hmask)⟩
  · by_cases he : (t', i') = (t, i)
    · obtain ⟨rfl, rfl⟩ := Prod.mk.inj he
      refine ⟨?_, by rw [hself, hup p v hp hv]⟩
      rw [hlevel]
      rcases huse p with hsame | ⟨u, u', -, hp', -, hu'⟩
      · exact (h.up p v _ _ (hsame.symm.trans hp) hv).1
      · obtain rfl := Option.some.inj (hp'.symm.trans hp)
        rw [ht, (hu'.parent_eq hv).2]
    · obtain ⟨hlt, hchild⟩ := h.up p v t' i' ((hother p v _ hv he).1 hp) hv
      exact ⟨(hlevel t').trans hlt, by rw [hentry _ _ he, hchild]⟩

/-- The pages after the use of one has changed. -/
theorem use_update_cases (hq : use q = some u) (hu : u.Under t i l) (hu' : u'.Under t i l)
    (p : Addr) : Function.update use q (some u') p = use p ∨
      ∃ v v', use p = some v ∧ Function.update use q (some u') p = some v' ∧ v.Under t i l ∧
        v'.Under t i l := by
  by_cases hpq : p = q
  · subst hpq
    exact .inr ⟨u, u', hq, Function.update_self .., hu, hu'⟩
  · exact .inl (Function.update_of_ne hpq ..)

/-- An invalid entry points to no page. -/
theorem Inv.parent_ne (h : Inv K use s) (hinvalid : s.page t i &&& PTE_V = 0)
    (hp : use p = some u) : u.parent ≠ some (t, i) := fun hu =>
  (child_eq_some.1 (h.up p u t i hp hu).2).1 hinvalid

/-- A page of the kernel is put under an invalid entry. -/
theorem Inv.map (h : Inv K use s) (ht : levelOf use t = some 0)
    (hinvalid : s.page t i &&& PTE_V = 0) (hp : use p = some .kernel) (hw : child w = some p)
    (hrwx : w &&& (PTE_R ||| PTE_W ||| PTE_X) ≠ 0) :
    Inv K (Function.update use p (some (.user t i))) (s.setPte t i w) := by
  refine h.setEntry ht (use_update_cases hp trivial ⟨rfl, rfl⟩) nofun (fun q u hq hu => ?_)
    nofun fun _ _ => ⟨hrwx, fun _ => ?_⟩
  · by_cases hqp : q = p
    · rw [hqp, hw]
    · rw [Function.update_of_ne hqp] at hq
      exact absurd hu (h.parent_ne hinvalid hq)
  · rw [(child_eq_some.1 hw).2, Function.update_self]

/-- The page of an entry goes back to the kernel. -/
theorem Inv.unmap (h : Inv K use s) (hp : use p = some (.user t i)) :
    Inv K (Function.update use p (some .kernel)) (s.setPte t i 0) := by
  obtain ⟨ht, hchild⟩ := h.up p _ t i hp rfl
  refine h.setEntry ht (use_update_cases hp ⟨rfl, rfl⟩ trivial) nofun (fun q u hq hu => ?_)
    nofun fun _ hv => absurd rfl hv
  by_cases hqp : q = p
  · rw [hqp, Function.update_self] at hq
    obtain rfl := Option.some.inj hq
    exact nomatch hu
  · rw [Function.update_of_ne hqp] at hq
    exact absurd (Option.some.inj ((h.up q u t i hq hu).2.symm.trans hchild)) hqp

/-- An entry without a page for users. -/
theorem Inv.setForeign (h : Inv K use s) (ht : levelOf use t = some 0)
    (hnone : ∀ p, use p ≠ some (.user t i))
    (hw : w &&& PTE_V ≠ 0 → w &&& (PTE_R ||| PTE_W ||| PTE_X) ≠ 0 ∧ w &&& PTE_U = 0) :
    Inv K use (s.setPte t i w) := by
  refine h.setEntry ht (fun p => .inl rfl) nofun (fun p u hp hu => ?_) nofun
    fun _ hv => ⟨(hw hv).1, fun hbit => absurd (hw hv).2 hbit⟩
  have hheight := (h.up p u t i hp hu).1
  cases u with
  | table l' o => exact nomatch ht.symm.trans hheight
  | user t' i' =>
    obtain ⟨rfl, rfl⟩ := Prod.mk.inj (Option.some.inj hu)
    exact absurd hp (hnone p)
  | _ => exact nomatch hu

/-- A table is put under an invalid entry. -/
theorem Inv.attach (h : Inv K use s) (ht : levelOf use t = some (l + 1))
    (hinvalid : s.page t i &&& PTE_V = 0) (hq : use q = some (.table l none))
    (hw : child w = some q) (hflags : PTE_FLAGS w = PTE_V) (hhigh : l = 1 → i.val < 256) :
    Inv K (Function.update use q (some (.table l (some (t, i))))) (s.setPte t i w) := by
  refine h.setEntry ht (use_update_cases hq ⟨rfl, .inl rfl⟩ ⟨rfl, .inr rfl⟩)
    (fun hl hi => absurd (hhigh (Nat.succ.inj hl)) (Nat.not_lt.2 hi)) (fun p u hp hu => ?_)
    (fun l' q' hl hq' => ?_) nofun
  · by_cases hpq : p = q
    · rw [hpq, hw]
    · rw [Function.update_of_ne hpq] at hp
      exact absurd hu (h.parent_ne hinvalid hp)
  · obtain rfl := Option.some.inj (hw.symm.trans hq')
    obtain rfl := Nat.succ.inj hl
    exact ⟨Function.update_self .., hflags⟩

/-- A table is taken from its entry. -/
theorem Inv.detach (h : Inv K use s) (hq : use q = some (.table l (some (t, i)))) :
    Inv K (Function.update use q (some (.table l none))) (s.setPte t i 0) := by
  obtain ⟨ht, hchild⟩ := h.up q _ t i hq rfl
  refine h.setEntry ht (use_update_cases hq ⟨rfl, .inr rfl⟩ ⟨rfl, .inl rfl⟩)
    (fun _ _ => rfl) (fun p u hp hu => ?_) (fun l' q' hl hq' => nomatch hq') nofun
  by_cases hpq : p = q
  · rw [hpq, Function.update_self] at hp
    obtain rfl := Option.some.inj hp
    exact nomatch hu
  · rw [Function.update_of_ne hpq] at hp
    exact absurd (Option.some.inj ((h.up p u t i hp hu).2.symm.trans hchild)) hpq

end

end OsLabs.Xv6Memory
