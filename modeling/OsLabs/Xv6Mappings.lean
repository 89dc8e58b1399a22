import OsLabs.Xv6PageUse

/-!
# Mappings of xv6

What `walk`, `mappages` and `uvmunmap` do to all page tables at once. `Mapped use s r va p` says
that the page table `r` maps the address `va` to the page `p`, for a user. `Keeps P X` says what
a call leaves as it was: the mappings of the addresses with `P`, and the pages of the kernel
with `X`.

## Main results

* `Mapped.inj`: a page is mapped by one page table, at one address.
* `Inv.walk`: `walk` with `alloc` changes no mapping.
* `Inv.mappages`, `Inv.mappagesForeign`: one page is mapped.
* `Inv.uvmunmap`, `Inv.uvmunmapForeign`: a range of pages is unmapped and freed, or one is not.
-/

namespace OsLabs.Xv6Memory

/-- The address of a page of user memory. -/
def IsVa (va : Addr) : Prop := va.toNat % 4096 = 0 ∧ va < MAXVA

/-- The root of a page table. -/
def IsRoot (use : Addr → Option Use) (r : Addr) : Prop := use r = some (.table 2 none)

/-- `va` is mapped to the page `p`, for a user. -/
def Mapped (use : Addr → Option Use) (s : Mem) (r va p : Addr) : Prop :=
  ∃ t, descend child s.page r (path va 2) = some t ∧ use p = some (.user t (PX 0 va))

/-- Known to the kernel, not by an entry of a table. -/
def Use.Held : Use → Prop
  | .kernel => True
  | .table _ none => True
  | _ => False

section

variable {K : Kernel} {use use' use₁ : Addr → Option Use} {s s' s₁ : Mem}
  {p q r r' t va va' : Addr} {i : Fin 512} {w perm : Pte} {l : ℕ} {u u' : Use}
  {is : List (Fin 512)}

/-- The root is a table of level 2, as a descent needs it. -/
theorem IsRoot.level (h : IsRoot use r) (hlen : is.length ≤ 2) :
    levelOf use r = some (2 - is.length + is.length) := by
  rw [Nat.sub_add_cancel hlen]
  exact levelOf_table h

/-- A descent along the path of an address ends at a table of level 0. -/
theorem IsRoot.path_level (h : IsRoot use r) (va : Addr) :
    levelOf use r = some (0 + (path va 2).length) := by
  rw [length_path]
  exact levelOf_table h

/-- The entry of an address, in the table that `walk` finds. -/
theorem entry_eq (hd : descend child s.page r (path va 2) = some t) :
    entry s r va = s.page t (PX 0 va) := by
  rw [entry, lookup, hd]
  rfl

/-- An address with a valid entry has all its tables. -/
theorem descend_of_valid (hv : entry s r va &&& PTE_V ≠ 0) :
    ∃ t, descend child s.page r (path va 2) = some t ∧ entry s r va = s.page t (PX 0 va) := by
  cases hd : descend child s.page r (path va 2) with
  | none =>
    rw [entry, lookup, hd, Option.map_none, Option.getD_none] at hv
    exact absurd (by decide) hv
  | some t => exact ⟨t, rfl, entry_eq hd⟩

/-- The entry of a mapped address points to its page. -/
theorem Mapped.child_entry (h : Inv K use s) (hm : Mapped use s r va p) :
    child (entry s r va) = some p := by
  obtain ⟨t, hd, hp⟩ := hm
  rw [entry_eq hd]
  exact (h.up p _ t _ hp rfl).2

/-- An address is mapped to one page. -/
theorem Mapped.unique (h : Inv K use s) (hm : Mapped use s r va p) (hm' : Mapped use s r va q) :
    p = q :=
  Option.some.inj ((hm.child_entry h).symm.trans (hm'.child_entry h))

/-- Two addresses with an entry in common are the same. -/
theorem Inv.va_inj (h : Inv K use s) (hr : IsRoot use r) (hr' : IsRoot use r') (hva : IsVa va)
    (hva' : IsVa va') (hd : descend child s.page r (path va 2) = some t)
    (hd' : descend child s.page r' (path va' 2) = some t) (hi : PX 0 va = PX 0 va') :
    r = r' ∧ va = va' := by
  obtain ⟨rfl, hpath⟩ := h.forest.descend_inj (hr.path_level va) (hr'.path_level va') hd hd'
    (by rw [length_path, length_path])
  exact ⟨rfl, va_eq_of_path hva.1 hva'.1 hva.2 hva'.2 hpath hi⟩

/-- **A page is mapped by one page table, at one address.** -/
theorem Mapped.inj (h : Inv K use s) (hr : IsRoot use r) (hr' : IsRoot use r') (hva : IsVa va)
    (hva' : IsVa va') (hm : Mapped use s r va p) (hm' : Mapped use s r' va' p) :
    r = r' ∧ va = va' := by
  obtain ⟨t, hd, hp⟩ := hm
  obtain ⟨t', hd', hp'⟩ := hm'
  obtain ⟨rfl, hi⟩ := Use.user.inj (Option.some.inj (hp.symm.trans hp'))
  exact h.va_inj hr hr' hva hva' hd hd' hi

/-- What a user can access is mapped for the user. -/
theorem Inv.mapped_of_user (h : Inv K use s) (hr : IsRoot use r)
    (hv : entry s r va &&& PTE_V ≠ 0) (hu : entry s r va &&& PTE_U ≠ 0) :
    Mapped use s r va (PTE2PA (entry s r va)) := by
  obtain ⟨t, hd, hentry⟩ := descend_of_valid hv
  have ht := h.forest.descend_level (hr.path_level va) hd
  rw [hentry] at hv hu ⊢
  exact ⟨t, hd, (h.leaf t _ ht hv).2 hu⟩

/-! ### What a call keeps -/

/-- **What a call keeps**: the page table `r` maps `va` as before if `P r va`; the pages with `X`
that the kernel holds are the same, with the same contents, and the tables of the page tables
among them remain. -/
structure Keeps (P : Addr → Addr → Prop) (X : Addr → Prop) (use : Addr → Option Use) (s : Mem)
    (use' : Addr → Option Use) (s' : Mem) : Prop where
  held : ∀ p u, X p → u.Held → (use' p = some u ↔ use p = some u)
  kernel : ∀ p, X p → use p = some .kernel → s'.page p = s.page p
  tables : ∀ r is t, X r → IsRoot use r → is.length ≤ 2 →
    descend child s.page r is = some t → descend child s'.page r is = some t
  entries : ∀ r va, X r → IsRoot use r → IsVa va → P r va → entry s' r va = entry s r va
  users : ∀ r va p, X r → IsRoot use r → IsVa va → P r va → Mapped use s r va p →
    use' p = use p ∧ s'.page p = s.page p

/-- All of them. -/
abbrev KeepsAll := Keeps (fun _ _ => True) fun _ => True

variable {P P' : Addr → Addr → Prop} {X X' : Addr → Prop}

/-- A call that does nothing keeps everything. -/
theorem Keeps.refl : Keeps P X use s use s where
  held _ _ _ _ := Iff.rfl
  kernel _ _ _ := rfl
  tables _ _ _ _ _ _ h := h
  entries _ _ _ _ _ _ := rfl
  users _ _ _ _ _ _ _ _ := ⟨rfl, rfl⟩

/-- What keeps more addresses and more pages keeps fewer of them. -/
theorem Keeps.mono (h : Keeps P X use s use' s') (hP : ∀ r va, P' r va → P r va)
    (hX : ∀ p, X' p → X p) : Keeps P' X' use s use' s' where
  held p u hp := h.held p u (hX p hp)
  kernel p hp := h.kernel p (hX p hp)
  tables r is t hr := h.tables r is t (hX r hr)
  entries r va hr hroot hva hP' := h.entries r va (hX r hr) hroot hva (hP r va hP')
  users r va p hr hroot hva hP' := h.users r va p (hX r hr) hroot hva (hP r va hP')

/-- A page table among the pages that are kept remains one. -/
theorem Keeps.root (h : Keeps P X use s use' s') (hX : X r) (hr : IsRoot use r) :
    IsRoot use' r :=
  (h.held r (.table 2 none) hX trivial).2 hr

/-- A mapping that is kept leads to the same page. -/
theorem Keeps.mapped (h : Keeps P X use s use' s') (hX : X r) (hr : IsRoot use r)
    (hva : IsVa va) (hP : P r va) (hm : Mapped use s r va p) : Mapped use' s' r va p := by
  have hp := (h.users r va p hX hr hva hP hm).1
  obtain ⟨t, hd, hu⟩ := hm
  exact ⟨t, h.tables r _ t hX hr (Nat.le_of_eq (length_path va 2)) hd, hp.trans hu⟩

/-- Two calls in a row keep what both keep. -/
theorem Keeps.trans (h : Keeps P X use s use₁ s₁) (h' : Keeps P X use₁ s₁ use' s') :
    Keeps P X use s use' s' where
  held p u hX hu := (h'.held p u hX hu).trans (h.held p u hX hu)
  kernel p hX hp := by
    rw [h'.kernel p hX ((h.held p .kernel hX trivial).2 hp), h.kernel p hX hp]
  tables r is t hX hr hlen hd :=
    h'.tables r is t hX (h.root hX hr) hlen (h.tables r is t hX hr hlen hd)
  entries r va hX hr hva hP := by
    rw [h'.entries r va hX (h.root hX hr) hva hP, h.entries r va hX hr hva hP]
  users r va p hX hr hva hP hm := by
    obtain ⟨hp, hpage⟩ := h.users r va p hX hr hva hP hm
    obtain ⟨hp', hpage'⟩ :=
      h'.users r va p hX (h.root hX hr) hva hP (h.mapped hX hr hva hP hm)
    exact ⟨hp'.trans hp, hpage'.trans hpage⟩

/-- The page tables with `X` are kept as a whole. -/
theorem Keeps.others (h : Keeps (fun r _ => X r) X use s use' s') :
    Keeps (fun _ _ => True) X use s use' s' where
  held := h.held
  kernel := h.kernel
  tables := h.tables
  entries r va hX hr hva _ := h.entries r va hX hr hva hX
  users r va p hX hr hva _ := h.users r va p hX hr hva hX

/-- A page to which no entry points has changed, and not a table. -/
theorem Keeps.of_page (h : Inv K use s) (hq : use q = some u) (hu : u.parent = none)
    (hrest : ∀ p, p ≠ q → use' p = use p ∧ s'.page p = s.page p)
    (htable : levelOf use q ≠ none → s'.page q = s.page q) :
    Keeps (fun _ _ => True) (· ≠ q) use s use' s' := by
  have hpage : ∀ t l, levelOf use t = some l → s'.page t = s.page t := by
    intro t l ht
    by_cases htq : t = q
    · subst htq
      exact htable (by rw [ht]; nofun)
    · exact (hrest t htq).2
  have hdescend : ∀ r is, IsRoot use r → is.length ≤ 2 →
      descend child s'.page r is = descend child s.page r is := fun r is hr hlen =>
    h.forest.descend_congr (fun t k i ht => by rw [hpage t _ ht]) (hr.level hlen)
  refine ⟨fun p v hp _ => by rw [(hrest p hp).1], fun p hp _ => (hrest p hp).2,
    fun r is t _ hr hlen hd => by rw [hdescend r is hr hlen, hd], fun r va _ hr _ _ => ?_,
    fun r va p _ hr _ _ hm => ?_⟩
  · exact h.forest.lookup_congr hpage (by rw [length_path]; exact levelOf_table hr)
  · obtain ⟨t, -, hp⟩ := hm
    have hpq : p ≠ q := by
      rintro rfl
      obtain rfl := Option.some.inj (hq.symm.trans hp)
      exact nomatch hu
    exact hrest p hpq

/-- An entry of a lowest table has changed. -/
theorem Keeps.setPte (use' : Addr → Option Use) (w : Pte) (h : Inv K use s) (hr : IsRoot use r)
    (hva : IsVa va)
    (hd : descend child s.page r (path va 2) = some t)
    (huse : ∀ p t' i', use p = some (.user t' i') → (t', i') ≠ (t, PX 0 va) → use' p = use p) :
    Keeps (fun r' va' => (r', va') ≠ (r, va)) (fun p => use' p = use p) use s use'
      (s.setPte t (PX 0 va) w) := by
  have ht : levelOf use t = some 0 := h.forest.descend_level (hr.path_level va) hd
  have hinner : ∀ t' k, levelOf use t' = some (k + 1) → t' ≠ t := by
    rintro t' k ht' rfl
    cases ht.symm.trans ht'
  refine ⟨fun p u hp _ => by rw [hp], fun p _ hp => setEntry_of_ne ?_,
    fun r' is t' _ hr' hlen hd' => ?_, fun r' va' _ hr' hva' hne => ?_,
    fun r' va' p _ hr' hva' hne hm => ?_⟩
  · rintro rfl
    rw [levelOf, hp] at ht
    cases ht
  · rw [← hd']
    refine h.forest.descend_congr (fun t' k i ht' => ?_) (hr'.level hlen)
    exact congrArg child (congrFun (setEntry_of_ne (hinner t' k ht')) i)
  · refine (h.forest.lookup_set (by rw [length_path]; exact levelOf_table hr)
      (by rw [length_path]; exact levelOf_table hr') (by rw [length_path, length_path]) hd).trans
      (if_neg ?_)
    rintro ⟨rfl, hpath, hi⟩
    exact hne (by rw [va_eq_of_path hva'.1 hva.1 hva'.2 hva.2 hpath hi])
  · obtain ⟨t', hd', hp⟩ := hm
    refine ⟨huse p t' _ hp fun he => ?_, setEntry_of_ne ?_⟩
    · obtain ⟨rfl, hi⟩ := Prod.mk.inj he
      obtain ⟨rfl, rfl⟩ := h.va_inj hr' hr hva' hva hd' hd hi
      exact hne rfl
    · rintro rfl
      rw [levelOf, hp] at ht
      cases ht

/-- The entry of an address is what was written last into the table at the end of its path. -/
theorem entry_setPte (h : Inv K use s) (hr : IsRoot use r)
    (hd : descend child s.page r (path va 2) = some t) :
    entry (s.setPte t (PX 0 va) w) r va = w := by
  have hlevel : levelOf use r = some (path va 2).length := by
    rw [length_path]
    exact levelOf_table hr
  exact (h.forest.lookup_set hlevel hlevel rfl hd).trans (if_pos ⟨rfl, rfl, rfl⟩)

/-! ### `walk` -/

/-- Whatever happens to pages that the kernel does not hold, before and after. -/
theorem Keeps.of_unheld (h : Keeps P X use s use' s')
    (hold : ∀ q, ¬X q → ∀ u, use q = some u → ¬u.Held)
    (hnew : ∀ q, ¬X q → ∀ u, use' q = some u → ¬u.Held) :
    Keeps P (fun _ => True) use s use' s' := by
  have hX : ∀ p u, use p = some u → u.Held → X p := by
    intro p u hp hu
    by_contra hX
    exact hold p hX u hp hu
  have hroot : ∀ r, IsRoot use r → X r := fun r hr => hX r _ hr trivial
  refine ⟨fun p u _ hu => ?_, fun p _ hp => h.kernel p (hX p _ hp trivial) hp,
    fun r is t _ hr => h.tables r is t (hroot r hr) hr,
    fun r va _ hr => h.entries r va (hroot r hr) hr,
    fun r va p _ hr => h.users r va p (hroot r hr) hr⟩
  by_cases hXp : X p
  · exact h.held p u hXp hu
  · exact iff_of_false (fun hp => hnew p hXp u hp hu) fun hp => hold p hXp u hp hu

/-- A page that is free, or reached through another page, before and after the call needs no
exception. -/
theorem Keeps.of_ne (h : Keeps P (· ≠ q) use s use' s') (hq : ∀ u, use q = some u → ¬u.Held)
    (hq' : ∀ u, use' q = some u → ¬u.Held) : Keeps P (fun _ => True) use s use' s' := by
  refine h.of_unheld (fun p hp => ?_) fun p hp => ?_
  · obtain rfl := not_not.1 hp
    exact hq
  · obtain rfl := not_not.1 hp
    exact hq'

/-- **An entry points to the page that it is made of.** -/
theorem child_or {f : Pte} (hp : p % PGSIZE = 0) (hf : f &&& 0x3FF = f) (hv : f &&& PTE_V ≠ 0) :
    child (PA2PTE p ||| f) = some p := by
  refine child_eq_some.2 ⟨?_, PTE2PA_or hp hf⟩
  rwa [and_flags (by decide), flags_or hf]

/-- A page of the kernel becomes a table. -/
theorem Inv.graft (h : Inv K use s) (ht : levelOf use t = some (l + 1))
    (hinvalid : s.page t i &&& PTE_V = 0) (hq : use q = some .kernel)
    (hhigh : l = 1 → i.val < 256) :
    Inv K (Function.update use q (some (.table l (some (t, i)))))
        { s with page := graftTable s.page 0 t i (PA2PTE q ||| PTE_V) q } ∧
      Keeps (fun _ _ => True) (· ≠ q) use s
        (Function.update use q (some (.table l (some (t, i)))))
        { s with page := graftTable s.page 0 t i (PA2PTE q ||| PTE_V) q } := by
  have hpage : K.IsPage q := (h.pages q).1 (by rw [hq]; rfl)
  have hchild : child (PA2PTE q ||| PTE_V) = some q :=
    child_or hpage.1 (by decide) (by decide)
  have hlevel : levelOf use q = none := by rw [levelOf, hq]
  have htq : t ≠ q := by
    rintro rfl
    cases hlevel.symm.trans ht
  have hle : l ≤ 2 := Nat.le_of_succ_le (h.level t _ ht)
  constructor
  · have hnew := h.newTable hq hle
    have hattach := hnew.attach (t := t) (i := i) (w := PA2PTE q ||| PTE_V)
      ((levelOf_congr (Function.update_of_ne htq ..)).trans ht)
      (by rwa [page_setPage_of_ne _ htq]) (Function.update_self ..) hchild (flags_or (by decide))
      hhigh
    rwa [Function.update_idem] at hattach
  · have hzero : child 0 = none := child_zero
    refine ⟨fun p u hp _ => by rw [Function.update_of_ne hp], fun p hp hkernel => ?_,
      fun r is t' _ hr hlen hd => ?_, fun r va _ hr _ _ => ?_, fun r va p _ hr _ _ hm => ?_⟩
    · have hpt : p ≠ t := by
        rintro rfl
        rw [levelOf, hkernel] at ht
        cases ht
      exact funext fun j => graftTable_of_ne hp (.inl hpt)
    · exact h.forest.descend_graft hlevel (child_eq_none.2 hinvalid) (hr.level hlen) hd
    · exact h.forest.lookup_graft ht hlevel (child_eq_none.2 hinvalid) hchild hzero
        (by rw [length_path]; exact levelOf_table hr)
    · obtain ⟨t', -, hp⟩ := hm
      have hpq : p ≠ q := by
        rintro rfl
        cases hp.symm.trans hq
      have hpt : p ≠ t := by
        rintro rfl
        rw [levelOf, hp] at ht
        cases ht
      exact ⟨Function.update_of_ne hpq .., funext fun j => graftTable_of_ne hpq (.inl hpt)⟩

/-- The loop of `walk`, from the table to which the first indices lead. -/
theorem Inv.walkLoop (h : Inv K use s) (hr : IsRoot use r) (hva : va < MAXVA)
    {level : ℕ} {first : List (Fin 512)} (hlen : first.length + level = 2)
    (hpath : first ++ path va level = path va 2) (hd : descend child s.page r first = some t) :
    ∃ use' s' res, s.walkLoop va true level t = (s', res) ∧ Inv K use' s' ∧
      KeepsAll use s use' s' ∧ (res = none → ∀ p, use' p ≠ some .free) ∧
      ∀ t', res = some t' → descend child s'.page r (path va 2) = some t' := by
  induction level generalizing use s t first with
  | zero =>
    rw [path, List.append_nil] at hpath
    refine ⟨use, s, some t, rfl, h, .refl, by rintro ⟨⟩, fun t' ht' => ?_⟩
    rw [← hpath, hd, Option.some.inj ht']
  | succ level ih =>
    have ht : levelOf use t = some (level + 1) := by
      refine h.forest.descend_level ?_ hd
      have hsum : level + 1 + first.length = 2 := by omega
      rw [hsum]
      exact levelOf_table hr
    have hlen' : (first ++ [PX (level + 1) va]).length + level = 2 := by
      rw [List.length_append, List.length_singleton]
      omega
    have hpath' : (first ++ [PX (level + 1) va]) ++ path va level = path va 2 := by
      rw [← hpath, path, List.append_assoc, List.singleton_append]
    have hnext : ∀ {s : Mem} {c}, descend child s.page r first = some t →
        child (s.page t (PX (level + 1) va)) = some c →
        descend child s.page r (first ++ [PX (level + 1) va]) = some c := by
      intro s c hd hc
      rw [descend_append, hd, Option.bind_some]
      exact Option.bind_eq_some_iff.2 ⟨c, hc, rfl⟩
    rw [Mem.walkLoop]
    dsimp only
    by_cases hv : s.page t (PX (level + 1) va) &&& PTE_V ≠ 0
    · rw [if_pos hv]
      exact ih h hr hlen' hpath' (hnext hd (child_eq_some.2 ⟨hv, rfl⟩))
    · rw [if_neg hv, if_neg (by rintro ⟨⟩)]
      by_cases hr0 : s.kalloc.2 = 0
      · obtain ⟨hsame, hfull⟩ := h.take_none hr0
        rw [if_pos hr0, hsame]
        exact ⟨use, s, none, rfl, h, .refl, fun _ => hfull, by rintro _ ⟨⟩⟩
      · rw [if_neg hr0]
        -- A new table.
        obtain ⟨hfree, hinv, hpage⟩ := h.take hr0
        have hkeep := Keeps.of_page h hfree rfl
          (fun p hp => ⟨Function.update_of_ne hp (some Use.kernel) use, hpage p hp⟩)
          fun hlevel => absurd (by rw [levelOf, hfree]) hlevel
        have htr : t ≠ s.kalloc.2 := fun heq => by
          rw [levelOf, heq, hfree] at ht
          cases ht
        have hrr : r ≠ s.kalloc.2 := fun heq => by
          cases (heq ▸ hr : use s.kalloc.2 = _).symm.trans hfree
        have hlevel' := (levelOf_congr (Function.update_of_ne htr (some Use.kernel) use)).trans ht
        have hsmall : level = 1 → (PX (level + 1) va).val < 256 := by
          rintro rfl
          have hmax : MAXVA.toNat = 2 ^ 38 := by decide
          rw [BitVec.lt_def, hmax] at hva
          rw [toNat_PX]
          omega
        obtain ⟨hinv', hkeep'⟩ := hinv.graft (i := PX (level + 1) va) hlevel'
          (by rw [hpage t htr]; exact not_not.1 hv) (Function.update_self ..) hsmall
        have hall := (hkeep.trans hkeep').of_ne (fun u hu => by
          obtain rfl := Option.some.inj (hfree.symm.trans hu)
          exact id) (fun u hu => by
          rw [Function.update_self] at hu
          obtain rfl := Option.some.inj hu
          exact id)
        have hd' := hall.tables r first t trivial hr (by omega) hd
        have hchild : child (PA2PTE s.kalloc.2 ||| PTE_V) = some s.kalloc.2 :=
          child_or ((h.pages _).1 (by rw [hfree]; rfl)).1 (by decide) (by decide)
        obtain ⟨use', s', res, hrun, hinv'', hkeep'', hnone, hsome⟩ :=
          ih hinv' (hall.root trivial hr) hlen' hpath'
            (hnext hd' ((congrArg child graftTable_same).trans hchild))
        exact ⟨use', s', res, hrun, hinv'', hall.trans hkeep'', hnone, hsome⟩

/-- **`walk` with `alloc`** changes no mapping. It fails only if no page is free. -/
theorem Inv.walk (h : Inv K use s) (hr : IsRoot use r) (hva : va < MAXVA) :
    ∃ use' s' res, s.walk r va true = some (s', res) ∧ Inv K use' s' ∧ KeepsAll use s use' s' ∧
      (res = none → ∀ p, use' p ≠ some .free) ∧
      ∀ t i, res = some (t, i) → i = PX 0 va ∧ descend child s'.page r (path va 2) = some t := by
  obtain ⟨use', s', res, hrun, hinv, hkeep, hnone, hsome⟩ :=
    h.walkLoop hr hva (show ([] : List (Fin 512)).length + 2 = 2 from rfl) rfl rfl
  rw [Mem.walk, if_neg (BitVec.not_le.2 hva), hrun]
  refine ⟨use', s', _, rfl, hinv, hkeep, fun hmap => hnone (Option.map_eq_none_iff.1 hmap),
    fun t i hmap => ?_⟩
  obtain ⟨t', rfl, heq⟩ := Option.map_eq_some_iff.1 hmap
  obtain ⟨rfl, rfl⟩ := Prod.mk.inj heq
  exact ⟨rfl, hsome _ rfl⟩

/-! ### `mappages` -/

/-- `mappages` of one page looks up the entry, makes the tables that are missing, and writes
it. -/
theorem mappages_page (hva : va.toNat % 4096 = 0) : s.mappages r va PGSIZE p perm =
    match s.walk r va true with
    | none => none
    | some (s, none) => some (s, false)
    | some (s, some (t, i)) =>
      if s.page t i &&& PTE_V ≠ 0 then none
      else some (s.setPte t i (PA2PTE p ||| perm ||| PTE_V), true) := by
  have halign : va % PGSIZE = 0 := by
    rw [← BitVec.toNat_inj, BitVec.toNat_umod]
    exact hva
  have hlast : va + PGSIZE - PGSIZE = va := BitVec.add_sub_cancel va PGSIZE
  have hcond : ¬(va % PGSIZE ≠ 0 ∨ PGSIZE % PGSIZE ≠ 0 ∨ PGSIZE = 0) :=
    not_or.2 ⟨not_not.2 halign, by decide⟩
  have hfuel : (PGSIZE / PGSIZE).toNat = 1 := by decide
  rw [Mem.mappages, if_neg hcond, hlast, hfuel, Mem.mappagesLoop]
  cases s.walk r va true with
  | none => rfl
  | some x =>
    obtain ⟨s, _ | ⟨t, i⟩⟩ := x
    · rfl
    · dsimp only
      rw [if_pos rfl]

/-- Flags with which a page can be mapped. -/
def IsPerm (perm : Pte) : Prop :=
  perm &&& 0x3FF = perm ∧ perm &&& (PTE_R ||| PTE_W ||| PTE_X) ≠ 0

instance (perm : Pte) : Decidable (IsPerm perm) := inferInstanceAs (Decidable (_ ∧ _))

/-- The entry that `mappages` makes is valid, points to the page and has the flags. -/
theorem mappages_entry (hperm : IsPerm perm) (hp : p % PGSIZE = 0) :
    child (PA2PTE p ||| perm ||| PTE_V) = some p ∧
      PTE_FLAGS (PA2PTE p ||| perm ||| PTE_V) = perm ||| PTE_V ∧
      (PA2PTE p ||| perm ||| PTE_V) &&& (PTE_R ||| PTE_W ||| PTE_X) ≠ 0 := by
  have hf : (perm ||| PTE_V) &&& 0x3FF = perm ||| PTE_V := by
    rw [BitVec.and_or_distrib_right, hperm.1]
    rfl
  have hv : (perm ||| PTE_V) &&& PTE_V ≠ 0 := by
    refine and_ne_zero (k := 0) ?_ (by decide)
    rw [BitVec.getLsbD_or, Bool.or_eq_true]
    exact .inr (by decide)
  have hrwx : (perm ||| PTE_V) &&& (PTE_R ||| PTE_W ||| PTE_X) =
      perm &&& (PTE_R ||| PTE_W ||| PTE_X) := by
    rw [BitVec.and_or_distrib_right]
    exact BitVec.or_zero
  rw [BitVec.or_assoc]
  refine ⟨child_or hp hf hv, flags_or hf, ?_⟩
  rw [and_flags (by decide), flags_or hf, hrwx]
  exact hperm.2

/-- Either no page is free for a table, or the entry is written. -/
theorem Inv.mappages_cases (h : Inv K use s) (hr : IsRoot use r) (hva : IsVa va)
    (hinvalid : Xv6Memory.entry s r va &&& PTE_V = 0) (p : Addr) (perm : Pte) :
    ∃ use' s', Inv K use' s' ∧ KeepsAll use s use' s' ∧
      (s.mappages r va PGSIZE p perm = some (s', false) ∧ (∀ q, use' q ≠ some .free) ∨
        ∃ t, descend Xv6Memory.child s'.page r (path va 2) = some t ∧
          s'.page t (PX 0 va) &&& PTE_V = 0 ∧ s.mappages r va PGSIZE p perm =
            some (s'.setPte t (PX 0 va) (PA2PTE p ||| perm ||| PTE_V), true)) := by
  obtain ⟨use', s', res, hwalk, hinv, hkeep, hnone, hsome⟩ := h.walk hr hva.2
  refine ⟨use', s', hinv, hkeep, ?_⟩
  rw [mappages_page hva.1, hwalk]
  rcases res with _ | ⟨t, i⟩
  · exact .inl ⟨rfl, hnone rfl⟩
  · obtain ⟨rfl, hd⟩ := hsome t i rfl
    have hsame : s'.page t (PX 0 va) &&& PTE_V = 0 := by
      rw [← entry_eq hd, hkeep.entries r va trivial hr hva trivial, hinvalid]
    exact .inr ⟨t, hd, hsame, if_neg (not_not.2 hsame)⟩

/-- **A page is mapped for a user**, or no page is free for a table. -/
theorem Inv.mappages (h : Inv K use s) (hr : IsRoot use r) (hva : IsVa va)
    (hinvalid : Xv6Memory.entry s r va &&& PTE_V = 0) (hp : use p = some .kernel)
    (hperm : IsPerm perm) :
    ∃ use' s', Inv K use' s' ∧
      (s.mappages r va PGSIZE p perm = some (s', false) ∧ KeepsAll use s use' s' ∧
          (∀ q, use' q ≠ some .free) ∨
        s.mappages r va PGSIZE p perm = some (s', true) ∧
          Keeps (fun r' va' => (r', va') ≠ (r, va)) (· ≠ p) use s use' s' ∧
          Mapped use' s' r va p ∧ s'.page p = s.page p ∧
          Xv6Memory.entry s' r va = PA2PTE p ||| perm ||| PTE_V) := by
  obtain ⟨use₁, s₁, hinv, hkeep, ⟨hrun, hfull⟩ | ⟨t, hd, hsame, hrun⟩⟩ :=
    h.mappages_cases hr hva hinvalid p perm
  · exact ⟨use₁, s₁, hinv, .inl ⟨hrun, hkeep, hfull⟩⟩
  have hp₁ : use₁ p = some .kernel := (hkeep.held p .kernel trivial trivial).2 hp
  have hr₁ := hkeep.root trivial hr
  have ht := hinv.forest.descend_level (hr₁.path_level va) hd
  obtain ⟨hchild, -, hrwx⟩ := mappages_entry hperm ((h.pages p).1 (by rw [hp]; rfl)).1
  have hpt : p ≠ t := by
    rintro rfl
    rw [levelOf, hp₁] at ht
    cases ht
  have hrp : r ≠ p := by
    rintro rfl
    cases hr₁.symm.trans hp₁
  have hkeep' := Keeps.setPte (Function.update use₁ p (some (.user t (PX 0 va))))
    (PA2PTE p ||| perm ||| PTE_V) hinv hr₁ hva hd
    fun q t' i' hq _ => Function.update_of_ne (by
      rintro rfl
      cases hq.symm.trans hp₁) ..
  have hweak : Keeps (fun r' va' => (r', va') ≠ (r, va)) (· ≠ p) use s use₁ s₁ :=
    hkeep.mono (fun _ _ _ => trivial) fun _ _ => trivial
  have hkeep'' := hweak.trans
    (hkeep'.mono (fun _ _ h => h) fun q hq => Function.update_of_ne hq ..)
  refine ⟨_, _, hinv.map ht hsame hp₁ hchild hrwx, .inr ⟨hrun, hkeep'', ⟨t, ?_, ?_⟩, ?_, ?_⟩⟩
  · exact hkeep'.tables r _ t (Function.update_of_ne hrp ..) hr₁
      (Nat.le_of_eq (length_path va 2)) hd
  · exact Function.update_self ..
  · exact (setEntry_of_ne hpt).trans (hkeep.kernel p trivial hp)
  · exact entry_setPte hinv hr₁ hd

/-- **A page that is not for users is mapped**, or no page is free for a table. -/
theorem Inv.mappagesForeign (h : Inv K use s) (hr : IsRoot use r) (hva : IsVa va)
    (hinvalid : Xv6Memory.entry s r va &&& PTE_V = 0) (hp : p % PGSIZE = 0) (perm : Pte)
    (hperm : IsPerm perm) (huser : perm &&& PTE_U = 0) :
    ∃ use' s', Inv K use' s' ∧
      (s.mappages r va PGSIZE p perm = some (s', false) ∧ KeepsAll use s use' s' ∧
          (∀ q, use' q ≠ some .free) ∨
        s.mappages r va PGSIZE p perm = some (s', true) ∧
          Keeps (fun r' va' => (r', va') ≠ (r, va)) (fun _ => True) use s use' s' ∧
          Xv6Memory.entry s' r va = PA2PTE p ||| perm ||| PTE_V) := by
  obtain ⟨use₁, s₁, hinv, hkeep, ⟨hrun, hfull⟩ | ⟨t, hd, hsame, hrun⟩⟩ :=
    h.mappages_cases hr hva hinvalid p perm
  · exact ⟨use₁, s₁, hinv, .inl ⟨hrun, hkeep, hfull⟩⟩
  have hr₁ := hkeep.root trivial hr
  have ht := hinv.forest.descend_level (hr₁.path_level va) hd
  obtain ⟨-, hflags, hrwx⟩ := mappages_entry hperm hp
  have hbit : (PA2PTE p ||| perm ||| PTE_V) &&& PTE_U = 0 := by
    rw [and_flags (by decide), hflags, BitVec.and_or_distrib_right, huser]
    rfl
  have hkeep' := Keeps.setPte use₁ (PA2PTE p ||| perm ||| PTE_V) hinv hr₁ hva hd
    fun _ _ _ _ _ => rfl
  refine ⟨use₁, _, hinv.setForeign ht (fun q hq => hinv.parent_ne hsame hq rfl)
    fun _ => ⟨hrwx, hbit⟩, .inr ⟨hrun, ?_, entry_setPte hinv hr₁ hd⟩⟩
  exact (hkeep.mono (fun _ _ _ => trivial) fun _ _ => trivial).trans
    (hkeep'.mono (fun _ _ h => h) fun _ _ => rfl)

/-! ### `uvmunmap` -/

/-- `kfree` of a page and a change of an entry of another one commute. -/
theorem kfree_setPte (h : p ≠ t) :
    (s.setPte t i w).kfree K p = (s.kfree K p).map fun s => s.setPte t i w := by
  rw [Mem.kfree, Mem.kfree]
  split
  · rw [Option.map_some, Option.some_inj]
    simp only [Mem.setPte, Mem.setPage, setEntry, Mem.mk.injEq, and_true,
      Function.update_of_ne h.symm]
    exact Function.update_comm h.symm ..
  · rfl

/-- A valid entry of a lowest table is a leaf. -/
theorem Inv.flags_ne (h : Inv K use s) (ht : levelOf use t = some 0)
    (hv : s.page t i &&& PTE_V ≠ 0) : PTE_FLAGS (s.page t i) ≠ PTE_V := fun hflags => by
  refine (h.leaf t i ht hv).1 ?_
  rw [and_flags (by decide), hflags]
  decide

/-- A page is unmapped and freed, and all other mappings are kept. -/
theorem Inv.unmapFree (h : Inv K use s) (hr : IsRoot use r) (hva : IsVa va)
    (hp : use p = some (.user t (PX 0 va)))
    (hd : descend child s.page r (path va 2) = some t) :
    ∃ s₁, s.kfree K p = some s₁ ∧
      Inv K (Function.update use p (some .free)) (s₁.setPte t (PX 0 va) 0) ∧
      Keeps (fun r' va' => (r', va') ≠ (r, va)) (fun _ => True) use s
        (Function.update use p (some .free)) (s₁.setPte t (PX 0 va) 0) ∧
      entry (s₁.setPte t (PX 0 va) 0) r va = 0 := by
  have ht := h.forest.descend_level (hr.path_level va) hd
  have hpt : p ≠ t := by
    rintro rfl
    rw [levelOf, hp] at ht
    cases ht
  have hrp : r ≠ p := by
    rintro rfl
    cases hr.symm.trans hp
  have hunmap := h.unmap hp
  obtain ⟨s₂, hfree, hinv, hpage⟩ := hunmap.give (p := p) (Function.update_self ..)
  rw [kfree_setPte hpt] at hfree
  obtain ⟨s₁, hs₁, rfl⟩ := Option.map_eq_some_iff.1 hfree
  rw [Function.update_idem] at hinv
  have hkeep := Keeps.setPte (Function.update use p (some .kernel)) 0 h hr hva hd
    fun q t' i' hq hne => Function.update_of_ne (by
      rintro rfl
      obtain ⟨rfl, rfl⟩ := Use.user.inj (Option.some.inj (hq.symm.trans hp))
      exact hne rfl) ..
  have hkeep' : Keeps (fun _ _ => True) (· ≠ p) (Function.update use p (some .kernel))
      (s.setPte t (PX 0 va) 0) (Function.update use p (some .free)) (s₁.setPte t (PX 0 va) 0) :=
    Keeps.of_page hunmap (Function.update_self p (some Use.kernel) use) rfl
    (fun q hq => ⟨by rw [Function.update_of_ne hq, Function.update_of_ne hq], hpage q hq⟩)
    fun hlevel => absurd (by rw [levelOf, Function.update_self]) hlevel
  have hweak : Keeps (fun r' va' => (r', va') ≠ (r, va)) (· ≠ p) use s
      (Function.update use p (some .kernel)) (s.setPte t (PX 0 va) 0) :=
    hkeep.mono (fun _ _ h => h) fun q hq => Function.update_of_ne hq ..
  have hboth := (hweak.trans
    (hkeep'.mono (fun _ _ _ => trivial) fun _ h => h)).of_ne (fun u hu => by
      obtain rfl := Option.some.inj (hp.symm.trans hu)
      exact id) fun u hu => by
      rw [Function.update_self] at hu
      obtain rfl := Option.some.inj hu
      exact id
  refine ⟨s₁, hs₁, hinv, hboth, ?_⟩
  rw [hkeep'.entries r va hrp ((Function.update_of_ne hrp ..).trans hr) hva trivial]
  exact entry_setPte h hr hd

/-- The loop of `uvmunmap` from `a` on, over the mapped pages up to `stop`. -/
theorem Inv.uvmunmapLoop {n : ℕ} {a stop : Addr} (h : Inv K use s) (hr : IsRoot use r)
    (ha : a.toNat % 4096 = 0) (hstop : stop.toNat = a.toNat + n * 4096)
    (hmax : stop.toNat ≤ 2 ^ 38) (hmapped : ∀ va, IsVa va → a.toNat ≤ va.toNat →
      va.toNat < stop.toNat → ∃ p, Mapped use s r va p) :
    ∃ use' s', s.uvmunmapLoop K r stop true (n + 1) a = some s' ∧ Inv K use' s' ∧
      Keeps (fun r' va => ¬(r' = r ∧ a.toNat ≤ va.toNat ∧ va.toNat < stop.toNat))
        (fun _ => True) use s use' s' ∧
      ∀ va, IsVa va → a.toNat ≤ va.toNat → va.toNat < stop.toNat → entry s' r va = 0 := by
  have hmaxva : MAXVA.toNat = 2 ^ 38 := by decide
  induction n generalizing use s a with
  | zero =>
    have hge : ¬a < stop := by
      rw [BitVec.lt_def]
      omega
    rw [Mem.uvmunmapLoop, if_neg hge]
    exact ⟨use, s, rfl, h, .refl, fun va _ hle hlt => by omega⟩
  | succ n ih =>
    have hlt : a < stop := by
      rw [BitVec.lt_def]
      omega
    have hva : IsVa a := ⟨ha, by rw [BitVec.lt_def]; omega⟩
    have hnext : (a + PGSIZE).toNat = a.toNat + 4096 := by
      rw [PGSIZE]
      bv_omega
    obtain ⟨p, t, hd, hp⟩ := hmapped a hva (Nat.le_refl _) (by omega)
    obtain ⟨ht, hchild⟩ := h.up p _ t _ hp rfl
    obtain ⟨hv, hpa⟩ := child_eq_some.1 hchild
    obtain ⟨s₁, hfree, hinv, hkeep, hzero⟩ := h.unmapFree hr hva hp hd
    rw [Mem.uvmunmapLoop, if_pos hlt, walk_eq hva.2, hd]
    dsimp only [Option.map_some]
    rw [if_neg (not_or.2 ⟨hv, h.flags_ne ht hv⟩), if_pos rfl, hpa, hfree]
    obtain ⟨use', s', hrun, hinv', hkeep', hzero'⟩ :=
      ih hinv (hkeep.root trivial hr) (a := a + PGSIZE) (by omega) (by omega)
        fun va hva' hle hlt' => by
        obtain ⟨q, hq⟩ := hmapped va hva' (by omega) hlt'
        refine ⟨q, hkeep.mapped trivial hr hva' (fun heq => ?_) hq⟩
        obtain ⟨-, rfl⟩ := Prod.mk.inj heq
        omega
    refine ⟨use', s', hrun, hinv', (hkeep.mono (fun r' va hrange heq => ?_) fun _ h => h).trans
      (hkeep'.mono (fun r' va hrange hrest => ?_) fun _ h => h), fun va hva' hle hlt' => ?_⟩
    · obtain ⟨rfl, rfl⟩ := Prod.mk.inj heq
      exact hrange ⟨rfl, Nat.le_refl _, by omega⟩
    · exact hrange ⟨hrest.1, by omega, hrest.2.2⟩
    · by_cases heq : va = a
      · subst heq
        rw [hkeep'.entries r va trivial (hkeep.root trivial hr) hva' (by omega), hzero]
      · have hne : va.toNat ≠ a.toNat := fun h => heq (BitVec.eq_of_toNat_eq h)
        have halign := hva'.1
        exact hzero' va hva' (by omega) hlt'

/-- **A range of pages is unmapped and freed.** -/
theorem Inv.uvmunmap (h : Inv K use s) (hr : IsRoot use r) (va npages : Addr)
    (hva : va.toNat % 4096 = 0) (hmax : va.toNat + npages.toNat * 4096 ≤ 2 ^ 38)
    (hmapped : ∀ va', IsVa va' → va.toNat ≤ va'.toNat →
      va'.toNat < va.toNat + npages.toNat * 4096 → ∃ p, Mapped use s r va' p) :
    ∃ use' s', s.uvmunmap K r va npages true = some s' ∧ Inv K use' s' ∧
      Keeps (fun r' va' => ¬(r' = r ∧ va.toNat ≤ va'.toNat ∧
        va'.toNat < va.toNat + npages.toNat * 4096)) (fun _ => True) use s use' s' ∧
      ∀ va', IsVa va' → va.toNat ≤ va'.toNat → va'.toNat < va.toNat + npages.toNat * 4096 →
        entry s' r va' = 0 := by
  have halign : va % PGSIZE = 0 := by
    rw [← BitVec.toNat_inj, BitVec.toNat_umod]
    exact hva
  have hstop : (va + npages * PGSIZE).toNat = va.toNat + npages.toNat * 4096 := by
    have hsize : PGSIZE.toNat = 4096 := rfl
    rw [BitVec.toNat_add, BitVec.toNat_mul, hsize]
    omega
  rw [Mem.uvmunmap, if_neg (not_not.2 halign), ← hstop]
  rw [← hstop] at hmax hmapped
  exact h.uvmunmapLoop hr hva hstop hmax hmapped

/-- **A page that is not for users is unmapped.** -/
theorem Inv.uvmunmapForeign (h : Inv K use s) (hr : IsRoot use r) (hva : IsVa va)
    (hv : entry s r va &&& PTE_V ≠ 0) (hnone : ∀ p, ¬Mapped use s r va p) :
    ∃ s', s.uvmunmap K r va 1 false = some s' ∧ Inv K use s' ∧
      Keeps (fun r' va' => (r', va') ≠ (r, va)) (fun _ => True) use s use s' ∧
      entry s' r va = 0 := by
  obtain ⟨t, hd, hentry⟩ := descend_of_valid hv
  have ht := h.forest.descend_level (hr.path_level va) hd
  rw [hentry] at hv
  have halign : va % PGSIZE = 0 := by
    rw [← BitVec.toNat_inj, BitVec.toNat_umod]
    exact hva.1
  have hmaxva : MAXVA.toNat = 2 ^ 38 := by decide
  have hlt := hva.2
  rw [BitVec.lt_def, hmaxva] at hlt
  have hfirst : va < va + 1 * PGSIZE := by
    rw [PGSIZE]
    bv_omega
  have hlast : ¬va + PGSIZE < va + 1 * PGSIZE := by
    rw [PGSIZE]
    bv_omega
  have hfuel : (1 : Addr).toNat = 1 := rfl
  rw [Mem.uvmunmap, if_neg (not_not.2 halign), hfuel, Mem.uvmunmapLoop, if_pos hfirst,
    walk_eq hva.2, hd]
  dsimp only [Option.map_some]
  rw [if_neg (not_or.2 ⟨hv, h.flags_ne ht hv⟩), if_neg Bool.false_ne_true]
  dsimp only
  rw [Mem.uvmunmapLoop, if_neg hlast]
  refine ⟨_, rfl, h.setForeign ht (fun p hp => hnone p ⟨t, hd, hp⟩) fun hzero => ?_, ?_,
    entry_setPte h hr hd⟩
  · exact absurd (by decide) hzero
  · exact (Keeps.setPte use 0 h hr hva hd fun _ _ _ _ _ => rfl).mono (fun _ _ h => h) fun _ _ => rfl

end

end OsLabs.Xv6Memory
