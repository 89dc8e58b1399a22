import OsLabs.Xv6Uvmalloc
import OsLabs.Xv6Uvmcopy
import OsLabs.Xv6Uvmfree

/-!
# The Memory of One Process of xv6

What `xv6/kernel/proc_our.c` does with memory: `allocproc`, `freeproc`, `fork`, `growproc` and
`userinit`, for one process.

## Main results

* `Owns.freeproc`: all memory of a process is freed.
* `Inv.allocproc`, `Inv.userinit`, `Owns.fork`: the memory of a new process.
* `Owns.growproc`: the memory above the smaller size changes.
* `Inv.userPage`, `Inv.kernelPage`: the contents of a page change.
-/

namespace OsLabs.Xv6Memory

/-- The fields of `struct proc` for memory; `used` is whether the state is not `UNUSED`. -/
structure Proc where
  used : Bool
  trapframe : Addr
  pagetable : Addr
  sz : Addr

/-- What `freeproc` leaves. -/
def Proc.unused : Proc := ⟨false, 0, 0, 0⟩

namespace Mem

variable (K : Kernel) (s : Mem)

/-- `freeproc`. -/
def freeproc (p : Proc) : Option (Mem × Proc) :=
  (if p.trapframe ≠ 0 then s.kfree K p.trapframe else some s).bind fun s =>
    (if p.pagetable ≠ 0 then s.proc_freepagetable K p.pagetable p.sz else some s).map fun s =>
      (s, .unused)

/-- `allocproc`, for the slot that it finds: whether there was memory. -/
def allocproc (p : Proc) : Option (Mem × Proc × Bool) :=
  let (s, trapframe) := s.kalloc
  let p : Proc := { p with used := true, trapframe := trapframe }
  if trapframe = 0 then (s.freeproc K p).map fun (s, p) => (s, p, false)
  else
    match s.proc_pagetable K trapframe with
    | none => none
    | some (s, pagetable) =>
      let p : Proc := { p with pagetable := pagetable }
      if pagetable = 0 then (s.freeproc K p).map fun (s, p) => (s, p, false)
      else some (s, p, true)

/-- The copy of `struct trapframe`, of 36 words, in which `a0` is 0. -/
def copyTrapframe (np p : Addr) : Mem :=
  s.setPage np fun j =>
    if j.val = 14 then 0 else if j.val < 36 then s.page p j else s.page np j

/-- `fork`, with `np` for the new process: whether there was memory. -/
def fork (p np : Proc) : Option (Mem × Proc × Bool) :=
  match s.allocproc K np with
  | none => none
  | some (s, np, false) => some (s, np, false)
  | some (s, np, true) =>
    match s.uvmcopy K p.pagetable np.pagetable p.sz with
    | none => none
    | some (s, false) => (s.freeproc K np).map fun (s, np) => (s, np, false)
    | some (s, true) =>
      some (s.copyTrapframe np.trapframe p.trapframe, { np with sz := p.sz }, true)

/-- `uvmfirst`, where `code` is `initcode` and zeros; `none` also if there is no memory, when the
kernel writes through a null pointer or goes on without the page. -/
def uvmfirst (pagetable : Addr) (code : Page) : Option Mem :=
  let (s, mem) := s.kalloc
  if mem = 0 then none
  else
    match (s.setPage mem fun _ => 0).mappages pagetable 0 PGSIZE mem
      (PTE_W ||| PTE_R ||| PTE_X ||| PTE_U) with
    | some (s, true) => some (s.setPage mem code)
    | _ => none

/-- `userinit`, which sets `epc` and `sp` of the trapframe. -/
def userinit (p : Proc) (code : Page) : Option (Mem × Proc) :=
  match s.allocproc K p with
  | some (s, p, true) => (s.uvmfirst p.pagetable code).map fun s =>
    (s.setPage p.trapframe fun j =>
      if j.val = 3 then 0 else if j.val = 6 then PGSIZE else s.page p.trapframe j,
      { p with sz := PGSIZE })
  | _ => none

/-- `growproc`: whether there was memory. -/
def growproc (p : Proc) (n : BitVec 32) : Option (Mem × Proc × Bool) :=
  if 0 < n.toInt then
    match s.uvmalloc K p.pagetable p.sz (p.sz + n.signExtend 64) PTE_W with
    | none => none
    | some (s, sz) => if sz = 0 then some (s, p, false) else some (s, { p with sz := sz }, true)
  else if n.toInt < 0 then
    match s.uvmdealloc K p.pagetable p.sz (p.sz + n.signExtend 64) with
    | none => none
    | some (s, sz) => some (s, { p with sz := sz }, true)
  else some (s, p, true)

end Mem

section

variable {K : Kernel} {use use' : Addr → Option Use} {s s' : Mem} {p q : Proc} {a : Addr}

/-- **The memory of a process**: its page table is an address space of its size, and its trapframe
is a page that the kernel holds. -/
structure Owns (K : Kernel) (use : Addr → Option Use) (s : Mem) (p : Proc) : Prop where
  space : Space K use s p.pagetable p.trapframe (PGROUNDUP p.sz).toNat
  size : p.sz.toNat ≤ 2 ^ 27
  trapframe : use p.trapframe = some .kernel

/-- Neither the trapframe nor the page table of the process. -/
def Proc.Other (p : Proc) (a : Addr) : Prop := a ≠ p.trapframe ∧ a ≠ p.pagetable

/-- A page that is used is not at 0. -/
theorem Inv.ne_zero (h : Inv K use s) {u : Use} (ha : use a = some u) : a ≠ 0 :=
  ((h.pages a).1 (by rw [ha]; rfl)).ne_zero

/-- A page that is free is held by nobody. -/
theorem not_held_free (h : use a = some .free) : ∀ u, use a = some u → ¬u.Held := by
  rintro u hu
  cases h.symm.trans hu
  exact id

/-- `kfree` of a page that nothing but the kernel knows. -/
theorem Inv.kfreeKeeps (h : Inv K use s) (ha : use a = some .kernel) :
    ∃ s', s.kfree K a = some s' ∧ Inv K (Function.update use a (some .free)) s' ∧
      Keeps (fun _ _ => True) (· ≠ a) use s (Function.update use a (some .free)) s' := by
  obtain ⟨s', hrun, hinv, hpage⟩ := h.give ha
  exact ⟨s', hrun, hinv, Keeps.of_page h ha rfl
    (fun b hb => ⟨Function.update_of_ne hb .., hpage b hb⟩) fun hlevel =>
      absurd (by rw [levelOf, ha]) hlevel⟩

/-- The page table and the trapframe are different pages. -/
theorem Owns.ne (h : Owns K use s p) : p.pagetable ≠ p.trapframe := by
  intro heq
  have hroot := h.space.root
  rw [IsRoot, heq] at hroot
  cases hroot.symm.trans h.trapframe

/-- **`freeproc`** frees all memory of a process. -/
theorem Owns.freeproc (h : Owns K use s p) (hinv : Inv K use s) :
    ∃ use' s', s.freeproc K p = some (s', .unused) ∧ Inv K use' s' ∧
      Keeps (fun _ _ => True) p.Other use s use' s' ∧
      ∀ a, ¬p.Other a → ∀ u, use' a = some u → ¬u.Held := by
  have hroot := h.space.root
  have htf := (hinv.pages p.trapframe).1 (by rw [h.trapframe]; rfl)
  obtain ⟨s₁, hrun₁, hinv₁, hkeep₁⟩ := hinv.kfreeKeeps h.trapframe
  have hspace₁ := h.space.keep hkeep₁ h.ne fun _ => trivial
  obtain ⟨use', s', hrun, hinv', hfree, hkeep⟩ := hspace₁.proc_freepagetable hinv₁ htf.1
    (fun b => hspace₁.not_mapped_trapframe hinv₁ htf.1 (by
      rw [Function.update_self]
      rintro t i ⟨⟩)) h.size
  rw [Mem.freeproc, if_pos (hinv.ne_zero h.trapframe), hrun₁, Option.bind_some,
    if_pos (hinv.ne_zero hroot), hrun]
  refine ⟨use', s', rfl, hinv', (hkeep₁.mono (fun _ _ _ => trivial) fun _ hb => hb.1).trans
    (hkeep.mono (fun _ _ _ => trivial) fun _ hb => hb.2), fun b hb u hu hheld => ?_⟩
  by_cases hbr : b = p.pagetable
  · subst hbr
    exact not_held_free hfree u hu hheld
  · have hbt : b = p.trapframe := by
      by_contra hbt
      exact hb ⟨hbt, hbr⟩
    subst hbt
    have hold := (hkeep.held _ u hbr hheld).1 hu
    exact not_held_free (Function.update_self ..) u hold hheld

/-- **`allocproc`** makes a process without memory, or there is no memory for it. -/
theorem Inv.allocproc (h : Inv K use s) :
    ∃ use' s', Inv K use' s' ∧
      (s.allocproc K .unused = some (s', .unused, false) ∧ KeepsAll use s use' s' ∨
        ∃ p, s.allocproc K .unused = some (s', p, true) ∧ p.used = true ∧ p.sz = 0 ∧
          use p.trapframe = some .free ∧ use p.pagetable = some .free ∧
          Keeps (fun _ _ => True) p.Other use s use' s' ∧ Owns K use' s' p) := by
  rw [Mem.allocproc]
  dsimp only
  by_cases hr0 : s.kalloc.2 = 0
  · rw [if_pos hr0, Mem.freeproc, hr0, if_neg (not_not.2 rfl), Option.bind_some,
      (h.take_none hr0).1]
    exact ⟨use, s, h, .inl ⟨rfl, .refl⟩⟩
  obtain ⟨hfree, hinv, hpage⟩ := h.take hr0
  have hkeep : Keeps (fun _ _ => True) (· ≠ s.kalloc.2) use s
      (Function.update use s.kalloc.2 (some .kernel)) s.kalloc.1 :=
    Keeps.of_page h hfree rfl (fun b hb => ⟨Function.update_of_ne hb .., hpage b hb⟩)
      fun hlevel => absurd (by rw [levelOf, hfree]) hlevel
  rw [if_neg hr0]
  generalize s.kalloc.1 = s₀ at hinv hkeep ⊢
  generalize s.kalloc.2 = tf at hr0 hfree hinv hkeep ⊢
  obtain ⟨use₁, s₁, hinv₁, ⟨hrun, hkeep₁⟩ | ⟨r, hrun, hr, hfree₁, hkeep₁, hspace⟩⟩ :=
    hinv.proc_pagetable (Function.update_self .. :
      Function.update use tf (some Use.kernel) tf = some .kernel)
  · have htf₁ : use₁ tf = some .kernel :=
      (hkeep₁.held tf .kernel trivial trivial).2 (Function.update_self ..)
    obtain ⟨s', hrun', hinv', hkeep'⟩ := hinv₁.kfreeKeeps htf₁
    rw [hrun]
    dsimp only
    rw [if_pos rfl, Mem.freeproc, if_pos hr0, hrun', Option.bind_some, if_neg (not_not.2 rfl)]
    refine ⟨_, s', hinv', .inl ⟨rfl, ((hkeep.trans (hkeep₁.mono (fun _ _ h => h)
      fun _ _ => trivial)).trans hkeep').of_ne (not_held_free hfree)
        (not_held_free (Function.update_self ..))⟩⟩
  · rw [hrun]
    dsimp only
    rw [if_neg hr]
    have hrt : r ≠ tf := by
      rintro rfl
      rw [Function.update_self] at hfree₁
      cases hfree₁
    rw [Function.update_of_ne hrt] at hfree₁
    have htf₁ : use₁ tf = some .kernel :=
      (hkeep₁.held tf .kernel hrt.symm trivial).2 (Function.update_self ..)
    have hzero : (PGROUNDUP 0).toNat = 0 := by decide
    refine ⟨use₁, s₁, hinv₁, .inr ⟨⟨true, tf, r, 0⟩, rfl, rfl, rfl, hfree, hfree₁,
      (hkeep.mono (fun _ _ h => h) fun _ hb => hb.1).trans
        (hkeep₁.mono (fun _ _ h => h) fun _ hb => hb.2), ⟨?_, Nat.zero_le _, htf₁⟩⟩⟩
    show Space K use₁ s₁ r tf (PGROUNDUP 0).toNat
    rwa [hzero]

/-- A call that keeps the page table and the trapframe of another process keeps its memory. -/
theorem Owns.keep {P : Addr → Addr → Prop} {X : Addr → Prop} (h : Owns K use s p)
    (hkeep : Keeps P X use s use' s') (hroot : X p.pagetable) (htf : X p.trapframe)
    (hP : ∀ va, P p.pagetable va) : Owns K use' s' p where
  space := h.space.keep hkeep hroot hP
  size := h.size
  trapframe := (hkeep.held _ .kernel htf trivial).2 h.trapframe

/-- A process shares no page of its own with one that is made of free pages. -/
theorem Owns.other (h : Owns K use s p) (htf : use q.trapframe = some .free)
    (hroot : use q.pagetable = some .free) : q.Other p.trapframe ∧ q.Other p.pagetable := by
  have hnot : ∀ a b, use b = some .free → (∃ u, use a = some u ∧ u.Held) → a ≠ b := by
    rintro a b hb ⟨u, hu, hheld⟩ rfl
    exact not_held_free hb u hu hheld
  have hframe : ∃ u, use p.trapframe = some u ∧ u.Held := ⟨_, h.trapframe, trivial⟩
  have htable : ∃ u, use p.pagetable = some u ∧ u.Held := ⟨_, h.space.root, trivial⟩
  constructor
  · exact ⟨hnot _ _ htf hframe, hnot _ _ hroot hframe⟩
  · exact ⟨hnot _ _ htf htable, hnot _ _ hroot htable⟩

/-- The contents of a page of the kernel change. -/
theorem Inv.kernelPage (h : Inv K use s) (ha : use a = some .kernel) (data : Page) :
    Inv K use (s.setPage a data) ∧
      Keeps (fun _ _ => True) (· ≠ a) use s use (s.setPage a data) := by
  refine ⟨h.data rfl fun b hb => page_setPage_of_ne data ?_, Keeps.of_page h ha rfl
    (fun b hb => ⟨rfl, page_setPage_of_ne data hb⟩) fun hlevel =>
      absurd (by rw [levelOf, ha]) hlevel⟩
  rintro rfl
  rw [levelOf, ha] at hb
  rcases hb with hb | hb
  · cases hb
  · cases hb

/-- The contents of a page of a user change. -/
theorem Inv.userPage {r va : Addr} (h : Inv K use s) (hr : IsRoot use r) (hva : IsVa va)
    (hm : Mapped use s r va a) (data : Page) :
    Inv K use (s.setPage a data) ∧
      Keeps (fun r' va' => (r', va') ≠ (r, va)) (fun _ => True) use s use (s.setPage a data) ∧
      ∀ p, Owns K use s p → Owns K use (s.setPage a data) p := by
  obtain ⟨t, -, ha⟩ := id hm
  have hpage : ∀ t l, levelOf use t = some l → (s.setPage a data).page t = s.page t := by
    intro t l ht
    refine page_setPage_of_ne data ?_
    rintro rfl
    rw [levelOf, ha] at ht
    cases ht
  have hdescend : ∀ r is, IsRoot use r → is.length ≤ 2 →
      descend child (s.setPage a data).page r is = descend child s.page r is := fun r is hr hlen =>
    h.forest.descend_congr (fun t k i ht => by rw [hpage t _ ht]) (hr.level hlen)
  have hentry : ∀ r va, IsRoot use r →
      Xv6Memory.entry (s.setPage a data) r va = Xv6Memory.entry s r va := fun r va hr =>
    h.forest.lookup_congr hpage (by rw [length_path]; exact levelOf_table hr)
  have hmapped : ∀ r va q, IsRoot use r → Mapped use s r va q →
      Mapped use (s.setPage a data) r va q := by
    rintro r va q hr ⟨t, hd, hq⟩
    exact ⟨t, (hdescend r _ hr (by rw [length_path])).trans hd, hq⟩
  refine ⟨h.data rfl fun b hb => ?_, ⟨fun _ _ _ _ => Iff.rfl,
    fun b _ hb => page_setPage_of_ne data ?_,
    fun r is t _ hr hlen hd => by rw [hdescend r is hr hlen, hd],
    fun r va _ hr _ _ => hentry r va hr,
    fun r' va' b _ hr' hva' hne hm' => ⟨rfl, page_setPage_of_ne data ?_⟩⟩, fun p hp => ?_⟩
  · rcases hb with hb | hb
    · refine page_setPage_of_ne data ?_
      rintro rfl
      cases hb.symm.trans ha
    · obtain ⟨l, hl⟩ := Option.isSome_iff_exists.1 hb
      exact hpage b l hl
  · rintro rfl
    cases hb.symm.trans ha
  · rintro rfl
    obtain ⟨rfl, rfl⟩ := hm'.inj h hr' hr hva' hva hm
    exact hne rfl
  · have hroot := hp.space.root
    refine ⟨⟨hroot, hp.space.aligned, hp.space.bound, fun va hva hlt => ?_,
      fun va hva hle hne hne' => ?_, ?_, ?_⟩, hp.size, hp.trapframe⟩
    · obtain ⟨q, hq⟩ := hp.space.mapped va hva hlt
      exact ⟨q, hmapped _ va q hroot hq⟩
    · rw [hentry _ va hroot]
      exact hp.space.rest va hva hle hne hne'
    · rw [hentry _ _ hroot, hp.space.trampoline]
    · rw [hentry _ _ hroot, hp.space.trapframe]

/-- **`userinit`** makes the first process, if there is memory. -/
theorem Inv.userinit {code : Page} (h : Inv K use s)
    (hrun : s.userinit K .unused code = some (s', q)) :
    ∃ use', Inv K use' s' ∧ q.used = true ∧ use q.trapframe = some .free ∧
      use q.pagetable = some .free ∧ Keeps (fun _ _ => True) q.Other use s use' s' ∧
      Owns K use' s' q := by
  rw [Mem.userinit] at hrun
  obtain ⟨use₁, s₁, hinv₁, ⟨halloc, -⟩ | ⟨p, halloc, hused, hsz, htf, hroot, hkeep₁, hp⟩⟩ :=
    h.allocproc
  · rw [halloc] at hrun
    cases hrun
  rw [halloc] at hrun
  obtain ⟨s₃, hfirst, heq⟩ := Option.map_eq_some_iff.1 hrun
  obtain ⟨rfl, rfl⟩ := Prod.mk.inj heq
  rw [Mem.uvmfirst] at hfirst
  dsimp only at hfirst
  have hspace : Space K use₁ s₁ p.pagetable p.trapframe (0 : Addr).toNat := by
    have hspace := hp.space
    rwa [hsz] at hspace
  have hva : IsVa 0 := ⟨rfl, by decide⟩
  by_cases hr0 : s₁.kalloc.2 = 0
  · rw [if_pos hr0] at hfirst
    cases hfirst
  rw [if_neg hr0] at hfirst
  obtain ⟨use₂, s₂, hmap, hinv₂, hkeep₂, hmapped, -, -⟩ | ⟨use₂, s₂, -, hmap, -⟩ :=
    hinv₁.mapNew hspace.root hva (hspace.rest 0 hva (Nat.le_refl _) (by decide) (by decide)) hr0
      (fun _ => 0) (by decide : IsPerm (PTE_W ||| PTE_R ||| PTE_X ||| PTE_U))
  · rw [hmap] at hfirst
    obtain rfl := Option.some.inj hfirst
    have hspace₂ := hspace.grow hinv₂ hkeep₂ hmapped
    have htf₂ : use₂ p.trapframe = some .kernel :=
      (hkeep₂.held p.trapframe .kernel trivial trivial).2 hp.trapframe
    have hkeep : Keeps (fun _ _ => True) p.Other use s use₂ s₂ := by
      refine hkeep₁.trans (Keeps.others (hkeep₂.mono (fun r va hr heq => ?_) fun _ _ => trivial))
      exact hr.2 (Prod.mk.inj heq).1
    have hp₂ : Owns K use₂ s₂ { p with sz := PGSIZE } := by
      refine ⟨?_, (by decide : (PGSIZE : Addr).toNat ≤ 2 ^ 27), htf₂⟩
      have hsize : (PGROUNDUP PGSIZE).toNat = ((0 : Addr) + PGSIZE).toNat := by decide
      show Space K use₂ s₂ p.pagetable p.trapframe (PGROUNDUP PGSIZE).toNat
      rwa [hsize]
    obtain ⟨hinv₃, hkeep₃, howns⟩ := hinv₂.userPage hspace₂.root hva hmapped code
    obtain ⟨hinv', hkeep'⟩ := hinv₃.kernelPage htf₂ fun j =>
      if j.val = 3 then 0 else if j.val = 6 then PGSIZE
        else (s₂.setPage s₁.kalloc.2 code).page p.trapframe j
    refine ⟨use₂, hinv', hused, htf, hroot, (hkeep.trans (Keeps.others
      (hkeep₃.mono (fun r va hr heq => ?_) fun _ _ => trivial))).trans
        (hkeep'.mono (fun _ _ h => h) fun _ hb => hb.1), ?_⟩
    · exact hr.2 (Prod.mk.inj heq).1
    · have hp₃ := howns _ hp₂
      exact ⟨hp₃.space.keep hkeep' hp.ne fun _ => trivial, hp₃.size, htf₂⟩
  · rw [hmap] at hfirst
    cases hfirst

/-- **`fork`** copies the memory of the parent, or there is no memory for it. -/
theorem Owns.fork (h : Owns K use s p) (hinv : Inv K use s) :
    ∃ use' s', Inv K use' s' ∧
      (s.fork K p .unused = some (s', .unused, false) ∧ KeepsAll use s use' s' ∨
        ∃ q, s.fork K p .unused = some (s', q, true) ∧ q.used = true ∧ q.sz = p.sz ∧
          use q.trapframe = some .free ∧ use q.pagetable = some .free ∧
          Keeps (fun _ _ => True) q.Other use s use' s' ∧ Owns K use' s' q ∧
          ∀ va, IsVa va → va.toNat < (PGROUNDUP p.sz).toNat →
            CopyOf use' s' p.pagetable q.pagetable va) := by
  rw [Mem.fork]
  obtain ⟨use₁, s₁, hinv₁, ⟨hrun, hkeep₁⟩ |
    ⟨q, hrun, hused, hsz, htf, hroot, hkeep₁, hq⟩⟩ := hinv.allocproc
  · rw [hrun]
    exact ⟨use₁, s₁, hinv₁, .inl ⟨rfl, hkeep₁⟩⟩
  rw [hrun]
  dsimp only
  obtain ⟨hptf, hproot⟩ := h.other htf hroot
  have hp := h.keep hkeep₁ hproot hptf fun _ => trivial
  have hspace : Space K use₁ s₁ q.pagetable q.trapframe 0 := by
    have hspace := hq.space
    rwa [hsz] at hspace
  obtain ⟨use₂, s₂, hinv₂, hkeep₂, ⟨hrun₂, hspace₂, hcopy⟩ | ⟨hrun₂, hspace₂⟩⟩ :=
    hspace.uvmcopy hp.space hinv₁ hproot.2 h.size
  all_goals
    have htf₂ : use₂ q.trapframe = some .kernel :=
      (hkeep₂.held q.trapframe .kernel trivial trivial).2 hq.trapframe
    have hkeep : Keeps (fun _ _ => True) q.Other use s use₂ s₂ := by
      refine hkeep₁.trans (Keeps.others (hkeep₂.mono (fun r va hr hnew => ?_) fun _ _ => trivial))
      exact hr.2 hnew.1
    rw [hrun₂]
    dsimp only
  · obtain ⟨hinv', hkeep₃⟩ := hinv₂.kernelPage htf₂ fun j =>
      if j.val = 14 then 0 else if j.val < 36 then s₂.page p.trapframe j
        else s₂.page q.trapframe j
    refine ⟨use₂, _, hinv', .inr ⟨_, rfl, hused, rfl, htf, hroot, hkeep.trans
      (hkeep₃.mono (fun _ _ h => h) fun _ hb => hb.1), ⟨hspace₂.keep hkeep₃ hq.ne fun _ => trivial,
        h.size, htf₂⟩, fun va hva hlt => ?_⟩⟩
    exact (hcopy va hva hlt).keep hkeep₃ (hkeep₂.root trivial hp.space.root) hspace₂.root
      hproot.1 hq.ne hva trivial trivial
  · have hq₂ : Owns K use₂ s₂ q := by
      refine ⟨?_, hq.size, htf₂⟩
      rwa [hsz]
    obtain ⟨use', s', hrun', hinv', hkeep', hgone⟩ := hq₂.freeproc hinv₂
    rw [hrun']
    refine ⟨use', s', hinv', .inl ⟨rfl, (hkeep.trans hkeep').of_unheld (fun b hb => ?_) hgone⟩⟩
    by_cases hbt : b = q.trapframe
    · exact hbt ▸ not_held_free htf
    · have hbr : b = q.pagetable := by
        by_contra hbr
        exact hb ⟨hbt, hbr⟩
      exact hbr ▸ not_held_free hroot

/-- **`growproc`** changes the memory above the smaller size; new pages are zero. -/
theorem Owns.growproc (h : Owns K use s p) (hinv : Inv K use s) (n : BitVec 32) :
    ∃ use' s' q ok, s.growproc K p n = some (s', q, ok) ∧ Inv K use' s' ∧ Owns K use' s' q ∧
      q = { p with sz := q.sz } ∧ (q.sz = p.sz ∨ q.sz = p.sz + n.signExtend 64) ∧
      Keeps (fun r va => r = p.pagetable →
          va.toNat < (PGROUNDUP p.sz).toNat ∧ va.toNat < (PGROUNDUP q.sz).toNat)
        (fun _ => True) use s use' s' ∧
      ∀ va, IsVa va → (PGROUNDUP p.sz).toNat ≤ va.toNat → va.toNat < (PGROUNDUP q.sz).toNat →
        ∃ a, Mapped use' s' p.pagetable va a ∧ (s'.page a = fun _ => 0) ∧
          PTE_FLAGS (entry s' p.pagetable va) &&& PTE_U ≠ 0 := by
  have hn : (n.signExtend 64).toInt = n.toInt := BitVec.toInt_signExtend_of_le (by decide)
  have hmax := h.size
  rw [Mem.growproc]
  by_cases hpos : 0 < n.toInt
  · rw [if_pos hpos]
    have hsmall : 0 < (n.signExtend 64).toNat ∧ (n.signExtend 64).toNat < 2 ^ 31 := by
      have hcond := BitVec.toInt_eq_toNat_cond (n.signExtend 64)
      have hlt : n.toInt < 2 ^ 31 := n.toInt_lt
      rw [hn] at hcond
      split at hcond <;> omega
    have hsum : (p.sz + n.signExtend 64).toNat = p.sz.toNat + (n.signExtend 64).toNat := by
      rw [BitVec.toNat_add, Nat.mod_eq_of_lt (by omega)]
    have hle : p.sz ≤ p.sz + n.signExtend 64 := by
      rw [BitVec.le_def, hsum]
      exact Nat.le_add_right ..
    obtain ⟨use', s', hinv', hkeep, ⟨hrun, hmax, hspace, hnew⟩ | ⟨hrun, hspace⟩⟩ :=
      h.space.uvmalloc hinv h.size hle (by decide : IsPerm (PTE_R ||| PTE_U ||| PTE_W))
    · have hne : p.sz + n.signExtend 64 ≠ 0 := by
        intro heq
        rw [heq] at hsum
        have hzero : (0 : Addr).toNat = 0 := rfl
        omega
      rw [hrun]
      dsimp only
      rw [if_neg hne]
      refine ⟨use', s', _, true, rfl, hinv', ⟨hspace, hmax,
        (hkeep.held _ .kernel trivial trivial).2 h.trapframe⟩, rfl, .inr rfl,
        hkeep.mono (fun r va hlow hbad => ?_) fun _ _ => trivial, fun va hva hle hlt => ?_⟩
      · exact absurd (hlow hbad.1).1 (Nat.not_lt.2 hbad.2.1)
      · obtain ⟨a, ha, hzero, hentry⟩ := hnew va hva hle hlt
        have hpage : use' a = some (.user _ _) := ha.choose_spec.2
        have halign : a % PGSIZE = 0 := ((hinv'.pages a).1 (by rw [hpage]; rfl)).1
        refine ⟨a, ha, hzero, ?_⟩
        rw [hentry, (mappages_entry (by decide) halign).2.1]
        decide
    · rw [hrun]
      refine ⟨use', s', p, false, rfl, hinv', ⟨hspace, h.size,
        (hkeep.held _ .kernel trivial trivial).2 h.trapframe⟩, rfl, .inl rfl,
        hkeep.mono (fun r va hlow hbad => ?_) fun _ _ => trivial, fun va _ hle hlt => ?_⟩
      · exact absurd (hlow hbad.1).1 (Nat.not_lt.2 hbad.2.1)
      · exact absurd hlt (Nat.not_lt.2 hle)
  · rw [if_neg hpos]
    by_cases hneg : n.toInt < 0
    · rw [if_pos hneg]
      obtain ⟨use', s', sz, hrun, hsz, hinv', hkeep, hspace⟩ :=
        h.space.uvmdealloc (p.sz + n.signExtend 64) hinv h.size
      rw [hrun]
      have hle : sz.toNat ≤ p.sz.toNat := by
        rw [hsz]
        split
        · exact Nat.le_of_lt ‹_›
        · exact Nat.le_refl _
      refine ⟨use', s', _, true, rfl, hinv', ⟨hspace, hle.trans h.size,
        (hkeep.held _ .kernel trivial trivial).2 h.trapframe⟩, rfl, ?_,
        hkeep.mono (fun r va hlow hbad => ?_) fun _ _ => trivial, fun va _ hle' hlt => ?_⟩
      · rw [hsz]
        split
        · exact .inr rfl
        · exact .inl rfl
      · exact absurd (hlow hbad.1).2 (Nat.not_lt.2 hbad.2.1)
      · have hround : (PGROUNDUP sz).toNat = _ := toNat_roundUp (by omega)
        have hround' := toNat_roundUp hmax
        dsimp only at hlt
        omega
    · rw [if_neg hneg]
      exact ⟨use, s, p, true, rfl, hinv, h, rfl, .inl rfl, .refl, fun _ _ hle hlt =>
        absurd hlt (Nat.not_lt.2 hle)⟩

end

end OsLabs.Xv6Memory
