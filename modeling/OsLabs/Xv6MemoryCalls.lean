import OsLabs.Transitions
import OsLabs.Xv6ProcMemory

/-!
# The Memory of the Processes of xv6 under their Calls

The memory of `n` processes from `kinit` on, under the calls of `OsLabs.Xv6ProcMemory` in any
order, the stores of the users, and what the rest of the kernel does with pages of its own. A
user reaches memory through `walkaddr` only: through entries with `PTE_V` and `PTE_U`.

`Consistent` is the invariant: each page that is held has one owner, and each process has its
address space.

## Main results

* `Consistent.run`: a legal call does not panic, keeps the invariant, and leaves what the other
  processes see as it was.
-/

namespace OsLabs.Xv6Memory

/-- The memory, the table of processes, and the pages that the rest of the kernel has got from
`kalloc`. -/
structure Sys (n : ℕ) where
  mem : Mem
  proc : Fin n → Proc
  held : Addr → Bool

/-- What happens to the memory: the calls of `OsLabs.Xv6ProcMemory`, the stores of the users, and
what the rest of the kernel does with pages of its own. -/
inductive Call (n : ℕ) where
  | userinit (p : Fin n) (code : Page)
  | fork (p np : Fin n)
  | growproc (p : Fin n) (d : BitVec 32)
  | freeproc (p : Fin n)
  /-- A store of the user, or of `copyout` for it, to the page at `va`. -/
  | store (p : Fin n) (va : Addr) (data : Page)
  | kalloc
  | kfree (a : Addr)
  /-- The rest of the kernel writes to a page. -/
  | write (a : Addr) (data : Page)

namespace Sys

variable {n : ℕ} (K : Kernel) (x : Sys n)

/-- The system after a call has left this memory and this slot. -/
def setProc (p : Fin n) (s : Mem) (q : Proc) : Sys n :=
  { x with mem := s, proc := Function.update x.proc p q }

/-- What a call does; `none` is a panic. -/
def run : Call n → Option (Sys n)
  | .userinit p code => (x.mem.userinit K (x.proc p) code).map fun (s, q) => x.setProc p s q
  | .fork p np => (x.mem.fork K (x.proc p) (x.proc np)).map fun (s, q, _) => x.setProc np s q
  | .growproc p d => (x.mem.growproc K (x.proc p) d).map fun (s, q, _) => x.setProc p s q
  | .freeproc p => (x.mem.freeproc K (x.proc p)).map fun (s, q) => x.setProc p s q
  | .store p va data =>
    let pa := x.mem.walkaddr (x.proc p).pagetable va
    -- Without a user page at `va` the store traps.
    some (if pa = 0 then x else { x with mem := x.mem.setPage pa data })
  | .kalloc =>
    let (s, a) := x.mem.kalloc
    some { x with mem := s, held := if a = 0 then x.held else Function.update x.held a true }
  | .kfree a => (x.mem.kfree K a).map fun s =>
    { x with mem := s, held := Function.update x.held a false }
  | .write a data => some { x with mem := x.mem.setPage a data }

/-- What the callers promise: the slots of `allocproc` are unused, the other processes are used,
and the rest of the kernel frees and writes its own pages. `userinit` runs with enough memory. -/
def Legal : Call n → Prop
  | .userinit p code =>
    (x.proc p).used = false ∧ (x.mem.userinit K (x.proc p) code).isSome
  | .fork p np => (x.proc p).used ∧ (x.proc np).used = false
  | .growproc p _ => (x.proc p).used
  | .freeproc p => (x.proc p).used
  | .store p va _ => (x.proc p).used ∧ va.toNat % 4096 = 0
  | .kalloc => True
  | .kfree a => x.held a
  | .write a _ => x.held a

/-- A legal call that returns. -/
def Step (K : Kernel) (x : Sys n) (c : Call n) (x' : Sys n) : Prop :=
  x.Legal K c ∧ x.run K c = some x'

/-- After `kinit`. -/
def boot (s : Mem) : Sys n := ⟨s, fun _ => .unused, fun _ => false⟩

end Sys

/-- The process whose memory a call changes. -/
def Call.target {n : ℕ} : Call n → Option (Fin n)
  | .userinit p _ => some p
  | .fork _ np => some np
  | .growproc p _ => some p
  | .freeproc p => some p
  | .store p _ _ => some p
  | _ => none

/-- The page is neither free nor reached through another page. -/
def HeldIn (use : Addr → Option Use) (a : Addr) : Prop := ∃ u, use a = some u ∧ u.Held

/-- The pages that a process holds itself. -/
def Proc.Has (p : Proc) (a : Addr) : Prop := p.used = true ∧ (a = p.trapframe ∨ a = p.pagetable)

/-- What a process holds, or the rest of the kernel. -/
def Sys.Has {n : ℕ} (x : Sys n) : Option (Fin n) → Addr → Prop
  | none, a => x.held a = true
  | some p, a => (x.proc p).Has a

/-- **Each page that is held has one owner**, and the processes have their address spaces. -/
structure Consistent {n : ℕ} (K : Kernel) (use : Addr → Option Use) (x : Sys n) : Prop where
  inv : Inv K use x.mem
  owns : ∀ p, (x.proc p).used = true → Owns K use x.mem (x.proc p)
  unused : ∀ p, (x.proc p).used = false → x.proc p = .unused
  kernel : ∀ a, x.held a = true → use a = some .kernel
  accounted : ∀ a, HeldIn use a ↔ ∃ o, x.Has o a
  exclusive : ∀ a o o', x.Has o a → x.Has o' a → o = o'

/-- What a process sees of its memory is unchanged. -/
structure Unchanged (s s' : Mem) (r : Addr) : Prop where
  walkaddr : ∀ va, IsVa va → s'.walkaddr r va = s.walkaddr r va
  page : ∀ va, IsVa va → s.walkaddr r va ≠ 0 →
    s'.page (s.walkaddr r va) = s.page (s.walkaddr r va)

section

variable {n : ℕ} {K : Kernel} {use use' : Addr → Option Use} {s s' : Mem} {x x' : Sys n}
  {p q : Fin n} {a r va : Addr} {o : Option (Fin n)} {P : Addr → Addr → Prop} {X : Addr → Prop}

/-- `walkaddr` depends on the entry of the address only. -/
theorem walkaddr_eq (hva : va < MAXVA) : s.walkaddr r va =
    if entry s r va &&& PTE_V = 0 then 0
    else if entry s r va &&& PTE_U = 0 then 0 else PTE2PA (entry s r va) := by
  rw [Mem.walkaddr, if_neg (BitVec.not_le.2 hva), walk_eq hva]
  cases hd : descend child s.page r (path va 2) with
  | none =>
    have hzero : entry s r va = 0 := by
      rw [entry, lookup, hd]
      rfl
    rw [hzero, if_pos (by decide)]
    rfl
  | some t =>
    rw [entry_eq hd]
    rfl

/-- What a user reaches is a page that its page table maps and owns. -/
theorem Inv.walkaddr_mapped (h : Inv K use s) (hr : IsRoot use r) (hva : va < MAXVA)
    (hne : s.walkaddr r va ≠ 0) : Mapped use s r va (s.walkaddr r va) := by
  rw [walkaddr_eq hva] at hne ⊢
  split at hne
  · exact absurd rfl hne
  split at hne
  · exact absurd rfl hne
  rename_i hv hu
  rw [if_neg hv, if_neg hu]
  exact h.mapped_of_user hr hv hu

/-- A change that keeps a page keeps whether it is held. -/
theorem Keeps.heldIn (h : Keeps P X use s use' s') (hX : X a) : HeldIn use' a ↔ HeldIn use a := by
  constructor
  · rintro ⟨u, hu, hheld⟩
    exact ⟨u, (h.held a u hX hheld).1 hu, hheld⟩
  · rintro ⟨u, hu, hheld⟩
    exact ⟨u, (h.held a u hX hheld).2 hu, hheld⟩

/-- A change that keeps a page table keeps what its process sees of its memory. -/
theorem Keeps.unchanged (h : Keeps P X use s use' s') (hinv : Inv K use s) (hr : IsRoot use r)
    (hX : X r) (hP : ∀ va, P r va) : Unchanged s s' r where
  walkaddr va hva := by
    rw [walkaddr_eq hva.2, walkaddr_eq hva.2, h.entries r va hX hr hva (hP va)]
  page va hva hne :=
    (h.users r va _ hX hr hva (hP va) (hinv.walkaddr_mapped hr hva.2 hne)).2

/-- The trapframe and the page table of a process are held. -/
theorem Owns.heldIn {p : Proc} (h : Owns K use s p) (ha : p.Has a) : HeldIn use a := by
  obtain ⟨-, rfl | rfl⟩ := ha
  · exact ⟨_, h.trapframe, trivial⟩
  · exact ⟨_, h.space.root, trivial⟩

/-- `walkaddr` finds a mapped page if it is one of the user. -/
theorem Mapped.walkaddr (hinv : Inv K use s) (hva : va < MAXVA) (hm : Mapped use s r va a) :
    s.walkaddr r va = if PTE_FLAGS (Xv6Memory.entry s r va) &&& PTE_U = 0 then 0 else a := by
  obtain ⟨hv, ha⟩ := child_eq_some.1 (hm.child_entry hinv)
  rw [walkaddr_eq hva, if_neg hv, ha, ← and_flags (by decide)]

/-- A user reaches a copy where the original is reached. -/
theorem CopyOf.walkaddr {old new : Addr} (h : CopyOf use s old new va) (hinv : Inv K use s)
    (hva : va < MAXVA) : (s.walkaddr new va = 0 ↔ s.walkaddr old va = 0) ∧
      (s.walkaddr old va ≠ 0 → s.page (s.walkaddr new va) = s.page (s.walkaddr old va)) := by
  obtain ⟨a, b, ha, hb, hpage, hflags⟩ := h
  have hnz : ∀ r c, Mapped use s r va c → c ≠ 0 := by
    rintro r c ⟨t, -, hc⟩
    exact hinv.ne_zero hc
  rw [hb.walkaddr hinv hva, ha.walkaddr hinv hva, hflags]
  by_cases hu : PTE_FLAGS (entry s old va) &&& PTE_U = 0
  · rw [if_pos hu, if_pos hu]
    exact ⟨Iff.rfl, fun hne => absurd rfl hne⟩
  · rw [if_neg hu, if_neg hu]
    exact ⟨iff_of_false (hnz _ b hb) (hnz _ a ha), fun _ => hpage⟩

/-- A user reaches only what is below the size of the process. -/
theorem Owns.lt_size {p : Proc} (h : Owns K use s p) (hinv : Inv K use s) (hva : IsVa va)
    (hne : s.walkaddr p.pagetable va ≠ 0) : va.toNat < (PGROUNDUP p.sz).toNat := by
  by_contra hle
  have hm := hinv.walkaddr_mapped h.space.root hva.2 hne
  by_cases htramp : va = TRAMPOLINE
  · subst htramp
    exact hinv.not_mapped_trampoline h.space.trampoline hm
  by_cases hframe : va = TRAPFRAME
  · subst hframe
    refine h.space.not_mapped_trapframe hinv ?_ (fun t i hbad => ?_) hm
    · exact ((hinv.pages p.trapframe).1 (by rw [h.trapframe]; rfl)).1
    · cases h.trapframe.symm.trans hbad
  · exact (child_eq_some.1 (hm.child_entry hinv)).1
      (h.space.rest va hva (Nat.not_lt.1 hle) htramp hframe)

/-- A used process has a page table. -/
theorem Consistent.root (h : Consistent K use x) (hp : (x.proc p).used = true) :
    IsRoot use (x.proc p).pagetable := (h.owns p hp).space.root

/-- The root of the page table belongs to its process. -/
theorem Sys.has_pagetable (hp : (x.proc p).used = true) :
    x.Has (some p) (x.proc p).pagetable := ⟨hp, .inr rfl⟩

/-- The trapframe belongs to its process. -/
theorem Sys.has_trapframe (hp : (x.proc p).used = true) :
    x.Has (some p) (x.proc p).trapframe := ⟨hp, .inl rfl⟩

/-- **A call on behalf of one owner** keeps everything consistent, and what the other processes
see. -/
theorem Consistent.change (x' : Sys n) (h : Consistent K use x) (hinv : Inv K use' x'.mem)
    (hkeep : Keeps P X use x.mem use' x'.mem)
    (hproc : ∀ p, some p ≠ o → x'.proc p = x.proc p) (hheld : o ≠ none → x'.held = x.held)
    (hX : ∀ a, HeldIn use a → ¬x.Has o a → X a)
    (hP : ∀ p, some p ≠ o → (x.proc p).used = true → ∀ va, P (x.proc p).pagetable va)
    (hfresh : ∀ a, x'.Has o a → HeldIn use a → x.Has o a)
    (hback : ∀ a, X a → x.Has o a → x'.Has o a)
    (hnew : ∀ a, HeldIn use' a → X a ∨ x'.Has o a)
    (hown : ∀ p, o = some p →
      x'.proc p = .unused ∨ (x'.proc p).used = true ∧ Owns K use' x'.mem (x'.proc p))
    (hkernel : o = none → ∀ a, x'.held a = true → use' a = some .kernel) :
    Consistent K use' x' ∧ ∀ p, some p ≠ o → (x.proc p).used = true →
      Unchanged x.mem x'.mem (x.proc p).pagetable := by
  have hsame : ∀ o' a, o' ≠ o → (x'.Has o' a ↔ x.Has o' a) := by
    rintro (_ | p) a hne
    · rw [Sys.Has, Sys.Has, hheld hne.symm]
    · rw [Sys.Has, Sys.Has, hproc p hne]
  have hother : ∀ o' a, o' ≠ o → x.Has o' a → X a := fun o' a hne ha =>
    hX a ((h.accounted a).2 ⟨o', ha⟩) fun ho => hne (h.exclusive a o' o ha ho)
  have hmine : ∀ a, x'.Has o a → HeldIn use' a := by
    intro a ha
    cases o with
    | none => exact ⟨_, hkernel rfl a ha, trivial⟩
    | some p =>
      rcases hown p rfl with heq | ⟨-, hp⟩
      · rw [Sys.Has, heq] at ha
        cases ha.1
      · exact hp.heldIn ha
  have halone : ∀ o' a, o' ≠ o → x'.Has o' a → ¬x'.Has o a := by
    intro o' a hne ho' ho
    have hold := (hsame o' a hne).1 ho'
    exact hne (h.exclusive a o' o hold (hfresh a ho ((h.accounted a).2 ⟨o', hold⟩)))
  refine ⟨⟨hinv, fun p hp => ?_, fun p hp => ?_, fun a ha => ?_, fun a => ⟨fun ha => ?_, ?_⟩,
    fun a o₁ o₂ h₁ h₂ => ?_⟩, fun p hne hp => ?_⟩
  · by_cases hpo : some p = o
    · rcases hown p hpo.symm with heq | ⟨-, hp'⟩
      · rw [heq] at hp
        cases hp
      · exact hp'
    · rw [hproc p hpo] at hp ⊢
      exact (h.owns p hp).keep hkeep (hother _ _ hpo (Sys.has_pagetable hp))
        (hother _ _ hpo (Sys.has_trapframe hp)) (hP p hpo hp)
  · by_cases hpo : some p = o
    · rcases hown p hpo.symm with heq | ⟨hused, -⟩
      · exact heq
      · cases hp.symm.trans hused
    · rw [hproc p hpo] at hp ⊢
      exact h.unused p hp
  · by_cases ho : o = none
    · exact hkernel ho a ha
    · rw [hheld ho] at ha
      exact (hkeep.held a .kernel (hother none a (Ne.symm ho) ha) trivial).2 (h.kernel a ha)
  · rcases hnew a ha with hXa | hmine'
    · obtain ⟨o', ho'⟩ := (h.accounted a).1 ((hkeep.heldIn hXa).1 ha)
      by_cases heq : o' = o
      · subst heq
        exact ⟨o', hback a hXa ho'⟩
      · exact ⟨o', (hsame o' a heq).2 ho'⟩
    · exact ⟨o, hmine'⟩
  · rintro ⟨o', ho'⟩
    by_cases heq : o' = o
    · subst heq
      exact hmine a ho'
    · have hold := (hsame o' a heq).1 ho'
      exact (hkeep.heldIn (hother o' a heq hold)).2 ((h.accounted a).2 ⟨o', hold⟩)
  · by_cases heq₁ : o₁ = o
    · subst heq₁
      by_contra hne
      exact halone o₂ a (Ne.symm hne) h₂ h₁
    · by_cases heq₂ : o₂ = o
      · subst heq₂
        exact absurd h₂ (halone o₁ a heq₁ h₁)
      · exact h.exclusive a o₁ o₂ ((hsame o₁ a heq₁).1 h₁) ((hsame o₂ a heq₂).1 h₂)
  · exact hkeep.unchanged h.inv (h.root hp) (hother _ _ hne (Sys.has_pagetable hp))
      (hP p hne hp)

/-- A new process gets pages that nobody had, and the others keep theirs. -/
theorem Consistent.add {q : Proc} (h : Consistent K use x) (hp : (x.proc p).used = false)
    (hused : q.used = true) (hinv : Inv K use' s') (htf : use q.trapframe = some .free)
    (hroot : use q.pagetable = some .free)
    (hkeep : Keeps (fun _ _ => True) q.Other use x.mem use' s') (hq : Owns K use' s' q) :
    Consistent K use' (x.setProc p s' q) ∧ ∀ p', some p' ≠ some p → (x.proc p').used = true →
      Unchanged x.mem s' (x.proc p').pagetable := by
  have hself : (x.setProc p s' q).proc p = q := Function.update_self ..
  have hnone : ∀ a, ¬x.Has (some p) a := by
    rintro a ⟨hused', -⟩
    cases hp.symm.trans hused'
  have hfree : ∀ a, q.Has a → ¬HeldIn use a := by
    rintro a ⟨-, rfl | rfl⟩ ⟨u, hu, hheld⟩
    · exact not_held_free htf u hu hheld
    · exact not_held_free hroot u hu hheld
  have hhas : ∀ a, ¬q.Other a → q.Has a := by
    intro a ha
    by_cases hat : a = q.trapframe
    · exact ⟨hused, .inl hat⟩
    · by_contra hno
      exact ha ⟨hat, fun har => hno ⟨hused, .inr har⟩⟩
  refine h.change (o := some p) (x.setProc p s' q) hinv hkeep (fun p' hne => ?_)
    (fun _ => rfl) (fun a ha _ => ?_) (fun _ _ _ _ => trivial) (fun a ha hheld => ?_)
    (fun a _ ha => absurd ha (hnone a)) (fun a _ => ?_) (fun p' heq => ?_) (by rintro ⟨⟩)
  · exact Function.update_of_ne (fun heq => hne (congrArg some heq)) ..
  · by_contra hother
    exact hfree a (hhas a hother) ha
  · rw [Sys.Has, hself] at ha
    exact absurd hheld (hfree a ha)
  · rw [Sys.Has, hself]
    exact or_iff_not_imp_left.2 (hhas a)
  · obtain rfl := Option.some.inj heq
    rw [hself]
    exact .inr ⟨hused, hq⟩

/-- A process that is gone leaves its pages to nobody. -/
theorem Consistent.remove (h : Consistent K use x) (hp : (x.proc p).used = true)
    (hinv : Inv K use' s')
    (hkeep : Keeps (fun _ _ => True) (x.proc p).Other use x.mem use' s')
    (hgone : ∀ a, ¬(x.proc p).Other a → ∀ u, use' a = some u → ¬u.Held) :
    Consistent K use' (x.setProc p s' .unused) ∧
      ∀ p', some p' ≠ some p → (x.proc p').used = true →
        Unchanged x.mem s' (x.proc p').pagetable := by
  have hself : (x.setProc p s' .unused).proc p = .unused := Function.update_self ..
  have hnone : ∀ a, ¬(x.setProc p s' .unused).Has (some p) a := by
    intro a ha
    rw [Sys.Has, hself] at ha
    cases ha.1
  refine h.change (o := some p) (x.setProc p s' .unused) hinv hkeep (fun p' hne => ?_)
    (fun _ => rfl) (fun a _ ha => ⟨fun hat => ha ⟨hp, .inl hat⟩, fun har => ha ⟨hp, .inr har⟩⟩)
    (fun _ _ _ _ => trivial) (fun a ha => absurd ha (hnone a)) (fun a hX ha => ?_)
    (fun a ha => .inl ?_) (fun p' heq => ?_) (by rintro ⟨⟩)
  · exact Function.update_of_ne (fun heq => hne (congrArg some heq)) ..
  · obtain ⟨-, hat | har⟩ := ha
    · exact absurd hat hX.1
    · exact absurd har hX.2
  · by_contra hother
    obtain ⟨u, hu, hheld⟩ := ha
    exact hgone a hother u hu hheld
  · obtain rfl := Option.some.inj heq
    exact .inl hself

/-- A process with the same trapframe and page table. -/
theorem Consistent.same {q : Proc} (h : Consistent K use x) (hp : (x.proc p).used = true)
    (hinv : Inv K use' s') (hq : Owns K use' s' q) (heq : q = { x.proc p with sz := q.sz })
    (hkeep : Keeps P (fun _ => True) use x.mem use' s')
    (hP : ∀ r va, r ≠ (x.proc p).pagetable → P r va) :
    Consistent K use' (x.setProc p s' q) ∧ ∀ p', some p' ≠ some p → (x.proc p').used = true →
      Unchanged x.mem s' (x.proc p').pagetable := by
  have hself : (x.setProc p s' q).proc p = q := Function.update_self ..
  have hhas : ∀ a, (x.setProc p s' q).Has (some p) a ↔ x.Has (some p) a := by
    intro a
    rw [Sys.Has, Sys.Has, hself, heq]
    rfl
  refine h.change (o := some p) (x.setProc p s' q) hinv hkeep (fun p' hne => ?_)
    (fun _ => rfl) (fun _ _ _ => trivial) (fun p' hne hp' va => hP _ _ fun hroot => ?_)
    (fun a ha _ => (hhas a).1 ha) (fun a _ ha => (hhas a).2 ha) (fun _ _ => .inl trivial)
    (fun p' heq' => ?_) (by rintro ⟨⟩)
  · exact Function.update_of_ne (fun heq => hne (congrArg some heq)) ..
  · exact hne (h.exclusive _ _ _ (Sys.has_pagetable hp')
      (hroot ▸ Sys.has_pagetable hp))
  · obtain rfl := Option.some.inj heq'
    rw [hself]
    refine .inr ⟨?_, hq⟩
    rw [heq]
    exact hp

/-- If no process is made for want of memory, all pages are as they were. -/
theorem Consistent.unmade (h : Consistent K use x) (hp : (x.proc p).used = false)
    (hinv : Inv K use' s') (hkeep : KeepsAll use x.mem use' s') :
    Consistent K use' (x.setProc p s' .unused) ∧
      ∀ p', some p' ≠ some p → (x.proc p').used = true →
        Unchanged x.mem s' (x.proc p').pagetable := by
  have hsame : x.setProc p s' .unused = { x with mem := s' } := by
    rw [Sys.setProc, ← h.unused p hp, Function.update_eq_self]
  have hheld : ∀ a, HeldIn use' a ↔ HeldIn use a := fun a => hkeep.heldIn trivial
  rw [hsame]
  refine ⟨⟨hinv, fun p' hp' => (h.owns p' hp').keep hkeep trivial trivial fun _ => trivial,
    h.unused, fun a ha => (hkeep.held a .kernel trivial trivial).2 (h.kernel a ha),
    fun a => (hheld a).trans (h.accounted a), h.exclusive⟩, fun p' _ hp' =>
      hkeep.unchanged h.inv (h.root hp') trivial fun _ => trivial⟩

/-- If only the contents of pages change, the owners do not. -/
theorem Consistent.data (h : Consistent K use x) (hinv : Inv K use s')
    (howns : ∀ p, (x.proc p).used = true → Owns K use s' (x.proc p)) :
    Consistent K use { x with mem := s' } :=
  ⟨hinv, howns, h.unused, h.kernel, h.accounted, h.exclusive⟩

/-- The calls of the rest of the kernel concern one page of its own. -/
theorem Consistent.page {u : Use} {b : Bool} (h : Consistent K use x)
    (hinv : Inv K (Function.update use a (some u)) s')
    (hkeep : Keeps (fun _ _ => True) (· ≠ a) use x.mem (Function.update use a (some u)) s')
    (hu : u = if b then .kernel else .free) (ha : HeldIn use a → x.held a = true) :
    Consistent K (Function.update use a (some u))
        { x with mem := s', held := Function.update x.held a b } ∧
      ∀ p, (x.proc p).used = true → Unchanged x.mem s' (x.proc p).pagetable := by
  have hheld : ∀ c, c ≠ a → (Function.update x.held a b c = true ↔ x.held c = true) := by
    intro c hc
    rw [Function.update_of_ne hc]
  refine And.imp_right (fun hrest p hp => hrest p (by rintro ⟨⟩) hp) (h.change (o := none)
    { x with mem := s', held := Function.update x.held a b } hinv hkeep (fun _ _ => rfl)
    (fun hne => absurd rfl hne) (fun c hc hno => ?_) (fun _ _ _ _ => trivial)
    (fun c hc hin => ?_) (fun c hne hc => (hheld c hne).2 hc) (fun c hc => ?_)
    (by rintro _ ⟨⟩) (fun _ c hc => ?_))
  · rintro rfl
    exact hno (ha hc)
  · by_cases hca : c = a
    · subst hca
      exact ha hin
    · exact (hheld c hca).1 hc
  · by_cases hca : c = a
    · subst hca
      obtain ⟨v, hv, hvheld⟩ := hc
      rw [Function.update_self] at hv
      obtain rfl := Option.some.inj hv
      cases b with
      | false =>
        rw [hu] at hvheld
        exact absurd hvheld id
      | true => exact .inr (Function.update_self ..)
    · exact .inl hca
  · by_cases hca : c = a
    · subst hca
      have hb : b = true := (Function.update_self ..).symm.trans hc
      rw [Function.update_self, hu, hb]
      rfl
    · rw [Function.update_of_ne hca]
      exact h.kernel c ((hheld c hca).1 hc)

/-- **A legal call does not panic**, keeps everything consistent, and leaves alone what the
other processes see. -/
theorem Consistent.run {c : Call n} (h : Consistent K use x) (hlegal : x.Legal K c) :
    ∃ use' x', x.run K c = some x' ∧ Consistent K use' x' ∧
      ∀ p, some p ≠ c.target → (x.proc p).used = true →
        Unchanged x.mem x'.mem (x.proc p).pagetable := by
  cases c with
  | userinit p code =>
    obtain ⟨hp, hrun⟩ := hlegal
    obtain ⟨⟨s', q⟩, hrun⟩ := Option.isSome_iff_exists.1 hrun
    have hrun' := hrun
    rw [h.unused p hp] at hrun'
    obtain ⟨use', hinv, hused, htf, hroot, hkeep, hq⟩ := h.inv.userinit hrun'
    rw [Sys.run, hrun]
    exact ⟨use', _, rfl, h.add hp hused hinv htf hroot hkeep hq⟩
  | fork p np =>
    obtain ⟨hp, hnp⟩ := hlegal
    rw [Sys.run, h.unused np hnp]
    obtain ⟨use', s', hinv, ⟨hrun, hkeep⟩ | ⟨q, hrun, hused, -, htf, hroot, hkeep, hq, -⟩⟩ :=
      (h.owns p hp).fork h.inv
    · rw [hrun]
      exact ⟨use', _, rfl, h.unmade hnp hinv hkeep⟩
    · rw [hrun]
      exact ⟨use', _, rfl, h.add hnp hused hinv htf hroot hkeep hq⟩
  | growproc p d =>
    obtain ⟨use', s', q, ok, hrun, hinv, hq, heq, -, hkeep, -⟩ := (h.owns p hlegal).growproc h.inv d
    rw [Sys.run, hrun]
    exact ⟨use', _, rfl, h.same hlegal hinv hq heq hkeep fun r va hne heq => absurd heq hne⟩
  | freeproc p =>
    obtain ⟨use', s', hrun, hinv, hkeep, hgone⟩ := (h.owns p hlegal).freeproc h.inv
    rw [Sys.run, hrun]
    exact ⟨use', _, rfl, h.remove hlegal hinv hkeep hgone⟩
  | store p va data =>
    obtain ⟨hp, halign⟩ := hlegal
    rw [Sys.run]
    by_cases hzero : x.mem.walkaddr (x.proc p).pagetable va = 0
    · rw [if_pos hzero]
      exact ⟨use, x, rfl, h, fun _ _ _ => ⟨fun _ _ => rfl, fun _ _ _ => rfl⟩⟩
    · rw [if_neg hzero]
      have hva : IsVa va := by
        refine ⟨halign, ?_⟩
        by_contra hmax
        exact hzero (if_pos (BitVec.not_lt.1 hmax))
      obtain ⟨hinv, hkeep, howns⟩ := h.inv.userPage (h.root hp) hva
        (h.inv.walkaddr_mapped (h.root hp) hva.2 hzero) data
      refine ⟨use, _, rfl, h.data hinv fun p' hp' => howns _ (h.owns p' hp'), fun p' hne hp' =>
        hkeep.unchanged h.inv (h.root hp') trivial fun va' heq => ?_⟩
      exact hne (h.exclusive _ _ _ (Sys.has_pagetable hp')
        ((Prod.mk.inj heq).1 ▸ Sys.has_pagetable hp))
  | kalloc =>
    rw [Sys.run]
    dsimp only
    by_cases hzero : x.mem.kalloc.2 = 0
    · rw [if_pos hzero, (h.inv.take_none hzero).1]
      exact ⟨use, x, rfl, h, fun _ _ _ => ⟨fun _ _ => rfl, fun _ _ _ => rfl⟩⟩
    · obtain ⟨hfree, hinv, hpage⟩ := h.inv.take hzero
      have hno : ¬HeldIn use x.mem.kalloc.2 := fun ⟨u, hu, hheld⟩ =>
        not_held_free hfree u hu hheld
      have hkeep := Keeps.of_page h.inv hfree rfl
        (fun b hb => ⟨Function.update_of_ne hb (some Use.kernel) use, hpage b hb⟩)
        fun hlevel => absurd (by rw [levelOf, hfree]) hlevel
      rw [if_neg hzero]
      obtain ⟨hcons, hrest⟩ := h.page (b := true) hinv hkeep rfl fun hin => absurd hin hno
      exact ⟨_, _, rfl, hcons, fun p _ hp => hrest p hp⟩
  | kfree a =>
    obtain ⟨s', hrun, hinv, hkeep⟩ := h.inv.kfreeKeeps (h.kernel a hlegal)
    rw [Sys.run, hrun]
    obtain ⟨hcons, hrest⟩ := h.page (b := false) hinv hkeep rfl fun _ => hlegal
    exact ⟨_, _, rfl, hcons, fun p _ hp => hrest p hp⟩
  | write a data =>
    obtain ⟨hinv, hkeep⟩ := h.inv.kernelPage (h.kernel a hlegal) data
    have hne : ∀ o b, o ≠ none → x.Has o b → b ≠ a := by
      rintro o b ho hb rfl
      exact ho (h.exclusive b o none hb hlegal)
    have hroot : ∀ p, (x.proc p).used = true → (x.proc p).pagetable ≠ a := fun p hp =>
      hne (some p) _ (by rintro ⟨⟩) (Sys.has_pagetable hp)
    refine ⟨use, _, rfl, h.data hinv fun p hp => (h.owns p hp).keep hkeep (hroot p hp)
      (hne (some p) _ (by rintro ⟨⟩) (Sys.has_trapframe hp)) fun _ => trivial, fun p _ hp =>
        hkeep.unchanged h.inv (h.root hp) (hroot p hp) fun _ => trivial⟩

end

end OsLabs.Xv6Memory
