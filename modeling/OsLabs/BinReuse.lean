import OsLabs.BinRecovery

/-!
# Reusing Freed Blocks of the Bin Allocator

Although splitting is final, freed memory is not lost to a client that asks for the same
sizes again: a freed block goes to the list of its own bin and stays there, uncut, until
a request of that bin or below takes it. This module shows that a batch of requests that
was served once is served again after its blocks have been freed, in any order of freeing
and of asking, any number of times.

The counting invariant is `Reserves`: list `k` holds at least as many blocks as there are
requests of bin `k` still to come. Freeing establishes it, and under it a request takes
the first block of its own list, so it neither splits a block nor takes one that a
request of another bin counts on.

## Main results

* `WorldSim.freeAll`: freeing a batch of live blocks reserves one block for each.
* `WorldSim.allocAll`: reserved requests all succeed.
* `freed_memory_reusable`: a batch that succeeds once can be freed and allocated again,
  in any orders, any number of times.
-/

namespace OsLabs.Bin

/-! ### Batches -/

section

variable {σ : Type} [FreeLists σ]

/-- The allocation of a batch of layouts, one after another, with what each returned. -/
def allocAll : World σ → List Layout → Option (World σ × List (Option ℕ))
  | w, [] => some (w, [])
  | w, layout :: layouts => do
    let (w, r) ← w.step (.alloc layout)
    let (w, rs) ← allocAll w layouts
    some (w, r :: rs)

/-- The release of a batch of blocks, one after another. -/
def freeAll : World σ → List (ℕ × Layout) → Option (World σ)
  | w, [] => some w
  | w, (ptr, layout) :: blocks => do
    let (w, _) ← w.step (.dealloc ptr layout)
    freeAll w blocks

/-- Clients used their live blocks: a history of legal writes leads from `w` to `w'`. -/
def Writes (w w' : World σ) : Prop :=
  ∃ tr, Run w tr w' ∧ ∀ e ∈ tr, ∃ addr value, e.1 = .write addr value

/-- **`n` more cycles succeed**, whatever the orders: allocating the layouts in any order
returns a block for each, freeing these in any order succeeds, and `n - 1` more cycles
succeed after that. Clients may write to their blocks between the batches. -/
def Repeatable (layouts : List Layout) : ℕ → World σ → Prop
  | 0, _ => True
  | n + 1, w => ∀ w₀, Writes w w₀ → ∀ asked : List Layout, asked.Perm layouts →
      ∃ (w₁ : World σ) (ptrs : List ℕ), allocAll w₀ asked = some (w₁, ptrs.map some) ∧
        ∀ w₂, Writes w₁ w₂ → ∀ freed : List (ℕ × Layout), freed.Perm (ptrs.zip asked) →
          ∃ w₃, freeAll w₂ freed = some w₃ ∧ Repeatable layouts n w₃

end

/-! ### Reserved blocks -/

/-- **The counting invariant**: every list holds a block for each of the requests of its
bin, and no request is beyond the last bin. -/
structure Reserves (s : Sequences) (layouts : List Layout) : Prop where
  bin_lt : ∀ layout ∈ layouts, layout.bin < 30
  count_le : ∀ k : Fin 30, layouts.countP (fun layout => layout.bin = (k : ℕ)) ≤ (s k).length

namespace Reserves

variable {s : Sequences} {layout : Layout} {layouts : List Layout}

/-- A batch without requests needs nothing of the free lists. -/
theorem nil (s : Sequences) : Reserves s [] := by
  constructor
  · simp
  · simp

/-- The order of the requests does not matter for what they need. -/
theorem perm {layouts' : List Layout} (h : Reserves s layouts)
    (hp : layouts.Perm layouts') : Reserves s layouts' := by
  refine ⟨fun l hl => h.bin_lt l (hp.mem_iff.mpr hl), fun k => ?_⟩
  rw [← hp.countP_eq]
  exact h.count_le k

/-- A freed block is reserved for a request of its bin. -/
theorem push (h : Reserves s layouts) (hbin : layout.bin < 30) (ptr : ℕ) :
    Reserves (FreeLists.push ⟨layout.bin, hbin⟩ ptr s) (layout :: layouts) := by
  refine ⟨?_, fun k => ?_⟩
  · intro l hl
    rcases List.mem_cons.mp hl with rfl | hl
    · exact hbin
    · exact h.bin_lt l hl
  · have hk := h.count_le k
    rw [List.countP_cons]
    by_cases hkb : k = ⟨layout.bin, hbin⟩
    · subst hkb
      simpa [FreeLists.push] using hk
    · have hne : layout.bin ≠ k := fun heq => hkb (Fin.ext heq.symm)
      simpa [FreeLists.push, Function.update_of_ne hkb, hne] using hk

/-- The list a reserved request looks at first is not empty. -/
theorem exists_cons (h : Reserves s (layout :: layouts)) :
    ∃ (i : Fin 30) (x : ℕ) (t : List ℕ), (i : ℕ) = layout.bin ∧ s i = x :: t := by
  have hbin := h.bin_lt layout List.mem_cons_self
  have hcount := h.count_le ⟨layout.bin, hbin⟩
  simp only [List.countP_cons, decide_true, if_true] at hcount
  obtain ⟨x, t, hs⟩ := List.exists_cons_of_length_pos (by omega :
    0 < (s ⟨layout.bin, hbin⟩).length)
  exact ⟨⟨layout.bin, hbin⟩, x, t, rfl, hs⟩

/-- A reserved request takes its own block and leaves those of the others. -/
theorem cutDown {i : Fin 30} {x : ℕ} {t : List ℕ} (h : Reserves s (layout :: layouts))
    (hi : (i : ℕ) = layout.bin) (hs : s i = x :: t) :
    Reserves (cutDown s layout.bin i x t) layouts := by
  refine ⟨fun l hl => h.bin_lt l (List.mem_cons_of_mem _ hl), fun k => ?_⟩
  have hk := h.count_le k
  rw [List.countP_cons] at hk
  rw [Bin.cutDown]
  by_cases hki : k = i
  · subst hki
    simp only [hi, hs, lt_irrefl, or_self, decide_true, if_true, if_false,
      List.length_cons] at hk ⊢
    omega
  · have hne : (k : ℕ) ≠ i := fun heq => hki (Fin.ext heq)
    rw [if_pos (by omega)]
    omega

end Reserves

/-! ### Batches in related worlds -/

namespace WorldSim

variable {start stop : ℕ} {w w' : World MemLists} {v : World Sequences}

/-- What the clients write into their blocks is invisible on the sequences. -/
theorem writes (h : WorldSim start stop w v) (hw : Writes w w') :
    WorldSim start stop w' v := by
  obtain ⟨tr, hrun, hall⟩ := hw
  induction hrun with
  | nil => exact h
  | @snoc tr w₁ w₂ op r _ hlegal hstep ih =>
      have h₁ := ih fun e he => hall e (List.mem_append_left _ he)
      obtain ⟨addr, value, rfl⟩ : ∃ addr value, op = .write addr value :=
        hall (op, r) (List.mem_append_right _ List.mem_cons_self)
      simp only [World.step, Option.some.injEq, Prod.mk.injEq] at hstep
      obtain ⟨rfl, -⟩ := hstep
      rw [h₁.live] at hlegal
      exact h₁.write value hlegal

/-- **A batch that was served**: its blocks are live, on top of those live before. -/
theorem of_allocAll {layouts : List Layout} {ptrs : List ℕ} (h : WorldSim start stop w v)
    (hall : Bin.allocAll w layouts = some (w', ptrs.map some)) :
    ∃ v', WorldSim start stop w' v' ∧ ptrs.length = layouts.length ∧
      (ptrs.zip layouts ++ v.live).Perm v'.live := by
  induction layouts generalizing w v ptrs with
  | nil =>
      simp only [Bin.allocAll, Option.some.injEq, Prod.mk.injEq] at hall
      obtain ⟨rfl, hnil⟩ := hall
      obtain rfl : ptrs = [] := List.map_eq_nil_iff.mp hnil.symm
      exact ⟨v, h, rfl, List.Perm.refl _⟩
  | cons layout layouts ih =>
      obtain ⟨a, b, r, ha, -, hsim⟩ := h.alloc layout
      simp only [Bin.allocAll, World.step, ha, Option.bind_eq_bind, Option.bind_some,
        Option.bind_eq_some_iff, Option.some.injEq, Prod.exists, Prod.mk.injEq] at hall
      obtain ⟨w₁, rs, hrest, rfl, hrs⟩ := hall
      obtain ⟨p, ps, rfl, rfl, rfl⟩ := List.map_eq_cons_iff.mp hrs.symm
      obtain ⟨v', hsim', hlen, hperm⟩ := ih hsim hrest
      refine ⟨v', hsim', by simp [hlen], ?_⟩
      exact List.perm_middle.symm.trans hperm

/-- **Freeing a batch** of live blocks succeeds and reserves one block for each. -/
theorem freeAll {blocks : List (ℕ × Layout)} {layouts : List Layout}
    (h : WorldSim start stop w v) (hsub : blocks.Subperm v.live)
    (hres : Reserves v.heap.list layouts) :
    ∃ w' v', Bin.freeAll w blocks = some w' ∧ WorldSim start stop w' v' ∧
      Reserves v'.heap.list (blocks.map Prod.snd ++ layouts) := by
  induction blocks generalizing w v layouts with
  | nil => exact ⟨w, v, rfl, h, hres⟩
  | cons block blocks ih =>
      obtain ⟨ptr, layout⟩ := block
      have hmem : (ptr, layout) ∈ v.live := hsub.subset List.mem_cons_self
      obtain ⟨a, b, ha, -, ⟨hbin, hlist⟩, hsim⟩ := h.dealloc hmem
      have hsub' : blocks.Subperm (v.live.erase (ptr, layout)) := by
        simpa using hsub.erase (ptr, layout)
      have hres' : Reserves b.list (layout :: layouts) := by
        rw [hlist]
        exact hres.push hbin ptr
      obtain ⟨w', v', hfree, hsim', hres''⟩ := ih hsim hsub' hres'
      refine ⟨w', v', ?_, hsim', hres''.perm List.perm_middle⟩
      simpa [Bin.freeAll, World.step, ha] using hfree

/-- **Allocating reserved layouts** succeeds for every one of them. -/
theorem allocAll {layouts : List Layout} (h : WorldSim start stop w v)
    (hres : Reserves v.heap.list layouts) :
    ∃ (w' : World MemLists) (ptrs : List ℕ),
      Bin.allocAll w layouts = some (w', ptrs.map some) := by
  induction layouts generalizing w v with
  | nil => exact ⟨w, [], rfl⟩
  | cons layout layouts ih =>
      obtain ⟨i, x, t, hi, hs⟩ := hres.exists_cons
      have heq := h.alloc_eq hi.ge hs fun k hk hki => by omega
      obtain ⟨a, b, r, ha, hb, hsim⟩ := h.alloc layout
      rw [heq, Option.some.injEq, Prod.mk.injEq] at hb
      obtain ⟨rfl, rfl⟩ := hb
      obtain ⟨w', ptrs, hrest⟩ := ih hsim (hres.cutDown hi hs)
      refine ⟨w', (x + 8 * (2 ^ (i : ℕ) - 2 ^ layout.bin)) :: ptrs, ?_⟩
      simp [Bin.allocAll, World.step, ha, hrest]

/-- **One release**: after a batch that was served, freeing its blocks in any order
succeeds and reserves a block for each layout of the batch. -/
theorem release {layouts : List Layout} {ptrs : List ℕ} {w₁ w₂ : World MemLists}
    {freed : List (ℕ × Layout)} (h : WorldSim start stop w v)
    (hall : Bin.allocAll w layouts = some (w₁, ptrs.map some)) (hw : Writes w₁ w₂)
    (hfreed : freed.Perm (ptrs.zip layouts)) :
    ∃ w₃ v₃, Bin.freeAll w₂ freed = some w₃ ∧ WorldSim start stop w₃ v₃ ∧
      Reserves v₃.heap.list layouts := by
  obtain ⟨v₁, h₁, hlen, hperm⟩ := h.of_allocAll hall
  have hsub : freed.Subperm v₁.live :=
    hfreed.subperm.trans ((List.sublist_append_left _ _).subperm.trans hperm.subperm)
  obtain ⟨w₃, v₃, hfree, h₃, hres⟩ := (h₁.writes hw).freeAll hsub (Reserves.nil _)
  refine ⟨w₃, v₃, hfree, h₃, hres.perm ?_⟩
  have hsnd : (ptrs.zip layouts).map Prod.snd = layouts := List.map_snd_zip hlen.ge
  rw [List.append_nil, ← hsnd]
  exact hfreed.map Prod.snd

/-- **The cycle, repeated**: from reserved layouts any number of cycles succeed.
Induction on the number of cycles; each release reserves the layouts for the next. -/
theorem repeatable {layouts : List Layout} (n : ℕ) (h : WorldSim start stop w v)
    (hres : Reserves v.heap.list layouts) : Repeatable layouts n w := by
  induction n generalizing w v with
  | zero => trivial
  | succ n ih =>
      intro w₀ hw₀ asked hasked
      have h₀ := h.writes hw₀
      obtain ⟨w₁, ptrs, hall⟩ := h₀.allocAll (hres.perm hasked.symm)
      refine ⟨w₁, ptrs, hall, fun w₂ hw₂ freed hfreed => ?_⟩
      obtain ⟨w₃, v₃, hfree, h₃, hres₃⟩ := h₀.release hall hw₂ hfreed
      exact ⟨w₃, hfree, ih h₃ (hres₃.perm hasked)⟩

end WorldSim

/-! ### The reuse theorem -/

/-- **The reuse theorem.** From every reachable state, a batch of layouts that is served
with no null pointer can be freed in any order, and after that the layouts are served
again in any order, and freed again, any number of times. -/
theorem freed_memory_reusable {start stop : ℕ} (hb : Bounds start stop) (mem : Memory) :
    ∃ heap, Allocator.new (MemLists.empty mem) start stop = some heap ∧
      ∀ tr w, Run ⟨heap, []⟩ tr w →
      ∀ (layouts : List Layout) (w₁ : World MemLists) (ptrs : List ℕ),
        allocAll w layouts = some (w₁, ptrs.map some) →
      ∀ w₂, Writes w₁ w₂ → ∀ freed : List (ℕ × Layout), freed.Perm (ptrs.zip layouts) →
        ∃ w₃, freeAll w₂ freed = some w₃ ∧ ∀ n, Repeatable layouts n w₃ := by
  obtain ⟨heap, b, hnew, -, hsim₀⟩ := exists_new hb mem
  refine ⟨heap, hnew, ?_⟩
  intro tr w hrun layouts w₁ ptrs hall w₂ hw freed hfreed
  obtain ⟨v, -, hsim⟩ := run_simulation hsim₀ hrun
  obtain ⟨w₃, v₃, hfree, h₃, hres⟩ := hsim.release hall hw hfreed
  exact ⟨w₃, hfree, fun n => h₃.repeatable n hres⟩

/-- A fresh heap of two words serves two requests for one word. -/
theorem two_words_batch :
    ∃ a w, Allocator.new (MemLists.empty fun _ => 0) 16 32 = some a ∧
      allocAll ⟨a, []⟩ [wordLayout, wordLayout] = some (w, [24, 16].map some) :=
  ⟨_, _, rfl, rfl⟩

/-- Two words are handed out, given back the other way round, and can be had again as often as one
likes. -/
theorem freed_memory_reusable_two_words :
    ∃ a w w', Allocator.new (MemLists.empty fun _ => 0) 16 32 = some a ∧
      allocAll ⟨a, []⟩ [wordLayout, wordLayout] = some (w, [24, 16].map some) ∧
      freeAll w [(16, wordLayout), (24, wordLayout)] = some w' ∧
      ∀ n, Repeatable [wordLayout, wordLayout] n w' := by
  obtain ⟨a, w, ha, hall⟩ := two_words_batch
  obtain ⟨a', ha', h⟩ := freed_memory_reusable bounds_two_words fun _ => 0
  rw [ha, Option.some.injEq] at ha'
  subst ha'
  obtain ⟨w', hfree, hrep⟩ := h [] _ Run.nil _ w [24, 16] hall w ⟨[], Run.nil, by simp⟩
    [(16, wordLayout), (24, wordLayout)] (List.Perm.swap _ _ _)
  exact ⟨a, w, w', ha, hall, hfree, hrep⟩

end OsLabs.Bin
