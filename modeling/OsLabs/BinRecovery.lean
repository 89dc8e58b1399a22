import OsLabs.BinRefinement

/-!
# What the Bin Allocator Recovers

Freed blocks are never merged (`pairAddr_notMem`): splitting is final. This module
settles exactly when a heap whose blocks have all been freed can again serve every
request that the fresh heap could serve.

A request of bin `k` succeeds exactly when some block of bin `k` or above is free
(`alloc_nonnull_iff`). `HasBlock v k` says such a block exists, free or live. Operations
never create one, and the only operation that destroys one is an allocation that splits
the single largest block of the heap (`SplitsLargest`); after it no block of that size
exists anywhere, and none ever will.

## Main results

* `hasBlock_step`: what one operation does to the block sizes present.
* `recovers_iff_unsplit`: an all-free heap serves every request of the fresh heap if and
  only if no allocation of the history split the last block of the largest size.
* `bin_recovery_fails`: a heap of two words, after one word has been allocated and freed,
  no longer serves a request of two words.
-/

namespace OsLabs.Bin

/-! ### Requests and block sizes -/

/-- A layout whose rounded size is the block size of bin `k`. -/
def Layout.ofBin (k : Fin 30) : Layout where
  size := 8 * 2 ^ (k : ℕ)
  align := 1
  align_pow := ⟨0, rfl⟩
  size_add_align_le := by
    have : 2 ^ (k : ℕ) ≤ 2 ^ 29 := Nat.pow_le_pow_right (by omega) (by omega)
    omega

/-- The layout made for a list is served from that list. -/
theorem Layout.ofBin_bin (k : Fin 30) : (Layout.ofBin k).bin = k := by
  have hpow : 8 * 2 ^ (k : ℕ) = 2 ^ ((k : ℕ) + 3) := by ring
  have hsize : (Layout.ofBin k).roundedSize = 8 * 2 ^ (k : ℕ) := by
    have := Nat.two_pow_pos (k : ℕ)
    simp only [Layout.roundedSize, Layout.ofBin, binSize]
    rw [hpow, nextPowerOfTwo_two_pow, ← hpow]
    omega
  rw [Layout.bin, hsize, binSize, Nat.mul_div_cancel_left _ (by omega),
    trailingZeros_two_pow (by omega)]

/-- A nonempty list from `bin` on has a first one. -/
theorem exists_first {s : Sequences} {bin : ℕ} (h : ∃ j : Fin 30, bin ≤ j ∧ s j ≠ []) :
    ∃ (i : Fin 30) (x : ℕ) (t : List ℕ), bin ≤ i ∧ s i = x :: t ∧
      ∀ k : Fin 30, bin ≤ k → k < i → s k = [] := by
  obtain ⟨i, ⟨hbi, hi⟩, hmin⟩ :=
    (Fin.exists_iff_exists_minimal fun j : Fin 30 => bin ≤ j ∧ s j ≠ []).mp h
  obtain ⟨x, t, hs⟩ := List.exists_cons_of_ne_nil hi
  refine ⟨i, x, t, hbi, hs, fun k hk hki => ?_⟩
  by_contra hne
  exact hmin k hki ⟨hk, hne⟩

namespace WorldSim

variable {start stop : ℕ} {w : World MemLists} {v : World Sequences}

/-- The exact effect of a successful `alloc` in a reachable state. -/
theorem alloc_eq (h : WorldSim start stop w v) {layout : Layout} {i : Fin 30} {x : ℕ}
    {t : List ℕ} (hbi : layout.bin ≤ i) (hs : v.heap.list i = x :: t)
    (hempty : ∀ k : Fin 30, layout.bin ≤ k → k < i → v.heap.list k = []) :
    v.heap.alloc layout =
      some ({ v.heap with list := cutDown v.heap.list layout.bin i x t,
                          allocated := v.heap.allocated + layout.roundedSize },
        some (x + 8 * (2 ^ (i : ℕ) - 2 ^ layout.bin))) := by
  have hx := (h.lists.inv.free_le (k := i) (by rw [hs]; exact List.mem_cons_self)).2
  exact alloc_some hbi hs hempty (lt_of_le_of_lt hx h.lists.bound)
    (h.allocated_add_lt hbi (by simp [hs]))

/-- **A request succeeds exactly when a block of its bin or above is free.** -/
theorem alloc_nonnull_iff (h : WorldSim start stop w v) (layout : Layout) :
    (∃ a p, w.heap.alloc layout = some (a, some p)) ↔
      ∃ j : Fin 30, layout.bin ≤ j ∧ v.heap.list j ≠ [] := by
  obtain ⟨a, b, r, ha, hb, -⟩ := h.alloc layout
  constructor
  · rintro ⟨a', p, ha'⟩
    rw [ha, Option.some.injEq, Prod.mk.injEq] at ha'
    obtain ⟨rfl, rfl⟩ := ha'
    by_contra hnone
    push Not at hnone
    rw [alloc_null hnone] at hb
    simp at hb
  · intro hex
    obtain ⟨i, x, t, hbi, hs, hempty⟩ := exists_first hex
    rw [h.alloc_eq hbi hs hempty, Option.some.injEq, Prod.mk.injEq] at hb
    obtain ⟨-, rfl⟩ := hb
    exact ⟨a, _, ha⟩

end WorldSim

/-! ### The block sizes present -/

/-- Some block of bin `k` or above exists, free or live. -/
def HasBlock (s : Sequences) (live : List (ℕ × Layout)) (k : ℕ) : Prop :=
  (∃ j : Fin 30, k ≤ j ∧ s j ≠ []) ∨ ∃ b ∈ live, k ≤ b.2.bin

/-- **The defect's trigger**, on the state before an allocation: the request is smaller
than the block that serves it, and that block is the only block of its size or larger,
free or live. -/
def SplitsLargest (s : Sequences) (live : List (ℕ × Layout)) (layout : Layout) : Prop :=
  ∃ (i : Fin 30) (x : ℕ), layout.bin < i ∧
    (∀ k : Fin 30, layout.bin ≤ k → k < i → s k = []) ∧
    s i = [x] ∧ (∀ k : Fin 30, i < k → s k = []) ∧ ∀ b ∈ live, b.2.bin < i

/-- The part of the trigger that only an allocation can meet. -/
def Op.SplitsLast (w : World MemLists) : Op → Prop
  | .alloc layout => SplitsLargest w.heap.list.contents w.live layout
  | _ => False

section

variable {s : Sequences} {live : List (ℕ × Layout)} {layout : Layout} {i : Fin 30}
  {x p k : ℕ} {t : List ℕ}

/-- Cutting a block down creates no larger block. -/
theorem HasBlock.of_cutDown (hbi : layout.bin ≤ i) (hs : s i = x :: t)
    (h : HasBlock (cutDown s layout.bin i x t) ((p, layout) :: live) k) :
    HasBlock s live k := by
  have hi : s i ≠ [] := by simp [hs]
  rcases h with ⟨j, hkj, hj⟩ | ⟨b, hb, hkb⟩
  · by_cases hout : (j : ℕ) < layout.bin ∨ (i : ℕ) < j
    · rw [cutDown, if_pos hout] at hj
      exact Or.inl ⟨j, hkj, hj⟩
    · exact Or.inl ⟨i, by omega, hi⟩
  · rcases List.mem_cons.mp hb with rfl | hb
    · exact Or.inl ⟨i, by simp only at hkb; omega, hi⟩
    · exact Or.inr ⟨b, hb, hkb⟩

/-- Cutting a block down loses no size unless the block was the only largest one. -/
theorem HasBlock.cutDown (hbi : layout.bin ≤ i) (hs : s i = x :: t)
    (hempty : ∀ k : Fin 30, layout.bin ≤ k → k < i → s k = [])
    (hsplit : ¬ SplitsLargest s live layout) (h : HasBlock s live k) :
    HasBlock (cutDown s layout.bin i x t) ((p, layout) :: live) k := by
  by_cases hkbin : k ≤ layout.bin
  · exact Or.inr ⟨(p, layout), List.mem_cons_self, hkbin⟩
  have habove : ∀ j : Fin 30, i < j → s j ≠ [] → Bin.cutDown s layout.bin i x t j ≠ [] := by
    intro j hij hj
    rwa [Bin.cutDown, if_pos (Or.inr (Fin.lt_def.mp hij))]
  rcases h with ⟨j, hkj, hj⟩ | ⟨b, hb, hkb⟩
  swap
  · exact Or.inr ⟨b, List.mem_cons_of_mem _ hb, hkb⟩
  by_cases hij : i < j
  · exact Or.inl ⟨j, hkj, habove j hij hj⟩
  by_cases hki : k < i
  · -- the half left one list below `i` is large enough
    refine Or.inl ⟨⟨i - 1, by omega⟩, by simp only; omega, ?_⟩
    rw [Bin.cutDown, if_neg (by simp only; omega), if_neg (by simp only; omega)]
    simp
  -- the block itself: some other block of its size or larger must exist
  have hki' : k = i := by omega
  by_cases ht : t = []
  · subst ht
    by_cases hup : ∃ j : Fin 30, i < j ∧ s j ≠ []
    · obtain ⟨j', hij', hj'⟩ := hup
      exact Or.inl ⟨j', by omega, habove j' hij' hj'⟩
    · push Not at hup
      by_cases hlive : ∃ b ∈ live, (i : ℕ) ≤ b.2.bin
      · obtain ⟨b, hb, hle⟩ := hlive
        exact Or.inr ⟨b, List.mem_cons_of_mem _ hb, by omega⟩
      · push Not at hlive
        exact absurd ⟨i, x, by omega, hempty, hs, hup, hlive⟩ hsplit
  · refine Or.inl ⟨i, by omega, ?_⟩
    rwa [Bin.cutDown, if_neg (by omega), if_pos rfl]

/-- Cutting down the only largest block loses its size. -/
theorem not_hasBlock_cutDown (hbi : layout.bin < i)
    (hup : ∀ k : Fin 30, i < k → s k = []) (hlive : ∀ b ∈ live, b.2.bin < i) :
    ¬ HasBlock (cutDown s layout.bin i x []) ((p, layout) :: live) i := by
  rintro (⟨j, hij, hj⟩ | ⟨b, hb, hib⟩)
  · by_cases hlt : i < j
    · rw [cutDown, if_pos (Or.inr (Fin.lt_def.mp hlt))] at hj
      exact hj (hup j hlt)
    · have hji : j = i := by omega
      subst hji
      rw [cutDown, if_neg (by omega), if_pos rfl] at hj
      exact hj rfl
  · rcases List.mem_cons.mp hb with rfl | hb
    · simp only at hib
      omega
    · have := hlive b hb
      omega

/-- The block that the trigger names is the one that serves the request. -/
theorem SplitsLargest.of_first (h : SplitsLargest s live layout) (hbi : layout.bin ≤ i)
    (hs : s i = x :: t) (hempty : ∀ k : Fin 30, layout.bin ≤ k → k < i → s k = []) :
    layout.bin < i ∧ t = [] ∧ (∀ k : Fin 30, i < k → s k = []) ∧ ∀ b ∈ live, b.2.bin < i := by
  obtain ⟨i', x', hbi', hempty', hs', hup, hlive⟩ := h
  have hii' : i = i' := by
    rcases lt_trichotomy i i' with hlt | heq | hgt
    · rw [hempty' i hbi hlt] at hs
      simp at hs
    · exact heq
    · rw [hempty i' (by omega) hgt] at hs'
      simp at hs'
  subst hii'
  rw [hs', List.cons.injEq] at hs
  exact ⟨hbi', hs.2.symm, hup, hlive⟩

/-- A freed block is a block of its list. -/
theorem exists_push_iff {bin : ℕ} (hbin : bin < 30) :
    (∃ j : Fin 30, k ≤ j ∧ FreeLists.push ⟨bin, hbin⟩ p s j ≠ []) ↔
      k ≤ bin ∨ ∃ j : Fin 30, k ≤ j ∧ s j ≠ [] := by
  constructor
  · rintro ⟨j, hkj, hj⟩
    by_cases hjb : j = ⟨bin, hbin⟩
    · subst hjb
      exact Or.inl hkj
    · simp only [FreeLists.push, Function.update_of_ne hjb] at hj
      exact Or.inr ⟨j, hkj, hj⟩
  · rintro (hk | ⟨j, hkj, hj⟩)
    · exact ⟨⟨bin, hbin⟩, hk, by simp [FreeLists.push]⟩
    · refine ⟨j, hkj, ?_⟩
      by_cases hjb : j = ⟨bin, hbin⟩
      · subst hjb
        simp [FreeLists.push]
      · simpa only [FreeLists.push, Function.update_of_ne hjb] using hj

/-- Freeing a block only moves it from the live blocks to its list. -/
theorem hasBlock_free (hbin : layout.bin < 30) (hmem : (p, layout) ∈ live) :
    HasBlock (FreeLists.push ⟨layout.bin, hbin⟩ p s) (live.erase (p, layout)) k ↔
      HasBlock s live k := by
  have hlive : (∃ c ∈ live, k ≤ c.2.bin) ↔
      k ≤ layout.bin ∨ ∃ c ∈ live.erase (p, layout), k ≤ c.2.bin := by
    simp only [(List.perm_cons_erase hmem).mem_iff, List.mem_cons, or_and_right, exists_or,
      exists_eq_left]
  rw [HasBlock, HasBlock, exists_push_iff, hlive, or_assoc]
  exact or_left_comm

end

/-! ### Steps and runs -/

/-- **What one operation does to the block sizes present**: none appears; none
disappears unless the operation splits the only largest block, and then that one does. -/
theorem hasBlock_step {start stop : ℕ} {w : World MemLists} {v v' : World Sequences}
    (h : WorldSim start stop w v) {op : Op} {r : Option ℕ} (hlegal : op.Legal v.live)
    (hstep : v.step op = some (v', r)) :
    (∀ k, HasBlock v'.heap.list v'.live k → HasBlock v.heap.list v.live k) ∧
    (¬ op.SplitsLast w → ∀ k, HasBlock v.heap.list v.live k →
      HasBlock v'.heap.list v'.live k) ∧
    (op.SplitsLast w → ∃ i, HasBlock v.heap.list v.live i ∧
      ¬ HasBlock v'.heap.list v'.live i) := by
  cases op with
  | alloc layout =>
      simp only [Op.SplitsLast, h.lists.contents_eq, h.live]
      by_cases hex : ∃ j : Fin 30, layout.bin ≤ j ∧ v.heap.list j ≠ []
      · obtain ⟨i, x, t, hbi, hs, hempty⟩ := exists_first hex
        simp only [World.step, h.alloc_eq hbi hs hempty, Option.bind_eq_bind,
          Option.bind_some, Option.some.injEq, Prod.mk.injEq] at hstep
        obtain ⟨rfl, rfl⟩ := hstep
        refine ⟨fun k hk => hk.of_cutDown hbi hs,
          fun hsplit k hk => hk.cutDown hbi hs hempty hsplit, ?_⟩
        intro hsplit
        obtain ⟨hlt, rfl, hup, hlive⟩ := hsplit.of_first hbi hs hempty
        exact ⟨i, Or.inl ⟨i, le_rfl, by simp [hs]⟩, not_hasBlock_cutDown hlt hup hlive⟩
      · have hnone : ∀ k : Fin 30, layout.bin ≤ k → v.heap.list k = [] := by
          push Not at hex
          exact hex
        simp only [World.step, alloc_null hnone, Option.bind_eq_bind, Option.bind_some,
          Option.some.injEq, Prod.mk.injEq] at hstep
        obtain ⟨rfl, rfl⟩ := hstep
        refine ⟨fun k hk => hk, fun _ k hk => hk, ?_⟩
        rintro ⟨i, x, hbi, -, hs, -⟩
        rw [hnone i (by omega)] at hs
        simp at hs
  | dealloc ptr layout =>
      obtain ⟨a, b, -, hb, ⟨hbin, hlist⟩, -⟩ := h.dealloc hlegal
      simp only [World.step, hb, Option.bind_eq_bind, Option.bind_some, Option.some.injEq,
        Prod.mk.injEq] at hstep
      obtain ⟨rfl, rfl⟩ := hstep
      have hiff : ∀ k, HasBlock b.list (v.live.erase (ptr, layout)) k ↔
          HasBlock v.heap.list v.live k := by
        intro k
        rw [hlist]
        exact hasBlock_free hbin hlegal
      exact ⟨fun k => (hiff k).mp, fun _ k => (hiff k).mpr, False.elim⟩
  | write addr value =>
      simp only [World.step, Option.some.injEq, Prod.mk.injEq] at hstep
      obtain ⟨rfl, rfl⟩ := hstep
      exact ⟨fun k hk => hk, fun _ k hk => hk, False.elim⟩

/-- Histories in which no allocation splits the last block of the largest size. -/
inductive UnsplitRun (w : World MemLists) : List (Op × Option ℕ) → World MemLists → Prop
  | nil : UnsplitRun w [] w
  | snoc {tr : List (Op × Option ℕ)} {w₁ w₂ : World MemLists} {op : Op} {r : Option ℕ} :
      UnsplitRun w tr w₁ → op.Legal w₁.live → ¬ op.SplitsLast w₁ →
      w₁.step op = some (w₂, r) → UnsplitRun w (tr ++ [(op, r)]) w₂

/-- The operations and results of a history determine where it leads. -/
theorem UnsplitRun.unique {w a b : World MemLists} {tr : List (Op × Option ℕ)}
    (ha : UnsplitRun w tr a) (hb : Run w tr b) : a = b := by
  induction ha generalizing b with
  | nil =>
      generalize htr : ([] : List (Op × Option ℕ)) = tr at hb
      cases hb with
      | nil => rfl
      | snoc _ _ _ => simp at htr
  | @snoc tr _ _ op r _ _ _ hstep ih =>
      generalize htr : tr ++ [(op, r)] = tr' at hb
      cases hb with
      | nil => simp at htr
      | snoc hrun _ hstep' =>
          obtain ⟨rfl, hlast⟩ := List.append_inj' htr rfl
          rw [List.cons.injEq, Prod.mk.injEq] at hlast
          obtain ⟨⟨rfl, rfl⟩, -⟩ := hlast
          obtain rfl := ih hrun
          rw [hstep, Option.some.injEq, Prod.mk.injEq] at hstep'
          exact hstep'.1

/-- The last step of a history that splits no last block is such a step. -/
theorem UnsplitRun.of_snoc {w w₁ w₂ : World MemLists} {tr : List (Op × Option ℕ)}
    {op : Op} {r : Option ℕ} (h : UnsplitRun w (tr ++ [(op, r)]) w₂) (hrun : Run w tr w₁) :
    UnsplitRun w tr w₁ ∧ ¬ op.SplitsLast w₁ := by
  generalize htr : tr ++ [(op, r)] = tr' at h
  cases h with
  | nil => simp at htr
  | snoc hrun' _ hsplit _ =>
      obtain ⟨rfl, hlast⟩ := List.append_inj' htr rfl
      rw [List.cons.injEq, Prod.mk.injEq] at hlast
      obtain ⟨⟨rfl, rfl⟩, -⟩ := hlast
      obtain rfl := hrun'.unique hrun
      exact ⟨hrun', hsplit⟩

/-- **What a whole history does to the block sizes present**: none appears, and all stay
exactly when no allocation splits the last block of the largest size. -/
theorem hasBlock_run {start stop : ℕ} {w₀ w : World MemLists} {v₀ : World Sequences}
    {tr : List (Op × Option ℕ)} (h₀ : WorldSim start stop w₀ v₀) (hrun : Run w₀ tr w) :
    ∃ v, WorldSim start stop w v ∧
      (∀ k, HasBlock v.heap.list v.live k → HasBlock v₀.heap.list v₀.live k) ∧
      (UnsplitRun w₀ tr w ↔
        ∀ k, HasBlock v₀.heap.list v₀.live k → HasBlock v.heap.list v.live k) := by
  induction hrun with
  | nil => exact ⟨v₀, h₀, fun k hk => hk, fun _ k hk => hk, fun _ => UnsplitRun.nil⟩
  | @snoc tr w₁ w₂ op r hrun hlegal hstep ih =>
      obtain ⟨v, hsim, hsub, hiff⟩ := ih
      have hlegal' := hlegal
      rw [hsim.live] at hlegal'
      obtain ⟨w', v', r', hw', hv', hsim'⟩ := hsim.step hlegal'
      rw [hstep, Option.some.injEq, Prod.mk.injEq] at hw'
      obtain ⟨rfl, rfl⟩ := hw'
      obtain ⟨hshrink, hkeep, hlose⟩ := hasBlock_step hsim hlegal' hv'
      refine ⟨v', hsim', fun k hk => hsub k (hshrink k hk), ?_, ?_⟩
      · intro h k hk
        obtain ⟨hprev, hsplit⟩ := h.of_snoc hrun
        exact hkeep hsplit k (hiff.mp hprev k hk)
      · intro hall
        have hprev : UnsplitRun w₀ tr w₁ := hiff.mpr fun k hk => hshrink k (hall k hk)
        refine UnsplitRun.snoc hprev hlegal (fun hsplit => ?_) hstep
        obtain ⟨i, hi, hlost⟩ := hlose hsplit
        exact hlost (hall i (hsub i hi))

/-! ### Recovery -/

/-- Every layout that the fresh allocator serves is served by `heap` too. -/
def Recovers (fresh heap : Allocator MemLists) : Prop :=
  ∀ layout : Layout, (∃ a p, fresh.alloc layout = some (a, some p)) →
    ∃ a p, heap.alloc layout = some (a, some p)

/-- With no block live, the sizes present are the sizes free. -/
theorem hasBlock_nil {s : Sequences} {k : ℕ} :
    HasBlock s [] k ↔ ∃ j : Fin 30, k ≤ j ∧ s j ≠ [] := by
  simp [HasBlock]

/-- **The recovery theorem.** After a history that leaves no block live, every request
of the fresh heap is served again if and only if no allocation of the history split the
last block of the largest size. -/
theorem recovers_iff_unsplit {start stop : ℕ} (hb : Bounds start stop) (mem : Memory) :
    ∃ a, Allocator.new (MemLists.empty mem) start stop = some a ∧
      ∀ tr w, Run ⟨a, []⟩ tr w → w.live = [] →
        (Recovers a w.heap ↔ UnsplitRun ⟨a, []⟩ tr w) := by
  obtain ⟨a, b, ha, -, h₀⟩ := exists_new hb mem
  refine ⟨a, ha, fun tr w hrun hlive => ?_⟩
  obtain ⟨v, hsim, -, hiff⟩ := hasBlock_run h₀ hrun
  rw [hiff, ← hsim.live, hlive]
  simp only [hasBlock_nil]
  constructor
  · rintro hrec k ⟨j, hkj, hj⟩
    have hbin : (Layout.ofBin ⟨k, by omega⟩).bin = k := Layout.ofBin_bin _
    obtain ⟨i, hki, hi⟩ := (hsim.alloc_nonnull_iff _).mp
      (hrec (Layout.ofBin ⟨k, by omega⟩)
        ((h₀.alloc_nonnull_iff _).mpr ⟨j, by rw [hbin]; exact hkj, hj⟩))
    rw [hbin] at hki
    exact ⟨i, hki, hi⟩
  · intro hall layout hfresh
    exact (hsim.alloc_nonnull_iff layout).mpr
      (hall layout.bin ((h₀.alloc_nonnull_iff layout).mp hfresh))

/-- The request for two words. -/
def pairLayout : Layout := ⟨16, 8, wordLayout.align_pow, by omega⟩

/-- A heap of two words, after both have been allocated at once and freed. -/
theorem two_words_whole :
    ∃ a w, Allocator.new (MemLists.empty fun _ => 0) 16 32 = some a ∧
      Run ⟨a, []⟩ [(.alloc pairLayout, some 16), (.dealloc 16 pairLayout, none)] w ∧
      UnsplitRun ⟨a, []⟩ [(.alloc pairLayout, some 16), (.dealloc 16 pairLayout, none)] w ∧
      w.live = [] := by
  refine ⟨_, _, rfl, Run.snoc (Run.snoc Run.nil ?_ rfl) ?_ rfl,
    UnsplitRun.snoc (UnsplitRun.snoc UnsplitRun.nil ?_ ?_ rfl) ?_ not_false rfl, rfl⟩
  · exact Nat.succ_pos 15
  · exact List.mem_cons_self
  · exact Nat.succ_pos 15
  · -- no list above the request's own holds a block
    rintro ⟨i, x, hi, -, hx, -⟩
    have hempty : ∀ i : Fin 30, pairLayout.bin < i →
        MemLists.contents (FreeLists.push (1 : Fin 30) 16 (MemLists.empty fun _ => 0)) i =
          [] := by decide
    have hnil : [] = [x] := (hempty i hi).symm.trans hx
    simp at hnil
  · exact List.mem_cons_self

/-- A block of two words that is handed out and given back whole, and then nothing is lost. -/
theorem recovers_two_words :
    ∃ a w, Allocator.new (MemLists.empty fun _ => 0) 16 32 = some a ∧
      Run ⟨a, []⟩ [(.alloc pairLayout, some 16), (.dealloc 16 pairLayout, none)] w ∧
      w.live = [] ∧ Recovers a w.heap := by
  obtain ⟨a, w, ha, hrun, hunsplit, hlive⟩ := two_words_whole
  obtain ⟨a', ha', h⟩ := recovers_iff_unsplit bounds_two_words fun _ => 0
  rw [ha, Option.some.injEq] at ha'
  subst ha'
  exact ⟨a, w, ha, hrun, hlive, (h _ w hrun hlive).mpr hunsplit⟩

/-- A heap of two words, after one has been allocated and freed: two words are no longer
served. -/
theorem two_words_split :
    ∃ a w, Allocator.new (MemLists.empty fun _ => 0) 16 32 = some a ∧
      Run ⟨a, []⟩ [(.alloc wordLayout, some 24), (.dealloc 24 wordLayout, none)] w ∧
      w.live = [] ∧ (∃ b, a.alloc pairLayout = some (b, some 16)) ∧
      ∃ b, w.heap.alloc pairLayout = some (b, none) := by
  refine ⟨_, _, rfl, Run.snoc (Run.snoc Run.nil ?_ rfl) ?_ rfl, rfl, ⟨_, rfl⟩, _, rfl⟩
  · exact Nat.succ_pos 7
  · exact List.mem_cons_self

/-- **The defect**: after a legal history that leaves no block live, a request that the
fresh heap serves gets a null pointer. -/
theorem bin_recovery_fails :
    ∃ a w, Bounds 16 32 ∧ Allocator.new (MemLists.empty fun _ => 0) 16 32 = some a ∧
      Run ⟨a, []⟩ [(.alloc wordLayout, some 24), (.dealloc 24 wordLayout, none)] w ∧
      w.live = [] ∧ (∃ b, a.alloc pairLayout = some (b, some 16)) ∧
      (∃ b, w.heap.alloc pairLayout = some (b, none)) ∧ ¬ Recovers a w.heap := by
  obtain ⟨a, w, ha, hrun, hlive, hfresh, b, hb⟩ := two_words_split
  refine ⟨a, w, bounds_two_words, ha, hrun, hlive, hfresh, ⟨b, hb⟩, fun hrec => ?_⟩
  obtain ⟨c, hc⟩ := hfresh
  obtain ⟨d, p, hd⟩ := hrec pairLayout ⟨c, 16, hc⟩
  rw [hb] at hd
  simp at hd

end OsLabs.Bin
