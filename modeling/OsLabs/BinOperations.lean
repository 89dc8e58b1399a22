import OsLabs.BinRecovery

/-!
# The Operations of the Bin Allocator, Exactly

What `new`, `alloc` and `dealloc` of `kern/src/allocator/bin.rs` do to the free lists in
memory, for every heap and in every reachable state.

`new` takes at each address the largest block that is aligned there and fits, so no two
of the blocks it leaves could be one. `alloc` takes the first block of the first nonempty
list from the bin of the request on and leaves one half of it in each list it passes on
the way down. `dealloc` is meant to merge a block with its buddy, the other half of the
block of twice its size, but it looks for the buddy at half the distance (`pairAddr_eq`)
and never finds it: it always pushes the block, and that is right only when the buddy is
not free.

Conventions: as in `OsLabs.Bin`. The lists are read off memory by `MemLists.contents`.

## Main results

* `carve_maximal`: the carving loop leaves blocks that cannot be larger.
* `bin_new_carves`: the initial blocks.
* `bin_alloc_exact`: the result and the effect of `alloc`.
* `bin_merges_iff`: `dealloc` does what it should if and only if the buddy is not free.
* `buddy_not_merged`: a block and its buddy, both free, that stay apart.
-/

namespace OsLabs.Bin

/-! ### The initial blocks -/

/-- Two blocks of one size that together are an aligned block of twice the size. -/
def Buddies (b c : Block) : Prop :=
  b.size = c.size ∧
    ∃ x, 2 * b.size ∣ x ∧ b.toSet ∪ c.toSet = Set.Ico x (x + 2 * b.size)

/-- **The initial blocks** of a heap `[start, stop)`, read off memory. -/
structure Carved (start stop : ℕ) (a : Allocator MemLists) : Prop where
  total : a.total = 8 * ((stop - start) / 8)
  tiles : Tiles (freeBlocks a.list.contents) start (start + a.total)
  aligned : ∀ k, ∀ x ∈ a.list.contents k, 8 * 2 ^ (k : ℕ) ∣ x
  apart : ∀ b ∈ freeBlocks a.list.contents, ∀ c ∈ freeBlocks a.list.contents,
    ¬ Buddies b c

/-- One of two buddies begins where the block of twice the size does, the other in the
middle of it. -/
theorem Buddies.addr {b c : Block} (h : Buddies b c) (hpos : 0 < b.size) :
    2 * b.size ∣ b.addr ∧ c.addr = b.addr + b.size ∨
      2 * b.size ∣ c.addr ∧ b.addr = c.addr + b.size := by
  obtain ⟨hsize, x, hdvd, hunion⟩ := h
  have hmem : ∀ y, (b.addr ≤ y ∧ y < b.addr + b.size ∨ c.addr ≤ y ∧ y < c.addr + c.size) ↔
      x ≤ y ∧ y < x + 2 * b.size := fun y => Set.ext_iff.mp hunion y
  -- the two ends of each block, and the two ends of the union
  have hb₀ := (hmem b.addr).mp (Or.inl (by omega))
  have hb₁ := (hmem (b.addr + b.size - 1)).mp (Or.inl (by omega))
  have hc₀ := (hmem c.addr).mp (Or.inr (by omega))
  have hc₁ := (hmem (c.addr + c.size - 1)).mp (Or.inr (by omega))
  have hx₀ := (hmem x).mpr (by omega)
  have hx₁ := (hmem (x + 2 * b.size - 1)).mpr (by omega)
  rcases hx₀ with hx₀ | hx₀
  · have hbx : b.addr = x := by omega
    exact Or.inl ⟨hbx ▸ hdvd, by omega⟩
  · have hcx : c.addr = x := by omega
    exact Or.inr ⟨hcx ▸ hdvd, by omega⟩

/-- The block taken at `cur` has the largest size that is aligned there and fits. -/
theorem carveSize_maximal {cur stop k : ℕ} (h0 : 0 < cur) (hle : cur + 8 ≤ stop)
    (hlt : stop < 2 ^ 33)
    (hsize : min (cur &&& (complement cur + 1)) (prevPowerOf2 (stop - cur)) = 8 * 2 ^ k)
    (hdvd : 8 * 2 ^ (k + 1) ∣ cur) : stop < cur + 8 * 2 ^ (k + 1) := by
  have hword : (2 : ℕ) ^ 33 < wordSize := by rw [wordSize]; omega
  obtain ⟨t, ht, -, hmax⟩ := exists_and_complement_succ h0 (by omega)
  have hprev : prevPowerOf2 (stop - cur) = 2 ^ (stop - cur).log2 :=
    shiftLeft_leadingZeros (by omega) (by omega)
  have hpow : 8 * 2 ^ (k + 1) = 2 ^ (k + 4) := by ring
  have hpow' : 8 * 2 ^ k = 2 ^ (k + 3) := by ring
  have htk : k + 4 ≤ t := by
    by_contra hnot
    refine hmax (dvd_trans (Nat.pow_dvd_pow 2 ?_) (hpow ▸ hdvd))
    omega
  have hbig : 2 ^ (k + 3) < 2 ^ t := Nat.pow_lt_pow_right (by omega) (by omega)
  -- so the size was limited by the space
  have hlog : 2 ^ (stop - cur).log2 = 2 ^ (k + 3) := by
    rw [ht, hprev, hpow'] at hsize
    omega
  have hfit : stop - cur < 2 ^ ((stop - cur).log2 + 1) := Nat.lt_log2_self
  rw [pow_succ, hlog] at hfit
  rw [hpow, pow_succ]
  omega

/-- No block of the lists could be of twice its size. -/
def Maximal (stop : ℕ) (s : Sequences) : Prop :=
  ∀ k, ∀ x ∈ s k, 8 * 2 ^ ((k : ℕ) + 1) ∣ x → stop < x + 8 * 2 ^ ((k : ℕ) + 1)

/-- **The carving loop** leaves blocks that cannot be larger, and takes all of the heap
but less than a word. Induction on the fuel. -/
theorem carve_maximal {stop : ℕ} (hlt : stop < 2 ^ 33) :
    ∀ (fuel : ℕ) {s s' : Sequences} {cur total total' : ℕ}, Maximal stop s → 0 < cur →
      8 ∣ cur → total ≤ cur → cur ≤ stop → carve stop fuel s cur total = some (s', total') →
      Maximal stop s' ∧ total' = total + 8 * ((stop - cur) / 8) := by
  intro fuel
  induction fuel with
  | zero =>
      intro s s' cur total total' _ _ _ _ _ hcarve
      simp [carve] at hcarve
  | succ fuel ih =>
      intro s s' cur total total' hmax h0 h8 htot hcur hcarve
      by_cases hmore : cur + 8 ≤ stop
      · obtain ⟨k, hk, hsize, hdvd, hfit⟩ := carveSize_spec h0 h8 hmore hlt
        rw [carve_step h0 hk hmore hlt htot hsize hfit] at hcarve
        have hpush : Maximal stop (FreeLists.push ⟨k, hk⟩ cur s) := by
          intro j x hx hj
          by_cases hjk : j = ⟨k, hk⟩
          · subst hjk
            simp only [FreeLists.push, Function.update_self, List.mem_cons] at hx
            rcases hx with rfl | hx
            · exact carveSize_maximal h0 hmore hlt hsize hj
            · exact hmax _ x hx hj
          · simp only [FreeLists.push, Function.update_of_ne hjk] at hx
            exact hmax j x hx hj
        have h8' : 8 ∣ cur + 8 * 2 ^ k := Nat.dvd_add h8 (Dvd.intro _ rfl)
        obtain ⟨hmax', htotal⟩ := ih hpush (by omega) h8' (by omega) hfit hcarve
        exact ⟨hmax', by omega⟩
      · rw [carve_done (by omega) hlt hcur, Option.some.injEq, Prod.mk.injEq] at hcarve
        obtain ⟨rfl, rfl⟩ := hcarve
        exact ⟨hmax, by omega⟩

/-- Blocks that cannot be larger are no buddies. -/
theorem Maximal.not_buddies {lo hi stop : ℕ} {s : Sequences} {held : List Block}
    (hmax : Maximal stop s) (h : FreeInv lo hi s held) (hle : hi ≤ stop) {b c : Block}
    (hb : b ∈ freeBlocks s) (hc : c ∈ freeBlocks s) : ¬ Buddies b c := by
  -- by symmetry the lower of the two buddies could have been of twice its size
  have hlow : ∀ b ∈ freeBlocks s, ∀ c ∈ freeBlocks s, b.size = c.size →
      2 * b.size ∣ b.addr → c.addr ≠ b.addr + b.size := by
    intro b hb c hc hsize hdvd heq
    obtain ⟨k, x, hx, rfl⟩ := mem_freeBlocks.mp hb
    have hend := (h.tiles.block_le (List.mem_append_left held hc)
      (by rw [← hsize]; exact blockAt_size_pos k x)).2
    have hpow : 8 * 2 ^ ((k : ℕ) + 1) = 2 * (8 * 2 ^ (k : ℕ)) := by ring
    have hlarger := hmax k x hx (hpow ▸ hdvd)
    simp only [blockAt] at hsize heq
    omega
  intro hbuddies
  have hpos : 0 < b.size := by
    obtain ⟨k, x, -, rfl⟩ := mem_freeBlocks.mp hb
    exact blockAt_size_pos k x
  rcases hbuddies.addr hpos with ⟨hdvd, heq⟩ | ⟨hdvd, heq⟩
  · exact hlow b hb c hc hbuddies.1 hdvd heq
  · rw [hbuddies.1] at hdvd heq
    exact hlow c hc b hb hbuddies.1.symm hdvd heq

/-- **The initial carving.** For all bounds, `new` ends without a panic; the blocks in the
lists tile the heap up to its last whole word, each aligned to its size, and no two of
them are buddies. -/
theorem bin_new_carves {start stop : ℕ} (hb : Bounds start stop) (mem : Memory) :
    ∃ a, Allocator.new (MemLists.empty mem) start stop = some a ∧ Carved start stop a := by
  obtain ⟨a, b, ha, hb', hsim⟩ := exists_new hb mem
  have hcarve : ∃ s total, carve stop (stop + 1) (fun _ => [] : Sequences) start 0 =
      some (s, total) ∧ b.list = s ∧ b.total = total := by
    rw [Allocator.new] at hb'
    obtain ⟨⟨s, total⟩, hs, hrest⟩ := Option.bind_eq_some_iff.mp hb'
    rw [checkedSub_eq_some hb.le] at hrest
    simp only [Option.bind_eq_bind, Option.bind_some, Option.some.injEq] at hrest
    subst hrest
    exact ⟨s, total, hs, rfl, rfl⟩
  obtain ⟨s, total, hs, rfl, rfl⟩ := hcarve
  obtain ⟨hmax, htotal⟩ := carve_maximal hb.lt (stop + 1) (s := fun _ => []) (by simp [Maximal])
    hb.pos hb.aligned (Nat.zero_le start) hb.le hs
  have hinv := hsim.lists.inv
  have hcontents : a.list.contents = b.list := hsim.lists.contents_eq
  have htot : a.total = b.total := hsim.total
  refine ⟨a, ha, ?_, ?_, ?_, ?_⟩
  · rw [htot, htotal, Nat.zero_add]
  · rw [hcontents, htot]
    have htiles := hinv.tiles
    rwa [List.map_nil, List.append_nil] at htiles
  · rw [hcontents]
    exact hinv.aligned
  · rw [hcontents]
    exact fun x hx y hy => hmax.not_buddies hinv hsim.inside hx hy

/-- Sixteen bytes from address 16 on are carved into two blocks of one word each. -/
theorem bin_new_carves_two_words :
    Bounds 16 32 ∧ ∃ a, Allocator.new (MemLists.empty fun _ => 0) 16 32 = some a ∧
      Carved 16 32 a :=
  ⟨bounds_two_words, bin_new_carves bounds_two_words _⟩

/-! ### Allocation -/

/-- **What `alloc` does** to an allocator over `[start, stop)`, with the allocator `a'`
after it and the pointer `r`: the lists are read off memory, `i` is the first nonempty
list from the bin of the layout on and `x` the block taken from it. -/
structure AllocExact (start stop : ℕ) (a : Allocator MemLists) (layout : Layout)
    (a' : Allocator MemLists) (r : Option ℕ) : Prop where
  null_iff : r = none ↔ ∀ k : Fin 30, layout.bin ≤ k → a.list.contents k = []
  unchanged : r = none → a' = a
  served : ∀ addr, r = some addr → ∃ (i : Fin 30) (x : ℕ), layout.bin ≤ i ∧
    (∀ k : Fin 30, layout.bin ≤ k → k < i → a.list.contents k = []) ∧
    a.list.contents i = x :: a'.list.contents i ∧
    (∀ k : Fin 30, layout.bin ≤ k → k < i →
      ∃ y, a'.list.contents k = y :: a.list.contents k) ∧
    (∀ k : Fin 30, (k : ℕ) < layout.bin ∨ i < k →
      a'.list.contents k = a.list.contents k) ∧
    layout.align ∣ addr ∧ (start ≤ addr ∧ addr + layout.size ≤ stop) ∧
    x ≤ addr ∧ addr + layout.size ≤ x + 8 * 2 ^ (i : ℕ)

/-- Rounded sizes are multiples of the alignment. -/
theorem Layout.align_dvd_roundedSize (layout : Layout) :
    layout.align ∣ layout.roundedSize := by
  obtain ⟨n, hn⟩ := layout.align_pow
  obtain ⟨k, -, hk⟩ := layout.exists_roundedSize
  have hle : layout.align ≤ layout.roundedSize :=
    le_trans (le_max_left _ _) (le_max_right _ _)
  rw [hn, hk] at hle ⊢
  exact Nat.pow_dvd_pow 2 ((Nat.pow_le_pow_iff_right (by omega)).mp hle)

/-- An `alloc` that returns null leaves the allocator as it is. -/
theorem alloc_null_unchanged {σ : Type} [FreeLists σ] {a a' : Allocator σ} {layout : Layout}
    (h : a.alloc layout = some (a', none)) : a' = a := by
  rw [Allocator.alloc] at h
  split at h
  · simp only [Option.some.injEq, Prod.mk.injEq, and_true] at h
    exact h.symm
  · simp only [Option.bind_eq_bind, Option.bind_eq_some_iff, Option.some.injEq,
      Prod.mk.injEq, reduceCtorEq, and_false, exists_false] at h

/-- The lists that `alloc` leaves: below the bin of the request and above the list that was cut
nothing changes, and each list in between gets one half. -/
theorem cutDown_cases {s : Sequences} {bin i x : ℕ} {t : List ℕ} (k : Fin 30) :
    ((k : ℕ) < bin ∨ i < k → cutDown s bin i x t k = s k) ∧
      (bin ≤ k → (k : ℕ) = i → cutDown s bin i x t k = t) ∧
      (bin ≤ k → (k : ℕ) < i → ∃ y, cutDown s bin i x t k = [y]) := by
  rw [cutDown]
  refine ⟨fun h => if_pos h, fun hbk hki => ?_, fun hbk hki => ?_⟩
  · rw [if_neg (by omega), if_pos hki]
  · exact ⟨_, by rw [if_neg (by omega), if_neg (by omega)]⟩

/-- **`alloc` in a reachable state** returns null or the block that the lists say, and the lists
lose just this block. -/
theorem WorldSim.alloc_exact {start stop : ℕ} {w : World MemLists} {v : World Sequences}
    (h : WorldSim start stop w v) (layout : Layout) :
    ∃ a' r, w.heap.alloc layout = some (a', r) ∧
      AllocExact start stop w.heap layout a' r := by
  obtain ⟨a, b, r, ha, hb, hsim⟩ := h.alloc layout
  have hbefore : w.heap.list.contents = v.heap.list := h.lists.contents_eq
  have hafter : a.list.contents = b.list := hsim.lists.contents_eq
  refine ⟨a, r, ha, ?_⟩
  by_cases hex : ∃ j : Fin 30, layout.bin ≤ j ∧ v.heap.list j ≠ []
  · obtain ⟨i, x, t, hbi, hs, hempty⟩ := exists_first hex
    have hx := h.lists.inv.free_le (show x ∈ v.heap.list i by rw [hs]; exact List.mem_cons_self)
    rw [h.alloc_eq hbi hs hempty, Option.some.injEq, Prod.mk.injEq] at hb
    obtain ⟨rfl, rfl⟩ := hb
    -- the block returned is live from now on, so it is aligned
    have haligned := hsim.live_aligned _ List.mem_cons_self
    refine ⟨iff_of_false (by simp) ?_, by simp, fun addr haddr => ?_⟩
    · intro hall
      have := hall i hbi
      rw [hbefore, hs] at this
      simp at this
    · obtain rfl := Option.some.inj haddr
      have hsize := layout.size_le_roundedSize
      have hpow : 2 ^ layout.bin ≤ 2 ^ (i : ℕ) := Nat.pow_le_pow_right (by omega) hbi
      have hinside := h.inside
      have hcut : a.list.contents = cutDown v.heap.list layout.bin i x t := hafter
      rw [layout.roundedSize_eq] at hsize
      rw [hbefore, hcut]
      refine ⟨i, x, hbi, hempty, ?_, ?_, ?_, ?_, by omega, by omega, by omega⟩
      · rw [hs, (cutDown_cases i).2.1 hbi rfl]
      · intro k hbk hki
        obtain ⟨y, hy⟩ := (cutDown_cases (s := v.heap.list) (x := x) (t := t) k).2.2 hbk hki
        exact ⟨y, by rw [hy, hempty k hbk hki]⟩
      · exact fun k hk => (cutDown_cases k).1 hk
      · exact dvd_trans layout.align_dvd_roundedSize haligned
  · push Not at hex
    rw [alloc_null hex, Option.some.injEq, Prod.mk.injEq] at hb
    obtain ⟨-, rfl⟩ := hb
    exact ⟨iff_of_true rfl (by rw [hbefore]; exact hex), fun _ => alloc_null_unchanged ha,
      by simp⟩

/-- **`alloc`, exactly.** In every reachable state and for every layout, `alloc` does not
panic. It returns null if and only if every list from the bin of the layout on is empty,
and then nothing changes. Otherwise it takes one block from the first nonempty one of
these lists, adds exactly one block to each list between it and the bin, and changes no
other list; the address returned is aligned, and the memory asked for lies in the block
taken and in the heap. -/
theorem bin_alloc_exact {start stop : ℕ} (hb : Bounds start stop) (mem : Memory) :
    ∃ a, Allocator.new (MemLists.empty mem) start stop = some a ∧
      ∀ tr w, Run ⟨a, []⟩ tr w → ∀ layout, ∃ a' r,
        w.heap.alloc layout = some (a', r) ∧ AllocExact start stop w.heap layout a' r := by
  obtain ⟨a, b, ha, -, h₀⟩ := exists_new hb mem
  refine ⟨a, ha, fun tr w hrun layout => ?_⟩
  obtain ⟨v, -, hsim⟩ := run_simulation h₀ hrun
  exact hsim.alloc_exact layout

/-- The second of two blocks is handed out, after the first has been. -/
theorem bin_alloc_exact_two_words :
    ∃ a w, Allocator.new (MemLists.empty fun _ => 0) 16 32 = some a ∧
      Run ⟨a, []⟩ [(.alloc wordLayout, some 24)] w ∧
      ∃ a' r, w.heap.alloc wordLayout = some (a', r) ∧
        AllocExact 16 32 w.heap wordLayout a' r := by
  obtain ⟨a, w, ha, hrun, -, -⟩ := two_words_alloc
  obtain ⟨a', ha', h⟩ := bin_alloc_exact bounds_two_words fun _ => 0
  rw [ha, Option.some.injEq] at ha'
  subst ha'
  exact ⟨a, w, ha, hrun, h _ w hrun wordLayout⟩

/-! ### Deallocation -/

/-- The other half of the block of twice the size. -/
def buddy (ptr bin : ℕ) : ℕ := ptr ^^^ 8 * 2 ^ bin

/-- **What `dealloc` should do** to the lists with a block of bin `b` at `ptr`: a buddy on
the list is taken off and the merged block is put one list up; without one, the block is
put on its list; and no other entry of a list is touched. -/
structure Merges (ptr b : ℕ) (hb : b < 29) (before after : Fin 30 → List ℕ) : Prop where
  merged : buddy ptr b ∈ before ⟨b, by omega⟩ →
    ptr ∉ after ⟨b, by omega⟩ ∧ buddy ptr b ∉ after ⟨b, by omega⟩ ∧
    min ptr (buddy ptr b) ∈ after ⟨b + 1, by omega⟩ ∧
    ∀ (k : Fin 30) (x : ℕ), ((k : ℕ), x) ≠ (b, ptr) → ((k : ℕ), x) ≠ (b, buddy ptr b) →
      ((k : ℕ), x) ≠ (b + 1, min ptr (buddy ptr b)) → (x ∈ after k ↔ x ∈ before k)
  pushed : buddy ptr b ∉ before ⟨b, by omega⟩ → ptr ∈ after ⟨b, by omega⟩ ∧
    ∀ (k : Fin 30) (x : ℕ), ((k : ℕ), x) ≠ (b, ptr) → (x ∈ after k ↔ x ∈ before k)

/-- A push is right exactly when the buddy is not on the list. -/
theorem merges_push_iff {ptr b : ℕ} (hb : b < 29) (s : Sequences) :
    Merges ptr b hb s (FreeLists.push ⟨b, by omega⟩ ptr s) ↔
      buddy ptr b ∉ s ⟨b, by omega⟩ := by
  have hmem : ptr ∈ FreeLists.push ⟨b, by omega⟩ ptr s ⟨b, by omega⟩ := by
    simp [FreeLists.push]
  constructor
  · intro h hbuddy
    exact (h.merged hbuddy).1 hmem
  · intro hno
    refine ⟨fun hbuddy => absurd hbuddy hno, fun _ => ⟨hmem, fun k x hne => ?_⟩⟩
    by_cases hk : k = ⟨b, by omega⟩
    · subst hk
      have hx : x ≠ ptr := fun heq => hne (by rw [heq])
      simp [FreeLists.push, hx]
    · simp only [FreeLists.push, Function.update_of_ne hk]

/-- **When `dealloc` merges as it should.** In every reachable state and for every live
block of a bin below the last, `dealloc` does not panic, and what it does to the lists is
right if and only if the buddy of the block is not on the free list. -/
theorem bin_merges_iff {start stop : ℕ} (hb : Bounds start stop) (mem : Memory) :
    ∃ a, Allocator.new (MemLists.empty mem) start stop = some a ∧
      ∀ tr w, Run ⟨a, []⟩ tr w → ∀ ptr layout, (ptr, layout) ∈ w.live →
        ∀ hbin : layout.bin < 29, ∃ a', w.heap.dealloc ptr layout = some a' ∧
          (Merges ptr layout.bin hbin w.heap.list.contents a'.list.contents ↔
            buddy ptr layout.bin ∉ w.heap.list.contents ⟨layout.bin, by omega⟩) := by
  obtain ⟨a, b, ha, -, h₀⟩ := exists_new hb mem
  refine ⟨a, ha, fun tr w hrun ptr layout hlive hbin => ?_⟩
  obtain ⟨v, -, hsim⟩ := run_simulation h₀ hrun
  rw [hsim.live] at hlive
  obtain ⟨a', b', ha', -, ⟨hbin', hpush⟩, hsim'⟩ := hsim.dealloc hlive
  have hbefore : w.heap.list.contents = v.heap.list := hsim.lists.contents_eq
  have hafter : a'.list.contents = b'.list := hsim'.lists.contents_eq
  refine ⟨a', ha', ?_⟩
  rw [hbefore, hafter, hpush]
  exact merges_push_iff hbin v.heap.list

/-- A heap of two words, after both have been allocated. -/
theorem two_words_full :
    ∃ a w, Allocator.new (MemLists.empty fun _ => 0) 16 32 = some a ∧
      Run ⟨a, []⟩ [(.alloc wordLayout, some 24), (.alloc wordLayout, some 16)] w ∧
      w.heap.list.contents 0 = [] ∧ w.live = [(16, wordLayout), (24, wordLayout)] := by
  refine ⟨_, _, rfl, Run.snoc (Run.snoc Run.nil ?_ rfl) ?_ rfl, rfl, rfl⟩
  · exact Nat.succ_pos 7
  · exact Nat.succ_pos 7

/-- A word comes from the list of the smallest blocks. -/
theorem wordLayout_bin : wordLayout.bin = 0 := by decide

/-- Of two allocated blocks one is given back: its buddy is in use, so nothing merges. -/
theorem bin_merges_two_words :
    ∃ a w a', Allocator.new (MemLists.empty fun _ => 0) 16 32 = some a ∧
      Run ⟨a, []⟩ [(.alloc wordLayout, some 24), (.alloc wordLayout, some 16)] w ∧
      w.heap.dealloc 24 wordLayout = some a' ∧
      Merges 24 wordLayout.bin (by decide) w.heap.list.contents a'.list.contents := by
  obtain ⟨a, w, ha, hrun, hfree, hlive⟩ := two_words_full
  obtain ⟨a₁, ha₁, h⟩ := bin_merges_iff bounds_two_words fun _ => 0
  rw [ha, Option.some.injEq] at ha₁
  subst ha₁
  obtain ⟨a', ha', hiff⟩ := h _ w hrun 24 wordLayout (by simp [hlive]) (by decide)
  refine ⟨a, w, a', ha, hrun, ha', hiff.mpr ?_⟩
  rw [show (⟨wordLayout.bin, _⟩ : Fin 30) = 0 from Fin.ext wordLayout_bin, hfree]
  exact List.not_mem_nil

/-- **The defect**: of the two words of a heap the upper one is live and its buddy, the
lower one, is free. When the upper one is freed too, both stay on the list. -/
theorem buddy_not_merged :
    ∃ a w a', Allocator.new (MemLists.empty fun _ => 0) 16 32 = some a ∧
      Run ⟨a, []⟩ [(.alloc wordLayout, some 24)] w ∧ (24, wordLayout) ∈ w.live ∧
      buddy 24 wordLayout.bin = 16 ∧ w.heap.list.contents 0 = [16] ∧
      w.heap.dealloc 24 wordLayout = some a' ∧ a'.list.contents 0 = [24, 16] ∧
      ¬ Merges 24 wordLayout.bin (by decide) w.heap.list.contents a'.list.contents := by
  refine ⟨_, _, _, rfl, Run.snoc Run.nil (Nat.succ_pos 7) rfl, List.mem_cons_self, by decide,
    rfl, rfl, rfl, fun h => ?_⟩
  exact (h.merged List.mem_cons_self).1 List.mem_cons_self

end OsLabs.Bin
