import OsLabs.BinSequences

/-!
# The Bin Allocator in Memory

The intrusive lists of `OsLabs.Bin` keep their links inside the memory they manage, so
they agree with plain sequences of addresses only as long as nothing else writes to the
first word of a free block. `Sim` is that agreement together with the invariant of
`OsLabs.BinSequences`: each list is a chain through memory with the contents of its
sequence, and free and held blocks tile the heap.

Every list operation has one rule for `Sim`, proved once: the block that is pushed is in
hand, hence disjoint from every free block, so the write to its first word cuts no
chain. The operations of the allocator follow by composing these rules, for memory and
sequences at the same time: both succeed, with the same result, in related states.

## Main results

* `Sim.push`, `Sim.pop`, `Sim.unlink`, `Sim.store`: the rules.
* `Sim.alloc`, `Sim.dealloc`, `exists_new`: the allocator's functions on both sides.
* `WorldSim.step`: one client operation on both sides.
* `run_simulation`: whole histories, from arbitrary initial memory.
-/

namespace OsLabs.Bin

/-! ### No address is free twice -/

/-- All addresses on the 30 lists. -/
def addresses (s : Sequences) : List ℕ := (List.finRange 30).flatMap s

namespace FreeInv

variable {lo hi : ℕ} {s : Sequences} {held : List Block}

/-- No address occurs twice in the union of the lists. -/
theorem nodup (h : FreeInv lo hi s held) : (addresses s).Nodup := by
  have hmap : addresses s = (freeBlocks s).map Block.addr := by
    simp only [addresses, freeBlocks, List.map_flatMap, List.map_map]
    refine List.flatMap_congr fun k _ => ?_
    exact (List.map_id (s k)).symm
  rw [hmap, List.Nodup, List.pairwise_map]
  have hdisj := (List.pairwise_append.mp h.tiles.pairwise_disjoint).1
  refine hdisj.imp_of_mem ?_
  intro b c hb hc hbc haddr
  obtain ⟨j, x, -, rfl⟩ := mem_freeBlocks.mp hb
  obtain ⟨k, y, -, rfl⟩ := mem_freeBlocks.mp hc
  refine Set.disjoint_left.mp hbc (Block.addr_mem (blockAt_size_pos j x)) ?_
  rw [haddr]
  exact Block.addr_mem (blockAt_size_pos k y)

/-- Distinct lists share no address: an address that is in two of them is in one list. -/
theorem eq_of_mem (h : FreeInv lo hi s held) {j k : Fin 30} {a : ℕ} (hj : a ∈ s j)
    (hk : a ∈ s k) : j = k := by
  by_contra hne
  have hsymm : Std.Symm (Function.onFun List.Disjoint s) :=
    ⟨fun _ _ hxy => List.Disjoint.symm hxy⟩
  have hdisj := (List.nodup_flatMap.mp h.nodup).2.forall (List.mem_finRange j)
    (List.mem_finRange k) hne
  exact hdisj hj hk

end FreeInv

/-! ### The simulation relation and its rules -/

/-- **Memory and sequences agree**: list `k` in memory is a null-terminated chain with
the contents of sequence `k`, and the blocks tile the heap. -/
structure Sim (lo hi : ℕ) (m : MemLists) (s : Sequences) (held : List Block) : Prop where
  pos : 0 < lo
  bound : hi < wordSize
  chain : ∀ k, Chain m.mem (m.head k).head (s k)
  inv : FreeInv lo hi s held

namespace Sim

variable {lo hi : ℕ} {m : MemLists} {s : Sequences} {held : List Block}

/-- Both sides push a block that was held, and stay related without it. -/
theorem push {k : Fin 30} {a : ℕ} (h : Sim lo hi m s (blockAt k a :: held))
    (ha : 8 * 2 ^ (k : ℕ) ∣ a) :
    Sim lo hi (FreeLists.push k a m) (FreeLists.push k a s) held := by
  refine ⟨h.pos, h.bound, fun j => ?_, h.inv.push ha⟩
  have hmem : a ∈ blockAt k a := Block.addr_mem (blockAt_size_pos k a)
  have h0 : a ≠ 0 := by
    have hle := (h.inv.held_le List.mem_cons_self (blockAt_size_pos k a)).1
    have hpos := h.pos
    simp only [blockAt] at hle
    omega
  by_cases hj : j = k
  · subst hj
    simp only [FreeLists.push, Function.update_self]
    exact (h.chain j).push h0 (h.inv.notMem hmem j)
  · simp only [FreeLists.push, Function.update_of_ne hj]
    exact (h.chain j).write (h.inv.notMem hmem j) _

/-- Both sides pop the same block, which is held from then on. -/
theorem pop {k : Fin 30} {a : ℕ} {l : List ℕ} (h : Sim lo hi m s held)
    (hk : s k = a :: l) :
    ∃ m', FreeLists.pop k m = some (a, m') ∧
      Sim lo hi m' (Function.update s k l) (blockAt k a :: held) := by
  have hchain := h.chain k
  rw [hk] at hchain
  refine ⟨⟨Function.update m.head k ⟨m.mem a⟩, m.mem⟩, ?_, h.pos, h.bound, fun j => ?_,
    (h.inv.pop hk).1⟩
  · simp only [FreeLists.pop, hchain.pop_cons]
    rfl
  · by_cases hj : j = k
    · subst hj
      simp only [Function.update_self]
      exact (Chain.cons_iff.mp hchain).2.2
    · simp only [Function.update_of_ne hj]
      exact h.chain j

/-- Both sides see the same first block. -/
theorem peek (h : Sim lo hi m s held) (k : Fin 30) :
    FreeLists.peek k m = FreeLists.peek k s :=
  (h.chain k).peek

/-- A list has fewer nodes than there are addresses. -/
theorem length_lt (h : Sim lo hi m s held) (k : Fin 30) : (s k).length < wordSize := by
  have hn : (s k).Nodup := (List.nodup_flatMap.mp h.inv.nodup).1 k (List.mem_finRange k)
  have hsub : (s k).toFinset ⊆ Finset.range hi := by
    intro a ha
    have hle := (h.inv.free_le (List.mem_toFinset.mp ha)).2
    have := Nat.two_pow_pos (k : ℕ)
    rw [Finset.mem_range]
    omega
  have hcard := Finset.card_le_card hsub
  rw [List.toFinset_card_of_nodup hn, Finset.card_range] at hcard
  exact lt_of_le_of_lt hcard h.bound

/-- The contents read off memory are the sequences. -/
theorem contents_eq (h : Sim lo hi m s held) : m.contents = s := by
  funext k
  exact (h.chain k).iter (h.length_lt k)

/-- A search for an address that is not on the list finds nothing on either side. -/
theorem unlink {k : Fin 30} {a : ℕ} (h : Sim lo hi m s held) (ha : a ∉ s k) :
    ∃ m', FreeLists.unlink k a m = some (false, m') ∧
      FreeLists.unlink k a s = some (false, s) ∧ Sim lo hi m' s held := by
  have hn : (s k).Nodup := (List.nodup_flatMap.mp h.inv.nodup).1 k (List.mem_finRange k)
  obtain ⟨L', mem', heq, hun⟩ := (h.chain k).unlinkLoop_spec hn (h.length_lt k) a
  refine ⟨⟨Function.update m.head k L', mem'⟩, ?_, ?_, h.pos, h.bound, fun j => ?_, h.inv⟩
  · simp only [FreeLists.unlink, heq, ha]
    rfl
  · simp [FreeLists.unlink, ha]
  · by_cases hj : j = k
    · subst hj
      have hchain := hun.chain
      rw [List.erase_of_not_mem ha] at hchain
      simpa using hchain
    · simp only [Function.update_of_ne hj]
      refine chain_congr (h.chain j) fun b hb => ?_
      exact hun.frame b fun hbk => hj (h.inv.eq_of_mem hb hbk)

/-- A write into a held block is invisible to the lists. -/
theorem store {b : Block} (h : Sim lo hi m s (b :: held)) {a : ℕ} (ha : a ∈ b) (v : ℕ) :
    Sim lo hi (FreeLists.store a v m) s (b :: held) :=
  ⟨h.pos, h.bound, fun j => (h.chain j).write (h.inv.notMem ha j) v, h.inv⟩

/-- The order in which the held blocks are listed does not matter. -/
theorem perm {held' : List Block} (h : Sim lo hi m s held) (hp : held.Perm held') :
    Sim lo hi m s held' :=
  ⟨h.pos, h.bound, h.chain, h.inv.perm hp⟩

/-! ### The allocator's functions on both sides -/

/-- One turn of the splitting loop on both sides. -/
theorem splitBlock {j : ℕ} (hj : j + 1 < 30) (h : Sim lo hi m s held)
    (hne : s ⟨j + 1, hj⟩ ≠ []) :
    ∃ m' s', Bin.splitBlock (j + 1) m = some m' ∧ Bin.splitBlock (j + 1) s = some s' ∧
      Sim lo hi m' s' held ∧ s' ⟨j, by omega⟩ ≠ [] := by
  obtain ⟨a, l, hs⟩ := List.exists_cons_of_ne_nil hne
  obtain ⟨m₁, hpop, hsim⟩ := h.pop hs
  have hbound : a + 8 * 2 ^ (j + 1) < wordSize :=
    lt_of_le_of_lt (h.inv.free_le (by rw [hs]; exact List.mem_cons_self)).2 h.bound
  obtain ⟨q, hq⟩ : 8 * 2 ^ (j + 1) ∣ a := (h.inv.pop hs).2
  have hlow : 8 * 2 ^ j ∣ a := ⟨2 * q, by rw [hq, pow_succ]; ring⟩
  have hhigh : 8 * 2 ^ j ∣ a + 8 * 2 ^ j := Nat.dvd_add_self_right.mpr hlow
  -- cut the block in hand and push the lower half, then the upper half
  have hcut : Sim lo hi m₁ (Function.update s ⟨j + 1, hj⟩ l)
      (blockAt ⟨j, by omega⟩ a :: blockAt ⟨j, by omega⟩ (a + 8 * 2 ^ j) :: held) := by
    refine ⟨h.pos, h.bound, hsim.chain, FreeInv.cut ?_⟩
    have hsize : blockAt ⟨j + 1, hj⟩ a = ⟨a, 8 * 2 ^ j + 8 * 2 ^ j⟩ := by
      simp only [blockAt, Block.mk.injEq, true_and]
      ring
    rw [← hsize]
    exact hsim.inv
  refine ⟨_, _, splitBlock_eq hj hpop hbound, splitBlock_eq hj (pop_eq_some hs) hbound,
    (hcut.push hlow).push hhigh, ?_⟩
  simp [FreeLists.push]

/-- The splitting loop does the same on both sides: each turn pushes one half and goes on with the
other. -/
theorem splitDown {bin : ℕ} :
    ∀ (n : ℕ) (hn : bin + n < 30) {m : MemLists} {s : Sequences}, Sim lo hi m s held →
      s ⟨bin + n, hn⟩ ≠ [] →
      ∃ m' s', Bin.splitDown bin n m = some m' ∧ Bin.splitDown bin n s = some s' ∧
        Sim lo hi m' s' held ∧ s' ⟨bin, Nat.lt_of_le_of_lt (Nat.le_add_right bin n) hn⟩ ≠ [] := by
  intro n
  induction n with
  | zero =>
      intro hn m s h hne
      exact ⟨m, s, rfl, rfl, h, hne⟩
  | succ n ih =>
      intro hn m s h hne
      obtain ⟨m₁, s₁, hm₁, hs₁, hsim₁, hne₁⟩ := h.splitBlock (j := bin + n) hn hne
      obtain ⟨m₂, s₂, hm₂, hs₂, hsim₂, hne₂⟩ := ih (by omega) hsim₁ hne₁
      refine ⟨m₂, s₂, ?_, ?_, hsim₂, hne₂⟩
      · rw [Bin.splitDown]
        exact (congrArg (· >>= Bin.splitDown bin n) hm₁).trans hm₂
      · rw [Bin.splitDown]
        exact (congrArg (· >>= Bin.splitDown bin n) hs₁).trans hs₂

/-- Both sides stop at the same list. -/
theorem firstNonempty (h : Sim lo hi m s held) (bin : ℕ) :
    Bin.firstNonempty bin m = Bin.firstNonempty bin s := by
  simp only [Bin.firstNonempty, h.peek]

/-- The held blocks fit into the heap. -/
theorem sum_held_le (h : Sim lo hi m s held) : (held.map Block.size).sum ≤ hi - lo := by
  have hsum := h.inv.tiles.sum_size
  rw [List.map_append, List.sum_append] at hsum
  omega

/-- The carving loop on both sides, from any point of the heap. Induction on the fuel,
which exceeds the number of bytes left. -/
theorem carve {start stop : ℕ} (hlt : stop < 2 ^ 33) :
    ∀ (fuel : ℕ) {m : MemLists} {s : Sequences} {cur total : ℕ},
      Sim start cur m s [] → 8 ∣ cur → start + total = cur → cur ≤ stop →
      stop - cur < fuel →
      ∃ m' s' total', Bin.carve stop fuel m cur total = some (m', total') ∧
        Bin.carve stop fuel s cur total = some (s', total') ∧
        Sim start (start + total') m' s' [] ∧ start + total' ≤ stop := by
  intro fuel
  induction fuel with
  | zero =>
      intro m s cur total _ _ _ _ hfuel
      omega
  | succ fuel ih =>
      intro m s cur total h h8 htot hcur hfuel
      have h0 : 0 < cur := by have := h.pos; omega
      by_cases hmore : cur + 8 ≤ stop
      · obtain ⟨k, hk, hsize, hdvd, hfit⟩ := carveSize_spec h0 h8 hmore hlt
        have hpos := Nat.two_pow_pos k
        have htaken : Sim start (cur + 8 * 2 ^ k) m s [blockAt ⟨k, hk⟩ cur] := by
          refine ⟨h.pos, ?_, h.chain, ?_, h.inv.aligned⟩
          · rw [wordSize]
            omega
          · have htiles := h.inv.tiles.append_block (s := 8 * 2 ^ k) (by omega)
            rw [List.append_nil] at htiles
            exact htiles.perm (List.perm_append_singleton _ _).symm
        have h8' : 8 ∣ cur + 8 * 2 ^ k := Nat.dvd_add h8 (Dvd.intro _ rfl)
        rw [carve_step h0 hk hmore hlt (by omega) hsize hfit,
          carve_step h0 hk hmore hlt (by omega) hsize hfit]
        exact ih (htaken.push hdvd) h8' (by omega) hfit (by omega)
      · refine ⟨m, s, total, carve_done (by omega) hlt hcur, carve_done (by omega) hlt hcur,
          ?_, by omega⟩
        rw [htot]
        exact h

end Sim

/-! ### Histories on both sides -/

/-- **Related worlds**: the lists agree, the bookkeeping is equal, and `allocated` is the
sum of the rounded sizes of the live blocks, each aligned to its rounded size. -/
structure WorldSim (start stop : ℕ) (w : World MemLists) (v : World Sequences) :
    Prop where
  lists : Sim start (start + v.heap.total) w.heap.list v.heap.list (v.live.map liveBlock)
  inside : start + v.heap.total ≤ stop
  live : w.live = v.live
  allocated : w.heap.allocated = v.heap.allocated
  total : w.heap.total = v.heap.total
  accounted : v.heap.allocated = (v.live.map fun b => b.2.roundedSize).sum
  live_aligned : ∀ b ∈ v.live, b.2.roundedSize ∣ b.1
  live_bin : ∀ b ∈ v.live, b.2.bin < 30

/-- `new` succeeds on both sides, from arbitrary memory contents. -/
theorem exists_new {start stop : ℕ} (hb : Bounds start stop) (mem : Memory) :
    ∃ a b, Allocator.new (MemLists.empty mem) start stop = some a ∧
      Allocator.new (fun _ => [] : Sequences) start stop = some b ∧
      WorldSim start stop ⟨a, []⟩ ⟨b, []⟩ := by
  have hempty : Sim start start (MemLists.empty mem) (fun _ => []) [] := by
    refine ⟨hb.pos, ?_, fun _ => Chain.nil, ?_, ?_⟩
    · have := hb.le
      have := hb.lt
      rw [wordSize]
      omega
    · have hnil : freeBlocks (fun _ => []) = [] := by simp [freeBlocks]
      rw [hnil]
      exact tiles_nil start
    · simp
  obtain ⟨m, s, total, hm, hs, hsim, hle⟩ := Sim.carve hb.lt (stop + 1) hempty hb.aligned
    (Nat.add_zero start) hb.le (by omega)
  refine ⟨⟨m, 0, stop - start, total⟩, ⟨s, 0, stop - start, total⟩, ?_, ?_,
    ⟨hsim, hle, rfl, rfl, rfl, rfl, by simp, by simp⟩⟩
  · rw [Allocator.new, hm]
    simp [checkedSub_eq_some hb.le]
  · rw [Allocator.new, hs]
    simp [checkedSub_eq_some hb.le]

namespace WorldSim

variable {start stop : ℕ} {w : World MemLists} {v : World Sequences}

/-- Handing out the block in hand: the new live block is accounted for on both sides. -/
theorem handOut (h : WorldSim start stop w v) {layout : Layout} {ptr : ℕ} {m : MemLists}
    {s : Sequences} (hbin : layout.bin < 30) (hptr : layout.roundedSize ∣ ptr)
    (hsim : Sim start (start + v.heap.total) m s
      (⟨ptr, layout.roundedSize⟩ :: v.live.map liveBlock)) :
    WorldSim start stop
      ⟨{ w.heap with list := m, allocated := w.heap.allocated + layout.roundedSize },
        (ptr, layout) :: w.live⟩
      ⟨{ v.heap with list := s, allocated := v.heap.allocated + layout.roundedSize },
        (ptr, layout) :: v.live⟩ where
  lists := hsim
  inside := h.inside
  live := by rw [h.live]
  allocated := by simp [h.allocated]
  total := h.total
  accounted := by
    simp only [List.map_cons, List.sum_cons, h.accounted]
    omega
  live_aligned := by
    intro b hb
    rcases List.mem_cons.mp hb with rfl | hb
    · exact hptr
    · exact h.live_aligned b hb
  live_bin := by
    intro b hb
    rcases List.mem_cons.mp hb with rfl | hb
    · exact hbin
    · exact h.live_bin b hb

/-- There is room to account for a block about to be cut from a free one. -/
theorem allocated_add_lt (h : WorldSim start stop w v) {layout : Layout} {i : Fin 30}
    (hbi : layout.bin ≤ i) (hi : v.heap.list i ≠ []) :
    v.heap.allocated + layout.roundedSize < wordSize := by
  obtain ⟨x, t, hs⟩ := List.exists_cons_of_ne_nil hi
  obtain ⟨m', -, hsim⟩ := h.lists.pop hs
  have hsum : (8 * 2 ^ (i : ℕ) :: (v.live.map liveBlock).map Block.size).sum ≤
      start + v.heap.total - start := hsim.sum_held_le
  have hmap : (v.live.map liveBlock).map Block.size =
      v.live.map fun b => b.2.roundedSize := by
    rw [List.map_map]
    rfl
  have hbound := h.lists.bound
  have hle : 2 ^ layout.bin ≤ 2 ^ (i : ℕ) := Nat.pow_le_pow_right (by omega) hbi
  rw [List.sum_cons, hmap, ← h.accounted] at hsum
  rw [layout.roundedSize_eq]
  omega

/-- **`alloc` on both sides**: both succeed, with the same pointer. -/
theorem alloc (h : WorldSim start stop w v) (layout : Layout) :
    ∃ a b r, w.heap.alloc layout = some (a, r) ∧ v.heap.alloc layout = some (b, r) ∧
      WorldSim start stop ⟨a, addLive w.live layout r⟩ ⟨b, addLive v.live layout r⟩ := by
  cases hfirst : firstNonempty layout.bin v.heap.list with
  | none =>
      refine ⟨w.heap, v.heap, none, ?_, ?_, h⟩
      · rw [Allocator.alloc, h.lists.firstNonempty, hfirst]
      · rw [Allocator.alloc, hfirst]
  | some i =>
      have hi := List.find?_some hfirst
      rw [Bool.and_eq_true, decide_eq_true_eq] at hi
      obtain ⟨hbi, hpeek⟩ := hi
      have hbin : layout.bin < 30 := lt_of_le_of_lt hbi i.isLt
      have hne : v.heap.list i ≠ [] := by
        intro hnil
        simp [FreeLists.peek, hnil] at hpeek
      have hidx : layout.bin + ((i : ℕ) - layout.bin) = i := by omega
      have hlt : layout.bin + ((i : ℕ) - layout.bin) < 30 := by omega
      obtain ⟨m₁, s₁, hm₁, hs₁, hsim₁, hne₁⟩ :=
        h.lists.splitDown ((i : ℕ) - layout.bin) hlt
          (by simpa only [hidx, Fin.eta] using hne)
      obtain ⟨a, l, hs⟩ := List.exists_cons_of_ne_nil hne₁
      obtain ⟨m₂, hpop, hsim₂⟩ := hsim₁.pop hs
      have hblock : blockAt ⟨layout.bin, hbin⟩ a = ⟨a, layout.roundedSize⟩ := by
        rw [layout.roundedSize_eq, blockAt]
      have hdvd : layout.roundedSize ∣ a := by
        rw [layout.roundedSize_eq]
        exact (hsim₁.inv.pop hs).2
      rw [hblock] at hsim₂
      have hroom := h.allocated_add_lt hbi hne
      refine ⟨_, _, some a, ?_, ?_, h.handOut hbin hdvd hsim₂⟩
      · rw [Allocator.alloc, h.lists.firstNonempty, hfirst]
        simp [hm₁, h.allocated, checkedAdd_eq_some hroom, slot_eq_some hbin, hpop]
      · rw [Allocator.alloc, hfirst]
        simp [hs₁, checkedAdd_eq_some hroom, slot_eq_some hbin, pop_eq_some hs]

/-- **`dealloc` on both sides** of a live block: both succeed, and neither merges. -/
theorem dealloc (h : WorldSim start stop w v) {ptr : ℕ} {layout : Layout}
    (hlive : (ptr, layout) ∈ v.live) :
    ∃ a b, w.heap.dealloc ptr layout = some a ∧ v.heap.dealloc ptr layout = some b ∧
      (∃ hbin : layout.bin < 30,
        b.list = FreeLists.push ⟨layout.bin, hbin⟩ ptr v.heap.list) ∧
      WorldSim start stop ⟨a, w.live.erase (ptr, layout)⟩
        ⟨b, v.live.erase (ptr, layout)⟩ := by
  have hbin : layout.bin < 30 := h.live_bin (ptr, layout) hlive
  have hperm := List.perm_cons_erase hlive
  have hdvd : 8 * 2 ^ layout.bin ∣ ptr := by
    rw [← layout.roundedSize_eq]
    exact h.live_aligned (ptr, layout) hlive
  -- the freed block is one of the held blocks: bring it to the front and push it
  have hheld : Sim start (start + v.heap.total) w.heap.list v.heap.list
      (blockAt ⟨layout.bin, hbin⟩ ptr :: (v.live.erase (ptr, layout)).map liveBlock) := by
    have hp := hperm.map liveBlock
    rw [List.map_cons, liveBlock, layout.roundedSize_eq] at hp
    exact h.lists.perm hp
  have hpushed := hheld.push hdvd
  obtain ⟨m₁, hm₁, hs₁, hsim₁⟩ :=
    hpushed.unlink (pairAddr_notMem hpushed.inv (k := ⟨layout.bin, hbin⟩) hdvd)
  have hsum : v.heap.allocated = layout.roundedSize +
      ((v.live.erase (ptr, layout)).map fun b => b.2.roundedSize).sum := by
    rw [h.accounted, (hperm.map fun b => b.2.roundedSize).sum_eq, List.map_cons,
      List.sum_cons]
  have hle : layout.roundedSize ≤ v.heap.allocated := by omega
  refine ⟨{ w.heap with list := m₁, allocated := v.heap.allocated - layout.roundedSize },
    { v.heap with list := FreeLists.push ⟨layout.bin, hbin⟩ ptr v.heap.list,
                  allocated := v.heap.allocated - layout.roundedSize },
    ?_, ?_, ⟨hbin, rfl⟩, ⟨hsim₁, h.inside, ?_, rfl, h.total, ?_, ?_, ?_⟩⟩
  · rw [Allocator.dealloc, slot_eq_some hbin]
    simp [hm₁, h.allocated, checkedSub_eq_some hle]
  · rw [Allocator.dealloc, slot_eq_some hbin]
    simp [hs₁, checkedSub_eq_some hle]
  · rw [h.live]
  · simp only
    omega
  · intro b hb
    exact h.live_aligned b (List.mem_of_mem_erase hb)
  · intro b hb
    exact h.live_bin b (List.mem_of_mem_erase hb)

/-- A legal write leaves the worlds related. -/
theorem write (h : WorldSim start stop w v) {addr : ℕ} (value : ℕ)
    (hlegal : (Op.write addr value).Legal v.live) :
    WorldSim start stop
      ⟨{ w.heap with list := FreeLists.store (8 * (addr / 8)) value w.heap.list }, w.live⟩
      v := by
  obtain ⟨b, hb, hle, hlt⟩ := hlegal
  have h8 : 8 ∣ b.1 :=
    dvd_trans (Dvd.intro _ b.2.roundedSize_eq.symm) (h.live_aligned b hb)
  have hsize := b.2.size_le_roundedSize
  have hmem : 8 * (addr / 8) ∈ liveBlock b := by
    rw [Block.mem_def, liveBlock]
    simp only
    omega
  have hperm := (List.perm_cons_erase hb).map liveBlock
  rw [List.map_cons] at hperm
  exact { h with lists := ((h.lists.perm hperm).store hmem value).perm hperm.symm }

/-- **One client operation on both sides**: every legal operation succeeds, with the
same result, and leaves the worlds related. -/
theorem step (h : WorldSim start stop w v) {op : Op} (hlegal : op.Legal v.live) :
    ∃ w' v' r, w.step op = some (w', r) ∧ v.step op = some (v', r) ∧
      WorldSim start stop w' v' := by
  cases op with
  | alloc layout =>
      obtain ⟨a, b, r, ha, hb, hsim⟩ := h.alloc layout
      exact ⟨_, _, r, by simp [World.step, ha], by simp [World.step, hb], hsim⟩
  | dealloc ptr layout =>
      obtain ⟨a, b, ha, hb, -, hsim⟩ := h.dealloc hlegal
      exact ⟨_, _, none, by simp [World.step, ha], by simp [World.step, hb], hsim⟩
  | write addr value =>
      exact ⟨_, _, none, rfl, rfl, h.write value hlegal⟩

end WorldSim

/-- **Whole histories**: a history in memory is a history on sequences with the same
operations and the same results, in related worlds throughout. -/
theorem run_simulation {start stop : ℕ} {w₀ w : World MemLists} {v₀ : World Sequences}
    {tr : List (Op × Option ℕ)} (h₀ : WorldSim start stop w₀ v₀) (hrun : Run w₀ tr w) :
    ∃ v, Run v₀ tr v ∧ WorldSim start stop w v := by
  induction hrun with
  | nil => exact ⟨v₀, Run.nil, h₀⟩
  | snoc _ hlegal hstep ih =>
      obtain ⟨v, hv, hsim⟩ := ih
      rw [hsim.live] at hlegal
      obtain ⟨w', v', r, hw', hv', hsim'⟩ := hsim.step hlegal
      rw [hstep, Option.some.injEq, Prod.mk.injEq] at hw'
      obtain ⟨rfl, rfl⟩ := hw'
      exact ⟨v', Run.snoc hv hlegal hv', hsim'⟩

/-! ### The tiling and refinement theorems -/

/-- **The tiling invariant**, read off memory: free and live blocks are pairwise disjoint
and cover exactly the heap, all are aligned to their size, and `allocated` is the sum of
the rounded sizes of the live blocks. -/
structure Tiled (start : ℕ) (w : World MemLists) : Prop where
  disjoint : (freeBlocks w.heap.list.contents ++ w.live.map liveBlock).Pairwise
    fun b c => Disjoint b.toSet c.toSet
  covers : ∀ x, (∃ b ∈ freeBlocks w.heap.list.contents ++ w.live.map liveBlock, x ∈ b) ↔
    start ≤ x ∧ x < start + w.heap.total
  free_aligned : ∀ k, ∀ a ∈ w.heap.list.contents k, 8 * 2 ^ (k : ℕ) ∣ a
  live_aligned : ∀ b ∈ w.live, b.2.roundedSize ∣ b.1
  accounted : w.heap.allocated = (w.live.map fun b => b.2.roundedSize).sum

/-- Related worlds are tiled, since the abstract invariant speaks of the same blocks. -/
theorem WorldSim.tiled {start stop : ℕ} {w : World MemLists} {v : World Sequences}
    (h : WorldSim start stop w v) : Tiled start w := by
  have hcontents := h.lists.contents_eq
  have htiles := h.lists.inv.tiles
  rw [← hcontents, ← h.live, ← h.total] at htiles
  exact ⟨htiles.pairwise_disjoint, htiles.exists_mem_iff,
    by rw [hcontents]; exact h.lists.inv.aligned,
    by rw [h.live]; exact h.live_aligned,
    by rw [h.allocated, h.live]; exact h.accounted⟩

/-- **The tiling theorem.** `new` succeeds, and after every history of legal calls the
heap is tiled by its free and live blocks; every further legal call succeeds, so in
particular `allocated -= size` never underflows. -/
theorem bin_tiling {start stop : ℕ} (hb : Bounds start stop) (mem : Memory) :
    ∃ a, Allocator.new (MemLists.empty mem) start stop = some a ∧
      ∀ tr w, Run ⟨a, []⟩ tr w →
        Tiled start w ∧
        (∀ layout, ∃ r, w.heap.alloc layout = some r) ∧
        (∀ b ∈ w.live, b.2.roundedSize ≤ w.heap.allocated ∧
          ∃ a', w.heap.dealloc b.1 b.2 = some a') := by
  obtain ⟨a, b, ha, -, h₀⟩ := exists_new hb mem
  refine ⟨a, ha, fun tr w hrun => ?_⟩
  obtain ⟨v, -, hsim⟩ := run_simulation h₀ hrun
  refine ⟨hsim.tiled, fun layout => ?_, fun c hc => ⟨?_, ?_⟩⟩
  · obtain ⟨a', _, r, ha', -, -⟩ := hsim.alloc layout
    exact ⟨(a', r), ha'⟩
  · rw [hsim.tiled.accounted]
    exact List.single_le_sum (by simp) _ (List.mem_map_of_mem hc)
  · rw [hsim.live] at hc
    obtain ⟨a', _, ha', -, -, -⟩ := hsim.dealloc hc
    exact ⟨a', ha'⟩

/-- The request for one word. -/
def wordLayout : Layout := ⟨8, 8, ⟨3, rfl⟩, by omega⟩

/-- The bounds of a heap of two words. -/
theorem bounds_two_words : Bounds 16 32 := ⟨by omega, by omega, by omega, by omega⟩

/-- A heap of two words, after one word has been allocated. -/
theorem two_words_alloc :
    ∃ a w, Allocator.new (MemLists.empty fun _ => 0) 16 32 = some a ∧
      Run ⟨a, []⟩ [(.alloc wordLayout, some 24)] w ∧
      w.heap.list.contents 0 = [16] ∧ w.live = [(24, wordLayout)] := by
  refine ⟨_, _, rfl, Run.snoc Run.nil ?_ rfl, rfl, rfl⟩
  exact Nat.succ_pos 7

/-- One of two blocks is handed out; the free list has the other one. -/
theorem bin_tiling_two_words :
    ∃ a w, Allocator.new (MemLists.empty fun _ => 0) 16 32 = some a ∧
      Run ⟨a, []⟩ [(.alloc wordLayout, some 24)] w ∧
      w.heap.list.contents 0 = [16] ∧ w.live = [(24, wordLayout)] ∧ Tiled 16 w := by
  obtain ⟨a, w, ha, hrun, hfree, hlive⟩ := two_words_alloc
  obtain ⟨a', ha', h⟩ := bin_tiling bounds_two_words fun _ => 0
  rw [ha, Option.some.injEq] at ha'
  subst ha'
  exact ⟨a, w, ha, hrun, hfree, hlive, (h _ w hrun).1⟩

/-- **The refinement theorem.** From arbitrary memory contents, every history of legal
calls and client writes leaves each list a null-terminated chain through memory, no
address on the lists twice, and is matched by the same history, with the same results,
on 30 plain sequences with the same contents; and so is every further legal call. -/
theorem bin_lists_refine_sequences {start stop : ℕ} (hb : Bounds start stop)
    (mem : Memory) :
    ∃ a b, Allocator.new (MemLists.empty mem) start stop = some a ∧
      Allocator.new (fun _ => [] : Sequences) start stop = some b ∧
      ∀ tr w, Run ⟨a, []⟩ tr w →
        ∃ v, Run ⟨b, []⟩ tr v ∧ w.live = v.live ∧
          (∀ k, Chain w.heap.list.mem (w.heap.list.head k).head (v.heap.list k)) ∧
          (addresses v.heap.list).Nodup ∧
          ∀ op : Op, op.Legal w.live →
            ∃ w' v' r, w.step op = some (w', r) ∧ v.step op = some (v', r) ∧
              ∀ k, Chain w'.heap.list.mem (w'.heap.list.head k).head (v'.heap.list k) := by
  obtain ⟨a, b, ha, hb', h₀⟩ := exists_new hb mem
  refine ⟨a, b, ha, hb', fun tr w hrun => ?_⟩
  obtain ⟨v, hv, hsim⟩ := run_simulation h₀ hrun
  refine ⟨v, hv, hsim.live, hsim.lists.chain, hsim.lists.inv.nodup, fun op hop => ?_⟩
  rw [hsim.live] at hop
  obtain ⟨w', v', r, hw', hv', hsim'⟩ := hsim.step hop
  exact ⟨w', v', r, hw', hv', hsim'.lists.chain⟩

/-- A heap of two words full of ones, after one word has been allocated, overwritten and
freed. -/
theorem two_words_write :
    ∃ a w, Allocator.new (MemLists.empty fun _ => 1) 16 32 = some a ∧
      Run ⟨a, []⟩ [(.alloc wordLayout, some 24), (.write 27 5, none),
        (.dealloc 24 wordLayout, none)] w ∧ w.heap.list.contents 0 = [24, 16] := by
  refine ⟨_, _, rfl, Run.snoc (Run.snoc (Run.snoc Run.nil ?_ rfl) ?_ rfl) ?_ rfl, rfl⟩
  · exact Nat.succ_pos 7
  · exact ⟨(24, wordLayout), List.mem_cons_self, by decide, by decide⟩
  · exact List.mem_cons_self

/-- A client takes a block, writes to its last byte and gives it back; both allocators agree. -/
theorem bin_lists_refine_sequences_two_words :
    ∃ (a : Allocator MemLists) (b : Allocator Sequences) (w : World MemLists)
      (v : World Sequences),
      Allocator.new (MemLists.empty fun _ => 1) 16 32 = some a ∧
      Run ⟨a, []⟩ [(.alloc wordLayout, some 24), (.write 27 5, none),
        (.dealloc 24 wordLayout, none)] w ∧
      Run ⟨b, []⟩ [(.alloc wordLayout, some 24), (.write 27 5, none),
        (.dealloc 24 wordLayout, none)] v ∧
      w.heap.list.contents 0 = [24, 16] ∧
      Chain w.heap.list.mem (w.heap.list.head 0).head (v.heap.list 0) := by
  obtain ⟨a, w, ha, hrun, hfree⟩ := two_words_write
  obtain ⟨a', b, ha', -, h⟩ := bin_lists_refine_sequences bounds_two_words fun _ => 1
  rw [ha, Option.some.injEq] at ha'
  subst ha'
  obtain ⟨v, hv, -, hchain, -⟩ := h _ w hrun
  exact ⟨a, b, w, v, ha, hrun, hv, hfree, hchain 0⟩

end OsLabs.Bin
