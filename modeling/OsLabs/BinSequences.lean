import OsLabs.Bin
import OsLabs.Tiling

/-!
# The Bin Allocator on Sequences

The allocator of `OsLabs.Bin` run on 30 plain sequences of addresses: the abstract
behaviour of the free lists, with no memory and no links. Everything the allocator
promises about blocks is proved here, by one invariant.

`FreeInv lo hi s held` says that the free blocks of `s` together with the blocks `held`
outside the lists tile `[lo, hi)`, and that every free block is aligned to its size. The
held blocks are the clients' blocks and, in the middle of an operation, the block in
hand, so each list operation has one rule: `pop` moves a block from the lists to the
hand, `push` moves it back, and a block in hand can be cut in two.

## Main results

* `Layout.roundedSize_eq`: the rounded size of a layout is the block size of its bin.
* `FreeInv.push`, `FreeInv.pop`, `FreeInv.cut`: the three rules.
* `carve_inv`: `new` leaves a tiling of the heap.
* `splitDown_spec` and `FreeInv.splitDown`: the splitting loop, exactly and up to the
  invariant.
* `pairAddr_notMem`: **the pair address is never on the free list**, so `dealloc` never
  merges.
-/

namespace OsLabs.Bin

/-! ### Layouts and bins -/

/-- Rounded sizes are powers of two, at least `8` and at most `2 ^ 63`. -/
theorem Layout.exists_roundedSize (layout : Layout) :
    ∃ k, k ≤ 60 ∧ layout.roundedSize = 2 ^ (k + 3) := by
  obtain ⟨a, ha⟩ := layout.align_pow
  have hle := layout.size_add_align_le
  have ha63 : a ≤ 63 := by
    by_contra h
    have : 2 ^ 64 ≤ 2 ^ a := Nat.pow_le_pow_right (by omega) (by omega)
    omega
  obtain ⟨n, hn, hn63⟩ : ∃ n, nextPowerOfTwo layout.size = 2 ^ n ∧ n ≤ 63 := by
    by_cases h1 : layout.size ≤ 1
    · exact ⟨0, by rw [nextPowerOfTwo, if_pos h1]; rfl, by omega⟩
    · refine ⟨(layout.size - 1).log2 + 1, by rw [nextPowerOfTwo, if_neg h1], ?_⟩
      have : (layout.size - 1).log2 < 63 := (Nat.log2_lt (by omega)).mpr (by omega)
      omega
  have hmax : ∀ x y : ℕ, max (2 ^ x) (2 ^ y) = 2 ^ max x y := fun x y =>
    ((pow_right_mono₀ one_le_two).map_max).symm
  refine ⟨max n (max a 3) - 3, by omega, ?_⟩
  rw [Layout.roundedSize, hn, ha, show binSize = 2 ^ 3 from rfl, hmax, hmax]
  congr 1
  omega

/-- **The rounded size of a layout is the block size of its bin.** -/
theorem Layout.roundedSize_eq (layout : Layout) :
    layout.roundedSize = 8 * 2 ^ layout.bin := by
  obtain ⟨k, hk, hsize⟩ := layout.exists_roundedSize
  have hdiv : layout.roundedSize / binSize = 2 ^ k := by
    rw [hsize, pow_add, show binSize = 2 ^ 3 from rfl,
      Nat.mul_div_cancel _ (Nat.two_pow_pos 3)]
  rw [Layout.bin, hdiv, trailingZeros_two_pow (by omega), hsize, pow_add, mul_comm]
  rfl

/-- A block of the rounded size holds the layout. -/
theorem Layout.size_le_roundedSize (layout : Layout) :
    layout.size ≤ layout.roundedSize :=
  le_trans (le_nextPowerOfTwo _) (le_max_left _ _)

/-! ### Sequences and blocks -/

/-- The 30 free lists as plain sequences of addresses. -/
abbrev Sequences := Fin 30 → List ℕ

/-- The list operations on plain sequences. -/
instance : FreeLists Sequences where
  push k a s := Function.update s k (a :: s k)
  peek k s := (s k).head?
  pop k s :=
    match s k with
    | [] => none
    | a :: l => some (a, Function.update s k l)
  unlink k a s := some (decide (a ∈ s k), Function.update s k ((s k).erase a))
  store _ _ s := s

/-- The block that an address in list `k` stands for. -/
def blockAt (k : Fin 30) (a : ℕ) : Block := ⟨a, 8 * 2 ^ (k : ℕ)⟩

/-- The free blocks of all 30 lists. -/
def freeBlocks (s : Sequences) : List Block :=
  (List.finRange 30).flatMap fun k => (s k).map (blockAt k)

/-- The block a client holds. -/
def liveBlock (b : ℕ × Layout) : Block := ⟨b.1, b.2.roundedSize⟩

/-- No block is empty: a block of list `k` has `2 ^ (k + 3)` bytes. -/
theorem blockAt_size_pos (k : Fin 30) (a : ℕ) : 0 < (blockAt k a).size := by
  have := Nat.two_pow_pos (k : ℕ)
  simp only [blockAt]
  omega

/-- A free block is one of some list. -/
theorem mem_freeBlocks {s : Sequences} {b : Block} :
    b ∈ freeBlocks s ↔ ∃ k, ∃ a ∈ s k, blockAt k a = b := by
  simp [freeBlocks]

/-- Concatenating lists with one of them longer by its head. -/
theorem flatMap_update_cons {ι β : Type} [DecidableEq ι] {L : List ι} (hn : L.Nodup)
    {k : ι} (hk : k ∈ L) (f : ι → List β) (x : β) (l : List β) :
    (L.flatMap (Function.update f k (x :: l))).Perm
      (x :: L.flatMap (Function.update f k l)) := by
  induction L with
  | nil => simp at hk
  | cons j L ih =>
      rw [List.nodup_cons] at hn
      simp only [List.flatMap_cons]
      by_cases hjk : j = k
      · subst hjk
        have hrest : ∀ y, L.flatMap (Function.update f j y) = L.flatMap f := by
          intro y
          refine List.flatMap_congr fun i hi => ?_
          rw [Function.update_of_ne (by rintro rfl; exact hn.1 hi)]
        simp [hrest]
      · have hkL : k ∈ L := by simpa [Ne.symm hjk] using hk
        rw [Function.update_of_ne hjk, Function.update_of_ne hjk]
        exact ((ih hn.2 hkL).append_left _).trans List.perm_middle

/-- The free blocks with one list longer by its head. -/
theorem freeBlocks_update_cons (s : Sequences) (k : Fin 30) (a : ℕ) (l : List ℕ) :
    (freeBlocks (Function.update s k (a :: l))).Perm
      (blockAt k a :: freeBlocks (Function.update s k l)) := by
  have hmap : ∀ y : List ℕ, (fun j => (Function.update s k y j).map (blockAt j)) =
      Function.update (fun j => (s j).map (blockAt j)) k (y.map (blockAt k)) := by
    intro y
    funext j
    by_cases hj : j = k
    · subst hj
      simp
    · simp [hj]
  rw [freeBlocks, freeBlocks, hmap, hmap, List.map_cons]
  exact flatMap_update_cons (List.nodup_finRange 30) (List.mem_finRange k) _ _ _

/-! ### The invariant -/

/-- **The invariant of the free lists**: the free blocks and the blocks held outside the
lists tile the heap, and free blocks are aligned to their size. -/
structure FreeInv (lo hi : ℕ) (s : Sequences) (held : List Block) : Prop where
  tiles : Tiles (freeBlocks s ++ held) lo hi
  aligned : ∀ k, ∀ a ∈ s k, 8 * 2 ^ (k : ℕ) ∣ a

namespace FreeInv

variable {lo hi : ℕ} {s : Sequences} {held : List Block}

/-- `push` moves a held block of the right size and alignment to the lists. -/
theorem push {k : Fin 30} {a : ℕ} (h : FreeInv lo hi s (blockAt k a :: held))
    (ha : 8 * 2 ^ (k : ℕ) ∣ a) : FreeInv lo hi (FreeLists.push k a s) held := by
  constructor
  · refine h.tiles.perm ?_
    refine List.perm_middle.trans ?_
    rw [← List.cons_append]
    refine List.Perm.append_right held ?_
    have hp := (freeBlocks_update_cons s k a (s k)).symm
    rwa [Function.update_eq_self] at hp
  · intro j b hb
    by_cases hj : j = k
    · subst hj
      simp only [FreeLists.push, Function.update_self, List.mem_cons] at hb
      rcases hb with rfl | hb
      · exact ha
      · exact h.aligned j b hb
    · simp only [FreeLists.push, Function.update_of_ne hj] at hb
      exact h.aligned j b hb

/-- `pop` moves the first block of a list to the hand. -/
theorem pop {k : Fin 30} {a : ℕ} {l : List ℕ} (h : FreeInv lo hi s held)
    (hk : s k = a :: l) :
    FreeInv lo hi (Function.update s k l) (blockAt k a :: held) ∧
      8 * 2 ^ (k : ℕ) ∣ a := by
  refine ⟨⟨?_, ?_⟩, h.aligned k a (by simp [hk])⟩
  · refine h.tiles.perm ?_
    refine List.Perm.trans ?_ List.perm_middle.symm
    rw [← List.cons_append]
    refine List.Perm.append_right held ?_
    have hp := freeBlocks_update_cons s k a l
    rwa [← hk, Function.update_eq_self] at hp
  · intro j b hb
    by_cases hj : j = k
    · subst hj
      rw [Function.update_self] at hb
      exact h.aligned j b (by simp [hk, hb])
    · rw [Function.update_of_ne hj] at hb
      exact h.aligned j b hb

/-- The order in which the held blocks are listed does not matter. -/
theorem perm {held' : List Block} (h : FreeInv lo hi s held) (hp : held.Perm held') :
    FreeInv lo hi s held' :=
  ⟨h.tiles.perm (hp.append_left _), h.aligned⟩

/-- A held block can be cut in two. -/
theorem cut {a x y : ℕ} (h : FreeInv lo hi s (⟨a, x + y⟩ :: held)) :
    FreeInv lo hi s (⟨a, x⟩ :: ⟨a + x, y⟩ :: held) := by
  refine ⟨?_, h.aligned⟩
  have h1 := tiles_split.mp (h.tiles.perm List.perm_middle)
  refine h1.perm (List.Perm.symm ?_)
  refine List.perm_middle.trans (List.Perm.cons _ ?_)
  exact List.perm_middle

/-- A held block is disjoint from the free blocks: its addresses are on no list. -/
theorem notMem {b : Block} (h : FreeInv lo hi s (b :: held)) {x : ℕ} (hx : x ∈ b)
    (k : Fin 30) : x ∉ s k := by
  intro hmem
  have hfree : blockAt k x ∈ freeBlocks s := mem_freeBlocks.mpr ⟨k, x, hmem, rfl⟩
  refine (h.tiles.perm List.perm_middle).notMem_tail hx
    (List.mem_append_left held hfree) ?_
  exact Block.addr_mem (blockAt_size_pos k x)

/-- A free block lies inside the heap. -/
theorem free_le (h : FreeInv lo hi s held) {k : Fin 30} {a : ℕ} (ha : a ∈ s k) :
    lo ≤ a ∧ a + 8 * 2 ^ (k : ℕ) ≤ hi :=
  h.tiles.block_le (List.mem_append_left _ (mem_freeBlocks.mpr ⟨k, a, ha, rfl⟩))
    (blockAt_size_pos k a)

/-- A held block lies inside the heap. -/
theorem held_le (h : FreeInv lo hi s held) {b : Block} (hb : b ∈ held)
    (hs : 0 < b.size) : lo ≤ b.addr ∧ b.addr + b.size ≤ hi :=
  h.tiles.block_le (List.mem_append_right _ hb) hs

end FreeInv

/-! ### Carving the heap -/

/-- The size the carving loop takes at `cur`: the block size of some bin, dividing `cur`
and fitting below `stop`. -/
theorem carveSize_spec {cur stop : ℕ} (h0 : 0 < cur) (h8 : 8 ∣ cur)
    (hle : cur + 8 ≤ stop) (hlt : stop < 2 ^ 33) :
    ∃ k < 30, min (cur &&& (complement cur + 1)) (prevPowerOf2 (stop - cur)) = 8 * 2 ^ k ∧
      8 * 2 ^ k ∣ cur ∧ cur + 8 * 2 ^ k ≤ stop := by
  have hword : (2 : ℕ) ^ 33 < wordSize := by rw [wordSize]; omega
  obtain ⟨t, ht, hdvd, hmax⟩ := exists_and_complement_succ h0 (by omega)
  have h3t : 3 ≤ t := by
    by_contra h
    refine hmax (dvd_trans ?_ h8)
    rw [show (8 : ℕ) = 2 ^ 3 from rfl]
    exact Nat.pow_dvd_pow 2 (by omega)
  have hprev : prevPowerOf2 (stop - cur) = 2 ^ (stop - cur).log2 :=
    shiftLeft_leadingZeros (by omega) (by omega)
  have hlog33 : (stop - cur).log2 < 33 := (Nat.log2_lt (by omega)).mpr (by omega)
  have hlog3 : 3 ≤ (stop - cur).log2 := by
    rw [Nat.le_log2 (by omega)]
    omega
  have hfit : 2 ^ (stop - cur).log2 ≤ stop - cur := Nat.log2_self_le (by omega)
  have hmin : min (2 ^ t) (2 ^ (stop - cur).log2) = 2 ^ min t (stop - cur).log2 :=
    ((pow_right_mono₀ one_le_two).map_min).symm
  have hsplit : 2 ^ min t (stop - cur).log2 = 8 * 2 ^ (min t (stop - cur).log2 - 3) := by
    rw [show (8 : ℕ) = 2 ^ 3 from rfl, ← pow_add]
    congr 1
    omega
  refine ⟨min t (stop - cur).log2 - 3, by omega, ?_, ?_, ?_⟩
  · rw [ht, hprev, hmin, hsplit]
  · rw [← hsplit]
    exact dvd_trans (Nat.pow_dvd_pow 2 (min_le_left _ _)) hdvd
  · rw [← hsplit]
    have : 2 ^ min t (stop - cur).log2 ≤ 2 ^ (stop - cur).log2 :=
      Nat.pow_le_pow_right (by omega) (min_le_right _ _)
    omega

section

variable {σ : Type} [FreeLists σ]

/-- One turn of the carving loop takes one block. -/
theorem carve_step {stop fuel cur total k : ℕ} {list : σ} (h0 : 0 < cur) (hk : k < 30)
    (hle : cur + 8 ≤ stop) (hlt : stop < 2 ^ 33) (htot : total ≤ cur)
    (hsize : min (cur &&& (complement cur + 1)) (prevPowerOf2 (stop - cur)) = 8 * 2 ^ k)
    (hfit : cur + 8 * 2 ^ k ≤ stop) :
    carve stop (fuel + 1) list cur total =
      carve stop fuel (FreeLists.push ⟨k, hk⟩ cur list) (cur + 8 * 2 ^ k)
        (total + 8 * 2 ^ k) := by
  have hword : (2 : ℕ) ^ 33 < wordSize := by rw [wordSize]; omega
  have hdiv : 8 * 2 ^ k / binSize = 2 ^ k := by
    rw [binSize, Nat.mul_div_cancel_left _ (by omega)]
  rw [carve, checkedAdd_eq_some (by rw [binSize]; omega),
    checkedAdd_eq_some (by rw [complement]; omega)]
  simp only [Option.bind_eq_bind, Option.bind_some, hsize]
  rw [if_pos (by rw [binSize]; omega), checkedAdd_eq_some (by omega), hdiv,
    trailingZeros_two_pow (by omega), slot_eq_some hk, checkedAdd_eq_some (by omega)]
  rfl

/-- The carving loop ends when fewer than 8 bytes remain. -/
theorem carve_done {stop fuel cur total : ℕ} {list : σ} (hle : stop < cur + 8)
    (hlt : stop < 2 ^ 33) (hcur : cur ≤ stop) :
    carve stop (fuel + 1) list cur total = some (list, total) := by
  have hword : (2 : ℕ) ^ 33 + 8 < wordSize := by rw [wordSize]; omega
  rw [carve, checkedAdd_eq_some (by rw [binSize]; omega)]
  simp only [Option.bind_eq_bind, Option.bind_some]
  rw [if_neg (by rw [binSize]; omega)]

/-- One turn of the splitting loop, on any lists. -/
theorem splitBlock_eq {j a : ℕ} {list list' : σ} (hj : j + 1 < 30)
    (hpop : FreeLists.pop ⟨j + 1, hj⟩ list = some (a, list'))
    (ha : a + 8 * 2 ^ (j + 1) < wordSize) :
    splitBlock (j + 1) list =
      some (FreeLists.push ⟨j, by omega⟩ (a + 8 * 2 ^ j)
        (FreeLists.push ⟨j, by omega⟩ a list')) := by
  have hshift : binSize <<< j = 8 * 2 ^ j := by rw [Nat.shiftLeft_eq, binSize]
  have hlt : a + 8 * 2 ^ j < wordSize := by
    rw [pow_succ] at ha
    omega
  rw [splitBlock, slot_eq_some hj]
  simp only [Option.bind_eq_bind, Option.bind_some, hpop, Nat.add_sub_cancel]
  rw [slot_eq_some (show j < 30 by omega), hshift, checkedAdd_eq_some hlt]
  rfl

end

/-! ### Allocation, exactly -/

/-- What `pop` does to a list with an element. -/
theorem pop_eq_some {s : Sequences} {k : Fin 30} {a : ℕ} {l : List ℕ} (h : s k = a :: l) :
    FreeLists.pop k s = some (a, Function.update s k l) := by
  simp only [FreeLists.pop, h]

/-- What was just pushed is what is popped, and the list is as before. -/
theorem pop_push (s : Sequences) (k : Fin 30) (a : ℕ) :
    FreeLists.pop k (FreeLists.push k a s) = some (a, s) := by
  have h : FreeLists.push k a s k = a :: s k := by simp [FreeLists.push]
  rw [pop_eq_some h]
  simp [FreeLists.push]

/-- The lists after the block `x`, first of list `i`, has been cut down to bin `bin` and
handed out: list `i` keeps its tail `t`, and every list from `bin` up to `i`, empty
before, holds the half that was left there. -/
def cutDown (s : Sequences) (bin i x : ℕ) (t : List ℕ) : Sequences := fun k =>
  if (k : ℕ) < bin ∨ i < k then s k
  else if (k : ℕ) = i then t
  else [x + 8 * (2 ^ i - 2 ^ ((k : ℕ) + 1))]

/-- The two pushes of one turn of the splitting loop, followed by the cutting below, are
the cutting from one list further up. -/
theorem cutDown_succ {s : Sequences} {bin n x : ℕ} {t : List ℕ}
    (hn : bin + (n + 1) < 30) :
    cutDown (FreeLists.push ⟨bin + n, by omega⟩ (x + 8 * 2 ^ (bin + n))
        (FreeLists.push ⟨bin + n, by omega⟩ x
          (Function.update s ⟨bin + (n + 1), hn⟩ t)))
      bin (bin + n) (x + 8 * 2 ^ (bin + n)) [x] =
    cutDown s bin (bin + (n + 1)) x t := by
  funext k
  obtain ⟨k, hk⟩ := k
  have hpow : 2 ^ (bin + (n + 1)) = 2 * 2 ^ (bin + n) := by rw [← add_assoc, pow_succ']
  simp only [cutDown, FreeLists.push, Function.update_apply, Fin.mk.injEq]
  by_cases htop : k = bin + (n + 1)
  · subst htop
    simp
  by_cases hlow : k < bin
  · simp [hlow, htop, show k ≠ bin + n by omega]
  by_cases hhigh : bin + (n + 1) < k
  · simp [hhigh, htop, show bin + n < k by omega, show k ≠ bin + n by omega]
  by_cases hmid : k = bin + n
  · subst hmid
    simp [← add_assoc]
  · have hle : 2 ^ (k + 1) ≤ 2 ^ (bin + n) := Nat.pow_le_pow_right (by omega) (by omega)
    simp only [hlow, hhigh, htop, hmid, show ¬ bin + n < k by omega, or_self, if_false]
    rw [hpow]
    congr 1
    omega

/-- **The splitting loop, exactly**: it leaves the lists of `cutDown` with the last upper
half on top of list `bin`. Induction on the number of levels. -/
theorem splitDown_spec {bin : ℕ} :
    ∀ (n : ℕ) (hn : bin + n < 30) (s : Sequences) (x : ℕ) (t : List ℕ),
      s ⟨bin + n, hn⟩ = x :: t →
      (∀ k : Fin 30, bin ≤ k → (k : ℕ) < bin + n → s k = []) →
      x + 8 * 2 ^ (bin + n) < wordSize →
      splitDown bin n s = some (FreeLists.push ⟨bin, by omega⟩
        (x + 8 * (2 ^ (bin + n) - 2 ^ bin)) (cutDown s bin (bin + n) x t)) := by
  intro n
  induction n with
  | zero =>
      intro hn s x t hs _ _
      rw [splitDown]
      congr 1
      funext k
      obtain ⟨k, hk⟩ := k
      simp only [Nat.add_zero, Nat.sub_self, Nat.mul_zero, FreeLists.push, cutDown,
        Function.update_apply, Fin.mk.injEq] at hs ⊢
      by_cases hkb : k = bin
      · subst hkb
        simpa using hs
      · simp [hkb, show k < bin ∨ bin < k by omega]
  | succ n ih =>
      intro hn s x t hs hempty hx
      have hpow : 2 ^ (bin + (n + 1)) = 2 * 2 ^ (bin + n) := by rw [← add_assoc, pow_succ']
      have hle : 2 ^ bin ≤ 2 ^ (bin + n) := Nat.pow_le_pow_right (by omega) (by omega)
      have hsplit : splitBlock (bin + (n + 1)) s =
          some (FreeLists.push ⟨bin + n, by omega⟩ (x + 8 * 2 ^ (bin + n))
            (FreeLists.push ⟨bin + n, by omega⟩ x
              (Function.update s ⟨bin + (n + 1), hn⟩ t))) :=
        splitBlock_eq (j := bin + n) hn (pop_eq_some hs) hx
      rw [splitDown, hsplit]
      simp only [Option.bind_eq_bind, Option.bind_some]
      rw [ih (by omega) _ (x + 8 * 2 ^ (bin + n)) [x], cutDown_succ hn, hpow]
      · congr 2
        omega
      · have hmid : s ⟨bin + n, by omega⟩ = [] :=
          hempty ⟨bin + n, by omega⟩ (by simp) (by simp)
        simp [FreeLists.push, hmid]
      · intro k hk hkn
        have h1 : k ≠ ⟨bin + n, by omega⟩ := Fin.ne_of_val_ne (Nat.ne_of_lt hkn)
        have h2 : k ≠ ⟨bin + (n + 1), hn⟩ :=
          Fin.ne_of_val_ne (Nat.ne_of_lt (Nat.lt_succ_of_lt hkn))
        simp only [FreeLists.push, Function.update_of_ne h1, Function.update_of_ne h2]
        exact hempty k hk (by omega)
      · omega

/-- `alloc` on lists that are all empty from `bin` on returns null and changes nothing. -/
theorem alloc_null {a : Allocator Sequences} {layout : Layout}
    (h : ∀ k : Fin 30, layout.bin ≤ k → a.list k = []) :
    a.alloc layout = some (a, none) := by
  have hnone : firstNonempty layout.bin a.list = none := by
    rw [firstNonempty, List.find?_eq_none]
    intro k _
    by_cases hk : layout.bin ≤ k
    · simp [FreeLists.peek, h k hk]
    · simp [hk]
  rw [Allocator.alloc, hnone]

/-- The loop of `alloc` stops at the first nonempty list. -/
theorem firstNonempty_eq_some {s : Sequences} {bin : ℕ} {i : Fin 30} (hbi : bin ≤ i)
    (hi : s i ≠ []) (hempty : ∀ k : Fin 30, bin ≤ k → k < i → s k = []) :
    firstNonempty bin s = some i := by
  rw [firstNonempty, ← Fin.find?_eq_find?_finRange, Fin.find?_eq_some_iff]
  constructor
  · obtain ⟨x, t, hs⟩ := List.exists_cons_of_ne_nil hi
    simp [FreeLists.peek, hbi, hs]
  · intro j hj
    by_cases hk : bin ≤ j
    · simp [FreeLists.peek, hempty j hk hj]
    · simp [hk]

/-- **`alloc`, exactly**: with `i` the first nonempty list from `bin` on and `x` its
first block, the lists become those of `cutDown` and the topmost piece of `x` is
returned. -/
theorem alloc_some {a : Allocator Sequences} {layout : Layout} {i : Fin 30} {x : ℕ}
    {t : List ℕ} (hbi : layout.bin ≤ i) (hi : a.list i = x :: t)
    (hempty : ∀ k : Fin 30, layout.bin ≤ k → k < i → a.list k = [])
    (hx : x + 8 * 2 ^ (i : ℕ) < wordSize)
    (hsum : a.allocated + layout.roundedSize < wordSize) :
    a.alloc layout =
      some ({ a with list := cutDown a.list layout.bin i x t,
                     allocated := a.allocated + layout.roundedSize },
        some (x + 8 * (2 ^ (i : ℕ) - 2 ^ layout.bin))) := by
  obtain ⟨n, hn⟩ : ∃ n, (i : ℕ) = layout.bin + n := ⟨i - layout.bin, by omega⟩
  obtain ⟨i, hi30⟩ := i
  simp only at hn hbi hx
  subst hn
  rw [Allocator.alloc, firstNonempty_eq_some hbi (by simp [hi]) hempty]
  simp only [Nat.add_sub_cancel_left]
  rw [splitDown_spec n hi30 a.list x t hi
      (fun k hk hkn => hempty k hk (Fin.lt_def.mpr hkn)) hx,
    checkedAdd_eq_some hsum, slot_eq_some (show layout.bin < 30 by omega)]
  simp only [Option.bind_eq_bind, Option.bind_some, pop_push]

/-! ### Deallocation never merges -/

/-- The mask of `dealloc` is half the block size. -/
theorem pairAddr_eq (ptr bin : ℕ) : pairAddr ptr bin = ptr ^^^ 2 ^ (bin + 2) := by
  have h : binSize <<< (bin + 1) >>> 2 = 2 ^ (bin + 2) := by
    rw [Nat.shiftLeft_eq, Nat.shiftRight_eq_div_pow, binSize, pow_succ 2 bin, pow_add]
    omega
  rw [pairAddr, h]

/-- **The pair address is never on the free list**: it lies in the middle of the freed
block, where no block of that size starts. -/
theorem pairAddr_notMem {lo hi : ℕ} {s : Sequences} {held : List Block}
    (h : FreeInv lo hi s held) {ptr : ℕ} {k : Fin 30} (hptr : 8 * 2 ^ (k : ℕ) ∣ ptr) :
    pairAddr ptr k ∉ s k := by
  have hpow : 8 * 2 ^ (k : ℕ) = 2 ^ ((k : ℕ) + 2 + 1) := by ring
  intro hmem
  have hdvd := h.aligned k _ hmem
  rw [hpow] at hptr hdvd
  rw [pairAddr_eq] at hdvd
  exact not_dvd_xor_half hptr hdvd

end OsLabs.Bin
