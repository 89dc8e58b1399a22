import Mathlib

/-!
# Tilings of an Interval by Blocks

A memory manager partitions an address range into blocks, splits blocks and hands
them from one owner to another. This module is the bookkeeping of such partitions,
free of any particular manager: a `Block` is a half-open interval, `cover l x` counts
the blocks of the list `l` that contain `x`, and `Tiles l lo hi` says the count is one
inside `[lo, hi)` and zero outside.

Counting makes the invariant additive: the cover of a concatenation is the sum of the
covers, so reordering blocks (`Tiles.perm`), cutting one in two (`tiles_split`) and
appending one at the end (`Tiles.append_block`) are each one line of arithmetic, and
the geometric reading is recovered only where it is needed.

## Main results

* `Tiles.pairwise_disjoint` and `Tiles.exists_mem_iff`: a tiling is a pairwise disjoint
  family covering exactly `[lo, hi)`.
* `Tiles.sum_size`: the block sizes add up to the length of the interval.
* `Tiles.notMem_tail`: a point of one block lies in no other block.
-/

namespace OsLabs

/-- A block of memory: the half-open interval of `size` bytes that starts at `addr`. -/
structure Block where
  addr : ℕ
  size : ℕ
deriving DecidableEq, Repr

/-- The addresses of a block. -/
def Block.toSet (b : Block) : Set ℕ := Set.Ico b.addr (b.addr + b.size)

instance : Membership ℕ Block := ⟨fun b x => b.addr ≤ x ∧ x < b.addr + b.size⟩

/-- An address is in a block if it is neither before nor behind it. -/
theorem Block.mem_def {b : Block} {x : ℕ} :
    x ∈ b ↔ b.addr ≤ x ∧ x < b.addr + b.size := Iff.rfl

instance (b : Block) (x : ℕ) : Decidable (x ∈ b) :=
  decidable_of_iff (b.addr ≤ x ∧ x < b.addr + b.size) Iff.rfl

/-- A block of positive size contains its own start. -/
theorem Block.addr_mem {b : Block} (h : 0 < b.size) : b.addr ∈ b :=
  ⟨le_rfl, by omega⟩

/-- The number of blocks of `l` that contain `x`. -/
def cover (l : List Block) (x : ℕ) : ℕ := l.countP (x ∈ ·)

/-- `l` **tiles** `[lo, hi)`: every point inside lies in exactly one block, every point
outside in none. -/
def Tiles (l : List Block) (lo hi : ℕ) : Prop :=
  ∀ x, cover l x = if lo ≤ x ∧ x < hi then 1 else 0

/-! ### Covers -/

/-- A list without blocks covers no address. -/
@[simp] theorem cover_nil (x : ℕ) : cover [] x = 0 := rfl

/-- One more block covers each of its addresses once more. -/
@[simp] theorem cover_cons (b : Block) (l : List Block) (x : ℕ) :
    cover (b :: l) x = cover l x + if x ∈ b then 1 else 0 := by
  simp [cover, List.countP_cons]

/-- A block that contains `x` is counted at `x`. -/
theorem one_le_cover {l : List Block} {b : Block} {x : ℕ} (hb : b ∈ l) (hx : x ∈ b) :
    1 ≤ cover l x :=
  List.countP_pos_iff.mpr ⟨b, hb, decide_eq_true hx⟩

/-- Where something is counted there is a block that contains the address. -/
theorem exists_mem_of_cover_pos {l : List Block} {x : ℕ} (h : 0 < cover l x) :
    ∃ b ∈ l, x ∈ b := by
  obtain ⟨b, hb, hx⟩ := List.countP_pos_iff.mp h
  exact ⟨b, hb, of_decide_eq_true hx⟩

/-! ### Building tilings -/

/-- The empty family tiles the empty interval. -/
theorem tiles_nil (lo : ℕ) : Tiles [] lo lo := by
  intro x
  rw [cover_nil, if_neg (by omega)]

/-- The order of the blocks does not matter for a tiling. -/
theorem Tiles.perm {l l' : List Block} {lo hi : ℕ} (h : Tiles l lo hi) (hp : l.Perm l') :
    Tiles l' lo hi := by
  intro x
  rw [← h x]
  exact (hp.countP_eq _).symm

/-- Appending a block at the upper end extends the interval. -/
theorem Tiles.append_block {l : List Block} {lo hi s : ℕ} (h : Tiles l lo hi)
    (hle : lo ≤ hi) : Tiles (⟨hi, s⟩ :: l) lo (hi + s) := by
  intro x
  rw [cover_cons, h x]
  simp only [Block.mem_def]
  split_ifs <;> omega

/-- **Splitting a block** in two consecutive pieces, or joining them back, keeps the
tiling. -/
theorem tiles_split {l : List Block} {lo hi a s t : ℕ} :
    Tiles (⟨a, s + t⟩ :: l) lo hi ↔ Tiles (⟨a, s⟩ :: ⟨a + s, t⟩ :: l) lo hi := by
  have hcover : ∀ x, cover (⟨a, s + t⟩ :: l) x = cover (⟨a, s⟩ :: ⟨a + s, t⟩ :: l) x := by
    intro x
    simp only [cover_cons, Block.mem_def]
    split_ifs <;> omega
  exact forall_congr' fun x => by rw [hcover x]

/-! ### Reading tilings -/

/-- The blocks of a tiling cover exactly the interval. -/
theorem Tiles.exists_mem_iff {l : List Block} {lo hi : ℕ} (h : Tiles l lo hi) (x : ℕ) :
    (∃ b ∈ l, x ∈ b) ↔ lo ≤ x ∧ x < hi := by
  constructor
  · rintro ⟨b, hb, hx⟩
    have hpos := one_le_cover hb hx
    rw [h x] at hpos
    by_contra hout
    rw [if_neg hout] at hpos
    omega
  · intro hx
    apply exists_mem_of_cover_pos
    rw [h x, if_pos hx]
    omega

/-- Each nonempty block of a tiling lies inside the interval. -/
theorem Tiles.block_le {l : List Block} {lo hi : ℕ} (h : Tiles l lo hi) {b : Block}
    (hb : b ∈ l) (hs : 0 < b.size) : lo ≤ b.addr ∧ b.addr + b.size ≤ hi := by
  have hfirst := (h.exists_mem_iff b.addr).mp ⟨b, hb, Block.addr_mem hs⟩
  have hlast := (h.exists_mem_iff (b.addr + b.size - 1)).mp
    ⟨b, hb, by rw [Block.mem_def]; omega⟩
  omega

/-- A point of the first block of a tiling lies in no later block. -/
theorem Tiles.notMem_tail {b : Block} {l : List Block} {lo hi : ℕ}
    (h : Tiles (b :: l) lo hi) {x : ℕ} (hx : x ∈ b) {c : Block} (hc : c ∈ l) : x ∉ c := by
  intro hxc
  have hpos := one_le_cover hc hxc
  have hx' := h x
  rw [cover_cons, if_pos hx] at hx'
  split_ifs at hx'
  omega

/-- The blocks of a family whose covers never exceed one are pairwise disjoint. -/
theorem pairwise_disjoint_of_cover_le {l : List Block} (h : ∀ x, cover l x ≤ 1) :
    l.Pairwise fun b c => Disjoint b.toSet c.toSet := by
  induction l with
  | nil => exact List.Pairwise.nil
  | cons b l ih =>
      have hle : ∀ x, cover l x ≤ 1 := fun x => by
        have := h x
        rw [cover_cons] at this
        omega
      refine List.Pairwise.cons ?_ (ih hle)
      intro c hc
      rw [Set.disjoint_left]
      intro x hxb hxc
      have hpos := one_le_cover hc (x := x) hxc
      have := h x
      rw [cover_cons, if_pos (show x ∈ b from hxb)] at this
      omega

/-- **The blocks of a tiling are pairwise disjoint.** -/
theorem Tiles.pairwise_disjoint {l : List Block} {lo hi : ℕ} (h : Tiles l lo hi) :
    l.Pairwise fun b c => Disjoint b.toSet c.toSet := by
  refine pairwise_disjoint_of_cover_le fun x => ?_
  rw [h x]
  split_ifs <;> omega

/-- Summing the cover over an initial segment that contains every nonempty block adds up
the block sizes. -/
theorem sum_cover {l : List Block} {N : ℕ}
    (h : ∀ b ∈ l, 0 < b.size → b.addr + b.size ≤ N) :
    ∑ x ∈ Finset.range N, cover l x = (l.map Block.size).sum := by
  induction l with
  | nil => simp
  | cons b l ih =>
      have hb : ∑ x ∈ Finset.range N, (if x ∈ b then 1 else 0) = b.size := by
        rw [← Finset.card_filter]
        have hfilter : {x ∈ Finset.range N | x ∈ b} =
            if 0 < b.size then Finset.Ico b.addr (b.addr + b.size) else ∅ := by
          ext x
          have := h b List.mem_cons_self
          split_ifs <;> simp [Block.mem_def] <;> omega
        rw [hfilter]
        split_ifs with hs
        · simp
        · simp
          omega
      simp only [cover_cons, List.map_cons, List.sum_cons, Finset.sum_add_distrib, hb]
      rw [ih fun c hc => h c (List.mem_cons_of_mem _ hc)]
      omega

/-- **The sizes of a tiling add up** to the length of the interval. -/
theorem Tiles.sum_size {l : List Block} {lo hi : ℕ} (h : Tiles l lo hi) :
    (l.map Block.size).sum = hi - lo := by
  rw [← sum_cover (N := hi) fun b hb hs => (h.block_le hb hs).2]
  have hsum : ∑ x ∈ Finset.range hi, cover l x =
      ∑ x ∈ Finset.range hi, if lo ≤ x ∧ x < hi then 1 else 0 :=
    Finset.sum_congr rfl fun x _ => h x
  rw [hsum, ← Finset.card_filter]
  have hfilter : {x ∈ Finset.range hi | lo ≤ x ∧ x < hi} = Finset.Ico lo hi := by
    ext x
    simp only [Finset.mem_filter, Finset.mem_range, Finset.mem_Ico]
    omega
  rw [hfilter, Nat.card_Ico]

end OsLabs
