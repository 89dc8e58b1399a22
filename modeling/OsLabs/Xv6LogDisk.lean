import OsLabs.Xv6Log

/-!
# The Log of xv6 on the Disk

The header of the log, the log blocks after it, and what the recovery makes of them.
`recovered` is what the recovery will leave of a disk: with a header in order the contents of
the log blocks are in their places, and with an empty one the disk stays as it is.

## Main results

* `readHead_writeHead`: the header block is read back as it was written.
* `recovered_writeHead`: the write of the header changes what the recovery will leave, at
  once to the blocks of the log.
* `recovered_install`: the writes home do not change it.
-/

namespace OsLabs.Xv6Log

/-! ### Headers -/

/-- A list of blocks that fits in the log: not too long, without repetitions, and with no block of
the log itself. -/
structure LhOk (L : Layout) (lh : List BlockNo) : Prop where
  nodup : lh.Nodup
  home : ∀ b ∈ lh, ¬L.InLog b
  length_le : lh.length ≤ LOGSIZE
  length_lt : lh.length < L.size

/-- The empty list fits in every log. -/
theorem LhOk.nil (L : Layout) : LhOk L [] := ⟨List.nodup_nil, by simp, by simp, L.size_pos⟩

/-- **The header is read back as it was written.** -/
theorem readHead_writeHead {lh : List BlockNo} (buf : Block) (h : lh.length ≤ LOGSIZE) :
    readHead (writeHead lh buf) = some lh := by
  have hsize : lh.length ≤ 30 := h
  have hn : (writeHead lh buf 0).toInt = lh.length := by
    have hnat : (writeHead lh buf 0).toNat = lh.length := by
      simp only [writeHead, if_pos, BitVec.toNat_ofNat]
      exact Nat.mod_eq_of_lt (by omega)
    rw [BitVec.toInt_eq_toNat_of_lt (by omega), hnat]
  simp only [readHead, hn, Int.toNat_natCast]
  rw [if_pos (by exact_mod_cast h)]
  congr 1
  refine List.ext_getElem (by simp) fun i hi hi' => ?_
  have hval : (Fin.ofNat 256 (i + 1)).val = i + 1 := Nat.mod_eq_of_lt (by omega)
  have hne : Fin.ofNat 256 (i + 1) ≠ 0 := fun heq => by
    have := congrArg Fin.val heq
    rw [hval] at this
    simp at this
  simp only [List.getElem_map, List.getElem_range, writeHead]
  rw [if_neg hne, hval, Nat.add_sub_cancel, List.getElem?_eq_getElem hi', Option.getD_some]

/-- A header of zeros is that of an empty log. -/
theorem readHead_zero : readHead (fun _ => 0) = some [] := by decide

namespace Layout

variable (L : Layout)

/-- The header is a block of the log area. -/
theorem start_inLog : L.InLog L.start := by
  simpa [InLog] using L.size_pos

/-- The log block of entry `tail` is `tail + 1` blocks after the header. -/
theorem logBlock_sub {tail : ℕ} (h : tail < LOGSIZE) :
    (L.logBlock tail - L.start).toNat = tail + 1 := by
  have hsize : tail < 30 := h
  have heq : L.logBlock tail - L.start = BitVec.ofNat 32 (tail + 1) := by
    rw [logBlock, BitVec.add_comm, BitVec.add_sub_cancel]
  rw [heq, BitVec.toNat_ofNat, Nat.mod_eq_of_lt (by omega)]

/-- Different entries of the header have different blocks of the log. -/
theorem logBlock_inj {i j : ℕ} (hi : i < LOGSIZE) (hj : j < LOGSIZE)
    (h : L.logBlock i = L.logBlock j) : i = j := by
  have hi' := L.logBlock_sub hi
  rw [h, L.logBlock_sub hj] at hi'
  omega

/-- No block of the log is the header. -/
theorem logBlock_ne_start {i : ℕ} (hi : i < LOGSIZE) : L.logBlock i ≠ L.start := fun h => by
  have hi' := L.logBlock_sub hi
  rw [h] at hi'
  simp at hi'

end Layout

section

variable {L : Layout} {lh : List BlockNo}

/-- An entry of a list that fits has a place in `log.lh.block`. -/
theorem LhOk.lt_logsize (h : LhOk L lh) {i : ℕ} (hi : i < lh.length) : i < LOGSIZE :=
  lt_of_lt_of_le hi h.length_le

/-- The log blocks of a list that fits are in the log area. -/
theorem LhOk.logBlock_inLog (h : LhOk L lh) {i : ℕ} (hi : i < lh.length) :
    L.InLog (L.logBlock i) := by
  have hlt := h.length_lt
  rw [Layout.InLog, L.logBlock_sub (h.lt_logsize hi)]
  omega

/-- The header is not a block that the log names. -/
theorem LhOk.ne_start (h : LhOk L lh) {b : BlockNo} (hb : b ∈ lh) : L.start ≠ b :=
  fun heq => h.home b hb (heq ▸ L.start_inLog)

/-- A log block is not a block that the log names, so that a write of the one does
not touch the other. -/
theorem LhOk.ne_logBlock (h : LhOk L lh) {b : BlockNo} (hb : b ∈ lh) {i : ℕ}
    (hi : i < lh.length) : L.logBlock i ≠ b :=
  fun heq => h.home b hb (heq ▸ h.logBlock_inLog hi)

/-! ### What the recovery leaves -/

/-- The entries of the log: a block number and the contents of its log block. -/
def Layout.entries (L : Layout) (d : Disk) (lh : List BlockNo) : List (BlockNo × Block) :=
  lh.mapIdx fun i b => (b, d (L.logBlock i))

/-- What the recovery will leave of a disk, in the blocks outside of the log. -/
def recovered (L : Layout) (d : Disk) : Disk :=
  match readHead (d L.start) with
  | some lh => redo (L.entries d lh) d
  | none => d

/-- The entries name the blocks of the header, in its order. -/
theorem entries_fst (d : Disk) : (L.entries d lh).map Prod.fst = lh :=
  List.ext_getElem (by simp [Layout.entries]) fun i _ _ => by simp [Layout.entries]

/-- Each block of the header is in an entry with the contents of its log block. -/
theorem mem_entries (d : Disk) {i : ℕ} {b : BlockNo} (hb : lh[i]? = some b) :
    (b, d (L.logBlock i)) ∈ L.entries d lh := by
  obtain ⟨hi, rfl⟩ := List.getElem?_eq_some_iff.1 hb
  exact List.mem_mapIdx.2 ⟨i, hi, rfl⟩

/-- The entries depend on the log blocks only. -/
theorem entries_congr {d d' : Disk} (h : ∀ i < lh.length, d (L.logBlock i) = d' (L.logBlock i)) :
    L.entries d lh = L.entries d' lh := by
  refine List.ext_getElem (by simp [Layout.entries]) fun i hi hi' => ?_
  have hlt : i < lh.length := by simpa [Layout.entries] using hi
  simp [Layout.entries, h i hlt]

/-- With a header in order the recovery writes the entries home. -/
theorem recovered_of_header {d : Disk} (h : readHead (d L.start) = some lh) :
    recovered L d = redo (L.entries d lh) d := by
  rw [recovered, h]

/-- With an empty log the recovery leaves the disk as it is. -/
theorem recovered_of_nil {d : Disk} (h : readHead (d L.start) = some []) :
    recovered L d = d :=
  recovered_of_header h

/-- A turn of `install_trans` changes nothing of what the recovery will leave. -/
theorem recovered_install {d : Disk} (h : readHead (d L.start) = some lh) (hlh : LhOk L lh)
    {i : ℕ} {b : BlockNo} (hb : lh[i]? = some b) :
    recovered L (Function.update d b (d (L.logBlock i))) = recovered L d := by
  have hmem : b ∈ lh := List.mem_of_getElem? hb
  have hhead : readHead (Function.update d b (d (L.logBlock i)) L.start) = some lh := by
    rwa [Function.update_of_ne (hlh.ne_start hmem)]
  have hentries : L.entries (Function.update d b (d (L.logBlock i))) lh = L.entries d lh :=
    entries_congr fun j hj => Function.update_of_ne (hlh.ne_logBlock hmem hj) _ _
  rw [recovered_of_header hhead, recovered_of_header h, hentries]
  exact redo_update_of_mem d (by rw [entries_fst]; exact hlh.nodup) (mem_entries d hb)

/-- The write of the header makes the recovery leave the log blocks in their places. -/
theorem recovered_writeHead (d : Disk) (buf : Block) (hlh : LhOk L lh) {b : BlockNo}
    (hb : ¬L.InLog b) :
    recovered L (Function.update d L.start (writeHead lh buf)) b =
      redo (L.entries d lh) d b := by
  have hhead : readHead (Function.update d L.start (writeHead lh buf) L.start) = some lh := by
    rw [Function.update_self, readHead_writeHead buf hlh.length_le]
  have hentries : L.entries (Function.update d L.start (writeHead lh buf)) lh =
      L.entries d lh :=
    entries_congr fun j hj =>
      Function.update_of_ne (L.logBlock_ne_start (hlh.lt_logsize hj)) _ _
  have hne : b ≠ L.start := fun heq => hb (heq ▸ L.start_inLog)
  rw [recovered_of_header hhead, hentries]
  by_cases hmem : b ∈ lh
  · obtain ⟨i, hi, rfl⟩ := List.getElem_of_mem hmem
    have hnodup : ((L.entries d lh).map Prod.fst).Nodup := by
      rw [entries_fst]
      exact hlh.nodup
    have hentry := mem_entries (L := L) d (List.getElem?_eq_getElem hi)
    rw [redo_of_mem _ hnodup hentry, redo_of_mem _ hnodup hentry]
  · have hnot : b ∉ (L.entries d lh).map Prod.fst := by rwa [entries_fst]
    rw [redo_of_notMem _ hnot, redo_of_notMem _ hnot, Function.update_of_ne hne]

end

/-! ### What the operations do to the disk and to what is read -/

namespace State

variable {Tid : Type} (s : State Tid)

/-- What is read does not depend on what is cached. -/
@[simp] theorem view_bread (b : BlockNo) : (s.bread b).view = s.view := by
  funext a
  by_cases h : a = b
  · simp [view, bread, h]
  · simp [view, bread, Function.update_of_ne h]

/-- A change of a buffer is what is read from then on. -/
@[simp] theorem view_modify (b : BlockNo) (data : Block) :
    (s.modify b data).view = Function.update s.view b data := by
  funext a
  by_cases h : a = b
  · simp [view, modify, h]
  · simp [view, modify, Function.update_of_ne h]

/-- What is read is the same after it has been written. -/
@[simp] theorem view_bwrite (b : BlockNo) : (s.bwrite b).view = s.view := by
  funext a
  by_cases h : a = b
  · subst h
    simp only [view, bwrite, Function.update_self]
    cases s.cache a <;> rfl
  · simp [view, bwrite, Function.update_of_ne h]

/-- A buffer that is as its block on the disk can go without a change of what is read. -/
theorem view_evict {b : BlockNo} (h : s.view b = s.disk b) : (s.evict b).view = s.view := by
  funext a
  by_cases ha : a = b
  · subst ha
    rw [h]
    simp [view, evict]
  · simp [view, evict, Function.update_of_ne ha]

/-- The copy of a block gets to the disk. -/
theorem disk_copyBlock (dst src : BlockNo) :
    (s.copyBlock dst src).disk = Function.update s.disk dst (s.view src) := by
  simp only [copyBlock, bwrite, view_modify, view_bread, Function.update_self]
  rfl

/-- The copy of a block is what is read at its destination. -/
theorem view_copyBlock (dst src : BlockNo) :
    (s.copyBlock dst src).view = Function.update s.view dst (s.view src) := by
  simp only [copyBlock, view_bwrite, view_modify, view_bread]

/-- `write_head` writes the numbers of the blocks into the header on the disk. -/
theorem disk_writeHeader (L : Layout) : (s.writeHeader L).disk =
    Function.update s.disk L.start (writeHead s.lh (s.view L.start)) := by
  simp only [writeHeader, bwrite, view_modify, view_bread, Function.update_self]
  rfl

/-- `write_head` changes what is read in the header only. -/
theorem view_writeHeader (L : Layout) : (s.writeHeader L).view =
    Function.update s.view L.start (writeHead s.lh (s.view L.start)) := by
  simp only [writeHeader, view_bwrite, view_modify, view_bread]
  rfl

end State

end OsLabs.Xv6Log
