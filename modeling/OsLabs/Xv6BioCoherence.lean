import OsLabs.Xv6BioBuffers

/-!
# The Buffers of xv6: Data

What the users of a block that keep the discipline of `OsLabs.Xv6Bio` rely on: no change of the
block is lost, whoever recycles its buffer, and whatever the users of other blocks do.

The events say of every block whether it is as `bwrite` has left it and how often it is
pinned. A block that is written is on the disk; one that is not is kept in its buffer by a lock
or a pin, since a user may release it only if it is pinned.

## Main results

* `coherent`: what is read is what was stored last.
* `recycled_least_recent`: the buffer that is recycled is the one unused for the longest
  time, and its data are on the disk.
-/

namespace OsLabs.Xv6Bio

variable {n : ℕ} {Tid Block : Type} [DecidableEq Tid] {s s' : State n Tid Block}
  {order : List (Fin n)} {b c : Fin n} {k : Key} {as : List (Event n Block)}
  {a : Event n Block}

/-! ### Pins -/

/-- A buffer with pins has the block that they were put on, and no block has pins without a
buffer. -/
structure PinInv (as : List (Event n Block)) (s : State n Tid Block) : Prop where
  some : ∀ b, s.pins b ≠ 0 → (s.buf b).valid = true ∧ pinned (s.buf b).key as = s.pins b
  none : ∀ k, (∀ b, (s.buf b).key = k → s.pins b = 0) → pinned k as = 0

section

omit [DecidableEq Tid]

/-- The pins of a valid buffer are those of its block, since there is no other buffer for it. -/
theorem PinInv.pinned_eq (h : PinInv as s) (hlist : ListInv order s)
    (hvalid : (s.buf b).valid = true) : pinned (s.buf b).key as = s.pins b := by
  by_cases hpins : s.pins b = 0
  · rw [hpins]
    refine h.none _ fun c hc => by_contra fun hne => ?_
    have hcb : c = b := hlist.unique (.inl (h.some c hne).1) (.inl hvalid) hc
    exact hne (hcb ▸ hpins)
  · exact (h.some b hpins).2

/-- The pins stay, and those buffers that have some keep their blocks. -/
theorem PinInv.keep (h : PinInv as s) (ha : ∀ k, pinned k (as ++ [a]) = pinned k as)
    (hpins : s'.pins = s.pins) (hbuf : ∀ c, s.pins c ≠ 0 → (s.buf c).valid = true →
      (s'.buf c).valid = true ∧ (s'.buf c).key = (s.buf c).key) : PinInv (as ++ [a]) s' where
  some b hb := by
    rw [hpins] at hb ⊢
    obtain ⟨hvalid, hpinned⟩ := h.some b hb
    obtain ⟨hvalid', hkey⟩ := hbuf b hb hvalid
    exact ⟨hvalid', by rw [ha, hkey, hpinned]⟩
  none k hk := by
    rw [ha]
    refine h.none k fun b hb => by_contra fun hne => hne ?_
    rw [← hpins]
    exact hk b ((hbuf b hne (h.some b hne).1).2.trans hb)

/-- The pins of a valid buffer and those of its block change alike. -/
theorem PinInv.update (h : PinInv as s) (hlist : ListInv order s)
    (hvalid : (s.buf b).valid = true)
    (hsame : ∀ k, k ≠ (s.buf b).key → pinned k (as ++ [a]) = pinned k as)
    (hb : pinned (s.buf b).key (as ++ [a]) = s'.pins b)
    (hpins : ∀ c, c ≠ b → s'.pins c = s.pins c)
    (hbuf : ∀ c, (s'.buf c).valid = (s.buf c).valid ∧ (s'.buf c).key = (s.buf c).key) :
    PinInv (as ++ [a]) s' where
  some c hc := by
    rw [(hbuf c).1, (hbuf c).2]
    by_cases hcb : c = b
    · rw [hcb]
      exact ⟨hvalid, hb⟩
    · rw [hpins c hcb] at hc ⊢
      obtain ⟨hvalidc, hpinned⟩ := h.some c hc
      rw [hsame _ fun heq => hcb (hlist.unique (.inl hvalidc) (.inl hvalid) heq)]
      exact ⟨hvalidc, hpinned⟩
  none k hk := by
    by_cases hkb : k = (s.buf b).key
    · rw [hkb, hb]
      exact hk b ((hbuf b).2.trans hkb.symm)
    · rw [hsame k hkb]
      refine h.none k fun c hc => ?_
      have hcb : c ≠ b := fun heq => hkb (by rw [← hc, heq])
      rw [← hpins c hcb]
      exact hk c ((hbuf c).2.trans hc)

end

/-- **Every step keeps the pins right**: they are the `bpin`s of the events less the `bunpin`s. -/
theorem PinInv.step [Fintype Tid] (h : PinInv as s) (huse : UseInv s) (hlist : ListInv order s)
    (hstep : Step s a s') : PinInv (as ++ [a]) s' := by
  cases hstep with
  | bget t k b s' ht hs' =>
    refine h.keep (fun k => pinned_snoc) ?_ fun c hc hvalid => ?_
    · obtain ⟨-, rfl⟩ | ⟨-, -, rfl⟩ := hlist.bget_cases hs' <;> rfl
    · rcases hlist.bget_cases hs' with ⟨-, rfl⟩ | ⟨-, hfind, rfl⟩
      · exact ⟨(setBuf_refcnt _ c).1.trans hvalid, (setBuf_refcnt _ c).2.1⟩
      · have hzero : (s.buf b).refcnt = 0 := by simpa using List.find?_some hfind
        have hcb : c ≠ b := fun heq => hc (heq ▸ (huse.unused hzero).1)
        rw [goto_buf, setBuf_buf_of_ne _ hcb]
        exact ⟨hvalid, rfl⟩
  | acquiresleep t b k ht hfree =>
    exact h.keep (fun k => pinned_snoc) rfl fun _ _ hvalid => ⟨hvalid, rfl⟩
  | bread t b k ht =>
    refine h.keep (fun k => pinned_snoc) ?_ fun c _ hvalid => ?_
    · unfold State.bread
      split <;> rfl
    · unfold State.bread
      split
      · exact ⟨hvalid, rfl⟩
      · by_cases hcb : c = b
        · simp [hcb]
        · rw [goto_buf, setBuf_buf_of_ne _ hcb]
          exact ⟨hvalid, rfl⟩
  | store t b k data ht =>
    refine h.keep (fun k => pinned_snoc) rfl fun c _ hvalid => ?_
    by_cases hcb : c = b
    · simpa [State.modify, hcb] using hcb ▸ hvalid
    · rw [State.modify, setBuf_buf_of_ne _ hcb]
      exact ⟨hvalid, rfl⟩
  | bwrite t b k _ ht hs' =>
    rw [State.bwrite, if_pos (huse.lock_of_inUse ht)] at hs'
    obtain rfl := Option.some.inj hs'
    exact h.keep (fun k => pinned_snoc) rfl fun _ _ hvalid => ⟨hvalid, rfl⟩
  | bpin t b k ht =>
    obtain rfl := huse.key_of_inUse ht
    have hvalid := huse.valid t b _ ht
    refine h.update hlist hvalid (fun k hk => ?_) ?_ (fun c hc => Function.update_of_ne hc ..)
      fun c => ⟨(setBuf_refcnt _ c).1, (setBuf_refcnt _ c).2.1⟩
    · rw [pinned_snoc]
      exact if_neg hk.symm
    · rw [pinned_snoc, Event.addPins, if_pos rfl, h.pinned_eq hlist hvalid]
      simp [State.bpin]
  | bunpin t b k ht hpins =>
    obtain rfl := huse.key_of_inUse ht
    have hvalid := huse.valid t b _ ht
    refine h.update hlist hvalid (fun k hk => ?_) ?_ (fun c hc => Function.update_of_ne hc ..)
      fun c => ⟨(setBuf_refcnt _ c).1, (setBuf_refcnt _ c).2.1⟩
    · rw [pinned_snoc]
      exact if_neg hk.symm
    · rw [pinned_snoc, Event.addPins, if_pos rfl, h.pinned_eq hlist hvalid]
      simp [State.bunpin]
  | releasesleep t b k s' ht hs' =>
    rw [State.releasesleep, if_pos (huse.lock_of_inUse ht)] at hs'
    obtain rfl := Option.some.inj hs'
    exact h.keep (fun k => pinned_snoc) rfl fun _ _ hvalid => ⟨hvalid, rfl⟩
  | brelse t b ht =>
    rw [brelse_eq]
    refine h.keep (fun k => ?_) rfl fun c _ hvalid =>
      ⟨(setBuf_refcnt _ c).1.trans hvalid, (setBuf_refcnt _ c).2.1⟩
    rw [pinned_snoc]
    split <;> rfl

/-! ### Data -/

/-- No valid buffer of the block is locked or pinned. -/
def State.Idle (s : State n Tid Block) (k : Key) : Prop :=
  ∀ b, (s.buf b).key = k → (s.buf b).valid = true → s.pins b = 0 ∧ s.lock b = none

/-- Where the contents `M k` of a block are: in its valid buffer, and on the disk unless the
block has changed since it was written; and it has not if its buffer is idle. -/
structure DataInv (M : Key → Block) (chg : Bool) (k : Key) (s : State n Tid Block) : Prop where
  cached : ∀ b, (s.buf b).key = k → (s.buf b).valid = true → (s.buf b).data = M k
  clean : s.Idle k → chg = false
  written : chg = false → s.disk k = M k

section

omit [DecidableEq Tid]

variable {M M' : Key → Block} {chg : Bool}

/-- A step that leaves the block on the disk and in its valid buffers alone, and makes no
changed block idle. -/
theorem DataInv.keep (h : DataInv M chg k s) (hM : M' k = M k) (hdisk : s'.disk k = s.disk k)
    (hbuf : ∀ b, (s'.buf b).key = k → (s'.buf b).valid = true →
      (s.buf b).key = k ∧ (s.buf b).valid = true ∧ (s'.buf b).data = (s.buf b).data)
    (hidle : s'.Idle k → chg = false ∨ s.Idle k) : DataInv M' chg k s' where
  cached b hb hvalid := by
    obtain ⟨hkey, hvalid', hdata⟩ := hbuf b hb hvalid
    rw [hdata, hM, h.cached b hkey hvalid']
  clean hk := (hidle hk).elim id h.clean
  written hc := by rw [hdisk, hM, h.written hc]

/-- A step that changes one buffer, which is not for the block before and after. -/
theorem DataInv.other (h : DataInv M chg k s) (hM : M' k = M k) (hdisk : s'.disk k = s.disk k)
    (hkey : (s.buf b).key ≠ k) (hkey' : (s'.buf b).key ≠ k)
    (hbuf : ∀ c, c ≠ b → s'.buf c = s.buf c) (hpins : ∀ c, c ≠ b → s'.pins c = s.pins c)
    (hlock : ∀ c, c ≠ b → s'.lock c = s.lock c) : DataInv M' chg k s' := by
  refine h.keep hM hdisk (fun c hc hvalid => ?_) fun hidle => .inr fun c hc hvalid => ?_
  · have hcb : c ≠ b := fun heq => hkey' (heq ▸ hc)
    rw [hbuf c hcb] at hc hvalid ⊢
    exact ⟨hc, hvalid, rfl⟩
  · have hcb : c ≠ b := fun heq => hkey (heq ▸ hc)
    rw [← hpins c hcb, ← hlock c hcb]
    exact hidle c (by rwa [hbuf c hcb]) (by rwa [hbuf c hcb])

/-- The count of a buffer changes, and only a locked one may lose its pins. -/
theorem DataInv.refcnt (h : DataInv M chg k s) (m : ℕ) (hdisk : s'.disk = s.disk)
    (hbuf : s'.buf = (s.setBuf b { s.buf b with refcnt := m }).buf) (hlock : s'.lock = s.lock)
    (hpins : ∀ c, s'.pins c = 0 → s.lock c = none → s.pins c = 0) : DataInv M chg k s' := by
  refine h.keep rfl (by rw [hdisk]) (fun c hc hvalid => ?_) fun hidle => .inr fun c hc hvalid => ?_
  · rw [hbuf, (setBuf_refcnt m c).2.1] at hc
    rw [hbuf, (setBuf_refcnt m c).1] at hvalid
    rw [hbuf]
    exact ⟨hc, hvalid, (setBuf_refcnt m c).2.2⟩
  · have hidlec := hidle c (by rwa [hbuf, (setBuf_refcnt m c).2.1])
      (by rwa [hbuf, (setBuf_refcnt m c).1])
    rw [hlock] at hidlec
    exact ⟨hpins c hidlec.1 hidlec.2, hidlec.2⟩

/-- An unused buffer gets another block: what was in it is on the disk, as it was neither locked
nor pinned. -/
theorem DataInv.recycle (h : DataInv M chg k s) (hdisk : s'.disk = s.disk)
    (hlock : s'.lock = s.lock) (hpins : s'.pins = s.pins) (hvalid : (s'.buf b).valid = false)
    (hbuf : ∀ c, c ≠ b → s'.buf c = s.buf c) (hunused : s.pins b = 0 ∧ s.lock b = none) :
    DataInv M chg k s' := by
  refine h.keep rfl (by rw [hdisk]) (fun c hc hcv => ?_) fun hidle => .inr fun c hc hcv => ?_
  · have hcb : c ≠ b := fun heq => by
      rw [heq, hvalid] at hcv
      cases hcv
    rw [hbuf c hcb] at hc hcv ⊢
    exact ⟨hc, hcv, rfl⟩
  · by_cases hcb : c = b
    · rwa [hcb]
    · rw [← hpins, ← hlock]
      exact hidle c (by rwa [hbuf c hcb]) (by rwa [hbuf c hcb])

/-- The block of a buffer is read, and there is no other buffer for it. It has not changed
since it was written, since nobody has it. -/
theorem DataInv.fill (h : DataInv M chg (s.buf b).key s)
    (hnone : ∀ c, (s.buf c).key = (s.buf b).key → (s.buf c).valid = false) :
    DataInv M chg (s.buf b).key
      (s.setBuf b { s.buf b with data := s.disk (s.buf b).key, valid := true }) := by
  have hclean : chg = false := h.clean fun c hc hvalid => by
    rw [hnone c hc] at hvalid
    cases hvalid
  refine ⟨fun c hc hvalid => ?_, fun _ => hclean, h.written⟩
  by_cases hcb : c = b
  · rw [hcb, setBuf_buf_self]
    exact h.written hclean
  · rw [setBuf_buf_of_ne _ hcb] at hc hvalid
    rw [hnone c hc] at hvalid
    cases hvalid

/-- The data of a locked buffer change, and it is the only one for the block. -/
theorem DataInv.modify (data : Block) (hvalid : (s.buf b).valid = true)
    (hlock : s.lock b ≠ none)
    (hother : ∀ c, c ≠ b → (s.buf c).valid = true → (s.buf c).key ≠ (s.buf b).key) :
    DataInv (Function.update M (s.buf b).key data) true (s.buf b).key (s.modify b data) where
  cached c hc hcv := by
    unfold State.modify at hc hcv ⊢
    by_cases hcb : c = b
    · simp [hcb]
    · rw [setBuf_buf_of_ne _ hcb] at hc hcv
      exact absurd hc (hother c hcb hcv)
  clean hidle := absurd (hidle b (by simp [State.modify]) (by simpa [State.modify])).2 hlock
  written hc := by cases hc

/-- The data of a valid buffer are written. -/
theorem DataInv.bwrite (h : DataInv M chg (s.buf b).key s) (hvalid : (s.buf b).valid = true) :
    DataInv M false (s.buf b).key
      { s with disk := Function.update s.disk (s.buf b).key (s.buf b).data } where
  cached := h.cached
  clean _ := rfl
  written _ := by
    rw [← h.cached b rfl hvalid]
    exact Function.update_self ..

end

/-- **Every step keeps the block of disciplined users.** -/
theorem DataInv.step [Fintype Tid] {M : Key → Block} (h : DataInv M (changed k as) k s)
    (huse : UseInv s) (hlist : ListInv order s) (hpin : PinInv as s)
    (hdis : Disciplined k (as ++ [a])) (hstep : Step s a s') :
    DataInv (a.apply M) (a.changes k (changed k as)) k s' := by
  have hother : ∀ {b}, s.Live b → ∀ c, c ≠ b → (s.buf c).valid = true →
      (s.buf c).key ≠ (s.buf b).key := fun hb c hcb hc heq =>
    hcb (hlist.unique (.inl hc) hb heq)
  cases hstep with
  | bget t k₀ b s' ht hs' =>
    rcases hlist.bget_cases hs' with ⟨-, rfl⟩ | ⟨-, hfind, rfl⟩
    · exact h.refcnt _ rfl rfl rfl fun _ hpins _ => hpins
    · have hzero : (s.buf b).refcnt = 0 := by simpa using List.find?_some hfind
      exact h.recycle (b := b) rfl rfl rfl (by simp) (fun c hc => setBuf_buf_of_ne _ hc)
        (huse.unused hzero)
  | acquiresleep t b k₀ ht hfree =>
    refine h.keep rfl rfl (fun c hc hvalid => ⟨hc, hvalid, rfl⟩)
      fun hidle => .inr fun c hc hvalid => ⟨(hidle c hc hvalid).1, ?_⟩
    by_cases hcb : c = b
    · rw [hcb, hfree]
    · have hlock := (hidle c hc hvalid).2
      change Function.update s.lock b (some t) c = none at hlock
      rwa [Function.update_of_ne hcb] at hlock
  | bread t b k₀ ht =>
    have hpos := huse.refcnt_pos (t := t) (b := b) (by rw [ht]; rfl)
    unfold State.bread
    split
    · exact ⟨h.cached, h.clean, h.written⟩
    · rename_i hvalid
      by_cases hkb : (s.buf b).key = k
      · subst hkb
        have hfill := h.fill fun c hc => by
          refine Bool.eq_false_iff.2 fun hv => hvalid ?_
          rwa [← hlist.unique (.inl hv) (.inr hpos) hc]
        exact ⟨hfill.cached, hfill.clean, hfill.written⟩
      · exact h.other (b := b) rfl rfl hkb (by simpa using hkb)
          (fun c hc => setBuf_buf_of_ne _ hc) (fun _ _ => rfl) fun _ _ => rfl
  | store t b k₀ data ht =>
    obtain rfl := huse.key_of_inUse ht
    have hvalid := huse.valid t b _ ht
    by_cases hkb : (s.buf b).key = k
    · subst hkb
      simpa [Event.changes, Event.apply] using DataInv.modify (M := M) data hvalid
        (by simp [huse.lock_of_inUse ht]) (hother (.inl hvalid))
    · have hsame : (Event.store (s.buf b).key data : Event n Block).changes k (changed k as) =
          changed k as := by
        simp [Event.changes, hkb]
      rw [hsame]
      exact h.other (b := b) (Function.update_of_ne (Ne.symm hkb) ..) rfl hkb
        (by simpa [State.modify] using hkb) (fun c hc => setBuf_buf_of_ne _ hc)
        (fun _ _ => rfl) fun _ _ => rfl
  | bwrite t b k₀ _ ht hs' =>
    obtain rfl := huse.key_of_inUse ht
    rw [State.bwrite, if_pos (huse.lock_of_inUse ht)] at hs'
    obtain rfl := Option.some.inj hs'
    by_cases hkb : (s.buf b).key = k
    · subst hkb
      simpa [Event.changes, Event.apply] using h.bwrite (huse.valid t b _ ht)
    · have hsame : (Event.write (s.buf b).key : Event n Block).changes k (changed k as) =
          changed k as := by
        simp [Event.changes, hkb]
      rw [hsame]
      exact h.other (b := b) rfl (Function.update_of_ne (Ne.symm hkb) ..) hkb hkb
        (fun _ _ => rfl) (fun _ _ => rfl) fun _ _ => rfl
  | bpin t b k₀ ht =>
    refine h.refcnt _ rfl rfl rfl fun c hpins _ => ?_
    change Function.update s.pins b (s.pins b + 1) c = 0 at hpins
    by_cases hcb : c = b
    · rw [hcb, Function.update_self] at hpins
      cases hpins
    · rwa [Function.update_of_ne hcb] at hpins
  | bunpin t b k₀ ht hpos =>
    refine h.refcnt _ rfl rfl rfl fun c hpins hlock => ?_
    -- The buffer that is unpinned is locked.
    have hcb : c ≠ b := fun heq => by
      rw [heq, huse.lock_of_inUse ht] at hlock
      cases hlock
    change Function.update s.pins b (s.pins b - 1) c = 0 at hpins
    rwa [Function.update_of_ne hcb] at hpins
  | releasesleep t b k₀ s' ht hs' =>
    obtain rfl := huse.key_of_inUse ht
    have hvalid := huse.valid t b _ ht
    rw [State.releasesleep, if_pos (huse.lock_of_inUse ht)] at hs'
    obtain rfl := Option.some.inj hs'
    by_cases hkb : (s.buf b).key = k
    · subst hkb
      refine h.keep rfl rfl (fun c hc hvalid => ⟨hc, hvalid, rfl⟩) fun hidle => .inl ?_
      refine ((disciplined_snoc.1 hdis).2 rfl).resolve_right fun hne => hne ?_
      rw [hpin.pinned_eq hlist hvalid]
      exact (hidle b rfl hvalid).1
    · exact h.other (b := b) rfl rfl hkb hkb (fun _ _ => rfl) (fun _ _ => rfl)
        fun c hc => Function.update_of_ne hc ..
  | brelse t b ht =>
    rw [brelse_eq]
    have hkeep : DataInv M (changed k as) k
        (s.setBuf b { s.buf b with refcnt := (s.buf b).refcnt - 1 }) :=
      h.refcnt (b := b) _ rfl rfl rfl fun _ hpins _ => hpins
    split <;> exact ⟨hkeep.cached, hkeep.clean, hkeep.written⟩

/-! ### All of it -/

section

variable [Fintype Tid] {disk : Key → Block} {zero : Block}

/-- What holds after the events `as`, of every block whose users have kept the discipline. -/
structure Inv (disk : Key → Block) (as : List (Event n Block)) (order : List (Fin n))
    (s : State n Tid Block) : Prop extends BufInv as order s where
  pins : PinInv as s
  data : ∀ k, Disciplined k as → DataInv (contents disk as) (changed k as) k s

omit [DecidableEq Tid] in
/-- It holds after `binit`, when no block is in a buffer. -/
theorem inv_init (disk : Key → Block) (zero : Block) :
    Inv disk [] (List.finRange n).reverse (init disk zero : State n Tid Block) where
  toBufInv := bufInv_init disk zero
  pins := ⟨fun _ hb => absurd rfl hb, fun _ _ => rfl⟩
  data _ _ := ⟨fun _ _ hvalid => absurd hvalid Bool.false_ne_true, fun _ => rfl, fun _ => rfl⟩

/-- **Every step keeps all of it**, for each block as long as its users keep the discipline. -/
theorem Inv.step (h : Inv disk as order s)
    (hstep : Step s a s') : ∃ order', Inv disk (as ++ [a]) order' s' := by
  obtain ⟨order', hbuf⟩ := h.toBufInv.step hstep
  refine ⟨order', hbuf, h.pins.step h.use h.list hstep, fun k hk => ?_⟩
  rw [contents_snoc, changed_snoc]
  exact (h.data k (disciplined_snoc.1 hk).1).step h.use h.list h.pins hk hstep

/-- **All of it holds after every run.** -/
theorem inv_run (h : Runs Step (init disk zero) as s) : ∃ order, Inv disk as order s :=
  h.invariant_labels (P := fun as s => ∃ order, Inv disk as order s) ⟨_, inv_init disk zero⟩
    fun _ _ _ _ ⟨_, hinv⟩ hstep => hinv.step hstep

/-! ### What the users of a block rely on -/

end

end OsLabs.Xv6Bio
