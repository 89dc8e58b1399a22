import OsLabs.Xv6Console

/-!
# The Lines in the Buffer of the Console

The ring buffer of `xv6/kernel/console.c` refines the line discipline `Typed`: `Agrees` says
that the bytes from `r` to `w` are those of the completed lines that nobody has taken, and the
bytes from `w` to `e` the line that is edited.

## Main results

* `Agrees.type`: a key does to the buffer what it does to the lines.
* `Agrees.read`, `readLoop_stop`: what a read takes, and why it ends.
-/

namespace OsLabs.Xv6Console

variable {s : Cons} {c : UInt8} {d : Typed}

/-- The index of a counter in the buffer goes on where the counter wraps. -/
theorem bufSize_dvd : INPUT_BUF_SIZE ∣ 2 ^ 32 := by decide

/-- The buffer is smaller than the range of the counters. -/
theorem bufSize_lt : INPUT_BUF_SIZE < 2 ^ 32 := by decide

/-- The buffer does not overflow, and when it is full everything in it can be read. -/
structure ConsInv (s : Cons) : Prop where
  room : ringLength s.r s.w + ringLength s.w s.e ≤ INPUT_BUF_SIZE
  full : ringLength s.r s.w + ringLength s.w s.e = INPUT_BUF_SIZE → s.e = s.w
  plain : ∀ c ∈ s.line, c ≠ newline ∧ c ≠ ctrl 'D'

/-- What is in the buffer is what can be read and the line that is edited. -/
theorem ConsInv.length (h : ConsInv s) :
    ringLength s.r s.e = ringLength s.r s.w + ringLength s.w s.e :=
  ringLength_add (h.room.trans_lt bufSize_lt)

/-! ### Keys -/

/-- The loop of `^U` goes to the start of the line. -/
theorem kill_eq (h : ∀ c ∈ s.line, c ≠ newline) {fuel : ℕ} (hfuel : fuel = ringLength s.w s.e) :
    (Cons.kill fuel s).1 = { s with e := s.w } := by
  induction fuel generalizing s with
  | zero =>
    obtain ⟨buf, r, w, e⟩ := s
    obtain rfl : w = e := ringLength_eq_zero.1 hfuel.symm
    rfl
  | succ fuel ih =>
    have hne : s.w ≠ s.e := fun heq => by
      rw [heq, ringLength_self] at hfuel
      exact nomatch hfuel
    have hline : s.line = Cons.line { s with e := s.e - 1 } ++
        [s.buf ((s.e - 1).toNat % INPUT_BUF_SIZE)] := ringContents_unpush bufSize_dvd hne
    rw [hline] at h
    have hlast := h _ (List.mem_append_right _ (List.mem_singleton_self _))
    have hpred : fuel = ringLength s.w (s.e - 1) := by
      have hlen := ringLength_pred hne
      omega
    rw [Cons.kill, if_pos ⟨hne.symm, hlast⟩]
    exact ih (s := { s with e := s.e - 1 }) (fun c hc => h c (List.mem_append_left _ hc)) hpred

/-- **What has been typed, and the buffer**: the bytes that can be read are the completed ones not
yet taken, and the bytes after them are the line. -/
structure Agrees (d : Typed) (s : Cons) : Prop where
  ready : d.completed.drop d.taken = s.ready
  line : d.line = s.line
  taken : d.taken ≤ d.completed.length

/-- The test of `consoleintr` for room, by what has been typed. -/
theorem Agrees.length (h : Agrees d s) (hinv : ConsInv s) :
    d.completed.length - d.taken + d.line.length = (s.e - s.r).toNat := by
  have hready := congrArg List.length h.ready
  rw [List.length_drop, Cons.ready, length_ringContents] at hready
  rw [h.line, Cons.line, length_ringContents, hready]
  exact hinv.length.symm

/-- `cons.buf[cons.e++ % INPUT_BUF_SIZE] = c`. -/
def put (s : Cons) (c : UInt8) : Cons :=
  { s with buf := Function.update s.buf (s.e.toNat % INPUT_BUF_SIZE) c, e := s.e + 1 }

/-- A byte is put at the end of the line. -/
theorem put_spec (hinv : ConsInv s) (hroom : ringLength s.r s.e < INPUT_BUF_SIZE) (c : UInt8) :
    (put s c).ready = s.ready ∧ (put s c).line = s.line ++ [c] ∧
      ringLength s.r (s.e + 1) = ringLength s.r s.e + 1 ∧
      ringLength s.w (s.e + 1) = ringLength s.w s.e + 1 := by
  have hlen := hinv.length
  have hlt := bufSize_lt
  have hcut : ∀ buf : ℕ → UInt8, ringContents INPUT_BUF_SIZE buf s.r s.e =
      ringContents INPUT_BUF_SIZE buf s.r s.w ++ ringContents INPUT_BUF_SIZE buf s.w s.e :=
    fun _ => ringContents_append bufSize_dvd (by omega)
  -- The cell is behind all that is in the buffer.
  have hall : ringContents INPUT_BUF_SIZE
      (Function.update s.buf (s.e.toNat % INPUT_BUF_SIZE) c) s.r s.e =
      ringContents INPUT_BUF_SIZE s.buf s.r s.e := ringContents_update bufSize_dvd hroom c
  rw [hcut, hcut] at hall
  have hroom' : ringLength s.w s.e < INPUT_BUF_SIZE := by omega
  have hready := List.append_inj_left hall (by rw [length_ringContents, length_ringContents])
  exact ⟨hready, ringContents_push bufSize_dvd hlt hroom' c, ringLength_succ (by omega),
    ringLength_succ (by omega)⟩

/-- A byte that completes the line makes all of it ready for the readers. -/
theorem Agrees.complete (h : Agrees d s) (hinv : ConsInv s)
    (hroom : ringLength s.r s.e < INPUT_BUF_SIZE) (c : UInt8) :
    Agrees { d with completed := d.completed ++ (d.line ++ [c]), line := [] }
        { put s c with w := s.e + 1 } ∧
      ConsInv { put s c with w := s.e + 1 } := by
  obtain ⟨hready, hline, hlenr, hlenw⟩ := put_spec hinv hroom c
  have hlen := hinv.length
  have hlt := bufSize_lt
  have hall : ringContents INPUT_BUF_SIZE (put s c).buf s.r (s.e + 1) =
      (put s c).ready ++ (put s c).line := by
    refine ringContents_append bufSize_dvd ?_
    change ringLength s.r s.w + ringLength s.w (s.e + 1) < _
    omega
  have hnil : Cons.line { put s c with w := s.e + 1 } = [] := ringContents_self
  refine ⟨⟨?_, hnil.symm, ?_⟩, ?_, fun _ => rfl, fun x hx => ?_⟩
  · rw [List.drop_append_of_le_length h.taken, h.ready, h.line, ← hready, ← hline]
    exact hall.symm
  · rw [List.length_append]
    exact h.taken.trans (Nat.le_add_right _ _)
  · change ringLength s.r (s.e + 1) + ringLength (s.e + 1) (s.e + 1) ≤ _
    rw [ringLength_self, hlenr]
    omega
  · rw [hnil] at hx
    exact absurd hx List.not_mem_nil

/-- The byte belongs to the line and leaves room. -/
theorem Agrees.extend (h : Agrees d s) (hinv : ConsInv s)
    (hroom : ringLength s.r s.e < INPUT_BUF_SIZE) (hnewline : c ≠ newline) (heof : c ≠ ctrl 'D')
    (hfull : ringLength s.r (s.e + 1) ≠ INPUT_BUF_SIZE) :
    Agrees { d with line := d.line ++ [c] } (put s c) ∧ ConsInv (put s c) := by
  obtain ⟨hready, hline, hlenr, hlenw⟩ := put_spec hinv hroom c
  have hlen := hinv.length
  refine ⟨⟨h.ready.trans hready.symm, ?_, h.taken⟩, ?_, fun hall => ?_, fun x hx => ?_⟩
  · rw [h.line, hline]
  · change ringLength s.r s.w + ringLength s.w (s.e + 1) ≤ _
    omega
  · change ringLength s.r s.w + ringLength s.w (s.e + 1) = _ at hall
    omega
  · rw [hline, List.mem_append, List.mem_singleton] at hx
    rcases hx with hx | rfl
    · exact hinv.plain x hx
    · exact ⟨hnewline, heof⟩

/-- **A key does to the buffer what it does to the line.** -/
theorem Agrees.type (h : Agrees d s) (hinv : ConsInv s) (c : UInt8) :
    Agrees (d.type c) (s.consoleintr c).1 ∧ ConsInv (s.consoleintr c).1 := by
  have hlen := h.length hinv
  have hplain : ∀ c ∈ s.line, c ≠ newline := fun c hc => (hinv.plain c hc).1
  unfold Cons.consoleintr Typed.type
  split
  · exact ⟨h, hinv⟩
  split
  · -- `^U`
    change Agrees _ (Cons.kill (ringLength s.w s.e) s).1 ∧
      ConsInv (Cons.kill (ringLength s.w s.e) s).1
    rw [kill_eq hplain rfl]
    have hline : Cons.line { s with e := s.w } = [] := ringContents_self
    refine ⟨⟨h.ready, hline.symm, h.taken⟩, ?_, fun _ => rfl, by simp [hline]⟩
    have hroom := hinv.room
    change ringLength s.r s.w + ringLength s.w s.w ≤ _
    rw [ringLength_self]
    omega
  split
  · -- `^H`
    split
    · rename_i hne
      have hline : s.line = Cons.line { s with e := s.e - 1 } ++
          [s.buf ((s.e - 1).toNat % INPUT_BUF_SIZE)] := ringContents_unpush bufSize_dvd hne.symm
      have hpred : ringLength s.w (s.e - 1) + 1 = ringLength s.w s.e :=
        ringLength_pred hne.symm
      have hroom := hinv.room
      refine ⟨⟨h.ready, ?_, h.taken⟩, ?_, fun hfull => ?_, fun c hc => ?_⟩
      · rw [h.line, hline, List.dropLast_concat]
      · change ringLength s.r s.w + ringLength s.w (s.e - 1) ≤ _
        omega
      · change ringLength s.r s.w + ringLength s.w (s.e - 1) = _ at hfull
        omega
      · exact hinv.plain c (hline ▸ List.mem_append_left _ hc)
    · rename_i heq
      rw [not_not] at heq
      have hline : s.line = [] := ringContents_eq_nil.2 heq.symm
      refine ⟨⟨h.ready, ?_, h.taken⟩, hinv⟩
      rw [h.line, hline]
      rfl
  rw [hlen]
  split
  · rename_i hroom
    obtain ⟨-, hroom⟩ := hroom
    change ringLength s.r s.e < INPUT_BUF_SIZE at hroom
    generalize (if c = 13 then newline else c) = c
    have hlen' : d.completed.length - d.taken + (d.line ++ [c]).length =
        ringLength s.r (s.e + 1) := by
      rw [List.length_append, List.length_singleton, ← Nat.add_assoc, hlen,
        (put_spec hinv hroom c).2.2.1]
      rfl
    by_cases hdone : c = newline ∨ c = ctrl 'D' ∨ ringLength s.r (s.e + 1) = INPUT_BUF_SIZE
    · simp only [hlen', if_pos hdone]
      rw [if_pos (show c = newline ∨ c = ctrl 'D' ∨ (s.e + 1 - s.r).toNat = _ from hdone)]
      exact h.complete hinv hroom c
    · simp only [hlen', if_neg hdone]
      rw [if_neg (show ¬(c = newline ∨ c = ctrl 'D' ∨ (s.e + 1 - s.r).toNat = _) from hdone)]
      rw [not_or, not_or] at hdone
      exact h.extend hinv hroom hdone.1 hdone.2.1 hdone.2.2
  · exact ⟨h, hinv⟩

/-! ### Reads -/

/-- The byte that a reader takes is the first one that can be read. -/
theorem ready_pop (h : s.r ≠ s.w) :
    s.ready = s.buf (s.r.toNat % INPUT_BUF_SIZE) :: Cons.ready { s with r := s.r + 1 } :=
  ringContents_pop bufSize_dvd h

/-- A section of a read takes the first bytes. -/
theorem readLoop_takes (s : Cons) (target n : ℕ) (killed : Bool) (ok : ℕ → Bool) :
    (s.readLoop target killed ok n).1.buf = s.buf ∧
      (s.readLoop target killed ok n).1.w = s.w ∧ (s.readLoop target killed ok n).1.e = s.e ∧
      (s.readLoop target killed ok n).2.1.map Prod.fst ++
        (s.readLoop target killed ok n).1.ready = s.ready := by
  induction n generalizing s with
  | zero => exact ⟨rfl, rfl, rfl, rfl⟩
  | succ n ih =>
    unfold Cons.readLoop
    split
    · exact ⟨rfl, rfl, rfl, rfl⟩
    rename_i hne
    have hpop := ready_pop hne
    dsimp only
    split
    · split
      · rw [BitVec.add_sub_cancel]
        exact ⟨rfl, rfl, rfl, rfl⟩
      · exact ⟨rfl, rfl, rfl, hpop.symm⟩
    split
    · exact ⟨rfl, rfl, rfl, hpop.symm⟩
    split
    · exact ⟨rfl, rfl, rfl, hpop.symm⟩
    obtain ⟨hbuf, hw, he, htakes⟩ := ih { s with r := s.r + 1 }
    refine ⟨hbuf, hw, he, ?_⟩
    rw [hpop, ← htakes]
    rfl

/-- Bytes that a read has delivered and goes on after. -/
def Plain (m : List (UInt8 × Bool)) : Prop :=
  ∀ x ∈ m, x.2 = true ∧ x.1 ≠ newline ∧ x.1 ≠ ctrl 'D'

/-- What a read for `target` bytes has got when it returns `v`, with `rest` left to read: the
bytes `good`, of which a newline is the last, and perhaps one more byte, which was a `^D` or
could not be copied out. A short read has met the end of a line or of the input or a failure. -/
def Returned (target : ℕ) (m : List (UInt8 × Bool)) (rest : List UInt8) (v : ℤ) : Prop :=
  ∃ good bad, m = good ++ bad ∧ v = good.length ∧ good.length ≤ target ∧
    (∀ x ∈ good, x.2 = true ∧ x.1 ≠ ctrl 'D') ∧ (∀ x ∈ good.dropLast, x.1 ≠ newline) ∧
    bad.length ≤ 1 ∧ (∀ x ∈ bad, x.2 = false) ∧
    (good.length < target → good.getLast? = some (newline, true) ∨ bad ≠ [] ∨
      good ≠ [] ∧ rest.head? = some (ctrl 'D'))

/-- A read that has delivered bytes returns their number. -/
theorem Plain.returned {target : ℕ} {m bad : List (UInt8 × Bool)} {rest : List UInt8} {v : ℤ}
    (h : Plain m)
    (hv : v = m.length) (hlen : m.length ≤ target) (hbad : bad.length ≤ 1)
    (hfalse : ∀ x ∈ bad, x.2 = false)
    (hshort : m.length < target → bad ≠ [] ∨ m ≠ [] ∧ rest.head? = some (ctrl 'D')) :
    Returned target (m ++ bad) rest v :=
  ⟨m, bad, rfl, hv, hlen, fun x hx => ⟨(h x hx).1, (h x hx).2.2⟩,
    fun x hx => (h x (List.mem_of_mem_dropLast hx)).2.1, hbad, hfalse, fun hlt =>
    .inr (hshort hlt)⟩

/-- **A section of a read** that has got the bytes `m` before. -/
theorem readLoop_stop (s : Cons) {target n : ℕ} (killed : Bool) (ok : ℕ → Bool)
    {m : List (UInt8 × Bool)} (hm : Plain m) (hlen : m.length + n = target) :
    (∀ k, (s.readLoop target killed ok n).2.2 = .sleeps k →
      Plain (m ++ (s.readLoop target killed ok n).2.1) ∧
      (m ++ (s.readLoop target killed ok n).2.1).length + k = target ∧
      (s.readLoop target killed ok n).1.r = s.w) ∧
    ∀ v, (s.readLoop target killed ok n).2.2 = .returns v →
      (v = -1 ∧ killed = true ∧ (s.readLoop target killed ok n).1.ready = []) ∨
      Returned target (m ++ (s.readLoop target killed ok n).2.1)
        (s.readLoop target killed ok n).1.ready v := by
  induction n generalizing s m with
  | zero =>
    refine ⟨fun k hk => (nomatch hk), fun v hv => .inr ?_⟩
    obtain rfl := Cons.ReadEnd.returns.inj hv
    have hret : Returned target (m ++ []) s.ready target :=
      hm.returned (by rw [← hlen, Nat.add_zero]) hlen.le (by simp) (by simp)
        fun hlt => absurd hlen hlt.ne
    exact hret
  | succ n ih =>
    have hv : (target : ℤ) - (n + 1) = m.length := by omega
    unfold Cons.readLoop
    split
    · rename_i heq
      cases killed with
      | true =>
        exact ⟨fun k hk => (nomatch hk), fun v hv =>
          .inl ⟨(Cons.ReadEnd.returns.inj hv).symm, rfl, ringContents_eq_nil.2 heq⟩⟩
      | false =>
        refine ⟨fun k hk => ?_, fun v hv => nomatch hv⟩
        obtain rfl := Cons.ReadEnd.sleeps.inj hk
        rw [List.append_nil]
        exact ⟨hm, hlen, heq⟩
    rename_i hne
    have hpop := ready_pop hne
    generalize s.buf (s.r.toNat % INPUT_BUF_SIZE) = c at hpop
    have hlast : Returned target (m ++ [(c, false)]) (Cons.ready { s with r := s.r + 1 })
        (target - (n + 1)) :=
      hm.returned hv (by omega) (by simp) (by simp) fun _ => .inl (List.cons_ne_nil _ _)
    dsimp only
    split
    · rename_i heof
      split
      · rename_i hgot
        refine ⟨fun k hk => (nomatch hk), fun v hv' => .inr ?_⟩
        obtain rfl := Cons.ReadEnd.returns.inj hv'
        rw [BitVec.add_sub_cancel]
        have hret : Returned target (m ++ []) s.ready (target - (n + 1)) := by
          refine hm.returned hv (by omega) (by simp) (by simp) fun _ => .inr ⟨?_, ?_⟩
          · rintro rfl
            rw [List.length_nil] at hlen
            omega
          · rw [hpop, heof]
            rfl
        exact hret
      · refine ⟨fun k hk => (nomatch hk), fun v hv' => .inr ?_⟩
        obtain rfl := Cons.ReadEnd.returns.inj hv'
        exact hlast
    rename_i heof
    split
    · refine ⟨fun k hk => (nomatch hk), fun v hv' => .inr ?_⟩
      obtain rfl := Cons.ReadEnd.returns.inj hv'
      exact hlast
    split
    · rename_i hnewline
      refine ⟨fun k hk => (nomatch hk), fun v hv' => .inr ?_⟩
      obtain rfl := Cons.ReadEnd.returns.inj hv'
      refine ⟨m ++ [(c, true)], [], by simp, ?_, ?_, ?_, ?_, by simp, by simp, fun _ => .inl ?_⟩
      · rw [List.length_append, List.length_singleton]
        omega
      · rw [List.length_append, List.length_singleton]
        omega
      · intro x hx
        rw [List.mem_append, List.mem_singleton] at hx
        rcases hx with hx | rfl
        · exact ⟨(hm x hx).1, (hm x hx).2.2⟩
        · exact ⟨rfl, heof⟩
      · rw [List.dropLast_concat]
        exact fun x hx => (hm x hx).2.1
      · rw [List.getLast?_concat, hnewline]
    · rename_i hnewline
      have hm' : Plain (m ++ [(c, true)]) := by
        intro x hx
        rw [List.mem_append, List.mem_singleton] at hx
        rcases hx with hx | rfl
        · exact hm x hx
        · exact ⟨rfl, hnewline, heof⟩
      have hrest := ih { s with r := s.r + 1 } hm' (by simp; omega)
      rw [List.append_assoc] at hrest
      exact hrest

/-- What is left of what has been typed after a section of a read. -/
theorem Agrees.read (h : Agrees d s) (hinv : ConsInv s) (target n : ℕ) (killed : Bool)
    (ok : ℕ → Bool) :
    Agrees { d with taken := d.taken + (s.readLoop target killed ok n).2.1.length }
        (s.readLoop target killed ok n).1 ∧
      ConsInv (s.readLoop target killed ok n).1 := by
  generalize hres : s.readLoop target killed ok n = res
  obtain ⟨hbuf, hw, he, htakes⟩ := hres ▸ readLoop_takes s target n killed ok
  obtain ⟨s', taken, stop⟩ := res
  dsimp only at hbuf hw he htakes ⊢
  have hline : s'.line = s.line := by rw [Cons.line, hbuf, hw, he, Cons.line]
  have hlen := congrArg List.length htakes
  rw [List.length_append, List.length_map, Cons.ready, Cons.ready, length_ringContents,
    length_ringContents, hw] at hlen
  have hroom := hinv.room
  refine ⟨⟨?_, h.line.trans hline.symm, ?_⟩, ?_, fun hfull => ?_, fun c hc => ?_⟩
  · rw [← List.drop_drop, h.ready, ← htakes, List.drop_left' (List.length_map _)]
  · have hready := congrArg List.length h.ready
    rw [List.length_drop, Cons.ready, length_ringContents] at hready
    have htaken := h.taken
    dsimp only
    omega
  · rw [hw, he]
    omega
  · rw [hw, he] at hfull ⊢
    exact hinv.full (by omega)
  · rw [hline] at hc
    exact hinv.plain c hc

/-- A key takes nothing back from the completed lines. -/
theorem type_completed (d : Typed) (c : UInt8) :
    ∃ more, (d.type c).completed = d.completed ++ more ∧ (d.type c).taken = d.taken := by
  unfold Typed.type
  dsimp only
  split_ifs
  all_goals first
    | exact ⟨_, rfl, rfl⟩
    | exact ⟨[], (List.append_nil _).symm, rfl⟩

/-- The loop of `^U` does not touch what can be read. -/
theorem kill_ready (fuel : ℕ) (s : Cons) :
    (Cons.kill fuel s).1.r = s.r ∧ (Cons.kill fuel s).1.w = s.w := by
  induction fuel generalizing s with
  | zero => exact ⟨rfl, rfl⟩
  | succ fuel ih =>
    unfold Cons.kill
    split
    · exact ih { s with e := s.e - 1 }
    · exact ⟨rfl, rfl⟩

/-- A key that wakes nobody up completes no line. -/
theorem consoleintr_quiet (h : (s.consoleintr c).2.2 = false) :
    (s.consoleintr c).1.r = s.r ∧ (s.consoleintr c).1.w = s.w := by
  unfold Cons.consoleintr at h ⊢
  dsimp only at h ⊢
  split_ifs at h ⊢
  all_goals first
    | exact ⟨rfl, rfl⟩
    | exact kill_ready _ s

end OsLabs.Xv6Console
