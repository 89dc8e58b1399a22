import OsLabs.Xv6Bio

/-!
# The Buffers of xv6: References and Recency

What holds of the buffers of `OsLabs.Xv6Bio` whatever their users do: the reference counts
and the sleep locks say who uses a buffer, the links are a list of all buffers in which there
is one buffer for a block, and this list follows the times at which the buffers lost their
last references.

## Main results

* `exclusive`: a buffer in use holds its block, one user at a time.
* `unused_least_recent`: the buffer that is recycled is the one unused for the longest time.
* `bget_eq_none_iff`: when `bget` panics.
-/

namespace OsLabs.Xv6Bio

variable {n : ℕ} {Tid Block : Type} [DecidableEq Tid] {s s' : State n Tid Block}
  {order : List (Fin n)} {t u : Tid} {b c : Fin n} {k : Key} {a : Event n Block}

/-! ### Users -/

/-- The user is counted in `refcnt` of the buffer. -/
def User.refers (b : Fin n) (u : User n) : Bool := u.ref == some b

/-- What the references and the locks of the buffers say about the users. -/
structure UseInv [Fintype Tid] (s : State n Tid Block) : Prop where
  refs : ∀ b, (s.buf b).refcnt =
    (Finset.univ.filter fun t => (s.user t).refers b).card + s.pins b
  lock : ∀ b t, s.lock b = some t ↔ (s.user t).holds = some b
  key : ∀ t b k, (s.user t).got = some (b, k) → (s.buf b).key = k
  valid : ∀ t b k, s.user t = .inUse b k → (s.buf b).valid = true

/-- Only the user `t`, which refers to `b` at most, and the buffer `b` change. -/
structure Changes (s s' : State n Tid Block) (t : Tid) (b : Fin n) : Prop where
  user : ∀ u, u ≠ t → s'.user u = s.user u
  only : ∀ c, c ≠ b → (s.user t).ref ≠ some c ∧ (s'.user t).ref ≠ some c
  buf : ∀ c, c ≠ b → s'.buf c = s.buf c
  lock : ∀ c, c ≠ b → s'.lock c = s.lock c
  pins : ∀ c, c ≠ b → s'.pins c = s.pins c

/-- Who has the lock of a buffer refers to it. -/
theorem User.ref_of_holds {u : User n} (h : u.holds = some b) : u.ref = some b := by
  cases u <;> simp_all [User.holds, User.ref]

/-- Who has got a buffer refers to it. -/
theorem User.ref_of_got {u : User n} (h : u.got = some (b, k)) : u.ref = some b := by
  cases u <;> simp_all [User.got, User.ref]

/-- The users after such a step differ in one place. -/
theorem Changes.user_eq (h : Changes s s' t b) :
    s'.user = Function.update s.user t (s'.user t) := by
  funext u
  by_cases hu : u = t
  · rw [hu, Function.update_self]
  · rw [Function.update_of_ne hu, h.user u hu]

section

variable [Fintype Tid]

omit [DecidableEq Tid] in
/-- The count of a buffer to which a user refers is not 0. -/
theorem UseInv.refcnt_pos (h : UseInv s) (ht : (s.user t).ref = some b) :
    0 < (s.buf b).refcnt := by
  have hpos : 0 < (Finset.univ.filter fun t => (s.user t).refers b).card :=
    Finset.card_pos.2 ⟨t, by simpa [User.refers] using ht⟩
  rw [h.refs b]
  omega

omit [DecidableEq Tid] in
/-- The user of a buffer has its lock. -/
theorem UseInv.lock_of_inUse (h : UseInv s) (ht : s.user t = .inUse b k) : s.lock b = some t :=
  (h.lock b t).2 (by rw [ht]; rfl)

omit [DecidableEq Tid] in
/-- The buffer in use is for the block that the user has asked for. -/
theorem UseInv.key_of_inUse (h : UseInv s) (ht : s.user t = .inUse b k) : (s.buf b).key = k :=
  h.key t b k (by rw [ht]; rfl)

omit [DecidableEq Tid] in
/-- Nobody has the lock of a buffer without a reference, and it has no pin. -/
theorem UseInv.unused (h : UseInv s) (hzero : (s.buf b).refcnt = 0) :
    s.pins b = 0 ∧ s.lock b = none := by
  have hrefs := h.refs b
  refine ⟨by omega, Option.eq_none_iff_forall_ne_some.2 fun u hu => ?_⟩
  have hpos := h.refcnt_pos (User.ref_of_holds ((h.lock b u).1 hu))
  omega

/-- The invariant is kept by a step that changes one user and one buffer, if the count follows
the reference of the user, the others keep their block, and what the user has fits. -/
theorem UseInv.changes (h : UseInv s) (hch : Changes s s' t b)
    (hrefs : (s'.buf b).refcnt + ((s.user t).refers b).toNat + s.pins b =
      (s.buf b).refcnt + ((s'.user t).refers b).toNat + s'.pins b)
    (hkeep : ∀ u, u ≠ t → (s.user u).ref = some b → (s'.buf b).key = (s.buf b).key ∧
      ((s.buf b).valid = true → (s'.buf b).valid = true))
    (hlock : s'.lock b = some t ↔ (s'.user t).holds = some b)
    (hothers : ∀ u, u ≠ t → (s'.lock b = some u ↔ s.lock b = some u))
    (hkey : ∀ k, (s'.user t).got = some (b, k) → (s'.buf b).key = k)
    (hvalid : ∀ k, s'.user t = .inUse b k → (s'.buf b).valid = true) : UseInv s' where
  refs c := by
    have hcard := card_filter_update (User.refers c) s.user t (s'.user t)
    rw [← hch.user_eq] at hcard
    have hrefc := h.refs c
    by_cases hc : c = b
    · subst hc
      omega
    · have hbefore : (s.user t).refers c = false := beq_false_of_ne (hch.only c hc).1
      have hafter : (s'.user t).refers c = false := beq_false_of_ne (hch.only c hc).2
      rw [hbefore, hafter] at hcard
      rw [hch.buf c hc, hch.pins c hc, hrefc]
      exact congrArg (· + _) (Nat.add_right_cancel hcard).symm
  lock c u := by
    by_cases hu : u = t
    · subst hu
      by_cases hc : c = b
      · rw [hc, hlock]
      · rw [hch.lock c hc, h.lock]
        exact iff_of_false (fun hh => (hch.only c hc).1 (User.ref_of_holds hh))
          fun hh => (hch.only c hc).2 (User.ref_of_holds hh)
    · rw [hch.user u hu, ← h.lock]
      by_cases hc : c = b
      · rw [hc, hothers u hu]
      · rw [hch.lock c hc]
  key u c k hgot := by
    by_cases hu : u = t
    · subst hu
      obtain rfl : c = b := by_contra fun hc => (hch.only c hc).2 (User.ref_of_got hgot)
      exact hkey k hgot
    · rw [hch.user u hu] at hgot
      have hkeyc := h.key u c k hgot
      by_cases hc : c = b
      · subst hc
        rw [(hkeep u hu (User.ref_of_got hgot)).1, hkeyc]
      · rw [hch.buf c hc, hkeyc]
  valid u c k huse := by
    have href : (s'.user u).ref = some c := by rw [huse]; rfl
    by_cases hu : u = t
    · subst hu
      obtain rfl : c = b := by_contra fun hc => (hch.only c hc).2 href
      exact hvalid k huse
    · rw [hch.user u hu] at huse href
      have hval := h.valid u c k huse
      by_cases hc : c = b
      · subst hc
        exact (hkeep u hu href).2 hval
      · rwa [hch.buf c hc]

end

/-! ### The list of the buffers -/

/-- The buffer is the one for its block. -/
def State.Live (s : State n Tid Block) (b : Fin n) : Prop :=
  (s.buf b).valid = true ∨ 0 < (s.buf b).refcnt

/-- The links are a list of all buffers, in which the loop of `bget` finds the live ones. -/
structure ListInv (order : List (Fin n)) (s : State n Tid Block) : Prop where
  rings : s.links.Rings order
  mem : ∀ b, b ∈ order
  live : ∀ b, s.Live b → order.find? (fun c => (s.buf c).key == (s.buf b).key) = some b

section

omit [DecidableEq Tid]

/-- The loops of `bget` have turns enough for all buffers. -/
theorem length_le (h : s.links.Rings order) : order.length < n + 1 := by
  have hle := h.nodup.length_le_card
  rw [Fintype.card_fin] at hle
  exact Nat.lt_succ_of_le hle

/-- The first loop of `bget` takes the first buffer of the list that is for the block. -/
theorem findKey_eq (h : s.links.Rings order) (k : Key) :
    s.findKey k = order.find? fun b => (s.buf b).key == k :=
  h.scan_next _ (length_le h)

/-- The second loop of `bget` takes the last buffer of the list without a reference. -/
theorem findUnused_eq (h : s.links.Rings order) :
    s.findUnused = order.reverse.find? fun b => (s.buf b).refcnt == 0 :=
  h.scan_prev _ (length_le h)

/-- **There is one buffer for a block.** -/
theorem ListInv.unique (h : ListInv order s) (hb : s.Live b) (hc : s.Live c)
    (hkey : (s.buf b).key = (s.buf c).key) : b = c := by
  have hfind := h.live b hb
  rw [hkey, h.live c hc] at hfind
  exact (Option.some.inj hfind).symm

/-- `bget` finds the block, or no buffer is for it and an unused one is recycled. -/
theorem ListInv.bget_cases (h : ListInv order s) (hget : s.bget k = some (s', b)) :
    (order.find? (fun c => (s.buf c).key == k) = some b ∧
      s' = s.setBuf b { s.buf b with refcnt := (s.buf b).refcnt + 1 }) ∨
    ((∀ c, (s.buf c).key ≠ k) ∧
      order.reverse.find? (fun c => (s.buf c).refcnt == 0) = some b ∧
      s' = s.setBuf b { s.buf b with key := k, valid := false, refcnt := 1 }) := by
  rw [State.bget, findKey_eq h.rings, findUnused_eq h.rings] at hget
  cases hkey : order.find? fun c => (s.buf c).key == k with
  | some c =>
    rw [hkey] at hget
    obtain ⟨rfl, rfl⟩ := Prod.mk.inj (Option.some.inj hget)
    exact .inl ⟨rfl, rfl⟩
  | none =>
    rw [hkey] at hget
    have hmiss : ∀ c, (s.buf c).key ≠ k := fun c hc =>
      List.find?_eq_none.1 hkey c (h.mem c) (beq_iff_eq.2 hc)
    cases hfree : order.reverse.find? fun c => (s.buf c).refcnt == 0 with
    | none => rw [hfree] at hget; exact nomatch hget
    | some c =>
      rw [hfree] at hget
      obtain ⟨rfl, rfl⟩ := Prod.mk.inj (Option.some.inj hget)
      exact .inr ⟨hmiss, rfl, rfl⟩

/-- The buffer that changes keeps its block and is the one for it. -/
theorem ListInv.keep (h : ListInv order s) (hlinks : s'.links = s.links)
    (hkey : (s'.buf b).key = (s.buf b).key) (hbuf : ∀ c, c ≠ b → s'.buf c = s.buf c)
    (hb : order.find? (fun c => (s.buf c).key == (s.buf b).key) = some b) :
    ListInv order s' where
  rings := by rw [hlinks]; exact h.rings
  mem := h.mem
  live c hc := by
    have hkeys : ∀ d, (s'.buf d).key = (s.buf d).key := fun d => by
      by_cases hd : d = b
      · rw [hd, hkey]
      · rw [hbuf d hd]
    simp only [hkeys]
    by_cases hcb : c = b
    · rw [hcb, hb]
    · rw [State.Live, hbuf c hcb] at hc
      exact h.live c hc

/-- A buffer gets another block, for which there was none. -/
theorem ListInv.recycle (h : ListInv order s) (hlinks : s'.links = s.links)
    (hmiss : ∀ c, (s.buf c).key ≠ k) (hkey : (s'.buf b).key = k)
    (hbuf : ∀ c, c ≠ b → s'.buf c = s.buf c) : ListInv order s' where
  rings := by rw [hlinks]; exact h.rings
  mem := h.mem
  live c hc := by
    by_cases hcb : c = b
    · subst hcb
      refine find?_eq_of_only (h.mem c) fun d => ?_
      rw [beq_iff_eq, hkey]
      refine ⟨fun hd => by_contra fun hdc => hmiss d ?_, fun hd => hd ▸ hkey⟩
      rw [← hd, hbuf d hdc]
    · have hlive : s.Live c := by rwa [State.Live, hbuf c hcb] at hc
      rw [hbuf c hcb]
      refine find?_mono (h.live c hlive) (fun d hd => ?_) (by rw [hbuf c hcb, beq_self_eq_true])
      by_cases hdb : d = b
      · subst hdb
        rw [beq_iff_eq, hkey] at hd
        exact absurd hd.symm (hmiss c)
      · rwa [hbuf d hdb] at hd

/-- A buffer that is unlinked and inserted behind the head moves to the front of the order. -/
theorem ListInv.moveFront (h : ListInv order s)
    (hlinks : s'.links = (s.links.unlink b).insertFront b) (hb : s.Live b)
    (hkey : ∀ c, (s'.buf c).key = (s.buf c).key) (hlive : ∀ c, s'.Live c → s.Live c) :
    ListInv (b :: order.erase b) s' where
  rings := by rw [hlinks]; exact h.rings.moveFront (h.mem b)
  mem c := by
    by_cases hc : c = b
    · exact hc ▸ List.mem_cons_self
    · exact List.mem_cons_of_mem b ((List.mem_erase_of_ne hc).2 (h.mem c))
  live c hc := by
    simp only [hkey]
    by_cases hcb : c = b
    · rw [hcb]
      exact List.find?_cons_of_pos (beq_self_eq_true (s.buf b).key)
    · have hne : (fun d => (s.buf d).key == (s.buf c).key) b = false :=
        beq_false_of_ne fun heq => hcb (h.unique hb (hlive c hc) heq).symm
      calc (b :: order.erase b).find? (fun d => (s.buf d).key == (s.buf c).key)
          = (order.erase b).find? (fun d => (s.buf d).key == (s.buf c).key) :=
            List.find?_cons_of_neg (ne_true_of_eq_false hne)
        _ = order.find? (fun d => (s.buf d).key == (s.buf c).key) := find?_erase_of_neg hne
        _ = some c := h.live c (hlive c hc)

end

/-! ### The invariants are kept -/

/-- A step that sets one user changes that user and one buffer only, if the user refers to no
other buffer before and after. -/
theorem changes_of {v : User n} (ht : (s.user t).ref = none ∨ (s.user t).ref = some b)
    (hv : v.ref = none ∨ v.ref = some b) (huser : s'.user = Function.update s.user t v)
    (hbuf : ∀ c, c ≠ b → s'.buf c = s.buf c) (hlock : ∀ c, c ≠ b → s'.lock c = s.lock c)
    (hpins : ∀ c, c ≠ b → s'.pins c = s.pins c) : Changes s s' t b where
  user u hu := by rw [huser, Function.update_of_ne hu]
  only c hc := by
    have hne : ∀ w : User n, w.ref = none ∨ w.ref = some b → w.ref ≠ some c := by
      rintro w (hw | hw) heq
      · exact nomatch hw.symm.trans heq
      · exact hc (Option.some.inj (heq.symm.trans hw))
    exact ⟨hne _ ht, by rw [huser, Function.update_self]; exact hne v hv⟩
  buf := hbuf
  lock := hlock
  pins := hpins

section

variable [Fintype Tid]

/-- **Every step keeps the references and the locks right.** -/
theorem UseInv.step (h : UseInv s) (hlist : ListInv order s) (hstep : Step s a s') :
    UseInv s' := by
  cases hstep with
  | bget t k b s' ht hs' =>
    have hfree : s.lock b ≠ some t := by simp [h.lock, ht, User.holds]
    rcases hlist.bget_cases hs' with ⟨hfind, rfl⟩ | ⟨hmiss, hfind, rfl⟩
    · have hkey : (s.buf b).key = k := by simpa using List.find?_some hfind
      refine h.changes (t := t) (b := b)
        (changes_of (.inl (by rw [ht]; rfl)) (.inr rfl) rfl
          (fun c hc => Function.update_of_ne hc ..) (fun _ _ => rfl) fun _ _ => rfl)
        ?_ ?_ ?_ ?_ ?_ ?_
      all_goals simp [User.refers, ht, hfree, hkey]
    · have hzero : (s.buf b).refcnt = 0 := by simpa using List.find?_some hfind
      have hnone : ∀ u, (s.user u).ref ≠ some b := fun u hu => by
        have hpos := h.refcnt_pos hu
        omega
      refine h.changes (t := t) (b := b)
        (changes_of (.inl (by rw [ht]; rfl)) (.inr rfl) rfl
          (fun c hc => Function.update_of_ne hc ..) (fun _ _ => rfl) fun _ _ => rfl)
        ?_ (fun u _ hu => absurd hu (hnone u)) ?_ ?_ ?_ ?_
      all_goals simp [User.refers, ht, hfree, hzero]
  | acquiresleep t b k ht hfree =>
    refine h.changes (t := t) (b := b)
      (changes_of (.inr (by rw [ht]; rfl)) (.inr rfl) rfl
        (fun _ _ => rfl) (fun c hc => Function.update_of_ne hc ..) fun _ _ => rfl)
      ?_ ?_ ?_ ?_ ?_ ?_
    all_goals simp [State.acquiresleep, User.refers, ht, hfree, h.key t b k]
    exact fun u hu heq => hu heq.symm
  | bread t b k ht =>
    have hlock := (h.lock b t).2 (by rw [ht]; rfl)
    have hkey := h.key t b k (by rw [ht]; rfl)
    cases hvalid : (s.buf b).valid with
    | true =>
      rw [State.bread, if_pos hvalid]
      refine h.changes (t := t) (b := b)
        (changes_of (.inr (by rw [ht]; rfl)) (.inr rfl) rfl (fun _ _ => rfl) (fun _ _ => rfl)
          fun _ _ => rfl)
        ?_ ?_ ?_ ?_ ?_ ?_
      all_goals simp [User.refers, ht, hlock, hkey, hvalid]
    | false =>
      rw [State.bread, if_neg (by simp [hvalid])]
      refine h.changes (t := t) (b := b)
        (changes_of (.inr (by rw [ht]; rfl)) (.inr rfl) rfl
          (fun c hc => Function.update_of_ne hc ..) (fun _ _ => rfl) fun _ _ => rfl)
        ?_ ?_ ?_ ?_ ?_ ?_
      all_goals simp [User.refers, ht, hlock, hkey]
  | store t b k data ht =>
    refine h.changes (t := t) (b := b)
      (changes_of (.inr (by rw [ht]; rfl)) (.inr (by rw [ht]; rfl))
        (Function.update_eq_self t s.user).symm
        (fun c hc => Function.update_of_ne hc ..) (fun _ _ => rfl) fun _ _ => rfl)
      ?_ ?_ ?_ ?_ ?_ ?_
    all_goals simp [State.modify, User.refers, ht, h.lock, h.key t b k, h.valid t b k]
  | bwrite t b k _ ht hs' =>
    rw [State.bwrite, if_pos (h.lock_of_inUse ht)] at hs'
    obtain rfl := Option.some.inj hs'
    exact ⟨h.refs, h.lock, h.key, h.valid⟩
  | bpin t b k ht =>
    refine h.changes (t := t) (b := b)
      (changes_of (.inr (by rw [ht]; rfl)) (.inr (by rw [ht]; rfl))
        (Function.update_eq_self t s.user).symm
        (fun c hc => Function.update_of_ne hc ..) (fun _ _ => rfl)
        fun c hc => Function.update_of_ne hc ..)
      ?_ ?_ ?_ ?_ ?_ ?_
    all_goals simp [State.bpin, User.refers, ht, h.lock, h.key t b k, h.valid t b k]
    omega
  | bunpin t b k ht hpins =>
    have hpos := h.refcnt_pos (t := t) (b := b) (by rw [ht]; rfl)
    refine h.changes (t := t) (b := b)
      (changes_of (.inr (by rw [ht]; rfl)) (.inr (by rw [ht]; rfl))
        (Function.update_eq_self t s.user).symm
        (fun c hc => Function.update_of_ne hc ..) (fun _ _ => rfl)
        fun c hc => Function.update_of_ne hc ..)
      ?_ ?_ ?_ ?_ ?_ ?_
    all_goals simp [State.bunpin, User.refers, ht, h.lock, h.key t b k, h.valid t b k]
    omega
  | releasesleep t b k s' ht hs' =>
    have hlock := h.lock_of_inUse ht
    rw [State.releasesleep, if_pos hlock] at hs'
    obtain rfl := Option.some.inj hs'
    refine h.changes (t := t) (b := b)
      (changes_of (.inr (by rw [ht]; rfl)) (.inr rfl) rfl (fun _ _ => rfl)
        (fun c hc => Function.update_of_ne hc ..) fun _ _ => rfl)
      ?_ ?_ ?_ ?_ ?_ ?_
    all_goals simp [User.refers, ht, hlock]
    exact fun u hu heq => hu heq.symm
  | brelse t b ht =>
    have hpos := h.refcnt_pos (t := t) (b := b) (by rw [ht]; rfl)
    have hlock : s.lock b ≠ some t := by simp [h.lock, ht]
    rw [brelse_eq]
    refine h.changes (t := t) (b := b)
      (changes_of (v := .outside) (.inr (by rw [ht]; rfl)) (.inl rfl) rfl
        (fun c hc => Function.update_of_ne hc ..) (fun _ _ => rfl) fun _ _ => rfl)
      ?_ ?_ ?_ ?_ ?_ ?_
    all_goals simp [User.refers, ht, hlock]
    omega

/-- `c` has lost its last reference later than `b`. Those that never have follow their
numbers, since `binit` inserts each at the front. -/
def IdleLater (as : List (Event n Block)) (c b : Fin n) : Prop :=
  (∃ as₁ as₂, as = as₁ ++ .idle c :: as₂ ∧ .idle b ∉ as₂) ∨
    (.idle c ∉ as ∧ .idle b ∉ as ∧ b < c)

omit [DecidableEq Tid] [Fintype Tid] in
/-- An event of other buffers does not change which of two lost its last reference later. -/
theorem IdleLater.append {as : List (Event n Block)} (h : IdleLater as c b)
    (hb : a ≠ .idle b) (hc : a ≠ .idle c) : IdleLater (as ++ [a]) c b := by
  rcases h with ⟨as₁, as₂, rfl, hnot⟩ | ⟨hnotc, hnotb, hlt⟩
  · refine .inl ⟨as₁, as₂ ++ [a], by simp, ?_⟩
    simpa [hb.symm] using hnot
  · exact .inr ⟨by simp [hnotc, hc.symm], by simp [hnotb, hb.symm], hlt⟩

/-- The list follows the times at which the buffers lost their last references. -/
def Recency (as : List (Event n Block)) (order : List (Fin n)) : Prop :=
  order.Pairwise (IdleLater as)

/-- The order stays if no buffer loses its last reference. -/
theorem Recency.append {as : List (Event n Block)} (h : Recency as order)
    (ha : ∀ b, a ≠ .idle b) : Recency (as ++ [a]) order :=
  h.imp fun hcb => hcb.append (ha _) (ha _)

/-- A buffer that has lost its last reference belongs to the front. -/
theorem Recency.idle {as : List (Event n Block)} (h : Recency as order) (hnodup : order.Nodup) :
    Recency (as ++ [.idle b]) (b :: order.erase b) := by
  have hne : ∀ c ∈ order.erase b, (.idle b : Event n Block) ≠ .idle c := fun c hc heq =>
    ((List.Nodup.mem_erase_iff hnodup).1 hc).1 (Event.idle.inj heq).symm
  refine List.pairwise_cons.2 ⟨fun c _ => .inl ⟨as, [], rfl, List.not_mem_nil⟩, ?_⟩
  exact (h.sublist List.erase_sublist).imp_of_mem fun hc hd hcd =>
    hcd.append (hne _ hd) (hne _ hc)

/-- **Every step keeps the list**, and the order of the list keeps up with the events. -/
theorem ListInv.step (h : ListInv order s) (huse : UseInv s) (hstep : Step s a s') :
    ∃ order', ListInv order' s' ∧
      ∀ as : List (Event n Block), Recency as order → Recency (as ++ [a]) order' := by
  have hfind : ∀ {t b}, (s.user t).ref = some b →
      order.find? (fun c => (s.buf c).key == (s.buf b).key) = some b := fun ht =>
    h.live _ (.inr (huse.refcnt_pos ht))
  cases hstep with
  | bget t k b s' ht hs' =>
    refine ⟨order, ?_, fun as hrec => hrec.append (by simp)⟩
    rcases h.bget_cases hs' with ⟨hfind, rfl⟩ | ⟨hmiss, hfind, rfl⟩
    · have hkey : (s.buf b).key = k := by simpa using List.find?_some hfind
      exact h.keep (b := b) rfl (by simp) (fun c hc => setBuf_buf_of_ne _ hc) (by rwa [hkey])
    · exact h.recycle (b := b) rfl hmiss (by simp) fun c hc => setBuf_buf_of_ne _ hc
  | acquiresleep t b k ht hfree =>
    exact ⟨order, ⟨h.rings, h.mem, h.live⟩, fun as hrec => hrec.append (by simp)⟩
  | bread t b k ht =>
    refine ⟨order, ?_, fun as hrec => hrec.append (by simp)⟩
    unfold State.bread
    split
    · exact ⟨h.rings, h.mem, h.live⟩
    · exact h.keep (b := b) rfl (by simp) (fun c hc => setBuf_buf_of_ne _ hc)
        (hfind (t := t) (by rw [ht]; rfl))
  | store t b k data ht =>
    exact ⟨order, h.keep (b := b) rfl (by simp [State.modify]) (fun c hc => setBuf_buf_of_ne _ hc)
      (hfind (t := t) (by rw [ht]; rfl)), fun as hrec => hrec.append (by simp)⟩
  | bwrite t b k _ ht hs' =>
    rw [State.bwrite, if_pos (huse.lock_of_inUse ht)] at hs'
    obtain rfl := Option.some.inj hs'
    exact ⟨order, ⟨h.rings, h.mem, h.live⟩, fun as hrec => hrec.append (by simp)⟩
  | bpin t b k ht =>
    exact ⟨order, h.keep (b := b) rfl (by simp [State.bpin]) (fun c hc => setBuf_buf_of_ne _ hc)
      (hfind (t := t) (by rw [ht]; rfl)), fun as hrec => hrec.append (by simp)⟩
  | bunpin t b k ht hpins =>
    exact ⟨order, h.keep (b := b) rfl (by simp [State.bunpin])
      (fun c hc => setBuf_buf_of_ne _ hc) (hfind (t := t) (by rw [ht]; rfl)),
      fun as hrec => hrec.append (by simp)⟩
  | releasesleep t b k s' ht hs' =>
    rw [State.releasesleep, if_pos (huse.lock_of_inUse ht)] at hs'
    obtain rfl := Option.some.inj hs'
    exact ⟨order, ⟨h.rings, h.mem, h.live⟩, fun as hrec => hrec.append (by simp)⟩
  | brelse t b ht =>
    have hpos := huse.refcnt_pos (t := t) (b := b) (by rw [ht]; rfl)
    rw [brelse_eq]
    by_cases hone : (s.buf b).refcnt = 1
    · rw [if_pos hone]
      refine ⟨b :: order.erase b, h.moveFront ?_ (.inr hpos) ?_ ?_,
        fun as hrec => hrec.idle h.rings.nodup⟩
      · exact if_pos (by omega)
      · intro c
        by_cases hc : c = b
        · rw [hc, goto_buf]
          simp
        · rw [goto_buf, setBuf_buf_of_ne _ hc]
      · intro c hc
        by_cases hcb : c = b
        · exact .inr (hcb ▸ hpos)
        · rwa [State.Live, goto_buf, setBuf_buf_of_ne _ hcb] at hc
    · rw [if_neg hone]
      refine ⟨order, h.keep (b := b) ?_ (by simp) (fun c hc => setBuf_buf_of_ne _ hc)
        (hfind (t := t) (by rw [ht]; rfl)), fun as hrec => hrec.append (by simp)⟩
      exact if_neg (by omega)

/-! ### All of it -/

/-- **The invariant of the buffers**, whatever their users store: who uses them, in which order
they are linked, and that this order is the one in which they became unused. -/
structure BufInv (as : List (Event n Block)) (order : List (Fin n)) (s : State n Tid Block) :
    Prop where
  use : UseInv s
  list : ListInv order s
  recency : Recency as order

omit [DecidableEq Tid] in
/-- It holds after `binit`, which leaves the last buffer at the front. -/
theorem bufInv_init (disk : Key → Block) (zero : Block) :
    BufInv [] (List.finRange n).reverse (init disk zero : State n Tid Block) where
  use := ⟨fun b => by simp [init, User.refers, User.ref], by simp [init], by simp [init],
    by simp [init]⟩
  list := by
    refine ⟨?_, by simp, by simp [State.Live, init]⟩
    have hrings := (Links.rings_nil (α := Fin n)).foldl_insertFront (List.nodup_finRange n)
      (by simp)
    rwa [List.append_nil] at hrings
  recency := List.pairwise_reverse.2 ((List.pairwise_lt_finRange n).imp fun hlt =>
    .inr ⟨List.not_mem_nil, List.not_mem_nil, hlt⟩)

/-- **Every step keeps the invariant of the buffers**, with the order of the list after it. -/
theorem BufInv.step {as : List (Event n Block)} (h : BufInv as order s)
    (hstep : Step s a s') : ∃ order', BufInv (as ++ [a]) order' s' := by
  obtain ⟨order', hlist, hrec⟩ := h.list.step h.use hstep
  exact ⟨order', h.use.step h.list hstep, hlist, hrec as h.recency⟩

variable {disk : Key → Block} {zero : Block} {as : List (Event n Block)}

/-- **The invariant of the buffers holds after every run**, whatever the users have stored and
written. -/
theorem bufInv_run (h : Runs Step (init disk zero) as s) : ∃ order, BufInv as order s :=
  h.invariant_labels (P := fun as s => ∃ order, BufInv as order s) ⟨_, bufInv_init disk zero⟩
    fun _ _ _ _ ⟨_, hinv⟩ hstep => hinv.step hstep

/-! ### What the users of the buffers rely on -/

/-- **A buffer in use holds its block, one user at a time**, so that `bwrite` and `brelse` do
not panic, and `refcnt` counts the users and the pins. -/
theorem exclusive (h : Runs Step (init disk zero) as s) :
    (∀ t b k, s.user t = .inUse b k → (s.buf b).key = k ∧ (s.buf b).valid = true ∧
      (s.bwrite t b).isSome ∧ (s.releasesleep t b).isSome) ∧
    (∀ t u b c k, s.user t = .inUse b k → s.user u = .inUse c k → t = u) ∧
    ∀ b, (s.buf b).refcnt =
      (Finset.univ.filter fun t => (s.user t).refers b).card + s.pins b := by
  obtain ⟨order, huse, hlist, -⟩ := bufInv_run h
  refine ⟨fun t b k ht => ⟨huse.key_of_inUse ht, huse.valid t b k ht, ?_, ?_⟩,
    fun t u b c k ht hu => ?_, huse.refs⟩
  · rw [State.bwrite, if_pos (huse.lock_of_inUse ht)]
    rfl
  · rw [State.releasesleep, if_pos (huse.lock_of_inUse ht)]
    rfl
  · obtain rfl : b = c := hlist.unique (.inl (huse.valid t b k ht))
      (.inl (huse.valid u c k hu)) ((huse.key_of_inUse ht).trans (huse.key_of_inUse hu).symm)
    exact Option.some.inj ((huse.lock_of_inUse ht).symm.trans (huse.lock_of_inUse hu))

/-- Two users of one block, of which one waits. -/
theorem exclusive_two : ∃ (as : List (Event 2 ℕ)) (s : State 2 (Fin 2) ℕ),
    Runs Step (init (fun _ => 0) 0) as s ∧ s.user 1 = .waiting 0 (1, 1) ∧
      (s.buf 0).refcnt = 2 ∧ ((s.buf 0).key = (1, 1) ∧ (s.buf 0).valid = true ∧
        (s.bwrite 0 0).isSome ∧ (s.releasesleep 0 0).isSome) := by
  have hnil : Runs Step (init (fun _ => 0) 0 : State 2 (Fin 2) ℕ) [] _ := .nil
  have hrun := hnil.snoc (.bget 0 (1, 1) 0 _ rfl rfl) |>.snoc (.acquiresleep 0 0 (1, 1) rfl rfl)
    |>.snoc (.bread 0 0 (1, 1) rfl) |>.snoc (.bget 1 (1, 1) 0 _ rfl rfl)
  exact ⟨_, _, hrun, rfl, rfl, (exclusive hrun).1 0 0 (1, 1) rfl⟩

end

end OsLabs.Xv6Bio
