import Mathlib.Data.List.Basic
import OsLabs.Resumption

/-!
# Two Parties and Two Channels

A library for two loops of `OsLabs.Resumption` that talk over first-in first-out
channels, in any interleaving. The channel from the first to the second party may change
what is sent: `send` is a transducer with a state of its own. Reads block while their
channel is empty.

The parties are deterministic, and a step of one never takes away a step of the other, so
the order of the steps does not matter: if some interleaving comes to an end, every one
does, after the same number of steps and in the same configuration.

## Main results

* `Path.head`, `Path.extend`, `Path.eq_of_stuck`: confluence of two commuting partial steps.
* `Net.commutes`: the steps of the two parties commute.
* `Net.left_steps`, `Net.right_steps`: steps of a program are a path of the network.
* `Net.exchange`, `Net.round`: a question and its answer.
* `Net.settles`: one interleaving that ends decides all of them.
-/

namespace OsLabs

/-! ### Commuting steps -/

section

variable {κ : Type} {f g : κ → Option κ}

/-- `Path f g n c d`: `n` steps lead from `c` to `d`, each by `f` or by `g`. -/
inductive Path (f g : κ → Option κ) : ℕ → κ → κ → Prop
  | nil (c : κ) : Path f g 0 c c
  | cons {n : ℕ} {c c' d : κ} : f c = some c' ∨ g c = some c' → Path f g n c' d →
      Path f g (n + 1) c d

/-- Both steps are possible one after the other, in either order, with the same end. -/
def Commutes (f g : κ → Option κ) : Prop :=
  ∀ {c c₁ c₂ : κ}, f c = some c₁ → g c = some c₂ → ∃ d, g c₁ = some d ∧ f c₂ = some d

/-- A configuration where neither step is possible. -/
def Stuck (f g : κ → Option κ) (c : κ) : Prop := f c = none ∧ g c = none

namespace Path

/-- Two paths in a row are one path. -/
theorem trans {n m : ℕ} {c d e : κ} (h : Path f g n c d) (h' : Path f g m d e) :
    Path f g (n + m) c e := by
  induction h with
  | nil c =>
      rw [Nat.zero_add]
      exact h'
  | cons hstep _ ih =>
      rw [Nat.add_right_comm]
      exact cons hstep (ih h')

/-- Whichever step is made first, the end of the path stays reachable and one step
nearer. -/
theorem head (hcomm : Commutes f g) {n : ℕ} {c c' t : κ} (h : Path f g n c t)
    (hstuck : Stuck f g t) (hstep : f c = some c' ∨ g c = some c') :
    ∃ m, n = m + 1 ∧ Path f g m c' t := by
  induction h generalizing c' with
  | nil c =>
      obtain ⟨hf, hg⟩ := hstuck
      rw [hf, hg] at hstep
      simp at hstep
  | @cons n c c₁ t hfirst hpath ih =>
      -- the same party moves, or both moves are completed to a diamond
      have hdiamond : c' = c₁ ∨ ∃ d, (f c₁ = some d ∨ g c₁ = some d) ∧
          (f c' = some d ∨ g c' = some d) := by
        rcases hfirst with hf | hg <;> rcases hstep with hf' | hg'
        · exact Or.inl (Option.some.inj (hf'.symm.trans hf))
        · obtain ⟨d, hd, hd'⟩ := hcomm hf hg'
          exact Or.inr ⟨d, Or.inr hd, Or.inl hd'⟩
        · obtain ⟨d, hd, hd'⟩ := hcomm hf' hg
          exact Or.inr ⟨d, Or.inl hd', Or.inr hd⟩
        · exact Or.inl (Option.some.inj (hg'.symm.trans hg))
      rcases hdiamond with rfl | ⟨d, hd, hd'⟩
      · exact ⟨n, rfl, hpath⟩
      · obtain ⟨m, rfl, hm⟩ := ih hstuck hd
        exact ⟨m + 1, rfl, cons hd' hm⟩

/-- **Every run can be completed** to the end that one run reaches, in the same total
number of steps. -/
theorem extend (hcomm : Commutes f g) {n m : ℕ} {c d t : κ} (h : Path f g n c t)
    (hstuck : Stuck f g t) (hrun : Path f g m c d) :
    ∃ l, n = m + l ∧ Path f g l d t := by
  induction hrun generalizing n with
  | nil c => exact ⟨n, (Nat.zero_add n).symm, h⟩
  | cons hstep _ ih =>
      obtain ⟨k, rfl, hk⟩ := head hcomm h hstuck hstep
      obtain ⟨l, rfl, hl⟩ := ih hk
      exact ⟨l, by rw [Nat.add_right_comm], hl⟩

/-- **Every run that cannot go on has reached that end.** -/
theorem eq_of_stuck (hcomm : Commutes f g) {n m : ℕ} {c d t : κ} (h : Path f g n c t)
    (hstuck : Stuck f g t) (hrun : Path f g m c d) (hd : Stuck f g d) : d = t := by
  obtain ⟨l, -, hl⟩ := extend hcomm h hstuck hrun
  cases hl with
  | nil => rfl
  | cons hstep _ =>
      rw [hd.1, hd.2] at hstep
      simp at hstep

end Path

end

/-! ### The network -/

variable {ε β ο σ₁ ρ₁ σ₂ ρ₂ τ : Type}

/-- Two loops, and the transducer on the channel from the first to the second. -/
structure Net (ε β ο σ₁ ρ₁ σ₂ ρ₂ τ : Type) where
  bodyLeft : σ₁ → Prog ε β ο (σ₁ ⊕ ρ₁)
  bodyRight : σ₂ → Prog ε β ο (σ₂ ⊕ ρ₂)
  send : τ → β → β × τ

/-- A configuration: both programs, the symbols in flight, the state of the transducer,
and what the parties have emitted. -/
structure Config (ε β ο σ₁ ρ₁ σ₂ ρ₂ τ : Type) where
  left : Prog ε β ο (σ₁ ⊕ ρ₁)
  right : Prog ε β ο (σ₂ ⊕ ρ₂)
  toRight : List β
  toLeft : List β
  link : τ
  leftOut : List ο
  rightOut : List ο

namespace Net

variable (N : Net ε β ο σ₁ ρ₁ σ₂ ρ₂ τ)

/-- A step of the first party. -/
def stepLeft (c : Config ε β ο σ₁ ρ₁ σ₂ ρ₂ τ) : Option (Config ε β ο σ₁ ρ₁ σ₂ ρ₂ τ) :=
  match c.left with
  | .ret (.inl s) => some { c with left := N.bodyLeft s }
  | .ret (.inr _) => none
  | .read k =>
    match c.toLeft with
    | [] => none
    | b :: u => some { c with left := k (.ok b), toLeft := u }
  | .write b k =>
    some { c with left := k (.ok ()), toRight := c.toRight ++ [(N.send c.link b).1],
                  link := (N.send c.link b).2 }
  | .emit o k => some { c with left := k (.ok ()), leftOut := c.leftOut ++ [o] }

/-- A step of the second party. -/
def stepRight (c : Config ε β ο σ₁ ρ₁ σ₂ ρ₂ τ) : Option (Config ε β ο σ₁ ρ₁ σ₂ ρ₂ τ) :=
  match c.right with
  | .ret (.inl s) => some { c with right := N.bodyRight s }
  | .ret (.inr _) => none
  | .read k =>
    match c.toRight with
    | [] => none
    | b :: d => some { c with right := k (.ok b), toRight := d }
  | .write b k => some { c with right := k (.ok ()), toLeft := c.toLeft ++ [b] }
  | .emit o k => some { c with right := k (.ok ()), rightOut := c.rightOut ++ [o] }

/-- **The steps of the two parties commute.** -/
theorem commutes : Commutes N.stepLeft N.stepRight := by
  rintro ⟨left, right, d, u, l, lo, ro⟩ c₁ c₂ hl hr
  rcases left with (s | r) | k | ⟨b, k⟩ | ⟨o, k⟩ <;>
    rcases right with (s' | r') | k' | ⟨b', k'⟩ | ⟨o', k'⟩ <;>
    rcases u with - | ⟨x, u⟩ <;> rcases d with - | ⟨y, d⟩ <;>
    simp only [stepLeft, stepRight, reduceCtorEq, Option.some.injEq] at hl hr <;>
    subst hl <;> subst hr <;> exact ⟨_, rfl, rfl⟩

/-- What arrives when `w` is sent, and the state of the transducer afterwards. -/
def carry : τ → List β → List β × τ
  | l, [] => ([], l)
  | l, b :: w => ((N.send l b).1 :: (carry (N.send l b).2 w).1, (carry (N.send l b).2 w).2)

variable {N} in
/-- A transducer that changes no byte and has one state carries the bytes as they are. -/
theorem carry_unchanged {l : τ} (h : ∀ b, N.send l b = (b, l)) (w : List β) :
    N.carry l w = (w, l) := by
  induction w with
  | nil => rfl
  | cons b w ih => rw [carry, h b, ih]

/-- Some interleaving leads from `c` to `d`. -/
def Reach (c d : Config ε β ο σ₁ ρ₁ σ₂ ρ₂ τ) : Prop :=
  ∃ n, Path N.stepLeft N.stepRight n c d

variable {N}

/-- A configuration reaches itself, without a step. -/
theorem Reach.refl (c : Config ε β ο σ₁ ρ₁ σ₂ ρ₂ τ) : N.Reach c c := ⟨0, Path.nil c⟩

/-- What is reached from a reachable configuration is reachable. -/
theorem Reach.trans {c d e : Config ε β ο σ₁ ρ₁ σ₂ ρ₂ τ} (h : N.Reach c d)
    (h' : N.Reach d e) : N.Reach c e := by
  obtain ⟨n, hn⟩ := h
  obtain ⟨m, hm⟩ := h'
  exact ⟨n + m, hn.trans hm⟩

/-- A step of the left party comes first. -/
theorem Reach.left {c d e : Config ε β ο σ₁ ρ₁ σ₂ ρ₂ τ} (hstep : N.stepLeft c = some d)
    (h : N.Reach d e) : N.Reach c e := by
  obtain ⟨n, hn⟩ := h
  exact ⟨n + 1, Path.cons (Or.inl hstep) hn⟩

/-- A step of the right party comes first. -/
theorem Reach.right {c d e : Config ε β ο σ₁ ρ₁ σ₂ ρ₂ τ} (hstep : N.stepRight c = some d)
    (h : N.Reach d e) : N.Reach c e := by
  obtain ⟨n, hn⟩ := h
  exact ⟨n + 1, Path.cons (Or.inr hstep) hn⟩

/-- **Steps of the first party's program** as a path of the network. -/
theorem left_steps {p q : Prog ε β ο (σ₁ ⊕ ρ₁)} {i w : List β} {e : List ο}
    (h : p.Steps i w e q) (right : Prog ε β ο (σ₂ ⊕ ρ₂)) (d u : List β) (l : τ)
    (lo ro : List ο) :
    N.Reach ⟨p, right, d, i ++ u, l, lo, ro⟩
      ⟨q, right, d ++ (N.carry l w).1, u, (N.carry l w).2, lo ++ e, ro⟩ := by
  induction h generalizing d l lo with
  | refl p =>
      rw [carry, List.append_nil, List.append_nil]
      exact Reach.refl _
  | read _ ih => exact Reach.left rfl (ih d l lo)
  | @write k b i w e q _ ih =>
      have hrest := ih (d ++ [(N.send l b).1]) (N.send l b).2 lo
      rw [List.append_assoc] at hrest
      exact Reach.left rfl hrest
  | @emit k o i w e q _ ih =>
      have hrest := ih d l (lo ++ [o])
      rw [List.append_assoc] at hrest
      exact Reach.left rfl hrest

/-- **Steps of the second party's program** as a path of the network. -/
theorem right_steps {p q : Prog ε β ο (σ₂ ⊕ ρ₂)} {i w : List β} {e : List ο}
    (h : p.Steps i w e q) (left : Prog ε β ο (σ₁ ⊕ ρ₁)) (d u : List β) (l : τ)
    (lo ro : List ο) :
    N.Reach ⟨left, p, i ++ d, u, l, lo, ro⟩ ⟨left, q, d, u ++ w, l, lo, ro ++ e⟩ := by
  induction h generalizing u ro with
  | refl p =>
      rw [List.append_nil, List.append_nil]
      exact Reach.refl _
  | read _ ih => exact Reach.right rfl (ih u ro)
  | @write k b i w e q _ ih =>
      have hrest := ih (u ++ [b]) ro
      rw [List.append_assoc] at hrest
      exact Reach.right rfl hrest
  | @emit k o i w e q _ ih =>
      have hrest := ih u (ro ++ [o])
      rw [List.append_assoc] at hrest
      exact Reach.right rfl hrest

/-- **An exchange**: the first party takes what waits for it and sends `w`, the second
takes what arrives and answers with `u`. -/
theorem exchange {p q : Prog ε β ο (σ₁ ⊕ ρ₁)} {r r' : Prog ε β ο (σ₂ ⊕ ρ₂)}
    {i w w' u : List β} {e e' : List ο} {l l' : τ} (hleft : p.Steps i w e q)
    (hcarry : N.carry l w = (w', l')) (hright : r.Steps w' u e' r') (lo ro : List ο) :
    N.Reach ⟨p, r, [], i, l, lo, ro⟩ ⟨q, r', [], u, l', lo ++ e, ro ++ e'⟩ := by
  have hsent := left_steps (N := N) hleft r [] [] l lo ro
  rw [List.append_nil, hcarry, List.nil_append] at hsent
  have hanswered := right_steps (N := N) hright q [] [] l' (lo ++ e) ro
  rw [List.append_nil, List.nil_append] at hanswered
  exact hsent.trans hanswered

/-- **A round**: the first party sends `w` and waits, the second takes what arrives and
answers with `b`, and the first one takes the answer. -/
theorem round {p q : Prog ε β ο (σ₁ ⊕ ρ₁)} {k : Except ε β → Prog ε β ο (σ₁ ⊕ ρ₁)}
    {r r' : Prog ε β ο (σ₂ ⊕ ρ₂)} {w w' : List β} {b : β} {e e' : List ο} {l l' : τ}
    (hwait : p.Steps [] w [] (.read k)) (hleft : p.Steps [b] w e q)
    (hcarry : N.carry l w = (w', l')) (hright : r.Steps w' [b] e' r') (lo ro : List ο) :
    N.Reach ⟨p, r, [], [], l, lo, ro⟩ ⟨q, r', [], [], l', lo ++ e, ro ++ e'⟩ := by
  obtain ⟨more, e₂, hmore, he, hanswer⟩ := hwait.cancel hleft
  rw [List.self_eq_append_right] at hmore
  rw [List.nil_append] at he
  subst hmore he
  have htaken := exchange (N := N) (l := l') hanswer rfl (Prog.Steps.refl r') lo (ro ++ e')
  have hsent := exchange (N := N) hwait hcarry hright lo ro
  rw [List.append_nil] at htaken hsent
  exact hsent.trans htaken

/-! ### What the second party emits -/

/-- A step only adds to what the second party has emitted. -/
theorem rightOut_step {c c' : Config ε β ο σ₁ ρ₁ σ₂ ρ₂ τ}
    (h : N.stepLeft c = some c' ∨ N.stepRight c = some c') : c.rightOut <+: c'.rightOut := by
  obtain ⟨left, right, d, u, l, lo, ro⟩ := c
  rcases h with h | h
  · rcases left with (s | r) | k | ⟨b, k⟩ | ⟨o, k⟩ <;> rcases u with - | ⟨x, u⟩ <;>
      simp only [stepLeft, reduceCtorEq, Option.some.injEq] at h <;> subst h <;>
      exact List.prefix_rfl
  · rcases right with (s | r) | k | ⟨b, k⟩ | ⟨o, k⟩ <;> rcases d with - | ⟨y, d⟩ <;>
      simp only [stepRight, reduceCtorEq, Option.some.injEq] at h <;> subst h <;>
      first
        | exact List.prefix_rfl
        | exact List.prefix_append ro [o]

/-- **A run only adds to what the second party has emitted.** -/
theorem rightOut_path {n : ℕ} {c c' : Config ε β ο σ₁ ρ₁ σ₂ ρ₂ τ}
    (h : Path N.stepLeft N.stepRight n c c') : c.rightOut <+: c'.rightOut := by
  induction h with
  | nil c => exact List.prefix_rfl
  | cons hstep _ ih => exact (rightOut_step hstep).trans ih

/-- **One run decides all runs.** If some interleaving ends, then every interleaving ends,
and ends in the same configuration; on the way, the second party has emitted a part of
what it has emitted in the end. -/
theorem settles {c t : Config ε β ο σ₁ ρ₁ σ₂ ρ₂ τ} (h : N.Reach c t)
    (ht : Stuck N.stepLeft N.stepRight t) :
    ∃ bound, ∀ n d, Path N.stepLeft N.stepRight n c d →
      n ≤ bound ∧ d.rightOut <+: t.rightOut ∧ (Stuck N.stepLeft N.stepRight d → d = t) := by
  obtain ⟨bound, hbound⟩ := h
  refine ⟨bound, fun n d hd => ?_⟩
  obtain ⟨l, hl, hrest⟩ := hbound.extend N.commutes ht hd
  exact ⟨hl ▸ Nat.le_add_right n l, rightOut_path hrest,
    hbound.eq_of_stuck N.commutes ht hd⟩

end Net

end OsLabs
