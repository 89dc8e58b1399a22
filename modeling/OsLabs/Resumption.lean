import Mathlib.Data.List.Basic
import Mathlib.Logic.Basic

/-!
# Programs that Talk over a Link

A small library for code that reads and writes a byte stream. A `Prog` is a tree of the
actions a piece of code can take: read a symbol from the link, write one, or emit an
output elsewhere; each action can fail, and the continuation sees how it went. A loop is
a function `body : σ → Prog ε β ο (σ ⊕ ρ)` from the state of an iteration to a program
that ends with the state of the next one or with a result.

* `Prog.Steps p i w e q`: with no action failing, `p` becomes `q` after it has read `i`,
  written `w` and emitted `e`.
* `Prog.exec`, `execLoop`: the run on a finite stream, whose end is an error of the
  reads. A loop has a bound on its iterations.

`OsLabs.Network` lets two such loops talk to each other.

## Main results

* `Prog.Steps.trans`, `Prog.Steps.bind`: steps compose; `Prog.Steps.cancel` takes a first
  part away.
* `Prog.Steps.ret_unique`, `Prog.Steps.not_ret`: what is read decides the rest.
* `execLoop_steps`, `execLoop_again`, `execLoop_result`, `execLoop_eof`: the rules by which
  the run of a loop is computed from steps.
-/

namespace OsLabs

/-- Programs over symbols `β` with errors `ε` and outputs `ο`. -/
inductive Prog (ε β ο α : Type) where
  | ret (a : α)
  | read (k : Except ε β → Prog ε β ο α)
  | write (b : β) (k : Except ε Unit → Prog ε β ο α)
  | emit (o : ο) (k : Except ε Unit → Prog ε β ο α)

variable {ε β ο α γ σ ρ : Type}

namespace Prog

/-- Continue with `f` where the program ends. -/
def bind (f : α → Prog ε β ο γ) : Prog ε β ο α → Prog ε β ο γ
  | ret a => f a
  | read k => read fun r => (k r).bind f
  | write b k => write b fun r => (k r).bind f
  | emit o k => emit o fun r => (k r).bind f

/-! ### Steps -/

/-- `Steps p i w e q`: when every action succeeds, `p` reads `i`, writes `w`, emits `e`
and is then `q`. -/
inductive Steps : Prog ε β ο α → List β → List β → List ο → Prog ε β ο α → Prop
  | refl (p : Prog ε β ο α) : Steps p [] [] [] p
  | read {k : Except ε β → Prog ε β ο α} {b : β} {i w : List β} {e : List ο}
      {q : Prog ε β ο α} :
      Steps (k (.ok b)) i w e q → Steps (read k) (b :: i) w e q
  | write {k : Except ε Unit → Prog ε β ο α} {b : β} {i w : List β} {e : List ο}
      {q : Prog ε β ο α} :
      Steps (k (.ok ())) i w e q → Steps (write b k) i (b :: w) e q
  | emit {k : Except ε Unit → Prog ε β ο α} {o : ο} {i w : List β} {e : List ο}
      {q : Prog ε β ο α} :
      Steps (k (.ok ())) i w e q → Steps (emit o k) i w (o :: e) q

/-- Steps compose: what they read, write and emit is put together in order. -/
theorem Steps.trans {p q r : Prog ε β ο α} {i i' w w' : List β} {e e' : List ο}
    (h : Steps p i w e q) (h' : Steps q i' w' e' r) :
    Steps p (i ++ i') (w ++ w') (e ++ e') r := by
  induction h with
  | refl p => exact h'
  | read _ ih => exact Steps.read (ih h')
  | write _ ih => exact Steps.write (ih h')
  | emit _ ih => exact Steps.emit (ih h')

/-- The steps of a program are steps of every continuation of it. -/
theorem Steps.bind {p q : Prog ε β ο α} {i w : List β} {e : List ο} (h : Steps p i w e q)
    (f : α → Prog ε β ο γ) : Steps (p.bind f) i w e (q.bind f) := by
  induction h with
  | refl p => exact Steps.refl _
  | read _ ih => exact Steps.read ih
  | write _ ih => exact Steps.write ih
  | emit _ ih => exact Steps.emit ih

/-- A program that waits at a read has made no more than its part of a longer run. -/
theorem Steps.cancel {p r : Prog ε β ο α} {k : Except ε β → Prog ε β ο α} {b : β}
    {i i' w w₂ : List β} {e e₂ : List ο} (h : Steps p i w e (.read k))
    (h' : Steps p (i ++ b :: i') w₂ e₂ r) :
    ∃ w' e', w₂ = w ++ w' ∧ e₂ = e ++ e' ∧ Steps (.read k) (b :: i') w' e' r := by
  generalize hq : Prog.read k = q at h
  induction h generalizing w₂ e₂ with
  | refl p =>
      subst hq
      exact ⟨w₂, e₂, rfl, rfl, h'⟩
  | read _ ih =>
      cases h' with
      | read h' => exact ih h' hq
  | write _ ih =>
      generalize hi : _ ++ b :: i' = j at h'
      cases h' with
      | refl => simp at hi
      | write h' =>
          subst hi
          obtain ⟨w', e', rfl, rfl, hrest⟩ := ih h' hq
          exact ⟨w', e', rfl, rfl, hrest⟩
  | emit _ ih =>
      generalize hi : _ ++ b :: i' = j at h'
      cases h' with
      | refl => simp at hi
      | emit h' =>
          subst hi
          obtain ⟨w', e', rfl, rfl, hrest⟩ := ih h' hq
          exact ⟨w', e', rfl, rfl, hrest⟩

/-- The symbols read decide what a program that ends has written and emitted, and where it
ends. -/
theorem Steps.ret_unique {p : Prog ε β ο α} {i w w' : List β} {e e' : List ο} {a a' : α}
    (h : Steps p i w e (.ret a)) (h' : Steps p i w' e' (.ret a')) :
    w = w' ∧ e = e' ∧ a = a' := by
  generalize hq : Prog.ret a = q at h
  induction h generalizing w' e' with
  | refl p =>
      subst hq
      cases h'
      exact ⟨rfl, rfl, rfl⟩
  | read _ ih =>
      cases h' with
      | read h' => exact ih h' hq
  | write _ ih =>
      cases h' with
      | write h' =>
          obtain ⟨rfl, rfl, rfl⟩ := ih h' hq
          exact ⟨rfl, rfl, rfl⟩
  | emit _ ih =>
      cases h' with
      | emit h' =>
          obtain ⟨rfl, rfl, rfl⟩ := ih h' hq
          exact ⟨rfl, rfl, rfl⟩

/-- A program that waits for a symbol after `i` has not ended after `i`. -/
theorem Steps.not_ret {p : Prog ε β ο α} {k : Except ε β → Prog ε β ο α} {i w w' : List β}
    {e e' : List ο} {a : α} (h : Steps p i w e (.read k)) : ¬ Steps p i w' e' (.ret a) := by
  generalize hq : Prog.read k = q at h
  induction h generalizing w' e' with
  | refl p =>
      subst hq
      intro h'
      cases h'
  | read _ ih =>
      intro h'
      cases h' with
      | read h' => exact ih hq h'
  | write _ ih =>
      intro h'
      cases h' with
      | write h' => exact ih hq h'
  | emit _ ih =>
      intro h'
      cases h' with
      | emit h' => exact ih hq h'

end Prog

/-! ### Runs on a finite stream -/

/-- How a run ended: its result, what it left of the stream, and its outputs. -/
structure Outcome (β ο α : Type) where
  result : α
  rest : List β
  written : List β
  emitted : List ο

/-- The outcome of a run that first made the outputs `w` and `e`. -/
def Outcome.after (w : List β) (e : List ο) (out : Outcome β ο α) : Outcome β ο α :=
  { out with written := w ++ out.written, emitted := e ++ out.emitted }

/-- What comes before an outcome is put before what it wrote and emitted. -/
@[simp] theorem Outcome.after_mk (w w' : List β) (e e' : List ο) (a : α) (rest : List β) :
    Outcome.after w e ⟨a, rest, w', e'⟩ = ⟨a, rest, w ++ w', e ++ e'⟩ := rfl

/-- What comes before that is put before both. -/
theorem Outcome.after_after (w w' : List β) (e e' : List ο) (out : Outcome β ο α) :
    (out.after w' e').after w e = out.after (w ++ w') (e ++ e') := by
  rw [after, after, after, List.append_assoc, List.append_assoc]

/-- The run of a program on a stream: writes and emissions succeed, and a read at the end
of the stream fails with `eof`. -/
def Prog.exec (eof : ε) : Prog ε β ο α → List β → Outcome β ο α
  | ret a, i => ⟨a, i, [], []⟩
  | read k, [] => (k (.error eof)).exec eof []
  | read k, b :: i => (k (.ok b)).exec eof i
  | write b k, i => ((k (.ok ())).exec eof i).after [b] []
  | emit o k, i => ((k (.ok ())).exec eof i).after [] [o]

/-- Steps are the beginning of a run. -/
theorem Prog.Steps.exec {p q : Prog ε β ο α} {i w : List β} {e : List ο}
    (h : Steps p i w e q) (eof : ε) (rest : List β) :
    p.exec eof (i ++ rest) = (q.exec eof rest).after w e := by
  induction h with
  | refl p => rfl
  | read _ ih => exact ih
  | write _ ih =>
      rw [Prog.exec, ih, Outcome.after_after]
      rfl
  | emit _ ih =>
      rw [Prog.exec, ih, Outcome.after_after]
      rfl

/-- The run of a loop from a program inside it, with at most `fuel` ends of iterations. -/
def execLoop (eof : ε) (body : σ → Prog ε β ο (σ ⊕ ρ)) :
    ℕ → Prog ε β ο (σ ⊕ ρ) → List β → Option (Outcome β ο ρ)
  | 0, _, _ => none
  | fuel + 1, p, i =>
    match p.exec eof i with
    | ⟨.inl s, rest, w, e⟩ => (execLoop eof body fuel (body s) rest).map (Outcome.after w e)
    | ⟨.inr r, rest, w, e⟩ => some ⟨r, rest, w, e⟩

section

variable {eof : ε} {body : σ → Prog ε β ο (σ ⊕ ρ)} {fuel : ℕ}

/-- Steps inside an iteration come out of the run of the loop at its front. -/
theorem execLoop_steps {p q : Prog ε β ο (σ ⊕ ρ)} {i w : List β} {e : List ο}
    (h : p.Steps i w e q) (rest : List β) :
    execLoop eof body fuel p (i ++ rest) =
      (execLoop eof body fuel q rest).map (Outcome.after w e) := by
  cases fuel with
  | zero => rfl
  | succ fuel =>
      rw [execLoop, execLoop, h.exec eof rest]
      obtain ⟨r, rest', w', e'⟩ := q.exec eof rest
      cases r with
      | inl s =>
          simp only [Outcome.after_mk, Option.map_map]
          congr 1
          funext out
          exact (Outcome.after_after _ _ _ _ out).symm
      | inr r => rfl

/-- At the end of an iteration that does not end the loop the next one starts, with one unit of
fuel less. -/
theorem execLoop_again (s : σ) (rest : List β) :
    execLoop eof body (fuel + 1) (.ret (.inl s)) rest = execLoop eof body fuel (body s) rest := by
  rw [execLoop]
  simp only [Prog.exec]
  exact Option.map_id'

/-- An iteration that ends the loop gives its result, with the rest of the stream. -/
theorem execLoop_done (r : ρ) (rest : List β) :
    execLoop eof body (fuel + 1) (.ret (.inr r)) rest = some ⟨r, rest, [], []⟩ := rfl

/-- Steps that end the loop give its outcome: what they read, write and emit, and the rest of the
stream. -/
theorem execLoop_result {p : Prog ε β ο (σ ⊕ ρ)} {i w : List β} {e : List ο} {r : ρ}
    (h : p.Steps i w e (.ret (.inr r))) (rest : List β) :
    execLoop eof body (fuel + 1) p (i ++ rest) = some ⟨r, rest, w, e⟩ := by
  rw [execLoop_steps h, execLoop_done, Option.map_some, Outcome.after_mk, List.append_nil,
    List.append_nil]

/-- At the end of the stream a read fails with the error for it, and the body goes on with
that. -/
theorem execLoop_eof (k : Except ε β → Prog ε β ο (σ ⊕ ρ)) :
    execLoop eof body fuel (.read k) [] = execLoop eof body fuel (k (.error eof)) [] := by
  cases fuel with
  | zero => rfl
  | succ fuel => rfl

end

end OsLabs
