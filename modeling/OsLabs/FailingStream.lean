import OsLabs.Resumption

/-!
# Programs on a Stream that May Fail

The runs of the programs of `OsLabs.Resumption` on an arbitrary stream: an object with a
state of its own that answers each read and each write with success or with an error, as it
likes. A program always comes to an end on such a stream.

* `Channel.Gives S s i s'`: the stream in state `s` gives the symbols `i`, one after the
  other, and is then in state `s'`; `Channel.Takes` is the same for writes.

## Main results

* `Prog.runOn_bind`: the run of a composed program.
* `Prog.Steps.runOn_reads`, `Prog.Steps.runOn_writes`: steps are the beginning of a run on
  every stream that answers them.
-/

namespace OsLabs

variable {ε β ο α γ σ : Type}

/-- A stream with states `σ`. -/
structure Channel (ε β σ : Type) where
  read : σ → Except ε β × σ
  write : β → σ → Except ε Unit × σ

namespace Channel

variable (S : Channel ε β σ)

/-- The next symbols of the stream. -/
inductive Gives : σ → List β → σ → Prop
  | nil (s : σ) : Gives s [] s
  | cons {s s' : σ} {b : β} {i : List β} :
      (S.read s).1 = .ok b → Gives (S.read s).2 i s' → Gives s (b :: i) s'

/-- Symbols that the stream accepts. -/
inductive Takes : σ → List β → σ → Prop
  | nil (s : σ) : Takes s [] s
  | cons {s s' : σ} {b : β} {w : List β} :
      (S.write b s).1 = .ok () → Takes (S.write b s).2 w s' → Takes s (b :: w) s'

variable {S}

/-- What two readings in a row give is what both give together. -/
theorem Gives.append {s s' s'' : σ} {i i' : List β} (h : S.Gives s i s')
    (h' : S.Gives s' i' s'') : S.Gives s (i ++ i') s'' := by
  induction h with
  | nil s => exact h'
  | cons hb _ ih => exact Gives.cons hb (ih h')

end Channel

namespace Prog

variable {S : Channel ε β σ}

/-- **The run of a program** on a stream: its result and the stream afterwards. Outputs
elsewhere succeed. -/
def runOn (S : Channel ε β σ) : Prog ε β ο α → σ → α × σ
  | ret a, s => (a, s)
  | read k, s => (k (S.read s).1).runOn S (S.read s).2
  | write b k, s => (k (S.write b s).1).runOn S (S.write b s).2
  | emit _ k, s => (k (.ok ())).runOn S s

/-- **The run of a composed program** is the run of its second part on the stream that the first
part has left. -/
theorem runOn_bind (p : Prog ε β ο α) (f : α → Prog ε β ο γ) (s : σ) :
    (p.bind f).runOn S s = (f (p.runOn S s).1).runOn S (p.runOn S s).2 := by
  induction p generalizing s with
  | ret a => rfl
  | read k ih => exact ih _ _
  | write b k ih => exact ih _ _
  | emit o k ih => exact ih _ _

/-- Steps that only read can be taken off the front of a run, if the stream gives these bytes. -/
theorem Steps.runOn_reads {p q : Prog ε β ο α} {i : List β} {e : List ο} {s s' : σ}
    (h : Steps p i [] e q) (hs : S.Gives s i s') : p.runOn S s = q.runOn S s' := by
  generalize hw : ([] : List β) = w at h
  induction h generalizing s with
  | refl p =>
      cases hs
      rfl
  | read _ ih =>
      cases hs with
      | cons hb hs =>
          rw [runOn, hb]
          exact ih hs hw
  | write _ _ => cases hw
  | emit _ ih => exact ih hs hw

/-- Steps that only write can be taken off the front of a run, if the stream takes these bytes. -/
theorem Steps.runOn_writes {p q : Prog ε β ο α} {w : List β} {e : List ο} {s s' : σ}
    (h : Steps p [] w e q) (hs : S.Takes s w s') : p.runOn S s = q.runOn S s' := by
  generalize hi : ([] : List β) = i at h
  induction h generalizing s with
  | refl p =>
      cases hs
      rfl
  | read _ _ => cases hi
  | write _ ih =>
      cases hs with
      | cons hb hs =>
          rw [runOn, hb]
          exact ih hs hi
  | emit _ ih => exact ih hs hi

end Prog

end OsLabs
